import OpenLsd.Theorems.Slab

/-!
# `kmalloc` delivers zeroed memory

Nothing is cleared when an object is handed out. The bytes of an object that is not handed out are zero: a new slab page is
cleared as a whole, `kfree` clears the object, and nobody else writes to it. The headers of the objects and the footers of the
slabs are rewritten in the same pages by every call, with words that may be anything here; what has to be shown of them is where
they are.
-/

namespace OpenLsd

open Function

/-- The byte `o` of the frame `f` is one of the `n` bytes at the address `a` of the direct map. -/
def ByteOf (a n f o : Nat) : Prop := o < PAGE_SIZE ∧ a ≤ page2kva f + o ∧ page2kva f + o < a + n

instance (a n f o : Nat) : Decidable (ByteOf a n f o) := inferInstanceAs (Decidable (_ ∧ _))

/-- The contents of the pages after a call for an allocator that led from `k` to `k'`: only in headers and footers they may be
other than the model has them. -/
def Rewritten (k k' : Kmem) (slab : Nat) (obj : Option Nat) (bytes : Nat → Nat → UInt8) : Prop :=
  ∀ f o, o < PAGE_SIZE → bytes f o ≠ k'.phys.bytes f o → ∃ r ∈ k.written k' slab obj, ByteOf r.1 r.2 f o

theorem Rewritten.same (k k' : Kmem) (slab : Nat) (obj : Option Nat) : Rewritten k k' slab obj k'.phys.bytes :=
  fun _ _ _ h => absurd rfl h

/-- The runs of `SlabRun` with the contents of the pages: each call rewrites headers and footers, the holders of the objects
write to the bytes that they requested, and nobody writes to the other bytes of slab pages. -/
inductive HolderRun : Kmem → (Nat → Option Nat) → List LiveObj → Prop
  | init (k : Kmem) (alloc : Orders) (h : Frames k.phys alloc) : HolderRun k.kmemInit (fun _ => none) []
  | kmalloc {k k' : Kmem} {owner : Nat → Option Nat} {live : List LiveObj} (h : HolderRun k owner live) (size : Nat)
    (hsize : size < 2 ^ 64) {r : Option Nat} (hr : k.kmalloc size = .ok (r, k')) (bytes : Nat → Nat → UInt8)
    (hb : Rewritten k k' (sizeClass size) r bytes) :
    HolderRun (k'.withBytes bytes) (taken owner k.phys k'.phys (sizeClass size)) (r.elim live fun p => ⟨p, size⟩ :: live)
  | kfree {k k' : Kmem} {owner : Nat → Option Nat} {live : List LiveObj} (h : HolderRun k owner live) (o : LiveObj)
    (ho : o ∈ live) (hr : k.kfree o.addr = .ok k') (bytes : Nat → Nat → UInt8)
    (hb : Rewritten k k' (k.infos (k.objInfo (o.addr - SLAB_OBJ_SIZE))).slab (some o.addr) bytes) :
    HolderRun (k'.withBytes bytes) (released owner k'.phys) (live.erase o)
  | other {k : Kmem} {owner : Nat → Option Nat} {live : List LiveObj} (h : HolderRun k owner live) (m : Phys)
    (alloc : Orders) (hm : Frames m alloc)
    (hkeep : ∀ p, owner p ≠ none → alloc p = some 0 ∧ (m.pages p).ppRef = 1)
    (hwrite : ∀ f o, owner f ≠ none → o < PAGE_SIZE → m.bytes f o ≠ k.phys.bytes f o →
      ∃ x ∈ live, ByteOf x.addr x.size f o) : HolderRun { k with phys := m } owner live

/-- The frames are those of the slab pages, whatever they contain. -/
theorem SlabState.frames_bytes {k : Kmem} {owner : Nat → Option Nat} {live : List LiveObj} (h : SlabState k owner live)
    (bytes : Nat → Nat → UInt8) : ∃ alloc, Frames (k.withBytes bytes).phys alloc ∧
      ∀ p, owner p ≠ none → alloc p = some 0 ∧ ((k.withBytes bytes).phys.pages p).ppRef = 1 := by
  obtain ⟨alloc, hinv, -⟩ := h
  refine ⟨alloc, hinv.frames.congr_pages rfl rfl (fun _ => rfl) (fun _ => rfl) (fun _ => rfl) fun _ => rfl, fun p hp => ?_⟩
  obtain ⟨i, hi⟩ := Option.ne_none_iff_exists'.1 hp
  exact ⟨(hinv.frame p i hi).alloc, (hinv.frame p i hi).ppRef⟩

/-- The contents of the pages are nothing to the records. -/
theorem SlabRun.withBytes {k : Kmem} {owner : Nat → Option Nat} {live : List LiveObj} (h : SlabRun k owner live)
    (bytes : Nat → Nat → UInt8) : SlabRun (k.withBytes bytes) owner live := by
  obtain ⟨alloc, hm, hkeep⟩ := h.state.frames_bytes bytes
  exact .other h _ alloc hm hkeep

theorem HolderRun.slabRun {k : Kmem} {owner : Nat → Option Nat} {live : List LiveObj} (h : HolderRun k owner live) :
    SlabRun k owner live := by
  induction h with
  | init k alloc h => exact .init k alloc h
  | kmalloc _ size hsize hr bytes _ ih => exact (SlabRun.kmalloc ih size hsize hr).withBytes bytes
  | kfree _ o ho hr bytes _ ih => exact (SlabRun.kfree ih o ho hr).withBytes bytes
  | other _ m alloc hm hkeep _ ih => exact .other ih m alloc hm hkeep

/-- The bytes of the objects that are not handed out are zero. -/
def Zeroed (k : Kmem) (owner : Nat → Option Nat) : Prop :=
  ∀ p i j, owner p = some i → j < slabCount i → ¬Held k owner (objAddr p i j) →
    ∀ f o, ByteOf (objAddr p i j + SLAB_OBJ_SIZE) (slabObjSize i - SLAB_OBJ_SIZE) f o → k.phys.bytes f o = 0

section

variable {k k' : Kmem} {alloc owner : Nat → Option Nat} {live : List LiveObj} {p i j f o : Nat}

/-- Bytes in the room of an object are in its page, and tell which object it is. -/
theorem ByteOf.place {a n : Nat} (h : ByteOf a n f o) (hi : i < 32) (hj : j < slabCount i) (ha : objAddr p i j ≤ a)
    (hn : a + n ≤ objAddr p i j + slabObjSize i) : f = p ∧ o / slabObjSize i = j := by
  obtain ⟨ho, hlo, hhi⟩ := h
  have hend := objAddr_end_le (p := p) hj
  have hoff := slabInfoOff_lt hi
  have hf : f = p := by
    rw [← kvaFrame_page2kva (p := f) ho, show page2kva f + o = page2kva p + (page2kva f + o - page2kva p) by
      unfold objAddr at ha; omega]
    refine kvaFrame_page2kva ?_
    unfold infoAddr at hend
    omega
  subst hf
  unfold objAddr at ha hn
  exact ⟨rfl, Nat.div_eq_of_lt_le (by omega) (by rw [Nat.succ_mul]; omega)⟩

theorem ByteOf.body (h : ByteOf (objAddr p i j + SLAB_OBJ_SIZE) (slabObjSize i - SLAB_OBJ_SIZE) f o) (hi : i < 32)
    (hj : j < slabCount i) : f = p ∧ o / slabObjSize i = j := by
  have := slabObjSize_pos i
  exact h.place hi hj (Nat.le_add_right _ _) (by omega)

/-! ### Headers and footers -/

/-- A header or the footer of the slab page `p` of a class. -/
def IsLink (p i : Nat) (r : Nat × Nat) : Prop :=
  r = (infoAddr p i, SLAB_INFO_SIZE) ∨ ∃ j < slabCount i, r = (objAddr p i j, SLAB_OBJ_SIZE)

/-- The lists of a class are made of headers and footers of its pages. -/
theorem SlabInv.isLink (h : SlabInv k alloc owner) (hi : i < 32) {r : Nat × Nat} (hr : r ∈ k.links i) :
    ∃ p, owner p = some i ∧ IsLink p i r := by
  obtain ⟨info, hinfo, hr⟩ := List.mem_flatMap.1 hr
  obtain ⟨p, hp, rfl⟩ : ∃ p, owner p = some i ∧ info = infoAddr p i := by
    rcases List.mem_append.1 hinfo with hm | hm
    · obtain ⟨p, hp, he, -⟩ := ((h.partials i hi).mem_iff info).1 hm
      exact ⟨p, hp, he⟩
    · obtain ⟨p, hp, he, -⟩ := ((h.full i hi).mem_iff info).1 hm
      exact ⟨p, hp, he⟩
  refine ⟨p, hp, ?_⟩
  rcases List.mem_cons.1 hr with rfl | hr
  · exact .inl rfl
  · obtain ⟨obj, hobj, rfl⟩ := List.mem_map.1 hr
    obtain ⟨j, hj, rfl⟩ := (h.page p i hp).objects obj hobj
    exact .inr ⟨j, hj, rfl⟩

/-- A byte of a header or footer is in its page, and in no object of the page. -/
theorem IsLink.apart {q l : Nat} {r : Nat × Nat} (hr : IsLink q l r) (hl : l < 32) (hb : ByteOf r.1 r.2 f o) (hi : i < 32)
    (hj : j < slabCount i) (hpq : p = q → i = l) :
    ¬ByteOf (objAddr p i j + SLAB_OBJ_SIZE) (slabObjSize i - SLAB_OBJ_SIZE) f o := by
  intro hbody
  obtain ⟨rfl, hjo⟩ := hbody.body hi hj
  obtain ⟨-, hlo, hhi⟩ := hbody
  rcases hr with rfl | ⟨j', hj', rfl⟩
  · have hf : f = q := by
      have hoff := slabInfoOff_lt hl
      obtain ⟨ho, h1, h2⟩ := hb
      simp only [infoAddr] at h1 h2
      rw [← kvaFrame_page2kva (p := f) ho, show page2kva f + o = page2kva q + (page2kva f + o - page2kva q) by omega]
      exact kvaFrame_page2kva (by omega)
    obtain rfl := hf
    obtain rfl := hpq rfl
    have hend := objAddr_end_le (p := f) hj
    have hpos := slabObjSize_pos i
    have hfoot := hb.2.1
    dsimp only at hfoot
    omega
  · have hpos := slabObjSize_pos l
    obtain ⟨rfl, hjo'⟩ := hb.place hl hj' le_rfl (by dsimp only; omega)
    obtain rfl := hpq rfl
    obtain rfl := hjo.symm.trans hjo'
    have hhead := hb.2.2
    dsimp only at hhead
    omega

/-- Contents that differ from those of a state in headers and footers of its slab pages, and of pages that have become none. -/
def OnlyLinks (k : Kmem) (owner : Nat → Option Nat) (bytes : Nat → Nat → UInt8) : Prop :=
  ∀ f o, o < PAGE_SIZE → bytes f o ≠ k.phys.bytes f o →
    ∃ r q l, ByteOf r.1 r.2 f o ∧ IsLink q l r ∧ l < 32 ∧ ∀ i, owner q = some i → i = l

/-- Such contents are the same in every object. -/
theorem OnlyLinks.body {bytes : Nat → Nat → UInt8} (h : OnlyLinks k owner bytes) (hp : owner p = some i) (hi : i < 32)
    (hj : j < slabCount i) (hb : ByteOf (objAddr p i j + SLAB_OBJ_SIZE) (slabObjSize i - SLAB_OBJ_SIZE) f o) :
    bytes f o = k.phys.bytes f o := by
  by_contra hne
  obtain ⟨r, q, l, hr, hlink, hl, hown⟩ := h f o hb.1 hne
  exact hlink.apart hl hr hi hj (fun hpq => hown i (hpq ▸ hp)) hb

/-- What a call rewrites are headers and footers, if the pages of the class keep it or go. -/
theorem Rewritten.onlyLinks {alloc' owner' : Nat → Option Nat} {bytes : Nat → Nat → UInt8} {q : Nat}
    (hb : Rewritten k k' i (some (objAddr q i j + SLAB_OBJ_SIZE)) bytes) (h : SlabInv k alloc owner)
    (h' : SlabInv k' alloc' owner') (hi : i < 32) (hj : j < slabCount i)
    (hkeep : ∀ p l l', p = q ∧ l = i ∨ owner p = some l → owner' p = some l' → l' = l) : OnlyLinks k' owner' bytes := by
  intro f o ho hne
  obtain ⟨r, hr, hbyte⟩ := hb f o ho hne
  rcases List.mem_cons.1 hr with rfl | hr
  · exact ⟨_, q, i, hbyte, .inr ⟨j, hj, by rw [Nat.add_sub_cancel]⟩, hi, fun l' hl' => hkeep q i l' (.inl ⟨rfl, rfl⟩) hl'⟩
  · rcases List.mem_append.1 hr with hr | hr
    · obtain ⟨p, hp, hlink⟩ := h.isLink hi hr
      exact ⟨r, p, i, hbyte, hlink, hi, fun l' hl' => hkeep p i l' (.inr hp) hl'⟩
    · obtain ⟨p, hp, hlink⟩ := h'.isLink hi hr
      exact ⟨r, p, i, hbyte, hlink, hi, fun l' hl' => Option.some.inj (hl'.symm.trans hp)⟩

/-! ### Zeroed objects -/

namespace Zeroed

variable (hz : Zeroed k owner)

include hz

/-- Writes to headers and footers leave the objects zero. -/
theorem links {bytes : Nat → Nat → UInt8} (h : SlabInv k alloc owner) (hb : OnlyLinks k owner bytes) :
    Zeroed (k.withBytes bytes) owner :=
  fun p i j hp hj hno f o hbyte => (hb.body hp (h.lt p i hp) hj hbyte).trans (hz p i j hp hj hno f o hbyte)

/-- What `kmalloc` returns is zero, and it hands out nothing else. -/
theorem kmalloc (h : SlabState k owner live) {size : Nat} {r : Option Nat} (hs : size < 2 ^ 64)
    (hr : k.kmalloc size = .ok (r, k')) {bytes : Nat → Nat → UInt8} (hw : Rewritten k k' (sizeClass size) r bytes) :
    Zeroed (k'.withBytes bytes) (taken owner k.phys k'.phys (sizeClass size)) ∧
      ∀ a, r = some a → ∀ f o, ByteOf a size f o → bytes f o = 0 := by
  obtain ⟨alloc, hinv, hn, -⟩ := h
  rcases hinv.kmalloc hn size with ⟨hrun, -⟩ | ⟨-, hi, p, j, k1, alloc', hrun, ht, hbytes⟩ <;> cases hr.symm.trans hrun
  · rw [taken_self]
    refine ⟨hz.links hinv fun f o ho hne => ?_, nofun⟩
    obtain ⟨r, hr, -⟩ := hw f o ho hne
    cases hr
  rw [ht.taken]
  have hlinks : OnlyLinks k' (update owner p (some (sizeClass size))) bytes := by
    refine Rewritten.onlyLinks hw hinv ht.inv hi ht.lt ?_
    intro q l l' hq hq'
    by_cases hqp : q = p
    · subst hqp
      rw [update_self] at hq'
      rcases hq with ⟨-, hl⟩ | hq
      · exact (Option.some.inj hq').symm.trans hl.symm
      · rcases ht.frames with ⟨hown, _⟩ | ⟨hown, _⟩ <;> rw [hown] at hq
        · exact Option.some.inj (hq'.symm.trans hq)
        · cases hq
    · rw [update_of_ne hqp] at hq'
      exact Option.some.inj (hq'.symm.trans (hq.resolve_left fun e => hqp e.1))
  -- An object that was not handed out before is on a page that is new, or was zero before.
  have key : ∀ q l j', update owner p (some (sizeClass size)) q = some l → j' < slabCount l → ¬Held k owner (objAddr q l j') →
      ∀ f o, ByteOf (objAddr q l j' + SLAB_OBJ_SIZE) (slabObjSize l - SLAB_OBJ_SIZE) f o → bytes f o = 0 := by
    intro q l j' hq hj' hno f o hb
    rw [hlinks.body hq (ht.inv.lt q l hq) hj' hb]
    obtain ⟨rfl, -⟩ := hb.body (ht.inv.lt q l hq) hj'
    rw [hbytes]
    split
    · rfl
    · rename_i hold
      refine hz f l j' ?_ hj' hno f o hb
      by_cases hfp : f = p
      · subst hfp
        rcases ht.frames with ⟨hown, _⟩ | ⟨hown, _⟩
        · rw [update_self] at hq
          exact hown.trans hq
        · exact absurd ⟨hown, rfl⟩ hold
      · rwa [update_of_ne hfp] at hq
  refine ⟨fun q l j' hq hj' hno => key q l j' hq hj' fun hh => hno ((ht.held _).2 (.inl hh)), ?_⟩
  intro a ha f o hb
  obtain rfl := Option.some.inj ha
  have hle := le_of_sizeClass_lt hs hi
  have hpos := slabObjSize_pos (sizeClass size)
  exact key p _ j (update_self ..) ht.lt ht.fresh f o ⟨hb.1, hb.2.1, lt_of_lt_of_le hb.2.2 (by omega)⟩

theorem kfree (h : SlabState k owner live) {x : LiveObj} (hx : x ∈ live) (hr : k.kfree x.addr = .ok k')
    {bytes : Nat → Nat → UInt8}
    (hw : Rewritten k k' (k.infos (k.objInfo (x.addr - SLAB_OBJ_SIZE))).slab (some x.addr) bytes) :
    Zeroed (k'.withBytes bytes) (released owner k'.phys) := by
  obtain ⟨alloc, hinv, hn, hlive⟩ := h
  obtain ⟨p, i, j, hown, hj, ha, -⟩ := hlive.fits x hx
  have hi := hinv.lt p i hown
  have hfree := ((hinv.held_page hown (kvaFrame_objAddr hi hj)).1 ((hlive.held _).2 ⟨x, hx, ha⟩)).2
  obtain ⟨k1, alloc', owner', hrun, hg, hbytes⟩ := hinv.slabFree hn hown hj hfree
  rw [ha] at hr
  cases hr.symm.trans hrun
  rw [hg.released]
  have hold : ∀ q l, owner' q = some l → owner q = some l := by
    intro q l hq
    rcases hg.frames with ⟨rfl, _⟩ | ⟨rfl, _⟩
    · exact hq
    · by_cases hqp : q = p
      · rw [hqp, update_self] at hq
        cases hq
      · rwa [update_of_ne hqp] at hq
  have hlinks : OnlyLinks k' owner' bytes := by
    rw [ha, Nat.add_sub_cancel, (hinv.page p i hown).header j hj, (hinv.page p i hown).slab] at hw
    refine hw.onlyLinks hinv hg.inv hi hj fun q l l' hq hq' => ?_
    rcases hq with ⟨rfl, rfl⟩ | hq
    · exact Option.some.inj ((hold q l' hq').symm.trans hown)
    · exact Option.some.inj ((hold q l' hq').symm.trans hq)
  refine links ?_ hg.inv hlinks
  intro q l j' hq hj' hno f o hb
  have hq0 := hold q l hq
  rw [hbytes]
  simp only [Kmem.memset]
  split
  · rfl
  · rename_i hout
    refine hz q l j' hq0 hj' (fun hh => hno ((hg.held _).2 ⟨hh, fun e => hout ?_⟩)) f o hb
    have hqp : q = p := by rw [← kvaFrame_objAddr (p := q) (hinv.lt q l hq0) hj', e, kvaFrame_objAddr hi hj]
    rw [hqp, hown] at hq0
    cases hq0
    exact e ▸ hb

/-- The bytes that a holder requested are none of an object that is not handed out. -/
theorem other (h : SlabState k owner live) {m : Phys} (hwrite : ∀ f o, owner f ≠ none → o < PAGE_SIZE →
    m.bytes f o ≠ k.phys.bytes f o → ∃ x ∈ live, ByteOf x.addr x.size f o) : Zeroed { k with phys := m } owner := by
  obtain ⟨alloc, hinv, -, hlive⟩ := h
  intro p i j hp hj hno f o hb
  obtain ⟨rfl, hjo⟩ := hb.body (hinv.lt p i hp) hj
  by_contra hne
  rw [← hz f i j hp hj hno f o hb] at hne
  obtain ⟨x, hx, hbx⟩ := hwrite f o (by rw [hp]; exact Option.some_ne_none i) hb.1 hne
  obtain ⟨q, l, j', hq, hj', ha, hend, -⟩ := hlive.bounds hx
  obtain ⟨rfl, hjo'⟩ := hbx.place (hinv.lt q l hq) hj' (by omega) hend
  rw [hp] at hq
  cases hq
  exact hno ((hlive.held _).2 ⟨x, hx, by rw [ha, ← hjo', hjo]⟩)

end Zeroed

theorem HolderRun.zeroed (h : HolderRun k owner live) : Zeroed k owner := by
  induction h with
  | init k alloc h => exact nofun
  | kmalloc h size hsize hr bytes hb ih => exact (ih.kmalloc h.slabRun.state hsize hr hb).1
  | kfree h o ho hr bytes hb ih => exact ih.kfree h.slabRun.state ho hr hb
  | other h m alloc hm hkeep hwrite ih => exact ih.other h.slabRun.state hwrite

end

/-- In every state that a run reaches in which holders write only to the bytes that they requested, (1) `kmalloc` returns
`NULL` for the size 0 and for every size above 1024; (2) for a size from 1 to 1024 it returns, `NULL` only when the class has
no partial slab and the buddy allocator no page; (3) what it returns otherwise is the room of one object of a slab page, with
at least `size` bytes behind the header, which are all 0, whatever the call has written to headers and footers; (4) no byte
that a holder requested is one of a header or a footer. -/
theorem kmalloc_zeroed {k : Kmem} {owner : Nat → Option Nat} {live : List LiveObj} (h : HolderRun k owner live) (size : Nat)
    (hs : size < 2 ^ 64) :
    (size = 0 ∨ 1024 < size → k.kmalloc size = .ok (none, k)) ∧
    (0 < size → size ≤ 1024 → ∃ r k', k.kmalloc size = .ok (r, k') ∧
      (r = none → (k.slabs (sizeClass size)).partialSlabs = [] ∧ (k.phys.pageAlloc ALLOC_ZERO).1 = none) ∧
      ∀ a, r = some a →
        (∀ bytes, Rewritten k k' (sizeClass size) r bytes → ∀ f o, ByteOf a size f o → bytes f o = 0) ∧
        ∃ p i j, taken owner k.phys k'.phys i p = some i ∧ j < slabCount i ∧ a = objAddr p i j + SLAB_OBJ_SIZE ∧
          a + size ≤ objAddr p i j + slabObjSize i) ∧
    ∀ x ∈ live, ∀ p i r, owner p = some i → IsLink p i r → ∀ f o, ByteOf r.1 r.2 f o → ¬ByteOf x.addr x.size f o := by
  have hstate := h.slabRun.state
  obtain ⟨alloc, hinv, hn, hlive⟩ := h.slabRun.state
  refine ⟨fun hout => ?_, fun hpos hle => ?_, fun x hx p i r hp hr f o hb hbx => ?_⟩
  · rcases hinv.kmalloc hn size with ⟨hrun, -⟩ | ⟨h0, hi, -⟩
    · exact hrun
    · have hle := le_of_sizeClass_lt hs hi
      simp only [SLAB_ALIGN] at hle
      omega
  · have hi : sizeClass size < 32 := by
      simp only [sizeClass, slabRoundUp, add64, sub64, SLAB_ALIGN]
      omega
    rcases hinv.kmalloc hn size with ⟨hrun, hwhy⟩ | ⟨-, -, p, j, k', alloc', hrun, ht, -⟩
    · refine ⟨none, k, hrun, fun _ => ?_, by simp⟩
      rcases hwhy with h0 | hc | hno
      · omega
      · omega
      · exact hno
    · refine ⟨_, k', hrun, by simp, ?_⟩
      intro a ha
      obtain rfl := Option.some.inj ha
      have hroom := le_of_sizeClass_lt hs hi
      have hsize := slabObjSize_pos (sizeClass size)
      exact ⟨fun bytes hb => (h.zeroed.kmalloc hstate hs hrun hb).2 _ rfl, p, _, j, by rw [ht.taken, update_self], ht.lt, rfl,
        by omega⟩
  · obtain ⟨q, l, j, hq, hj, ha, hend, -⟩ := hlive.bounds hx
    have hclass : q = p → l = i := by
      rintro rfl
      exact Option.some.inj (hq.symm.trans hp)
    refine hr.apart (hinv.lt p i hp) hb (hinv.lt q l hq) hj hclass ?_
    obtain ⟨ho, hlo, hhi⟩ := hbx
    exact ⟨ho, by rw [← ha]; exact hlo, by omega⟩

/-- The contents of the pages with `n` bytes at an address filled with a value. -/
def filled (k : Kmem) (a n : Nat) (v : UInt8) : Nat → Nat → UInt8 := fun f o => if ByteOf a n f o then v else k.phys.bytes f o

theorem byteOf_of_filled {a n : Nat} {v : UInt8} (h : filled k a n v f o ≠ k.phys.bytes f o) : ByteOf a n f o := by
  by_contra hb
  exact h (if_neg hb)

/-- Of two objects of 100 bytes, the first call having filled the header of its object, one is filled by its holder and freed.
The next call hands it out again, full of zeroes. -/
theorem kmalloc_zeroed_reused : ∃ k owner k' owner' k'' a b,
    HolderRun k owner [⟨b, 100⟩, ⟨a, 100⟩] ∧ (∀ f o, ByteOf a 100 f o → k.phys.bytes f o = 7) ∧ k.kfree a = .ok k' ∧
    HolderRun k' owner' [⟨b, 100⟩] ∧ k'.kmalloc 100 = .ok (some a, k'') ∧ ∀ f o, ByteOf a 100 f o → k''.phys.bytes f o = 0 := by
  have hfound : ∃ x, onePageKmem.kmemInit.kmalloc 100 = .ok x ∧ ∃ a, x.1 = some a ∧
      ∃ y, (x.2.withBytes (filled x.2 (a - SLAB_OBJ_SIZE) SLAB_OBJ_SIZE 255)).kmalloc 100 = .ok y ∧ ∃ b, y.1 = some b ∧ b ≠ a ∧
      ∃ z, (y.2.withBytes (filled y.2 a 100 7)).kfree a = .ok z ∧ ∃ w, z.kmalloc 100 = .ok w ∧ w.1 = some a := by
    decide +kernel
  obtain ⟨⟨_, k1⟩, h1, a, rfl, ⟨_, k2⟩, h2, b, rfl, hne, k3, h3, ⟨_, k4⟩, h4, rfl⟩ := hfound
  have hrun1 := (HolderRun.init onePageKmem _ onePageKmem_frames).kmalloc 100 (by decide) h1 (filled k1 (a - SLAB_OBJ_SIZE) SLAB_OBJ_SIZE 255)
    fun f o _ hb => ⟨_, List.mem_cons_self, byteOf_of_filled hb⟩
  have hrun2 := hrun1.kmalloc 100 (by decide) h2 _ (.same _ _ _ _)
  obtain ⟨alloc, hm, hkeep⟩ := hrun2.slabRun.state.frames_bytes (filled k2 a 100 7)
  have hmem : (⟨a, 100⟩ : LiveObj) ∈ ([⟨b, 100⟩, ⟨a, 100⟩] : List LiveObj) := by simp
  have hfill := hrun2.other _ alloc hm hkeep fun f o _ _ hb => ⟨⟨a, 100⟩, hmem, byteOf_of_filled hb⟩
  have hrun3 := hfill.kfree ⟨a, 100⟩ hmem h3 _ (.same _ _ _ _)
  have hlive : ([⟨b, 100⟩, ⟨a, 100⟩] : List LiveObj).erase ⟨a, 100⟩ = [⟨b, 100⟩] := by simp [hne]
  obtain ⟨r, k5, h5, -, hzero⟩ := (kmalloc_zeroed hrun3 100 (by decide)).2.1 (by decide) (by decide)
  cases h4.symm.trans h5
  exact ⟨_, _, k3, _, k4, a, b, hfill, fun f o hb => if_pos hb, h3, hlive ▸ hrun3, h4, (hzero a rfl).1 _ (.same _ _ _ _)⟩

end OpenLsd
