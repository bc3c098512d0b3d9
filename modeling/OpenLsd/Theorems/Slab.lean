import OpenLsd.Lemmas.Slab
import OpenLsd.Theorems.Buddy

/-!
# The slab allocators over whole histories

Runs of `kmalloc` and `kfree` from `kmem_init` on, and what holds of the slab pages and of the live objects in every state
that a run reaches. Which pages belong to a size class is read off the free frames: a call of `kmalloc` makes slab pages of
the frames that it takes from the buddy allocator, and a frame that is free belongs to no class.
-/

namespace OpenLsd

open Function

variable {owner alloc : Nat → Option Nat} {k k' : Kmem} {p i : Nat} {live : List LiveObj}

/-- An object that `kmalloc` returned and that was not freed since, with the size that was asked for. -/
structure LiveObj where
  addr : Nat
  size : Nat
  deriving DecidableEq

/-- The size class that `kmalloc` asks. -/
def sizeClass (size : Nat) : Nat := sub64 (slabRoundUp size / SLAB_ALIGN) 1

open Classical in
/-- The slab pages after a call for the class `i`: the frames that the call took are its slab pages. -/
noncomputable def taken (owner : Nat → Option Nat) (m m' : Phys) (i : Nat) : Nat → Option Nat :=
  fun p => if p ∈ m.freeSet ∧ p ∉ m'.freeSet then some i else owner p

open Classical in
/-- The slab pages after an object was freed: a frame that is free is no slab page. -/
noncomputable def released (owner : Nat → Option Nat) (m : Phys) : Nat → Option Nat :=
  fun p => if p ∈ m.freeSet then none else owner p

/-- The runs of the slab allocators, with the slab pages and the live objects. -/
inductive SlabRun : Kmem → (Nat → Option Nat) → List LiveObj → Prop
  /-- `kmem_init`. -/
  | init (k : Kmem) (alloc : Orders) (h : Frames k.phys alloc) : SlabRun k.kmemInit (fun _ => none) []
  /-- `kmalloc` of any size. -/
  | kmalloc {k k' : Kmem} {owner : Nat → Option Nat} {live : List LiveObj} (h : SlabRun k owner live) (size : Nat)
    (hsize : size < 2 ^ 64) {r : Option Nat} (hr : k.kmalloc size = .ok (r, k')) :
    SlabRun k' (taken owner k.phys k'.phys (sizeClass size)) (r.elim live fun p => ⟨p, size⟩ :: live)
  /-- `kfree` of a live object. -/
  | kfree {k k' : Kmem} {owner : Nat → Option Nat} {live : List LiveObj} (h : SlabRun k owner live) (o : LiveObj)
    (ho : o ∈ live) (hr : k.kfree o.addr = .ok k') : SlabRun k' (released owner k'.phys) (live.erase o)
  /-- The rest of the kernel uses physical memory, and leaves to the slab pages their one reference. -/
  | other {k : Kmem} {owner : Nat → Option Nat} {live : List LiveObj} (h : SlabRun k owner live) (m : Phys)
    (alloc : Orders) (hm : Frames m alloc)
    (hkeep : ∀ p, owner p ≠ none → alloc p = some 0 ∧ (m.pages p).ppRef = 1) : SlabRun { k with phys := m } owner live

/-! ## The start -/

namespace Kmem

theorem slabSetup_slabs (k : Kmem) (hi : i < 32) (l : Nat) :
    (k.slabSetup i ((i + 1) * SLAB_ALIGN)).slabs l =
      if l = i then ⟨[], [], slabInfoOff i, slabObjSize i, slabCount i⟩ else k.slabs l := by
  have hsize : slabRoundUp (add64 ((i + 1) * SLAB_ALIGN) SLAB_OBJ_SIZE) = slabObjSize i := by
    simp only [slabRoundUp, add64, slabObjSize, SLAB_ALIGN, SLAB_OBJ_SIZE]
    omega
  simp only [slabSetup, modifySlab_slabs, hsize]
  rfl

theorem kmemInit_spec (k : Kmem) : (k.kmemInit).phys = k.phys ∧ (k.kmemInit).nslabs = 32 ∧
    ∀ i < 32, (k.kmemInit).slabs i = ⟨[], [], slabInfoOff i, slabObjSize i, slabCount i⟩ := by
  have key : ∀ n ≤ 32, ∀ k : Kmem, ((List.range n).foldl (fun k i => k.slabSetup i ((i + 1) * SLAB_ALIGN)) k).phys = k.phys ∧
      ((List.range n).foldl (fun k i => k.slabSetup i ((i + 1) * SLAB_ALIGN)) k).nslabs = k.nslabs ∧
      ∀ i < n, ((List.range n).foldl (fun k i => k.slabSetup i ((i + 1) * SLAB_ALIGN)) k).slabs i =
        ⟨[], [], slabInfoOff i, slabObjSize i, slabCount i⟩ := by
    intro n hn k
    induction n with
    | zero => exact ⟨rfl, rfl, fun i hi => absurd hi (Nat.not_lt_zero i)⟩
    | succ n ih =>
      obtain ⟨hphys, hns, hslabs⟩ := ih (by omega)
      rw [List.range_succ, List.foldl_append]
      refine ⟨hphys, hns, fun i hi => ?_⟩
      rw [List.foldl_cons, List.foldl_nil, slabSetup_slabs _ (by omega)]
      by_cases hin : i = n
      · simp [hin]
      · rw [if_neg hin]
        exact hslabs i (by omega)
  exact key 32 le_rfl { k with nslabs := 32 }

end Kmem

theorem SlabInv.init (h : Frames k.phys alloc) : SlabInv k.kmemInit alloc fun _ => none := by
  obtain ⟨hphys, hn, hslabs⟩ := k.kmemInit_spec
  generalize k.kmemInit = k0 at hphys hn hslabs
  refine ⟨hphys ▸ h, hn, fun i hi => ?_, fun i hi => ?_, fun i hi => ?_, nofun, nofun, nofun⟩ <;> rw [hslabs i hi]
  · exact ⟨rfl, rfl, rfl⟩
  · exact ⟨List.nodup_nil, by simp⟩
  · exact ⟨List.nodup_nil, by simp⟩

/-! ## Live objects -/

/-- The live objects are those that are handed out, each once, and each fits into its place. -/
structure LiveInv (k : Kmem) (owner : Nat → Option Nat) (live : List LiveObj) : Prop where
  nodup : (live.map LiveObj.addr).Nodup
  held : ∀ a, Held k owner a ↔ ∃ o ∈ live, o.addr = a + SLAB_OBJ_SIZE
  fits : ∀ o ∈ live, ∃ p i j, owner p = some i ∧ j < slabCount i ∧ o.addr = objAddr p i j + SLAB_OBJ_SIZE ∧
    o.size ≤ (i + 1) * SLAB_ALIGN

/-- A size whose class exists fits into the objects of the class. -/
theorem le_of_sizeClass_lt {size : Nat} (hs : size < 2 ^ 64) (h : sizeClass size < 32) :
    size ≤ (sizeClass size + 1) * SLAB_ALIGN := by
  simp only [sizeClass, slabRoundUp, add64, sub64, SLAB_ALIGN] at h ⊢
  omega

theorem taken_self (owner : Nat → Option Nat) (m : Phys) (i : Nat) : taken owner m m i = owner :=
  funext fun _ => if_neg fun hp => hp.2 hp.1

namespace SlabInv

variable {alloc' owner' : Nat → Option Nat} {j : Nat}

theorem Took.taken (h : Took k k' alloc' owner p i j) : taken owner k.phys k'.phys i = update owner p (some i) := by
  funext q
  rw [OpenLsd.taken]
  rcases h.frames with ⟨hown, hset⟩ | ⟨hown, hfree, hset⟩
  · rw [if_neg (fun hq => hq.2 (hset ▸ hq.1)), ← hown, update_eq_self]
  · by_cases hqp : q = p
    · rw [hqp, update_self, if_pos ⟨hfree, fun hp => by rw [hset] at hp; exact hp.2 rfl⟩]
    · rw [update_of_ne hqp, if_neg]
      rintro ⟨hq, hq'⟩
      rw [hset] at hq'
      exact hq' ⟨hq, hqp⟩

theorem Gave.released (h : Gave k k' alloc' owner owner' p i j) : released owner k'.phys = owner' := by
  funext q
  rw [OpenLsd.released]
  split
  · rename_i hq
    cases ho : owner' q with
    | none => rfl
    | some l => exact absurd hq (h.inv.not_free ho)
  · rename_i hq
    rcases h.frames with ⟨rfl, -⟩ | ⟨rfl, hset⟩
    · rfl
    · rw [update_of_ne]
      rintro rfl
      exact hq (hset ▸ .inr rfl)

/-- `kmalloc` always returns: nothing for a size without a class or without memory, or an object of the class. -/
theorem kmalloc (h : SlabInv k alloc owner) (hn : NoneFree k owner) (size : Nat) :
    (k.kmalloc size = .ok (none, k) ∧ (size = 0 ∨ 32 ≤ sizeClass size ∨
      ((k.slabs (sizeClass size)).partialSlabs = [] ∧ (k.phys.pageAlloc ALLOC_ZERO).1 = none))) ∨
    size ≠ 0 ∧ sizeClass size < 32 ∧ ∃ p j k' alloc', k.kmalloc size = .ok (some (objAddr p (sizeClass size) j + SLAB_OBJ_SIZE), k') ∧
      Took k k' alloc' owner p (sizeClass size) j ∧
      ∀ f o, k'.phys.bytes f o = if owner p = none ∧ f = p then 0 else k.phys.bytes f o := by
  unfold Kmem.kmalloc
  by_cases h0 : size = 0
  · exact .inl ⟨if_pos h0, .inl h0⟩
  simp only [if_neg h0, h.nslabs]
  by_cases hi : sizeClass size < 32
  · rw [if_neg (show ¬sub64 (slabRoundUp size / SLAB_ALIGN) 1 ≥ 32 from not_le.2 hi)]
    rcases h.slabAlloc hn hi with ⟨hp, hnone, hrun⟩ | hsome
    · exact .inl ⟨hrun, .inr (.inr ⟨hp, hnone⟩)⟩
    · exact .inr ⟨h0, hi, hsome⟩
  · exact .inl ⟨if_pos (not_lt.1 hi), .inr (.inl (not_lt.1 hi))⟩

end SlabInv

/-- What holds in every state of a run. -/
def SlabState (k : Kmem) (owner : Nat → Option Nat) (live : List LiveObj) : Prop :=
  ∃ alloc, SlabInv k alloc owner ∧ NoneFree k owner ∧ LiveInv k owner live

namespace SlabState

/-- `kmalloc` always returns; with an object it hands out one that is not live. -/
theorem kmalloc (h : SlabState k owner live) {size : Nat} (hs : size < 2 ^ 64) :
    ∃ r k', k.kmalloc size = .ok (r, k') ∧
      SlabState k' (taken owner k.phys k'.phys (sizeClass size)) (r.elim live fun p => ⟨p, size⟩ :: live) := by
  obtain ⟨alloc, hinv, hn, hlive⟩ := h
  rcases hinv.kmalloc hn size with ⟨hrun, -⟩ | ⟨-, hi, p, j, k', alloc', hrun, ht, -⟩
  · exact ⟨none, k, hrun, alloc, by rw [taken_self]; exact ⟨hinv, hn, hlive⟩⟩
  refine ⟨_, k', hrun, alloc', ht.taken ▸ ht.inv, ht.taken ▸ ht.noneFree, ?_⟩
  rw [ht.taken]
  refine ⟨?_, fun a => ?_, fun o ho => ?_⟩
  · refine List.nodup_cons.2 ⟨fun hmem => ?_, hlive.nodup⟩
    obtain ⟨o, ho, he⟩ := List.mem_map.1 hmem
    exact ht.fresh ((hlive.held _).2 ⟨o, ho, he⟩)
  · rw [ht.held, hlive.held]
    simp only [Option.elim_some, List.mem_cons, exists_eq_or_imp]
    constructor
    · rintro (ho | rfl)
      · exact .inr ho
      · exact .inl rfl
    · rintro (he | ho)
      · exact .inr (Nat.add_right_cancel he).symm
      · exact .inl ho
  · rcases List.mem_cons.1 ho with rfl | ho
    · exact ⟨p, _, j, update_self .., ht.lt, rfl, le_of_sizeClass_lt hs hi⟩
    · obtain ⟨q, l, j', hq, hj', ha, hle⟩ := hlive.fits o ho
      refine ⟨q, l, j', ?_, hj', ha, hle⟩
      by_cases hqp : q = p
      · subst hqp
        rcases ht.frames with ⟨hown, _⟩ | ⟨hown, _⟩ <;> rw [hown] at hq
        · rw [update_self, hq]
        · cases hq
      · rwa [update_of_ne hqp]

theorem kfree (h : SlabState k owner live) {o : LiveObj} (ho : o ∈ live) :
    ∃ k', k.kfree o.addr = .ok k' ∧ SlabState k' (released owner k'.phys) (live.erase o) := by
  obtain ⟨alloc, hinv, hn, hlive⟩ := h
  obtain ⟨p, i, j, hown, hj, ha, hle⟩ := hlive.fits o ho
  have hi := hinv.lt p i hown
  have hfree := ((hinv.held_page hown (kvaFrame_objAddr hi hj)).1 ((hlive.held _).2 ⟨o, ho, ha⟩)).2
  obtain ⟨k', alloc', owner', hrun, hg, -⟩ := hinv.slabFree hn hown hj hfree
  have hnd : live.Nodup := hlive.nodup.of_map _
  have hmem : ∀ o', o' ∈ live.erase o ↔ o' ≠ o ∧ o' ∈ live := fun o' => hnd.mem_erase_iff
  have haddr : ∀ o' ∈ live, o'.addr = o.addr → o' = o := fun o' ho' he =>
    List.inj_on_of_nodup_map hlive.nodup ho' ho he
  refine ⟨k', ha ▸ hrun, alloc', hg.released ▸ hg.inv, hg.released ▸ hg.noneFree, ?_⟩
  rw [hg.released]
  refine ⟨hlive.nodup.sublist (List.erase_sublist.map _), fun a => ?_, fun o' ho' => ?_⟩
  · rw [hg.held, hlive.held]
    constructor
    · rintro ⟨⟨o', ho', he⟩, hne⟩
      refine ⟨o', (hmem o').2 ⟨?_, ho'⟩, he⟩
      rintro rfl
      exact hne (Nat.add_right_cancel (he.symm.trans ha))
    · rintro ⟨o', ho', he⟩
      obtain ⟨hne, ho'⟩ := (hmem o').1 ho'
      refine ⟨⟨o', ho', he⟩, ?_⟩
      rintro rfl
      exact hne (haddr o' ho' (he.trans ha.symm))
  · obtain ⟨hne, ho'⟩ := (hmem o').1 ho'
    obtain ⟨q, l, j', hq, hj', he, hle'⟩ := hlive.fits o' ho'
    have hheld : Held k' owner' (objAddr q l j') := by
      rw [hg.held]
      refine ⟨(hlive.held _).2 ⟨o', ho', he⟩, fun heq => hne (haddr o' ho' ?_)⟩
      rw [he, heq, ha]
    refine ⟨q, l, j', ?_, hj', he, hle'⟩
    rcases hg.frames with ⟨rfl, _⟩ | ⟨rfl, _⟩
    · exact hq
    · obtain ⟨l', hl', -⟩ := (hg.inv.held_iff _).1 hheld
      rw [kvaFrame_objAddr (hinv.lt q l hq) hj'] at hl'
      rw [update_of_ne]
      · exact hq
      · rintro rfl
        rw [update_self] at hl'
        cases hl'

end SlabState

theorem SlabRun.state (h : SlabRun k owner live) : SlabState k owner live := by
  induction h with
  | init k alloc h =>
    refine ⟨alloc, SlabInv.init h, nofun, List.nodup_nil, fun a => ?_, nofun⟩
    constructor
    · rintro ⟨p, i, j, hp, _⟩
      cases hp
    · rintro ⟨o, ho, _⟩
      cases ho
  | kmalloc h size hsize hr ih =>
    obtain ⟨r', k', hr', hstate⟩ := ih.kmalloc hsize
    rw [hr] at hr'
    cases hr'
    exact hstate
  | kfree h o ho hr ih =>
    obtain ⟨k', hr', hstate⟩ := ih.kfree ho
    rw [hr] at hr'
    cases hr'
    exact hstate
  | other h m alloc hm hkeep ih =>
    obtain ⟨alloc', hinv, hn, hlive⟩ := ih
    refine ⟨alloc, hinv.setPhys hm fun p i hp => ?_, hn, hlive.nodup, hlive.held, hlive.fits⟩
    exact (hkeep p (by rw [hp]; exact Option.some_ne_none i)).elim .mk

/-! ## The invariant along every run -/

namespace LiveInv

theorem bounds (h : LiveInv k owner live) {o : LiveObj} (ho : o ∈ live) :
    ∃ p i j, owner p = some i ∧ j < slabCount i ∧ o.addr = objAddr p i j + SLAB_OBJ_SIZE ∧
      o.addr + o.size ≤ objAddr p i j + slabObjSize i ∧ o.addr + o.size ≤ infoAddr p i := by
  obtain ⟨p, i, j, hown, hj, ha, hle⟩ := h.fits o ho
  have hsize := slabObjSize_pos i
  have hend := objAddr_end_le (p := p) hj
  exact ⟨p, i, j, hown, hj, ha, by omega, by omega⟩

theorem disjoint (h : LiveInv k owner live) (hinv : SlabInv k alloc owner) :
    live.Pairwise fun x y => x.addr + x.size ≤ y.addr ∨ y.addr + y.size ≤ x.addr := by
  refine (List.pairwise_map.1 h.nodup).imp_of_mem fun {x y} hx hy hne => ?_
  obtain ⟨p, i, j, hp, hj, hxa, hxe, hxi⟩ := h.bounds hx
  obtain ⟨q, l, j', hq, hj', hya, hye, hyi⟩ := h.bounds hy
  have hoff := slabInfoOff_lt (hinv.lt p i hp)
  have hoff' := slabInfoOff_lt (hinv.lt q l hq)
  rcases Nat.lt_trichotomy p q with hpq | rfl | hpq
  · left
    simp only [infoAddr, objAddr, page2kva, KADDR, PAGE_SIZE] at hxi hya hoff ⊢
    omega
  · rw [hp] at hq
    cases hq
    rcases Nat.lt_trichotomy j j' with hjj | rfl | hjj
    · left
      have := Nat.mul_le_mul_right (slabObjSize i) (Nat.succ_le_of_lt hjj)
      rw [Nat.succ_mul] at this
      unfold objAddr at hxe hya
      omega
    · exact absurd (hxa.trans hya.symm) hne
    · right
      have := Nat.mul_le_mul_right (slabObjSize i) (Nat.succ_le_of_lt hjj)
      rw [Nat.succ_mul] at this
      unfold objAddr at hye hxa
      omega
  · right
    simp only [infoAddr, objAddr, page2kva, KADDR, PAGE_SIZE] at hyi hxa hoff' ⊢
    omega

end LiveInv

namespace SlabInv

/-- A slab page is in exactly one of the two lists of its class, once. -/
theorem count_lists (h : SlabInv k alloc owner) (hown : owner p = some i) :
    ((k.slabs i).partialSlabs ++ (k.slabs i).full).count (infoAddr p i) = 1 := by
  have hi := h.lt p i hown
  have hp := (h.partials i hi).mem_footer (p := p) hi
  have hf := (h.full i hi).mem_footer (p := p) hi
  rw [List.count_append]
  by_cases hl : (k.infos (infoAddr p i)).freeList = []
  · rw [List.count_eq_zero_of_not_mem fun hm => (hp.1 hm).2 hl,
      List.count_eq_one_of_mem (h.full i hi).nodup (hf.2 ⟨hown, hl⟩)]
  · rw [List.count_eq_one_of_mem (h.partials i hi).nodup (hp.2 ⟨hown, hl⟩),
      List.count_eq_zero_of_not_mem fun hm => hl (hf.1 hm).2]

end SlabInv

/-- Every page of a size class that is not free has a live object. -/
theorem SlabState.owner_none (h : SlabState k owner []) (p : Nat) : owner p = none := by
  obtain ⟨alloc, hinv, hn, hlive⟩ := h
  cases hp : owner p with
  | none => rfl
  | some i =>
    exfalso
    have hall : ∀ j < slabCount i, objAddr p i j ∈ (k.infos (infoAddr p i)).freeList := by
      intro j hj
      by_contra hno
      obtain ⟨o, ho, _⟩ := (hlive.held _).1 ⟨p, i, j, hp, hj, rfl, hno⟩
      cases ho
    have hsub : (List.range (slabCount i)).map (objAddr p i) ⊆ (k.infos (infoAddr p i)).freeList := by
      intro a ha
      obtain ⟨j, hj, rfl⟩ := List.mem_map.1 ha
      exact hall j (List.mem_range.1 hj)
    have hle := (List.subperm_of_subset (List.nodup_range.map fun _ _ he => objAddr_inj he) hsub).length_le
    rw [List.length_map, List.length_range] at hle
    exact absurd (hn p i hp) (not_lt.2 hle)

/-- In every state that a run of `kmalloc` and `kfree` reaches: (1) each slab page of a class is in exactly one of the lists
of the class, once, and the lists hold nothing else; (2) its counter is the length of its free list; (3) it is full exactly
when the counter is zero, and partial exactly when the counter lies strictly between zero and the number of its objects;
(4) the live objects are pairwise disjoint and each lies in its page before the footer; (5) both calls return, and an object
that `kmalloc` returns is none of the live ones; (6) without live objects all lists are empty. -/
theorem slab_invariant {k : Kmem} {owner : Nat → Option Nat} {live : List LiveObj} (h : SlabRun k owner live) :
    (∀ p i, owner p = some i → i < k.nslabs ∧
      ((k.slabs i).partialSlabs ++ (k.slabs i).full).count (page2kva p + (k.slabs i).infoOff) = 1) ∧
    (∀ i < k.nslabs, ∀ a ∈ (k.slabs i).partialSlabs ++ (k.slabs i).full,
      ∃ p, owner p = some i ∧ a = page2kva p + (k.slabs i).infoOff) ∧
    (∀ p i, owner p = some i →
      (k.infos (page2kva p + (k.slabs i).infoOff)).freeCount =
        (k.infos (page2kva p + (k.slabs i).infoOff)).freeList.length ∧
      (page2kva p + (k.slabs i).infoOff ∈ (k.slabs i).full ↔
        (k.infos (page2kva p + (k.slabs i).infoOff)).freeCount = 0) ∧
      (page2kva p + (k.slabs i).infoOff ∈ (k.slabs i).partialSlabs ↔
        0 < (k.infos (page2kva p + (k.slabs i).infoOff)).freeCount ∧
          (k.infos (page2kva p + (k.slabs i).infoOff)).freeCount < (k.slabs i).count) ∧
      (k.infos (page2kva p + (k.slabs i).infoOff)).freeCount ≠ (k.slabs i).count) ∧
    live.Pairwise (fun x y => x.addr + x.size ≤ y.addr ∨ y.addr + y.size ≤ x.addr) ∧
    (∀ o ∈ live, ∃ p i, owner p = some i ∧ page2kva p + SLAB_OBJ_SIZE ≤ o.addr ∧
      o.addr + o.size ≤ page2kva p + (k.slabs i).infoOff ∧ (k.slabs i).infoOff + SLAB_INFO_SIZE ≤ PAGE_SIZE) ∧
    (∀ size < 2 ^ 64, ∃ r k', k.kmalloc size = .ok (r, k') ∧ ∀ p, r = some p → ∀ o ∈ live,
      o.addr + o.size ≤ p ∨ p + size ≤ o.addr) ∧
    (∀ o ∈ live, ∃ k', k.kfree o.addr = .ok k') ∧
    (live = [] → ∀ i < k.nslabs, (k.slabs i).partialSlabs = [] ∧ (k.slabs i).full = []) := by
  have hstate := h.state
  obtain ⟨alloc, hinv, hn, hlive⟩ := h.state
  have hoff : ∀ p i, i < 32 → page2kva p + (k.slabs i).infoOff = infoAddr p i := by
    intro p i hi
    rw [(hinv.sized i hi).infoOff]
    rfl
  rw [hinv.nslabs]
  refine ⟨fun p i hp => ?_, fun i hi a ha => ?_, fun p i hp => ?_, hlive.disjoint hinv, fun o ho => ?_, fun size hs => ?_,
    fun o ho => ?_, ?_⟩
  · have hi := hinv.lt p i hp
    rw [hoff p i hi]
    exact ⟨hi, hinv.count_lists hp⟩
  · rcases List.mem_append.1 ha with ha | ha
    · obtain ⟨p, hp, rfl, _⟩ := ((hinv.partials i hi).mem_iff a).1 ha
      exact ⟨p, hp, (hoff p i hi).symm⟩
    · obtain ⟨p, hp, rfl, _⟩ := ((hinv.full i hi).mem_iff a).1 ha
      exact ⟨p, hp, (hoff p i hi).symm⟩
  · have hi := hinv.lt p i hp
    have hlt := hn p i hp
    rw [hoff p i hi, (hinv.sized i hi).count, (hinv.full i hi).mem_footer hi, (hinv.partials i hi).mem_footer hi, hp,
      (hinv.page p i hp).freeCount, List.length_eq_zero_iff, List.length_pos_iff]
    simp only [true_and]
    exact ⟨⟨fun hne => ⟨hne, hlt⟩, fun hne => hne.1⟩, ne_of_lt hlt⟩
  · obtain ⟨p, i, j, hp, hj, ha, _, hle⟩ := hlive.bounds ho
    have hi := hinv.lt p i hp
    refine ⟨p, i, hp, ?_, by rwa [hoff p i hi], by rw [(hinv.sized i hi).infoOff]; exact slabInfoOff_lt hi⟩
    rw [ha, objAddr]
    omega
  · obtain ⟨r, k', hr, alloc', hinv', _, hlive'⟩ := hstate.kmalloc hs
    refine ⟨r, k', hr, ?_⟩
    rintro p rfl o ho
    exact (List.pairwise_cons.1 (hlive'.disjoint hinv')).1 o ho |>.symm
  · obtain ⟨k', hr, _⟩ := hstate.kfree ho
    exact ⟨k', hr⟩
  · rintro rfl i hi
    refine ⟨List.eq_nil_iff_forall_not_mem.2 fun a ha => ?_, List.eq_nil_iff_forall_not_mem.2 fun a ha => ?_⟩
    · obtain ⟨p, hp, _⟩ := ((hinv.partials i hi).mem_iff a).1 ha
      rw [hstate.owner_none p] at hp
      cases hp
    · obtain ⟨p, hp, _⟩ := ((hinv.full i hi).mem_iff a).1 ha
      rw [hstate.owner_none p] at hp
      cases hp

/-- The allocators of a machine with one free page. -/
def onePageKmem : Kmem where
  phys := onePage
  nslabs := 0
  slabs := fun _ => ⟨[], [], 0, 0, 0⟩
  infos := fun _ => ⟨0, [], 0⟩
  objInfo := fun _ => 0

theorem onePageKmem_frames : Frames onePageKmem.phys fun _ => none := ⟨(BuddyInv.boot _ (by decide)).run onePage_run, nofun⟩

/-- A page has room for three objects of 1000 bytes. It is partial with two of them live, full with all three, and partial again
when the second one is freed, which it can be. -/
theorem slab_invariant_fills : ∃ k2 k3 k4 owner2 owner3 owner4 p q r, SlabRun k2 owner2 [⟨q, 1000⟩, ⟨p, 1000⟩] ∧
    (k2.slabs 31).partialSlabs.length = 1 ∧ SlabRun k3 owner3 [⟨r, 1000⟩, ⟨q, 1000⟩, ⟨p, 1000⟩] ∧ (k3.slabs 31).partialSlabs = [] ∧
    (k3.slabs 31).full.length = 1 ∧ k3.kfree q = .ok k4 ∧ SlabRun k4 owner4 [⟨r, 1000⟩, ⟨p, 1000⟩] ∧
    (k4.slabs 31).partialSlabs.length = 1 ∧ (k4.slabs 31).full = [] := by
  have hfound : ∃ x, onePageKmem.kmemInit.kmalloc 1000 = .ok x ∧ ∃ y, x.2.kmalloc 1000 = .ok y ∧
      (y.2.slabs 31).partialSlabs.length = 1 ∧ ∃ z, y.2.kmalloc 1000 = .ok z ∧ (z.2.slabs 31).partialSlabs = [] ∧
      (z.2.slabs 31).full.length = 1 ∧ ∃ p, x.1 = some p ∧ ∃ q, y.1 = some q ∧ ∃ r, z.1 = some r ∧ r ≠ q ∧
      ∃ k4, z.2.kfree q = .ok k4 ∧ (k4.slabs 31).partialSlabs.length = 1 ∧ (k4.slabs 31).full = [] := by
    decide +kernel
  obtain ⟨⟨_, k1⟩, h1, ⟨_, k2⟩, h2, hpart, ⟨_, k3⟩, h3, hnone, hfull, p, rfl, q, rfl, r, rfl, hne, k, hk, hback, hempty⟩ := hfound
  have hrun1 := (SlabRun.init onePageKmem _ onePageKmem_frames).kmalloc 1000 (by decide) h1
  have hrun2 := hrun1.kmalloc 1000 (by decide) h2
  have hrun3 := hrun2.kmalloc 1000 (by decide) h3
  have hmem : (⟨q, 1000⟩ : LiveObj) ∈ ([⟨r, 1000⟩, ⟨q, 1000⟩, ⟨p, 1000⟩] : List LiveObj) := by simp
  obtain ⟨k4, hfree⟩ := (slab_invariant hrun3).2.2.2.2.2.2.1 ⟨q, 1000⟩ hmem
  cases hk.symm.trans hfree
  have hrun4 := hrun3.kfree ⟨q, 1000⟩ hmem hfree
  have hlive : ([⟨r, 1000⟩, ⟨q, 1000⟩, ⟨p, 1000⟩] : List LiveObj).erase ⟨q, 1000⟩ = [⟨r, 1000⟩, ⟨p, 1000⟩] := by
    simp [hne]
  exact ⟨k2, k3, k, _, _, _, p, q, r, hrun2, hpart, hrun3, hnone, hfull, hfree, hlive ▸ hrun4, hback, hempty⟩

end OpenLsd
