import OpenLsd.Lemmas.Frames
import OpenLsd.Lemmas.Quiet

/-!
# The ledger of frames

Reference counts as a ledger: `Ledger keep count alloc m` says that the frame `f` has `count f` references, and that every
block that is allocated is either referred to or one of those in `keep`, which stay whatever happens. Taking a page, taking a
reference and dropping one are entries in the ledger. `Spares ext` is what an operation guarantees to those who hold the
references that `ext` counts: their blocks stay allocated, with the bytes they have.
-/

namespace OpenLsd

open Outcome Function Phys

/-- An assertion of the kernel fails, or a reference count runs over. -/
def Panics (s : Stop) : Prop := s = .assertion ∨ s = .overflow

/-- The references to frames, and the blocks that are allocated. -/
structure Ledger (keep : Orders) (count : Nat → Nat) (alloc : Orders) (m : Phys) : Prop
    extends Frames m alloc where
  counted : ∀ f, (m.pages f).ppRef = count f
  kept : ∀ f k, keep f = some k → alloc f = some k
  held : ∀ f k, alloc f = some k → 0 < count f ∨ keep f = some k

/-- The frames that the allocator manages. -/
def Covered (alloc : Orders) (m : Phys) (x : Nat) : Prop :=
  x ∈ m.freeSet ∨ ∃ f k, alloc f = some k ∧ x ∈ blockSet f k

/-- What those who hold the references `ext` may rely on: their blocks stay allocated with the same bytes, and get no
references but for the frames in `lent`. No frame gets more than one new reference from nothing. The frames that the
allocator manages stay the same, and to the others nothing happens. -/
structure Spares (lent : Set Nat) (ext : Nat → Nat) (alloc : Orders) (m : Phys) (alloc' : Orders)
    (m' : Phys) : Prop where
  stays : ∀ f k, 0 < ext f → alloc f = some k → alloc' f = some k
  bytes : ∀ f k, 0 < ext f → alloc f = some k → ∀ x ∈ blockSet f k, m'.bytes x = m.bytes x
  pos : ∀ f, 0 < ext f → 0 < (m'.pages f).ppRef
  ppRef : ∀ f, f ∉ lent → 0 < ext f → (m'.pages f).ppRef ≤ (m.pages f).ppRef
  once : ∀ f, f ∉ lent → (m'.pages f).ppRef ≤ max 1 (m.pages f).ppRef
  covered : ∀ x, Covered alloc' m' x ↔ Covered alloc m x
  apart : ∀ x, ¬Covered alloc m x → m'.bytes x = m.bytes x ∧ (m'.pages x).ppRef = (m.pages x).ppRef
  npages : m'.npages = m.npages

/-- Two states with the same frames, which may differ in the bytes, the CPU and what is tracked of the pages. -/
structure SameFrames (m m' : Phys) : Prop where
  npages : m'.npages = m.npages
  buddyFreeList : m'.buddyFreeList = m.buddyFreeList
  ppOrder : ∀ q, (m'.pages q).ppOrder = (m.pages q).ppOrder
  ppFree : ∀ q, (m'.pages q).ppFree = (m.pages q).ppFree
  ppAvail : ∀ q, (m'.pages q).ppAvail = (m.pages q).ppAvail
  ppRef : ∀ q, (m'.pages q).ppRef = (m.pages q).ppRef

namespace SameFrames

variable {m m' m'' : Phys}

theorem refl (m : Phys) : SameFrames m m := ⟨rfl, rfl, fun _ => rfl, fun _ => rfl, fun _ => rfl, fun _ => rfl⟩

theorem trans (h : SameFrames m m') (h' : SameFrames m' m'') : SameFrames m m'' where
  npages := h'.npages.trans h.npages
  buddyFreeList := h'.buddyFreeList.trans h.buddyFreeList
  ppOrder := fun q => (h'.ppOrder q).trans (h.ppOrder q)
  ppFree := fun q => (h'.ppFree q).trans (h.ppFree q)
  ppAvail := fun q => (h'.ppAvail q).trans (h.ppAvail q)
  ppRef := fun q => (h'.ppRef q).trans (h.ppRef q)

theorem of_pages (hn : m'.npages = m.npages) (hl : m'.buddyFreeList = m.buddyFreeList) (hp : m'.pages = m.pages) :
    SameFrames m m' := by
  refine ⟨hn, hl, ?_, ?_, ?_, ?_⟩ <;> intro q <;> rw [hp]

theorem charge (m : Phys) (n : Nat) : SameFrames m (m.charge n) := by
  unfold Phys.charge
  split <;> exact .of_pages rfl rfl rfl

theorem uncharge (m : Phys) (n : Nat) : SameFrames m (m.uncharge n) := by
  unfold Phys.uncharge
  split <;> exact .of_pages rfl rfl rfl

theorem tlbInvalidate (m : Phys) (pml4 va : Nat) : SameFrames m (m.tlbInvalidate pml4 va) := by
  unfold Phys.tlbInvalidate
  split <;> exact .of_pages rfl rfl rfl

theorem copyFrames (m : Phys) (dst src n : Nat) : SameFrames m (m.copyFrames dst src n) := .of_pages rfl rfl rfl

theorem track (m : Phys) (p va : Nat) : SameFrames m (m.track p va) := by
  refine ⟨rfl, rfl, ?_, ?_, ?_, ?_⟩ <;> intro q <;> simp only [Phys.track, Phys.modifyPage_pages] <;> split <;> rfl

theorem freeSet (h : SameFrames m m') : m'.freeSet = m.freeSet := BuddyInv.freeSet_congr h.npages h.ppOrder h.ppFree

theorem covered (h : SameFrames m m') (alloc : Orders) (x : Nat) : Covered alloc m' x ↔ Covered alloc m x := by
  rw [Covered, Covered, h.freeSet]

end SameFrames

@[simp] theorem Phys.charge_bytes (m : Phys) (n : Nat) : (m.charge n).bytes = m.bytes := by
  unfold charge
  split <;> rfl

@[simp] theorem Phys.uncharge_bytes (m : Phys) (n : Nat) : (m.uncharge n).bytes = m.bytes := by
  unfold uncharge
  split <;> rfl

@[simp] theorem Phys.tlbInvalidate_bytes (m : Phys) (pml4 va : Nat) : (m.tlbInvalidate pml4 va).bytes = m.bytes := by
  unfold tlbInvalidate
  split <;> rfl

/-- A frame that is referred to is referred to with the further references counted. -/
theorem pos_add {ext more : Nat → Nat} (f : Nat) (h : 0 < ext f) : 0 < ext f + more f := Nat.add_pos_left h _

namespace Spares

variable {lent : Set Nat} {ext ext' : Nat → Nat} {alloc alloc' alloc'' : Orders} {m m' m'' : Phys}

theorem trans (h : Spares lent ext alloc m alloc' m') (h' : Spares lent ext alloc' m' alloc'' m'') :
    Spares lent ext alloc m alloc'' m'' where
  stays := fun f k hf ha => h'.stays f k hf (h.stays f k hf ha)
  bytes := fun f k hf ha x hx => (h'.bytes f k hf (h.stays f k hf ha) x hx).trans (h.bytes f k hf ha x hx)
  pos := h'.pos
  ppRef := fun f hl hf => le_trans (h'.ppRef f hl hf) (h.ppRef f hl hf)
  once := fun f hl => by
    have h1 := h.once f hl
    have h2 := h'.once f hl
    omega
  covered := fun x => (h'.covered x).trans (h.covered x)
  apart := fun x hx => by
    obtain ⟨hb, hr⟩ := h.apart x hx
    obtain ⟨hb', hr'⟩ := h'.apart x (mt (h.covered x).1 hx)
    exact ⟨hb'.trans hb, hr'.trans hr⟩
  npages := h'.npages.trans h.npages

theorem mono (h : Spares lent ext' alloc m alloc' m') (hle : ∀ f, 0 < ext f → 0 < ext' f) :
    Spares lent ext alloc m alloc' m' where
  stays := fun f k hf => h.stays f k (hle f hf)
  bytes := fun f k hf => h.bytes f k (hle f hf)
  pos := fun f hf => h.pos f (hle f hf)
  ppRef := fun f hl hf => h.ppRef f hl (hle f hf)
  once := h.once
  covered := h.covered
  apart := h.apart
  npages := h.npages

theorem lend_more {lent' : Set Nat} (h : Spares lent ext alloc m alloc' m') (hsub : lent ⊆ lent') :
    Spares lent' ext alloc m alloc' m' :=
  { h with
    ppRef := fun f hf => h.ppRef f fun hfl => hf (hsub hfl)
    once := fun f hf => h.once f fun hfl => hf (hsub hfl) }

theorem lend (h : Spares ∅ ext alloc m alloc' m') (lent : Set Nat) : Spares lent ext alloc m alloc' m' :=
  h.lend_more (Set.empty_subset lent)

/-- A change of bytes that none of those who hold references have. -/
theorem of_same (hs : SameFrames m m') (hpos : ∀ f, 0 < ext f → 0 < (m.pages f).ppRef)
    (hb : ∀ f k, 0 < ext f → alloc f = some k → ∀ x ∈ blockSet f k, m'.bytes x = m.bytes x)
    (hapart : ∀ x, ¬Covered alloc m x → m'.bytes x = m.bytes x) : Spares lent ext alloc m alloc m' where
  stays := fun _ _ _ ha => ha
  bytes := hb
  pos := fun f hf => by
    rw [hs.ppRef]
    exact hpos f hf
  ppRef := fun f _ _ => le_of_eq (hs.ppRef f)
  once := fun f _ => by
    rw [hs.ppRef]
    exact Nat.le_max_right _ _
  covered := hs.covered alloc
  apart := fun x hx => ⟨hapart x hx, hs.ppRef x⟩
  npages := hs.npages

end Spares

namespace Ledger

variable {keep alloc alloc' : Orders} {count ext : Nat → Nat} {lent : Set Nat} {m m' : Phys} {p k : Nat}

section

variable (h : Ledger keep count alloc m)

include h

theorem congr (hs : SameFrames m m') : Ledger keep count alloc m' :=
  { h.toFrames.congr_pages hs.npages hs.buddyFreeList hs.ppOrder hs.ppFree hs.ppAvail hs.ppRef with
    counted := fun f => (hs.ppRef f).trans (h.counted f)
    kept := h.kept
    held := h.held }

/-- Where the references that count are among those of the ledger, a state spares itself. -/
theorem spares_of_same (hle : ∀ f, 0 < ext f → 0 < count f) (hs : SameFrames m m')
    (hb : m'.bytes = m.bytes) : Spares lent ext alloc m alloc m' :=
  .of_same hs (fun f hf => by rw [h.counted]; exact hle f hf) (fun _ _ _ _ _ _ => by rw [hb]) fun _ _ => by rw [hb]

theorem spares_refl (hle : ∀ f, 0 < ext f → 0 < count f) : Spares lent ext alloc m alloc m :=
  h.spares_of_same hle (.refl m) rfl

theorem disjoint_blocks {q j x : Nat} (hp : alloc p = some k) (hq : alloc q = some j)
    (hx : x ∈ blockSet p k) (hx' : x ∈ blockSet q j) : p = q := by
  rcases h.disjoint p k q j (.inr hp) (.inr hq) with hpq | hpq | hpq
  · exact hpq.1
  · simp only [mem_blockSet] at hx hx'
    omega
  · simp only [mem_blockSet] at hx hx'
    omega

/-- Writing to a block changes nothing for those who hold references to others. -/
theorem spares_write (hle : ∀ f, 0 < ext f → 0 < count f) (hs : SameFrames m m') (hp : alloc p = some k) (hext : ext p = 0)
    (hb : ∀ x, x ∉ blockSet p k → m'.bytes x = m.bytes x) : Spares lent ext alloc m alloc m' := by
  refine .of_same hs (fun f hf => by rw [h.counted]; exact hle f hf) (fun f j hf ha x hx => hb x fun hxp => ?_)
    fun x hx => hb x fun hxp => hx (.inr ⟨p, k, hp, hxp⟩)
  have := h.disjoint_blocks hp ha hxp hx
  subst this
  omega

omit h in
/-- A block that is kept but has a reference need not be kept. -/
theorem unkeep (h : Ledger (update keep p (some k)) count alloc m) (hk : keep p = none) (hp : 0 < count p) :
    Ledger keep count alloc m where
  toFrames := h.toFrames
  counted := h.counted
  kept := fun f j hf => by
    refine h.kept f j ?_
    rwa [update_of_ne]
    rintro rfl
    rw [hk] at hf
    cases hf
  held := fun f j hf => by
    by_cases hfp : f = p
    · exact .inl (hfp ▸ hp)
    · have := h.held f j hf
      rwa [update_of_ne hfp] at this

/-! ## Taking a page -/

/-- What taking a page does: a block that was free is kept from now on, and all others are spared. -/
structure Taken (keep : Orders) (count : Nat → Nat) (alloc : Orders) (m : Phys) (k p : Nat) (m' : Phys) :
    Prop where
  head : alloc p = none
  idle : count p = 0
  ledger : Ledger (update keep p (some k)) count (update alloc p (some k)) m'
  spares : Spares ∅ count alloc m (update alloc p (some k)) m'
  zero : ∀ x ∈ blockSet p k, m'.bytes x = fun _ => 0

theorem Taken.keep_none (ht : Taken keep count alloc m k p m') : keep p = none := by
  rcases hk : keep p with _ | j
  · rfl
  · have := h.kept p j hk
    rw [ht.head] at this
    cases this

/-- `page_alloc` takes a page. -/
theorem pageAlloc {allocFlags : Nat} (hr : (m.pageAlloc allocFlags).1 = some p) (hz : allocFlags &&& ALLOC_ZERO ≠ 0) :
    Taken keep count alloc m (reqOrder allocFlags) p (m.pageAlloc allocFlags).2 := by
  obtain ⟨hf, ha⟩ := h.toFrames.pageAlloc hr
  have hnot : ∀ f j, alloc f = some j → f ≠ p := by
    rintro f j hfj rfl
    rw [ha.head] at hfj
    cases hfj
  have hcount : count p = 0 := by
    rw [← h.counted, ← ha.ppRef]
    exact ha.idle.2
  have hkeep : ∀ f j, keep f = some j → f ≠ p := fun f j hfj => hnot f j (h.kept f j hfj)
  refine ⟨ha.head, hcount, ⟨hf, fun f => (ha.ppRef f).trans (h.counted f), fun f j hfj => ?_, fun f j hfj => ?_⟩,
    ⟨fun f j _ hfj => ?_, fun f j _ hfj x hx => ?_, fun f hpos => ?_, fun f _ _ => le_of_eq (ha.ppRef f),
      fun f _ => le_trans (le_of_eq (ha.ppRef f)) (Nat.le_max_right _ _), fun x => ?_, fun x hx => ⟨?_, ha.ppRef x⟩,
      ha.npages⟩, fun x hx => ?_⟩
  · by_cases hfp : f = p
    · rw [hfp, update_self] at hfj ⊢
      exact hfj
    · rw [update_of_ne hfp] at hfj ⊢
      exact h.kept f j hfj
  · by_cases hfp : f = p
    · rw [hfp, update_self] at hfj ⊢
      exact .inr hfj
    · rw [update_of_ne hfp] at hfj ⊢
      exact h.held f j hfj
  · rwa [update_of_ne (hnot f j hfj)]
  · funext o
    rw [ha.bytes, if_neg]
    rintro ⟨_, hxp⟩
    exact h.not_mem_freeSet hfj hx (ha.free hxp)
  · rw [ha.ppRef, h.counted]
    exact hpos
  · unfold Covered
    rw [ha.freeSet]
    constructor
    · rintro (hx | ⟨f, j, hfj, hx⟩)
      · exact .inl hx.1
      · by_cases hfp : f = p
        · rw [hfp, update_self, Option.some.injEq] at hfj
          subst hfp hfj
          exact .inl (ha.free hx)
        · rw [update_of_ne hfp] at hfj
          exact .inr ⟨f, j, hfj, hx⟩
    · rintro (hx | ⟨f, j, hfj, hx⟩)
      · by_cases hxp : x ∈ blockSet p (reqOrder allocFlags)
        · exact .inr ⟨p, _, update_self _ _ _, hxp⟩
        · exact .inl ⟨hx, hxp⟩
      · exact .inr ⟨f, j, by rwa [update_of_ne (hnot f j hfj)], hx⟩
  · funext o
    rw [ha.bytes, if_neg]
    rintro ⟨_, hxp⟩
    exact hx (.inl (ha.free hxp))
  · funext o
    rw [ha.bytes, if_pos ⟨hz, hx⟩]

theorem allocPage {allocFlags : Nat} (hz : allocFlags &&& ALLOC_ZERO ≠ 0) :
    Ends Panics (m.allocPage allocFlags) fun r => Taken keep count alloc m (reqOrder allocFlags) r.1 r.2 := by
  unfold Phys.allocPage
  split
  · next p m' he =>
    have := h.pageAlloc (p := p) (by rw [he]) hz
    rw [he] at this
    exact .ok this
  · exact .error (by simp [Panics])

/-! ## Taking and dropping references -/

/-- What taking a reference to an allocated page leaves. -/
structure Referred (keep : Orders) (count : Nat → Nat) (alloc : Orders) (m : Phys) (p : Nat) (m' : Phys) :
    Prop where
  ledger : Ledger keep (count + Pi.single p 1) alloc m'
  bytes : m'.bytes = m.bytes
  spares : ∀ {lent ext}, (∀ f, 0 < ext f → 0 < count f) → (p ∈ lent ∨ count p = 0) → Spares lent ext alloc m alloc m'

/-- One reference more. -/
theorem setRef_referred (hp : alloc p = some k) : Referred keep count alloc m p (m.setRef p ((m.pages p).ppRef + 1)) := by
  have href : ∀ f, ((m.setRef p ((m.pages p).ppRef + 1)).pages f).ppRef = count f + if f = p then 1 else 0 := by
    intro f
    rw [setRef_pages, h.counted, h.counted]
    split
    · next hfp => rw [hfp]
    · rfl
  refine ⟨?_, rfl, fun {lent ext} hle hor => ?_⟩
  · refine { h.toFrames.setRef hp _ with counted := fun f => ?_, kept := h.kept, held := fun f j hf => ?_ }
    · rw [href, Pi.add_apply, Pi.single_apply]
    · exact (h.held f j hf).imp (fun hpos => lt_of_lt_of_le hpos (Nat.le_add_right _ _)) id
  · have hnew : ∀ f, f ∉ lent → f = p → count f = 0 := by
      rintro f hl rfl
      exact hor.resolve_left hl
    refine ⟨fun _ _ _ ha => ha, fun _ _ _ _ _ _ => rfl, fun f hf => ?_, fun f hl hf => ?_, fun f hl => ?_, fun x => ?_,
      fun x hx => ⟨rfl, ?_⟩, rfl⟩
    · have := hle f hf
      rw [href]
      omega
    · have hpos := hle f hf
      have hnew := hnew f hl
      rw [href, h.counted]
      split <;> omega
    · have hnew := hnew f hl
      rw [href, h.counted]
      split <;> omega
    · rw [Covered, Covered, Frames.freeSet_setRef]
    · rw [setRef_pages, if_neg]
      rintro rfl
      exact hx (.inr ⟨x, k, hp, head_mem_blockSet x k⟩)

/-- A reference count may run over where that is no bad reason to stop. -/
theorem incRef {bad : Stop → Prop} (hp : alloc p = some k)
    (hroom : bad .overflow → count p + 1 < 2 ^ 16) : Ends bad (m.incRef p) fun m' => Referred keep count alloc m p m' := by
  refine .ite (fun _ => .ok (h.setRef_referred hp)) fun hno => .error fun hbad => hno ?_
  rw [h.counted]
  exact hroom hbad

end

/-- Dropping a reference: those who hold the others are spared. -/
theorem decref (h : Ledger keep (count + Pi.single p 1) alloc m) (hp : alloc p = some k) (hkeep : keep p = none) :
    Ends Panics (m.decref p) fun m' => ∃ alloc', Ledger keep count alloc' m' ∧ Spares ∅ count alloc m alloc' m' ∧
      m'.bytes = m.bytes := by
  have hcp : (m.pages p).ppRef = count p + 1 := by rw [h.counted, Pi.add_apply, Pi.single_eq_same]
  obtain ⟨m', he, hd⟩ := h.toFrames.decref hp (by omega)
  rw [he]
  have hcount : ∀ f, (m'.pages f).ppRef = count f := by
    intro f
    rw [hd.ppRef, h.counted, Pi.add_apply, Pi.single_apply]
    split <;> omega
  have hother : ∀ f, f ≠ p → (count + Pi.single p 1 : Nat → Nat) f = count f := by
    intro f hf
    rw [Pi.add_apply, Pi.single_eq_of_ne hf, Nat.add_zero]
  have hle : ∀ f, (m'.pages f).ppRef ≤ (m.pages f).ppRef := by
    intro f
    rw [hd.ppRef]
    split <;> omega
  refine .ok ⟨_, ⟨hd.frames, hcount, fun f j hf => ?_, fun f j hf => ?_⟩, ⟨fun f j hpos hf => ?_, fun _ _ _ _ _ _ => ?_,
    fun f hf => ?_, fun f _ _ => hle f, fun f _ => le_trans (hle f) (Nat.le_max_right _ _), fun x => ?_,
    fun x hx => ⟨by rw [hd.bytes], ?_⟩, hd.npages⟩, hd.bytes⟩
  · have hfp : f ≠ p := by
      rintro rfl
      rw [hkeep] at hf
      cases hf
    split
    · rw [update_of_ne hfp]
      exact h.kept f j hf
    · exact h.kept f j hf
  · by_cases hfp : f = p
    · subst hfp
      split at hf
      · rw [update_self] at hf
        cases hf
      · exact .inl (by omega)
    · have hf' : alloc f = some j := by
        split at hf
        · rwa [update_of_ne hfp] at hf
        · exact hf
      have := h.held f j hf'
      rwa [hother f hfp] at this
  · split
    · rw [update_of_ne]
      · exact hf
      · rintro rfl
        omega
    · exact hf
  · rw [hd.bytes]
  · rw [hcount]
    exact hf
  · unfold Covered
    rw [hd.freeSet]
    split
    · constructor
      · rintro ((hx | hx) | ⟨f, j, hfj, hx⟩)
        · exact .inl hx
        · exact .inr ⟨p, k, hp, hx⟩
        · refine .inr ⟨f, j, ?_, hx⟩
          rwa [update_of_ne] at hfj
          rintro rfl
          rw [update_self] at hfj
          cases hfj
      · rintro (hx | ⟨f, j, hfj, hx⟩)
        · exact .inl (.inl hx)
        · by_cases hfp : f = p
          · subst hfp
            cases hp.symm.trans hfj
            exact .inl (.inr hx)
          · exact .inr ⟨f, j, by rwa [update_of_ne hfp], hx⟩
    · exact Iff.rfl
  · rw [hd.ppRef, if_neg]
    rintro rfl
    exact hx (.inr ⟨x, k, hp, head_mem_blockSet x k⟩)

end Ledger

end OpenLsd
