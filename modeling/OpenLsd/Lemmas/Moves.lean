import OpenLsd.Lemmas.AreaBounds
import OpenLsd.Lemmas.Stores

/-!
# What is done to the pages of a task

Operations on the page tables of a task, seen page by page: `Moved R` says that the tables stay counted, that those who hold
references to frames are spared, and that each page changes as `R` allows. The regions that the kernel works on are given by
addresses here, and lie in the user half.
-/

namespace OpenLsd

open Outcome Function

variable {keep alloc : Orders} {lossy : Prop} {ext : Nat → Nat} {m : Phys} {t : Pml4} {base last : Nat}

/-! ## Operations one after the other -/

section Moved

variable {lossy' : Prop} {R R' R'' : StateRel} {ext' ext'' : Nat → Nat}
  {alloc' alloc'' : Orders} {m' m'' : Phys} {t' t'' : Pml4} {x : Kernel (Phys × Pml4)} {bad : Stop → Prop}
  {r : Phys × Pml4}

/-- The page tables of a task have changed, every page as `R` allows. -/
structure Moved (keep : Orders) (lossy : Prop) (R : StateRel)
    (ext : Nat → Nat) (alloc : Orders) (m : Phys) (t : Pml4) (m' : Phys) (t' : Pml4) (ext' : Nat → Nat)
    (alloc' : Orders) : Prop where
  acc : Acc keep ext' alloc' m' t'
  ext_le : ∀ f, ext f ≤ ext' f
  ext_eq : ¬lossy → ext' = ext
  spares : Spares ∅ ext alloc m alloc' m'
  page : ∀ g < 2 ^ 35, R g (Node.page m t g) (Node.page m' t' g)

/-- What an operation leaves, for some way to count it. -/
def Moves (keep : Orders) (lossy : Prop) (R : StateRel)
    (ext : Nat → Nat) (alloc : Orders) (m : Phys) (t : Pml4) (r : Phys × Pml4) : Prop :=
  ∃ ext' alloc', Moved keep lossy R ext alloc m t r.1 r.2 ext' alloc'

theorem Moved.refl (h : Acc keep ext alloc m t) (hR : ∀ g s, R g s s) : Moved keep lossy R ext alloc m t m t ext alloc :=
  ⟨h, fun _ => le_rfl, fun _ => rfl, h.spares_refl, fun g _ => hR g _⟩

theorem Moved.trans (h : Moved keep lossy R ext alloc m t m' t' ext' alloc')
    (h' : Moved keep lossy R' ext' alloc' m' t' m'' t'' ext'' alloc'')
    (hR : ∀ g < 2 ^ 35, ∀ s s' s'', R g s s' → R' g s' s'' → R'' g s s'') :
    Moved keep lossy R'' ext alloc m t m'' t'' ext'' alloc'' where
  acc := h'.acc
  ext_le := fun f => le_trans (h.ext_le f) (h'.ext_le f)
  ext_eq := fun hl => (h'.ext_eq hl).trans (h.ext_eq hl)
  spares := h.spares.trans (h'.spares.mono fun f hf => lt_of_lt_of_le hf (h.ext_le f))
  page := fun g hg => hR g hg _ _ _ (h.page g hg) (h'.page g hg)

theorem Moved.mono (h : Moved keep lossy R ext alloc m t m' t' ext' alloc') (hR : ∀ g < 2 ^ 35, ∀ s s', R g s s' → R' g s s') :
    Moved keep lossy R' ext alloc m t m' t' ext' alloc' :=
  { h with page := fun g hg => hR g hg _ _ (h.page g hg) }

theorem Moves.mono (h : Moves keep lossy R ext alloc m t r) (hR : ∀ g < 2 ^ 35, ∀ s s', R g s s' → R' g s s') :
    Moves keep lossy R' ext alloc m t r := by
  obtain ⟨ext', alloc', h⟩ := h
  exact ⟨ext', alloc', h.mono hR⟩

theorem Moves.lossy_imp (h : Moves keep lossy R ext alloc m t r) (hl : lossy → lossy') : Moves keep lossy' R ext alloc m t r := by
  obtain ⟨ext', alloc', h⟩ := h
  exact ⟨ext', alloc', { h with ext_eq := fun hno => h.ext_eq fun hl' => hno (hl hl') }⟩

/-- One operation after the other. -/
theorem Moves.seq {f : Phys × Pml4 → Kernel (Phys × Pml4)}
    {S : StateRel}
    (hx : Ends bad x (Moves keep lossy R ext alloc m t))
    (hf : ∀ r ext' alloc', Moved keep lossy R ext alloc m t r.1 r.2 ext' alloc' →
      Ends bad (f r) (Moves keep lossy S ext' alloc' r.1 r.2))
    (hR : ∀ g < 2 ^ 35, ∀ s s' s'', R g s s' → S g s' s'' → R'' g s s'') :
    Ends bad (x >>= f) (Moves keep lossy R'' ext alloc m t) := by
  refine hx.bind fun r ⟨ext', alloc', h⟩ => (hf r ext' alloc' h).mono fun r' ⟨ext'', alloc'', h'⟩ => ?_
  exact ⟨ext'', alloc'', h.trans h' hR⟩

theorem Moves.then (h : Moves keep lossy R ext alloc m t (m', t'))
    (hx : ∀ ext' alloc', Acc keep ext' alloc' m' t' → Ends bad x (Moves keep lossy R' ext' alloc' m' t'))
    (hR : ∀ g < 2 ^ 35, ∀ s s' s'', R g s s' → R' g s' s'' → R'' g s s'') : Ends bad x (Moves keep lossy R'' ext alloc m t) := by
  obtain ⟨ext', alloc', h⟩ := h
  refine (hx ext' alloc' h.acc).mono fun r ⟨ext'', alloc'', h'⟩ => ⟨ext'', alloc'', h.trans h' hR⟩

theorem Done.moved {P : PageRel Loan.nothing.frames} {a b : Nat} (hl : lossy → lossy')
    (h : Done keep lossy P 0 a b ext alloc m t m' t' ext' alloc') :
    Moved keep lossy' (P.at a b) ext alloc m t m' t' ext' alloc' := by
  refine ⟨h.acc, h.ext_le, fun hno => h.ext_eq fun hl' => hno (hl hl'), h.spares, fun g hg => h.page g (Nat.div_eq_of_lt ?_)⟩
  exact lt_of_lt_of_le hg (by decide)

end Moved

/-! ## Regions -/

/-- A range of whole pages in the user half. -/
structure UserRange (base last : Nat) : Prop where
  alignedBase : pageAligned base
  alignedLast : pageAligned last
  lt : base < last
  le : last ≤ USER_LIM

namespace UserRange

theorem pages (h : UserRange base last) : base / PAGE_SIZE ≤ last / PAGE_SIZE - 1 ∧ last / PAGE_SIZE - 1 < 2 ^ 35 ∧
    last / PAGE_SIZE - 1 + 1 = last / PAGE_SIZE := by
  obtain ⟨hb, hl, hlt, hle⟩ := h
  simp only [pageAligned, USER_LIM, PAGE_SIZE] at *
  omega

theorem base_eq (h : UserRange base last) : roundDown base = pageAddr (base / PAGE_SIZE) := by
  rw [pageAddr_user (lt_of_le_of_lt h.pages.1 h.pages.2.1)]
  rfl

theorem last_eq (h : UserRange base last) : sub64 (roundUp last) 1 = pageLast (last / PAGE_SIZE - 1) := by
  have hp := h.pages
  rw [pageLast, pageAddr_user hp.2.1]
  obtain ⟨hb, hl, hlt, hle⟩ := h
  simp only [pageAligned, USER_LIM, PAGE_SIZE, sub64, roundUp, roundDown, add64] at *
  omega

theorem walk_eq {σ : Type} (h : UserRange base last) (w : Walker σ) :
    w.walkPageRange base last = w.pageWalk (base / PAGE_SIZE) (last / PAGE_SIZE - 1) := by
  obtain ⟨hb, hl, hlt, hle⟩ := h
  have h1 : pageNo base = base / PAGE_SIZE := by
    simp only [pageNo, pageAligned, USER_LIM, PAGE_SIZE, NPAGES] at *
    omega
  have h2 : pageNo (last - 1) = last / PAGE_SIZE - 1 := by
    simp only [pageNo, pageAligned, USER_LIM, PAGE_SIZE, NPAGES] at *
    omega
  have h64 : last < 2 ^ 64 := lt_of_le_of_lt hle (by decide)
  rw [w.walkPageRange_eq hlt h64 (.inl (by omega)) (.inl (by omega)), h1, h2]

end UserRange

/-- A range whose end is not above its start has no pages. -/
theorem walkPageRange_empty {σ : Type} (w : Walker σ) {base last : Nat} (hb : pageAligned base) (hl : pageAligned last)
    (hbase : base < USER_LIM) (hpos : 0 < last) (hle : last ≤ base) (s : σ) (t : Pml4) :
    w.walkPageRange base last s t = .ok (s, t) := by
  have h1 : roundDown base = base := by
    simp only [roundDown, pageAligned, PAGE_SIZE] at *
    omega
  have h2 : sub64 (roundUp last) 1 = last - 1 := by
    simp only [sub64, roundUp, roundDown, add64, pageAligned, PAGE_SIZE, USER_LIM] at *
    omega
  rw [Walker.walkPageRange, h1, h2, Walker.pml4WalkRange, walkRange, signExtend_of_user hbase, signExtend_of_user (by omega)]
  exact walkLoop_done (by omega) _ _ _

section Regions

variable {size pml4 : Nat} {flags : PageFlags}

theorem Walker.TreatsPages.walkPageRange {w : Walker Phys} {P : PageRel Loan.nothing.frames} (h : UserRange base last)
    (hw : w.TreatsPages (base / PAGE_SIZE) (last / PAGE_SIZE - 1) keep .nothing lossy P) (hacc : Acc keep ext alloc m t) :
    Ends Panics (w.walkPageRange base last m t)
      (Moves keep lossy (P.at (base / PAGE_SIZE) (last / PAGE_SIZE)) ext alloc m t) := by
  obtain ⟨h1, h2, h3⟩ := h.pages
  rw [h.walk_eq]
  refine (hw.pageWalk h1 h2 hacc given_nothing).mono fun r ⟨ext', alloc', hd⟩ => ⟨ext', alloc', ?_⟩
  rw [h3] at hd
  exact hd.moved id

section

variable (h : UserRange base last) (hs : add64 base size = last)

include h hs

theorem unmapPageRange_moves (hacc : Acc keep ext alloc m t) : Ends Panics (unmapPageRange pml4 m t base size)
      (Moves keep lossy (removeRel.at (base / PAGE_SIZE) (last / PAGE_SIZE)) ext alloc m t) := by
  unfold unmapPageRange
  rw [hs]
  refine Walker.TreatsPages.walkPageRange h (remove_treatsPages fun c hc => (removes_iff h.pages.2.1 hc ?_ ?_).1) hacc
  · rw [← h.base_eq]
    have := h.alignedBase
    simp only [pageAligned, roundDown, PAGE_SIZE] at *
    omega
  · have h1 := h.alignedLast
    have h2 := h.lt
    rw [pageLast, pageAddr_user h.pages.2.1]
    simp only [pageAligned, PAGE_SIZE] at *
    omega

theorem protectRegion_moves (hacc : Acc keep ext alloc m t) :
    Ends Panics (protectRegion pml4 m t base size flags) (Moves keep (flags.present = false)
      ((protectRel flags).at (base / PAGE_SIZE) (last / PAGE_SIZE)) ext alloc m t) := by
  unfold protectRegion
  rw [hs]
  exact Walker.TreatsPages.walkPageRange h (protect_treatsPages ⟨_, _, _, _⟩ h.base_eq h.last_eq) hacc

theorem populateRegion_moves (hh : flags.huge = true → base % HPAGE_SIZE = 0) (hacc : Acc keep ext alloc m t) :
    Ends Panics (populateRegion m t base size flags)
      (Moves keep lossy ((populateRel flags).at (base / PAGE_SIZE) (last / PAGE_SIZE)) ext alloc m t) := by
  unfold populateRegion
  rw [hs]
  refine .ite (fun hno => absurd (hh hno.1) hno.2) fun _ => ?_
  exact Walker.TreatsPages.walkPageRange h (populate_treatsPages ⟨_, _, _⟩ h.base_eq h.last_eq) hacc

end

end Regions

/-! ## Filling pages from the executable -/

/-- The number of bytes that are copied to the range, and where they come from. -/
def Vma.fillLen (v : Vma) (base size : Nat) : Nat :=
  match v.vmSrc with
  | none => 0
  | some _ => min size (v.vmLen - sub64 base v.vmBase)

def Vma.fillSrc (v : Vma) (base : Nat) : Nat := v.vmSrc.getD 0 + sub64 base v.vmBase

/-- The bytes of the page with the number `g` when the first `n` bytes from `base` on have been copied. -/
def fillBytes (image : Nat → UInt8) (src base n g : Nat) (bytes : Nat → UInt8) (o : Nat) : UInt8 :=
  if o < PAGE_SIZE ∧ base ≤ g * PAGE_SIZE + o ∧ g * PAGE_SIZE + o < base + n then image (src + (g * PAGE_SIZE + o - base))
  else bytes o

/-- Each page has its part of the first `n` bytes. -/
def Filled (image : Nat → UInt8) (src base n g : Nat) : Option PageState → Option PageState → Prop :=
  Option.Rel (PageState.Rewritten (fillBytes image src base n g))

/-- The page is mapped, and nobody else refers to it. -/
def Alone (s : Option PageState) : Prop := ∃ a, s = some a ∧ a.ref ≤ 1

/-- A page that was populated belongs to nobody else. -/
theorem Populated.alone {flags : PageFlags} {s s' : Option PageState} (h : Populated flags s s') : Alone s' := by
  cases h with
  | fresh _ _ hr => exact ⟨_, rfl, hr⟩
  | copied h => exact ⟨_, rfl, h.ref⟩
  | same h => exact ⟨_, rfl, h.alone⟩

section Fill

variable {image : Nat → UInt8} {src n g : Nat} {s s' s'' : Option PageState}

theorem Filled.alone (h : Filled image src base n g s s') (ha : Alone s) : Alone s' := by
  obtain ⟨a, rfl, hr⟩ := ha
  cases h with
  | some h => exact ⟨_, rfl, le_trans h.ref hr⟩

theorem Filled.zero (image : Nat → UInt8) (src base g : Nat) (s : Option PageState) : Filled image src base 0 g s s := by
  cases s with
  | none => exact .none
  | some a =>
    refine .some ⟨rfl, rfl, rfl, ?_, le_rfl⟩
    funext o
    rw [fillBytes, if_neg (by omega)]

theorem fillBytes_self (bytes : Nat → UInt8) :
    fillBytes image src base (n + 1) ((base + n) / PAGE_SIZE) bytes ((base + n) % PAGE_SIZE) = image (src + n) := by
  have hdiv := Nat.div_add_mod' (base + n) PAGE_SIZE
  have hmod := Nat.mod_lt (base + n) (show 0 < PAGE_SIZE by decide)
  rw [fillBytes, hdiv, if_pos (by omega), Nat.add_sub_cancel_left]

theorem fillBytes_of_ne {o : Nat} (hne : ¬(g = (base + n) / PAGE_SIZE ∧ o = (base + n) % PAGE_SIZE)) (bytes : Nat → UInt8) :
    fillBytes image src base (n + 1) g bytes o = fillBytes image src base n g bytes o := by
  have hiff : (o < PAGE_SIZE ∧ base ≤ g * PAGE_SIZE + o ∧ g * PAGE_SIZE + o < base + (n + 1)) ↔
      (o < PAGE_SIZE ∧ base ≤ g * PAGE_SIZE + o ∧ g * PAGE_SIZE + o < base + n) := by
    refine ⟨fun hin => ⟨hin.1, hin.2.1, ?_⟩, fun hin => by omega⟩
    by_contra hno
    have heq : base + n = PAGE_SIZE * g + o := by
      rw [Nat.mul_comm PAGE_SIZE]
      omega
    refine hne ⟨?_, ?_⟩
    · rw [heq, Nat.mul_add_div (by decide), Nat.div_eq_of_lt hin.1, Nat.add_zero]
    · rw [heq, Nat.mul_add_mod, Nat.mod_eq_of_lt hin.1]
  simp only [fillBytes, hiff]

/-- One byte more is filled. -/
theorem Filled.succ (h : Filled image src base n g s s') (h' : (writeRel (update · ((base + n) % PAGE_SIZE) (image (src + n)))).at
    ((base + n) / PAGE_SIZE) ((base + n) / PAGE_SIZE + 1) g s' s'') : Filled image src base (n + 1) g s s'' := by
  unfold PageRel.at at h'
  split at h'
  · obtain rfl : g = (base + n) / PAGE_SIZE := by omega
    cases h with
    | none =>
      cases h'
      exact .none
    | some h =>
      cases h' with
      | some h' =>
        refine .some ⟨h'.write.trans h.write, h'.user.trans h.user, h'.noExec.trans h.noExec, ?_, le_trans h'.ref h.ref⟩
        rw [h'.bytes, h.bytes]
        funext o
        by_cases ho : o = (base + n) % PAGE_SIZE
        · rw [ho, update_self, fillBytes_self]
        · rw [update_of_ne ho, fillBytes_of_ne fun hno => ho hno.2]
  · have hsame : SamePage ∅ s' s'' := h'
    cases h with
    | none =>
      cases hsame
      exact .none
    | some h =>
      cases hsame with
      | some hle =>
        refine .some ⟨hle.write.trans h.write, hle.user.trans h.user, hle.noExec.trans h.noExec, ?_, le_trans (hle.ref rfl) h.ref⟩
        rw [hle.bytes, h.bytes]
        funext o
        rw [fillBytes_of_ne]
        omega

variable {v : Vma}

/-- Copying to pages that are there, and that nobody else refers to. -/
theorem fillFrom_moves {size : Nat} (hu : base + size ≤ USER_LIM) (hacc : Acc keep ext alloc m t)
    (halone : ∀ g, base / PAGE_SIZE ≤ g → g * PAGE_SIZE < base + size → Alone (Node.page m t g)) :
    Ends Panics (fillFrom image v base size (m, t))
      (Moves keep lossy (Filled image (v.fillSrc base) base (v.fillLen base size)) ext alloc m t) := by
  unfold fillFrom Vma.fillLen Vma.fillSrc
  cases v.vmSrc with
  | none => exact .ok ⟨ext, alloc, .refl hacc fun g s => .zero _ _ _ g s⟩
  | some src =>
    refine .ite (fun _ => ?_) fun hno => ?_
    · let I : Nat → Phys × Pml4 → Prop := fun n =>
        Moves keep lossy (Filled image (src + sub64 base v.vmBase) base n) ext alloc m t
      have h0 : I 0 (m, t) := ⟨ext, alloc, .refl hacc fun g s => .zero _ _ _ g s⟩
      have hloop : Ends Panics (forRange (fun i => storeByte (base + i) (image (src + sub64 base v.vmBase + i)))
          (min size (v.vmLen - sub64 base v.vmBase)) 0 (m, t)) (I (0 + min size (v.vmLen - sub64 base v.vmBase))) := by
        refine forRange_rule (fun n r _ hn hr => ?_) h0
        obtain ⟨ext1, alloc1, h1⟩ := hr
        have hva : base + n < USER_LIM := by omega
        have hbelow := Nat.div_mul_le_self (base + n) PAGE_SIZE
        obtain ⟨a, ha, hone⟩ := (h1.page _ (user_page_lt hva)).alone
          (halone _ (Nat.div_le_div_right (Nat.le_add_right _ _)) (by omega))
        obtain ⟨m', t', he, hd⟩ := storeByte_done (b := image (src + sub64 base v.vmBase + n)) hva ha hone h1.acc
        rw [show storeByte (base + n) (image (src + sub64 base v.vmBase + n)) r = .ok (m', t') from he]
        exact .ok ⟨ext1, alloc1, h1.trans (hd.moved False.elim) fun g _ s s' s'' hs hs' => hs.succ hs'⟩
      rwa [Nat.zero_add] at hloop
    · rw [Nat.sub_eq_zero_of_le (Nat.le_of_not_lt hno), Nat.min_zero]
      exact .ok ⟨ext, alloc, .refl hacc fun g s => .zero _ _ _ g s⟩

end Fill

end OpenLsd
