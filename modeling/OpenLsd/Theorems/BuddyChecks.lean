import OpenLsd.Mem.BuddyChecks
import OpenLsd.Theorems.BuddyHistory

/-!
# What free-misuse detection detects

The detection works on what the pages carry: a head that is free has its flag set, and the interior pages of an allocated
block have the sentinel for their order. But `buddy_merge` clears the flag of a head that becomes an interior page, and sets no
sentinel there. So a page that was freed and merged into a larger block can be freed again, and so can every page that
boot never handed over.
-/

namespace OpenLsd

open Function Phys

variable {m : Phys} {p q k : Nat} {alloc : Orders}

namespace Phys

/-! ## What the calls write to the orders -/

theorem foldl_markInterior (l : List Nat) (m : Phys) (p : Nat) :
    l.foldl (fun m i => m.modifyPage (p + i) PageInfo.markInterior) m =
      { m with pages := fun q => if ∃ i ∈ l, q = p + i then (m.pages q).markInterior else m.pages q } := by
  induction l generalizing m with
  | nil => simp
  | cons i l ih =>
    rw [List.foldl_cons, ih]
    refine Phys.ext rfl (funext fun q => ?_) rfl rfl rfl rfl
    simp only [modifyPage_pages, List.mem_cons, exists_eq_or_imp]
    by_cases hi : q = p + i <;> by_cases hl : ∃ a ∈ l, q = p + a <;> simp [hi, hl, PageInfo.markInterior]

/-- The pages strictly inside the block are marked, and nothing else changes. -/
theorem markInteriorOnAlloc_eq (m : Phys) (p k : Nat) : m.markInteriorOnAlloc p k =
    { m with pages := fun q => if p < q ∧ q < p + 2 ^ k then (m.pages q).markInterior else m.pages q } := by
  unfold markInteriorOnAlloc
  have hpos := Nat.two_pow_pos k
  split
  · subst k
    refine Phys.ext rfl (funext fun q => (if_neg ?_).symm) rfl rfl rfl rfl
    omega
  · rw [foldl_markInterior]
    refine Phys.ext rfl (funext fun q => if_congr ?_ rfl rfl) rfl rfl rfl rfl
    simp only [List.mem_range'_1, Nat.one_shiftLeft]
    constructor
    · rintro ⟨i, hi, rfl⟩
      omega
    · intro hq
      exact ⟨q - p, by omega, by omega⟩

theorem pageAllocMarked_eq (m : Phys) (allocFlags : Nat) : m.pageAllocMarked allocFlags =
    ((m.pageAlloc allocFlags).1,
      match (m.pageAlloc allocFlags).1 with
      | none => (m.pageAlloc allocFlags).2
      | some p => (m.pageAlloc allocFlags).2.markInteriorOnAlloc p (reqOrder allocFlags)) := by
  unfold pageAllocMarked pageAlloc
  simp only [ge_iff_le, not_le.2 (BuddyInv.reqOrder_lt allocFlags), if_false]
  cases hf : m.buddyFind (reqOrder allocFlags) with
  | mk r m' =>
    cases r with
    | none => rfl
    | some p =>
      refine Prod.ext rfl ?_
      simp only [markInteriorOnAlloc_eq, initPage]
      by_cases hz : allocFlags &&& ALLOC_ZERO ≠ 0
      all_goals
        simp only [hz, ne_eq, not_false_eq_true, if_true, if_false]
        refine Phys.ext rfl (funext fun q => ?_) rfl rfl rfl rfl
        simp only [modifyPage_pages, clearFrames_pages]
        by_cases hq : q = p <;> simp [hq]

theorem mergeable_free {b : Nat} (h : m.mergeable p = some b) : (m.pages b).ppFree = true := by
  unfold mergeable at h
  simp only at h
  split at h
  · split at h
    · cases h
    · split at h
      · cases h
      · rename_i hn
        cases h
        simpa using (not_or.1 hn).1
  · cases h

/-- The loop of `buddy_merge` writes orders at the page it starts from and at free heads only. -/
theorem mergeLoop_ppOrder (n : Nat) (hq : q ≠ p) (hf : (m.pages q).ppFree = false) :
    ((mergeLoop n m p).1.pages q).ppOrder = (m.pages q).ppOrder := by
  induction n generalizing m p with
  | zero => rfl
  | succ n ih =>
    rw [mergeLoop]
    cases hm : m.mergeable p with
    | none => rfl
    | some b =>
      have hqb : q ≠ b := by
        rintro rfl
        rw [mergeable_free hm] at hf
        cases hf
      by_cases hpb : p > b
      · simp only [mergeStep, hpb, if_true]
        rw [ih hqb (by simp [hf])]
        simp [hqb]
      · simp only [mergeStep, hpb, if_false]
        rw [ih hq (by simp [hf])]
        simp [hq]

theorem pageFree_ppOrder (hq : q ≠ p) (hf : (m.pages q).ppFree = false) :
    ((m.pageFree p).pages q).ppOrder = (m.pages q).ppOrder := by
  simp only [pageFree, buddyMerge, listAddTail_pages, setFree_pages]
  exact mergeLoop_ppOrder (m := { m with activePages := m.activePages.erase p }) _ hq hf

/-- The loop of `buddy_split` writes orders in the block that it splits only. -/
theorem splitLoop_ppOrder {r : Nat} (n : Nat) (hk : (m.pages p).ppOrder = k) (hd : 2 ^ k ∣ p) (hq : q ∉ blockSet p k) :
    ((splitLoop r n m p).pages q).ppOrder = (m.pages q).ppOrder := by
  induction n generalizing m k with
  | zero => rfl
  | succ n ih =>
    rw [splitLoop]
    split
    · obtain ⟨j, rfl⟩ : ∃ j, k = j + 1 := ⟨k - 1, by omega⟩
      rw [mem_blockSet, Nat.pow_succ] at hq
      have hbd : p ^^^ 2 ^ j = p + 2 ^ j := DyadicBlock.buddy_of_dvd_succ hd
      have hqp : q ≠ p := by omega
      have hqb : q ≠ p + 2 ^ j := by omega
      rw [ih (k := j) (by simp [splitStep, hk, Nat.one_shiftLeft, hbd])
        ((Nat.pow_dvd_pow 2 (Nat.le_succ j)).trans hd) (by rw [mem_blockSet]; omega)]
      simp [splitStep, hk, Nat.one_shiftLeft, hbd, hqp, hqb]
    · rfl

end Phys

namespace BuddyInv

theorem ppFree_of_not_mem_freeSet (hq : q < m.npages) (hfree : q ∉ m.freeSet) : (m.pages q).ppFree = false := by
  by_contra hne
  exact hfree ⟨q, _, ⟨hq, by simpa using hne, rfl⟩, head_mem_blockSet q _⟩

/-- `page_alloc` writes orders of free frames only. -/
theorem pageAlloc_ppOrder (h : BuddyInv m alloc) {allocFlags : Nat} (hq : q ∉ m.freeSet) :
    ((m.pageAlloc allocFlags).2.pages q).ppOrder = (m.pages q).ppOrder := by
  unfold pageAlloc buddyFind
  simp only [ge_iff_le, not_le.2 (reqOrder_lt allocFlags), if_false]
  rcases findLoop_cases (reqOrder allocFlags) (BUDDY_MAX_ORDER - reqOrder allocFlags)
    (reqOrder allocFlags) m with ⟨hnone, _⟩ | ⟨page, j, _, hmem, hsome⟩
  · rw [hnone]
  · have hf := (h.linked j page).1 hmem
    rw [hsome]
    simp only
    obtain ⟨_, _, _, hp, _⟩ := initPage_eq ((m.listDel page).buddySplit page (reqOrder allocFlags)) allocFlags page
    have hout : q ∉ blockSet page j := fun hi => hq (blockSet_subset_freeSet hf hi)
    have hsplit := splitLoop_ppOrder (m := m.listDel page) (r := reqOrder allocFlags) (m.pages page).ppOrder
      (by simp only [listDel_pages]) (hf.2.2 ▸ (h.bounds page j (.inl hf)).2.1) (hf.2.2 ▸ hout)
    rw [hp]
    split <;> exact (congrArg PageInfo.ppOrder (setFree_pages ..)).trans hsplit

/-- The invariant does not look at the orders of pages that head no block. -/
theorem markInteriorOnAlloc (h : BuddyInv m alloc) (ha : alloc p = some k) :
    BuddyInv (m.markInteriorOnAlloc p k) alloc ∧ (m.markInteriorOnAlloc p k).freeSet = m.freeSet := by
  have hin : ∀ {i}, p < i ∧ i < p + 2 ^ k → (m.pages i).ppFree = false := fun hi =>
    h.interior_not_free (.inr ha) hi.1 hi.2
  rw [markInteriorOnAlloc_eq]
  have hfree : ∀ q j, FreeBlock { m with pages := fun q =>
      if p < q ∧ q < p + 2 ^ k then (m.pages q).markInterior else m.pages q } q j ↔ m.FreeBlock q j := by
    intro q j
    by_cases hq : p < q ∧ q < p + 2 ^ k
    · simp [FreeBlock, hq, PageInfo.markInterior, hin hq]
    · simp [FreeBlock, hq]
  have hblock := fun q j => or_congr (hfree q j) (Iff.refl (alloc q = some j))
  refine ⟨⟨⟨h.npages, ?_, h.nodup, ?_, ?_, ?_, ?_⟩, ?_⟩, ?_⟩
  · exact fun j q => (h.linked j q).trans (hfree q j).symm
  · intro q j hq
    have hout : ¬(p < q ∧ q < p + 2 ^ k) := by
      intro hi
      obtain ⟨rfl, _⟩ := h.block_unique (.inr ha) (.inr hq) (mem_blockSet.2 (by omega)) (head_mem_blockSet q j)
      omega
    simp only [hout, if_false]
    exact h.allocated q j hq
  · exact fun q j hb => h.bounds q j ((hblock q j).1 hb)
  · exact fun q j r l hb hb' => h.disjoint q j r l ((hblock q j).1 hb) ((hblock r l).1 hb')
  · exact fun q j hj hq hq' => h.coalesced q j hj ((hfree q j).1 hq) ((hfree _ j).1 hq')
  · intro q j i hb hi hiq
    have := h.idle q j i ((hblock q j).1 hb) hi (fun e => (hfree q j).1 (hiq e))
    simp only
    split <;> exact this
  · ext i
    exact exists_congr fun q => exists_congr fun j => and_congr_left fun _ => hfree q j

end BuddyInv

/-! ## Runs -/

/-- One step on physical memory with detection. Boot marks pages and hands them over; then callers allocate, count references
and free. `may` says which pages they give to `page_free`; a step is taken only if that does not panic. -/
inductive CheckedStep (may : Phys → Orders → Nat → Prop) :
    Phys → Orders → Phys → Orders → Prop
  | alloc (m : Phys) (a : Orders) (allocFlags : Nat) :
    CheckedStep may m a (m.pageAllocMarked allocFlags).2 (claimBlock a allocFlags (m.pageAllocMarked allocFlags).1)
  | free (m : Phys) (a : Orders) (p : Nat) (m' : Phys) (hmay : may m a p)
    (hok : m.pageFreeChecked p = .ok m') : CheckedStep may m a m' (update a p none)
  | count (m : Phys) (a : Orders) (p k r : Nat) (ha : a p = some k) : CheckedStep may m a (m.setRef p r) a
  | mark (m : Phys) (a : Orders) (p r : Nat) (avail : Bool) (hp : Unmanaged m a p) :
    CheckedStep may m a (m.modifyPage p (fun i => { i with ppRef := r, ppAvail := avail })) a
  | handOver (m : Phys) (a : Orders) (p : Nat) (m' : Phys) (hp : Unmanaged m a p)
    (hok : m.pageFreeChecked p = .ok m') : CheckedStep may m a m' a

/-- A run of such steps from the start of boot. -/
inductive CheckedReachable (may : Phys → Orders → Nat → Prop) : Phys → Orders → Prop
  | boot (npages : Nat) (bytes : Nat → Nat → UInt8) (h : 512 ∣ npages) :
    CheckedReachable may (bootPhys npages bytes) fun _ => none
  | step {m m' : Phys} {a a' : Orders} (hr : CheckedReachable may m a) (hs : CheckedStep may m a m' a') :
    CheckedReachable may m' a'

/-- The pages that the checks take for the head of an allocated block though they are none: a page that is in no block at all,
and an interior page of a free block that does not carry the sentinel. -/
def Undetected (m : Phys) (alloc : Orders) (p : Nat) : Prop :=
  (p ∉ m.freeSet ∧ p ∉ heldSet alloc) ∨
    ((m.pages p).ppOrder ≠ ORDER_SENTINEL ∧ ∃ q k, m.FreeBlock q k ∧ q < p ∧ p < q + 2 ^ k)

/-- The invariant with detection: the interior pages of allocated blocks carry the sentinel, and the pages that are in no block
still have the order that boot gave them. -/
structure MarkedInv (m : Phys) (alloc : Orders) : Prop extends BuddyInv m alloc where
  marked : ∀ p k i, alloc p = some k → i ∈ blockSet p k → i ≠ p → (m.pages i).ppOrder = ORDER_SENTINEL
  fresh : ∀ i < m.npages, i ∉ m.freeSet → i ∉ heldSet alloc → (m.pages i).ppOrder = 0

/-- When `page_free` does not panic it does what it does without detection. -/
theorem pageFreeChecked_ok_iff {m' : Phys} : m.pageFreeChecked p = .ok m' ↔
    (m.pages p).ppAvail = true ∧ (m.pages p).ppRef = 0 ∧ (m.pages p).ppFree = false ∧
      (m.pages p).ppOrder ≠ ORDER_SENTINEL ∧ m.pageFree p = m' := by
  unfold pageFreeChecked
  by_cases hav : (m.pages p).ppAvail = true <;> by_cases href : (m.pages p).ppRef = 0 <;>
    by_cases hf : (m.pages p).ppFree = true <;> by_cases ho : (m.pages p).ppOrder = ORDER_SENTINEL <;>
    simp_all [setFree_eq_self]

namespace MarkedInv

variable {m' : Phys} {alloc' : Orders}

theorem boot {npages : Nat} (bytes : Nat → Nat → UInt8) (h : 512 ∣ npages) : MarkedInv (bootPhys npages bytes) fun _ => none :=
  ⟨BuddyInv.boot bytes h, fun _ _ _ ha => (nomatch ha), fun _ _ _ _ => rfl⟩

section

variable (h : MarkedInv m alloc)

include h

/-- On a page of the machine without references the checks answer wrongly exactly when it is one of those they cannot tell. -/
theorem detected_iff (hp : p < m.npages) (hav : (m.pages p).ppAvail = true) (href : (m.pages p).ppRef = 0) :
    ((∃ m', m.pageFreeChecked p = .ok m') ↔ ∃ k, alloc p = some k) ↔ ¬Undetected m alloc p := by
  have hok : (∃ m', m.pageFreeChecked p = .ok m') ↔
      (m.pages p).ppFree = false ∧ (m.pages p).ppOrder ≠ ORDER_SENTINEL := by
    simp only [pageFreeChecked_ok_iff, hav, href, true_and, exists_and_left, exists_eq', and_true]
  rw [hok]
  have hhead : ∀ k, alloc p = some k → p ∉ m.freeSet := fun k ha => h.not_mem_freeSet ha (head_mem_blockSet p k)
  constructor
  · rintro hiff (⟨hfree, hheld⟩ | ⟨ho, q, j, hf, hqp, hpq⟩)
    · have hpf := BuddyInv.ppFree_of_not_mem_freeSet hp hfree
      obtain ⟨k, ha⟩ := hiff.1 ⟨hpf, by rw [h.fresh p hp hfree hheld]; decide⟩
      exact hheld ⟨p, k, ha, head_mem_blockSet p k⟩
    · obtain ⟨k, ha⟩ := hiff.1 ⟨h.interior_not_free (.inl hf) hqp hpq, ho⟩
      exact hhead k ha ⟨q, j, hf, by omega⟩
  · intro hdet
    constructor
    · rintro ⟨hpf, ho⟩
      by_cases hfree : p ∈ m.freeSet
      · -- A page of a free block that is not its head would carry the sentinel.
        obtain ⟨q, j, hf, hq⟩ := hfree
        have hne : p ≠ q := by
          rintro rfl
          rw [hf.2.1] at hpf
          cases hpf
        exact absurd (.inr ⟨ho, q, j, hf, by omega, hq.2⟩) hdet
      · have hheld : p ∈ heldSet alloc := by
          by_contra hheld
          exact hdet (.inl ⟨hfree, hheld⟩)
        obtain ⟨q, j, ha, hq⟩ := hheld
        by_cases hpq : p = q
        · exact ⟨j, hpq ▸ ha⟩
        · exact absurd (h.marked q j p ha hq hpq) ho
    · rintro ⟨k, ha⟩
      obtain ⟨hord, hpf⟩ := h.allocated p k ha
      have hk := (h.bounds p k (.inr ha)).1
      refine ⟨hpf, ?_⟩
      rw [hord, ORDER_SENTINEL]
      simp only [BUDDY_MAX_ORDER, BUDDY_2M_PAGE] at hk
      omega

/-- Freeing an allocated block keeps the sentinels of the other blocks. -/
theorem free (ha : alloc p = some k) (hidle : (m.pages p).Idle) : MarkedInv (m.pageFree p) (update alloc p none) := by
  obtain ⟨hinv, -, huse⟩ := h.pageFree ha hidle
  have hset := h.call (.free m alloc p k ha hidle.2 hidle.1)
  refine ⟨hinv, ?_, ?_⟩
  · intro q j i hq hi hiq
    have hqp : q ≠ p := by
      rintro rfl
      rw [update_self] at hq
      cases hq
    rw [update_of_ne hqp] at hq
    have hip : i ≠ p := by
      rintro rfl
      exact hqp (h.block_unique (.inr hq) (.inr ha) hi (head_mem_blockSet i k)).1
    rw [mem_blockSet] at hi
    rw [pageFree_ppOrder hip (h.interior_not_free (.inr hq) (by omega) hi.2)]
    exact h.marked q j i hq hi hiq
  · intro i hi hfree hheld
    have hi : i < m.npages := lt_of_lt_of_eq hi huse.npages
    have hout : i ∉ m.freeSet ∪ heldSet alloc := by
      rw [← hset]
      exact fun hi => hi.elim hfree hheld
    rw [Set.mem_union, not_or] at hout
    have hip : i ≠ p := by
      rintro rfl
      exact hout.2 ⟨i, k, ha, head_mem_blockSet i k⟩
    rw [pageFree_ppOrder hip (BuddyInv.ppFree_of_not_mem_freeSet hi hout.1)]
    exact h.fresh i hi hout.1 hout.2

/-- A page that is in no block may be taken as an allocated block of order zero. -/
theorem enter (hp : Unmanaged m alloc p) : MarkedInv m (update alloc p (some 0)) := by
  refine ⟨h.toBuddyInv.enter hp, ?_, ?_⟩
  · intro q j i hq hi hiq
    by_cases hqp : q = p
    · rw [hqp, update_self, Option.some.injEq] at hq
      rw [mem_blockSet, ← hq] at hi
      omega
    · rw [update_of_ne hqp] at hq
      exact h.marked q j i hq hi hiq
  · intro i hi hfree hheld
    rw [BuddyInv.heldSet_update_some hp.alloc_eq_none] at hheld
    exact h.fresh i hi hfree (fun hh => hheld (.inl hh))

theorem pageAllocMarked {allocFlags : Nat} :
    MarkedInv (m.pageAllocMarked allocFlags).2 (claimBlock alloc allocFlags (m.pageAllocMarked allocFlags).1) := by
  rw [pageAllocMarked_eq]
  cases hr : (m.pageAlloc allocFlags).1 with
  | none =>
    simp only
    rw [(h.pageAlloc_none hr).1]
    exact h
  | some p =>
    have ha := h.pageAlloc_some hr
    have hset := h.call (.alloc m alloc allocFlags)
    rw [hr] at hset
    simp only [claimBlock] at hset ⊢
    have hself : update alloc p (some (reqOrder allocFlags)) p = some (reqOrder allocFlags) := update_self _ _ _
    obtain ⟨hinv, hfreeSet⟩ := ha.inv.markInteriorOnAlloc hself
    have hold : ∀ i, ¬(p < i ∧ i < p + 2 ^ reqOrder allocFlags) → i ∉ m.freeSet →
        ((markInteriorOnAlloc (m.pageAlloc allocFlags).2 p (reqOrder allocFlags)).pages i).ppOrder =
          (m.pages i).ppOrder := by
      intro i hi hfree
      rw [markInteriorOnAlloc_eq]
      simp only [hi, if_false]
      exact h.pageAlloc_ppOrder hfree
    refine ⟨hinv, ?_, ?_⟩
    · intro q j i hq hi hiq
      by_cases hqp : q = p
      · rw [hqp, update_self, Option.some.injEq] at hq
        rw [hqp, ← hq, mem_blockSet] at hi
        rw [markInteriorOnAlloc_eq]
        simp only [show p < i ∧ i < p + 2 ^ reqOrder allocFlags by omega]
        rfl
      · rw [update_of_ne hqp] at hq
        have hfree := h.not_mem_freeSet hq hi
        rw [hold i (fun hi' => hfree (ha.free (mem_blockSet.2 (by omega)))) hfree]
        exact h.marked q j i hq hi hiq
    · intro i hi hfree hheld
      rw [hfreeSet] at hfree
      have hout : i ∉ m.freeSet ∪ heldSet alloc := by
        rw [← hset]
        exact fun hi => hi.elim hfree hheld
      rw [Set.mem_union, not_or] at hout
      rw [hold i (fun hi' => hout.1 (ha.free (mem_blockSet.2 (by omega)))) hout.1]
      refine h.fresh i ?_ hout.1 hout.2
      rw [markInteriorOnAlloc_eq] at hi
      exact lt_of_lt_of_eq hi ha.npages

/-- Writes that leave the flags and the orders alone keep the marks. -/
theorem congr (hinv : BuddyInv m' alloc) (hn : m'.npages = m.npages) (ho : ∀ q, (m'.pages q).ppOrder = (m.pages q).ppOrder)
    (hf : ∀ q, (m'.pages q).ppFree = (m.pages q).ppFree) : MarkedInv m' alloc := by
  refine ⟨hinv, ?_, ?_⟩
  · intro q j i hq hi hiq
    rw [ho]
    exact h.marked q j i hq hi hiq
  · intro i hi hfree hheld
    rw [BuddyInv.freeSet_congr hn ho hf] at hfree
    rw [ho]
    exact h.fresh i (hn ▸ hi) hfree hheld

theorem step (hs : CheckedStep (fun m a p => ¬Undetected m a p) m alloc m' alloc') : MarkedInv m' alloc' := by
  cases hs with
  | alloc allocFlags => exact h.pageAllocMarked
  | free p _ hmay hok =>
    have hp : p < m.npages := by
      by_contra hp
      refine hmay (.inl ⟨?_, ?_⟩)
      · rintro ⟨q, j, hf, hq⟩
        have := (h.bounds q j (.inl hf)).2.2
        omega
      · rintro ⟨q, j, ha, hq⟩
        have := (h.bounds q j (.inr ha)).2.2
        rw [mem_blockSet] at hq
        omega
    obtain ⟨hav, href, _, _, rfl⟩ := pageFreeChecked_ok_iff.1 hok
    obtain ⟨k, ha⟩ := ((h.detected_iff hp hav href).2 hmay).1 ⟨_, hok⟩
    exact h.free ha ⟨hav, href⟩
  | count p k r ha =>
    exact h.congr (h.toBuddyInv.step (.count m alloc p k r ha)) rfl (fun q => by simp) (fun q => by simp)
  | mark p r avail hp =>
    refine h.congr (h.toBuddyInv.step (.mark m alloc p r avail hp)) rfl (fun q => ?_) (fun q => ?_) <;>
      rw [modifyPage_pages] <;> split <;> rfl
  | handOver p _ hp hok =>
    obtain ⟨hav, href, _, _, rfl⟩ := pageFreeChecked_ok_iff.1 hok
    have hfree := (h.enter hp).free (update_self p (some 0) alloc) ⟨hav, href⟩
    rwa [update_idem, (update_eq_self_iff.2 hp.alloc_eq_none.symm : update alloc p none = alloc)] at hfree

end

end MarkedInv

theorem CheckedReachable.inv
    (h : CheckedReachable (fun m a p => ¬Undetected m a p) m alloc) : MarkedInv m alloc := by
  induction h with
  | boot npages bytes hn => exact MarkedInv.boot bytes hn
  | step _ hs ih => exact ih.step hs

/-! ## Detection -/

/-- With both kinds of detection, in every state that is reached by calls that free no page which the checks cannot tell, and
for every available page without references: `page_free` goes through for the heads of allocated blocks and for no
other page, exactly when the page is none of those either. -/
theorem free_misuse_detected_iff {m : Phys} {alloc : Nat → Option Nat}
    (hr : CheckedReachable (fun m a p => ¬Undetected m a p) m alloc) {p : Nat} (hp : p < m.npages)
    (hav : (m.pages p).ppAvail = true) (href : (m.pages p).ppRef = 0) :
    ((∃ m', m.pageFreeChecked p = .ok m') ↔ ∃ k, alloc p = some k) ↔ ¬Undetected m alloc p :=
  hr.inv.detected_iff hp hav href

/-- Boot marks the page as available and hands it over. -/
def handOver (m : Phys) (p : Nat) : Phys := (m.modifyPage p (fun i => { i with ppRef := 0, ppAvail := true })).pageFree p

theorem CheckedReachable.handOver {may : Phys → Orders → Nat → Prop}
    (hr : CheckedReachable may m fun _ => none) (hp : Unmanaged m (fun _ => none) p) :
    CheckedReachable may (handOver m p) fun _ => none := by
  obtain ⟨hlt, ho, hf, hout⟩ := hp
  have hpages : ∀ q, ((m.modifyPage p (fun i => { i with ppRef := 0, ppAvail := true })).pages q).ppOrder =
      (m.pages q).ppOrder ∧ ((m.modifyPage p (fun i => { i with ppRef := 0, ppAvail := true })).pages q).ppFree =
      (m.pages q).ppFree := by
    intro q
    rw [modifyPage_pages]
    split <;> exact ⟨rfl, rfl⟩
  refine (hr.step (.mark m _ p 0 true ⟨hlt, ho, hf, hout⟩)).step (.handOver _ _ p _ ⟨hlt, ?_, ?_, ?_⟩ ?_)
  · rw [(hpages p).1, ho]
  · rw [(hpages p).2, hf]
  · rintro q k (⟨hq, hqf, hqo⟩ | ha)
    · exact hout q k (.inl ⟨hq, (hpages q).2 ▸ hqf, (hpages q).1 ▸ hqo⟩)
    · cases ha
  · refine pageFreeChecked_ok_iff.2 ⟨?_, ?_, ?_, ?_, rfl⟩
    · simp [modifyPage_pages]
    · simp [modifyPage_pages]
    · rw [(hpages p).2, hf]
    · rw [(hpages p).1, ho]
      decide

/-- Two buddies handed over to an empty allocator. -/
def twoPages : Phys := handOver (handOver (bootPhys 512 fun _ _ => 0) 2) 3

theorem twoPages_reachable (may : Phys → Orders → Nat → Prop) : CheckedReachable may twoPages fun _ => none := by
  refine ((CheckedReachable.boot 512 (fun _ _ => 0) (by decide)).handOver ⟨by decide, rfl, rfl, ?_⟩).handOver
    ⟨by decide, by decide, by decide, ?_⟩
  · rintro q k (⟨_, hf, _⟩ | ha)
    · cases hf
    · cases ha
  · rintro q k (⟨_, hf, ho⟩ | ha)
    · have hq : q = 2 := by
        by_contra hq
        simp [handOver, bootPhys, pageFree, buddyMerge, BUDDY_MAX_ORDER, mergeLoop, mergeable,
          modifyPage_pages, hq] at hf
      subst hq
      obtain rfl : k = 0 := ho.symm.trans (by decide)
      rw [mem_blockSet]
      omega
    · cases ha

/-- In an allocator with nothing but two buddies, both are allocated and the lower one is freed. -/
def lowerFreed : Phys := (((twoPages.pageAllocMarked 0).2.pageAllocMarked 0).2).pageFree 2

/-- A page that is freed and merged into its lower buddy carries neither the flag nor the sentinel: freeing it a second time
goes through. -/
theorem double_free_undetected :
    ∃ alloc, CheckedReachable (fun _ _ _ => True) lowerFreed alloc ∧ alloc 3 = some 0 ∧
      ∃ m1 m2, lowerFreed.pageFreeChecked 3 = .ok m1 ∧ m1.pageFreeChecked 3 = .ok m2 := by
  have hfst : (twoPages.pageAllocMarked 0).1 = some 2 := by decide +kernel
  have hsnd : ((twoPages.pageAllocMarked 0).2.pageAllocMarked 0).1 = some 3 := by decide +kernel
  have hrun := (((twoPages_reachable fun _ _ _ => True).step (.alloc _ _ 0)).step (.alloc _ _ 0)).step
    (.free _ _ 2 lowerFreed trivial (pageFreeChecked_ok_iff.2
      ⟨by decide +kernel, by decide +kernel, by decide +kernel, by decide +kernel, rfl⟩))
  refine ⟨_, hrun, ?_, lowerFreed.pageFree 3, (lowerFreed.pageFree 3).pageFree 3, ?_, ?_⟩
  · rw [hfst, hsnd]
    rfl
  · exact pageFreeChecked_ok_iff.2 ⟨by decide +kernel, by decide +kernel, by decide +kernel, by decide +kernel, rfl⟩
  · exact pageFreeChecked_ok_iff.2 ⟨by decide +kernel, by decide +kernel, by decide +kernel, by decide +kernel, rfl⟩

/-- The head of the free block of two buddies is detected. -/
theorem free_misuse_detected_twoPages :
    ((∃ m', twoPages.pageFreeChecked 2 = .ok m') ↔ ∃ k, (none : Option Nat) = some k) ↔
      ¬Undetected twoPages (fun _ => none) 2 :=
  free_misuse_detected_iff (twoPages_reachable _) (by decide) (by decide +kernel) (by decide +kernel)

end OpenLsd
