import OpenLsd.Mem.Migrate

/-!
# What `buddy_migrate` keeps

The free lists are the same pages in the same order after the move, and a page that is in none of them is in none afterwards. The
node by which `page_free` tells whether a page is tracked is not moved: where it refers to itself it refers to its old place.
-/

namespace OpenLsd

namespace PageLists

variable {s : PageLists} {order a i : Nat} {on : Nat → Prop}

/-- The pointer leads to a page on the list, or back to the head of the list. -/
def Leads (s : PageLists) (order : Nat) (on : Nat → Prop) (a : Nat) : Prop :=
  a = s.headAddr order ∨ s.inPageRange a ∧ on (s.index a)

/-- The state of an allocator: the array fits at both places, the heads of the lists are in neither, and the free lists lead from
page to page and back to the head. -/
structure Valid (s : PageLists) : Prop where
  fits : s.pages + PAGE_INFO_SIZE * s.npages ≤ 2 ^ 64 ∧ KPAGES + PAGE_INFO_SIZE * s.npages ≤ 2 ^ 64
  heads : ∀ order < BUDDY_MAX_ORDER, ¬s.inPageRange (s.headAddr order) ∧ ¬{ s with pages := KPAGES }.inPageRange (s.headAddr order)
  lists : ∀ order < BUDDY_MAX_ORDER, ∃ on : Nat → Prop, s.Leads order on (s.buddyFreeList order).next ∧
    ∀ i, on i → s.Leads order on (s.ppNode i).next

/-- The move keeps the lists:

1. Every free list has the same pages, in the same order.
2. A `pp_node` that is in no list is in none.
3. An `active_node` that is in no list is in none. -/
def MovesFaithfully (s : PageLists) : Prop :=
  (∀ order < BUDDY_MAX_ORDER, ∀ n, s.buddyMigrate.freePages order n = s.freePages order n) ∧
  (∀ i < s.npages, (s.ppNode i).Unlinked (s.ppAddr i) → (s.buddyMigrate.ppNode i).Unlinked (s.buddyMigrate.ppAddr i)) ∧
  ∀ i < s.npages, (s.activeNode i).Unlinked (s.activeAddr i) →
    (s.buddyMigrate.activeNode i).Unlinked (s.buddyMigrate.activeAddr i)

/-- A pointer into the array is moved with the array. -/
theorem updatePtr_of_mem (h : s.Valid) (ha : s.inPageRange a) : s.updatePtr a = KPAGES + (a - s.pages) := by
  obtain ⟨hf, hk⟩ := h.fits
  rw [updatePtr, if_pos ha]
  obtain ⟨h1, h2⟩ := ha
  simp only [add64, sub64, KPAGES] at *
  omega

theorem index_lt (ha : s.inPageRange a) : s.index a < s.npages := by
  obtain ⟨h1, h2⟩ := ha
  simp only [index, PAGE_INFO_SIZE] at *
  omega

/-- After the move the traversal comes to the same pages. -/
theorem traverse_migrate (h : s.Valid) (ho : order < BUDDY_MAX_ORDER) (hon : ∀ i, on i → s.Leads order on (s.ppNode i).next)
    (ha : s.Leads order on a) (n : Nat) : s.buddyMigrate.traverse order n (s.updatePtr a) = s.traverse order n a := by
  obtain ⟨hold, hnew⟩ := h.heads order ho
  induction n generalizing a with
  | zero => rfl
  | succ n ih =>
    rcases ha with rfl | ⟨hin, ha⟩
    · rw [updatePtr, if_neg hold, traverse, traverse, if_pos rfl]
      exact if_pos rfl
    · have hptr := updatePtr_of_mem h hin
      have hindex : s.buddyMigrate.index (s.updatePtr a) = s.index a := by
        rw [hptr, index, index, show s.buddyMigrate.pages = KPAGES from rfl, Nat.add_sub_cancel_left]
      have hne : s.updatePtr a ≠ s.buddyMigrate.headAddr order := by
        intro he
        refine hnew (show { s with pages := KPAGES }.inPageRange (s.buddyMigrate.headAddr order) from ?_)
        obtain ⟨h1, h2⟩ := hin
        rw [← he, hptr]
        simp only [inPageRange]
        omega
      have hne' : a ≠ s.headAddr order := fun he => hold (he ▸ hin)
      rw [traverse, traverse, if_neg hne, if_neg hne', hindex,
        show s.buddyMigrate.ppNode (s.index a) = s.updateNode (s.ppNode (s.index a)) from if_pos (index_lt hin)]
      exact congrArg _ (ih (hon _ ha))

/-- A node that refers to itself does so at its new place. -/
theorem ppNode_migrate (h : s.Valid) (hi : i < s.npages) (hn : (s.ppNode i).Unlinked (s.ppAddr i)) :
    (s.buddyMigrate.ppNode i).Unlinked (s.buddyMigrate.ppAddr i) := by
  have hin : s.inPageRange (s.ppAddr i) := by
    simp only [inPageRange, ppAddr, PAGE_INFO_SIZE]
    omega
  have hptr : s.updatePtr (s.ppAddr i) = s.buddyMigrate.ppAddr i := by
    rw [updatePtr_of_mem h hin, ppAddr, Nat.add_sub_cancel_left]
    rfl
  rw [show s.buddyMigrate.ppNode i = s.updateNode (s.ppNode i) from if_pos hi, ← hptr]
  exact ⟨congrArg s.updatePtr hn.1, congrArg s.updatePtr hn.2⟩

/-- `buddy_migrate` keeps all lists if and only if the array stays where it is, or every page is tracked. -/
theorem buddy_migrate_faithful_iff (h : s.Valid) : s.MovesFaithfully ↔
    s.pages = KPAGES ∨ ∀ i < s.npages, ¬(s.activeNode i).Unlinked (s.activeAddr i) := by
  have haddr : ∀ i, s.buddyMigrate.activeAddr i = KPAGES + PAGE_INFO_SIZE * i + ACTIVE_NODE_OFF := fun _ => rfl
  constructor
  · intro hall
    refine or_iff_not_imp_right.2 fun hno => ?_
    simp only [not_forall, not_not] at hno
    obtain ⟨i, hi, hn⟩ := hno
    have hsame := hn.1.symm.trans (hall.2.2 i hi hn).1
    rw [haddr, activeAddr, ppAddr] at hsame
    omega
  · intro hcond
    refine ⟨fun order ho n => ?_, fun i hi hn => ppNode_migrate h hi hn, fun i hi hn => ?_⟩
    · obtain ⟨on, hfirst, hon⟩ := h.lists order ho
      rw [freePages, freePages, show s.buddyMigrate.buddyFreeList order = s.updateNode (s.buddyFreeList order) from if_pos ho]
      exact traverse_migrate h ho hon hfirst n
    · rw [haddr, ← hcond.resolve_right fun hno => hno i hi hn]
      exact hn

/-- Two pages that are in no list, at the place where `boot_alloc` puts the array. The tracking nodes are as given. -/
def bootLists (activeNode : Nat → ListNode) : PageLists where
  pages := 0xFFFF800000200000
  npages := 2
  ppNode := fun i => ⟨0xFFFF800000200000 + PAGE_INFO_SIZE * i, 0xFFFF800000200000 + PAGE_INFO_SIZE * i⟩
  activeNode := activeNode
  heads := 0xFFFF800000100000
  buddyFreeList := fun order => ⟨0xFFFF800000100000 + LIST_SIZE * order, 0xFFFF800000100000 + LIST_SIZE * order⟩

theorem bootLists_valid (activeNode : Nat → ListNode) : (bootLists activeNode).Valid := by
  refine ⟨?_, fun order ho => ?_, fun order _ => ⟨fun _ => False, .inl rfl, fun _ => False.elim⟩⟩
  · simp only [bootLists, KPAGES, PAGE_INFO_SIZE]
    omega
  · simp only [BUDDY_MAX_ORDER, BUDDY_2M_PAGE] at ho
    simp only [inPageRange, headAddr, bootLists, KPAGES, PAGE_INFO_SIZE, LIST_SIZE]
    omega

/-- The head of `active_pages`. -/
def activeHead : Nat := 0xFFFF800000101000

/-- Both pages are tracked: `active_pages` leads to the second one, from there to the first one, and back. -/
def trackedLists : PageLists := bootLists fun i =>
  if i = 0 then ⟨activeHead, (bootLists fun _ => ⟨0, 0⟩).activeAddr 1⟩ else ⟨(bootLists fun _ => ⟨0, 0⟩).activeAddr 0, activeHead⟩

/-- The array is at its new place already, and the two pages are in the first free list and not tracked. -/
def movedLists : PageLists where
  pages := KPAGES
  npages := 2
  ppNode := fun i => if i = 0 then ⟨KPAGES + PAGE_INFO_SIZE, 0xFFFF800000100000⟩ else ⟨0xFFFF800000100000, KPAGES⟩
  activeNode := fun i => ⟨KPAGES + PAGE_INFO_SIZE * i + ACTIVE_NODE_OFF, KPAGES + PAGE_INFO_SIZE * i + ACTIVE_NODE_OFF⟩
  heads := 0xFFFF800000100000
  buddyFreeList := fun order => if order = 0 then ⟨KPAGES, KPAGES + PAGE_INFO_SIZE⟩ else
    ⟨0xFFFF800000100000 + LIST_SIZE * order, 0xFFFF800000100000 + LIST_SIZE * order⟩

theorem movedLists_valid : movedLists.Valid := by
  have hin : movedLists.inPageRange KPAGES ∧ movedLists.inPageRange (KPAGES + PAGE_INFO_SIZE) := by decide
  refine ⟨by decide, by decide, fun order _ => ?_⟩
  by_cases h0 : order = 0
  · subst h0
    refine ⟨fun _ => True, .inr ⟨hin.1, trivial⟩, fun i _ => ?_⟩
    by_cases hi : i = 0
    · exact .inr (by simpa [movedLists, hi] using hin.2)
    · exact .inl (by simp [movedLists, hi, headAddr])
  · exact ⟨fun _ => False, .inl (by simp [movedLists, h0, headAddr]), fun _ => False.elim⟩

theorem buddy_migrate_faithful_tracked : trackedLists.Valid ∧ trackedLists.pages ≠ KPAGES ∧ trackedLists.MovesFaithfully ∧
    movedLists.Valid ∧ movedLists.MovesFaithfully ∧ movedLists.buddyMigrate.freePages 0 3 = [0, 1] := by
  have hval : trackedLists.Valid := bootLists_valid _
  refine ⟨hval, by decide, (buddy_migrate_faithful_iff hval).2 (.inr fun i hi hn => ?_), movedLists_valid,
    (buddy_migrate_faithful_iff movedLists_valid).2 (.inl rfl), by decide⟩
  have hnext : ∀ i < 2, (trackedLists.activeNode i).next ≠ trackedLists.activeAddr i := by decide
  exact hnext i hi hn.1

/-- The pages as `page_init` leaves them, before any is tracked. The nodes refer to the old place of the array. -/
theorem buddy_migrate_leaves_active : ∃ s : PageLists, s.Valid ∧ (s.activeNode 0).Unlinked (s.activeAddr 0) ∧
    ¬(s.buddyMigrate.activeNode 0).Unlinked (s.buddyMigrate.activeAddr 0) ∧ ¬s.MovesFaithfully := by
  let s := bootLists fun i =>
    ⟨0xFFFF800000200000 + PAGE_INFO_SIZE * i + ACTIVE_NODE_OFF, 0xFFFF800000200000 + PAGE_INFO_SIZE * i + ACTIVE_NODE_OFF⟩
  have hold : (s.activeNode 0).Unlinked (s.activeAddr 0) := ⟨rfl, rfl⟩
  have hnew : ¬(s.buddyMigrate.activeNode 0).Unlinked (s.buddyMigrate.activeAddr 0) := fun h => absurd h.1 (by decide)
  exact ⟨s, bootLists_valid _, hold, hnew, fun hall => hnew (hall.2.2 0 (by decide) hold)⟩

end PageLists

end OpenLsd
