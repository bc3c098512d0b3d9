import OpenLsd.Theorems.Buddy

/-!
# The buddy allocator forgets its history

Which frames are free says all about the free blocks: a coalesced decomposition of a set of frames into aligned blocks is
unique. So the greedy merges of `buddy_merge` end in the same blocks whatever the order of the calls was.
-/

namespace OpenLsd

open Function

/-- The free blocks, each as its head and its order. -/
def Phys.freeBlocks (m : Phys) : Set (Nat × Nat) := {b | m.FreeBlock b.1 b.2}

/-- The frames of the allocated blocks. -/
def heldSet (alloc : Orders) : Set Nat := {i | ∃ p k, alloc p = some k ∧ i ∈ blockSet p k}

/-- `page_free` for one block after the other. -/
def Phys.freeAll (m : Phys) (heads : List Nat) : Phys := heads.foldl Phys.pageFree m

namespace BuddyInv

variable {m m' : Phys} {alloc alloc' : Orders} {p k : Nat}

/-! ## One decomposition -/

/-- A block that is free in one state is free in every other state with the same free frames. -/
theorem freeBlock_of_freeSet_eq (h : BuddyInv m alloc) (h' : BuddyInv m' alloc') (he : m.freeSet = m'.freeSet)
    (hf : m.FreeBlock p k) : m'.FreeBlock p k := by
  obtain ⟨hk, hd, _⟩ := h.bounds p k (.inl hf)
  obtain ⟨q, j, hkj, hf', hp⟩ := h'.exists_freeBlock_of_run hk hd (he ▸ blockSet_subset_freeSet hf)
  obtain ⟨hj, hd', _⟩ := h'.bounds q j (.inl hf')
  -- The block around it in the other state lies in one block of this state, which can only be the block itself.
  obtain ⟨r, l, hjl, hf'', hq⟩ := h.exists_freeBlock_of_run hj hd' (he ▸ blockSet_subset_freeSet hf')
  have hin := DyadicBlock.nested hjl hd' (h.bounds r l (.inl hf'')).2.1 (i := q) (by omega) hq
  rw [mem_blockSet] at hp
  obtain ⟨rfl, rfl⟩ := h.block_unique (.inl hf) (.inl hf'') (head_mem_blockSet p k) (mem_blockSet.2 (by omega))
  obtain rfl : j = k := by omega
  exact h'.freeBlock_at hf' hd (mem_blockSet.2 hp)

theorem freeBlocks_eq (h : BuddyInv m alloc) (h' : BuddyInv m' alloc') (he : m.freeSet = m'.freeSet) :
    m.freeBlocks = m'.freeBlocks := by
  ext ⟨q, j⟩
  exact ⟨h.freeBlock_of_freeSet_eq h' he, h'.freeBlock_of_freeSet_eq h he.symm⟩

/-! ## Freeing a collection of blocks -/

/-- After a collection of blocks was freed, their frames are free too, in whatever order that happened. -/
theorem freeAll {heads : List Nat} (h : BuddyInv m alloc) (hn : heads.Nodup)
    (hheads : ∀ q ∈ heads, (alloc q).isSome = true ∧ (m.pages q).Idle) :
    (∃ alloc', BuddyInv (m.freeAll heads) alloc') ∧
      (m.freeAll heads).freeSet = m.freeSet ∪ {i | ∃ q ∈ heads, ∃ j, alloc q = some j ∧ i ∈ blockSet q j} := by
  induction heads generalizing m alloc with
  | nil => exact ⟨⟨alloc, h⟩, by simp [Phys.freeAll]⟩
  | cons q l ih =>
    obtain ⟨hql, hl⟩ := List.nodup_cons.1 hn
    obtain ⟨hsome, hidle⟩ := hheads q List.mem_cons_self
    obtain ⟨j, hj⟩ := Option.isSome_iff_exists.1 hsome
    obtain ⟨h1, hset, huse⟩ := h.pageFree hj hidle
    have hne : ∀ r ∈ l, r ≠ q := fun r hr e => hql (e ▸ hr)
    have hrest : ∀ r ∈ l, (update alloc q none r).isSome = true ∧ ((m.pageFree q).pages r).Idle := by
      intro r hr
      obtain ⟨hr', hidle'⟩ := hheads r (List.mem_cons_of_mem q hr)
      rw [update_of_ne (hne r hr)]
      exact ⟨hr', huse.idle hidle'⟩
    obtain ⟨hinv, hfree⟩ := ih h1 hl hrest
    refine ⟨hinv, ?_⟩
    rw [Phys.freeAll, List.foldl_cons, ← Phys.freeAll, hfree, hset]
    ext i
    simp only [Set.mem_union, Set.mem_ofPred_eq, List.mem_cons, exists_eq_or_imp, hj, Option.some.injEq, exists_eq_left',
      or_assoc]
    refine or_congr Iff.rfl (or_congr Iff.rfl (exists_congr fun r => and_congr_right fun hr => ?_))
    rw [update_of_ne (hne r hr)]

/-! ## Calls after boot -/

theorem disjoint_heldSet (h : BuddyInv m alloc) : Disjoint m.freeSet (heldSet alloc) := by
  refine Set.disjoint_left.2 fun i hi ⟨q, j, ha, hq⟩ => ?_
  exact h.not_mem_freeSet ha hq hi

end BuddyInv

/-- A call after boot: a caller allocates, counts its references, or frees what it holds. -/
inductive BuddyCall : Phys → Orders → Phys → Orders → Prop
  | alloc (m : Phys) (a : Orders) (allocFlags : Nat) :
    BuddyCall m a (m.pageAlloc allocFlags).2 (claimBlock a allocFlags (m.pageAlloc allocFlags).1)
  | free (m : Phys) (a : Orders) (p k : Nat) (ha : a p = some k) (href : (m.pages p).ppRef = 0)
    (havail : (m.pages p).ppAvail = true) : BuddyCall m a (m.pageFree p) (update a p none)
  | count (m : Phys) (a : Orders) (p k r : Nat) (ha : a p = some k) : BuddyCall m a (m.setRef p r) a

/-- Calls one after the other. -/
inductive BuddyCalls : Phys → Orders → Phys → Orders → Prop
  | refl (m : Phys) (a : Orders) : BuddyCalls m a m a
  | tail {m m' m'' : Phys} {a a' a'' : Orders} (hr : BuddyCalls m a m' a') (hs : BuddyCall m' a' m'' a'') :
    BuddyCalls m a m'' a''

theorem BuddyCall.step {m m' : Phys} {a a' : Orders} (h : BuddyCall m a m' a') : BuddyStep m a m' a' := by
  cases h with
  | alloc allocFlags => exact .alloc m a allocFlags
  | free p k ha href havail => exact .free m a p k ha href havail
  | count p k r ha => exact .count m a p k r ha

namespace BuddyInv

variable {m m' : Phys} {alloc alloc' : Orders} {p k : Nat}

theorem heldSet_update_some (hno : alloc p = none) : heldSet (update alloc p (some k)) = heldSet alloc ∪ blockSet p k := by
  ext i
  constructor
  · rintro ⟨q, j, ha, hi⟩
    by_cases hq : q = p
    · rw [hq, update_self, Option.some.injEq] at ha
      rw [hq, ← ha] at hi
      exact .inr hi
    · rw [update_of_ne hq] at ha
      exact .inl ⟨q, j, ha, hi⟩
  · rintro (⟨q, j, ha, hi⟩ | hi)
    · have hq : q ≠ p := by
        rintro rfl
        rw [hno] at ha
        cases ha
      exact ⟨q, j, by rw [update_of_ne hq]; exact ha, hi⟩
    · exact ⟨p, k, update_self _ _ _, hi⟩

/-- The frames that are free or allocated stay the same over every call. -/
theorem call (h : BuddyInv m alloc) (hs : BuddyCall m alloc m' alloc') :
    m'.freeSet ∪ heldSet alloc' = m.freeSet ∪ heldSet alloc := by
  cases hs with
  | alloc allocFlags =>
    cases hr : (m.pageAlloc allocFlags).1 with
    | none => rw [(h.pageAlloc_none hr).1, claimBlock]
    | some p =>
      have ha := h.pageAlloc_some hr
      rw [claimBlock, heldSet_update_some ha.head, ha.freeSet, Set.union_comm (heldSet alloc), ← Set.union_assoc,
        Set.sdiff_union_of_subset ha.free]
  | free p k ha href havail =>
    have hheld : heldSet alloc = heldSet (update alloc p none) ∪ blockSet p k := by
      have := heldSet_update_some (k := k) (update_self p none alloc)
      rwa [update_idem, ← ha, update_eq_self] at this
    rw [(h.pageFree ha ⟨havail, href⟩).2.1, hheld, Set.union_assoc, Set.union_comm (blockSet p k)]
  | count p k r ha =>
    have hfree : (m.setRef p r).freeSet = m.freeSet := freeSet_congr rfl (fun q => by simp) (fun q => by simp)
    rw [hfree]

theorem calls (h : BuddyInv m alloc) (hr : BuddyCalls m alloc m' alloc') :
    BuddyInv m' alloc' ∧ m'.freeSet ∪ heldSet alloc' = m.freeSet ∪ heldSet alloc := by
  induction hr with
  | refl => exact ⟨h, rfl⟩
  | tail _ hs ih =>
    obtain ⟨h', he⟩ := ih h
    exact ⟨h'.step hs.step, (h'.call hs).trans he⟩

/-- With the same blocks allocated at the end as at the start, the same frames are free. -/
theorem freeSet_of_calls (h : BuddyInv m alloc) (hr : BuddyCalls m alloc m' alloc) : m'.freeSet = m.freeSet := by
  obtain ⟨h', he⟩ := h.calls hr
  calc m'.freeSet = (m'.freeSet ∪ heldSet alloc) \ heldSet alloc := by
        rw [Set.union_sdiff_right, h'.disjoint_heldSet.sdiff_eq_left]
    _ = (m.freeSet ∪ heldSet alloc) \ heldSet alloc := by rw [he]
    _ = m.freeSet := by rw [Set.union_sdiff_right, h.disjoint_heldSet.sdiff_eq_left]

end BuddyInv

/-! ## History independence -/

/-- The free blocks do not depend on the history, in three parts.
1. Any two reachable states with the same free frames have the same free blocks.
2. Freeing a collection of allocated blocks leads to the same free blocks in any order.
3. After any calls that leave allocated what was allocated before them, the free blocks are the original ones. -/
theorem buddy_history_independent {m : Phys} {alloc : Nat → Option Nat} (hr : BuddyReachable m alloc) :
    (∀ m' alloc', BuddyReachable m' alloc' → m'.npages = m.npages → m'.freeSet = m.freeSet →
      m'.freeBlocks = m.freeBlocks) ∧
    (∀ heads heads' : List Nat, heads.Nodup → heads.Perm heads' →
      (∀ p ∈ heads, (alloc p).isSome = true ∧ (m.pages p).ppRef = 0 ∧ (m.pages p).ppAvail = true) →
      (m.freeAll heads).freeBlocks = (m.freeAll heads').freeBlocks) ∧
    (∀ m', BuddyCalls m alloc m' alloc → m'.freeBlocks = m.freeBlocks) := by
  have h := hr.inv
  refine ⟨?_, ?_, ?_⟩
  · intro m' alloc' hr' _ he
    exact hr'.inv.freeBlocks_eq h he
  · intro heads heads' hn hp hheads
    have hidle : ∀ p ∈ heads, (alloc p).isSome = true ∧ (m.pages p).Idle := fun p hp' =>
      ⟨(hheads p hp').1, (hheads p hp').2.2, (hheads p hp').2.1⟩
    obtain ⟨⟨a1, h1⟩, hf1⟩ := h.freeAll hn hidle
    obtain ⟨⟨a2, h2⟩, hf2⟩ := h.freeAll (hp.nodup_iff.1 hn) (fun p hp' => hidle p (hp.mem_iff.2 hp'))
    refine h1.freeBlocks_eq h2 ?_
    rw [hf1, hf2]
    simp only [hp.mem_iff]
  · intro m' hc
    exact (h.calls hc).1.freeBlocks_eq h (h.freeSet_of_calls hc)

/-- Both pages of a block, which are allocated one after the other. -/
def bothTaken : Phys := ((pairPages.pageAlloc 0).2.pageAlloc 0).2

/-- The block has been split for them, and they are freed in either order: they are one block again. -/
theorem buddy_history_independent_pairPages : (pairPages.pageAlloc 0).1 = some 2 ∧ ((pairPages.pageAlloc 0).2.pageAlloc 0).1 = some 3 ∧
    (bothTaken.freeAll [2, 3]).freeBlocks = (bothTaken.freeAll [3, 2]).freeBlocks ∧
    (bothTaken.freeAll [2, 3]).freeBlocks = pairPages.freeBlocks := by
  have hreach : BuddyReachable pairPages fun _ => none := ⟨512, _, by decide, pairPages_run⟩
  have h1 : (pairPages.pageAlloc 0).1 = some 2 := by decide
  have h2 : ((pairPages.pageAlloc 0).2.pageAlloc 0).1 = some 3 := by decide
  have htaken := (pairPages_run.tail (.alloc _ _ 0)).tail (.alloc _ _ 0)
  have hcalls := (((BuddyCalls.refl pairPages fun _ => none).tail (.alloc _ _ 0)).tail (.alloc _ _ 0)).tail
    (.free _ _ 2 0 (by decide) (by decide) (by decide))
  have hcalls := hcalls.tail (.free _ _ 3 0 (by decide) (by decide) (by decide))
  have hback : update (update (claimBlock (claimBlock (fun _ => none) 0 (pairPages.pageAlloc 0).1) 0
      ((pairPages.pageAlloc 0).2.pageAlloc 0).1) 2 none) 3 none = fun _ => none := by
    rw [h1, h2]
    funext q
    by_cases hq2 : q = 2 <;> by_cases hq3 : q = 3 <;> simp [claimBlock, hq2, hq3, update_apply]
  rw [hback] at hcalls
  refine ⟨h1, h2, (buddy_history_independent ⟨512, _, by decide, htaken⟩).2.1 [2, 3] [3, 2] (by decide) (.swap 3 2 []) ?_,
    (buddy_history_independent hreach).2.2 _ hcalls⟩
  decide

end OpenLsd
