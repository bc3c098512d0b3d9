import OpenLsd.Lemmas.BuddyInv

/-!
# What the buddy operations do

The loops of `buddy_split`, `buddy_merge` and `buddy_find` as runs of the four moves, and from them one specification for
`page_alloc` and one for `page_free`: what becomes of the invariant, of the free frames, and of everything else. The page
in hand may carry a stale free flag inside a loop, so the loops are described on the state with that flag cleared.
-/

namespace OpenLsd

open Function Phys

variable {m m' : Phys} {alloc : Orders} {p k : Nat}

/-- Two states that differ at most in the free lists, the orders and the free flags. -/
structure SameUse (m m' : Phys) : Prop where
  npages : m'.npages = m.npages
  ppRef : ∀ q, (m'.pages q).ppRef = (m.pages q).ppRef
  ppAvail : ∀ q, (m'.pages q).ppAvail = (m.pages q).ppAvail
  virtAddr : ∀ q, (m'.pages q).virtAddr = (m.pages q).virtAddr
  owner : ∀ q, (m'.pages q).owner = (m.pages q).owner
  activePages : m'.activePages = m.activePages
  bytes : m'.bytes = m.bytes
  cpu : m'.cpu = m.cpu

namespace SameUse

variable {m'' : Phys}

theorem refl (m : Phys) : SameUse m m :=
  ⟨rfl, fun _ => rfl, fun _ => rfl, fun _ => rfl, fun _ => rfl, rfl, rfl, rfl⟩

theorem trans (h : SameUse m m') (h' : SameUse m' m'') : SameUse m m'' where
  npages := h'.npages.trans h.npages
  ppRef := fun q => (h'.ppRef q).trans (h.ppRef q)
  ppAvail := fun q => (h'.ppAvail q).trans (h.ppAvail q)
  virtAddr := fun q => (h'.virtAddr q).trans (h.virtAddr q)
  owner := fun q => (h'.owner q).trans (h.owner q)
  activePages := h'.activePages.trans h.activePages
  bytes := h'.bytes.trans h.bytes
  cpu := h'.cpu.trans h.cpu

theorem setFree (m : Phys) (p : Nat) (b : Bool) : SameUse m (m.setFree p b) := by
  constructor <;> simp

theorem splitStep (m : Phys) (p : Nat) : SameUse m (m.splitStep p) := by
  constructor <;> simp [Phys.splitStep]

theorem mergeStep (m : Phys) (p b : Nat) : SameUse m (m.mergeStep p b).1 := by
  unfold Phys.mergeStep
  by_cases h : p > b <;> constructor <;> simp [h]

theorem splitLoop (r n p : Nat) (m : Phys) : SameUse m (splitLoop r n m p) := by
  induction n generalizing m with
  | zero => exact refl m
  | succ n ih =>
    unfold Phys.splitLoop
    split
    · exact (splitStep m p).trans (ih _)
    · exact refl m

theorem findLoop (r n order : Nat) (m : Phys) : SameUse m (findLoop r n order m).2 := by
  induction n generalizing order with
  | zero => exact refl m
  | succ n ih =>
    unfold Phys.findLoop
    split
    · exact ih _
    · next p _ _ =>
      have hdel : SameUse m (m.listDel p) := by constructor <;> simp
      exact (hdel.trans (splitLoop r _ p _)).trans (setFree _ p false)

theorem idle (h : SameUse m m') {q : Nat} (hq : (m.pages q).Idle) : (m'.pages q).Idle :=
  ⟨(h.ppAvail q).trans hq.1, (h.ppRef q).trans hq.2⟩

end SameUse

/-! ## The free frames after each move -/

namespace BuddyInv

theorem mem_freeSet {i : Nat} : i ∈ m.freeSet ↔ ∃ p k, m.FreeBlock p k ∧ i ∈ blockSet p k := Iff.rfl

section

variable (h : BuddyInv m alloc)

include h

/-- Two blocks that share a frame are the same block. -/
theorem block_unique {q j i : Nat} (hb : m.Block alloc p k) (hb' : m.Block alloc q j)
    (hi : i ∈ blockSet p k) (hi' : i ∈ blockSet q j) : p = q ∧ k = j := by
  rw [mem_blockSet] at hi hi'
  rcases h.disjoint p k q j hb hb' with e | e | e
  · exact e
  · omega
  · omega

theorem not_mem_freeSet (ha : alloc p = some k) {i : Nat} (hi : i ∈ blockSet p k) : i ∉ m.freeSet := by
  rintro ⟨q, j, hf, hq⟩
  obtain ⟨rfl, rfl⟩ := h.block_unique (.inr ha) (.inl hf) hi hq
  exact h.not_free_of_alloc ha k hf

omit h in
theorem blockSet_subset_freeSet (hf : m.FreeBlock p k) : blockSet p k ⊆ m.freeSet := fun _ hi => ⟨p, k, hf, hi⟩

theorem freeSet_take (hf : m.FreeBlock p k) : (m.take p).freeSet = m.freeSet \ blockSet p k := by
  ext i
  rw [Set.mem_sdiff, mem_freeSet, mem_freeSet]
  constructor
  · rintro ⟨q, j, hq, hi⟩
    obtain ⟨hq, hqp⟩ := (freeBlock_take m p q j).1 hq
    exact ⟨⟨q, j, hq, hi⟩, fun hip => hqp (h.block_unique (.inl hq) (.inl hf) hi hip).1⟩
  · rintro ⟨⟨q, j, hq, hi⟩, hip⟩
    refine ⟨q, j, (freeBlock_take m p q j).2 ⟨hq, ?_⟩, hi⟩
    rintro rfl
    exact hip (hf.2.2.symm.trans hq.2.2 ▸ hi)

theorem freeSet_give (ha : alloc p = some k) : (m.give p k).freeSet = m.freeSet ∪ blockSet p k := by
  have hfree := fun q j => freeBlock_give m p k q j (h.lt_of_alloc ha) (h.allocated p k ha).1
  ext i
  rw [Set.mem_union, mem_freeSet, mem_freeSet]
  constructor
  · rintro ⟨q, j, hq, hi⟩
    rcases (hfree q j).1 hq with hq | ⟨rfl, rfl⟩
    · exact .inl ⟨q, j, hq, hi⟩
    · exact .inr hi
  · rintro (⟨q, j, hq, hi⟩ | hi)
    · exact ⟨q, j, (hfree q j).2 (.inl hq), hi⟩
    · exact ⟨p, k, (hfree p k).2 (.inr ⟨rfl, rfl⟩), hi⟩

theorem freeSet_cut (ha : alloc p = some (k + 1)) : (m.splitStep p).freeSet = m.freeSet ∪ blockSet (p + 2 ^ k) k := by
  ext i
  rw [Set.mem_union, mem_freeSet, mem_freeSet]
  constructor
  · rintro ⟨q, j, hq, hi⟩
    rcases (h.freeBlock_cut ha q j).1 hq with hq | ⟨rfl, rfl⟩
    · exact .inl ⟨q, j, hq, hi⟩
    · exact .inr hi
  · rintro (⟨q, j, hq, hi⟩ | hi)
    · exact ⟨q, j, (h.freeBlock_cut ha q j).2 (.inl hq), hi⟩
    · exact ⟨p + 2 ^ k, k, (h.freeBlock_cut ha _ k).2 (.inr ⟨rfl, rfl⟩), hi⟩

/-- The block that grows takes the frames of its buddy from the free ones. -/
theorem freeSet_join (ha : alloc p = some k) {b lo hi : Nat} (hf : m.FreeBlock b k)
    (hhi : hi = lo + 2 ^ k) (hlh : (lo = p ∧ hi = b) ∨ (lo = b ∧ hi = p)) :
    (m.join lo hi b k).freeSet ∪ blockSet lo (k + 1) = m.freeSet ∪ blockSet p k := by
  have hhalves : blockSet lo (k + 1) = blockSet p k ∪ blockSet b k := by
    rw [blockSet_succ, ← hhi]
    rcases hlh with ⟨rfl, rfl⟩ | ⟨rfl, rfl⟩
    · rfl
    · exact Set.union_comm _ _
  rw [hhalves]
  ext i
  simp only [Set.mem_union, mem_freeSet]
  constructor
  · rintro (⟨q, j, hq, hi⟩ | hi | hi)
    · exact .inl ⟨q, j, ((freeBlock_join m lo _ b k q j).1 hq).1, hi⟩
    · exact .inr hi
    · exact .inl ⟨b, k, hf, hi⟩
  · rintro (⟨q, j, hq, hi⟩ | hi)
    · by_cases hqb : q = b
      · subst hqb
        exact .inr (.inr (hf.2.2.symm.trans hq.2.2 ▸ hi))
      · have hqp : q ≠ p := fun e => h.not_free_of_alloc ha j (e ▸ hq)
        refine .inl ⟨q, j, (freeBlock_join m lo _ b k q j).2 ⟨hq, ?_⟩, hi⟩
        rcases hlh with ⟨rfl, rfl⟩ | ⟨rfl, rfl⟩
        · exact ⟨hqp, hqb⟩
        · exact ⟨hqb, hqp⟩
    · exact .inr (.inl hi)

end

end BuddyInv

/-! ## The loops -/

namespace Phys

theorem setFree_eq_self (h : (m.pages p).ppFree = false) : m.setFree p false = m := by
  refine Phys.ext rfl (funext fun q => ?_) rfl rfl rfl rfl
  by_cases hq : q = p <;> ext <;> simp [hq, h]

theorem setFree_setFree (b c : Bool) : (m.setFree p b).setFree p c = m.setFree p c := by
  refine Phys.ext rfl (funext fun q => ?_) rfl rfl rfl rfl
  by_cases hq : q = p <;> ext <;> simp [hq]

theorem splitStep_setFree (h : p ^^^ (1 <<< ((m.pages p).ppOrder - 1)) ≠ p) :
    (m.splitStep p).setFree p false = (m.setFree p false).splitStep p := by
  refine Phys.ext rfl (funext fun q => ?_) ?_ rfl rfl rfl
  · by_cases hq : q = p <;> ext <;> simp [splitStep, hq, h.symm]
  · simp [splitStep, listAddTail]

/-- A turn of the merge, its page's flag cleared, is the growth over the buddy. -/
theorem mergeStep_setFree {b lo hi k : Nat} (hp : (m.pages p).ppOrder = k) (hb : (m.pages b).ppOrder = k)
    (hlh : (lo = p ∧ hi = b ∧ ¬p > b) ∨ (lo = b ∧ hi = p ∧ p > b)) :
    (m.mergeStep p b).2 = lo ∧ (m.mergeStep p b).1.setFree lo false = (m.setFree p false).join lo hi b k := by
  rcases hlh with ⟨rfl, rfl, hn⟩ | ⟨rfl, rfl, hn⟩
  all_goals
    refine ⟨by simp [mergeStep, hn], ?_⟩
    refine Phys.ext (by simp [mergeStep, join]) (funext fun q => ?_) (by simp [mergeStep, join]; rfl)
      (by simp [mergeStep, join]) (by simp [mergeStep, join]) (by simp [mergeStep, join])
    by_cases hq : q = lo <;> by_cases hq' : q = hi <;> ext <;> simp [mergeStep, join, hn, hq, hq', hp, hb]

end Phys

namespace BuddyInv

variable {allocFlags r n : Nat}

section

variable (h : BuddyInv (m.setFree p false) alloc) (ha : alloc p = some k)

include h ha

/-- The loop of `buddy_split`: the block in hand is cut down to the requested order, the rest of it becomes free. -/
theorem splitLoop (hr : r ≤ k) (hn : k ≤ r + n) : BuddyInv ((splitLoop r n m p).setFree p false) (update alloc p (some r)) ∧
      ((splitLoop r n m p).setFree p false).freeSet = (m.setFree p false).freeSet ∪ (blockSet p k \ blockSet p r) ∧
      SameUse m (splitLoop r n m p) := by
  have ho : (m.pages p).ppOrder = k := by simpa using (h.allocated p k ha).1
  induction n generalizing m alloc k with
  | zero =>
    obtain rfl : r = k := by omega
    rw [splitLoop, Set.sdiff_self, Set.union_empty, ← ha, update_eq_self]
    exact ⟨h, rfl, SameUse.refl m⟩
  | succ n ih =>
    rw [splitLoop, ho]
    split
    · rename_i hgt
      obtain ⟨k, rfl⟩ : ∃ j, k = j + 1 := ⟨k - 1, by omega⟩
      have hbd : p ^^^ (1 <<< ((m.pages p).ppOrder - 1)) ≠ p := by
        have hpos := Nat.two_pow_pos k
        have := h.buddy_of_succ ha
        rw [ho, Nat.add_sub_cancel, Nat.one_shiftLeft]
        omega
      have hstep := splitStep_setFree hbd
      have hcut := h.cut ha
      rw [← hstep] at hcut
      obtain ⟨h1, h2, h3⟩ := ih hcut (update_self _ _ _) (by omega) (by omega)
        (by simpa using (hcut.allocated p k (update_self _ _ _)).1)
      rw [update_idem] at h1
      refine ⟨h1, ?_, (SameUse.splitStep m p).trans h3⟩
      have hsub : blockSet p r ⊆ blockSet p k := fun i hi => by
        have := Nat.pow_le_pow_right (show 0 < 2 by decide) (show r ≤ k by omega)
        rw [mem_blockSet] at hi ⊢
        omega
      have hup : blockSet (p + 2 ^ k) k \ blockSet p r = blockSet (p + 2 ^ k) k := by
        refine Set.Subset.antisymm Set.sdiff_subset (fun i hi => ⟨hi, fun hir => ?_⟩)
        have hik := hsub hir
        rw [mem_blockSet] at hi hik
        omega
      rw [h2, hstep, h.freeSet_cut ha, blockSet_succ, Set.union_sdiff_distrib, hup, Set.union_assoc,
        Set.union_comm (blockSet (p + 2 ^ k) k)]
    · obtain rfl : r = k := by omega
      rw [Set.sdiff_self, Set.union_empty, ← ha, update_eq_self]
      exact ⟨h, rfl, SameUse.refl m⟩

/-- The buddy that a turn of `buddy_merge` accepts is a free block of the order of the page in hand. -/
theorem freeBlock_of_mergeable {b : Nat}
    (hm : m.mergeable p = some b) : k < BUDDY_MAX_ORDER - 1 ∧ b = p ^^^ 2 ^ k ∧ (m.setFree p false).FreeBlock b k := by
  have ho : (m.pages p).ppOrder = k := by simpa using (h.allocated p k ha).1
  have hne := DyadicBlock.buddy_ne (h.bounds p k (.inr ha)).2.1
  unfold mergeable at hm
  simp only [ho, Nat.one_shiftLeft] at hm
  split at hm
  · rename_i hk
    split at hm
    · cases hm
    · split at hm
      · cases hm
      · rename_i hfree
        cases hm
        have hlt := h.buddy_lt (.inr ha) hk
        rw [DyadicBlock.buddy] at hlt hne
        refine ⟨hk, rfl, hlt, ?_, ?_⟩
        · simp only [setFree_pages, if_neg hne]
          by_contra hf
          exact hfree (.inl (by simpa using hf))
        · simp only [setFree_pages]
          by_contra hj
          exact hfree (.inr hj)
  · cases hm

/-- The turn of `buddy_merge` that leaves the loop does so for a reason: the buddy is no free block of that order. -/
theorem not_freeBlock_of_not_mergeable
    (hm : m.mergeable p = none) (hk : k < BUDDY_MAX_ORDER - 1) : ¬(m.setFree p false).FreeBlock (p ^^^ 2 ^ k) k := by
  intro hf
  have ho : (m.pages p).ppOrder = k := by simpa using (h.allocated p k ha).1
  have hne := DyadicBlock.buddy_ne (h.bounds p k (.inr ha)).2.1
  rw [DyadicBlock.buddy] at hne
  have hpos := Nat.two_pow_pos k
  obtain ⟨hav, href⟩ : (m.pages (p ^^^ 2 ^ k)).Idle := by
    simpa only [setFree_idle] using h.idle _ k (p ^^^ 2 ^ k) (.inl hf) (mem_blockSet.2 (by omega)) (fun _ => hf)
  obtain ⟨_, hfr, hor⟩ := hf
  simp only [setFree_pages, if_neg hne, setFree_pages] at hfr hor
  unfold mergeable at hm
  simp [ho, Nat.one_shiftLeft, hk, hav, href, hfr, hor] at hm

end

/-- What the loop of `buddy_merge` leaves: the page in hand is the head of a block that cannot grow, and the free frames
with that block are the free frames with the block it started from. -/
structure Merged (m : Phys) (alloc : Orders) (p k : Nat) (m' : Phys) (p' : Nat) : Prop where
  head : alloc p' = none
  same : SameUse m m'
  idle : (m'.pages p').Idle
  inv : ∃ k', BuddyInv (m'.setFree p' false) (update alloc p' (some k')) ∧
    (m'.setFree p' false).freeSet ∪ blockSet p' k' = (m.setFree p false).freeSet ∪ blockSet p k ∧
    (k' < BUDDY_MAX_ORDER - 1 → ¬(m'.setFree p' false).FreeBlock (p' ^^^ 2 ^ k') k')

/-- The loop of `buddy_merge`. The order grows with every turn and stays below `BUDDY_MAX_ORDER`, so enough turns leave
the loop by its guards. -/
theorem mergeLoop (hp : alloc p = none) (h : BuddyInv (m.setFree p false) (update alloc p (some k)))
    (hidle : (m.pages p).Idle) (hn : BUDDY_MAX_ORDER ≤ k + n) : Merged m alloc p k (mergeLoop n m p).1 (mergeLoop n m p).2 := by
  have ha : update alloc p (some k) p = some k := update_self _ _ _
  induction n generalizing m p k with
  | zero =>
    have := (h.bounds p k (.inr ha)).1
    omega
  | succ n ih =>
    rw [mergeLoop]
    cases hm : m.mergeable p with
    | none =>
      exact ⟨hp, SameUse.refl m, hidle, k, h, rfl, fun hk => h.not_freeBlock_of_not_mergeable ha hm hk⟩
    | some b =>
      obtain ⟨hk, hbd, hf⟩ := h.freeBlock_of_mergeable ha hm
      obtain ⟨lo, hi, hhi, hlo, hcase⟩ := h.halves (.inr ha) hbd
      have hlh : (lo = p ∧ hi = b) ∨ (lo = b ∧ hi = p) :=
        hcase.imp (fun e => ⟨e.1, e.2.1⟩) (fun e => ⟨e.1, e.2.1⟩)
      have hbfree : alloc b = none := by
        by_cases hbp : b = p
        · rw [hbp]
          exact hp
        · cases hab : alloc b with
          | none => rfl
          | some j => exact absurd hf (h.not_free_of_alloc (by rw [update_of_ne hbp]; exact hab) k)
      have hlofree : alloc lo = none := by
        rcases hlh with ⟨rfl, _⟩ | ⟨rfl, _⟩
        · exact hp
        · exact hbfree
      obtain ⟨hsnd, hfst⟩ := mergeStep_setFree (m := m) (by simpa using (h.allocated p k ha).1)
        (by simpa using hf.2.2) hcase
      have hjoin := h.join ha ((setFree_idle _ _ _ _).2 hidle) hk hf hhi hlo hlh
      rw [update_idem, (update_eq_self_iff.2 hp.symm : update alloc p none = alloc), ← hfst] at hjoin
      have hset := h.freeSet_join ha hf hhi hlh
      rw [← hfst] at hset
      have hsame := SameUse.mergeStep m p b
      have hidle' : ((m.mergeStep p b).1.pages lo).Idle := by
        refine hsame.idle ?_
        rcases hlh with ⟨rfl, _⟩ | ⟨rfl, _⟩
        · exact hidle
        · simpa only [setFree_idle] using h.idle lo k lo (.inl hf) (mem_blockSet.2 (by have := Nat.two_pow_pos k; omega)) (fun _ => hf)
      obtain ⟨h1, h2, h3, k', h4, h5, h6⟩ := ih hlofree hjoin hidle' (by omega) (update_self _ _ _)
      simp only [hsnd]
      exact ⟨h1, hsame.trans h2, h3, k', h4, h5.trans hset, h6⟩

/-! ## Freeing and allocating -/

/-- The invariant reads the lists, the flags and the orders, and the idleness of the frames in blocks that are not
allocated heads. -/
theorem congr (h : BuddyInv m alloc) (hn : m'.npages = m.npages) (hl : m'.buddyFreeList = m.buddyFreeList)
    (ho : ∀ q, (m'.pages q).ppOrder = (m.pages q).ppOrder) (hf : ∀ q, (m'.pages q).ppFree = (m.pages q).ppFree)
    (hi : ∀ q k i, m.Block alloc q k → i ∈ blockSet q k → alloc i = none → (m.pages i).Idle → (m'.pages i).Idle) :
    BuddyInv m' alloc := by
  have hfree : ∀ q j, m'.FreeBlock q j ↔ m.FreeBlock q j := fun q j => by simp only [FreeBlock, hn, ho, hf]
  have hblock : ∀ q j, m'.Block alloc q j ↔ m.Block alloc q j := fun q j => or_congr (hfree q j) Iff.rfl
  refine ⟨⟨hn ▸ h.npages, ?_, hl ▸ h.nodup, ?_, ?_, ?_, ?_⟩, ?_⟩
  · intro j q
    rw [hl, hfree, h.linked]
  · intro q j hq
    rw [ho, hf]
    exact h.allocated q j hq
  · intro q j hb
    rw [hn]
    exact h.bounds q j ((hblock q j).1 hb)
  · exact fun q j r l hb hb' => h.disjoint q j r l ((hblock q j).1 hb) ((hblock r l).1 hb')
  · intro q j hj hq hq'
    exact h.coalesced q j hj ((hfree q j).1 hq) ((hfree _ j).1 hq')
  · intro q j i hb hi' hiq
    have hb' := (hblock q j).1 hb
    refine hi q j i hb' hi' ?_ (h.idle q j i hb' hi' (fun e => (hfree q j).1 (hiq e)))
    cases hai : alloc i with
    | none => rfl
    | some l =>
      -- An allocated head inside a block is that block's head, so the block is not free.
      have hpos := Nat.two_pow_pos l
      obtain ⟨rfl, rfl⟩ := h.block_unique hb' (.inr hai) hi' (mem_blockSet.2 (by omega))
      exact absurd ((hfree q j).1 (hiq rfl)) (h.not_free_of_alloc hai j)

theorem freeSet_congr (hn : m'.npages = m.npages) (ho : ∀ q, (m'.pages q).ppOrder = (m.pages q).ppOrder)
    (hf : ∀ q, (m'.pages q).ppFree = (m.pages q).ppFree) : m'.freeSet = m.freeSet := by
  simp only [freeSet, FreeBlock, hn, ho, hf]

/-- `page_free` gives the block back. -/
theorem pageFree (h : BuddyInv m alloc) (ha : alloc p = some k) (hidle : (m.pages p).Idle) :
    BuddyInv (m.pageFree p) (update alloc p none) ∧ (m.pageFree p).freeSet = m.freeSet ∪ blockSet p k ∧
      SameUse { m with activePages := m.activePages.erase p } (m.pageFree p) := by
  let m0 : Phys := { m with activePages := m.activePages.erase p }
  have h0 : BuddyInv m0 alloc := h.congr rfl rfl (fun _ => rfl) (fun _ => rfl) (fun _ _ _ _ _ _ hi => hi)
  have hclear : m0.setFree p false = m0 := Phys.setFree_eq_self (h0.allocated p k ha).2
  have halloc : update (update alloc p none) p (some k) = alloc := by rw [update_idem, ← ha, update_eq_self]
  have hstart : BuddyInv (m0.setFree p false) (update (update alloc p none) p (some k)) := by
    rw [hclear, halloc]
    exact h0
  obtain ⟨hhead, hsame, hidle', k', hinv, hset, hstop⟩ :=
    mergeLoop (n := BUDDY_MAX_ORDER) (update_self p none alloc) hstart hidle (Nat.le_add_left _ _)
  let m1 := (Phys.mergeLoop BUDDY_MAX_ORDER m0 p).1
  let p1 := (Phys.mergeLoop BUDDY_MAX_ORDER m0 p).2
  have ha1 : update (update alloc p none) p1 (some k') p1 = some k' := update_self _ _ _
  have ho1 : (m1.pages p1).ppOrder = k' := by simpa using (hinv.allocated p1 k' ha1).1
  have hgive : m.pageFree p = (m1.setFree p1 false).give p1 k' := by
    have : m.pageFree p = (m1.setFree p1 true).listAddTail (m1.pages p1).ppOrder p1 := by
      simp only [Phys.pageFree, Phys.buddyMerge, Phys.setFree_pages]
      rfl
    rw [this, ho1, Phys.give, Phys.setFree_setFree]
  rw [hgive]
  refine ⟨?_, ?_, ?_⟩
  · have := hinv.give ha1 ((Phys.setFree_idle _ _ _ _).2 hidle') hstop
    rwa [update_idem, (update_eq_self_iff.2 hhead.symm : update (update alloc p none) p1 none = _)] at this
  · rw [hinv.freeSet_give ha1, hset, hclear]
    rfl
  · refine hsame.trans ((SameUse.setFree m1 p1 false).trans ((SameUse.setFree _ p1 true).trans ?_))
    constructor <;> simp [Phys.give]

/-- `buddy_find` fails when the lists from the requested order on are empty, and otherwise takes a block from one of them. -/
theorem findLoop_cases (r n order : Nat) (m : Phys) :
    (findLoop r n order m = (none, m) ∧ ∀ j, order ≤ j → j < order + n → m.buddyFreeList j = []) ∨
      ∃ page j, order ≤ j ∧ page ∈ m.buddyFreeList j ∧
        findLoop r n order m = (some page, (m.listDel page).buddySplit page r) := by
  induction n generalizing order with
  | zero => exact .inl ⟨rfl, fun j h1 h2 => by omega⟩
  | succ n ih =>
    rw [findLoop]
    cases hl : m.buddyFreeList order with
    | nil =>
      rcases ih (order + 1) with ⟨hnone, hempty⟩ | ⟨page, j, hj, hmem, hsome⟩
      · refine .inl ⟨hnone, fun j h1 h2 => ?_⟩
        by_cases hj : j = order
        · rw [hj]
          exact hl
        · exact hempty j (by omega) (by omega)
      · exact .inr ⟨page, j, by omega, hmem, hsome⟩
    | cons page rest => exact .inr ⟨page, order, le_rfl, by simp [hl], rfl⟩

/-- `buddy_split` takes a block of the order. -/
theorem buddySplit (h : BuddyInv m alloc) (hf : m.FreeBlock p k) (hr : r ≤ k) :
    BuddyInv ((m.listDel p).buddySplit p r) (update alloc p (some r)) ∧
      ((m.listDel p).buddySplit p r).freeSet = m.freeSet \ blockSet p r ∧ SameUse m ((m.listDel p).buddySplit p r) := by
  have htake : BuddyInv ((m.listDel p).setFree p false) (update alloc p (some k)) := h.take hf
  have ho : ((m.listDel p).pages p).ppOrder = k := hf.2.2
  obtain ⟨h1, h2, h3⟩ := htake.splitLoop (n := k) (update_self p (some k) alloc) hr (Nat.le_add_left _ _)
  rw [Phys.buddySplit, ho]
  refine ⟨by rwa [update_idem] at h1, ?_, ?_⟩
  · have hset := h.freeSet_take hf
    rw [Phys.take] at hset
    have hpow := Nat.pow_le_pow_right (show 0 < 2 by decide) hr
    have hsub : blockSet p k ⊆ m.freeSet := blockSet_subset_freeSet hf
    rw [h2, hset]
    ext i
    simp only [Set.mem_union, Set.mem_sdiff]
    constructor
    · rintro (⟨hi, hk⟩ | ⟨hi, hk⟩)
      · refine ⟨hi, fun hi' => hk ?_⟩
        rw [mem_blockSet] at hi' ⊢
        omega
      · exact ⟨hsub hi, hk⟩
    · rintro ⟨hi, hk⟩
      by_cases hik : i ∈ blockSet p k
      · exact .inr ⟨hik, hk⟩
      · exact .inl ⟨hi, hik⟩
  · refine SameUse.trans ?_ (h3.trans (SameUse.setFree _ p false))
    constructor <;> simp

theorem reqOrder_lt (allocFlags : Nat) : reqOrder allocFlags < BUDDY_MAX_ORDER := by
  unfold reqOrder
  split <;> decide

/-- `page_alloc` fails only when no free block is large enough, and then it changes nothing. -/
theorem pageAlloc_none (h : BuddyInv m alloc) (hr : (m.pageAlloc allocFlags).1 = none) :
    (m.pageAlloc allocFlags).2 = m ∧ ∀ q j, reqOrder allocFlags ≤ j → ¬m.FreeBlock q j := by
  have hlt := reqOrder_lt allocFlags
  unfold pageAlloc buddyFind at hr ⊢
  simp only [ge_iff_le, not_le.2 hlt, if_false] at hr ⊢
  rcases findLoop_cases (reqOrder allocFlags) (BUDDY_MAX_ORDER - reqOrder allocFlags)
    (reqOrder allocFlags) m with ⟨hnone, hempty⟩ | ⟨page, j, hj, hmem, hsome⟩
  · rw [hnone]
    refine ⟨rfl, fun q j hj hq => ?_⟩
    have hjlt := (h.bounds q j (.inl hq)).1
    have hmem := (h.linked j q).2 hq
    rw [hempty j hj (by omega)] at hmem
    cases hmem
  · rw [hsome] at hr
    cases hr

theorem initPage_eq (m : Phys) (allocFlags page : Nat) :
    (m.initPage allocFlags page).npages = m.npages ∧ (m.initPage allocFlags page).buddyFreeList = m.buddyFreeList ∧
      (m.initPage allocFlags page).activePages = m.activePages ∧
      (∀ q, (m.initPage allocFlags page).pages q =
        if q = page then { m.pages q with virtAddr := 0, owner := none } else m.pages q) ∧
      (∀ f o, (m.initPage allocFlags page).bytes f o =
        if allocFlags &&& ALLOC_ZERO ≠ 0 ∧ page ≤ f ∧ f < page + 2 ^ reqOrder allocFlags then 0 else m.bytes f o) ∧
      (m.initPage allocFlags page).cpu = m.cpu := by
  unfold initPage
  by_cases hz : allocFlags &&& ALLOC_ZERO ≠ 0
  · simp [hz, modifyPage_pages, clearFrames, Nat.one_shiftLeft]
  · simp [hz, modifyPage_pages]

/-- What a successful `page_alloc` does: the block is taken from the free frames, its head is idle, and nothing else of the
frames' use changes but for the zeroing of the block. -/
structure Allocated (m : Phys) (alloc : Orders) (allocFlags p : Nat) (m' : Phys) : Prop where
  inv : BuddyInv m' (update alloc p (some (Phys.reqOrder allocFlags)))
  head : alloc p = none
  free : blockSet p (Phys.reqOrder allocFlags) ⊆ m.freeSet
  freeSet : m'.freeSet = m.freeSet \ blockSet p (Phys.reqOrder allocFlags)
  idle : (m'.pages p).Idle
  npages : m'.npages = m.npages
  ppRef : ∀ q, (m'.pages q).ppRef = (m.pages q).ppRef
  ppAvail : ∀ q, (m'.pages q).ppAvail = (m.pages q).ppAvail
  virtAddr : ∀ q, (m'.pages q).virtAddr = if q = p then 0 else (m.pages q).virtAddr
  owner : ∀ q, (m'.pages q).owner = if q = p then none else (m.pages q).owner
  activePages : m'.activePages = m.activePages
  bytes : ∀ f o, m'.bytes f o =
    if allocFlags &&& ALLOC_ZERO ≠ 0 ∧ p ≤ f ∧ f < p + 2 ^ Phys.reqOrder allocFlags then 0 else m.bytes f o
  cpu : m'.cpu = m.cpu

/-- `page_alloc` with a page. -/
theorem pageAlloc_some (h : BuddyInv m alloc) (hr : (m.pageAlloc allocFlags).1 = some p) :
    Allocated m alloc allocFlags p (m.pageAlloc allocFlags).2 := by
  have hlt := reqOrder_lt allocFlags
  unfold pageAlloc buddyFind at hr ⊢
  simp only [ge_iff_le, not_le.2 hlt, if_false] at hr ⊢
  rcases findLoop_cases (reqOrder allocFlags) (BUDDY_MAX_ORDER - reqOrder allocFlags)
    (reqOrder allocFlags) m with ⟨hnone, _⟩ | ⟨page, j, hj, hmem, hsome⟩
  · rw [hnone] at hr
    cases hr
  · rw [hsome] at hr ⊢
    cases hr
    simp only
    have hf := (h.linked j p).1 hmem
    obtain ⟨hinv, hset, hsame⟩ := h.buddySplit hf hj
    have hpos := Nat.two_pow_pos j
    have hpow := Nat.pow_le_pow_right (show 0 < 2 by decide) hj
    have hidle : (m.pages p).Idle := h.idle p j p (.inl hf) (mem_blockSet.2 (by omega)) (fun _ => hf)
    obtain ⟨hn, hl, ha, hp, hb, hc⟩ := initPage_eq ((m.listDel p).buddySplit p (reqOrder allocFlags)) allocFlags p
    refine ⟨?_, ?_, ?_, ?_, ?_, hn.trans hsame.npages, ?_, ?_, ?_, ?_, ha.trans hsame.activePages, ?_, hc.trans hsame.cpu⟩
    · refine hinv.congr hn hl (fun q => ?_) (fun q => ?_) (fun _ _ q _ _ _ hq => ?_) <;> rw [hp]
      · split <;> rfl
      · split <;> rfl
      · split
        · exact hq
        · exact hq
    · cases hap : alloc p with
      | none => rfl
      | some l => exact absurd hf (h.not_free_of_alloc hap j)
    · intro i hi
      refine blockSet_subset_freeSet hf ?_
      rw [mem_blockSet] at hi ⊢
      omega
    · rw [← hset]
      refine freeSet_congr hn (fun q => ?_) (fun q => ?_) <;> rw [hp] <;> split <;> rfl
    · rw [hp, if_pos rfl]
      exact hsame.idle hidle
    · intro q
      rw [← hsame.ppRef, hp]
      split <;> rfl
    · intro q
      rw [← hsame.ppAvail, hp]
      split <;> rfl
    · intro q
      rw [← hsame.virtAddr, hp]
      split <;> rfl
    · intro q
      rw [← hsame.owner, hp]
      split <;> rfl
    · intro f o
      rw [hb, hsame.bytes]

end BuddyInv

end OpenLsd
