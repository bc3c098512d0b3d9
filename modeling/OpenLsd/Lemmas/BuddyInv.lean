import OpenLsd.Lib.Dyadic
import OpenLsd.Mem.Buddy

/-!
# The representation invariant of the buddy allocator

`BuddyInv m alloc` is what holds of the frames between two calls, where `alloc` names the allocated blocks: the order of
the block that starts at a frame, if one does. Every change the allocator makes is one of four moves on blocks: a free
block is taken, an allocated one is given back, an allocated one is cut in half, and an allocated one grows over its free
buddy. Each move keeps the invariant, and the loops of `buddy.c` are runs of them.
-/

namespace OpenLsd

open Function Phys

/-- The orders of blocks of frames, by their first frames. -/
abbrev Orders := Nat → Option Nat

namespace Phys

/-- The frame `p` is the head of a free block of order `k`. -/
def FreeBlock (m : Phys) (p k : Nat) : Prop :=
  p < m.npages ∧ (m.pages p).ppFree = true ∧ (m.pages p).ppOrder = k

/-- A free block or an allocated one. -/
def Block (m : Phys) (alloc : Orders) (p k : Nat) : Prop := m.FreeBlock p k ∨ alloc p = some k

/-- The frames that the free blocks cover. -/
def freeSet (m : Phys) : Set Nat := {i | ∃ p k, m.FreeBlock p k ∧ p ≤ i ∧ i < p + 2 ^ k}

end Phys

/-- The frames of the block of order `k` at `p`. -/
def blockSet (p k : Nat) : Set Nat := {i | p ≤ i ∧ i < p + 2 ^ k}

theorem mem_blockSet {p k i : Nat} : i ∈ blockSet p k ↔ p ≤ i ∧ i < p + 2 ^ k := Iff.rfl

theorem blockSet_zero (p : Nat) : blockSet p 0 = {p} := by
  ext q
  rw [mem_blockSet, Set.mem_singleton_iff]
  omega

theorem head_mem_blockSet (p k : Nat) : p ∈ blockSet p k := ⟨Nat.le_refl p, Nat.lt_add_of_pos_right (Nat.two_pow_pos k)⟩

/-- The block of order `k + 1` is its two halves. -/
theorem blockSet_succ (p k : Nat) : blockSet p (k + 1) = blockSet p k ∪ blockSet (p + 2 ^ k) k := by
  ext i
  simp only [Set.mem_union, mem_blockSet]
  omega

/-- A frame that the allocator may merge: it is real memory and nothing refers to it. -/
def PageInfo.Idle (i : PageInfo) : Prop := i.ppAvail = true ∧ i.ppRef = 0

/-- The shape of the blocks: the lists link the free heads, blocks are aligned, in range and pairwise disjoint, and no two
buddies below the largest order are both free. -/
structure BuddyForm (m : Phys) (alloc : Orders) : Prop where
  npages : 512 ∣ m.npages
  linked : ∀ k p, p ∈ m.buddyFreeList k ↔ m.FreeBlock p k
  nodup : ∀ k, (m.buddyFreeList k).Nodup
  allocated : ∀ p k, alloc p = some k → (m.pages p).ppOrder = k ∧ (m.pages p).ppFree = false
  bounds : ∀ p k, m.Block alloc p k → k < BUDDY_MAX_ORDER ∧ 2 ^ k ∣ p ∧ p + 2 ^ k ≤ m.npages
  disjoint : ∀ p k q j, m.Block alloc p k → m.Block alloc q j → (p = q ∧ k = j) ∨ p + 2 ^ k ≤ q ∨ q + 2 ^ j ≤ p
  coalesced : ∀ p k, k < BUDDY_MAX_ORDER - 1 → m.FreeBlock p k → ¬m.FreeBlock (p ^^^ 2 ^ k) k

/-- The representation invariant: the shape, and the frames of a block but for the head of an allocated one are idle.
`page_free` is only called on available frames without references, and references are only taken on allocated heads. -/
structure BuddyInv (m : Phys) (alloc : Orders) : Prop extends BuddyForm m alloc where
  idle : ∀ p k i, m.Block alloc p k → i ∈ blockSet p k → (i = p → m.FreeBlock p k) → (m.pages i).Idle

namespace Phys

theorem setFree_idle (m : Phys) (p q : Nat) (b : Bool) : ((m.setFree p b).pages q).Idle ↔ (m.pages q).Idle := by
  simp [PageInfo.Idle]

theorem setOrder_idle (m : Phys) (p q k : Nat) : ((m.setOrder p k).pages q).Idle ↔ (m.pages q).Idle := by
  simp [PageInfo.Idle]

end Phys

namespace BuddyInv

variable {m : Phys} {alloc : Orders} {p k : Nat}

/-- A frame heads at most one block: a free one and an allocated one never share their head. -/
theorem not_free_of_alloc (h : BuddyInv m alloc) (ha : alloc p = some k) (j : Nat) : ¬m.FreeBlock p j := by
  rintro ⟨_, hf, _⟩
  rw [(h.allocated p k ha).2] at hf
  cases hf

theorem lt_of_alloc (h : BuddyInv m alloc) (ha : alloc p = some k) : p < m.npages := by
  have := (h.bounds p k (.inr ha)).2.2
  have := Nat.two_pow_pos k
  omega

theorem interior_not_free (h : BuddyInv m alloc) (hb : m.Block alloc p k) {i : Nat} (hi : p < i) (hik : i < p + 2 ^ k) :
    (m.pages i).ppFree = false := by
  by_contra hne
  have hf : (m.pages i).ppFree = true := by simpa using hne
  have hn := (h.bounds p k hb).2.2
  have hfb : m.FreeBlock i (m.pages i).ppOrder := ⟨by omega, hf, rfl⟩
  have := Nat.two_pow_pos (m.pages i).ppOrder
  rcases h.disjoint p k i _ hb (.inl hfb) with ⟨e, _⟩ | e | e <;> omega

/-- The buddy of a block below the largest order lies within the managed frames. -/
theorem buddy_lt (h : BuddyInv m alloc) (hb : m.Block alloc p k) (hk : k < BUDDY_MAX_ORDER - 1) :
    DyadicBlock.buddy p k < m.npages := by
  obtain ⟨_, hd, hn⟩ := h.bounds p k hb
  have h512 : 2 ^ 9 ∣ m.npages := h.npages
  rcases DyadicBlock.buddy_cases hd with ⟨hd', e⟩ | ⟨_, _, e⟩
  · have hk9 : k + 1 ≤ 9 := by simp only [BUDDY_MAX_ORDER, BUDDY_2M_PAGE] at hk; omega
    have := DyadicBlock.add_le_of_lt hk9 hd' h512 (by omega)
    rw [Nat.pow_succ] at this
    omega
  · omega

end BuddyInv

/-! ## The four moves -/

namespace Phys

/-- A free block is taken out of its list. -/
def take (m : Phys) (p : Nat) : Phys := (m.listDel p).setFree p false

/-- An allocated block of order `k` is put at the end of its list. -/
def give (m : Phys) (p k : Nat) : Phys := (m.setFree p true).listAddTail k p

/-- An allocated block grows over its free buddy: `lo` is the lower head of the two. -/
def join (m : Phys) (lo hi buddy k : Nat) : Phys :=
  (((m.listDel buddy).setFree hi false).setFree lo false).setOrder lo (k + 1)

theorem freeBlock_take (m : Phys) (p q j : Nat) : (m.take p).FreeBlock q j ↔ m.FreeBlock q j ∧ q ≠ p := by
  by_cases hq : q = p <;> simp [FreeBlock, take, hq]

theorem freeBlock_give (m : Phys) (p k q j : Nat) (hp : p < m.npages) (hk : (m.pages p).ppOrder = k) :
    (m.give p k).FreeBlock q j ↔ m.FreeBlock q j ∨ (q = p ∧ j = k) := by
  by_cases hq : q = p
  · subst hq
    simp only [FreeBlock, give, listAddTail_npages, setFree_npages, listAddTail_pages, setFree_pages, setFree_pages,
      if_true, hk, hp, true_and]
    constructor
    · exact fun h => .inr h.symm
    · rintro (⟨_, h⟩ | h)
      · exact h
      · exact h.symm
  · simp [FreeBlock, give, hq]

theorem freeBlock_join (m : Phys) (lo hi b k q j : Nat) :
    (m.join lo hi b k).FreeBlock q j ↔ m.FreeBlock q j ∧ q ≠ lo ∧ q ≠ hi := by
  by_cases hl : q = lo
  · simp [FreeBlock, join, hl]
  · by_cases hh : q = hi <;> simp [FreeBlock, join, hl, hh]

end Phys

namespace BuddyInv

variable {m : Phys} {alloc : Orders} {p k : Nat}

section

variable (h : BuddyInv m alloc)

include h

/-- Taking a free block does not change which blocks there are, only what this one is. -/
theorem block_take (hf : m.FreeBlock p k) (q j : Nat) : (m.take p).Block (update alloc p (some k)) q j ↔ m.Block alloc q j := by
  unfold Block
  rw [freeBlock_take]
  by_cases hq : q = p
  · subst hq
    have hna : alloc q = some j → j = k := fun ha => absurd hf (h.not_free_of_alloc ha k)
    simp only [ne_eq, not_true_eq_false, and_false, update_self, false_or, Option.some.injEq]
    constructor
    · rintro rfl
      exact .inl hf
    · rintro (hj | ha)
      · exact hf.2.2.symm.trans hj.2.2
      · exact (hna ha).symm
  · simp [hq]

/-- Taking a free block keeps the invariant. -/
theorem take (hf : m.FreeBlock p k) : BuddyInv (m.take p) (update alloc p (some k)) where
  npages := h.npages
  linked := by
    intro j q
    rw [freeBlock_take]
    simp only [Phys.take, Phys.setFree_buddyFreeList, Phys.listDel_buddyFreeList]
    rw [(h.nodup j).mem_erase_iff, h.linked, and_comm]
  nodup := fun j => (h.nodup j).erase p
  allocated := by
    intro q j ha
    by_cases hq : q = p
    · subst hq
      rw [update_self, Option.some.injEq] at ha
      subst ha
      simp [take, hf.2.2]
    · rw [update_of_ne hq] at ha
      simpa [Phys.take, hq] using h.allocated q j ha
  bounds := fun q j hb => h.bounds q j ((h.block_take hf q j).1 hb)
  disjoint := fun q j r l hb hb' => h.disjoint q j r l ((h.block_take hf q j).1 hb) ((h.block_take hf r l).1 hb')
  coalesced := by
    intro q j hj hq hq'
    rw [freeBlock_take] at hq hq'
    exact h.coalesced q j hj hq.1 hq'.1
  idle := by
    intro q j i hb hi hiq
    have := h.idle q j i ((h.block_take hf q j).1 hb) hi
      (fun e => ((freeBlock_take m p q j).1 (hiq e)).1)
    simpa [Phys.take, PageInfo.Idle] using this

theorem block_give (ha : alloc p = some k) (q j : Nat) : (m.give p k).Block (update alloc p none) q j ↔ m.Block alloc q j := by
  unfold Block
  rw [freeBlock_give m p k q j (h.lt_of_alloc ha) (h.allocated p k ha).1]
  by_cases hq : q = p
  · subst hq
    simp only [true_and, update_self, reduceCtorEq, or_false, ha, Option.some.injEq]
    constructor
    · rintro (hf | rfl)
      · exact .inl hf
      · exact .inr rfl
    · rintro (hf | rfl)
      · exact .inl hf
      · exact .inr rfl
  · simp [hq]

/-- Giving an allocated block back keeps the invariant when its buddy is not a free block of the same order: the lists stay
coalesced. -/
theorem give (ha : alloc p = some k) (hidle : (m.pages p).Idle)
    (hbuddy : k < BUDDY_MAX_ORDER - 1 → ¬m.FreeBlock (p ^^^ 2 ^ k) k) : BuddyInv (m.give p k) (update alloc p none) := by
  have hfree : ∀ q j, (m.give p k).FreeBlock q j ↔ m.FreeBlock q j ∨ (q = p ∧ j = k) := fun q j =>
    freeBlock_give m p k q j (h.lt_of_alloc ha) (h.allocated p k ha).1
  refine ⟨⟨h.npages, ?_, ?_, ?_, ?_, ?_, ?_⟩, ?_⟩
  · intro j q
    rw [hfree]
    simp only [Phys.give, Phys.listAddTail_buddyFreeList, Phys.setFree_buddyFreeList]
    by_cases hj : j = k
    · rw [if_pos hj, List.mem_append, List.mem_singleton, h.linked]
      simp [hj]
    · rw [if_neg hj, h.linked]
      simp [hj]
  · intro j
    simp only [Phys.give, Phys.listAddTail_buddyFreeList, Phys.setFree_buddyFreeList]
    split
    · have hnot : p ∉ m.buddyFreeList j := fun hm => h.not_free_of_alloc ha j ((h.linked j p).1 hm)
      exact List.nodup_append.2 ⟨h.nodup j, by simp, fun a ha' b hb e => by
        rw [List.mem_singleton.1 hb] at e
        exact hnot (e ▸ ha')⟩
    · exact h.nodup j
  · intro q j hq
    by_cases hqp : q = p
    · rw [hqp, update_self] at hq
      cases hq
    · rw [update_of_ne hqp] at hq
      simpa [Phys.give, hqp] using h.allocated q j hq
  · exact fun q j hb => h.bounds q j ((h.block_give ha q j).1 hb)
  · exact fun q j r l hb hb' => h.disjoint q j r l ((h.block_give ha q j).1 hb) ((h.block_give ha r l).1 hb')
  · intro q j hj hq hq'
    have hd := (h.bounds p k (.inr ha)).2.1
    rw [hfree] at hq hq'
    rcases hq with hq | ⟨rfl, rfl⟩ <;> rcases hq' with hq' | ⟨hqp, hjk⟩
    · exact h.coalesced q j hj hq hq'
    · subst hjk
      have hqe : q = p ^^^ 2 ^ j := by rw [← hqp, Nat.xor_assoc, Nat.xor_self, Nat.xor_zero]
      exact hbuddy hj (hqe ▸ hq)
    · exact hbuddy hj hq'
    · exact DyadicBlock.buddy_ne hd hqp
  · intro q j i hb hi hiq
    simp only [Phys.give, Phys.listAddTail_pages, Phys.setFree_idle]
    by_cases hip : i = p
    · rw [hip]
      exact hidle
    · refine h.idle q j i ((h.block_give ha q j).1 hb) hi (fun e => ?_)
      rcases (hfree q j).1 (hiq e) with hf | ⟨rfl, _⟩
      · exact hf
      · exact absurd e hip

/-! ### Growing over the buddy -/

theorem halves (hb : m.Block alloc p k) {b : Nat} (hbd : b = p ^^^ 2 ^ k) :
    ∃ lo hi, hi = lo + 2 ^ k ∧ 2 ^ (k + 1) ∣ lo ∧ ((lo = p ∧ hi = b ∧ ¬p > b) ∨ (lo = b ∧ hi = p ∧ p > b)) := by
  have hpos := Nat.two_pow_pos k
  rcases DyadicBlock.buddy_cases (h.bounds p k hb).2.1 with ⟨hd, e⟩ | ⟨hle, hd, e⟩
  · have e' : b = p + 2 ^ k := hbd.trans e
    exact ⟨p, b, e', hd, .inl ⟨rfl, rfl, by omega⟩⟩
  · have e' : b = p - 2 ^ k := hbd.trans e
    exact ⟨b, p, by omega, e' ▸ hd, .inr ⟨rfl, rfl, by omega⟩⟩

/-- After the growth there is the joined block, and the blocks other than the two halves. -/
theorem block_join {b lo hi : Nat} (hf : m.FreeBlock b k) (hlh : (lo = p ∧ hi = b) ∨ (lo = b ∧ hi = p)) (q j : Nat) :
    (m.join lo hi b k).Block (update (update alloc p none) lo (some (k + 1))) q j ↔
      (q = lo ∧ j = k + 1) ∨ (m.Block alloc q j ∧ q ≠ lo ∧ q ≠ hi) := by
  have hnb : ∀ j, alloc b ≠ some j := fun j hb => h.not_free_of_alloc hb k hf
  unfold Block
  rw [freeBlock_join]
  by_cases hl : q = lo
  · subst hl
    simp [eq_comm]
  · have hal : update (update alloc p none) lo (some (k + 1)) q = some j ↔ alloc q = some j ∧ q ≠ hi := by
      rw [update_of_ne hl]
      by_cases hp : q = p
      · have hqh : q = hi := by
          rcases hlh with ⟨e, _⟩ | ⟨_, e⟩
          · exact absurd (hp.trans e.symm) hl
          · exact hp.trans e.symm
        simp [hp, hp ▸ hqh]
      · rw [update_of_ne hp]
        refine ⟨fun hq => ⟨hq, fun hh => ?_⟩, fun hq => hq.1⟩
        rcases hlh with ⟨_, e⟩ | ⟨_, e⟩
        · exact hnb j (e ▸ hh ▸ hq)
        · exact hp (hh.trans e)
    rw [hal]
    simp only [ne_eq, hl, not_false_eq_true, true_and, false_and, false_or]
    rw [or_and_right]

/-- An allocated block without references that grows over its free buddy keeps the invariant. -/
theorem join (ha : alloc p = some k) (hidle : (m.pages p).Idle) (hk : k < BUDDY_MAX_ORDER - 1) {b lo hi : Nat}
    (hf : m.FreeBlock b k) (hhi : hi = lo + 2 ^ k) (hlo : 2 ^ (k + 1) ∣ lo) (hlh : (lo = p ∧ hi = b) ∨ (lo = b ∧ hi = p)) :
    BuddyInv (m.join lo hi b k) (update (update alloc p none) lo (some (k + 1))) := by
  have hblock := h.block_join hf hlh
  have hpos := Nat.two_pow_pos k
  have hbp : m.Block alloc p k := .inr ha
  have hbb : m.Block alloc b k := .inl hf
  have hpb : ∀ i, i ∈ blockSet lo (k + 1) → i ∈ blockSet p k ∨ i ∈ blockSet b k := by
    intro i hi'
    simp only [mem_blockSet] at hi' ⊢
    rcases hlh with ⟨rfl, rfl⟩ | ⟨rfl, rfl⟩ <;> omega
  have hne : lo ≠ hi := by omega
  refine ⟨⟨h.npages, ?_, ?_, ?_, ?_, ?_, ?_⟩, ?_⟩
  · intro j q
    rw [Phys.freeBlock_join]
    simp only [Phys.join, Phys.setOrder_buddyFreeList, Phys.setFree_buddyFreeList, Phys.listDel_buddyFreeList]
    rw [(h.nodup j).mem_erase_iff, h.linked]
    have hnp : ¬m.FreeBlock p j := h.not_free_of_alloc ha j
    constructor
    · rintro ⟨hqb, hq⟩
      have hqp : q ≠ p := fun e => hnp (e ▸ hq)
      rcases hlh with ⟨rfl, rfl⟩ | ⟨rfl, rfl⟩
      · exact ⟨hq, hqp, hqb⟩
      · exact ⟨hq, hqb, hqp⟩
    · rintro ⟨hq, hql, hqh⟩
      rcases hlh with ⟨rfl, rfl⟩ | ⟨rfl, rfl⟩
      · exact ⟨hqh, hq⟩
      · exact ⟨hql, hq⟩
  · exact fun j => (h.nodup j).erase b
  · intro q j hq
    by_cases hl : q = lo
    · rw [hl, update_self, Option.some.injEq] at hq
      subst hq
      simp [Phys.join, hl]
    · rw [update_of_ne hl] at hq
      by_cases hp : q = p
      · rw [hp, update_self] at hq
        cases hq
      · rw [update_of_ne hp] at hq
        have := h.allocated q j hq
        simp [Phys.join, hl, this.1, this.2]
  · intro q j hb
    rcases (hblock q j).1 hb with ⟨rfl, rfl⟩ | ⟨hb, _⟩
    · have h1 := (h.bounds p k hbp).2.2
      have h2 := (h.bounds b k hbb).2.2
      refine ⟨by omega, hlo, ?_⟩
      simp only [Phys.join, Phys.setOrder_npages, Phys.setFree_npages, Phys.listDel_npages]
      rcases hlh with ⟨rfl, rfl⟩ | ⟨rfl, rfl⟩ <;> omega
    · exact h.bounds q j hb
  · intro q j r l hb hb'
    -- A block away from both halves is away from their union.
    have away : ∀ q j, m.Block alloc q j → q ≠ lo → q ≠ hi → lo + 2 ^ (k + 1) ≤ q ∨ q + 2 ^ j ≤ lo := by
      intro q j hb hl hh
      have hj := Nat.two_pow_pos j
      have d1 := h.disjoint q j p k hb hbp
      have d2 := h.disjoint q j b k hb hbb
      rcases hlh with ⟨rfl, rfl⟩ | ⟨rfl, rfl⟩ <;> omega
    rcases (hblock q j).1 hb with ⟨eq, ej⟩ | ⟨hb, hl, hh⟩ <;>
      rcases (hblock r l).1 hb' with ⟨er, el⟩ | ⟨hb', hl', hh'⟩
    · exact .inl ⟨eq.trans er.symm, ej.trans el.symm⟩
    · rw [eq, ej]
      exact .inr (away r l hb' hl' hh')
    · rw [er, el]
      exact .inr (away q j hb hl hh).symm
    · exact h.disjoint q j r l hb hb'
  · intro q j hj hq hq'
    rw [Phys.freeBlock_join] at hq hq'
    exact h.coalesced q j hj hq.1 hq'.1
  · intro q j i hb hi' hiq
    simp only [Phys.join, Phys.setOrder_idle, Phys.setFree_idle, Phys.listDel_pages]
    rcases (hblock q j).1 hb with ⟨rfl, rfl⟩ | ⟨hb, hl, hh⟩
    · by_cases hip : i = p
      · rw [hip]
        exact hidle
      · rcases hpb i hi' with hi' | hi'
        · exact h.idle p k i hbp hi' (fun e => absurd e hip)
        · exact h.idle b k i hbb hi' (fun _ => hf)
    · exact h.idle q j i hb hi' (fun e => ((Phys.freeBlock_join m lo hi b k q j).1 (hiq e)).1)

/-! ### Cutting in half -/

section

variable (ha : alloc p = some (k + 1))

include ha

theorem buddy_of_succ : p ^^^ 2 ^ k = p + 2 ^ k :=
  DyadicBlock.buddy_of_dvd_succ (h.bounds p (k + 1) (.inr ha)).2.1

theorem freeBlock_cut (q j : Nat) : (m.splitStep p).FreeBlock q j ↔ m.FreeBlock q j ∨ (q = p + 2 ^ k ∧ j = k) := by
  obtain ⟨ho, hf⟩ := h.allocated p (k + 1) ha
  have hb : m.Block alloc p (k + 1) := .inr ha
  have hn := (h.bounds p _ hb).2.2
  have hpos := Nat.two_pow_pos k
  have hup : (m.pages (p + 2 ^ k)).ppFree = false := h.interior_not_free hb (by omega) (by omega)
  have hbd := h.buddy_of_succ ha
  simp only [splitStep, ho, Nat.add_sub_cancel, Nat.one_shiftLeft, hbd, FreeBlock, listAddTail_npages,
    setFree_npages, setOrder_npages, listAddTail_pages, setFree_pages, setOrder_pages,
    setFree_pages, setOrder_pages]
  by_cases hq : q = p + 2 ^ k
  · subst hq
    simp only [if_true, true_and, hup, Bool.false_eq_true, false_and, and_false, false_or]
    exact ⟨fun hh => hh.2.symm, fun hh => ⟨by omega, hh.symm⟩⟩
  · by_cases hqp : q = p
    · subst hqp
      simp [hf]
    · simp [hq, hqp]

theorem block_cut (q j : Nat) : (m.splitStep p).Block (update alloc p (some k)) q j ↔
      ((q = p ∨ q = p + 2 ^ k) ∧ j = k) ∨ (m.Block alloc q j ∧ q ≠ p) := by
  have hnp : ¬m.FreeBlock p j := h.not_free_of_alloc ha j
  unfold Block
  rw [h.freeBlock_cut ha]
  by_cases hq : q = p
  · subst hq
    simp [hnp, eq_comm]
  · rw [update_of_ne hq]
    simp only [hq, false_or, ne_eq, not_false_eq_true, and_true]
    exact ⟨fun hh => by rcases hh with (a | a) | a <;> simp [a], fun hh => by rcases hh with a | a | a <;> simp [a]⟩

/-- Cutting a block in half keeps the invariant. -/
theorem cut : BuddyInv (m.splitStep p) (update alloc p (some k)) := by
  obtain ⟨ho, hfp⟩ := h.allocated p (k + 1) ha
  have hb : m.Block alloc p (k + 1) := .inr ha
  obtain ⟨hk10, hdvd, hn⟩ := h.bounds p _ hb
  have hpos := Nat.two_pow_pos k
  have hpow : 2 ^ (k + 1) = 2 ^ k + 2 ^ k := by rw [Nat.pow_succ]; omega
  have hbd := h.buddy_of_succ ha
  have hdk : 2 ^ k ∣ p := (Nat.pow_dvd_pow 2 (Nat.le_succ k)).trans hdvd
  have hfree := h.freeBlock_cut ha
  have hblock := h.block_cut ha
  have hhalf : ∀ q i, (q = p ∨ q = p + 2 ^ k) → i ∈ blockSet q k → i ∈ blockSet p (k + 1) := by
    intro q i hq hi
    rw [mem_blockSet] at hi ⊢
    rcases hq with rfl | rfl <;> omega
  have hup : ∀ j, ¬m.Block alloc (p + 2 ^ k) j := by
    intro j hbj
    have hj := Nat.two_pow_pos j
    rcases h.disjoint p _ _ j hb hbj with ⟨e, _⟩ | e | e <;> omega
  refine ⟨⟨h.npages, ?_, ?_, ?_, ?_, ?_, ?_⟩, ?_⟩
  · intro j q
    rw [hfree]
    simp only [splitStep, ho, Nat.add_sub_cancel, Nat.one_shiftLeft, hbd, listAddTail_buddyFreeList,
      setFree_buddyFreeList, setOrder_buddyFreeList]
    by_cases hj : j = k
    · rw [if_pos hj, List.mem_append, List.mem_singleton, h.linked]
      simp [hj]
    · rw [if_neg hj, h.linked]
      simp [hj]
  · intro j
    simp only [splitStep, ho, Nat.add_sub_cancel, Nat.one_shiftLeft, hbd, listAddTail_buddyFreeList,
      setFree_buddyFreeList, setOrder_buddyFreeList]
    split
    · have hnot : p + 2 ^ k ∉ m.buddyFreeList j := fun hm => hup j (.inl ((h.linked j _).1 hm))
      exact List.nodup_append.2 ⟨h.nodup j, by simp, fun a ha' b hb' e => by
        rw [List.mem_singleton.1 hb'] at e
        exact hnot (e ▸ ha')⟩
    · exact h.nodup j
  · intro q j hq
    simp only [splitStep, ho, Nat.add_sub_cancel, Nat.one_shiftLeft, hbd, listAddTail_pages,
      setFree_pages, setOrder_pages, setFree_pages, setOrder_pages]
    by_cases hqp : q = p
    · rw [hqp, update_self, Option.some.injEq] at hq
      subst hq
      simp [hqp, hfp]
    · rw [update_of_ne hqp] at hq
      have hqu : q ≠ p + 2 ^ k := fun e => hup j (.inr (e ▸ hq))
      simpa [hqp, hqu] using h.allocated q j hq
  · intro q j hbj
    rcases (hblock q j).1 hbj with ⟨hq, rfl⟩ | ⟨hbj, _⟩
    · refine ⟨by omega, ?_, ?_⟩
      · rcases hq with rfl | rfl
        · exact hdk
        · exact Nat.dvd_add hdk (Nat.dvd_refl _)
      · simp only [splitStep, listAddTail_npages, setFree_npages, setOrder_npages]
        rcases hq with rfl | rfl <;> omega
    · exact h.bounds q j hbj
  · intro q j r l hbj hbl
    -- A block away from the whole is away from each half.
    have away : ∀ q j, m.Block alloc q j → q ≠ p → p + 2 ^ (k + 1) ≤ q ∨ q + 2 ^ j ≤ p := by
      intro q j hbj hq
      rcases h.disjoint p _ q j hb hbj with ⟨e, _⟩ | e | e
      · exact absurd e.symm hq
      · exact .inl e
      · exact .inr e
    rcases (hblock q j).1 hbj with ⟨hq, rfl⟩ | ⟨hbj', hq⟩ <;> rcases (hblock r l).1 hbl with ⟨hr, hl⟩ | ⟨hbl', hr⟩
    · subst hl
      rcases hq with rfl | rfl <;> rcases hr with rfl | rfl <;> omega
    · have := away r l hbl' hr
      rcases hq with rfl | rfl <;> omega
    · have := away q j hbj' hq
      subst hl
      rcases hr with rfl | rfl <;> omega
    · exact h.disjoint q j r l hbj' hbl'
  · intro q j hj hq hq'
    have hupbd : (p + 2 ^ k) ^^^ 2 ^ k = p := by rw [← hbd, Nat.xor_assoc, Nat.xor_self, Nat.xor_zero]
    have hnp : ¬m.FreeBlock p k := h.not_free_of_alloc ha k
    rw [hfree] at hq hq'
    rcases hq with hq | ⟨rfl, rfl⟩ <;> rcases hq' with hq' | ⟨hqp, hjk⟩
    · exact h.coalesced q j hj hq hq'
    · subst hjk
      have hqe : q = p := by rw [← hupbd, ← hqp, Nat.xor_assoc, Nat.xor_self, Nat.xor_zero]
      exact hnp (hqe ▸ hq)
    · rw [hupbd] at hq'
      exact hnp hq'
    · rw [hupbd] at hqp
      omega
  · intro q j i hbj hi hiq
    simp only [splitStep, listAddTail_pages, setFree_idle, setOrder_idle]
    rcases (hblock q j).1 hbj with ⟨hq, rfl⟩ | ⟨hbj, hq⟩
    · refine h.idle p _ i hb (hhalf q i hq hi) (fun e => ?_)
      rw [mem_blockSet] at hi
      rcases hq with rfl | rfl
      · rcases (hfree q j).1 (hiq e) with hf | ⟨e', _⟩
        · exact absurd hf (h.not_free_of_alloc ha j)
        · omega
      · omega
    · refine h.idle q j i hbj hi (fun e => ?_)
      rcases (hfree q j).1 (hiq e) with hf | ⟨rfl, _⟩
      · exact hf
      · exact absurd hbj (hup j)

end

end

end BuddyInv

end OpenLsd
