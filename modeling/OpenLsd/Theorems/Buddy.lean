import OpenLsd.Lemmas.BuddyOps

/-!
# The buddy allocator over whole histories

The steps the kernel takes on physical memory, the invariant along every run of them, and the set of free frames that the
allocator refines. Boot starts with empty lists and hands the frames over one by one; from then on callers allocate, count
references on what they hold, and free what nothing refers to.
-/

namespace OpenLsd

open Function Phys

variable {alloc : Orders} {m : Phys} {p k : Nat}

namespace BuddyInv

/-! ## Coalescing: an aligned run of free frames lies in one free block -/

section

variable (h : BuddyInv m alloc) {q i : Nat}

include h

/-- A free block of an order that holds an aligned frame of that order starts at the frame. -/
theorem freeBlock_at (hf : m.FreeBlock p k) (hq : 2 ^ k ∣ q) (hm : q ∈ blockSet p k) : m.FreeBlock q k := by
  rw [mem_blockSet] at hm
  have := DyadicBlock.nested le_rfl hq (h.bounds p k (.inl hf)).2.1 (i := q) (by omega) hm
  obtain rfl : p = q := by omega
  exact hf

/-- Every aligned run of `2 ^ k` free frames lies in a free block of at least that order. -/
theorem exists_freeBlock_of_run (hk : k < BUDDY_MAX_ORDER) (hq : 2 ^ k ∣ q)
    (hrun : blockSet q k ⊆ m.freeSet) : ∃ p j, k ≤ j ∧ m.FreeBlock p j ∧ q ∈ blockSet p j := by
  induction k generalizing q with
  | zero =>
    obtain ⟨p, j, hf, hm⟩ := hrun (mem_blockSet.2 ⟨Nat.le_refl q, by omega⟩)
    exact ⟨p, j, Nat.zero_le j, hf, hm⟩
  | succ k ih =>
    have hpos := Nat.two_pow_pos k
    rw [blockSet_succ] at hrun
    have hqk : 2 ^ k ∣ q := (Nat.pow_dvd_pow 2 (Nat.le_succ k)).trans hq
    obtain ⟨p, j, hj, hf, hm⟩ := ih (by omega) hqk (fun i hi => hrun (.inl hi))
    by_cases hjk : k + 1 ≤ j
    · exact ⟨p, j, hjk, hf, hm⟩
    -- The lower half is a free block by itself; the upper half then is one too, or part of a larger one.
    · obtain rfl : j = k := by omega
      have hlow := h.freeBlock_at hf hqk hm
      obtain ⟨p', j', hj', hf', hm'⟩ := ih (by omega) (Nat.dvd_add hqk (Nat.dvd_refl _)) (fun i hi => hrun (.inr hi))
      exfalso
      by_cases hjj : j' = j
      · subst hjj
        have hup := h.freeBlock_at hf' (Nat.dvd_add hqk (Nat.dvd_refl _)) hm'
        have hbd : q ^^^ 2 ^ j' = q + 2 ^ j' := DyadicBlock.buddy_of_dvd_succ hq
        exact h.coalesced q j' (by omega) hlow (hbd ▸ hup)
      · rw [mem_blockSet] at hm'
        have hin := DyadicBlock.nested (show j + 1 ≤ j' by omega) hq (h.bounds p' j' (.inl hf')).2.1
          (i := q + 2 ^ j) (by rw [Nat.pow_succ]; omega) hm'
        have := h.block_unique (.inl hlow) (.inl hf') (mem_blockSet.2 ⟨Nat.le_refl q, by omega⟩)
          (mem_blockSet.2 (by omega))
        omega

/-- `page_alloc` fails exactly when the free frames hold no aligned run of the requested size. -/
theorem pageAlloc_none_iff (allocFlags : Nat) :
    (m.pageAlloc allocFlags).1 = none ↔
      ∀ q, 2 ^ reqOrder allocFlags ∣ q → ¬blockSet q (reqOrder allocFlags) ⊆ m.freeSet := by
  constructor
  · intro hnone q hq hrun
    obtain ⟨p, j, hj, hf, _⟩ := h.exists_freeBlock_of_run (reqOrder_lt allocFlags) hq hrun
    exact (h.pageAlloc_none hnone).2 p j hj hf
  · intro hrun
    cases hr : (m.pageAlloc allocFlags).1 with
    | none => rfl
    | some p =>
      have ha := h.pageAlloc_some hr
      exact absurd ha.free (hrun p (ha.inv.bounds p _ (.inr (update_self _ _ _))).2.1)

/-! ## Counting -/

/-- The frames of the free blocks of one order, block by block. -/
def framesOf (m : Phys) (k : Nat) : List Nat := (m.buddyFreeList k).flatMap (fun p => List.range' p (2 ^ k))

omit h in
theorem mem_framesOf : i ∈ framesOf m k ↔ ∃ p ∈ m.buddyFreeList k, i ∈ blockSet p k := by
  simp only [framesOf, List.mem_flatMap, List.mem_range'_1, mem_blockSet]

omit h in
theorem length_framesOf (m : Phys) (k : Nat) : (framesOf m k).length = (m.buddyFreeList k).length * 2 ^ k := by
  simp [framesOf, List.length_flatMap]

theorem nodup_framesOf (k : Nat) : (framesOf m k).Nodup := by
  refine List.nodup_flatMap.2 ⟨fun p _ => List.nodup_range' .., ?_⟩
  refine (h.nodup k).imp_of_mem (fun {p q} hp hq hne i hi hi' => ?_)
  have hp := (h.linked k p).1 hp
  have hq := (h.linked k q).1 hq
  rw [List.mem_range'_1] at hi hi'
  exact hne (h.block_unique (.inl hp) (.inl hq) hi hi').1

theorem framesOf_disjoint {j : Nat} (hjk : j ≠ k) : List.Disjoint (framesOf m j) (framesOf m k) := by
  intro i hi hi'
  obtain ⟨p, hp, hip⟩ := mem_framesOf.1 hi
  obtain ⟨q, hq, hiq⟩ := mem_framesOf.1 hi'
  exact hjk (h.block_unique (.inl ((h.linked j p).1 hp)) (.inl ((h.linked k q).1 hq)) hip hiq).2

/-- The frames of all free blocks. -/
def freeFrames (m : Phys) : List Nat := (List.range BUDDY_MAX_ORDER).flatMap (framesOf m)

theorem mem_freeFrames : i ∈ freeFrames m ↔ i ∈ m.freeSet := by
  simp only [freeFrames, List.mem_flatMap, List.mem_range, mem_framesOf, mem_freeSet]
  constructor
  · rintro ⟨k, _, p, hp, hi⟩
    exact ⟨p, k, (h.linked k p).1 hp, hi⟩
  · rintro ⟨p, k, hf, hi⟩
    exact ⟨k, (h.bounds p k (.inl hf)).1, p, (h.linked k p).2 hf, hi⟩

theorem nodup_freeFrames : (freeFrames m).Nodup := by
  refine List.nodup_flatMap.2 ⟨fun k _ => h.nodup_framesOf k, ?_⟩
  exact List.nodup_range.imp (fun hne => h.framesOf_disjoint hne)

omit h in
/-- The sum that `count_total_free_pages` runs is the length of the list of free frames. -/
theorem countTotalFreePages_eq (m : Phys) : m.countTotalFreePages = (freeFrames m).length := by
  have key : ∀ (n acc : Nat), n ≤ BUDDY_MAX_ORDER →
      (List.range n).foldl (fun nfree order => nfree + m.countFreePages order * (1 <<< order)) acc =
        acc + ((List.range n).flatMap (framesOf m)).length := by
    intro n acc hn
    induction n with
    | zero => simp
    | succ n ih =>
      have hlt : ¬n ≥ BUDDY_MAX_ORDER := by omega
      rw [List.range_succ, List.foldl_append, ih (by omega), List.flatMap_append, List.length_append]
      simp only [List.foldl_cons, List.foldl_nil, countFreePages, if_neg hlt, Nat.one_shiftLeft, List.flatMap_cons,
        List.flatMap_nil, List.append_nil, length_framesOf]
      omega
  have := key BUDDY_MAX_ORDER 0 le_rfl
  rw [countTotalFreePages, this, Nat.zero_add, freeFrames]

/-- The allocator's own count of the free pages is the number of free frames. -/
theorem countTotalFreePages_ncard : m.countTotalFreePages = m.freeSet.ncard := by
  have hset : m.freeSet = ((freeFrames m).toFinset : Set Nat) := by
    ext i
    rw [List.coe_toFinset]
    exact h.mem_freeFrames.symm
  rw [countTotalFreePages_eq, hset, Set.ncard_coe_finset, List.toFinset_card_of_nodup h.nodup_freeFrames]

end

end BuddyInv

/-! ## Runs -/

/-- The state in which `page_init` leaves the metadata before it hands any page over. -/
def bootPhys (npages : Nat) (bytes : Nat → Nat → UInt8) : Phys where
  npages := npages
  pages := fun _ => { ppRef := 0, ppOrder := 0, ppFree := false, ppAvail := false, virtAddr := 0, owner := none }
  buddyFreeList := fun _ => []
  activePages := []
  bytes := bytes

/-- A frame that is in no block yet: boot has not handed it over. -/
def Unmanaged (m : Phys) (alloc : Orders) (p : Nat) : Prop :=
  p < m.npages ∧ (m.pages p).ppOrder = 0 ∧ (m.pages p).ppFree = false ∧ ∀ q k, m.Block alloc q k → p ∉ blockSet q k

theorem Unmanaged.alloc_eq_none {p : Nat} (hp : Unmanaged m alloc p) : alloc p = none := by
  cases ha : alloc p with
  | none => rfl
  | some l => exact absurd (head_mem_blockSet p l) (hp.2.2.2 p l (.inr ha))

/-- The blocks that are allocated after `page_alloc` returned. -/
def claimBlock (alloc : Orders) (allocFlags : Nat) : Option Nat → Nat → Option Nat
  | none => alloc
  | some p => update alloc p (some (Phys.reqOrder allocFlags))

/-- One step of the kernel on physical memory. The blocks that are allocated are known to the callers only, so they are
tracked beside the state. -/
inductive BuddyStep : Phys → Orders → Phys → Orders → Prop
  /-- `page_alloc`, with any flags. -/
  | alloc (m : Phys) (a : Orders) (allocFlags : Nat) :
    BuddyStep m a (m.pageAlloc allocFlags).2 (claimBlock a allocFlags (m.pageAlloc allocFlags).1)
  /-- `page_free` of the head of an allocated block that is available and has no references. -/
  | free (m : Phys) (a : Orders) (p k : Nat) (ha : a p = some k) (href : (m.pages p).ppRef = 0)
    (havail : (m.pages p).ppAvail = true) : BuddyStep m a (m.pageFree p) (update a p none)
  /-- A caller counts references on a block that it holds. -/
  | count (m : Phys) (a : Orders) (p k r : Nat) (ha : a p = some k) : BuddyStep m a (m.setRef p r) a
  /-- `page_init` marks a page that is not handed over. -/
  | mark (m : Phys) (a : Orders) (p r : Nat) (avail : Bool) (hp : Unmanaged m a p) :
    BuddyStep m a (m.modifyPage p (fun i => { i with ppRef := r, ppAvail := avail })) a
  /-- `page_init` hands an available page over. -/
  | handOver (m : Phys) (a : Orders) (p : Nat) (hp : Unmanaged m a p) (href : (m.pages p).ppRef = 0)
    (havail : (m.pages p).ppAvail = true) : BuddyStep m a (m.pageFree p) a

/-- A run of such steps. -/
inductive BuddyRun : Phys → Orders → Phys → Orders → Prop
  | refl (m : Phys) (a : Orders) : BuddyRun m a m a
  | tail {m m' m'' : Phys} {a a' a'' : Orders} (hr : BuddyRun m a m' a') (hs : BuddyStep m' a' m'' a'') :
    BuddyRun m a m'' a''

/-- The states that a run reaches from the start of boot. -/
def BuddyReachable (m : Phys) (alloc : Orders) : Prop :=
  ∃ npages bytes, 512 ∣ npages ∧ BuddyRun (bootPhys npages bytes) (fun _ => none) m alloc

namespace BuddyInv

variable {m' : Phys} {alloc' : Orders}

theorem boot {npages : Nat} (bytes : Nat → Nat → UInt8) (h : 512 ∣ npages) :
    BuddyInv (bootPhys npages bytes) (fun _ => none) := by
  have hfree : ∀ q j, ¬(bootPhys npages bytes).FreeBlock q j := by
    rintro q j ⟨_, hf, _⟩
    cases hf
  have hblock : ∀ q j, ¬(bootPhys npages bytes).Block (fun _ => none) q j := by
    rintro q j (hf | ha)
    · exact hfree q j hf
    · cases ha
  refine ⟨⟨h, ?_, fun _ => List.nodup_nil, ?_, ?_, ?_, ?_⟩, ?_⟩
  · intro j q
    exact ⟨fun hm => (List.not_mem_nil hm).elim, fun hf => absurd hf (hfree q j)⟩
  · intro q j hq
    cases hq
  · exact fun q j hb => absurd hb (hblock q j)
  · exact fun q j _ _ hb => absurd hb (hblock q j)
  · exact fun q j _ hf => absurd hf (hfree q j)
  · exact fun q j _ hb => absurd hb (hblock q j)

/-- A frame in no block may be taken as an allocated block of order zero. -/
theorem enter (h : BuddyInv m alloc) (hp : Unmanaged m alloc p) : BuddyInv m (update alloc p (some 0)) := by
  obtain ⟨hlt, ho, hf, hout⟩ := hp
  have hself : ∀ {q j}, m.Block alloc q j → q ≠ p := by
    rintro q j hb rfl
    have hpos := Nat.two_pow_pos j
    exact hout q j hb (mem_blockSet.2 (by omega))
  have hblock : ∀ q j, m.Block (update alloc p (some 0)) q j ↔ (q = p ∧ j = 0) ∨ m.Block alloc q j := by
    intro q j
    by_cases hq : q = p
    · subst hq
      have hno : ¬m.Block alloc q j := fun hb => hself hb rfl
      simp only [Block, update_self, Option.some.injEq] at hno ⊢
      simp [eq_comm, not_or.1 hno]
    · simp [Block, hq]
  refine ⟨⟨h.npages, h.linked, h.nodup, ?_, ?_, ?_, h.coalesced⟩, ?_⟩
  · intro q j hq
    by_cases hqp : q = p
    · rw [hqp, update_self, Option.some.injEq] at hq
      rw [hqp, ← hq]
      exact ⟨ho, hf⟩
    · rw [update_of_ne hqp] at hq
      exact h.allocated q j hq
  · intro q j hb
    rcases (hblock q j).1 hb with ⟨rfl, rfl⟩ | hb
    · exact ⟨by decide, by simp, by omega⟩
    · exact h.bounds q j hb
  · intro q j r l hb hb'
    have away : ∀ q j, m.Block alloc q j → p + 2 ^ 0 ≤ q ∨ q + 2 ^ j ≤ p := by
      intro q j hb
      have := hout q j hb
      rw [mem_blockSet] at this
      omega
    rcases (hblock q j).1 hb with ⟨rfl, rfl⟩ | hb <;> rcases (hblock r l).1 hb' with ⟨er, el⟩ | hb'
    · exact .inl ⟨er.symm, el.symm⟩
    · exact .inr (away r l hb')
    · rw [er, el]
      exact .inr (away q j hb).symm
    · exact h.disjoint q j r l hb hb'
  · intro q j i hb hi hiq
    rcases (hblock q j).1 hb with ⟨rfl, rfl⟩ | hb
    · rw [mem_blockSet] at hi
      have := hiq (by omega)
      rw [FreeBlock, hf] at this
      cases this.2.1
    · exact h.idle q j i hb hi hiq

theorem step (h : BuddyInv m alloc) (hs : BuddyStep m alloc m' alloc') : BuddyInv m' alloc' := by
  cases hs with
  | alloc allocFlags =>
    cases hr : (m.pageAlloc allocFlags).1 with
    | none =>
      rw [(h.pageAlloc_none hr).1]
      exact h
    | some p => exact (h.pageAlloc_some hr).inv
  | free p k ha href havail => exact (h.pageFree ha ⟨havail, href⟩).1
  | count p k r ha =>
    refine h.congr rfl rfl (fun q => by simp) (fun q => by simp) (fun _ _ i _ _ hi hidle => ?_)
    have hip : i ≠ p := by
      rintro rfl
      rw [ha] at hi
      cases hi
    simpa [PageInfo.Idle, hip] using hidle
  | mark p r avail hp =>
    refine h.congr rfl rfl (fun q => ?_) (fun q => ?_) (fun q j i hb hi _ hidle => ?_) <;> rw [modifyPage_pages]
    · split <;> rfl
    · split <;> rfl
    · have hip : i ≠ p := by
        rintro rfl
        exact hp.2.2.2 q j hb hi
      rw [if_neg hip]
      exact hidle
  | handOver p hp href havail =>
    have hfree := ((h.enter hp).pageFree (update_self p (some 0) alloc) ⟨havail, href⟩).1
    rwa [update_idem, (update_eq_self_iff.2 hp.alloc_eq_none.symm : update alloc p none = alloc)] at hfree

theorem run (h : BuddyInv m alloc) (hr : BuddyRun m alloc m' alloc') : BuddyInv m' alloc' := by
  induction hr with
  | refl => exact h
  | tail _ hs ih => exact (ih h).step hs

end BuddyInv

theorem BuddyReachable.inv (h : BuddyReachable m alloc) : BuddyInv m alloc := by
  obtain ⟨npages, bytes, hn, hr⟩ := h
  exact (BuddyInv.boot bytes hn).run hr

/-- A page is marked and handed over. -/
def handPage (p : Nat) (m : Phys) : Phys := (m.modifyPage p fun i => { i with ppRef := 0, ppAvail := true }).pageFree p

theorem BuddyRun.handPage {m0 m : Phys} {alloc0 : Orders} {p : Nat} (hr : BuddyRun m0 alloc0 m alloc)
    (hp : Unmanaged m alloc p) : BuddyRun m0 alloc0 (handPage p m) alloc := by
  refine (hr.tail (.mark _ _ p 0 true hp)).tail (.handOver _ _ p ?_ (by simp [modifyPage_pages]) (by simp [modifyPage_pages]))
  have hsame : ∀ q, ((m.modifyPage p fun i => { i with ppRef := 0, ppAvail := true }).pages q).ppFree = (m.pages q).ppFree ∧
      ((m.modifyPage p fun i => { i with ppRef := 0, ppAvail := true }).pages q).ppOrder = (m.pages q).ppOrder := by
    intro q
    rw [modifyPage_pages]
    split <;> exact ⟨rfl, rfl⟩
  obtain ⟨hlt, horder, hfree, hout⟩ := hp
  refine ⟨hlt, (hsame p).2.trans horder, (hsame p).1.trans hfree, fun q k hb => hout q k ?_⟩
  simpa only [Phys.Block, Phys.FreeBlock, hsame, modifyPage_npages] using hb

/-- Where the given page is the only free one no other page is managed. -/
theorem unmanaged_of_free {m : Phys} {p q : Nat} (hp : p < m.npages)
    (hfree : ∀ i < m.npages, (m.pages i).ppFree = true → i = q ∧ (m.pages i).ppOrder = 0) (hpq : p ≠ q)
    (horder : (m.pages p).ppOrder = 0) : Unmanaged m (fun _ => none) p := by
  refine ⟨hp, horder, ?_, ?_⟩
  · by_contra hno
    exact hpq (hfree p hp (by simpa using hno)).1
  · rintro i k (⟨hi, hf, hk⟩ | ha) hin
    · obtain ⟨rfl, h0⟩ := hfree i hi hf
      rw [← hk, h0, mem_blockSet] at hin
      omega
    · cases ha

/-- One page handed over to an empty allocator. -/
def onePage : Phys := handPage 1 (bootPhys 512 fun _ _ => 0)

/-- Two pages that are buddies, one after the other: they are one free block of order 1. -/
def pairPages : Phys := handPage 3 (handPage 2 (bootPhys 512 fun _ _ => 0))

theorem onePage_run : BuddyRun (bootPhys 512 fun _ _ => 0) (fun _ => none) onePage (fun _ => none) :=
  (BuddyRun.refl _ _).handPage (unmanaged_of_free (q := 0) (by decide) (fun i _ hf => by cases hf) (by decide) rfl)

theorem pairPages_run : BuddyRun (bootPhys 512 fun _ _ => 0) (fun _ => none) pairPages (fun _ => none) := by
  have hfirst := (BuddyRun.refl (bootPhys 512 fun _ _ => 0) fun _ => none).handPage
    (unmanaged_of_free (p := 2) (q := 0) (by decide) (fun i _ hf => by cases hf) (by decide) rfl)
  exact hfirst.handPage (unmanaged_of_free (q := 2) (by decide) (by decide +kernel) (by decide) (by decide))

/-! ## The representation invariant -/

/-- From every state of the invariant, every run keeps it: a head is linked in the list of its order, once, exactly when it
is free; blocks are aligned and in range; free and allocated blocks are disjoint and their interior frames are not marked
free; no two buddies below the largest order are both free; and the frames of blocks that are not allocated heads are
available and without references. -/
theorem buddy_invariant_preserved {m m' : Phys} {alloc alloc' : Nat → Option Nat} (h : BuddyInv m alloc)
    (hr : BuddyRun m alloc m' alloc') :
    (∀ k p, p ∈ m'.buddyFreeList k ↔ p < m'.npages ∧ (m'.pages p).ppFree = true ∧ (m'.pages p).ppOrder = k) ∧
    (∀ k, (m'.buddyFreeList k).Nodup) ∧
    (∀ p k, m'.Block alloc' p k → 2 ^ k ∣ p ∧ p + 2 ^ k ≤ m'.npages) ∧
    (∀ p k q j, m'.Block alloc' p k → m'.Block alloc' q j → (p = q ∧ k = j) ∨ Disjoint (blockSet p k) (blockSet q j)) ∧
    (∀ p k i, m'.Block alloc' p k → i ∈ blockSet p k → i ≠ p → (m'.pages i).ppFree = false) ∧
    (∀ p k, k < BUDDY_MAX_ORDER - 1 → ¬(m'.FreeBlock p k ∧ m'.FreeBlock (p ^^^ 2 ^ k) k)) ∧
    (∀ p k i, m'.Block alloc' p k → i ∈ blockSet p k → (i = p → m'.FreeBlock p k) →
      (m'.pages i).ppAvail = true ∧ (m'.pages i).ppRef = 0) := by
  have h' := h.run hr
  refine ⟨h'.linked, h'.nodup, fun p k hb => (h'.bounds p k hb).2, ?_, ?_, ?_, h'.idle⟩
  · intro p k q j hb hb'
    by_cases he : p = q ∧ k = j
    · exact .inl he
    · exact .inr (Set.disjoint_left.2 fun i hi hi' => he (h'.block_unique hb hb' hi hi'))
  · intro p k i hb hi hne
    rw [mem_blockSet] at hi
    exact h'.interior_not_free hb (by omega) hi.2
  · exact fun p k hk hf => h'.coalesced p k hk hf.1 hf.2

/-- One of two buddies is allocated, for which their block is split: the other one is free alone. When it is freed the two are
merged. -/
theorem buddy_invariant_preserved_pairPages : pairPages.buddyFreeList 1 = [2] ∧ (pairPages.pageAlloc 0).1 = some 2 ∧
    (pairPages.pageAlloc 0).2.FreeBlock 3 0 ∧ ¬(pairPages.pageAlloc 0).2.FreeBlock (3 ^^^ 2 ^ 0) 0 ∧
    ((pairPages.pageAlloc 0).2.pageFree 2).FreeBlock 2 1 := by
  have hfree : (pairPages.pageAlloc 0).2.FreeBlock 3 0 := ⟨by decide, by decide, by decide⟩
  have hsplit := buddy_invariant_preserved (BuddyInv.boot _ (by decide)) (pairPages_run.tail (.alloc _ _ 0))
  have hmerged := buddy_invariant_preserved (BuddyInv.boot _ (by decide)) ((pairPages_run.tail (.alloc _ _ 0)).tail
    (.free _ _ 2 0 (by decide) (by decide) (by decide)))
  exact ⟨by decide, by decide, hfree, fun hb => hsplit.2.2.2.2.2.1 3 0 (by decide) ⟨hfree, hb⟩, (hmerged.1 1 2).1 (by decide)⟩

/-- Frame 0 is allocated and frame 1 is free, but frame 1 carries a reference. -/
def strayRef : Phys where
  npages := 512
  pages := fun p =>
    { ppRef := if p = 1 then 1 else 0, ppOrder := 0, ppFree := p = 1, ppAvail := true, virtAddr := 0, owner := none }
  buddyFreeList := fun k => if k = 0 then [1] else []
  activePages := []
  bytes := fun _ _ => 0

/-- The shape of the blocks alone is not preserved: `buddy_merge` refuses a free buddy that carries a reference, so freeing
frame 0 leaves two free buddies of order 0. -/
theorem buddy_form_not_preserved :
    BuddyForm strayRef (fun p => if p = 0 then some 0 else none) ∧
      (strayRef.pages 0).ppRef = 0 ∧ (strayRef.pages 0).ppAvail = true ∧
      (strayRef.pageFree 0).FreeBlock 0 0 ∧ (strayRef.pageFree 0).FreeBlock (0 ^^^ 2 ^ 0) 0 := by
  have hfree : ∀ p k, strayRef.FreeBlock p k ↔ p = 1 ∧ k = 0 := by
    intro p k
    simp only [Phys.FreeBlock, strayRef, decide_eq_true_eq]
    omega
  have hblock : ∀ p k, strayRef.Block (fun p => if p = 0 then some 0 else none) p k → p ≤ 1 ∧ k = 0 := by
    rintro p k (hf | ha)
    · have := (hfree p k).1 hf
      omega
    · by_cases hp : p = 0
      · simp only [hp, if_true, Option.some.injEq] at ha
        omega
      · simp [hp] at ha
  refine ⟨⟨by decide, ?_, ?_, ?_, ?_, ?_, ?_⟩, by decide, by decide, ⟨by decide, by decide, by decide⟩,
    by decide, by decide, by decide⟩
  · intro k p
    rw [hfree]
    by_cases hk : k = 0 <;> simp [strayRef, hk]
  · intro k
    by_cases hk : k = 0 <;> simp [strayRef, hk]
  · intro p k ha
    by_cases hp : p = 0
    · subst hp
      cases ha
      exact ⟨by decide, by decide⟩
    · simp [hp] at ha
  · intro p k hb
    obtain ⟨hp, rfl⟩ := hblock p k hb
    have hn : strayRef.npages = 512 := rfl
    exact ⟨by decide, by simp, by omega⟩
  · intro p k q j hb hb'
    obtain ⟨hp, rfl⟩ := hblock p k hb
    obtain ⟨hq, rfl⟩ := hblock q j hb'
    omega
  · intro p k _ hf hf'
    obtain ⟨rfl, rfl⟩ := (hfree p k).1 hf
    exact absurd ((hfree _ 0).1 hf').1 (by decide)

/-! ## The set of free frames -/

/-- In every reachable state the allocator acts on its free frames as on a set: a request fails exactly when the set holds
no aligned run of its size, and then nothing changes; otherwise the block comes out of the set, and freeing it puts it
back; and the count of free pages is the size of the set. -/
theorem buddy_refines_free_set {m : Phys} {alloc : Nat → Option Nat} (hr : BuddyReachable m alloc) :
    ((m.pageAlloc 0).1 = none ↔ m.freeSet = ∅) ∧
    ((m.pageAlloc ALLOC_HUGE).1 = none ↔ ¬∃ q, 512 ∣ q ∧ ∀ i, q ≤ i → i < q + 512 → i ∈ m.freeSet) ∧
    (∀ allocFlags, (m.pageAlloc allocFlags).1 = none →
      (m.pageAlloc allocFlags).2.buddyFreeList = m.buddyFreeList ∧ (m.pageAlloc allocFlags).2 = m) ∧
    (∀ allocFlags p, (m.pageAlloc allocFlags).1 = some p →
      2 ^ Phys.reqOrder allocFlags ∣ p ∧ blockSet p (Phys.reqOrder allocFlags) ⊆ m.freeSet ∧
      (m.pageAlloc allocFlags).2.freeSet = m.freeSet \ blockSet p (Phys.reqOrder allocFlags) ∧
      ((m.pageAlloc allocFlags).2.pageFree p).freeSet = m.freeSet) ∧
    (∀ p k, alloc p = some k → (m.pages p).ppRef = 0 → (m.pages p).ppAvail = true →
      (m.pageFree p).freeSet = m.freeSet ∪ blockSet p k) ∧
    m.countTotalFreePages = m.freeSet.ncard := by
  have h := hr.inv
  refine ⟨?_, ?_, ?_, ?_, ?_, h.countTotalFreePages_ncard⟩
  · rw [h.pageAlloc_none_iff, Set.eq_empty_iff_forall_notMem]
    have hreq : Phys.reqOrder 0 = 0 := by decide
    rw [hreq]
    constructor
    · intro hrun i hi
      refine hrun i (by simp) (fun j hj => ?_)
      rw [mem_blockSet] at hj
      obtain rfl : j = i := by omega
      exact hi
    · intro hempty q _ hrun
      exact hempty q (hrun (mem_blockSet.2 (by omega)))
  · rw [h.pageAlloc_none_iff]
    have hreq : Phys.reqOrder ALLOC_HUGE = 9 := by decide
    rw [hreq]
    constructor
    · rintro hrun ⟨q, hq, hfree⟩
      exact hrun q hq (fun i hi => hfree i hi.1 hi.2)
    · intro hno q hq hrun
      exact hno ⟨q, hq, fun i hi hi' => hrun ⟨hi, hi'⟩⟩
  · intro allocFlags hnone
    have := (h.pageAlloc_none hnone).1
    exact ⟨by rw [this], this⟩
  · intro allocFlags p hsome
    have ha := h.pageAlloc_some hsome
    have hself : update alloc p (some (Phys.reqOrder allocFlags)) p = some (Phys.reqOrder allocFlags) := update_self _ _ _
    refine ⟨(ha.inv.bounds p _ (.inr hself)).2.1, ha.free, ha.freeSet, ?_⟩
    rw [(ha.inv.pageFree hself ha.idle).2.1, ha.freeSet, Set.sdiff_union_self, Set.union_eq_left.2 ha.free]
  · exact fun p k ha href havail => (h.pageFree ha ⟨havail, href⟩).2.1

/-- The block of two buddies is split for one of them, and merged when that one is freed. -/
theorem buddy_refines_free_set_pairPages : (pairPages.pageAlloc 0).1 = some 2 ∧
    (pairPages.pageAlloc 0).2.freeSet = pairPages.freeSet \ blockSet 2 0 ∧
    ((pairPages.pageAlloc 0).2.pageFree 2).freeSet = pairPages.freeSet ∧ 2 = pairPages.freeSet.ncard := by
  have hsome : (pairPages.pageAlloc 0).1 = some 2 := by decide
  obtain ⟨_, _, _, halloc, _, hcount⟩ := buddy_refines_free_set ⟨512, _, by decide, pairPages_run⟩
  obtain ⟨_, _, hout, hback⟩ := halloc 0 2 hsome
  exact ⟨hsome, hout, hback, hcount ▸ by decide⟩

end OpenLsd
