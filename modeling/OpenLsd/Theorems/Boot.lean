import OpenLsd.Mem.Boot

/-!
# Aligning the memory map

Free memory is to shrink to whole pages and all other memory to grow to whole pages. The length of a free region that no page
begins or ends in is computed by a subtraction that wraps, and so is that of other memory that reaches from the first page to the
last one.
-/

namespace OpenLsd

namespace MmapEntry

variable {e f : MmapEntry}

/-- The region of the entry is within the 64-bit addresses. -/
structure Fits (e : MmapEntry) : Prop where
  addr : e.addr < 2 ^ 64
  len : e.len < 2 ^ 64
  sum : e.addr + e.len ≤ 2 ^ 64

/-- The region has the address. -/
def Has (e : MmapEntry) (a : Nat) : Prop := e.addr ≤ a ∧ a < e.addr + e.len

def Disjoint (e f : MmapEntry) : Prop := ∀ a, ¬(e.Has a ∧ f.Has a)

/-- What is wanted of an entry and of what it is aligned to. -/
structure Conservative (e e' : MmapEntry) : Prop where
  addr : pageAligned e'.addr
  len : pageAligned e'.len
  sum : e'.addr + e'.len ≤ 2 ^ 64
  free : e.type = MMAP_FREE → ∀ a, e'.Has a → e.Has a
  other : e.type ≠ MMAP_FREE → ∀ a, e.Has a → e'.Has a

/-- A page begins or ends in free memory, and other memory does not reach from the first page to the last one. -/
def Alignable (e : MmapEntry) : Prop :=
  (e.type = MMAP_FREE → ∃ n, e.addr ≤ n * PAGE_SIZE ∧ n * PAGE_SIZE ≤ e.addr + e.len) ∧
  (e.type ≠ MMAP_FREE → PAGE_SIZE ≤ e.addr ∨ e.addr + e.len ≤ 2 ^ 64 - PAGE_SIZE)

/-- Free memory with a whole page in which other memory of no bytes begins. -/
def Encloses (e f : MmapEntry) : Prop :=
  e.type = MMAP_FREE ∧ f.type ≠ MMAP_FREE ∧ f.len = 0 ∧ ¬pageAligned f.addr ∧
    e.addr ≤ roundDown f.addr ∧ roundDown f.addr + PAGE_SIZE ≤ e.addr + e.len

/-! ## The bounds of an aligned entry -/

theorem add64_sub64_sub64 (base addr len : Nat) : add64 base (sub64 len (sub64 base addr)) = add64 addr len := by
  simp only [add64, sub64]
  omega

theorem add64_add64_sub64 (base addr len : Nat) : add64 base (add64 len (sub64 addr base)) = add64 addr len := by
  simp only [add64, sub64]
  omega

theorem sub64_mod {a b : Nat} (hb : b ≤ 2 ^ 64) : sub64 (a % 2 ^ 64) (b % 2 ^ 64) = (a + 2 ^ 64 - b) % 2 ^ 64 := by
  simp only [sub64]
  omega

theorem roundDown_mod (a : Nat) : roundDown (a % 2 ^ 64) = roundDown a % 2 ^ 64 := by
  simp only [roundDown, PAGE_SIZE]
  omega

theorem align_free (h : e.Fits) (hfree : e.type = MMAP_FREE) : ∃ i j, (e.addr ≤ 4096 * i ∧ 4096 * i < e.addr + 4096) ∧
    (4096 * j ≤ e.addr + e.len ∧ e.addr + e.len < 4096 * j + 4096) ∧ e.align.addr = 4096 * i % 2 ^ 64 ∧
      e.align.len = (4096 * j + 2 ^ 64 - 4096 * i) % 2 ^ 64 := by
  obtain ⟨h1, h2, h3⟩ := h
  refine ⟨(e.addr + 4095) / 4096, (e.addr + e.len) / 4096, by omega, by omega, ?_⟩
  have hlow : roundUp e.addr = roundDown (e.addr + 4095) % 2 ^ 64 := roundDown_mod _
  simp only [align, hfree, if_true]
  rw [add64_sub64_sub64, add64, roundDown_mod, hlow, sub64_mod (by simp only [roundDown, PAGE_SIZE]; omega)]
  simp only [roundDown, PAGE_SIZE, Nat.mul_comm]
  trivial

theorem align_other (h : e.Fits) (hother : e.type ≠ MMAP_FREE) : ∃ i j, (4096 * i ≤ e.addr ∧ e.addr < 4096 * i + 4096) ∧
    (e.addr + e.len ≤ 4096 * j ∧ 4096 * j < e.addr + e.len + 4096) ∧ e.align.addr = 4096 * i ∧
      e.align.len = (4096 * j + 2 ^ 64 - 4096 * i) % 2 ^ 64 := by
  obtain ⟨h1, h2, h3⟩ := h
  refine ⟨e.addr / 4096, (e.addr + e.len + 4095) / 4096, by omega, by omega, ?_⟩
  have hhigh : roundUp (add64 e.addr e.len) = roundDown (e.addr + e.len + 4095) % 2 ^ 64 := by
    rw [← roundDown_mod, roundUp, add64, add64, Nat.mod_add_mod]
    rfl
  simp only [align, hother, if_false]
  have hlow : roundDown e.addr = roundDown e.addr % 2 ^ 64 := by rw [← roundDown_mod, Nat.mod_eq_of_lt h1]
  rw [add64_add64_sub64, hhigh]
  refine ⟨by simp only [roundDown, PAGE_SIZE, Nat.mul_comm], ?_⟩
  rw [hlow, sub64_mod (by simp only [roundDown, PAGE_SIZE]; omega)]
  simp only [roundDown, PAGE_SIZE, Nat.mul_comm]

/-! ## Single entries -/

theorem alignable_free {i j : Nat} (hfree : e.type = MMAP_FREE) (hi : e.addr ≤ 4096 * i ∧ 4096 * i < e.addr + 4096)
    (hj : 4096 * j ≤ e.addr + e.len ∧ e.addr + e.len < 4096 * j + 4096) : e.Alignable ↔ i ≤ j := by
  simp only [Alignable, hfree, ne_eq, not_true_eq_false, false_implies, and_true, true_implies, PAGE_SIZE]
  refine ⟨fun ⟨n, h1, h2⟩ => by omega, fun h => ⟨i, by omega, by omega⟩⟩

/-- A free entry has the pages that it had as a whole. -/
theorem has_free (h : e.Fits) (hfree : e.type = MMAP_FREE) (ha : e.Alignable) : ∃ i j,
    (e.addr ≤ 4096 * i ∧ 4096 * i < e.addr + 4096) ∧ (4096 * j ≤ e.addr + e.len ∧ e.addr + e.len < 4096 * j + 4096) ∧
      ∀ a, e.align.Has a ↔ 4096 * i ≤ a ∧ a < 4096 * j := by
  obtain ⟨i, j, hi, hj, haddr, hlen⟩ := align_free h hfree
  have hij := (alignable_free hfree hi hj).1 ha
  have hfits := h.sum
  have := h.len
  refine ⟨i, j, hi, hj, fun a => ?_⟩
  rw [Has, haddr, hlen]
  omega

theorem has_other (h : e.Fits) (hother : e.type ≠ MMAP_FREE) (ha : e.Alignable) : ∃ i j,
    (4096 * i ≤ e.addr ∧ e.addr < 4096 * i + 4096) ∧ (e.addr + e.len ≤ 4096 * j ∧ 4096 * j < e.addr + e.len + 4096) ∧
      ∀ a, e.align.Has a ↔ 4096 * i ≤ a ∧ a < 4096 * j := by
  obtain ⟨i, j, hi, hj, haddr, hlen⟩ := align_other h hother
  have hij := ha.2 hother
  have hfits := h.sum
  have := h.addr
  refine ⟨i, j, hi, hj, fun a => ?_⟩
  rw [Has, haddr, hlen]
  simp only [PAGE_SIZE] at hij
  omega

theorem conservative_iff (h : e.Fits) : e.Conservative e.align ↔ e.Alignable := by
  by_cases hfree : e.type = MMAP_FREE
  · obtain ⟨i, j, hi, hj, haddr, hlen⟩ := align_free h hfree
    obtain ⟨h1, h2, h3⟩ := h
    rw [alignable_free hfree hi hj]
    constructor
    · intro hc
      by_contra hij
      have := hc.free hfree (e.align.addr + 4096)
      simp only [Has, haddr, hlen] at this
      omega
    · intro hij
      refine ⟨?_, ?_, ?_, fun _ a => ?_, fun hn => absurd hfree hn⟩
      all_goals simp only [pageAligned, Has, haddr, hlen, PAGE_SIZE]; omega
  · obtain ⟨i, j, hi, hj, haddr, hlen⟩ := align_other h hfree
    obtain ⟨h1, h2, h3⟩ := h
    constructor
    · intro hc
      refine ⟨fun hf => absurd hf hfree, fun _ => ?_⟩
      have := hc.other hfree e.addr
      simp only [Has, haddr, hlen, PAGE_SIZE] at this ⊢
      omega
    · intro ha
      have hij := ha.2 hfree
      refine ⟨?_, ?_, ?_, fun hf => absurd hf hfree, fun _ a => ?_⟩
      all_goals simp only [pageAligned, Has, haddr, hlen, PAGE_SIZE] at hij ⊢; omega

/-! ## Two entries -/

/-- Free memory and an entry that it is apart from. A page that both have afterwards is one in which the other entry has nothing. -/
theorem disjoint_align (he : e.Fits) (hf : f.Fits) (ae : e.Alignable) (af : f.Alignable) (hfree : e.type = MMAP_FREE)
    (hd : e.Disjoint f) : e.align.Disjoint f.align ↔ ¬e.Encloses f := by
  obtain ⟨i, j, hi, hj, hhas⟩ := has_free he hfree ae
  by_cases hff : f.type = MMAP_FREE
  · refine iff_of_true (fun a ha => hd a ⟨?_, ?_⟩) fun hn => hn.2.1 hff
    · exact ((conservative_iff he).2 ae).free hfree a ha.1
    · exact ((conservative_iff hf).2 af).free hff a ha.2
  obtain ⟨k, l, hk, hl, hhas'⟩ := has_other hf hff af
  simp only [Disjoint, hhas, hhas', Encloses, hfree, hff, ne_eq, not_false_eq_true, true_and, pageAligned, roundDown, PAGE_SIZE]
  constructor
  · rintro hdis ⟨hlen, hal, h1, h2⟩
    have := hdis (4096 * k)
    omega
  · intro hn a ha
    by_cases hlen : f.len = 0
    · refine hn ⟨hlen, ?_, ?_, ?_⟩ <;> omega
    · have := hd (max f.addr (a / 4096 * 4096))
      simp only [Has] at this
      omega

end MmapEntry

open MmapEntry

/-- The memory map is aligned as it should be: every entry on its own, and free memory stays apart from all that it was apart from.
The entries are paired with what they become. -/
def AlignsWell (mmap : List MmapEntry) : Prop :=
  ∀ x ∈ mmap.zip (alignBootInfo mmap), x.1.Conservative x.2 ∧
    ∀ y ∈ mmap.zip (alignBootInfo mmap), x.1.type = MMAP_FREE → x.1.Disjoint y.1 → x.2.Disjoint y.2

/-- The memory maps that `align_boot_info` aligns as it should are those in which a page begins or ends in every free region, no
other region reaches from the first page to the last, and none of no bytes is inside a page of a free region. -/
theorem alignBootInfo_conservative_iff {mmap : List MmapEntry} (h : ∀ e ∈ mmap, e.Fits) :
    AlignsWell mmap ↔ ∀ e ∈ mmap, e.Alignable ∧ ∀ f ∈ mmap, ¬e.Encloses f := by
  rw [AlignsWell, alignBootInfo, ← List.map_prod_left_eq_zip]
  simp only [List.forall_mem_map]
  constructor
  · intro hw e he
    refine ⟨(conservative_iff (h e he)).1 (hw e he).1, fun f hf hn => ?_⟩
    have hd : e.Disjoint f := fun a ha => by
      have hlen := hn.2.2.1
      have hin := ha.2
      simp only [Has] at hin
      omega
    exact (disjoint_align (h e he) (h f hf) ((conservative_iff (h e he)).1 (hw e he).1) ((conservative_iff (h f hf)).1 (hw f hf).1)
      hn.1 hd).1 ((hw e he).2 f hf hn.1 hd) hn
  · intro ha e he
    refine ⟨(conservative_iff (h e he)).2 (ha e he).1, fun f hf hfree hd => ?_⟩
    exact (disjoint_align (h e he) (h f hf) (ha e he).1 (ha f hf).1 hfree hd).2 ((ha e he).2 f hf)

/-- A free region and a reserved one, neither of them on page boundaries. -/
theorem alignBootInfo_conservative_two : AlignsWell [⟨0x1001, 0x5000, MMAP_FREE⟩, ⟨0x6001, 0x10, 2⟩] := by
  refine (alignBootInfo_conservative_iff fun e he => ?_).2 fun e he => ?_
  · simp only [List.mem_cons, List.not_mem_nil, or_false] at he
    rcases he with rfl | rfl <;> exact ⟨by decide, by decide, by decide⟩
  · simp only [List.mem_cons, List.not_mem_nil, or_false, forall_eq_or_imp, forall_eq] at he ⊢
    rcases he with rfl | rfl
    · exact ⟨⟨fun _ => ⟨2, by decide, by decide⟩, fun hn => absurd rfl hn⟩, fun hn => hn.2.1 rfl, fun hn => (nomatch hn.2.2.1)⟩
    · exact ⟨⟨fun hf => (nomatch hf), fun _ => .inl (by decide)⟩, fun hn => (nomatch hn.1), fun hn => (nomatch hn.1)⟩

/-- A free region of five bytes becomes one of nearly all addresses. -/
theorem alignBootInfo_grows : (⟨0x1001, 5, MMAP_FREE⟩ : MmapEntry).Fits ∧
    alignBootInfo [⟨0x1001, 5, MMAP_FREE⟩] = [⟨0x2000, 2 ^ 64 - 0x1000, MMAP_FREE⟩] ∧ ¬AlignsWell [⟨0x1001, 5, MMAP_FREE⟩] := by
  refine ⟨⟨by decide, by decide, by decide⟩, by decide, fun hw => ?_⟩
  have := (hw (⟨0x1001, 5, MMAP_FREE⟩, ⟨0x2000, 2 ^ 64 - 0x1000, MMAP_FREE⟩) (by decide)).1.sum
  simp at this

end OpenLsd
