import OpenLsd.Lemmas.Lookup
import OpenLsd.Lemmas.Nodes

/-!
# The number of entries that map a frame

The references of a page table to a frame are the entries that map it, unless the frame is one of its page tables. Each entry
that maps memory is found at the first page that it maps, so that it can be counted there: the number of entries that map a
frame depends only on what the pages are translated to.
-/

namespace OpenLsd

open Finset Node

/-- Whether what is found for the page `g` is an entry for the frame `f` that has its first page there. -/
def startsAt (g f : Nat) : LookupInfo → Nat
  | some (p, e) => if p.base = pageAddr g ∧ e.frame = f then 1 else 0
  | none => 0

/-- The number of entries that map memory from the frame `f` on. -/
def leafEntries (t : Pml4) (f : Nat) : Nat := ∑ g ∈ range NPAGES, startsAt g f (translatePage t g)

/-! ## Sums over blocks -/

/-- A sum over blocks of one size. -/
theorem sum_blocks (F : Nat → Nat) (a b : Nat) : ∑ j ∈ range (a * b), F j = ∑ i ∈ range a, ∑ k ∈ range b, F (i * b + k) := by
  induction a with
  | zero => rw [Nat.zero_mul, sum_range_zero, sum_range_zero]
  | succ a ih => rw [Nat.add_one_mul, sum_range_add, sum_range_succ, ih]

/-- There are as many references as leaves, and more if and only if one is to a table. -/
def CountsLeaves (leaves refs : Nat) (table : Prop) : Prop := leaves ≤ refs ∧ (leaves < refs ↔ table)

theorem CountsLeaves.sum {n : Nat} {leaves refs : Nat → Nat} {table : Nat → Prop}
    (h : ∀ i < n, CountsLeaves (leaves i) (refs i) (table i)) :
    CountsLeaves (∑ i ∈ range n, leaves i) (∑ i ∈ range n, refs i) (∃ i < n, table i) := by
  have hle : ∀ i ∈ range n, leaves i ≤ refs i := fun i hi => (h i (mem_range.1 hi)).1
  refine ⟨sum_le_sum hle, fun hlt => ?_, fun ⟨i, hi, ht⟩ => sum_lt_sum hle ⟨i, mem_range.2 hi, (h i hi).2.2 ht⟩⟩
  by_contra hno
  have hsame : ∀ i ∈ range n, leaves i = refs i := fun i hi => by
    have hi := mem_range.1 hi
    exact le_antisymm (h i hi).1 (not_lt.1 fun hlt => hno ⟨i, hi, (h i hi).2.1 hlt⟩)
  exact absurd (sum_congr rfl hsame) (ne_of_lt hlt)

/-- A table adds a reference to its own frame. -/
theorem CountsLeaves.own {leaves refs p f : Nat} {table : Prop} (h : CountsLeaves leaves refs table) :
    CountsLeaves leaves ((Pi.single p 1 : Nat → Nat) f + refs) (p = f ∨ table) := by
  obtain ⟨hle, hlt⟩ := h
  by_cases hp : p = f
  · subst hp
    rw [Pi.single_eq_same]
    exact ⟨by omega, fun _ => .inl rfl, fun _ => by omega⟩
  · rw [Pi.single_eq_of_ne (Ne.symm hp), Nat.zero_add, CountsLeaves, or_iff_right hp]
    exact ⟨hle, hlt⟩

/-! ## The levels -/

section Levels

variable {c f p : Nat} {C : Type}

theorem counts_pte (g : Nat) (e : Entry) : CountsLeaves (startsAt g f (pteView g e)) (refs e f) (Table e f) := by
  have hrefs : startsAt g f (pteView g e) = refs e f := by
    show startsAt g f (if e.present = true then _ else _) = (if e.present = true then Pi.single e.frame 1 else 0 : Nat → Nat) f
    split
    · show (if Level.first .pte g = pageAddr g ∧ e.frame = f then 1 else 0) = (Pi.single e.frame 1 : Nat → Nat) f
      rw [Level.first, Level.pages, Nat.mul_one, Pi.single_apply]
      simp only [true_and, eq_comm]
    · rfl
  rw [hrefs]
  exact ⟨le_rfl, fun h => absurd h (lt_irrefl _), fun h => h.elim⟩

theorem counts_blocks [Node C] {view : Nat → C → LookupInfo} {view' : Nat → LookupInfo} {t : Nat → C}
    (hp : 0 < p) (hview : ∀ g i, i < 512 → g / p = c * 512 + i → view' g = view g (t i))
    (h : ∀ d i, d = c * 512 + i → i < 512 →
      CountsLeaves (∑ j ∈ range p, startsAt (d * p + j) f (view (d * p + j) (t i))) (refs (t i) f) (Table (t i) f)) :
    CountsLeaves (∑ j ∈ range (512 * p), startsAt (c * (512 * p) + j) f (view' (c * (512 * p) + j)))
      (tableRefs 512 t f) (∃ i < 512, Table (t i) f) := by
  have hsum : ∑ j ∈ range (512 * p), startsAt (c * (512 * p) + j) f (view' (c * (512 * p) + j)) =
      ∑ i ∈ range 512, ∑ j ∈ range p, startsAt ((c * 512 + i) * p + j) f (view ((c * 512 + i) * p + j) (t i)) := by
    rw [sum_blocks]
    refine sum_congr rfl fun i hi => sum_congr rfl fun j hj => ?_
    have hpage : c * (512 * p) + (i * p + j) = (c * 512 + i) * p + j := by
      rw [← Nat.mul_assoc, ← Nat.add_assoc, ← Nat.add_mul]
    have hdiv : ((c * 512 + i) * p + j) / p = c * 512 + i := by
      rw [Nat.mul_comm, Nat.mul_add_div hp, Nat.div_eq_of_lt (mem_range.1 hj), Nat.add_zero]
    rw [hpage, hview _ i (mem_range.1 hi) hdiv]
  rw [hsum, tableRefs, Finset.sum_apply]
  exact .sum fun i hi => h _ i rfl hi

/-- A PDE refers to the pages below it. -/
theorem counts_pde (hc : c * 512 + 511 < NPAGES) (e : Pde) :
    CountsLeaves (∑ j ∈ range 512, startsAt (c * 512 + j) f (pdeView (c * 512 + j) e)) (refs e f) (Table e f) := by
  by_cases hp : e.entry.present = true
  · have hfirst : ∀ j < 512, Level.first .pde ((c * 512 + j) / 512) = pageAddr (c * 512) := fun j hj => by
      rw [Level.first, Level.pages, Nat.mul_comm c, Nat.mul_add_div (by decide), Nat.div_eq_of_lt hj, Nat.add_zero, Nat.mul_comm]
    by_cases hh : e.entry.huge = true
    · -- A huge page is found at each of its pages, and is counted at the first.
      have hone : ∀ j ∈ range 512, startsAt (c * 512 + j) f (pdeView (c * 512 + j) e) =
          if j = 0 then (if e.entry.frame = f then 1 else 0) else 0 := by
        intro j hj
        have hj := mem_range.1 hj
        have hinj := pageAddr_inj (lt_of_le_of_lt (by omega : c * 512 ≤ c * 512 + 511) hc)
          (lt_of_le_of_lt (by omega : c * 512 + j ≤ c * 512 + 511) hc)
        rw [pdeView, if_pos hp, if_pos hh, startsAt, hfirst j hj]
        by_cases h0 : j = 0
        · rw [if_pos h0, h0]
          simp only [Nat.add_zero, true_and]
        · rw [if_neg h0, if_neg fun h => h0 (by have := hinj.1 h.1; omega)]
      have hrefs : refs e f = if e.entry.frame = f then 1 else 0 := by
        show (if e.entry.present = true then Pi.single e.entry.frame 1 + (if e.entry.huge = true then 0 else _) else 0 : Nat → Nat) f = _
        rw [if_pos hp, if_pos hh, add_zero, Pi.single_apply]
        simp only [eq_comm]
      rw [sum_congr rfl hone, sum_ite_eq' (range 512) 0, if_pos (mem_range.2 (by decide)), hrefs]
      refine ⟨le_rfl, fun h => absurd h (lt_irrefl _), fun h => ?_⟩
      have : e.entry.huge = false := h.2.1
      rw [hh] at this
      cases this
    · have hh : e.entry.huge = false := by simpa using hh
      have hview : ∀ g i, i < 512 → g / 1 = c * 512 + i → pdeView g e = pteView g (e.child i) := by
        intro g i hi hg
        rw [pdeView, if_pos hp, if_neg (by simp [hh]), show g % 512 = i by omega]
      have hcount := counts_blocks (f := f) (p := 1) (by decide) hview fun d i hd hi => by
        rw [sum_range_one, Nat.mul_one, Nat.add_zero]
        exact counts_pte d (e.child i)
      have hrefs : refs e f = (Pi.single e.entry.frame 1 : Nat → Nat) f + tableRefs 512 e.child f := by
        show (if e.entry.present = true then Pi.single e.entry.frame 1 + (if e.entry.huge = true then 0 else _) else 0 : Nat → Nat) f = _
        rw [if_pos hp, if_neg (by simp [hh])]
        rfl
      have htable : Table e f ↔ e.entry.frame = f ∨ ∃ i < 512, Table (e.child i) f :=
        ⟨fun h => .inl h.2.2, fun h => h.elim (fun hf => ⟨hp, hh, hf⟩) fun hi => hi.elim fun _ hi => hi.2.elim⟩
      rw [hrefs, CountsLeaves, htable]
      exact hcount.own
  · have hzero : ∀ j ∈ range 512, startsAt (c * 512 + j) f (pdeView (c * 512 + j) e) = 0 := fun j _ => by
      rw [pdeView, if_neg hp]
      rfl
    rw [sum_eq_zero hzero]
    have hrefs : refs e f = 0 := by
      show (if e.entry.present = true then _ else 0 : Nat → Nat) f = 0
      rw [if_neg hp]
      rfl
    rw [hrefs]
    exact ⟨le_rfl, fun h => absurd h (lt_irrefl _), fun h => absurd h.1 hp⟩

/-- A node refers to the pages below it. -/
theorem counts_branch [Node (Branch C)] (hp : 0 < p) {view : Nat → Branch C → LookupInfo}
    (e : Branch (Branch C))
    (h : ∀ i < 512, CountsLeaves (∑ j ∈ range p, startsAt ((c * 512 + i) * p + j) f (view ((c * 512 + i) * p + j) (e.child i)))
      (refs (e.child i) f) (Table (e.child i) f)) :
    CountsLeaves (∑ j ∈ range (512 * p), startsAt (c * (512 * p) + j) f
      (if e.entry.present = true then view (c * (512 * p) + j) (e.child ((c * (512 * p) + j) / p % 512)) else none))
      (refs e f) (Table e f) := by
  by_cases hpres : e.entry.present = true
  · have hview : ∀ g i, i < 512 → g / p = c * 512 + i →
        (if e.entry.present = true then view g (e.child (g / p % 512)) else none) = view g (e.child i) := by
      intro g i hi hg
      rw [if_pos hpres, hg, show (c * 512 + i) % 512 = i by omega]
    have hcount := counts_blocks hp hview fun d i hd hi => hd ▸ h i hi
    have hrefs : refs e f = (Pi.single e.entry.frame 1 : Nat → Nat) f + tableRefs 512 e.child f := by
      show (if e.entry.present = true then _ else 0 : Nat → Nat) f = _
      rw [if_pos hpres]
      rfl
    have htable : Table e f ↔ e.entry.frame = f ∨ ∃ i < 512, Table (e.child i) f :=
      ⟨fun h => h.2, fun h => ⟨hpres, h⟩⟩
    rw [hrefs, CountsLeaves, htable]
    exact hcount.own
  · have hzero : ∀ j ∈ range (512 * p), startsAt (c * (512 * p) + j) f
        (if e.entry.present = true then view (c * (512 * p) + j) (e.child ((c * (512 * p) + j) / p % 512)) else none) = 0 :=
      fun j _ => by
        rw [if_neg hpres]
        rfl
    have hrefs : refs e f = 0 := by
      show (if e.entry.present = true then _ else 0 : Nat → Nat) f = 0
      rw [if_neg hpres]
      rfl
    rw [sum_eq_zero hzero, hrefs]
    exact ⟨le_rfl, fun h => absurd h (lt_irrefl _), fun h => absurd h.1 hpres⟩

theorem counts_pdpte (hc : c * 262144 + 262143 < NPAGES) (e : Pdpte) :
    CountsLeaves (∑ j ∈ range 262144, startsAt (c * 262144 + j) f (pdpteView (c * 262144 + j) e)) (refs e f)
      (Table e f) :=
  counts_branch (p := 512) (by decide) e fun i hi =>
    counts_pde (lt_of_le_of_lt (by omega : (c * 512 + i) * 512 + 511 ≤ c * 262144 + 262143) hc) (e.child i)

theorem counts_pml4e (hc : c * 134217728 + 134217727 < NPAGES) (e : Pml4e) :
    CountsLeaves (∑ j ∈ range 134217728, startsAt (c * 134217728 + j) f (pml4eView (c * 134217728 + j) e)) (refs e f)
      (Table e f) :=
  counts_branch (p := 262144) (by decide) e fun i hi =>
    counts_pdpte (lt_of_le_of_lt (by omega : (c * 512 + i) * 262144 + 262143 ≤ c * 134217728 + 134217727) hc) (e.child i)

theorem counts_full (t : Pml4) : CountsLeaves (leafEntries t f) (refs (FullTable.mk t) f) (Table (FullTable.mk t) f) := by
  have hview : ∀ g i, i < 512 → g / 134217728 = 0 * 512 + i → translatePage t g = pml4eView g (t i) := by
    intro g i hi hg
    rw [translatePage, hg, show (0 * 512 + i) % 512 = i by omega]
  have hcount := counts_blocks (f := f) (by decide) hview fun d i hd hi => counts_pml4e (by
    subst hd
    rw [NPAGES]
    omega) (t i)
  have hsum : leafEntries t f = ∑ j ∈ range (512 * 134217728), startsAt (0 * (512 * 134217728) + j) f
      (translatePage t (0 * (512 * 134217728) + j)) := by
    rw [leafEntries, show 512 * 134217728 = NPAGES by decide, Nat.zero_mul]
    exact sum_congr rfl fun j _ => by rw [Nat.zero_add]
  rw [hsum]
  exact hcount

end Levels

/-! ## What is counted -/

section Counted

variable {keep alloc : Orders} {ext : Nat → Nat} {m : Phys} {t : Pml4} {f g : Nat} {x : EntryPtr × Entry}

/-- The count of a frame that is no page table is the number of entries that map it, with the references of others. -/
theorem Acc.ppRef_eq (h : Acc keep ext alloc m (FullTable.mk t)) (hf : ¬Table (FullTable.mk t) f) :
    (m.pages f).ppRef = ext f + leafEntries t f := by
  obtain ⟨hle, hlt⟩ := counts_full (f := f) t
  rw [h.ledger.counted, Pi.add_apply, le_antisymm hle (not_lt.1 fun h => hf (hlt.1 h))]

/-- What is found at a page is found at the first page that the entry maps. -/
theorem translatePage_first (hx : translatePage t g = some x) :
    ∃ g0, translatePage t g0 = some x ∧ x.1.base = pageAddr g0 ∧ g0 / 512 = g / 512 ∧ g0 ≤ g ∧ (x.1.pde = false → g0 = g) := by
  have hblock : g / 512 * 512 / 512 = g / 512 := Nat.mul_div_cancel _ (by decide)
  rcases (pdeView_cases (translatePage_some.1 hx).2.2).2 with ⟨-, rfl⟩ | ⟨-, -, rfl⟩
  · exact ⟨g / 512 * 512, translatePage_block hx rfl hblock, rfl, hblock, Nat.div_mul_le_self _ _, nofun⟩
  · refine ⟨g, hx, ?_, rfl, le_rfl, fun _ => rfl⟩
    show pageAddr (g * 1) = pageAddr g
    rw [Nat.mul_one]

theorem leafEntries_pos (hg : g < NPAGES) (hx : translatePage t g = some x) : 0 < leafEntries t x.2.frame := by
  obtain ⟨g0, hx0, hbase, -, hle, -⟩ := translatePage_first hx
  have hone : startsAt g0 x.2.frame (translatePage t g0) = 1 := by
    rw [hx0]
    exact if_pos ⟨hbase, rfl⟩
  have hle : startsAt g0 x.2.frame (translatePage t g0) ≤ leafEntries t x.2.frame :=
    single_le_sum (f := fun g => startsAt g x.2.frame (translatePage t g)) (fun _ _ => Nat.zero_le _)
      (mem_range.2 (lt_of_le_of_lt hle hg))
  omega

theorem Acc.leaf_not_table (h : Acc keep ext alloc m (FullTable.mk t)) (hg : g < NPAGES)
    (hx : translatePage t g = some x) : ¬Table (FullTable.mk t) x.2.frame := by
  intro ht
  have hone := (fits_table h.fits ht).2.2
  have hlt := (counts_full (f := x.2.frame) t).2.2 ht
  have hpos := leafEntries_pos hg hx
  rw [h.ledger.counted, Pi.add_apply] at hone
  omega

theorem Acc.leaf_alloc (h : Acc keep ext alloc m (FullTable.mk t)) (hx : translatePage t g = some x) :
    alloc x.2.frame = some (if x.1.pde then BUDDY_2M_PAGE else BUDDY_4K_PAGE) := by
  obtain ⟨h4, h3, h2⟩ := translatePage_some.1 hx
  have hlt : ∀ n, n % 512 < PAGE_TABLE_ENTRIES := fun n => Nat.mod_lt _ (by decide)
  have hfits3 := (h.fits _ (hlt (g / 134217728)) h4).2 _ (hlt (g / 262144))
  rw [← show pdpteAt t (g / 262144) = (t (g / 134217728 % 512)).child (g / 262144 % 512) by
    rw [pdpteAt, pml4eAt, Nat.div_div_eq_div_mul]] at hfits3
  have hfits2 := (hfits3 h3).2 _ (hlt (g / 512))
  rw [← show pdeAt t (g / 512) = (pdpteAt t (g / 262144)).child (g / 512 % 512) by rw [pdeAt, Nat.div_div_eq_div_mul]] at hfits2
  obtain ⟨hp, ⟨hh, rfl⟩ | ⟨hh, hpte, rfl⟩⟩ := pdeView_cases h2
  · exact ((hfits2 hp).1 hh).1
  · exact (((hfits2 hp).2 hh).2 _ (hlt g) hpte).1

end Counted

end OpenLsd
