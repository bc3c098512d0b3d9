import OpenLsd.Lemmas.Stores

/-!
# Frames that are mapped once

What follows when page tables have at most one reference to a frame: one entry maps it, no table of theirs lies in it, and
the pages that it is mapped at are those of one entry. The frames that pages are mapped to stay when an entry is written to
that keeps its frame.
-/

namespace OpenLsd

open Outcome Function Node

/-! ## Two references -/

section Tables

variable {C W : Type} [Node C] [Node W] {mk : (Nat → C) → W} {n i j f : Nat} {own : Option Nat} {t : Nat → C}

theorem two_le_tableRefs (hi : i < n) (hj : j < n) (hij : i ≠ j) (hti : 0 < refs (t i) f) (htj : 0 < refs (t j) f) :
    2 ≤ tableRefs n t f := by
  have h := congrFun (tableRefs_eq hi t) f
  have hle := le_otherRefs hj (Ne.symm hij) t f
  rw [Pi.add_apply] at h
  omega

theorem HoldsTable.le_refs (h : HoldsTable mk n own) (hi : i < n) : Node.refs (t i) f ≤ Node.refs (mk t) f := by
  rw [h.refs, Pi.add_apply]
  exact le_trans (le_tableRefs hi t f) (Nat.le_add_left _ _)

theorem HoldsTable.two_le (h : HoldsTable mk n own) (hi : i < n) (hj : j < n) (hij : i ≠ j) (hti : 0 < Node.refs (t i) f)
    (htj : 0 < Node.refs (t j) f) : 2 ≤ Node.refs (mk t) f := by
  rw [h.refs, Pi.add_apply]
  exact le_trans (two_le_tableRefs hi hj hij hti htj) (Nat.le_add_left _ _)

/-- A frame that an entry below refers to and that is taken for a page table elsewhere has two references. -/
theorem HoldsTable.table_two_le (h : HoldsTable mk n own) (hi : i < n) (hti : 0 < Node.refs (t i) f)
    (hchild : Node.Table (t i) f → 2 ≤ Node.refs (t i) f) (ht : Node.Table (mk t) f) : 2 ≤ Node.refs (mk t) f := by
  rcases (h.table t f).1 ht with hown | ⟨j, hj, htj⟩
  · have hle := le_tableRefs hi t f
    rw [h.refs, hown, Pi.add_apply, Option.elim_some, Pi.single_eq_same]
    omega
  · by_cases hij : i = j
    · subst hij
      exact le_trans (hchild htj) (h.le_refs hi)
    · exact h.two_le hi hj hij hti (table_refs htj)

end Tables

/-! ## The entry of a page -/

section Path

variable {t : Pml4} {g g' f : Nat} {pde pde' : Pde}

theorem user_index_lt (hg : g < 2 ^ 35) : g / 2 ^ 27 % 512 < KERNEL_INDEX := by
  rw [show KERNEL_INDEX = 256 from rfl]
  omega

theorem PathTo.holds (h : PathTo t g pde) :
    HoldsTable (Branch.mk (C := Pdpte) (t (g / 2 ^ 27 % 512)).entry) PAGE_TABLE_ENTRIES (some (t (g / 2 ^ 27 % 512)).entry.frame) ∧
    HoldsTable (Branch.mk (C := Pde) ((t (g / 2 ^ 27 % 512)).child (g / 2 ^ 18 % 512)).entry) PAGE_TABLE_ENTRIES
      (some ((t (g / 2 ^ 27 % 512)).child (g / 2 ^ 18 % 512)).entry.frame) :=
  ⟨holds_branch (by decide) h.pml4e, holds_branch (by decide) h.pdpte⟩

theorem index_lt (x : Nat) : x % 512 < PAGE_TABLE_ENTRIES := Nat.mod_lt _ (by decide)

/-- A frame that the PDE refers to has a reference at each level. -/
theorem PathTo.le_refs (hg : g < 2 ^ 35) (h : PathTo t g pde) (f : Nat) :
    refs pde f ≤ refs ((t (g / 2 ^ 27 % 512)).child (g / 2 ^ 18 % 512)) f ∧
    refs ((t (g / 2 ^ 27 % 512)).child (g / 2 ^ 18 % 512)) f ≤ refs (t (g / 2 ^ 27 % 512)) f ∧
    refs (t (g / 2 ^ 27 % 512)) f ≤ refs t f := by
  obtain ⟨h4, h3⟩ := h.holds
  refine ⟨?_, h4.le_refs (t := (t (g / 2 ^ 27 % 512)).child) (index_lt _), holds_pml4.le_refs (user_index_lt hg)⟩
  rw [← h.pde]
  exact h3.le_refs (t := ((t (g / 2 ^ 27 % 512)).child (g / 2 ^ 18 % 512)).child) (index_lt _)

theorem PathTo.eq_of_block (h : PathTo t g pde) (h' : PathTo t g' pde') (hblock : g / 512 = g' / 512) : pde = pde' := by
  rw [← h.pde, ← h'.pde, show g / 2 ^ 27 = g' / 2 ^ 27 by omega, show g / 2 ^ 18 = g' / 2 ^ 18 by omega, hblock]

/-- Two PDEs that refer to a frame with at most one reference are the same. -/
theorem PathTo.same_block (hg : g < 2 ^ 35) (hg' : g' < 2 ^ 35) (h : PathTo t g pde) (h' : PathTo t g' pde')
    (hf : 0 < refs pde f) (hf' : 0 < refs pde' f) (hone : refs t f ≤ 1) : g / 512 = g' / 512 := by
  obtain ⟨h1, h2, h3⟩ := h.le_refs hg f
  obtain ⟨h1', h2', h3'⟩ := h'.le_refs hg' f
  obtain ⟨hold4, hold3⟩ := h.holds
  have hi4 : g / 2 ^ 27 % 512 = g' / 2 ^ 27 % 512 := by
    by_contra hne
    have := holds_pml4.two_le (t := t) (f := f) (user_index_lt hg) (user_index_lt hg') hne (by omega) (by omega)
    omega
  rw [← hi4] at h1' h2' h3'
  have hi3 : g / 2 ^ 18 % 512 = g' / 2 ^ 18 % 512 := by
    by_contra hne
    have := hold4.two_le (t := (t (g / 2 ^ 27 % 512)).child) (f := f) (index_lt _) (index_lt _) hne (by omega) (by omega)
    have hle : 2 ≤ refs (t (g / 2 ^ 27 % 512)) f := this
    omega
  have hi2 : g / 512 % 512 = g' / 512 % 512 := by
    by_contra hne
    have hp := h.pde
    have hp' := h'.pde
    rw [← hi4, ← hi3] at hp'
    have := hold3.two_le (t := ((t (g / 2 ^ 27 % 512)).child (g / 2 ^ 18 % 512)).child) (f := f) (index_lt _) (index_lt _) hne
      (by rw [hp]; exact hf) (by rw [hp']; exact hf')
    have hle : 2 ≤ refs ((t (g / 2 ^ 27 % 512)).child (g / 2 ^ 18 % 512)) f := this
    omega
  omega

end Path

/-! ## Leaves -/

section Leaves

variable {t : Pml4} {va va' i : Nat} {x x' : Bool × Entry} {pde : Pde}

theorem leaf_refs (hp : pde.entry.present = true) (hi : i < PAGE_TABLE_ENTRIES)
    (hx : if x.1 = true then pde.entry.huge = true ∧ pde.entry = x.2
      else pde.entry.huge = false ∧ pde.child i = x.2 ∧ x.2.present = true) :
    0 < refs pde x.2.frame ∧ (Table pde x.2.frame → 2 ≤ refs pde x.2.frame) := by
  split at hx
  · obtain ⟨hh, he⟩ := hx
    refine ⟨?_, fun ht => ?_⟩
    · rw [refs_huge hp hh, he, Pi.single_eq_same]
      exact Nat.one_pos
    · have := ht.2.1
      rw [hh] at this
      cases this
  · obtain ⟨hh, he, hpe⟩ := hx
    obtain ⟨e, kids⟩ := pde
    have hold := holds_pde hp hh
    have hpos : 0 < refs (kids i) x.2.frame := by
      rw [show kids i = x.2 from he, refs_entry hpe, Pi.single_eq_same]
      exact Nat.one_pos
    exact ⟨lt_of_lt_of_le hpos (hold.le_refs hi), hold.table_two_le hi hpos False.elim⟩

theorem leaf_huge (hx : if x.1 = true then pde.entry.huge = true ∧ pde.entry = x.2
    else pde.entry.huge = false ∧ pde.child i = x.2 ∧ x.2.present = true) : pde.entry.huge = x.1 := by
  cases h : x.1
  · rw [if_neg (by simp [h])] at hx
    exact hx.1
  · rw [if_pos h] at hx
    exact hx.1

/-- The pages of a block are mapped by one PDE, or by PTEs. -/
theorem lookup_same_block (hva : va < USER_LIM) (hva' : va' < USER_LIM) (hl : lookup t va = some x) (hl' : lookup t va' = some x')
    (hblock : va / PAGE_SIZE / 512 = va' / PAGE_SIZE / 512) : x.1 = x'.1 := by
  obtain ⟨pde, hpath, _, hx⟩ := lookup_path hva hl
  obtain ⟨pde', hpath', _, hx'⟩ := lookup_path hva' hl'
  obtain rfl := hpath.eq_of_block hpath' hblock
  exact (leaf_huge hx).symm.trans (leaf_huge hx')

/-- The order of the page that an entry maps, and whether that is a PDE. -/
def leafOrder (pde : Bool) : Nat := if pde then BUDDY_2M_PAGE else BUDDY_4K_PAGE

/-- What an entry maps is a page of its own. -/
theorem lookup_fits {keep alloc : Orders} {m : Phys} (h : Fits keep alloc m t) (hva : va < USER_LIM)
    (hl : lookup t va = some x) : alloc x.2.frame = some (leafOrder x.1) ∧ keep x.2.frame = none := by
  obtain ⟨pde, hpath, hp, hx⟩ := lookup_path hva hl
  have hfits := ((h _ (user_index_lt (user_page_lt hva)) hpath.pml4e).2 _ (index_lt _) hpath.pdpte).2 _ (index_lt (va / PAGE_SIZE / 512))
  rw [hpath.pde] at hfits
  obtain ⟨hhuge, htable⟩ := hfits hp
  cases h1 : x.1
  · rw [if_neg (by simp [h1])] at hx
    rw [← hx.2.1]
    exact (htable hx.1).2 _ (index_lt _) (hx.2.1 ▸ hx.2.2)
  · rw [if_pos h1] at hx
    rw [← hx.2]
    exact hhuge hx.1

theorem lookup_refs_pos (hva : va < USER_LIM) (hl : lookup t va = some x) : 0 < refs t x.2.frame := by
  obtain ⟨pde, hpath, hp, hx⟩ := lookup_path hva hl
  obtain ⟨h1, h2, h3⟩ := hpath.le_refs (user_page_lt hva) x.2.frame
  have := (leaf_refs hp (index_lt _) hx).1
  omega

/-- A frame that a page is mapped to is no page table of theirs if they refer to it once. -/
theorem lookup_not_table (hva : va < USER_LIM) (hl : lookup t va = some x) (hone : refs t x.2.frame ≤ 1) :
    ¬Table t x.2.frame := by
  obtain ⟨pde, hpath, hp, hx⟩ := lookup_path hva hl
  obtain ⟨h1, h2, h3⟩ := hpath.le_refs (user_page_lt hva) x.2.frame
  obtain ⟨hpos, htwo⟩ := leaf_refs hp (index_lt _) hx
  obtain ⟨hold4, hold3⟩ := hpath.holds
  intro ht
  have := holds_pml4.table_two_le (t := t) (user_index_lt (user_page_lt hva)) (by omega) (fun ht4 =>
    hold4.table_two_le (t := (t _).child) (index_lt _) (by omega) (fun ht3 =>
      hold3.table_two_le (t := ((t _).child _).child) (index_lt _) (by rw [hpath.pde]; omega)
        (by rw [hpath.pde]; exact htwo) ht3) ht4) ht
  omega

/-- Two pages that are mapped to a frame with one reference are mapped by one entry. -/
theorem lookup_unique (hva : va < USER_LIM) (hva' : va' < USER_LIM) (hl : lookup t va = some x) (hl' : lookup t va' = some x')
    (hf : x.2.frame = x'.2.frame) (hone : refs t x.2.frame ≤ 1) :
    va / PAGE_SIZE / 512 = va' / PAGE_SIZE / 512 ∧ x.1 = x'.1 ∧ (x.1 = false → va / PAGE_SIZE = va' / PAGE_SIZE) := by
  have hg := user_page_lt hva
  have hg' := user_page_lt hva'
  obtain ⟨pde, hpath, hp, hx⟩ := lookup_path hva hl
  obtain ⟨pde', hpath', hp', hx'⟩ := lookup_path hva' hl'
  have hpos := (leaf_refs hp (index_lt _) hx).1
  have hpos' := (leaf_refs hp' (index_lt _) hx').1
  have hblock := hpath.same_block hg hg' hpath' hpos (hf ▸ hpos') hone
  obtain rfl := hpath.eq_of_block hpath' hblock
  obtain ⟨h1, h2, h3⟩ := hpath.le_refs hg x.2.frame
  have hhuge : pde.entry.huge = x.1 := leaf_huge hx
  have hhuge' : pde.entry.huge = x'.1 := leaf_huge hx'
  refine ⟨hblock, hhuge.symm.trans hhuge', fun hfalse => ?_⟩
  rw [if_neg (by simp [hfalse])] at hx
  rw [if_neg (by simp [← hhuge', hhuge, hfalse])] at hx'
  by_contra hne
  have hmod : va / PAGE_SIZE % 512 ≠ va' / PAGE_SIZE % 512 := by omega
  obtain ⟨e, kids⟩ := pde
  have htwo : 2 ≤ refs (⟨e, kids⟩ : Pde) x.2.frame :=
    (holds_pde hp hx.1).two_le (t := kids) (index_lt _) (index_lt _) hmod
      (by rw [show kids _ = x.2 from hx.2.1, refs_entry hx.2.2, Pi.single_eq_same]; exact Nat.one_pos)
      (by rw [show kids _ = x'.2 from hx'.2.1, refs_entry hx'.2.2, hf, Pi.single_eq_same]; exact Nat.one_pos)
  omega

end Leaves

/-! ## The frames of pages -/

/-- The frame that the page tables lead to. -/
def mappedFrame (t : Pml4) (va : Nat) : Option Nat :=
  (lookup t va).map fun x => if x.1 then x.2.frame + signExtend va / PAGE_SIZE % PAGE_TABLE_ENTRIES else x.2.frame

/-- The frame is one of the block that the entry maps. -/
theorem mappedFrame_block {t : Pml4} {va f : Nat} (h : mappedFrame t va = some f) :
    ∃ x, lookup t va = some x ∧ f ∈ blockSet x.2.frame (leafOrder x.1) ∧
      (x.1 = true → f = x.2.frame + signExtend va / PAGE_SIZE % PAGE_TABLE_ENTRIES) := by
  obtain ⟨⟨pde, e⟩, hl, rfl⟩ := Option.map_eq_some_iff.1 h
  cases pde with
  | true => exact ⟨_, hl, ⟨Nat.le_add_right _ _, Nat.add_lt_add_left (Nat.mod_lt _ (by decide)) _⟩, fun _ => rfl⟩
  | false => exact ⟨_, hl, head_mem_blockSet _ _, nofun⟩

/-- Page tables with at most one reference to a frame lead to it from one page. -/
theorem Acc.mappedFrame_inj {keep : Orders} {ext : Nat → Nat} {alloc : Orders} {m : Phys} {t : Pml4}
    (h : Acc keep ext alloc m t) (hone : ∀ f, refs t f ≤ 1) {va va' f : Nat} (hva : va < USER_LIM) (hva' : va' < USER_LIM)
    (hf : mappedFrame t va = some f) (hf' : mappedFrame t va' = some f) : va / PAGE_SIZE = va' / PAGE_SIZE := by
  obtain ⟨x, hl, hx, hpage⟩ := mappedFrame_block hf
  obtain ⟨x', hl', hx', hpage'⟩ := mappedFrame_block hf'
  have hframe := h.ledger.disjoint_blocks (lookup_fits h.fits hva hl).1 (lookup_fits h.fits hva' hl').1 hx hx'
  obtain ⟨hblock, hsize, hsmall⟩ := lookup_unique hva hva' hl hl' hframe (hone _)
  cases hpde : x.1 with
  | false => exact hsmall hpde
  | true =>
    -- In the block of a huge page the frame is told by the index of the page.
    have hindex := hpage hpde
    rw [hframe, hpage' (hsize ▸ hpde), signExtend_of_user hva, signExtend_of_user hva'] at hindex
    simp only [PAGE_TABLE_ENTRIES] at hindex
    omega

end OpenLsd
