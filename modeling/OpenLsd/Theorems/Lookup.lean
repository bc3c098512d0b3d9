import OpenLsd.Lemmas.Lookup

/-!
# Looking up an address

`page_lookup` walks over `[va, va + PAGE_SIZE)`. At the start of a page this is the page, and what it finds is the entry that
the hardware finds. Anywhere else the range reaches into the next page, and an entry that maps the next page overwrites the
one for the address. In the last page the range wraps, and nothing is found. What is found has to be a frame of the machine:
where a device is mapped `pa2page` panics.
-/

namespace OpenLsd

open Level

/-- The entry that the four levels lead to for the address, with the pointer to it. -/
def mappedBy (t : Pml4) (va : Nat) : LookupInfo :=
  (lookup t va).map fun x => (⟨x.1, blockStart (if x.1 then PAGE_TABLE_SPAN else PAGE_SIZE) va⟩, x.2)

/-- The address of the page behind the one of `va`. -/
def nextPage (va : Nat) : Nat := pageAddr (pageNo va + 1)

/-- The address is the start of a page, or what is behind its page does not get into the way: no entry maps the next page, or
the same entry does. The last page has nothing behind it, and nothing in it is found. -/
def LookupExact (t : Pml4) (va : Nat) : Prop :=
  pageAligned va ∨
    if pageNo va + 1 < NPAGES then mappedBy t (nextPage va) = none ∨ mappedBy t (nextPage va) = mappedBy t va
    else mappedBy t va = none

instance (t : Pml4) (va : Nat) : Decidable (LookupExact t va) := inferInstanceAs (Decidable (_ ∨ _))

/-! ## The four levels -/

theorem Level.index_eq (l : Level) {va : Nat} (hva : Canonical va) :
    va / l.span % PAGE_TABLE_ENTRIES = pageNo va / l.pages % 512 ∧ blockStart l.span va = l.first (pageNo va / l.pages) := by
  obtain ⟨hstart, -, hindex⟩ := block_pageAddr l (pageNo_lt va)
  have hround : roundDown va / l.span = va / l.span := by
    rw [l.span_eq, Nat.mul_comm, ← Nat.div_div_eq_div_mul, ← Nat.div_div_eq_div_mul, roundDown,
      Nat.mul_div_cancel _ (by decide : 0 < PAGE_SIZE)]
  rw [pageAddr_pageNo hva] at hstart hindex
  rw [← hindex, hround, first, ← hstart, blockStart, blockStart, hround]
  exact ⟨rfl, rfl⟩

theorem translatePage_eq (t : Pml4) {va : Nat} (hva : Canonical va) : translatePage t (pageNo va) = mappedBy t va := by
  have hext : signExtend va = va := hva.elim signExtend_of_user fun h => signExtend_of_kernel h.1 h.2
  obtain ⟨h4, -⟩ := index_eq .pml4e hva
  obtain ⟨h3, -⟩ := index_eq .pdpte hva
  obtain ⟨h2, hpde⟩ := index_eq .pde hva
  obtain ⟨h1, hpte⟩ := index_eq .pte hva
  simp only [span, pages, Nat.div_one] at h1 h2 h3 h4 hpde hpte
  simp only [mappedBy, lookup, hext, h1, h2, h3, h4, translatePage, pml4eView, pdpteView, pdeView, pteView]
  generalize t (pageNo va / 134217728 % 512) = pml4e
  generalize pml4e.child (pageNo va / 262144 % 512) = pdpte
  generalize pdpte.child (pageNo va / 512 % 512) = pde
  generalize pde.child (pageNo va % 512) = pte
  cases pml4e.entry.present <;> cases pdpte.entry.present <;> cases pde.entry.present <;> cases pde.entry.huge <;>
    cases pte.present <;> simp [hpde, hpte]

/-- The entry that the pointer names. -/
def EntryPtr.target (t : Pml4) (p : EntryPtr) : Entry :=
  if p.pde = true then (pdeAt t (pageNo p.base / 512)).entry else pteAt t (pageNo p.base)

theorem translatePage_target {t : Pml4} {g : Nat} (hg : g < NPAGES) {x : EntryPtr × Entry} (h : translatePage t g = some x) :
    x.2 = x.1.target t := by
  have hpde : pageNo (first .pde (g / 512)) / 512 = g / 512 := by
    rw [first, pageNo_pageAddr]
    · exact Nat.mul_div_cancel _ (by decide)
    · exact Nat.lt_of_le_of_lt (Nat.div_mul_le_self _ _) hg
  have hpte : pageNo (first .pte g) = g := by
    rw [first, pages, Nat.mul_one, pageNo_pageAddr hg]
  rcases (pdeView_cases (translatePage_some.1 h).2.2).2 with ⟨-, rfl⟩ | ⟨-, -, rfl⟩
  · rw [EntryPtr.target, if_pos rfl, hpde]
  · rw [EntryPtr.target, if_neg Bool.false_ne_true, hpte, pteAt]

/-! ## The range of one page -/

section Range

variable {t : Pml4} {va : Nat}

theorem lookup_aligned (hva : Canonical va) (hal : pageAligned va) :
    lookupWalker.walkPageRange va (add64 va PAGE_SIZE) none t = .ok (mappedBy t va, t) := by
  have hlast : pageNo va = pageNo va + (va % PAGE_SIZE + PAGE_SIZE - 1) / PAGE_SIZE := by
    rw [show va % PAGE_SIZE = 0 from hal]
    rfl
  rw [lookupWalker.walkPageRange_size hva (by decide) hlast (pageNo_lt va), lookup_pageWalk (Nat.le_refl _) (pageNo_lt va),
    scan_one, Option.or_none, translatePage_eq t hva]

theorem canonical_nextPage (hg : pageNo va + 1 < NPAGES) : Canonical (nextPage va) ∧ pageNo (nextPage va) = pageNo va + 1 := by
  refine ⟨?_, pageNo_pageAddr hg⟩
  rw [nextPage]
  rcases Nat.lt_or_ge (pageNo va + 1) (2 ^ 35) with hu | hk
  · rw [pageAddr_user hu, Canonical, USER_LIM]
    omega
  · rw [pageAddr_kernel hk hg, Canonical, KERNEL_VMA]
    simp only [NPAGES] at hg
    omega

theorem lookup_unaligned (hva : Canonical va) (hal : ¬pageAligned va) (hg : pageNo va + 1 < NPAGES) :
    lookupWalker.walkPageRange va (add64 va PAGE_SIZE) none t =
      .ok ((mappedBy t (nextPage va)).or (mappedBy t va), t) := by
  have hlast : pageNo va + 1 = pageNo va + (va % PAGE_SIZE + PAGE_SIZE - 1) / PAGE_SIZE := by
    simp only [pageAligned, PAGE_SIZE] at *
    omega
  obtain ⟨hnext, hno⟩ := canonical_nextPage hg
  rw [lookupWalker.walkPageRange_size hva (by decide) hlast hg, lookup_pageWalk (Nat.le_add_right _ _) hg,
    ← scan_trans (Nat.le_add_right _ 1) (Nat.le_add_right _ 1), scan_one, scan_one, Option.or_none, translatePage_eq t hva, ← hno,
    translatePage_eq t hnext]

/-- The end of the range wraps, and the walk ends before its first turn. -/
theorem lookup_top (hva : Canonical va) (hal : ¬pageAligned va) (hg : ¬pageNo va + 1 < NPAGES) :
    lookupWalker.walkPageRange va (add64 va PAGE_SIZE) none t = .ok (none, t) := by
  have htop : 0xFFFFFFFFFFFFF000 < va ∧ va < 2 ^ 64 := by
    simp only [pageNo, pageAligned, Canonical, PAGE_SIZE, NPAGES, USER_LIM, KERNEL_VMA] at *
    omega
  have hend : sub64 (roundUp (add64 va PAGE_SIZE)) 1 = 4095 := by
    simp only [sub64, roundUp, roundDown, add64, PAGE_SIZE] at *
    omega
  have hbase : roundDown va = 0xFFFFFFFFFFFFF000 := by
    simp only [roundDown, PAGE_SIZE]
    omega
  rw [Walker.walkPageRange, Walker.pml4WalkRange, walkRange, hend, hbase]
  exact walkLoop_done (by decide) _ _ _

/-- What the walk finds is what an entry of the table says, and it is the entry for the address just if nothing behind the page
of the address gets into the way. -/
theorem lookup_found (t : Pml4) (hva : Canonical va) :
    ∃ info, lookupWalker.walkPageRange va (add64 va PAGE_SIZE) none t = .ok (info, t) ∧
      (∀ x, info = some x → x.2 = x.1.target t) ∧ (info = mappedBy t va ↔ LookupExact t va) := by
  have htarget : ∀ {a : Nat}, Canonical a → ∀ x, mappedBy t a = some x → x.2 = x.1.target t := by
    intro a ha x hx
    exact translatePage_target (pageNo_lt a) ((translatePage_eq t ha).trans hx)
  by_cases hal : pageAligned va
  · exact ⟨_, lookup_aligned hva hal, htarget hva, iff_of_true rfl (.inl hal)⟩
  rw [LookupExact, or_iff_right hal]
  by_cases hg : pageNo va + 1 < NPAGES
  · refine ⟨_, lookup_unaligned hva hal hg, fun x hx => ?_, ?_⟩
    · rcases Option.or_eq_some_iff.1 hx with hx | ⟨-, hx⟩
      · exact htarget (canonical_nextPage hg).1 x hx
      · exact htarget hva x hx
    · rw [if_pos hg]
      cases mappedBy t (nextPage va) <;> simp
  · refine ⟨_, lookup_top hva hal hg, nofun, ?_⟩
    rw [if_neg hg]
    exact eq_comm

end Range

/-- `pa2page` is passed just the frames of the machine. -/
theorem pa2page_eq_ok {npages frame pp : Nat} : pa2page npages frame = .ok pp ↔ frame < npages ∧ frame = pp := by
  rw [pa2page]
  split <;> simp_all

/-- For every page table and every canonical address, `page_lookup` returns the frame of the entry that the four levels lead to
and stores the pointer to it, and returns and stores `NULL` where no entry maps the address, if and only if the address is the
start of a page or the page behind it does not get into the way, and the address is not mapped to what is no frame of the
machine. -/
theorem page_lookup_agrees (npages : Nat) (t : Pml4) {va : Nat} (hva : Canonical va) :
    pageLookupStore npages t va = .ok ((mappedBy t va).map fun x => x.2.frame, (mappedBy t va).map Prod.fst) ↔
      LookupExact t va ∧ ∀ x, mappedBy t va = some x → x.2.frame < npages := by
  obtain ⟨info, hwalk, htarget, hexact⟩ := lookup_found t hva
  have hmapped : ∀ y, mappedBy t va = some y → y.2 = y.1.target t := fun y hy =>
    translatePage_target (pageNo_lt va) ((translatePage_eq t hva).trans hy)
  rw [← hexact, pageLookupStore, hwalk]
  cases info with
  | none => cases mappedBy t va <;> simp [bind, Except.bind]
  | some x =>
    cases hy : mappedBy t va with
    | none => cases hp : pa2page npages x.2.frame <;> simp [bind, Except.bind, hp]
    | some y =>
      -- The pointer determines the entry, so that the same pointer is the same entry.
      have hsame : x.1 = y.1 → x = y := fun h => Prod.ext h (by rw [htarget x rfl, hmapped y hy, h])
      cases hp : pa2page npages x.2.frame with
      | error =>
        simp only [bind, Except.bind, hp, Option.map_some, reduceCtorEq, false_iff, not_and, Option.some.injEq]
        rintro rfl hlt
        exact nomatch hp.symm.trans (pa2page_eq_ok.2 ⟨hlt _ rfl, rfl⟩)
      | ok pp =>
        obtain ⟨hlt, rfl⟩ := pa2page_eq_ok.1 hp
        simp only [bind, Except.bind, hp, Option.map_some, Except.ok.injEq, Prod.mk.injEq, Option.some.injEq]
        constructor
        · rintro ⟨-, h⟩
          obtain rfl := hsame h
          exact ⟨rfl, fun z hz => hz ▸ hlt⟩
        · rintro ⟨rfl, -⟩
          exact ⟨rfl, rfl⟩

/-- A page table in which the pages at `0x400000` and `0x401000` are mapped to the frames 5 and 6. -/
def twoMappedPages : Pml4 := fun _ =>
  ⟨tableEntry 1, fun _ => ⟨tableEntry 2, fun _ => ⟨tableEntry 3, fun i =>
    if i = 0 then tableEntry 5 else if i = 1 then tableEntry 6 else 0⟩⟩⟩

theorem page_lookup_agrees_start :
    Canonical 0x400000 ∧ pageLookupStore 16 twoMappedPages 0x400000 = .ok (some 5, some ⟨false, 0x400000⟩) := by
  have hframe : ∃ e, mappedBy twoMappedPages 0x400000 = some e ∧ e.2.frame < 16 := by decide +kernel
  obtain ⟨e, he, hlt⟩ := hframe
  refine ⟨by decide, (page_lookup_agrees 16 twoMappedPages (by decide : Canonical 0x400000)).2 ⟨.inl (by decide), ?_⟩⟩
  intro x hx
  obtain rfl := Option.some.inj (he.symm.trans hx)
  exact hlt

/-- Eight bytes into the first of two pages that are mapped, `page_lookup` finds the second. -/
theorem page_lookup_finds_next :
    mappedBy twoMappedPages 0x400008 = some (⟨false, 0x400000⟩, tableEntry 5) ∧
      pageLookupStore 16 twoMappedPages 0x400008 = .ok (some 6, some ⟨false, 0x401000⟩) := by
  decide +kernel

end OpenLsd
