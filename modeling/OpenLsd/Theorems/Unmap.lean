import OpenLsd.Lemmas.Unmap
import OpenLsd.Theorems.Contents
import OpenLsd.Theorems.Lookup

/-!
# Unmapping pages

`unmap_page_range` removes the pages of its range and no others. A huge page that the range cuts is split, and the part that
stays is copied, and the tables that are left without an entry are freed on the way back.
-/

namespace OpenLsd

open Outcome Function

variable {m m' : Phys} {t t' : Pml4} {va : Nat} {ext : Nat → Nat}

/-! ## What is at an address -/

/-- What an access to the address finds: the permission bits of the entry that maps it, and the byte. -/
def accessAt (m : Phys) (t : Pml4) (va : Nat) : Option (PageFlags × UInt8) :=
  (lookup t va).map fun x =>
    (x.2.umask, m.bytes (if x.1 then x.2.frame + va / PAGE_SIZE % PAGE_TABLE_ENTRIES else x.2.frame) (va % PAGE_SIZE))

/-- The same of a page, at an offset. -/
def PageState.access (o : Nat) (s : PageState) : PageFlags × UInt8 :=
  ({ present := true, write := s.write, user := s.user, noExec := s.noExec, huge := false }, s.bytes o)

section Access

theorem lookup_present {x : Bool × Entry} (h : lookup t va = some x) : x.2.present = true := by
  unfold lookup at h
  dsimp only at h
  split at h
  · cases h
  · next hpath =>
    split at h
    · cases h
      simp only [not_or, Bool.not_eq_false] at hpath
      exact hpath.2.2
    · split at h
      · next hp =>
        cases h
        exact hp
      · cases h

theorem accessAt_eq (hva : Canonical va) :
    accessAt m t va = (Node.page m (FullTable.mk t) (pageNo va)).map (PageState.access (va % PAGE_SIZE)) := by
  rw [page_translate, translatePage_eq t hva, mappedBy, accessAt, Option.map_map, Option.map_map]
  have hindex : pageNo va % PAGE_TABLE_ENTRIES = va / PAGE_SIZE % PAGE_TABLE_ENTRIES :=
    Nat.mod_mod_of_dvd _ (by decide)
  cases hl : lookup t va with
  | none => rfl
  | some x =>
    obtain ⟨pde, e⟩ := x
    have hp : e.present = true := lookup_present hl
    cases pde <;> simp [PageState.access, leafState, Entry.state, Entry.umask, hp, hindex]

theorem lookup_none_iff (hva : Canonical va) : lookup t va = none ↔ Node.page m (FullTable.mk t) (pageNo va) = none := by
  rw [page_translate, translatePage_eq t hva, mappedBy]
  simp

/-- Pages with the same contents and permissions are accessed alike. -/
theorem SamePage.access {s s' : Option PageState} (h : SamePage ∅ s s') (o : Nat) :
    s'.map (PageState.access o) = s.map (PageState.access o) := by
  cases h with
  | none => rfl
  | some h => simp [PageState.access, h.write, h.user, h.noExec, h.bytes]

end Access

/-! ## A range -/

section Range

variable {keep alloc : Orders} {ext : Nat → Nat} {pml4 size : Nat}

/-- Unmapping a range stops only when there is no memory, and what it leaves is known page by page. -/
theorem unmapPageRange_ends {hi : Nat} (h : Acc keep ext alloc m (FullTable.mk t)) (hs : PageSpan va size hi) :
    Ends (fun s => s ≠ .oom) (unmapPageRange pml4 m t va size) fun r => (∃ alloc',
      Done keep False removeRel 0 (pageNo va) (hi + 1) ext alloc m (FullTable.mk t) r.1 (FullTable.mk r.2) ext alloc') ∧
      ∀ g, pageNo va ≤ g → g ≤ hi → TablesUsed r.2 g := by
  have hdone := unmapPageRange_done pml4 hs h
  rw [unmapPageRange_eq hs] at hdone ⊢
  exact (ends_oom hdone ((remove_stops _).pageWalk hs.le hs.lt m t)).and (remove_used hs.lt t)

section Done

variable {alloc' : Orders} {lo hi a : Nat}

section

variable (h : Done keep False removeRel 0 lo hi ext alloc m (FullTable.mk t) m' (FullTable.mk t') ext alloc') (ha : Canonical a)

include h ha

theorem removed_lookup (hlo : lo ≤ pageNo a) (hhi : pageNo a < hi) : lookup t' a = none := by
  have hpage := h.page (pageNo a) (Nat.div_eq_of_lt (pageNo_lt a))
  rw [PageRel.at, if_pos ⟨hlo, hhi⟩] at hpage
  exact (lookup_none_iff ha).2 hpage

theorem removed_access (hout : ¬(lo ≤ pageNo a ∧ pageNo a < hi)) : accessAt m' t' a = accessAt m t a := by
  have hpage := h.page (pageNo a) (Nat.div_eq_of_lt (pageNo_lt a))
  rw [PageRel.at, if_neg hout] at hpage
  rw [accessAt_eq ha, accessAt_eq ha]
  exact SamePage.access hpage _

end

end Done

/-- Unmapping a range of the user half, when memory for the splits is there:
(1) no address of the range is mapped;
(2) every other address has the contents and the permissions that it had;
(3) the reference counts are the numbers of the leaf entries and of what others hold, and a frame that was allocated is free or
belongs to a block that somebody refers to;
(4) no table without a present entry is left on the way to an address of the range. -/
theorem unmap_page_range_exact (pml4 : Nat) (h : Acc keep ext alloc m (FullTable.mk t)) (hva : pageAligned va) (hsize : 0 < size)
    (hle : va + size ≤ USER_LIM) :
    unmapPageRange pml4 m t va size = .error .oom ∨ ∃ m' t' alloc', unmapPageRange pml4 m t va size = .ok (m', t') ∧
      (∀ a, va ≤ a → a < va + size → lookup t' a = none) ∧
      (∀ a, Canonical a → a < va ∨ roundUp (va + size) ≤ a → accessAt m' t' a = accessAt m t a) ∧
      (Acc keep ext alloc' m' (FullTable.mk t') ∧
        (∀ f, ¬Node.Table (FullTable.mk t') f → (m'.pages f).ppRef = ext f + leafEntries t' f) ∧
        ∀ f k, alloc f = some k → f ∈ m'.freeSet ∨ ∃ f' k', alloc' f' = some k' ∧ f ∈ blockSet f' k' ∧
          (0 < (m'.pages f').ppRef ∨ keep f' = some k')) ∧
      ∀ a, va ≤ a → a < va + size → TablesUsed t' (pageNo a) := by
  have hcan : Canonical va := .inl (by omega)
  have hin : ∀ a, va ≤ a → a < va + size → Canonical a ∧ pageNo va ≤ pageNo a ∧ pageNo a ≤ pageNo va + (size - 1) / PAGE_SIZE := by
    intro a hge hlt
    refine ⟨.inl (by omega), ?_⟩
    simp only [pageAligned, pageNo, PAGE_SIZE, NPAGES, USER_LIM] at *
    omega
  have hout : ∀ a, Canonical a → a < va ∨ roundUp (va + size) ≤ a →
      ¬(pageNo va ≤ pageNo a ∧ pageNo a < pageNo va + (size - 1) / PAGE_SIZE + 1) := by
    intro a ha hout
    simp only [pageAligned, roundUp, roundDown, add64, pageNo, PAGE_SIZE, NPAGES, USER_LIM, Canonical, KERNEL_VMA] at *
    omega
  have hhi : pageNo va + (size - 1) / PAGE_SIZE < NPAGES := by
    simp only [pageAligned, pageNo, PAGE_SIZE, NPAGES, USER_LIM] at *
    omega
  refine (unmapPageRange_ends h ⟨hcan, hva, hsize, rfl, hhi⟩).cases.imp_right ?_
  rintro ⟨⟨m', t'⟩, hrun, ⟨alloc', hdone⟩, hused⟩
  refine ⟨m', t', alloc', hrun, fun a hge hlt => ?_, fun a ha ho => removed_access hdone ha (hout a ha ho),
    ⟨hdone.acc, fun f => hdone.acc.ppRef_eq, fun f k hf => ?_⟩, fun a hge hlt => ?_⟩
  · obtain ⟨ha, hlo, hhi'⟩ := hin a hge hlt
    exact removed_lookup hdone ha hlo (Nat.lt_succ_of_le hhi')
  · refine ((hdone.spares.covered f).2 (.inr ⟨f, k, hf, head_mem_blockSet f k⟩)).imp_right ?_
    rintro ⟨f', k', ha', hmem⟩
    refine ⟨f', k', ha', hmem, ?_⟩
    rw [hdone.acc.ledger.counted]
    exact hdone.acc.ledger.held f' k' ha'
  · obtain ⟨-, hlo, hhi'⟩ := hin a hge hlt
    exact hused _ hlo hhi'

end Range

theorem acc_emptyFull {keep alloc : Orders} (h : Ledger keep ext alloc m) :
    Acc keep ext alloc m (FullTable.mk fun _ => 0) := by
  refine ⟨?_, fun i _ => nofun⟩
  rw [show Node.refs (FullTable.mk fun _ => 0) = 0 from tableRefs_absent fun i _ => rfl, add_zero]
  exact h

theorem populateRegion_acc {keep alloc : Orders} {size hi : Nat}
    {flags : PageFlags} (hs : PageSpan va size hi) (hend : sub64 (roundUp (add64 va size)) 1 = pageLast hi)
    (hhuge : flags.huge = true → va % HPAGE_SIZE = 0) (h : Acc keep ext alloc m (FullTable.mk t)) :
    Ends Panics (populateRegion m t va size flags) fun r => ∃ ext' alloc', Acc keep ext' alloc' r.1 (FullTable.mk r.2) := by
  refine .ite (fun hno => absurd (hhuge hno.1) hno.2) fun _ => ?_
  have hw : (PopulateInfo.walker ⟨flags, roundDown va, sub64 (roundUp (add64 va size)) 1⟩).TreatsPages (pageNo va) hi keep
      .nothing False (populateRel flags) :=
    populate_treatsPages ⟨_, _, _⟩ (pageAddr_pageNo hs.canonical).symm hend
  rw [hs.walkPageRange]
  refine (hw.pageWalk_full hs.le hs.lt h given_nothing).mono fun r ⟨ext', alloc', hd⟩ => ?_
  exact ⟨ext', alloc', hd.acc⟩

/-- Two pages of a small machine that are mapped next to each other. -/
def twoPopulated : Kernel (Phys × Pml4) :=
  populateRegion smallMachine.phys (fun _ => 0) 0x400000 0x2000
    { present := true, write := true, user := true, noExec := true, huge := false }

theorem twoPopulated_acc : Ends Panics twoPopulated fun r => ∃ ext alloc, Acc (fun _ => none) ext alloc r.1 (FullTable.mk r.2) :=
  populateRegion_acc (show PageSpan 0x400000 0x2000 0x401 from ⟨.inl (by decide), by decide, by decide, by decide, by decide⟩)
    (by decide) nofun (acc_emptyFull smallMachine_ledger)

/-- One of two pages is unmapped. -/
theorem unmap_page_range_exact_one : ∃ m t m' t', twoPopulated = .ok (m, t) ∧ lookup t 0x400000 ≠ none ∧
    unmapPageRange 0 m t 0x400000 0x1000 = .ok (m', t') ∧ lookup t' 0x400000 = none ∧
    accessAt m' t' 0x401000 = accessAt m t 0x401000 := by
  have hrun : ∃ r, twoPopulated = .ok r ∧ lookup r.2 0x400000 ≠ none ∧ ∃ r', unmapPageRange 0 r.1 r.2 0x400000 0x1000 = .ok r' := by
    decide +kernel
  obtain ⟨⟨m, t⟩, hpop, hmapped, r, hr⟩ := hrun
  obtain ⟨ext, alloc, hacc⟩ := twoPopulated_acc.1 _ hpop
  have hal : pageAligned 0x400000 := by decide
  rcases unmap_page_range_exact 0 hacc hal (show 0 < 0x1000 by decide) (by decide) with hoom | ⟨m', t', _, hok, h1, h2, -⟩
  · rw [hr] at hoom
    cases hoom
  · refine ⟨m, t, m', t', hpop, hmapped, hok, h1 _ (by decide) (by decide), ?_⟩
    exact h2 _ (.inl (by decide)) (.inr (by decide))

end OpenLsd
