import OpenLsd.Lemmas.Backing

/-!
# Splitting, merging and what backs an address

An area that is split hands the pointer to the data of the executable to its second half as it is, so that the half is backed by
the first bytes of the data, and not by its own. `split_vmas` and `merge_vmas` keep what backs the addresses of a task exactly
when no such area is concerned.
-/

namespace OpenLsd

namespace VmSpace

variable {s s' : VmSpace} {p fuel : Nat}

/-! ## What the functions do -/

/-- `split_vmas` makes two areas of the one it is given: at the base, or else at the end of the range. -/
def Splits (s : VmSpace) (enough : Bool × Bool) (p base size : Nat) : Prop :=
  if (s.vma p).vmBase < base ∧ base < (s.vma p).vmEnd then enough.1 = true
  else (s.vma p).vmBase < add64 base size ∧ add64 base size < (s.vma p).vmEnd ∧ enough.2 = true

/-- The area is like one of its neighbours, so that `merge_vmas` makes one area of them. -/
def Joins (s : VmSpace) (p : Nat) : Prop :=
  (∃ q, listPrev p s.taskMmap = some q ∧ mergeable (s.vma q) (s.vma p)) ∨
    ∃ q, listNext p s.taskMmap = some q ∧ mergeable (s.vma p) (s.vma q)

theorem splitEnd_cases {enough : Bool} {addr : Nat} {r : Option Nat} (he : s.splitEnd enough p addr = some (r, s')) :
    (s' = s ∧ ¬((s.vma p).vmBase < addr ∧ addr < (s.vma p).vmEnd ∧ enough = true)) ∨
    ((s.vma p).vmBase < addr ∧ addr < (s.vma p).vmEnd ∧ enough = true ∧ ∃ r', s.splitVma true p addr = some (r', s')) := by
  unfold splitEnd at he
  split at he
  case isTrue hgt =>
    obtain ⟨⟨r', s1⟩, hs, he⟩ := Option.bind_eq_some_iff.1 he
    cases he
    by_cases hcut : (s.vma p).vmBase < addr ∧ enough = true
    · obtain ⟨hlt, rfl⟩ := hcut
      exact .inr ⟨hlt, hgt, rfl, r', hs⟩
    · refine .inl ⟨?_, fun h => hcut ⟨h.1, h.2.2⟩⟩
      unfold splitVma at hs
      split at hs
      · cases hs
        rfl
      · cases enough with
        | true => exact absurd ⟨by omega, rfl⟩ hcut
        | false =>
          cases hs
          rfl
  case isFalse hle =>
    cases he
    exact .inl ⟨rfl, fun h => hle h.2.1⟩

/-! ## What is kept -/

/-- Every address is backed as before, whatever the executable is. -/
def KeepsBacking (s s' : VmSpace) : Prop := ∀ image a, s'.backing image a = s.backing image a

theorem splitVmas_backing_iff {enough : Bool × Bool} {base size : Nat} {r : Option Nat} (h : Agrees s) (hp : p ∈ s.taskMmap)
    (he : s.splitVmas enough p base size = some (r, s')) :
    KeepsBacking s s' ↔ (s.vma p).vmSrc = none ∨ ¬s.Splits enough p base size := by
  have hend : ∀ r, s.splitEnd enough.2 p (add64 base size) = some (r, s') →
      (KeepsBacking s s' ↔ (s.vma p).vmSrc = none ∨
        ¬((s.vma p).vmBase < add64 base size ∧ add64 base size < (s.vma p).vmEnd ∧ enough.2 = true)) := by
    intro r he
    rcases splitEnd_cases he with ⟨rfl, hno⟩ | ⟨h1, h2, h3, r', hs⟩
    · exact ⟨fun _ => .inr hno, fun _ _ _ => rfl⟩
    · simp only [KeepsBacking, splitVma_backing_iff h hp h1 h2 hs, h1, h2, h3, and_self, not_true_eq_false, or_false]
  unfold splitVmas at he
  unfold Splits
  split at he
  case isFalse hge =>
    rw [if_neg fun hin => hge hin.1]
    exact hend r he
  case isTrue hlt =>
    obtain ⟨⟨middle, s1⟩, hs, he⟩ := Option.bind_eq_some_iff.1 he
    by_cases hin : base < (s.vma p).vmEnd
    · rw [if_pos ⟨hlt, hin⟩]
      have hout : ¬(base ≤ (s.vma p).vmBase ∨ base ≥ (s.vma p).vmEnd) := by omega
      cases henough : enough.1 with
      | false =>
        simp only [splitVma, if_neg hout, henough, Bool.false_eq_true, if_false] at hs
        cases hs
        cases he
        simp [KeepsBacking]
      | true =>
        rw [henough] at hs
        obtain ⟨s2, hs2, hsplit, hperm, hrhs, -⟩ := splitVma_cut h hp hlt hin
        have hmem : s.next ∈ s2.taskMmap := hperm.mem_iff.2 (by simp)
        cases hs2.symm.trans hs
        have h₁ := hsplit.rearranged.agrees
        -- whatever the second split does, the middle part starts with the first byte of the data
        simp only [not_true_eq_false, or_false]
        refine ⟨fun hall => ?_, fun hsrc image a => ?_⟩
        · by_contra hsrc
          have hcut := hall (firstByte (s.vma p).vmSrc) base
          rw [backing_of_mem h hp (le_of_lt hlt) hin] at hcut
          rcases splitEnd_cases he with ⟨rfl, -⟩ | ⟨h1, h2, -, r', hs'⟩
          · rw [backing_of_mem h₁ hmem (by rw [hrhs]) (by rw [hrhs]; exact hin), hrhs, Option.some.injEq] at hcut
            exact absurd hcut (firstByte_backing_ne hsrc rfl hlt rfl (Nat.sub_pos_of_lt hin))
          · rw [splitVma_backing h₁ hmem h1 h2 hs', hrhs, if_pos ⟨le_rfl, hin⟩] at hcut
            rw [hrhs] at h1
            rw [if_pos h1, Option.some.injEq] at hcut
            exact absurd hcut (firstByte_backing_ne hsrc rfl hlt rfl (Nat.sub_pos_of_lt h1))
        · have hfirst := (splitVma_backing_iff h hp hlt hin hs).2 hsrc image a
          rcases splitEnd_cases he with ⟨rfl, -⟩ | ⟨h1, h2, -, r', hs'⟩
          · exact hfirst
          · exact ((splitVma_backing_iff h₁ hmem h1 h2 hs').2 (by rw [hrhs]; exact hsrc) image a).trans hfirst
    · rw [if_neg fun hboth => hin hboth.2]
      simp only [splitVma, if_pos (.inr (not_lt.1 hin) : base ≤ (s.vma p).vmBase ∨ base ≥ (s.vma p).vmEnd)] at hs
      cases hs
      exact hend r he

theorem mergeVmas_backing_iff {r : Nat} (h : Agrees s) (hp : p ∈ s.taskMmap) (he : s.mergeVmas fuel p = some (r, s')) :
    KeepsBacking s s' ↔ (s.vma p).vmSrc = none ∨ (s.vma p).vmLen = 0 ∨ ¬s.Joins p := by
  obtain ⟨s1, hag, -, hprev, hnext⟩ := mergeVmas_cases h hp he
  rcases hprev with ⟨rfl, rfl, hnoPrev⟩ | hj
  · rcases hnext with ⟨rfl, hnoNext⟩ | ⟨x, hj⟩
    · refine ⟨fun _ => .inr (.inr ?_), fun _ _ _ => rfl⟩
      rintro (⟨q, hq, hm⟩ | ⟨q, hq, hm⟩)
      · obtain ⟨a, b, hl⟩ := listPrev_some hq
        exact hnoPrev q (by simp [hl]) hm
      · obtain ⟨a, b, hl⟩ := listNext_some hq
        exact hnoNext q (by simp [hl]) hm
    · have hmerge : s1.Joins r := .inr ⟨x, h.listNext_adjacent hj.left hj.right hj.mergeable.2.2.2.2.1, hj.mergeable⟩
      simp only [hmerge, not_true_eq_false, or_false]
      refine ⟨fun hall => ?_, hj.backing_zero h⟩
      by_contra hno
      exact hj.backing_ne h hno (hall _ _)
  · have hmerge : s.Joins p := .inl ⟨r, h.listPrev_adjacent hj.left hp hj.mergeable.2.2.2.2.1, hj.mergeable⟩
    have hsrc : (s.vma p).vmSrc = (s.vma r).vmSrc := hj.mergeable.2.2.2.2.2.2.2.1.symm
    have hlen : (s.vma p).vmLen = (s.vma r).vmLen := hj.mergeable.2.2.2.2.2.2.2.2.symm
    simp only [hmerge, not_true_eq_false, or_false, hsrc, hlen]
    rcases hnext with ⟨rfl, -⟩ | ⟨x, hj'⟩
    · refine ⟨fun hall => ?_, hj.backing_zero h⟩
      by_contra hno
      exact hj.backing_ne h hno (hall _ _)
    · refine ⟨fun hall => ?_, fun hz image a => ?_⟩
      · by_contra hno
        -- the second merge is behind the first byte of the area
        have hbehind : ¬(s1.vma x).vmBase ≤ (s.vma p).vmBase := by
          have hadj := hj'.mergeable.2.2.2.2.1
          rw [hj.vmaLhs] at hadj
          have := h.proper p hp
          simp only at hadj
          omega
        refine hj.backing_ne h hno ((?_ : _ = _).trans (hall _ _))
        rw [hj'.backing hag, if_neg fun hin => hbehind hin.1]
      · have hz' : (s1.vma r).vmSrc = none ∨ (s1.vma r).vmLen = 0 := by rwa [hj.vmaLhs]
        exact (hj'.backing_zero hag hz' image a).trans (hj.backing_zero h hz image a)

/-- Let `p` be an area of a task.
1. `split_vmas` returns, and keeps what backs every address if and only if the area has no data of an executable or nothing is
   split.
2. When `merge_vmas` returns it has kept what backs every address if and only if the area has no data, or none of its own, or
   nothing is merged. -/
theorem split_merge_keep_backing_iff (h : Agrees s) (hp : p ∈ s.taskMmap) :
    (∀ enough base size, ∃ r s', s.splitVmas enough p base size = some (r, s') ∧
      (KeepsBacking s s' ↔ (s.vma p).vmSrc = none ∨ ¬s.Splits enough p base size)) ∧
    ∀ fuel r s', s.mergeVmas fuel p = some (r, s') →
      (KeepsBacking s s' ↔ (s.vma p).vmSrc = none ∨ (s.vma p).vmLen = 0 ∨ ¬s.Joins p) := by
  refine ⟨fun enough base size => ?_, fun fuel r s' => mergeVmas_backing_iff h hp⟩
  obtain ⟨r, s', he, -⟩ := splitVmas_spec base size enough h hp
  exact ⟨r, s', he, splitVmas_backing_iff h hp he⟩

/-- Two pages of an executable. -/
def twoPages : VmSpace := .single ⟨"code", 0x400000, 0x402000, some 0x10000, 0x2000, PROT_READ⟩

/-- The second page is split off, as `mprotect` does, and the executable has a byte at the start of it. It is not what backs the
page any more. -/
theorem split_loses_backing : ∃ s' image, twoPages.Agrees ∧
    (twoPages.splitVmas (true, true) 0 0x401000 0x1000).map Prod.fst = some (some 1) ∧
    (twoPages.splitVmas (true, true) 0 0x401000 0x1000).map Prod.snd = some s' ∧
    twoPages.backing image 0x401000 = some (PROT_READ, 7) ∧ s'.backing image 0x401000 = some (PROT_READ, 0) :=
  ⟨_, fun a => if a = 0x11000 then 7 else 0, single_agrees (by decide), by decide, rfl, by decide, by decide⟩

/-- Two pages that no executable is behind. -/
def anonPages : VmSpace := .single ⟨"user", 0x400000, 0x402000, none, 0, PROT_READ⟩

/-- The second page is split off, and the two areas are merged again. -/
theorem split_merge_keep_backing_anonPages : ∃ s' s'', anonPages.splitVmas (true, true) 0 0x401000 0x1000 = some (some 1, s') ∧
    s'.taskMmap = [0, 1] ∧ KeepsBacking anonPages s' ∧ s'.mergeVmas 3 0 = some (0, s'') ∧ s''.taskMmap = [0] ∧
    KeepsBacking s' s'' := by
  have hag : anonPages.Agrees := single_agrees (by decide)
  have hsplit := (split_merge_keep_backing_iff (s := anonPages) (p := 0) hag (by decide)).1 (true, true) 0x401000 0x1000
  obtain ⟨r, s', he, hiff⟩ := hsplit
  obtain ⟨_, _, he', hs', _⟩ := splitVmas_spec (p := 0) 0x401000 0x1000 (true, true) hag (by decide)
  cases he.symm.trans he'
  have hrun : ∃ s1, anonPages.splitVmas (true, true) 0 0x401000 0x1000 = some (some 1, s1) ∧ s1.taskMmap = [0, 1] ∧
      (s1.vma 0).vmSrc = none ∧ ∃ s2, s1.mergeVmas 3 0 = some (0, s2) ∧ s2.taskMmap = [0] := ⟨_, rfl, rfl, rfl, _, rfl, rfl⟩
  obtain ⟨s1, h₁, hlist, hsrc, s2, h2, hone⟩ := hrun
  cases h₁.symm.trans he
  have hmerge := (split_merge_keep_backing_iff (s := s') (p := 0) hs'.rearranged.agrees (by rw [hlist]; decide)).2 3 0 s2 h2
  exact ⟨s', s2, he, hlist, hiff.2 (.inl rfl), h2, hone, hmerge.2 (.inl hsrc)⟩

end VmSpace

end OpenLsd
