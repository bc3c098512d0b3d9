import OpenLsd.Lemmas.MergedForm
import OpenLsd.Theorems.Protect

/-!
# The areas of a task stay in merged form

What memory calls make of the list of areas when no call cuts an anonymous area: no two neighbours that touch are alike. Such
a list is given by what is mapped where, so changing the protection of a range and changing it back gives the list of before.
`split_vma` sets the length of both halves of an area, and `merge_vma` compares it, so halves of different sizes are never
merged again.
-/

namespace OpenLsd

open Outcome VmSpace

namespace VmSpace

variable {s s' : VmSpace} {p x base last flags g : Nat}

/-- No two neighbours in the list of areas can be joined. -/
def MergedForm (s : VmSpace) : Prop := s.taskMmap.IsChain fun p q => ¬Joinable (s.vma p) (s.vma q)

instance (s : VmSpace) : Decidable (MergedForm s) := inferInstanceAs (Decidable (List.IsChain _ _))

/-- The areas in the order of the list. -/
def areas (s : VmSpace) : List Vma := s.taskMmap.map s.vma

theorem Tidy.mergedForm (h : Tidy s) : MergedForm s := by
  refine List.Pairwise.isChain ?_
  exact List.pairwise_of_forall_mem_list fun p hp q hq => TidyBut.merged h p hp q hq id

/-! ## What is mapped where gives the list -/

/-- Before an anonymous area there is nothing like it. -/
theorem Tidy.not_at_before {va : Nat} (h : Tidy s) (hx : x ∈ s.taskMmap) (hsrc : (s.vma x).vmSrc = none)
    (hva : va + 1 = (s.vma x).vmBase) : ¬At s va (kind (s.vma x)) := by
  rintro ⟨z, hz, hzb, hze, hk⟩
  have hne : z ≠ x := by
    rintro rfl
    omega
  have hapart := h.ok.agrees.apart hz hx hne
  have hxp := h.ok.agrees.proper x hx
  simp only [Apart] at hapart
  have hsrc' : (s.vma z).vmSrc = none := (congrArg Kind.src hk).trans hsrc
  exact TidyBut.merged h z hz x hx id ⟨hsrc', hsrc, by omega, congrArg Kind.name hk, congrArg Kind.flags hk⟩

/-- Behind an anonymous area there is nothing like it. -/
theorem Tidy.not_at_behind (h : Tidy s) (hx : x ∈ s.taskMmap) (hsrc : (s.vma x).vmSrc = none) :
    ¬At s (s.vma x).vmEnd (kind (s.vma x)) := by
  rintro ⟨z, hz, hzb, hze, hk⟩
  have hne : x ≠ z := by
    rintro rfl
    omega
  have hapart := h.ok.agrees.apart hx hz hne
  have hxp := h.ok.agrees.proper x hx
  simp only [Apart] at hapart
  have hsrc' : (s.vma z).vmSrc = none := (congrArg Kind.src hk).trans hsrc
  exact TidyBut.merged h x hx z hz id
    ⟨hsrc, hsrc', by omega, (congrArg Kind.name hk).symm, (congrArg Kind.flags hk).symm⟩

/-- An area that lies at an address of the other one, which has nothing like it around, and is like it, is within it. -/
theorem within_of_at {v : Vma} {y va : Nat} (hat : ∀ va k, At s va k → At s' va k) (hy : y ∈ s.taskMmap)
    (hyv : kind (s.vma y) = kind v) (h1 : (s.vma y).vmBase ≤ va ∧ va < (s.vma y).vmEnd) (h2 : v.vmBase ≤ va ∧ va < v.vmEnd)
    (hbefore : ∀ va, va + 1 = v.vmBase → ¬At s' va (kind v)) (hbehind : ¬At s' v.vmEnd (kind v)) :
    v.vmBase ≤ (s.vma y).vmBase ∧ (s.vma y).vmEnd ≤ v.vmEnd := by
  constructor
  · by_contra hlt
    refine hbefore (v.vmBase - 1) (by omega) (hat _ _ ⟨y, hy, by omega, by omega, hyv⟩)
  · by_contra hlt
    exact hbehind (hat _ _ ⟨y, hy, by omega, by omega, hyv⟩)

/-- The anonymous areas in merged form are given by what is mapped where. -/
theorem Tidy.has_of_at {v : Vma} (h : Tidy s) (h' : Tidy s') (hat : ∀ va k, At s' va k ↔ At s va k) (hv : Has s v)
    (hsrc : v.vmSrc = none) : Has s' v := by
  obtain ⟨x, hx, rfl⟩ := hv
  have hxp := h.ok.agrees.proper x hx
  obtain ⟨y, hy, hyb, hye, hk⟩ := (hat _ _).2 ⟨x, hx, le_rfl, hxp, rfl⟩
  have hysrc : (s'.vma y).vmSrc = none := (congrArg Kind.src hk).trans hsrc
  obtain ⟨h1, h2⟩ := within_of_at (fun va k => (hat va k).1) hy hk ⟨hyb, hye⟩ ⟨le_rfl, hxp⟩
    (fun va hva => h.not_at_before hx hsrc hva) (h.not_at_behind hx hsrc)
  obtain ⟨h3, h4⟩ := within_of_at (fun va k => (hat va k).2) hx hk.symm ⟨le_rfl, hxp⟩ ⟨hyb, hye⟩
    (fun va hva => h'.not_at_before hy hysrc hva) (h'.not_at_behind hy hysrc)
  refine ⟨y, hy, ?_⟩
  have hlen : (s'.vma y).vmLen = (s.vma x).vmLen := by
    rw [TidyBut.plain h x hx hsrc, TidyBut.plain h' y hy hysrc]
  have hbase : (s'.vma y).vmBase = (s.vma x).vmBase := by omega
  have hend : (s'.vma y).vmEnd = (s.vma x).vmEnd := by omega
  have hname := congrArg Kind.name hk
  have hflags := congrArg Kind.flags hk
  have hsrcs := congrArg Kind.src hk
  cases hsx : s.vma x
  cases hsy : s'.vma y
  simp only [hsx, hsy, kind] at *
  subst hlen hbase hend hname hflags hsrcs
  rfl

theorem areas_sorted (h : Agrees s) : s.areas.Pairwise fun v w => v.vmBase < w.vmBase := by
  refine List.pairwise_map.2 (h.sorted.imp_of_mem fun hp _ hle => ?_)
  exact lt_of_lt_of_le (h.proper _ hp) hle

/-- Two lists in merged form that map the same, with the same areas with data behind them, are the same. -/
theorem Tidy.areas_eq (h : Tidy s) (h' : Tidy s') (hat : ∀ va k, At s' va k ↔ At s va k) (hb : SameBacked s s') :
    s'.areas = s.areas := by
  have hmem : ∀ v, v ∈ s'.areas ↔ v ∈ s.areas := by
    intro v
    simp only [areas, List.mem_map]
    by_cases hsrc : v.vmSrc = none
    · exact ⟨fun hv => h'.has_of_at h (fun va k => (hat va k).symm) hv hsrc, fun hv => h.has_of_at h' hat hv hsrc⟩
    · exact hb v hsrc
  have hs := areas_sorted h.ok.agrees
  have hs' := areas_sorted h'.ok.agrees
  have hperm : s'.areas.Perm s.areas := by
    refine (List.perm_ext_iff_of_nodup ?_ ?_).2 hmem
    · exact hs'.imp fun hlt e => by rw [e] at hlt; omega
    · exact hs.imp fun hlt e => by rw [e] at hlt; omega
  exact hperm.eq_of_pairwise (fun v w _ _ h1 h2 => by omega) hs' hs

/-! ## Changing the protection of a range -/

/-- All areas that the range meets have the flags, and none has data behind it. -/
def AllAnon (s : VmSpace) (base last g : Nat) : Prop :=
  ∀ p ∈ s.taskMmap, base < (s.vma p).vmEnd → (s.vma p).vmBase < last → (s.vma p).vmSrc = none ∧ (s.vma p).vmFlags = g

instance (s : VmSpace) (base last g : Nat) : Decidable (AllAnon s base last g) :=
  inferInstanceAs (Decidable (∀ _ ∈ _, _ → _ → _))

/-- The walk over areas that all have the same flags reaches the end of the range: one that has the new flags, and could be
merged with, lies behind it. -/
theorem Walked.changed (h : Walked s s' base last flags) (hag : Agrees s) (hall : AllAnon s base last g) :
    Changed s s' base last flags := by
  rcases h with ⟨hc, -⟩ | ⟨n, hs⟩
  · exact hc
  · obtain ⟨p, hm, -⟩ := hs.pair
    have hn := hag.proper n hm.mem_next
    have hbehind := hm.behind
    have habove := hm.above
    have hlast : last ≤ (s.vma n).vmBase := by
      by_contra hlt
      obtain ⟨-, hpf⟩ := hall p hm.mem hm.above hm.below
      obtain ⟨-, hnf⟩ := hall n hm.mem_next (by omega) (by omega)
      exact hm.changes (hm.flags_eq.symm.trans (hnf.trans hpf.symm))
    have hc := hs.changed
    rwa [Nat.min_eq_right (by omega)] at hc

theorem Changed.allAnon (h : Changed s s' base last flags) (hlt : base < last) (hall : AllAnon s base last g) :
    AllAnon s' base last flags := by
  intro p hp hend hbase
  have hpp := h.agrees.proper p hp
  have hat := (h.at_iff (max base (s'.vma p).vmBase) _).1 ⟨p, hp, by omega, by omega, rfl⟩
  rw [if_pos (by omega)] at hat
  obtain ⟨k, ⟨x, hx, hxb, hxe, rfl⟩, hk⟩ := hat
  obtain ⟨hsrc, -⟩ := hall x hx (by omega) (by omega)
  exact ⟨(congrArg Kind.src hk).trans hsrc, congrArg Kind.flags hk⟩

/-- Changing flags and changing them back leaves the same mapped where. -/
theorem Changed.back {s1 s2 : VmSpace} (h : Changed s s1 base last flags) (h' : Changed s1 s2 base last g)
    (hall : AllAnon s base last g) (va : Nat) (k : Kind) : At s2 va k ↔ At s va k := by
  rw [h'.at_iff]
  split
  · rename_i hin
    simp only [h.at_iff, if_pos hin]
    have hflags : ∀ k, At s va k → { k with flags := g } = k := by
      rintro k ⟨x, hx, hxb, hxe, rfl⟩
      obtain ⟨-, hf⟩ := hall x hx (by omega) (by omega)
      rw [← hf]
      rfl
    constructor
    · rintro ⟨_, ⟨k, hk, rfl⟩, rfl⟩
      have := hflags k hk
      simp only at this ⊢
      rwa [this]
    · intro hk
      refine ⟨_, ⟨k, hk, rfl⟩, ?_⟩
      simp only
      exact (hflags k hk).symm
  · rename_i hout
    rw [h.at_iff, if_neg hout]

end VmSpace

section Restore

variable {t t' : TaskMem} {fuel base size flags g addr len prot : Nat}

/-- A walk that succeeds has found an area of the range. -/
theorem walkVmaRange_found {getVma : Nat → Nat → TaskMem → Nat → Kernel (Bool × TaskMem)}
    (he : walkVmaRange getVma t base size = .ok (true, t')) :
    ∃ p, t.vm.findVma base = some p ∧ (t.vm.vma p).vmBase < add64 base size := by
  unfold walkVmaRange at he
  split at he
  · cases he
  · rename_i p hp
    split at he
    · cases he
    · exact ⟨p, hp, by omega⟩

/-- What `protect_vma_range` does when the areas of the range are anonymous, have the same flags and are not cut. -/
theorem protectVmaRange_changed (h : Tidy t.vm) (hbase : pageAligned base) (hlast : pageAligned (add64 base size))
    (hcut : ∀ p ∈ t.vm.taskMmap, AnonUncut base (add64 base size) (t.vm.vma p)) (hall : AllAnon t.vm base (add64 base size) g)
    (he : protectVmaRange fuel t base size flags = .ok (true, t')) :
    base < add64 base size ∧ Changed t.vm t'.vm base (add64 base size) flags ∧ Tidy t'.vm ∧ SameBacked t.vm t'.vm := by
  have hag := h.ok.agrees
  have hlt : base < add64 base size := by
    obtain ⟨p, hf, hb⟩ := walkVmaRange_found he
    obtain ⟨hp, hend, -⟩ := findVma_some hag hf
    have := (hcut p hp (hall p hp hend hb).1).1
    omega
  have htidy : Yields (protectVmaRange fuel t base size flags) fun r =>
      CallKeeps (fun s => Tidy s ∧ SameBacked t.vm s) (fun _ => True) t.root r.2 := by
    refine protectVmaRange_keeps
      (Q := fun v => AnonUncut base (add64 base size) v ∧ (v.vmBase < add64 base size → v.vmSrc = none)) id id
      ⟨h.ok, ⟨h, fun _ _ => Iff.rfl⟩, rfl, trivial⟩ hbase hlast (fun p hp hend => ⟨hcut p hp, fun hb => (hall p hp hend hb).1⟩)
      (fun s s' p _ hs hp hq hb hsteps => ?_) fun _ _ _ _ _ => Ends.trivial _
    exact ⟨hsteps.tidy hs.1 hbase hlast hq.1, hs.2.trans (hsteps.sameBacked (hq.2 hb))⟩
  obtain ⟨h1, h2⟩ := (htidy.1 _ he).own
  exact ⟨hlt, ((protectVmaRange_walked hag hlt).1 _ he rfl).changed hag hall, h1, h2⟩

/-- A `sys_mprotect` call that changes the protection of the areas, and one that changes it back. -/
theorem sysMprotect_back {t1 t2 : TaskMem} {fuel' prot' : Nat} (h : Tidy t.vm)
    (hall : AllAnon t.vm (roundDown addr) (roundUp (add64 addr len)) prot') (hcut : (MemCall.mprotect addr len prot).Uncut t.vm)
    (he : sysMprotect fuel t addr len prot = .ok (0, t1)) (hcut' : (MemCall.mprotect addr len prot').Uncut t1.vm)
    (he' : sysMprotect fuel' t1 addr len prot' = .ok (0, t2)) : t2.vm.areas = t.vm.areas := by
  have hend := range_end addr len
  have hbase := pageAligned_roundDown addr
  have hlast : pageAligned (add64 (roundDown addr) (sub64 (roundUp (add64 addr len)) (roundDown addr))) := by
    rw [hend]
    exact pageAligned_roundUp _
  rw [← hend] at hall
  obtain ⟨hlt, hc1, ht1, hb1⟩ := protectVmaRange_changed h hbase hlast (by rw [hend]; exact hcut) hall (sysMprotect_returns he)
  obtain ⟨-, hc2, ht2, hb2⟩ := protectVmaRange_changed ht1 hbase hlast (by rw [hend]; exact hcut') (hc1.allAnon hlt hall)
    (sysMprotect_returns he')
  exact h.areas_eq ht2 (hc1.back hc2 hall) (hb1.trans hb2)

end Restore

/-! ## Runs -/

/-- Calls of a task, one after the other, none of which cuts an anonymous area. Between the calls the frames and the page tables
may change in any way. -/
inductive UncutRun : TaskMem → TaskMem → Prop
  | refl (t : TaskMem) : UncutRun t t
  | call {t t' t'' : TaskMem} {c : MemCall} {fuel : Nat} {image : Nat → UInt8} {cur : Option Nat} (hr : UncutRun t t')
    (hfit : c.AreasFit t'.vm) (hcut : c.Uncut t'.vm) (he : c.run fuel image cur t' = .ok t'') : UncutRun t t''
  | other {t t' t'' : TaskMem} (hr : UncutRun t t') (hvm : t''.vm = t'.vm) : UncutRun t t''

theorem VmSpace.Tidy.run {t t' : TaskMem} (h : Tidy t.vm) (hr : UncutRun t t') : Tidy t'.vm := by
  induction hr with
  | refl => exact h
  | call _ hfit hcut he ih => exact (MemCall.run_tidy ih hfit hcut).1 _ he
  | other _ hvm ih => exact hvm ▸ ih

/-- The areas of a program over every sequence of memory calls none of which has an end of its range within an anonymous area.
1. No two neighbours in the list that touch have the same name and flags, unless there is data behind one of them.
2. When all areas that a range meets are anonymous and have the same protection, changing it and changing it back, both with
   success and without a cut, gives the list of before. -/
theorem areas_stay_merged {fuel binary : Nat} {hdrs : List ProgHdr} {t t' : TaskMem} (hu : ∀ h ∈ hdrs, h.InUser)
    (hload : taskLoadElf fuel binary hdrs = .ok t.vm) (hr : UncutRun t t') :
    MergedForm t'.vm ∧
    ∀ (fuel1 fuel2 addr len prot prot' : Nat) (t1 t2 : TaskMem),
      AllAnon t'.vm (roundDown addr) (roundUp (add64 addr len)) prot' →
      (MemCall.mprotect addr len prot).Uncut t'.vm → sysMprotect fuel1 t' addr len prot = .ok (0, t1) →
      (MemCall.mprotect addr len prot').Uncut t1.vm → sysMprotect fuel2 t1 addr len prot' = .ok (0, t2) →
      t2.vm.areas = t'.vm.areas := by
  have hstart : Yields (taskLoadElf fuel binary hdrs) Tidy :=
    taskLoadElf_keeps id id Tidy.addKeeps tidy_empty hu
  have ht : Tidy t'.vm := (hstart.1 _ hload).run hr
  refine ⟨ht.mergedForm, fun fuel1 fuel2 addr len prot prot' t1 t2 hall hcut he hcut' he' => ?_⟩
  exact sysMprotect_back ht hall hcut he hcut' he'

/-- A program with a text segment maps three pages, write protects them and makes them writable again. -/
theorem areas_stay_merged_threePages :
    ∃ vm t t1 t2, taskLoadElf 20 0 [⟨true, 0x400000, 0x1800, 0x1800, 0, false, true⟩] = .ok vm ∧
      UncutRun (bareTask vm) t ∧ MergedForm t.vm ∧ sysMprotect 20 t 0x10000 0x3000 PROT_READ = .ok (0, t1) ∧
      sysMprotect 20 t1 0x10000 0x3000 (PROT_READ ||| PROT_WRITE) = .ok (0, t2) ∧ t2.vm.areas = t.vm.areas := by
  have hrun : ∃ vm, taskLoadElf 20 0 [⟨true, 0x400000, 0x1800, 0x1800, 0, false, true⟩] = .ok vm ∧
      (MemCall.mmap 0x10000 0x3000 3 (MAP_PRIVATE ||| MAP_ANONYMOUS ||| MAP_FIXED)).Uncut vm ∧
      ∃ t, (MemCall.mmap 0x10000 0x3000 3 (MAP_PRIVATE ||| MAP_ANONYMOUS ||| MAP_FIXED)).run 20 (fun _ => 0) none
        (bareTask vm) = .ok t ∧
      AllAnon t.vm (roundDown 0x10000) (roundUp (add64 0x10000 0x3000)) (PROT_READ ||| PROT_WRITE) ∧
      (MemCall.mprotect 0x10000 0x3000 PROT_READ).Uncut t.vm ∧
      ∃ t1, sysMprotect 20 t 0x10000 0x3000 PROT_READ = .ok (0, t1) ∧
      (MemCall.mprotect 0x10000 0x3000 (PROT_READ ||| PROT_WRITE)).Uncut t1.vm ∧
      ∃ t2, sysMprotect 20 t1 0x10000 0x3000 (PROT_READ ||| PROT_WRITE) = .ok (0, t2) := by
    decide +kernel
  obtain ⟨vm, hload, hcut, t, h0, hall, hcut1, t1, h1, hcut2, t2, h2⟩ := hrun
  have hfit : MmapFits vm 0x10000 0x3000 (MAP_PRIVATE ||| MAP_ANONYMOUS ||| MAP_FIXED) := ⟨by decide, .inl (by decide)⟩
  have hr : UncutRun (bareTask vm) t := .call (.refl _) (by exact fun _ => hfit) hcut h0
  have hu : ∀ h ∈ [(⟨true, 0x400000, 0x1800, 0x1800, 0, false, true⟩ : ProgHdr)], h.InUser := by
    intro h hh
    rw [List.mem_singleton.1 hh]
    exact fun _ => by decide
  obtain ⟨hmerged, hrestores⟩ := areas_stay_merged (t := bareTask vm) hu hload hr
  exact ⟨vm, t, t1, t2, hload, hr, hmerged, h1, h2, hrestores 20 20 _ _ _ _ t1 t2 hall hcut1 h1 hcut2 h2⟩

/-- Of three pages the first is write protected and made writable again. The halves of the area stay apart: the one has the
length of a page, the other that of two. -/
theorem areas_left_unmerged :
    ∃ vm t t1 t2, taskLoadElf 20 0 [] = .ok vm ∧
      (MemCall.mmap 0x10000 0x3000 (PROT_READ ||| PROT_WRITE) (MAP_PRIVATE ||| MAP_ANONYMOUS ||| MAP_FIXED)).run 20 (fun _ => 0)
        none (bareTask vm) = .ok t ∧
      sysMprotect 20 t 0x10000 0x1000 PROT_READ = .ok (0, t1) ∧
      sysMprotect 20 t1 0x10000 0x1000 (PROT_READ ||| PROT_WRITE) = .ok (0, t2) ∧
      MergedForm t.vm ∧ ¬MergedForm t2.vm ∧ t2.vm.areas ≠ t.vm.areas := by
  simp only [exists_and_left]
  decide +kernel

end OpenLsd
