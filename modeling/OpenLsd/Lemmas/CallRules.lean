import OpenLsd.Lemmas.AreaProtect
import OpenLsd.Lemmas.Moves
import OpenLsd.Lemmas.Search

/-!
# Rules for the memory calls

What a memory call does to areas and page tables, given what the operations on regions do to the page tables. `K` is a
property of the frames and the page tables that each operation keeps, and `T` is one of the areas. A call works on page tables
only for ranges that some area reaches into, so the ranges lie in the user half or are empty.
-/

namespace OpenLsd

open Outcome Function VmSpace

variable {bad : Stop → Prop} {T : VmSpace → Prop} {K : Phys × Pml4 → Prop} {fuel base size addr len prot flags va root pml4 p : Nat}
  {t s : TaskMem} {image : Nat → UInt8} {r : Phys × Pml4}

/-- What a call keeps. -/
structure CallKeeps (T : VmSpace → Prop) (K : Phys × Pml4 → Prop) (root : Nat) (s : TaskMem) : Prop where
  areas : AreasOk s.vm
  own : T s.vm
  root : s.root = root
  pages : K (s.phys, s.pml4)

theorem CallKeeps.any (h : AreasOk t.vm) (hK : K (t.phys, t.pml4)) : CallKeeps (fun _ => True) K t.root t := ⟨h, trivial, rfl, hK⟩

/-! ## Walks -/

/-- A walk over areas, which starts only at an area that the range reaches into. `L` is what is known of the area that comes
next. -/
theorem walkVmaRange_keeps {getVma : Nat → Nat → TaskMem → Nat → Kernel (Bool × TaskMem)} (L : VmSpace → Nat → Prop)
    (hloop : ¬bad .loop) (h : CallKeeps T K root t) (hfirst : ∀ p ∈ t.vm.taskMmap, base < (t.vm.vma p).vmEnd → L t.vm p)
    (hstep : ∀ s p, base < USER_LIM → 0 < add64 base size → CallKeeps T K root s → L s.vm p → (s.vm.vma p).vmBase < add64 base size →
      Ends bad (getVma base size s p) fun r => CallKeeps T K root r.2 ∧ (r.1 = true → ∀ q, listNext p s.vm.taskMmap = some q → L r.2.vm q)) :
    Ends bad (walkVmaRange getVma t base size) fun r => CallKeeps T K root r.2 := by
  refine walkVmaRange_rule (I := fun s next => (base < USER_LIM ∧ 0 < add64 base size) ∧ CallKeeps T K root s ∧
    ∀ p, next = some p → L s.vm p) hloop h (fun p hp hlt => ?_) (fun s p hi hlt => ?_) fun s next hi _ => hi.2.1
  · obtain ⟨hpm, hpe, _⟩ := findVma_some h.areas.agrees hp
    have hhigh := (h.areas.vmEnd hpm).2.2
    refine ⟨⟨by omega, by omega⟩, h, fun q hq => ?_⟩
    cases hq
    exact hfirst p hpm hpe
  · obtain ⟨⟨hbase, hlast⟩, hk, hL⟩ := hi
    refine (hstep s p hbase hlast hk (hL p rfl) hlt).mono fun r ⟨hk', hL'⟩ => ?_
    split
    · rename_i hok
      exact ⟨⟨hbase, hlast⟩, hk', hL' hok⟩
    · exact hk'

theorem taskPml4_eq (h : s.root = t.root) : s.taskPml4 = t.taskPml4 :=
  congrArg (fun root => KADDR (root * PAGE_SIZE)) h

theorem removeVmaRange_keeps (hloop : ¬bad .loop) (htree : ¬bad .rbTree) (h : CallKeeps T K t.root t) (hbase : pageAligned base)
    (hlast : pageAligned (add64 base size))
    (hT : ∀ s s' p, AreasOk s → AreasOk s' → T s → p ∈ s.taskMmap → Removed s s' p base (add64 base size) → T s')
    (hu : base < USER_LIM → 0 < add64 base size → ∀ m pt, K (m, pt) → Ends bad (unmapPageRange t.taskPml4 m pt base size) K) :
    Ends bad (removeVmaRange fuel t base size) fun r => CallKeeps T K t.root r.2 := by
  refine walkVmaRange_keeps (fun s p => p ∈ s.taskMmap) hloop h (fun p hp _ => hp) fun s p hb hl hs hp _ => ?_
  have hu' := hu hb hl s.phys s.pml4 hs.pages
  rw [← taskPml4_eq hs.root] at hu'
  refine (doRemoveVma_spec htree hs.areas.agrees hp hu').mono fun r ⟨_, hroot, hk, hr⟩ => ?_
  have hok := hs.areas.removed hr hbase hlast
  refine ⟨⟨hok, hT _ _ p hs.areas hok hs.own hp hr, hroot.trans hs.root, hk⟩, fun _ q hq => ?_⟩
  obtain ⟨hqm, hqp⟩ := listNext_ne hs.areas.agrees.tree.tree.1 hq
  exact (hr.other q hqm hqp).1

theorem unmapVmaRange_keeps (hloop : ¬bad .loop) (h : CallKeeps T K t.root t) (hbase : pageAligned base)
    (hlast : pageAligned (add64 base size))
    (hT : ∀ s s' p, AreasOk s → AreasOk s' → T s → p ∈ s.taskMmap → Split s s' p (EndOf base (add64 base size)) → T s')
    (hu : ∀ s, K s → Ends bad (forRange (fun i => unmapClean t.taskPml4 (base + i * PAGE_SIZE)) (pageCount base (add64 base size)) 0
      s) K) : Ends bad (unmapVmaRange t base size) fun r => CallKeeps T K t.root r.2 := by
  refine walkVmaRange_keeps (fun s p => p ∈ s.taskMmap) hloop h (fun p hp _ => hp) fun s p _ _ hs hp _ => ?_
  have hu' := hu _ hs.pages
  rw [← taskPml4_eq hs.root] at hu'
  refine (doUnmapVma_spec hs.areas.agrees hp hu').mono fun r ⟨_, hroot, hk, hr⟩ => ?_
  have hok := hs.areas.rearranged hr.rearranged fun _ => EndOf.aligned hbase hlast
  exact ⟨⟨hok, hT _ _ p hs.areas hok hs.own hp hr, hroot.trans hs.root, hk⟩, fun _ q hq =>
    hr.keep q (listNext_ne hs.areas.agrees.tree.tree.1 hq).1⟩

/-- The walk of `protect_vma_range` comes to areas as they were at its start, or to one that was merged away and ends. `Q` is
what holds of the areas from the first one on. -/
theorem protectVmaRange_keeps {Q : Vma → Prop} (hloop : ¬bad .loop) (htree : ¬bad .rbTree) (h : CallKeeps T K t.root t)
    (hbase : pageAligned base) (hlast : pageAligned (add64 base size))
    (hQ : ∀ p ∈ t.vm.taskMmap, base < (t.vm.vma p).vmEnd → Q (t.vm.vma p))
    (hT : ∀ s s' p, AreasOk s → T s → p ∈ s.taskMmap → Q (s.vma p) → (s.vma p).vmBase < add64 base size →
      ProtectSteps fuel s s' p base (add64 base size) flags → T s')
    (hp : base < USER_LIM → 0 < add64 base size → ∀ m pt, K (m, pt) →
      Ends bad (protectRegion t.taskPml4 m pt base size (protectFlags flags)) K) :
    Ends bad (protectVmaRange fuel t base size flags) fun r => CallKeeps T K t.root r.2 := by
  refine walkVmaRange_keeps (fun s p => Freed s p ∨
      (p ∈ s.taskMmap ∧ ∀ x ∈ s.taskMmap, (s.vma p).vmBase ≤ (s.vma x).vmBase → Q (s.vma x))) hloop h
    (fun p hp hend => .inr ⟨hp, fun x hx hle => hQ x hx ?_⟩) fun s p hb hl hs hnext hlt => ?_
  · have := h.areas.agrees.proper x hx
    by_cases e : x = p
    · rwa [e]
    · have := h.areas.agrees.apart hx hp e
      simp only [Apart] at this
      omega
  rcases hnext with hfreed | ⟨hpm, hQs⟩
  · rw [doProtectVma_freed hfreed]
    refine .ok ⟨hs, fun _ q hq => ?_⟩
    rw [listNext_none hfreed.1] at hq
    cases hq
  have hag := hs.areas.agrees
  have hp' := hp hb hl s.phys s.pml4 hs.pages
  rw [← taskPml4_eq hs.root] at hp'
  refine (doProtectVma_steps htree hag hpm hp').mono fun r hr => ?_
  have hr := hr.2
  have hpp := hag.proper p hpm
  split at hr
  · rw [hr]
    refine ⟨hs, fun _ n hn => .inr ?_⟩
    obtain ⟨hns, hnb, -⟩ := hag.listNext_first hpm hn
    exact ⟨hns, fun x hx hle => hQs x hx (by omega)⟩
  · obtain ⟨hroot, hk, hsteps⟩ := hr
    have hprot := hsteps.protected
    refine ⟨⟨hs.areas.protect hprot hbase hlast, hT _ _ p hs.areas hs.own hpm (hQs p hpm le_rfl) hlt hsteps,
      hroot.trans hs.root, hk⟩, fun _ n hn => ?_⟩
    obtain ⟨hns, hnb, -⟩ := hag.listNext_first hpm hn
    have hbehind := hsteps.behind hag
    have hn' := hbehind n hns hnb
    by_cases hm : mergeable (protectedPart (s.vm.vma p) base (add64 base size) flags) (s.vm.vma n)
    · exact .inl (hn'.1 hm)
    · obtain ⟨hnr, hnv⟩ := hn'.2 hm
      refine .inr ⟨hnr, fun x hx hle => ?_⟩
      rw [hnv] at hle
      obtain ⟨hxs, hxv⟩ := hbehind.old hag hprot hns hnb hm hx hle
      rw [hxv] at hle ⊢
      exact hQs x hxs (by omega)

/-- Unmapping a range of the user half keeps `K`. -/
def UnmapKeeps (bad : Stop → Prop) (pml4 : Nat) (K : Phys × Pml4 → Prop) : Prop :=
  ∀ m pt base size last, UserRange base last → add64 base size = last → K (m, pt) → Ends bad (unmapPageRange pml4 m pt base size) K

/-- A page is unmapped with what follows it, up to the size of a huge page. -/
theorem unmapClean_keeps (hal : pageAligned va) (hlim : va + HPAGE_SIZE ≤ USER_LIM) (hK : K r)
    (hu : UnmapKeeps bad pml4 K) : Ends bad (unmapClean pml4 va r) K := by
  have hrange : ∀ size, 0 < size → size ≤ HPAGE_SIZE → pageAligned size → Ends bad (unmapPageRange pml4 r.1 r.2 va size) K := by
    intro size hpos hle hals
    have hend : va + size ≤ USER_LIM := by omega
    refine hu _ _ _ _ _ ⟨hal, ?_, by omega, hend⟩ (add64_of_le hend) hK
    simp only [pageAligned, PAGE_SIZE] at *
    omega
  unfold unmapClean
  cases hl : pageLookup r.2 va with
  | none => exact .ok hK
  | some e =>
    refine .ite (fun _ => .ok hK) fun _ => ?_
    unfold pageRemove
    rw [hl]
    exact .ite (fun _ => hrange _ (by decide) le_rfl (by decide)) fun _ => hrange _ (by decide) (by decide) (by decide)

theorem forRange_unmapClean (hbase : pageAligned base) (hlim : add64 base size + HPAGE_SIZE ≤ USER_LIM) (hK : K r)
    (hu : UnmapKeeps bad pml4 K) :
    Ends bad (forRange (fun i => unmapClean pml4 (base + i * PAGE_SIZE)) (pageCount base (add64 base size)) 0 r) K := by
  refine forRange_rule (I := fun _ => K) (fun i r _ hi hr => unmapClean_keeps ?_ ?_ hr hu) hK
  · simp only [pageAligned, PAGE_SIZE] at *
    omega
  · simp only [pageCount, PAGE_SIZE] at *
    omega

/-! ## Populating -/

/-- What `do_populate_vma` does to the page tables for the area `v`. -/
def populatePages (image : Nat → UInt8) (pml4 : Nat) (v : Vma) (base size : Nat) (s : Phys × Pml4) : Kernel (Phys × Pml4) := do
  let flags := populateFlags v.vmFlags
  if hugeShortcut v base then
    let s ← populateRegion s.1 s.2 (blockStart HPAGE_SIZE base) HPAGE_SIZE { flags with huge := true }
    protectRegion pml4 s.1 s.2 base size flags
  else
    let s ← populateRegion s.1 s.2 base size flags
    let s ← fillFrom image v base size s
    protectRegion pml4 s.1 s.2 base size flags

theorem doPopulateVma_eq (s : TaskMem) (p : Nat) : doPopulateVma image flags base size s p =
    if ¬populateAllowed flags (s.vm.vma p).vmFlags then .ok (false, s)
    else populatePages image s.taskPml4 (s.vm.vma p) base size (s.phys, s.pml4) >>= fun r =>
      .ok (true, { s with phys := r.1, pml4 := r.2 }) := by
  by_cases hall : populateAllowed flags (s.vm.vma p).vmFlags
  · by_cases hs : hugeShortcut (s.vm.vma p) base
    · simp only [doPopulateVma, populatePages, hall, hs, not_true, if_true, if_false, bind_assoc]
    · simp only [doPopulateVma, populatePages, hall, hs, not_true, if_false, bind_assoc]
  · simp only [doPopulateVma, hall, not_false_eq_true, if_true]

theorem doPopulateVma_spec {P : Phys × Pml4 → Prop}
    (h : populateAllowed flags (s.vm.vma p).vmFlags →
      Ends bad (populatePages image s.taskPml4 (s.vm.vma p) base size (s.phys, s.pml4)) P) :
    Ends bad (doPopulateVma image flags base size s p) fun r =>
      r.2.vm = s.vm ∧ r.2.root = s.root ∧ if r.1 = true then P (r.2.phys, r.2.pml4) else r.2 = s := by
  rw [doPopulateVma_eq]
  refine .ite (fun _ => .ok ⟨rfl, rfl, rfl⟩) fun hall => ?_
  exact (h (Decidable.not_not.1 hall)).bind fun r hr => .ok ⟨rfl, rfl, hr⟩

/-- Populating a range, area by area. -/
theorem populateVmaRange_keeps (hloop : ¬bad .loop) (h : AreasOk t.vm) (hK : K (t.phys, t.pml4))
    (hp : ∀ p ∈ t.vm.taskMmap, (t.vm.vma p).vmBase < add64 base size → base < (t.vm.vma p).vmEnd →
      populateAllowed flags (t.vm.vma p).vmFlags → ∀ m pt, K (m, pt) →
      Ends bad (populatePages image t.taskPml4 (t.vm.vma p) base size (m, pt)) K) :
    Ends bad (populateVmaRange image t base size flags) fun r =>
      r.2.vm = t.vm ∧ r.2.root = t.root ∧ K (r.2.phys, r.2.pml4) := by
  refine walkVmaRange_rule (I := fun s next => s.vm = t.vm ∧ s.root = t.root ∧ K (s.phys, s.pml4) ∧
    ∀ p, next = some p → p ∈ t.vm.taskMmap ∧ base < (t.vm.vma p).vmEnd) hloop ⟨rfl, rfl, hK⟩ (fun p hf _ => ?_)
    (fun s p hi hlt => ?_) fun s next hi _ => ⟨hi.1, hi.2.1, hi.2.2.1⟩
  · obtain ⟨hpm, hpe, _⟩ := findVma_some h.agrees hf
    refine ⟨rfl, rfl, hK, fun q hq => ?_⟩
    cases hq
    exact ⟨hpm, hpe⟩
  · obtain ⟨hvm, hroot, hk, hnext⟩ := hi
    obtain ⟨hpm, hpe⟩ := hnext p rfl
    rw [hvm] at hlt
    refine (doPopulateVma_spec (P := K) fun hall => ?_).mono fun r ⟨hvm', hroot', hr⟩ => ?_
    · rw [hvm, taskPml4_eq hroot] at *
      exact hp p hpm hlt hpe hall _ _ hk
    · split at hr
      · rename_i hok
        rw [if_pos hok]
        refine ⟨hvm'.trans hvm, hroot'.trans hroot, hr, fun q hq => ?_⟩
        rw [hvm] at hq
        obtain ⟨hqm, hle, _⟩ := h.agrees.listNext_first hpm hq
        have := h.agrees.proper q hqm
        exact ⟨hqm, by omega⟩
      · rename_i hok
        rw [if_neg hok, hr]
        exact ⟨hvm, hroot, hk⟩

theorem hugeShortcut.block {v : Vma} (h : hugeShortcut v base) (hbase : base < USER_LIM) (hv : v.vmEnd ≤ USER_LIM) :
    UserRange (blockStart HPAGE_SIZE base) (blockStart HPAGE_SIZE base + HPAGE_SIZE) ∧
      add64 (blockStart HPAGE_SIZE base) HPAGE_SIZE = blockStart HPAGE_SIZE base + HPAGE_SIZE := by
  obtain ⟨_, _, hend⟩ := h
  have hsize : HPAGE_SIZE = 2097152 := by decide
  have hadd : add64 (blockStart HPAGE_SIZE base) HPAGE_SIZE = blockStart HPAGE_SIZE base + HPAGE_SIZE := by
    simp only [add64, blockStart, hsize, USER_LIM] at *
    omega
  refine ⟨⟨?_, ?_, ?_, ?_⟩, hadd⟩
  · simp only [pageAligned, blockStart, hsize, PAGE_SIZE]
    omega
  · simp only [pageAligned, blockStart, hsize, PAGE_SIZE]
    omega
  · simp only [hsize]
    omega
  · rw [← hadd]
    exact le_trans hend hv

section Populate

variable {keep : Orders} {lossy : Prop} {R : StateRel} {ext : Nat → Nat}
  {alloc : Orders} {m : Phys} {pt : Pml4} {pml4 : Nat} {v : Vma}

/-- Populating a range of an area. -/
theorem populatePages_moves (h : UserRange base (base + size)) (hv : v.vmEnd ≤ USER_LIM) (hacc : Acc keep ext alloc m pt)
    (hblock : hugeShortcut v base → ∀ g < 2 ^ 35, ∀ s s' s'',
      (populateRel { populateFlags v.vmFlags with huge := true }).at (blockStart HPAGE_SIZE base / PAGE_SIZE)
        ((blockStart HPAGE_SIZE base + HPAGE_SIZE) / PAGE_SIZE) g s s' →
      (protectRel (populateFlags v.vmFlags)).at (base / PAGE_SIZE) ((base + size) / PAGE_SIZE) g s' s'' → R g s s'')
    (hpages : ¬hugeShortcut v base → ∀ g < 2 ^ 35, ∀ s s1 s2 s3,
      (populateRel (populateFlags v.vmFlags)).at (base / PAGE_SIZE) ((base + size) / PAGE_SIZE) g s s1 →
      Filled image (v.fillSrc base) base (v.fillLen base size) g s1 s2 →
      (protectRel (populateFlags v.vmFlags)).at (base / PAGE_SIZE) ((base + size) / PAGE_SIZE) g s2 s3 → R g s s3) :
    Ends Panics (populatePages image pml4 v base size (m, pt)) (Moves keep lossy R ext alloc m pt) := by
  have hadd := add64_of_le h.le
  have hprotect : ∀ ext alloc m pt, Acc keep ext alloc m pt →
      Ends Panics (protectRegion pml4 m pt base size (populateFlags v.vmFlags)) (Moves keep lossy
        ((protectRel (populateFlags v.vmFlags)).at (base / PAGE_SIZE) ((base + size) / PAGE_SIZE)) ext alloc m pt) :=
    fun ext alloc m pt hacc => (protectRegion_moves h hadd hacc).mono fun r hr => hr.lossy_imp fun hno => by cases hno
  refine .ite (fun hs => ?_) fun hs => ?_
  · obtain ⟨hrange, hend⟩ := hs.block (lt_of_lt_of_le h.lt h.le) hv
    refine Moves.seq (populateRegion_moves hrange hend (fun _ => ?_) hacc)
      (fun r ext1 alloc1 h1 => hprotect ext1 alloc1 r.1 r.2 h1.acc) (hblock hs)
    rw [blockStart]
    exact Nat.mul_mod_left _ _
  · refine Moves.seq (populateRegion_moves h hadd (fun hno => by cases hno) hacc) (fun r ext1 alloc1 h1 => ?_)
      (S := fun g s1 s3 => ∃ s2, Filled image (v.fillSrc base) base (v.fillLen base size) g s1 s2 ∧
        (protectRel (populateFlags v.vmFlags)).at (base / PAGE_SIZE) ((base + size) / PAGE_SIZE) g s2 s3)
      fun g hg s s1 s3 hs1 hs3 => hs3.elim fun s2 hs2 => hpages hs g hg s s1 s2 s3 hs1 hs2.1 hs2.2
    refine Moves.seq (fillFrom_moves h.le h1.acc fun g hge hlt => ?_)
      (fun r' ext2 alloc2 h2 => hprotect ext2 alloc2 r'.1 r'.2 h2.acc) fun g _ s1 s2 s3 hs2 hs3 => ⟨s2, hs2, hs3⟩
    have hlast := h.pages.2.2
    have hend : g < (base + size) / PAGE_SIZE := by
      have := h.alignedLast
      simp only [pageAligned, PAGE_SIZE] at *
      omega
    have hpage := h1.page g (by have := h.pages.2.1; omega)
    rw [PageRel.at, if_pos ⟨hge, hend⟩] at hpage
    exact hpage.alone

end Populate

theorem AreasOk.page_in {s : VmSpace} (h : AreasOk s) (hp : p ∈ s.taskMmap) (hb : (s.vma p).vmBase ≤ va)
    (he : va < (s.vma p).vmEnd) : (s.vma p).vmBase ≤ roundDown va ∧ roundDown va + PAGE_SIZE ≤ (s.vma p).vmEnd := by
  have hb' := (h.vmBase hp).1
  have he' := (h.vmEnd hp).1
  simp only [pageAligned, roundDown, PAGE_SIZE] at *
  omega

section

variable (hloop : ¬bad .loop) {advise : Nat}

include hloop

/-- A page fault populates one page of the area that it hits. -/
theorem taskPageFaultHandler_spec {P : Phys × Pml4 → Prop} (h : AreasOk t.vm)
    (hp : ∀ p ∈ t.vm.taskMmap, t.vm.taskFindVma va = some p → (t.vm.vma p).vmBase ≤ roundDown va →
      roundDown va + PAGE_SIZE ≤ (t.vm.vma p).vmEnd → hasFlag (t.vm.vma p).vmFlags PROT_READ = true →
      populateAllowed flags (t.vm.vma p).vmFlags →
      Ends bad (populatePages image t.taskPml4 (t.vm.vma p) (roundDown va) PAGE_SIZE (t.phys, t.pml4)) P) :
    Ends bad (taskPageFaultHandler image t va flags) fun r =>
      r.2 = t ∨ r.2.vm = t.vm ∧ r.2.root = t.root ∧ P (r.2.phys, r.2.pml4) := by
  unfold taskPageFaultHandler
  split
  · exact .ok (.inl rfl)
  · rename_i p hf
    obtain ⟨hpm, hpb, hpe⟩ := taskFindVma_some h.agrees hf
    obtain ⟨hbase, hend⟩ := h.page_in hpm hpb hpe
    refine .ite (fun _ => .ok (.inl rfl)) fun _ => .ite (fun _ => .ok (.inl rfl)) fun _ => .ite (fun _ => .ok (.inl rfl))
      fun hread => ?_
    have hadd : add64 (roundDown va) PAGE_SIZE = roundDown va + PAGE_SIZE :=
      add64_of_le (le_trans hend (h.vmEnd hpm).2.2)
    have hwalk : Ends bad (populateVmaRange image t (roundDown va) PAGE_SIZE flags) fun r =>
        r.2 = t ∨ r.2.vm = t.vm ∧ r.2.root = t.root ∧ P (r.2.phys, r.2.pml4) := by
      refine walkVmaRange_rule (I := fun s next => (s = t ∧ next = some p) ∨ (s.vm = t.vm ∧ s.root = t.root ∧
        P (s.phys, s.pml4)) ∧ ∀ q, next = some q → roundDown va + PAGE_SIZE ≤ (t.vm.vma q).vmBase) hloop (.inl rfl)
        (fun q hq hlt => .inl ⟨rfl, ?_⟩) (fun s q hi hlt => ?_) fun s next hi _ => hi.imp And.left And.left
      · obtain ⟨hqm, hqe, _⟩ := findVma_some h.agrees hq
        by_contra hne
        have hap := h.agrees.apart hqm hpm fun e => hne (congrArg some e)
        rw [hadd] at hlt
        simp only [Apart] at hap
        omega
      · rcases hi with ⟨rfl, hq⟩ | ⟨⟨hvm, _, _⟩, hbeyond⟩
        · cases hq
          refine (doPopulateVma_spec (hp p hpm hf hbase hend (by simpa using hread))).mono fun r hr => ?_
          obtain ⟨hvm, hroot, hr⟩ := hr
          split at hr
          · rename_i hok
            rw [if_pos hok]
            refine .inr ⟨⟨hvm, hroot, hr⟩, fun q hq => ?_⟩
            have := (h.agrees.listNext_first hpm hq).2.1
            omega
          · rename_i hok
            rw [if_neg hok]
            exact .inl hr
        · rw [hvm, hadd] at hlt
          have := hbeyond q rfl
          omega
    exact hwalk.bind fun r hr => .ok hr

/-! ## The calls -/

omit hloop in
theorem protectFlags_present (h : hasFlag prot PROT_READ = true) : (protectFlags prot).present = true := by
  unfold protectFlags
  split
  · next hz =>
    rw [hz] at h
    cases h
  · exact h

/-- Changing the protection of the range of `sys_mprotect` keeps `K`. -/
def ProtectKeeps (bad : Stop → Prop) (pml4 : Nat) (K : Phys × Pml4 → Prop) (addr len prot : Nat) : Prop :=
  UserRange (roundDown addr) (roundUp (add64 addr len)) → ∀ m pt, K (m, pt) → Ends bad (protectRegion pml4 m pt (roundDown addr)
    (sub64 (roundUp (add64 addr len)) (roundDown addr)) (protectFlags prot)) K

/-- What `sys_mprotect` keeps. -/
theorem sysMprotect_kept {Q : Vma → Prop} (htree : ¬bad .rbTree) (h : CallKeeps T K t.root t)
    (hQ : ∀ p ∈ t.vm.taskMmap, Q (t.vm.vma p))
    (hT : ∀ s s' p, AreasOk s → T s → p ∈ s.taskMmap → Q (s.vma p) →
      ProtectSteps fuel s s' p (roundDown addr) (roundUp (add64 addr len)) prot → T s')
    (hp : ProtectKeeps bad t.taskPml4 K addr len prot) : Ends bad (sysMprotect fuel t addr len prot) fun r => CallKeeps T K t.root r.2 := by
  have hend := range_end addr len
  have hal := pageAligned_roundDown addr
  have hal' := pageAligned_roundUp (add64 addr len)
  refine .ite (fun _ => .ok h) fun _ => .ite (fun _ => .ok h) fun _ => .ite (fun _ => .ok h) fun _ => .ite (fun _ => .ok h)
    fun _ => .ite (fun _ => .ok h) fun _ => .ite (fun _ => .ok h) fun hlim => ?_
  refine (protectVmaRange_keeps hloop htree h hal (by rwa [hend]) (fun p hp _ => hQ p hp) (fun s s' p hs hT' hpm hq _ => ?_)
    fun hbase hpos m pt hk => ?_).bind fun r hr => .ok hr
  · rw [hend]
    exact hT s s' p hs hT' hpm hq
  rw [hend] at hpos
  by_cases hlt : roundDown addr < roundUp (add64 addr len)
  · exact hp ⟨hal, hal', hlt, by omega⟩ m pt hk
  · unfold protectRegion
    rw [hend, walkPageRange_empty _ hal hal' hbase hpos (by omega)]
    exact .ok hk

theorem sysMprotect_keeps (htree : ¬bad .rbTree) (h : AreasOk t.vm) (hK : K (t.phys, t.pml4))
    (hp : ProtectKeeps bad t.taskPml4 K addr len prot) : Ends bad (sysMprotect fuel t addr len prot) fun r => CallKeeps (fun _ => True) K t.root r.2 :=
  sysMprotect_kept (Q := fun _ => True) hloop htree (.any h hK) (fun _ _ => trivial) (fun _ _ _ _ _ _ _ _ => trivial) hp

/-- What adding areas and taking them out keeps. -/
structure AreaRule (fuel : Nat) (T : VmSpace → Prop) : Prop where
  same : ∀ {s s'}, SameAreas s s' → AreasOk s → T s → T s'
  add : ∀ {s s' b size prot p}, AreasOk s → T s → UserBound b → UserBound (b + size) → 0 < size →
    s.addExecutableVma fuel true "user" b size prot none 0 = some (some p, s') → T s'
  takeOut : ∀ {s s' p}, AreasOk s → T s → TakenOut s s' p → T s'

omit hloop in
theorem AreaRule.any : AreaRule fuel fun _ => True := ⟨fun _ _ _ => trivial, fun _ _ _ _ _ _ => trivial, fun _ _ _ => trivial⟩

/-- Populating a range of the user half keeps `K`. -/
def PopulateKeeps (bad : Stop → Prop) (image : Nat → UInt8) (pml4 : Nat) (K : Phys × Pml4 → Prop) : Prop :=
  ∀ m pt v base size, UserRange base (base + size) → v.vmEnd ≤ USER_LIM → K (m, pt) →
    Ends bad (populatePages image pml4 v base size (m, pt)) K

/-- What `sys_mmap` keeps. -/
theorem sysMmap_kept (htree : ¬bad .rbTree) (h : CallKeeps T K t.root t) (hT : AreaRule fuel T)
    (hfit : mmapAllowed addr len prot flags → MmapFits t.vm addr len flags)
    (hclear : hasFlag flags MAP_FIXED = true → Yields (removeVmaRange fuel t (roundDown addr)
      (sub64 (roundUp (add64 addr len)) (roundDown addr))) fun r => T r.2.vm)
    (hu : UnmapKeeps bad t.taskPml4 K)
    (hp : PopulateKeeps bad image t.taskPml4 K) :
    Ends bad (sysMmap fuel image t addr len prot flags) fun r => CallKeeps T K t.root r.2 := by
  refine .ite (fun _ => .ok h) fun hall => ?_
  have hall : mmapAllowed addr len prot flags := Decidable.not_not.1 hall
  have hfit := hfit hall
  have hlt := hfit.1
  have hlim : roundUp (add64 addr len) < USER_LIM := hall.2.2.2.2
  have hrange : UserRange (roundDown addr) (roundUp (add64 addr len)) :=
    ⟨pageAligned_roundDown _, pageAligned_roundUp _, hlt, le_of_lt hlim⟩
  have hend := range_end addr len
  have hsize : sub64 (roundUp (add64 addr len)) (roundDown addr) = roundUp (add64 addr len) - roundDown addr :=
    sub64_of_le (le_of_lt hlt) (roundUp_lt _)
  have hal := pageAligned_sub (pageAligned_roundUp (add64 addr len)) (pageAligned_roundDown addr)
  have hcleared : Ends bad (mmapClear fuel t (roundDown addr) (sub64 (roundUp (add64 addr len)) (roundDown addr)) flags) fun r =>
      (r.root = t.root ∧ K (r.phys, r.pml4) ∧ MmapReady t.vm r.vm addr len flags) ∧ T r.vm := by
    refine (mmapClear_spec hloop htree h.areas hfit h.pages (fun _ _ hk _ => hk) fun m pt hk =>
      hu m pt _ _ _ hrange hend (or_self_iff.1 hk)).and ?_
    exact .ite (fun hfixed => (hclear hfixed).bind fun r hr => .ok hr) fun _ => .ok h.own
  refine hcleared.bind fun t1 ht1 => ?_
  obtain ⟨⟨hroot, hk1, hready⟩, hT1⟩ := ht1
  rw [hsize]
  generalize hn : roundUp (add64 addr len) - roundDown addr = n at *
  have hpos : 0 < n := by omega
  have hbounds : ∀ b, PAGE_SIZE ≤ b → b + n ≤ USER_LIM → pageAligned b → UserBound b ∧ UserBound (b + n) := by
    intro b hlow hhigh hb
    refine ⟨⟨hb, hlow, by omega⟩, ?_, by omega, hhigh⟩
    simp only [pageAligned, PAGE_SIZE] at *
    omega
  refine (addVma_rule (M := fun s s' b p => Placed s s' "user" n prot b p ∧ (PAGE_SIZE ≤ b → AreasOk s → T s → T s')) hloop htree hpos
    hal (pageAligned_roundDown addr) (by omega) ⟨fun hs hhigh hb he => ?_, fun hsame hm => ⟨.of_same hsame hm.1, fun hlow hs hT' =>
      hm.2 hlow (hsame.ok hs) (hT.same hsame hs hT')⟩⟩ hready.ok).bind fun v hadd => ?_
  · refine (addExecutableVma_placed hs hpos hhigh he).imp_right fun hp => ?_
    obtain ⟨p, rfl, hp⟩ := hp
    refine ⟨p, rfl, hp.free, hp, fun hlow hs hT' => ?_⟩
    obtain ⟨hub, hue⟩ := hbounds _ hlow hhigh hb
    exact hT.add hs hT' hub hue hpos he
  obtain ⟨r, vm⟩ := v
  rcases hadd with ⟨rfl, hsame⟩ | ⟨p, rfl, ⟨b, -, hlow, hhigh, hb, hp', hTp⟩ | ⟨-, hno⟩⟩
  · exact .ok ⟨hsame.ok hready.ok, hT.same hsame hready.ok hT1, hroot, hk1⟩
  · have hok : AreasOk vm := by
      obtain ⟨hub, hue⟩ := hbounds b hlow hhigh hb
      exact hp'.ok hready.ok hub hue
    have hTvm : T vm := hTp hlow hready.ok hT1
    have hmem : p ∈ vm.taskMmap := hp'.mem
    refine .ite (fun _ => ?_) fun _ => .ok ⟨hok, hTvm, hroot, hk1⟩
    -- The area may have grown into the one before it, but it covers the range from its base on.
    have hcov1 : (vm.vma p).vmBase ≤ b := hp'.covers.1
    have hvb := hok.vmBase hmem
    have hve := hok.vmEnd hmem
    have hpages : UserRange (vm.vma p).vmBase ((vm.vma p).vmBase + n) := by
      refine ⟨hvb.1, ?_, by omega, by have := hve.2.2; omega⟩
      have := hvb.1
      simp only [pageAligned, PAGE_SIZE] at *
      omega
    refine (populateVmaRange_keeps (t := { t1 with vm := vm }) (K := K) hloop hok hk1 fun q hq _ _ _ m pt hk => ?_).bind
      fun r hr => ?_
    · rw [show TaskMem.taskPml4 { t1 with vm := vm } = t.taskPml4 from taskPml4_eq hroot]
      exact hp m pt _ _ _ hpages (hok.vmEnd hq).2.2 hk
    · obtain ⟨ok, t2⟩ := r
      obtain ⟨hvm, hroot2, hk2⟩ := hr
      have hroot' : t2.root = t.root := Eq.trans hroot2 hroot
      cases ok with
      | true => exact .ok ⟨hvm ▸ hok, hvm ▸ hTvm, hroot', hk2⟩
      | false =>
        show Ends _ (ofTree (t2.vm.removeVma fuel p) >>= fun vm => _) _
        rw [hvm]
        cases hr : vm.removeVma fuel p with
        | none => exact .error htree
        | some vm' =>
          have ht := removeVma_takenOut hok.agrees hmem hr
          exact .ok ⟨hok.takenOut ht, hT.takeOut hok hTvm ht, hroot', hk2⟩
  · exact absurd (hn ▸ hready.fits) hno

theorem sysMmap_keeps (htree : ¬bad .rbTree) (h : AreasOk t.vm) (hK : K (t.phys, t.pml4))
    (hfit : mmapAllowed addr len prot flags → MmapFits t.vm addr len flags) (hu : UnmapKeeps bad t.taskPml4 K)
    (hp : PopulateKeeps bad image t.taskPml4 K) :
    Ends bad (sysMmap fuel image t addr len prot flags) fun r => CallKeeps (fun _ => True) K t.root r.2 :=
  sysMmap_kept hloop htree (.any h hK) .any hfit (fun _ => Ends.trivial _) hu hp

theorem sysMunmap_keeps (htree : ¬bad .rbTree) (h : AreasOk t.vm) (hK : K (t.phys, t.pml4))
    (hlim : roundDown (add64 addr len) ≤ USER_LIM) (hu : UnmapKeeps bad t.taskPml4 K) :
    Ends bad (sysMunmap fuel t addr len) fun r => CallKeeps (fun _ => True) K t.root r := by
  have hend := add64_sub64 (a := roundDown addr) (roundDown_add64_lt addr len)
  have hal := pageAligned_roundDown addr
  have hal' := pageAligned_roundDown (add64 addr len)
  refine (removeVmaRange_keeps hloop htree (.any h hK) hal (by rwa [hend]) (fun _ _ _ _ _ _ _ _ => trivial)
    fun hbase hpos m pt hk => ?_).bind fun r hr => .ok hr
  rw [hend] at hpos
  by_cases hlt : roundDown addr < roundDown (add64 addr len)
  · exact hu m pt _ _ _ ⟨hal, hal', hlt, hlim⟩ hend hk
  · unfold unmapPageRange
    rw [hend, walkPageRange_empty _ hal hal' hbase hpos (by omega)]
    exact .ok hk

/-- What `sys_madvise` keeps. -/
theorem sysMadvise_kept (hfault : ¬bad .fault) (h : CallKeeps T K t.root t)
    (hT : advise = MADV_DONTNEED → ∀ s s' p, AreasOk s → AreasOk s' → T s → p ∈ s.taskMmap →
      Split s s' p (EndOf (roundDown addr) (roundUp (add64 addr len))) → T s')
    (hu : advise = MADV_DONTNEED → ∀ s, K s → Ends bad (forRange (fun i => unmapClean t.taskPml4 (roundDown addr + i * PAGE_SIZE))
      (pageCount (roundDown addr) (roundUp (add64 addr len))) 0 s) K)
    (hp : roundUp (add64 addr len) < USER_LIM → ∀ m pt v, v.vmEnd ≤ USER_LIM → K (m, pt) →
      Ends bad (populatePages image t.taskPml4 v (roundDown addr) (sub64 (roundUp (add64 addr len)) (roundDown addr)) (m, pt)) K) :
    Ends bad (sysMadvise image t addr len advise) fun r => CallKeeps T K t.root r.2 := by
  have hend := range_end addr len
  refine .ite (fun _ => .ok h) fun hlim => .ite (fun _ => ?_) fun _ => .ite (fun hdont => ?_) fun _ => .ok h
  · split
    · exact .error hfault
    · refine (populateVmaRange_keeps (K := K) hloop h.areas h.pages fun q hq _ _ _ m pt hk =>
        hp (Nat.lt_of_not_le hlim) m pt _ (h.areas.vmEnd hq).2.2 hk).bind fun r ⟨hvm, hroot, hk⟩ => .ok ?_
      exact ⟨hvm ▸ h.areas, hvm ▸ h.own, hroot, hk⟩
  · refine (unmapVmaRange_keeps hloop h (pageAligned_roundDown addr) (by rw [hend]; exact pageAligned_roundUp _) ?_ ?_).bind
      fun r hr => .ok hr
    · rw [hend]
      exact hT hdont
    · rw [hend]
      exact hu hdont

/-- The range that is advised on does not wrap, and if its pages are not needed any more there is a huge page or more above it
in the user half. -/
def MadviseFits (addr len advise : Nat) : Prop :=
  roundDown addr < roundUp (add64 addr len) ∧ (advise = MADV_DONTNEED → roundUp (add64 addr len) + HPAGE_SIZE ≤ USER_LIM)

theorem sysMadvise_keeps (hfault : ¬bad .fault) (h : AreasOk t.vm) (hK : K (t.phys, t.pml4))
    (hfit : MadviseFits addr len advise) (hu : UnmapKeeps bad t.taskPml4 K) (hp : PopulateKeeps bad image t.taskPml4 K) :
    Ends bad (sysMadvise image t addr len advise) fun r => CallKeeps (fun _ => True) K t.root r.2 := by
  have hal := pageAligned_roundDown addr
  have hal' := pageAligned_roundUp (add64 addr len)
  have hend := range_end addr len
  refine sysMadvise_kept hloop hfault (.any h hK) (fun _ _ _ _ _ _ _ _ _ => trivial) (fun hdont s hk => ?_) fun hlim m pt v hv hk => ?_
  · have hlast := hfit.2 hdont
    rw [← hend] at hlast ⊢
    exact forRange_unmapClean hal hlast hk hu
  · refine hp m pt v _ _ ?_ hv hk
    rw [sub64_of_le (le_of_lt hfit.1) (roundUp_lt _), Nat.add_sub_of_le (le_of_lt hfit.1)]
    exact ⟨hal, hal', hfit.1, le_of_lt hlim⟩

end

/-- A call that puts its area where areas may lie leaves all areas there. -/
theorem MemCall.run_ok {cur : Option Nat} {c : MemCall} (h : AreasOk t.vm) (hfit : c.AreasFit t.vm) :
    Yields (c.run fuel image cur t) fun r => AreasOk r.vm := by
  have hany : CallKeeps (fun _ => True) (fun _ => True) (t.runs cur).root (t.runs cur) := .any h trivial
  cases c with
  | mmap addr len prot flags =>
    exact (sysMmap_kept id id hany .any hfit (fun _ => Ends.trivial _) (fun _ _ _ _ _ _ _ _ => Ends.trivial _)
      fun _ _ _ _ _ _ _ _ => Ends.trivial _).bind fun r hr => .ok hr.areas
  | munmap addr len =>
    refine (removeVmaRange_keeps id id hany (pageAligned_roundDown addr) ?_ (fun _ _ _ _ _ _ _ _ => trivial)
      fun _ _ _ _ _ => Ends.trivial _).bind fun r hr => .ok hr.areas
    rw [add64_sub64 (roundDown_add64_lt _ _)]
    exact pageAligned_roundDown _
  | mprotect addr len prot =>
    exact (sysMprotect_keeps (t := t.runs cur) id id h trivial fun _ _ _ _ => Ends.trivial _).bind fun r hr => .ok hr.areas
  | madvise addr len advise =>
    exact (sysMadvise_kept id id hany (fun _ _ _ _ _ _ _ _ _ => trivial) (fun _ _ _ => Ends.trivial _)
      fun _ _ _ _ _ _ => Ends.trivial _).bind fun r hr => .ok hr.areas

end OpenLsd
