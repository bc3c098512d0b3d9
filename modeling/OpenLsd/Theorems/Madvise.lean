import OpenLsd.Theorems.Placement

/-!
# Advice for bad ranges

`sys_madvise` looks for the area that its range should lie in, and computes an error when there is none. It does not return
that error: a range that no area contains is populated or unmapped as far as there are areas, and without an area at its
beginning the flags of `NULL` are read.
-/

namespace OpenLsd

open Outcome VmSpace

/-! ## What should be rejected -/

/-- The range is not contained in one area or wraps, or the advice is unknown. -/
def MadviseBad (s : VmSpace) (addr len advise : Nat) : Prop :=
  (¬∃ p ∈ s.taskMmap, (s.vma p).vmBase ≤ addr ∧ addr < (s.vma p).vmEnd ∧ addr + len ≤ (s.vma p).vmEnd) ∨ 2 ^ 64 ≤ addr + len ∨
    (advise ≠ MADV_WILLNEED ∧ advise ≠ MADV_DONTNEED)

/-- The call returns an error, and leaves areas, page tables and references as they were. -/
def MadviseRejects (image : Nat → UInt8) (t : TaskMem) (addr len advise : Nat) : Prop :=
  ∃ r t', sysMadvise image t addr len advise = .ok (r, t') ∧ r < 0 ∧ t'.vm = t.vm ∧ t'.pml4 = t.pml4 ∧
    ∀ f, (t'.phys.pages f).ppRef = (t.phys.pages f).ppRef

/-- The range ends behind `USER_LIM`, the advice is unknown, or no area reaches into the pages of the range. For
`MADV_WILLNEED` the address has to be in an area all the same, which is so only for a range that wraps. -/
def MadviseChecked (s : VmSpace) (addr len advise : Nat) : Prop :=
  USER_LIM ≤ roundUp (add64 addr len) ∨ (advise ≠ MADV_WILLNEED ∧ advise ≠ MADV_DONTNEED) ∨
    ((advise = MADV_WILLNEED → (s.taskFindVma addr).isSome = true) ∧
      ∀ p, s.findVma (roundDown addr) = some p → roundUp (add64 addr len) ≤ (s.vma p).vmBase)

variable {image : Nat → UInt8} {t : TaskMem} {addr len advise base size flags p : Nat} {v : Vma}

/-- A walk over a range without areas does nothing. -/
theorem walkVmaRange_none {getVma : Nat → Nat → TaskMem → Nat → Kernel (Bool × TaskMem)}
    (h : ∀ p, t.vm.findVma base = some p → add64 base size ≤ (t.vm.vma p).vmBase) :
    walkVmaRange getVma t base size = .ok (false, t) := by
  unfold walkVmaRange
  cases hf : t.vm.findVma base with
  | none => rfl
  | some p => exact if_pos (h p hf)

theorem MadviseChecked.rejects (h : MadviseChecked t.vm addr len advise) : MadviseRejects image t addr len advise := by
  have hlast := range_end addr len
  have hinval : (-EINVAL : Int) < 0 := by decide
  unfold MadviseRejects sysMadvise
  dsimp only
  by_cases hlim : roundUp (add64 addr len) ≥ USER_LIM
  · rw [if_pos hlim]
    exact ⟨_, _, rfl, hinval, rfl, rfl, fun _ => rfl⟩
  rw [if_neg hlim]
  rcases h with h | ⟨hw, hd⟩ | ⟨hfind, hnone⟩
  · exact absurd h hlim
  · rw [if_neg hw, if_neg hd]
    exact ⟨_, _, rfl, hinval, rfl, rfl, fun _ => rfl⟩
  · rw [← hlast] at hnone
    by_cases hw : advise = MADV_WILLNEED
    · obtain ⟨p, hp⟩ := Option.isSome_iff_exists.1 (hfind hw)
      rw [if_pos hw, hp]
      dsimp only [populateVmaRange]
      rw [walkVmaRange_none hnone]
      exact ⟨-1, t, rfl, by decide, rfl, rfl, fun _ => rfl⟩
    · rw [if_neg hw]
      by_cases hd : advise = MADV_DONTNEED
      · rw [if_pos hd, unmapVmaRange, walkVmaRange_none hnone]
        exact ⟨-1, t, rfl, by decide, rfl, rfl, fun _ => rfl⟩
      · rw [if_neg hd]
        exact ⟨_, _, rfl, hinval, rfl, rfl, fun _ => rfl⟩

/-! ## What is not rejected -/

/-- Unmapping a range that an area reaches into succeeds. -/
theorem unmapVmaRange_succeeds (h : AreasOk t.vm) (hbase : pageAligned base) (hlast : pageAligned (add64 base size))
    (hp : t.vm.findVma base = some p) (hlt : (t.vm.vma p).vmBase < add64 base size) :
    Yields (unmapVmaRange t base size) fun r => r.1 = true := by
  unfold unmapVmaRange walkVmaRange
  rw [hp]
  refine .ite (fun hle => absurd hlt (not_lt.2 hle)) fun _ => ?_
  refine walkAreas_rule (I := fun s next => AreasOk s.vm ∧ ∀ q, next = some q → q ∈ s.vm.taskMmap) id
    (fun s q ⟨hs, hq⟩ _ => ?_) (fun _ _ _ _ => rfl) _ _ _ ⟨h, fun q hq => ?_⟩
  · have hq := hq q rfl
    refine (doUnmapVma_spec hs.agrees hq (Ends.trivial _)).mono fun r hr => ?_
    rw [if_pos hr.1]
    exact ⟨hs.rearranged hr.2.2.2.rearranged fun _ => EndOf.aligned hbase hlast, fun x hx =>
      hr.2.2.2.keep x (listNext_ne hs.agrees.tree.tree.1 hx).1⟩
  · cases hq
    exact (findVma_some h.agrees hp).1

/-- Counted page tables that map the page. -/
def Touched (g : Nat) (r : Phys × Pml4) : Prop :=
  (∃ keep ext alloc, Acc keep ext alloc r.1 r.2) ∧ (PageState.contents (Node.page r.1 r.2 g)).isSome = true

/-- Populating maps the first page of the range. -/
theorem Vma.populate_first (hr : UserRange base (base + size)) (c : Option (Nat → UInt8)) :
    (v.populate image base size (base / PAGE_SIZE) c).isSome = true := by
  have hin : InPages base size (base / PAGE_SIZE) ∧ InPages (blockStart HPAGE_SIZE base) HPAGE_SIZE (base / PAGE_SIZE) := by
    have := hr.pages
    have hsize : HPAGE_SIZE = 2097152 := by decide
    simp only [InPages, blockStart, hsize, PAGE_SIZE] at *
    omega
  unfold populate
  rw [if_pos hin.1, if_pos hin.2]
  split <;> rfl

/-- Populating the pages of an area maps the first one. -/
theorem populatePages_touches {m : Phys} {pt : Pml4} {pml4 : Nat} (hr : UserRange base (base + size)) (hv : v.vmEnd ≤ USER_LIM)
    (hacc : ∃ keep ext alloc, Acc keep ext alloc m pt) :
    Yields (populatePages image pml4 v base size (m, pt)) (Touched (base / PAGE_SIZE)) := by
  obtain ⟨keep, ext, alloc, hacc⟩ := hacc
  have hpages : Ends Panics (populatePages image pml4 v base size (m, pt)) (Moves keep False _ ext alloc m pt) :=
    populatePages_contents hr hv hacc
  refine (hpages.weaken fun _ => False.elim).mono fun r ⟨ext', alloc', hmoved⟩ => ?_
  refine ⟨⟨keep, ext', alloc', hmoved.acc⟩, ?_⟩
  rw [hmoved.page _ (by have := hr.pages; omega)]
  exact Vma.populate_first hr _

/-- Populating a range that begins in an area maps its first page, whatever comes of the rest. -/
theorem populateVmaRange_touches (h : TaskOk t) (hr : UserRange base (base + size)) (hp : t.vm.findVma base = some p)
    (hbase : (t.vm.vma p).vmBase ≤ base) (hall : populateAllowed flags (t.vm.vma p).vmFlags) :
    Yields (populateVmaRange image t base size flags) fun r => Touched (base / PAGE_SIZE) (r.2.phys, r.2.pml4) := by
  have hlast : add64 base size = base + size := add64_of_le hr.le
  have hpm := (findVma_some h.areas.agrees hp).1
  unfold populateVmaRange walkVmaRange
  rw [hp]
  refine .ite (fun hle => absurd hr.lt (by omega)) fun _ => ?_
  -- the first area is still to come, or the page is mapped already
  refine walkAreas_rule (I := fun s next => s.vm = t.vm ∧ ((next = some p ∧ s = t) ∨
    (Touched (base / PAGE_SIZE) (s.phys, s.pml4) ∧ ∀ q, next = some q → q ∈ t.vm.taskMmap))) id ?_ ?_ _ _ _ ⟨rfl, .inl ⟨rfl, rfl⟩⟩
  · rintro s q ⟨hvm, ⟨hq, rfl⟩ | ⟨htouched, hq⟩⟩ -
    · cases hq
      refine (doPopulateVma_allowed hall (populatePages_touches hr (h.areas.vmEnd hpm).2.2 h.counted)).mono fun r hr => ?_
      rw [if_pos hr.1]
      exact ⟨hr.2.1, .inr ⟨hr.2.2.2, fun x hx => (listNext_ne h.areas.agrees.tree.tree.1 hx).1⟩⟩
    · have hqm := hq q rfl
      refine (doPopulateVma_spec (P := Touched (base / PAGE_SIZE)) fun _ =>
        populatePages_touches hr (by rw [hvm]; exact (h.areas.vmEnd hqm).2.2) htouched.1).mono fun r ⟨hvm', _, hr⟩ => ?_
      split at hr
      · rw [if_pos ‹_›]
        refine ⟨hvm'.trans hvm, .inr ⟨hr, fun x hx => ?_⟩⟩
        rw [hvm] at hx
        exact (listNext_ne h.areas.agrees.tree.tree.1 hx).1
      · rw [if_neg ‹_›, hr]
        exact htouched
  · rintro s next ⟨hvm, ⟨rfl, rfl⟩ | ⟨htouched, -⟩⟩ hdone
    · have := hdone p rfl
      omega
    · exact htouched

/-- When the range wraps to within the area that it begins in, the walk ends with that area. -/
theorem populateVmaRange_wraps (h : Agrees t.vm) (hp : t.vm.findVma base = some p) (hwrap : add64 base size ≤ base)
    (hlt : (t.vm.vma p).vmBase < add64 base size) (hall : populateAllowed flags (t.vm.vma p).vmFlags) :
    Yields (populateVmaRange image t base size flags) fun r => r.1 = true := by
  obtain ⟨hpm, hpe, -⟩ := findVma_some h hp
  unfold populateVmaRange walkVmaRange
  rw [hp]
  refine .ite (fun hle => absurd hlt (not_lt.2 hle)) fun _ => ?_
  refine walkAreas_rule (I := fun s next => s.vm = t.vm ∧ (next = some p ∨ ∀ q, next = some q → base < (t.vm.vma q).vmBase)) id
    ?_ (fun _ _ _ _ => rfl) _ _ _ ⟨rfl, .inl rfl⟩
  rintro s q ⟨hvm, hq | hq⟩ hlow
  · cases hq
    refine (doPopulateVma_allowed (by rw [hvm]; exact hall) (Ends.trivial _)).mono fun r hr => ?_
    rw [if_pos hr.1]
    refine ⟨hr.2.1.trans hvm, .inr fun x hx => ?_⟩
    rw [hvm] at hx
    have := (h.listNext_first hpm hx).2.1
    omega
  · have := hq q rfl
    rw [hvm] at hlow
    omega

theorem page_empty (m : Phys) (g : Nat) : Node.page m (fun _ => 0 : Pml4) g = none := by
  show (if _ then Node.page m (0 : Pml4e) g else none) = none
  rw [Sparse.page (N := Pml4e) rfl, ite_self]

theorem populateAllowed_refl (flags : Nat) : populateAllowed flags flags := ⟨id, id, id⟩

/-- A task without pages whose range is not checked gets something other than an error without effects. -/
theorem not_madviseRejects (h : TaskOk t) (hempty : t.pml4 = fun _ => 0) (hno : ¬MadviseChecked t.vm addr len advise) :
    ¬MadviseRejects image t addr len advise := by
  rintro ⟨r, t', hrun, hr, -, hpml4, -⟩
  have hlast := range_end addr len
  have hneg : ∀ {ok : Bool}, (if ok then (0 : Int) else -1) = r → ok ≠ true := by
    rintro ok rfl rfl
    exact absurd hr (by decide)
  simp only [MadviseChecked, not_or, not_and_or] at hno
  obtain ⟨hlim, hknown, hcheck⟩ := hno
  unfold sysMadvise at hrun
  dsimp only at hrun
  rw [if_neg hlim] at hrun
  by_cases hw : advise = MADV_WILLNEED
  · rw [if_pos hw] at hrun
    cases hf : t.vm.taskFindVma addr with
    | none =>
      rw [hf] at hrun
      cases hrun
    | some p =>
      rw [hf] at hrun
      obtain ⟨⟨ok, t1⟩, hpop, hret⟩ := bind_ok hrun
      obtain ⟨hpm, hpb, hpe⟩ := taskFindVma_some h.areas.agrees hf
      obtain ⟨hbase, hend⟩ := h.areas.page_in hpm hpb hpe
      have hfind := findVma_of_mem h.areas.agrees hpm hbase (lt_of_lt_of_le (Nat.lt_add_of_pos_right (by decide)) hend)
      have hlt : (t.vm.vma p).vmBase < roundUp (add64 addr len) := by
        by_contra hle
        refine hcheck.elim (fun hno => hno fun _ => by rw [hf]; rfl) fun hno => hno fun q hq => ?_
        cases hfind.symm.trans hq
        omega
      cases hret
      by_cases hwrap : roundUp (add64 addr len) ≤ roundDown addr
      · exact hneg rfl ((populateVmaRange_wraps h.areas.agrees hfind (by rw [hlast]; exact hwrap) (by rw [hlast]; exact hlt)
          (populateAllowed_refl _)).1 _ hpop)
      · have hsize : sub64 (roundUp (add64 addr len)) (roundDown addr) = roundUp (add64 addr len) - roundDown addr :=
          sub64_of_le (by omega) (roundUp_lt _)
        rw [hsize] at hpop
        have hrange : UserRange (roundDown addr) (roundDown addr + (roundUp (add64 addr len) - roundDown addr)) := by
          refine ⟨pageAligned_roundDown _, ?_, by omega, by omega⟩
          rw [Nat.add_sub_cancel' (by omega)]
          exact pageAligned_roundUp _
        have htouched := (populateVmaRange_touches h hrange hfind hbase (populateAllowed_refl _)).1 _ hpop
        have hmapped := htouched.2
        rw [show t1.pml4 = fun _ => 0 from hpml4.trans hempty] at hmapped
        rw [page_empty] at hmapped
        cases hmapped
  · have hd : advise = MADV_DONTNEED := by
      by_contra hd
      exact hknown.elim (fun hno => hno hw) fun hno => hno hd
    rw [if_neg hw, if_pos hd] at hrun
    obtain ⟨⟨ok, t1⟩, hun, hret⟩ := bind_ok hrun
    cases hret
    obtain ⟨p, hp, hlt⟩ : ∃ p, t.vm.findVma (roundDown addr) = some p ∧ (t.vm.vma p).vmBase < roundUp (add64 addr len) := by
      by_contra hnone
      refine hcheck.elim (fun hno => hno fun hw' => absurd hw' hw) fun hno => hno fun q hq => ?_
      exact Nat.le_of_not_lt fun hlt => hnone ⟨q, hq, hlt⟩
    exact hneg rfl ((unmapVmaRange_succeeds h.areas (pageAligned_roundDown _) (by rw [hlast]; exact pageAligned_roundUp _) hp
      (by rw [hlast]; exact hlt)).1 _ hun)

/-- Whatever pages the task has, a bad range is rejected without effects, if and only if the range ends behind `USER_LIM`, the
advice is unknown, or no area reaches into the range (and for `MADV_WILLNEED` the address is in an area all the same). -/
theorem madvise_rejects_iff {vm : VmSpace} (h : AreasOk vm) :
    (∀ image t, TaskOk t → t.vm = vm → MadviseBad vm addr len advise → MadviseRejects image t addr len advise) ↔
      (MadviseBad vm addr len advise → MadviseChecked vm addr len advise) := by
  constructor
  · intro hrejects hbad
    by_contra hno
    have hok : TaskOk { phys := smallMachine.phys, vm := vm, pml4 := fun _ => 0 } := ⟨h, _, _, _, acc_empty smallMachine_ledger⟩
    exact not_madviseRejects hok rfl hno (hrejects (fun _ => 0) _ hok rfl hbad)
  · rintro hchecked image t - rfl hbad
    exact (hchecked hbad).rejects

theorem oneArea_bad (h : 0x1001000 < addr + len) : MadviseBad oneArea.vm addr len advise := by
  refine .inl fun ⟨p, hp, _, _, hle⟩ => ?_
  cases List.mem_singleton.1 hp
  exact absurd h (not_lt.2 hle)

/-- Advice that is unknown is rejected. -/
theorem madvise_rejects_iff_unknown : MadviseBad oneArea.vm 0x2000000 0x1000 3 ∧
    MadviseRejects (fun _ => 0) oneArea 0x2000000 0x1000 3 := by
  have hbad : MadviseBad oneArea.vm 0x2000000 0x1000 3 := oneArea_bad (by decide)
  refine ⟨hbad, (madvise_rejects_iff oneArea_ok.areas).2 (fun _ => ?_) _ _ oneArea_ok rfl hbad⟩
  exact .inr (.inl ⟨by decide, by decide⟩)

/-- Advice for a range without an area reads the flags of `NULL`, and a range that goes beyond its area is unmapped. -/
theorem madvise_takes_bad_ranges : TaskOk oneArea ∧ MadviseBad oneArea.vm 0x2000000 0x1000 MADV_WILLNEED ∧
    sysMadvise (fun _ => 0) oneArea 0x2000000 0x1000 MADV_WILLNEED = .error .fault ∧
    MadviseBad oneArea.vm 0x1000000 0x2000 MADV_DONTNEED ∧
    ∃ t', sysMadvise (fun _ => 0) oneArea 0x1000000 0x2000 MADV_DONTNEED = .ok (0, t') := by
  refine ⟨oneArea_ok, oneArea_bad (by decide), rfl, oneArea_bad (by decide), ?_⟩
  decide +kernel

end OpenLsd
