import OpenLsd.Lemmas.Placement
import OpenLsd.Theorems.Populate

/-!
# Where `sys_mmap` puts a mapping

`sys_mmap` returns the address at which the area begins that the new one has become a part of. When that area is one that was
there before, the address is not that of the mapping, and with `MAP_POPULATE` the wrong pages are populated. Here is when the
mapping is where the program is told.
-/

namespace OpenLsd

open Outcome VmSpace

variable {t t' t1 : TaskMem} {image : Nat → UInt8} {fuel addr len prot flags r b p size : Nat} {s : VmSpace}

/-! ## What is asked for -/

/-- The size of a mapping: that of all pages that the request reaches into. -/
def mmapSize (addr len : Nat) : Nat := (addr + len + (PAGE_SIZE - 1)) / PAGE_SIZE * PAGE_SIZE - roundDown addr

/-- The mapping begins at `r`:

1. Nothing was there before, or the place was asked for with `MAP_FIXED`.
2. All of it is there now, with the flags.
3. All other addresses are in areas with the flags of before.
4. With `MAP_POPULATE` the pages of the mapping have been populated, and no others. -/
structure MmapPlaced (t t' : TaskMem) (addr len prot flags r : Nat) : Prop where
  fresh : t.vm.Free r (r + mmapSize addr len) ∨ (hasFlag flags MAP_FIXED = true ∧ r = roundDown addr)
  covered : ∀ a, r ≤ a → a < r + mmapSize addr len → ∃ k, At t'.vm a k ∧ k.flags = prot
  others : ∀ a, ¬(r ≤ a ∧ a < r + mmapSize addr len) → ∀ f, (∃ k, At t'.vm a k ∧ k.flags = f) ↔ ∃ k, At t.vm a k ∧ k.flags = f
  populated : hasFlag flags MAP_POPULATE = true → ∀ a < USER_LIM, mappedByte t'.phys t'.pml4 a ≠ none ↔
    (r ≤ a ∧ a < r + mmapSize addr len) ∨ mappedByte t.phys t.pml4 a ≠ none

/-- The place of the mapping: the one that is asked for with `MAP_FIXED`, and otherwise the first free one. -/
def VmSpace.MmapAt (s : VmSpace) (addr len flags b : Nat) : Prop :=
  if hasFlag flags MAP_FIXED = true ∧ roundDown addr ≠ 0 then b = roundDown addr
  else s.FirstFree (roundDown addr) (mmapSize addr len) b

/-- The area that is mapped at `b` begins with a whole 2M block. -/
def VmSpace.TakesBlock (s : VmSpace) (prot size b : Nat) : Prop :=
  b % HPAGE_SIZE = 0 ∧ (HPAGE_SIZE ≤ size ∨ s.JoinsBehind prot (b + size) (b + HPAGE_SIZE))

/-- The block is populated in place of the range. Nothing is amiss if the pages by which they differ are there before, and are
not removed. -/
def TaskMem.BlockFits (t : TaskMem) (size b : Nat) : Prop :=
  (∀ a, b + size ≤ a → a < b + HPAGE_SIZE → mappedByte t.phys t.pml4 a ≠ none) ∧
    ∀ a, b + HPAGE_SIZE ≤ a → a < b + size → t.vm.Free b (b + size) ∧ mappedByte t.phys t.pml4 a ≠ none

/-- When a mapping will be where the program is told:

1. The end of the range is not rounded up to `2 ^ 64`.
2. If `MAP_FIXED` asks for an address in the first page then nothing is there.
3. There is a place for the mapping. No area like the mapping ends there, and if the 2M block is populated that begins there
   then this comes to the same as populating the mapping. -/
structure TaskMem.MmapExact (t : TaskMem) (addr len prot flags : Nat) : Prop where
  noWrap : addr + len + (PAGE_SIZE - 1) < 2 ^ 64
  first : hasFlag flags MAP_FIXED = true → roundDown addr = 0 → t.vm.Free 0 (mmapSize addr len)
  place : ∃ b, t.vm.MmapAt addr len flags b ∧ ¬t.vm.JoinsBefore prot b ∧
    (hasFlag flags MAP_POPULATE = true → t.vm.TakesBlock prot (mmapSize addr len) b → t.BlockFits (mmapSize addr len) b)

/-! ## The steps of the call -/

/-- The steps that `sys_mmap` takes to an address. -/
theorem sysMmap_steps (hall : mmapAllowed addr len prot flags) : Yields (sysMmap fuel image t addr len prot flags) fun x =>
    ∀ r, x.1 = some r → ∃ t1 p,
      mmapClear fuel t (roundDown addr) (sub64 (roundUp (add64 addr len)) (roundDown addr)) flags = .ok t1 ∧
      addVma fuel t1.vm "user" (roundDown addr) (sub64 (roundUp (add64 addr len)) (roundDown addr)) prot = .ok (some p, x.2.vm) ∧
      r = (x.2.vm.vma p).vmBase ∧ (hasFlag flags MAP_POPULATE = true → populateVmaRange image { t1 with vm := x.2.vm } r
        (sub64 (roundUp (add64 addr len)) (roundDown addr)) prot = .ok (true, x.2)) := by
  refine .ite (fun hno => absurd hall hno) fun _ => ?_
  refine (Ends.self (mmapClear ..)).bind fun t1 ht1 => (Ends.self (addVma ..)).bind fun ⟨q, vm⟩ hadd => ?_
  cases q with
  | none => exact .ok nofun
  | some p =>
    refine .ite (fun _ => ?_) fun hno => .ok fun r hr => ?_
    · refine ((Ends.self _).and populateVmaRange_vm).bind fun ⟨ok, t2⟩ ⟨hpop, hvm⟩ => ?_
      cases ok with
      | true =>
        refine .ok fun r hr => ?_
        cases hr
        exact ⟨t1, p, ht1, hvm ▸ hadd, rfl, fun _ => by rw [hvm]; exact hpop⟩
      | false =>
        show Ends _ (ofTree (t2.vm.removeVma fuel p) >>= fun vm => _) _
        cases t2.vm.removeVma fuel p with
        | none => exact .error id
        | some vm' => exact .ok nofun
    · cases hr
      exact ⟨t1, p, ht1, hadd, rfl, fun hyes => absurd hyes hno⟩

/-- The range of a request that is not rounded up to `2 ^ 64`. -/
theorem mmapSize_eq (hlen : 0 < len) (hw : addr + len + (PAGE_SIZE - 1) < 2 ^ 64) :
    0 < mmapSize addr len ∧ pageAligned (mmapSize addr len) ∧ roundDown addr + mmapSize addr len = roundUp (add64 addr len) ∧
      sub64 (roundUp (add64 addr len)) (roundDown addr) = mmapSize addr len := by
  simp only [mmapSize, pageAligned, roundUp, roundDown, add64, sub64, PAGE_SIZE] at *
  omega

/-- The range of a request that is rounded up to `2 ^ 64`. -/
theorem mmapSize_wrapped (hend : addr + len < 2 ^ 64) (hw : ¬addr + len + (PAGE_SIZE - 1) < 2 ^ 64) :
    roundUp (add64 addr len) = 0 ∧ roundDown addr < 2 ^ 64 ∧ roundDown addr + mmapSize addr len = 2 ^ 64 := by
  simp only [mmapSize, roundUp, roundDown, add64, PAGE_SIZE] at *
  omega

/-- The first part of the call: with `MAP_FIXED` areas and pages of the range are gone. -/
theorem mmapClear_place {base : Nat} (h : TaskOk t) (hr : UserRange base (base + size)) :
    Yields (mmapClear fuel t base size flags) fun t1 => TaskOk t1 ∧ Outside t.vm t1.vm base (base + size) ∧
      (∀ va k, At t1.vm va k ↔ At t.vm va k ∧ ¬(hasFlag flags MAP_FIXED = true ∧ base ≤ va ∧ va < base + size)) ∧
      (hasFlag flags MAP_FIXED = true ∧ ¬t.vm.Free base (base + size) → ∀ a < USER_LIM,
        mappedByte t1.phys t1.pml4 a = if base ≤ a ∧ a < base + size then none else mappedByte t.phys t.pml4 a) ∧
      (¬(hasFlag flags MAP_FIXED = true ∧ ¬t.vm.Free base (base + size)) → t1 = t) := by
  have hag := h.areas.agrees
  have hadd : add64 base size = base + size := add64_of_le hr.le
  have hlt : base < add64 base size := by rw [hadd]; exact hr.lt
  have hsame : Outside t.vm t.vm base (base + size) := .refl _ _ _
  by_cases hfixed : hasFlag flags MAP_FIXED = true
  · unfold mmapClear
    rw [if_pos hfixed]
    by_cases hfree : t.vm.Free base (base + size)
    · rw [removeVmaRange_free hag hlt (by rwa [hadd])]
      exact .ok ⟨h, hsame, fun va k => ⟨fun hin => ⟨hin, fun hc => hfree va k hc.2.1 hc.2.2 hin⟩, And.left⟩,
        fun hc => absurd hfree hc.2, fun _ => rfl⟩
    · obtain ⟨hareas, keep, ext, alloc, hacc⟩ := h
      -- the pages of the range are unmapped for each area that reaches into it
      let R : StateRel := fun g s s' =>
        PageState.contents s' = if InPages base size g then none else PageState.contents s
      have hunmap : ∀ ext alloc m pt, Acc keep ext alloc m pt → Yields (unmapPageRange t.taskPml4 m pt base size)
          (Moves keep True R ext alloc m pt) := by
        intro ext alloc m pt hacc
        refine ((unmapPageRange_moves hr hadd hacc).mono fun r hm => hm.mono fun g _ s s' hs => ?_).weaken nofun
        unfold PageRel.at at hs
        show PageState.contents s' = if base / PAGE_SIZE ≤ g ∧ g < (base + size) / PAGE_SIZE then none else PageState.contents s
        split
        · rename_i hin
          rw [if_pos hin] at hs
          rw [show s' = none from hs]
          rfl
        · rename_i hout
          rw [if_neg hout] at hs
          exact contents_same hs
      have hclear : Yields (removeVmaRange fuel t base size) fun r =>
          (r = (false, t) ∧ t.vm.Free base (add64 base size)) ∨ (r.2.root = t.root ∧
            Moves keep True R ext alloc t.phys t.pml4 (r.2.phys, r.2.pml4) ∧ VmSpace.Cleared t.vm r.2.vm base (add64 base size)) := by
        refine removeVmaRange_spec (K := (· = (t.phys, t.pml4))) id id hag hlt rfl fun m pt hk => ?_
        rcases hk with hk | hk
        · cases hk
          exact hunmap _ _ _ _ hacc
        · refine hk.then (fun ext' alloc' hacc' => hunmap _ _ _ _ hacc') fun g _ s s' s'' hs hs' => ?_
          show PageState.contents s'' = if InPages base size g then none else PageState.contents s
          rw [show PageState.contents s'' = _ from hs', show PageState.contents s' = _ from hs]
          split <;> rfl
      refine (hclear.and (removeVmaRange_outside hag)).bind fun ⟨ok, t1⟩ ⟨hr', hout⟩ => .ok ?_
      rw [hadd] at hr' hout
      rcases hr' with ⟨-, hfree'⟩ | ⟨-, ⟨ext', alloc', hm⟩, hc⟩
      · exact absurd hfree' hfree
      · refine ⟨⟨hareas.cleared hc hr.alignedBase hr.alignedLast, keep, ext', alloc', hm.acc⟩, hout, fun va k => ?_,
          fun _ a ha => ?_, fun hc => absurd ⟨hfixed, hfree⟩ hc⟩
        · rw [hc.at_iff]
          simp only [hfixed, true_and]
        · rw [mappedByte_eq ha, mappedByte_eq ha, show PageState.contents _ = _ from hm.page _ (user_page_lt ha)]
          have hin : InPages base size (a / PAGE_SIZE) ↔ base ≤ a ∧ a < base + size := by
            have h1 := hr.alignedBase
            have h2 := hr.alignedLast
            simp only [InPages, pageAligned, PAGE_SIZE] at *
            omega
          simp only [hin]
          split <;> rfl
  · unfold mmapClear
    rw [if_neg hfixed]
    exact .ok ⟨h, hsame, fun va k => ⟨fun hin => ⟨hin, fun hc => hfixed hc.1⟩, And.left⟩, fun hc => absurd hc.1 hfixed,
      fun _ => rfl⟩

/-! ## The mapping -/

theorem populateAllowed_self (flags : Nat) : populateAllowed flags flags := ⟨id, id, id⟩

/-- Populating the mapping where it begins with its area: which pages are there afterwards. -/
theorem mapped_populated (h : TaskOk t) (hat : MappedAt t1.vm t.vm prot size b p) (hno : ¬t1.vm.JoinsBefore prot b)
    (hr : UserRange b (b + size)) (he : populateVmaRange image t b size prot = .ok (true, t')) (a : Nat) (ha : a < USER_LIM) :
    (t1.vm.TakesBlock prot size b →
      (mappedByte t'.phys t'.pml4 a ≠ none ↔ (b ≤ a ∧ a < b + HPAGE_SIZE) ∨ mappedByte t.phys t.pml4 a ≠ none)) ∧
    (¬t1.vm.TakesBlock prot size b →
      (mappedByte t'.phys t'.pml4 a ≠ none ↔ (b ≤ a ∧ a < b + size) ∨ mappedByte t.phys t.pml4 a ≠ none)) := by
  obtain ⟨hareas, keep, ext, alloc, hacc⟩ := h
  obtain ⟨hbase, hend⟩ := hat.alone hno
  have hag := hareas.agrees
  have hsrc : (t.vm.vma p).vmSrc = none := congrArg Kind.src hat.covers.2.2
  have hflags : (t.vm.vma p).vmFlags = prot := congrArg Kind.flags hat.covers.2.2
  have hlast : b + size ≤ (t.vm.vma p).vmEnd := hat.covers.2.1
  have hlim := (hareas.vmEnd hat.mem).2.2
  have hlt := hr.lt
  have hone : ∀ q ∈ t.vm.taskMmap, b < (t.vm.vma q).vmEnd → (t.vm.vma q).vmBase < b + size → q = p := by
    intro q hq hqe hqb
    by_contra hne
    rcases hag.apart hq hat.mem hne with hap | hap <;> omega
  have hpop : true = true ∧ t'.vm = t.vm ∧ t'.root = t.root ∧ Moves keep True (fun g s s' => PageState.contents s' =
      t.vm.populate image p b size g (PageState.contents s)) ext alloc t.phys t.pml4 (t'.phys, t'.pml4) := by
    refine (populateVmaRange_contents hareas hacc hr (findVma_of_mem hag hat.mem (by omega) (by omega)) (by omega)
      (fun q hq hqe hqb => ?_) fun q hq hqb hql => ?_).1 _ he
    · rw [hone q hq hqe hqb, hflags]
      exact populateAllowed_self prot
    · have := hag.proper q hq
      rw [hone q hq (by omega) hql] at hqb
      omega
  obtain ⟨-, -, -, ext', alloc', hm⟩ := hpop
  have hcross : ¬t.vm.Crosses b (b + size) := by
    rintro ⟨q, hq, hqb, hql⟩
    have := hag.proper q hq
    rw [hone q hq (by omega) hql] at hqb
    omega
  have hsize : HPAGE_SIZE = 2097152 := by decide
  have hlim' : USER_LIM = 140737488355328 := by decide
  have hshort : hugeShortcut (t.vm.vma p) b ↔ t1.vm.TakesBlock prot size b := by
    have hblock := hend (b + HPAGE_SIZE)
    rw [TakesBlock, show (HPAGE_SIZE ≤ size) = (b + HPAGE_SIZE ≤ b + size) from by rw [Nat.add_le_add_iff_left], ← hblock,
      hugeShortcut, hbase]
    simp only [hsrc, true_and, blockStart, add64, hsize] at *
    omega
  have hcont : mappedByte t'.phys t'.pml4 a ≠ none ↔
      (t.vm.vma p).populate image b size (a / PAGE_SIZE) (PageState.contents (Node.page t.phys t.pml4 (a / PAGE_SIZE))) ≠ none := by
    rw [mappedByte_eq ha, show PageState.contents _ = _ from hm.page _ (user_page_lt ha), VmSpace.populate,
      if_neg fun hc => hcross hc.1]
    exact not_congr Option.map_eq_none_iff
  have hold : mappedByte t.phys t.pml4 a ≠ none ↔ PageState.contents (Node.page t.phys t.pml4 (a / PAGE_SIZE)) ≠ none := by
    rw [mappedByte_eq ha]
    exact not_congr Option.map_eq_none_iff
  rw [hcont, hold, Vma.populate]
  refine ⟨fun hyes => ?_, fun hnot => ?_⟩
  · rw [if_pos (hshort.2 hyes)]
    have hin : InPages (blockStart HPAGE_SIZE b) HPAGE_SIZE (a / PAGE_SIZE) ↔ b ≤ a ∧ a < b + HPAGE_SIZE := by
      have := hyes.1
      simp only [InPages, blockStart, hsize, PAGE_SIZE] at *
      omega
    split
    · rename_i hc
      simp [hin.1 hc]
    · rename_i hc
      simp [mt hin.2 hc]
  · rw [if_neg (mt hshort.1 hnot)]
    have hin : InPages b size (a / PAGE_SIZE) ↔ b ≤ a ∧ a < b + size := by
      have h1 := hr.alignedBase
      have h2 := hr.alignedLast
      simp only [InPages, pageAligned, PAGE_SIZE] at *
      omega
    split
    · rename_i hc
      simp [hin.1 hc]
    · rename_i hc
      simp [mt hin.2 hc]

/-- What has been changed before the area is mapped lies within the mapping. -/
structure MadeRoom (t t1 : TaskMem) (prot size b : Nat) : Prop where
  sub : ∀ va k, At t1.vm va k → At t.vm va k
  outside : ∀ va k, ¬(b ≤ va ∧ va < b + size) → At t.vm va k → At t1.vm va k
  before : t1.vm.JoinsBefore prot b ↔ t.vm.JoinsBefore prot b
  behind : ∀ a, t1.vm.JoinsBehind prot (b + size) a ↔ t.vm.JoinsBehind prot (b + size) a
  pages : ∀ a < USER_LIM, ¬(b ≤ a ∧ a < b + size) → mappedByte t1.phys t1.pml4 a = mappedByte t.phys t.pml4 a
  inside : ∀ a < USER_LIM, b ≤ a → a < b + size →
    (mappedByte t1.phys t1.pml4 a ≠ none ↔ t.vm.Free b (b + size) ∧ mappedByte t.phys t.pml4 a ≠ none)

theorem MadeRoom.refl (hfree : t.vm.Free b (b + size)) : MadeRoom t t prot size b where
  sub := fun _ _ h => h
  outside := fun _ _ _ h => h
  before := Iff.rfl
  behind := fun _ => Iff.rfl
  pages := fun _ _ _ => rfl
  inside := fun _ _ _ _ => ⟨fun h => ⟨hfree, h⟩, And.right⟩

theorem MadeRoom.takesBlock_iff (h : MadeRoom t t1 prot size b) : t1.vm.TakesBlock prot size b ↔ t.vm.TakesBlock prot size b := by
  simp only [TakesBlock, h.behind]

/-- Populating does the same as populating the range just if the block fits. -/
theorem MadeRoom.blockFits_iff (h : MadeRoom t t1 prot size b) (hok : AreasOk t.vm) (hr : UserRange b (b + size))
    (hblock : t.vm.TakesBlock prot size b) :
    (∀ a < USER_LIM, ((b ≤ a ∧ a < b + HPAGE_SIZE) ∨ mappedByte t1.phys t1.pml4 a ≠ none) ↔
      (b ≤ a ∧ a < b + size) ∨ mappedByte t.phys t.pml4 a ≠ none) ↔ t.BlockFits size b := by
  have hlim := hr.le
  have hblim : b + size < b + HPAGE_SIZE → b + HPAGE_SIZE ≤ USER_LIM := by
    intro hlt
    rcases hblock.2 with hle | ⟨q, hq, -, -, hqe⟩
    · omega
    · exact le_trans hqe (hok.vmEnd hq).2.2
  constructor
  · intro hall
    refine ⟨fun a ha hl => ?_, fun a ha hl => ?_⟩
    · have hlt : a < USER_LIM := by
        have := hblim (by omega)
        omega
      exact ((hall a hlt).1 (.inl ⟨by omega, hl⟩)).resolve_left (by omega)
    · have hlt : a < USER_LIM := by omega
      exact (h.inside a hlt (by omega) hl).1 (((hall a hlt).2 (.inl ⟨by omega, hl⟩)).resolve_left (by omega))
  · rintro ⟨hbeside, hrest⟩ a hlt
    by_cases hin : b ≤ a ∧ a < b + size
    · simp only [hin, and_self, true_or, iff_true]
      by_cases hb : a < b + HPAGE_SIZE
      · exact .inl ⟨trivial, hb⟩
      · exact .inr ((h.inside a hlt hin.1 hin.2).2 (hrest a (by omega) hin.2))
    · rw [h.pages a hlt hin]
      simp only [hin, false_or, or_iff_right_iff_imp]
      rintro ⟨h1, h2⟩
      exact hbeside a (by omega) h2

/-- The area has been mapped at `b`. It is where the program is told just if no area like it ends there and populating its block
fits. -/
theorem MadeRoom.placed_iff (hc : MadeRoom t t1 prot (mmapSize addr len) b) (h : TaskOk t) (h1 : TaskOk t1)
    (hr : UserRange b (b + mmapSize addr len)) (hlow : PAGE_SIZE ≤ b) (hm : MappedAt t1.vm t'.vm prot (mmapSize addr len) b p)
    (hfixed : hasFlag flags MAP_FIXED = true ∧ roundDown addr ≠ 0 → b = roundDown addr)
    (hfree : ¬(hasFlag flags MAP_FIXED = true ∧ roundDown addr ≠ 0) → t.vm.Free b (b + mmapSize addr len))
    (hpop : hasFlag flags MAP_POPULATE = true → populateVmaRange image { t1 with vm := t'.vm } (t'.vm.vma p).vmBase
      (mmapSize addr len) prot = .ok (true, t')) :
    MmapPlaced t t' addr len prot flags (t'.vm.vma p).vmBase ↔ ¬t.vm.JoinsBefore prot b ∧
      (hasFlag flags MAP_POPULATE = true → t.vm.TakesBlock prot (mmapSize addr len) b → t.BlockFits (mmapSize addr len) b) := by
  have hok' : TaskOk { t1 with vm := t'.vm } := by
    refine ⟨⟨hm.agrees, fun a ha => ?_⟩, h1.counted⟩
    have hle := hr.le
    rcases hm.bound a ha with hold | rfl | rfl
    · exact h1.areas.bounds a hold
    · exact ⟨hr.alignedBase, hlow, by omega⟩
    · exact ⟨hr.alignedLast, by omega, hle⟩
  constructor
  · intro hplaced
    have hno : ¬t.vm.JoinsBefore prot b := by
      intro hj
      obtain ⟨q, hq, hqe, hbase⟩ := hm.joined (hc.before.2 hj)
      have hproper := h1.areas.agrees.proper q hq
      have hqlow := (h1.areas.vmBase hq).2.1
      rcases hplaced.fresh with hfresh | ⟨hfix, heq⟩
      · exact hfresh _ _ le_rfl (by have := hr.lt; omega)
          (hc.sub _ _ ⟨q, hq, le_of_eq hbase.symm, by omega, rfl⟩)
      · by_cases hzero : roundDown addr = 0
        · rw [hbase, hzero] at heq
          rw [heq] at hqlow
          exact absurd hqlow (by decide)
        · have := hfixed ⟨hfix, hzero⟩
          omega
    refine ⟨hno, fun hflag hblock => (hc.blockFits_iff h.areas hr hblock).1 fun a ha => ?_⟩
    have hbase := (hm.alone (mt hc.before.1 hno)).1
    have hpop := hpop hflag
    rw [hbase] at hplaced hpop
    rw [← hplaced.populated hflag a ha]
    exact ((mapped_populated hok' hm (mt hc.before.1 hno) hr hpop a ha).1 (hc.takesBlock_iff.2 hblock)).symm
  · rintro ⟨hno, hfits⟩
    have hbase := (hm.alone (mt hc.before.1 hno)).1
    rw [hbase] at hpop ⊢
    refine ⟨?_, fun a ha hl => ⟨_, (hm.at_iff a _).2 (.inr ⟨ha, hl, rfl⟩), rfl⟩, fun a ha f => ?_, fun hflag a ha => ?_⟩
    · by_cases hfix : hasFlag flags MAP_FIXED = true ∧ roundDown addr ≠ 0
      · exact .inr ⟨hfix.1, hfixed hfix⟩
      · exact .inl (hfree hfix)
    · refine exists_congr fun k => and_congr_left fun _ => ?_
      rw [hm.at_iff]
      exact ⟨fun hin => hin.elim (hc.sub a k) fun hin => absurd ⟨hin.1, hin.2.1⟩ ha, fun hin => .inl (hc.outside a k ha hin)⟩
    · obtain ⟨hyes, hnot⟩ := mapped_populated hok' hm (mt hc.before.1 hno) hr (hpop hflag) a ha
      rw [hc.takesBlock_iff] at hyes hnot
      by_cases hblock : t.vm.TakesBlock prot (mmapSize addr len) b
      · rw [hyes hblock]
        exact (hc.blockFits_iff h.areas hr hblock).2 (hfits hflag hblock) a ha
      · rw [hnot hblock]
        by_cases hin : b ≤ a ∧ a < b + mmapSize addr len
        · simp [hin]
        · rw [show mappedByte _ _ a = _ from hc.pages a ha hin]

theorem VmSpace.MmapAt.unique {c : Nat} (h : s.MmapAt addr len flags b) (h' : s.MmapAt addr len flags c) : b = c := by
  unfold MmapAt at h h'
  split at h
  · rename_i hfix
    rw [if_pos hfix] at h'
    exact h.trans h'.symm
  · rename_i hfix
    rw [if_neg hfix] at h'
    exact h.unique h'

/-- Where there is a place for the mapping the search does not pass below zero. -/
theorem VmSpace.MmapAt.fits (hlt : roundDown addr < roundUp (add64 addr len))
    (hsum : roundDown addr + mmapSize addr len = roundUp (add64 addr len)) (h : s.MmapAt addr len flags b) :
    MmapFits s addr len flags := by
  have hsize : roundUp (add64 addr len) - roundDown addr = mmapSize addr len := by omega
  refine ⟨hlt, ?_⟩
  rw [hsize]
  unfold MmapAt at h
  split at h
  · rename_i hfix
    exact .inl hfix
  · refine .inr ?_
    rcases h with ⟨k, hk, rfl, hlow, hfree, -⟩ | ⟨hne, hdvd, -⟩
    · exact .inr ⟨k, by omega, hfree⟩
    · rw [scanStart, if_neg hne]
      exact .inl hdvd

theorem TaskMem.mmapExact_iff (hw : addr + len + (PAGE_SIZE - 1) < 2 ^ 64)
    (hfirst : hasFlag flags MAP_FIXED = true → roundDown addr = 0 → t.vm.Free 0 (mmapSize addr len))
    (hb : t.vm.MmapAt addr len flags b) : t.MmapExact addr len prot flags ↔ ¬t.vm.JoinsBefore prot b ∧
      (hasFlag flags MAP_POPULATE = true → t.vm.TakesBlock prot (mmapSize addr len) b → t.BlockFits (mmapSize addr len) b) := by
  refine ⟨fun hc => ?_, fun hc => ⟨hw, hfirst, b, hb, hc⟩⟩
  obtain ⟨c, hat, hc⟩ := hc.place
  rwa [hb.unique hat]

/-- With `MAP_FIXED` what lies in the first page is removed, but the mapping is put elsewhere. -/
theorem firstPage_not_placed (h₁ : TaskOk t1) (hm : MappedAt t1.vm t'.vm prot (mmapSize addr len) b p) (hlow : PAGE_SIZE ≤ b)
    (hpos : 0 < mmapSize addr len) (hzero : roundDown addr = 0) (hsub : ∀ va k, At t1.vm va k → At t.vm va k)
    (hgone : t1.vm.Free 0 (mmapSize addr len)) (hfull : ¬t.vm.Free 0 (mmapSize addr len)) :
    ¬MmapPlaced t t' addr len prot flags (t'.vm.vma p).vmBase := by
  intro hplaced
  have hbase : (t'.vm.vma p).vmBase = b := by
    by_contra hne
    have hj : t1.vm.JoinsBefore prot b := by
      by_contra hno
      exact hne (hm.alone hno).1
    obtain ⟨q, hq, hqe, hbase⟩ := hm.joined hj
    have hproper := h₁.areas.agrees.proper q hq
    rcases hplaced.fresh with hfresh | ⟨-, heq⟩
    · exact hfresh _ _ le_rfl (by omega) (hsub _ _ ⟨q, hq, le_of_eq hbase.symm, by omega, rfl⟩)
    · have hqlow := (h₁.areas.vmBase hq).2.1
      rw [← hbase, heq, hzero] at hqlow
      exact absurd hqlow (by decide)
  rw [hbase] at hplaced
  have hfresh : t.vm.Free b (b + mmapSize addr len) := by
    refine hplaced.fresh.resolve_right fun ⟨_, heq⟩ => ?_
    rw [heq, hzero] at hlow
    exact absurd hlow (by decide)
  -- an address that was in an area and is in none now, as it is not one of the mapping
  refine hfull fun va k h1 h2 hin => ?_
  have hout : ¬(b ≤ va ∧ va < b + mmapSize addr len) := fun hc => hfresh va k hc.1 hc.2 hin
  obtain ⟨k', hin', -⟩ := (hplaced.others va hout k.flags).2 ⟨k, hin, rfl⟩
  rcases (hm.at_iff va k').1 hin' with hin' | hc
  · exact hgone va k' h1 h2 hin'
  · exact hout ⟨hc.1, hc.2.1⟩

/-- An address that `sys_mmap` returns is where the mapping is, and all is as it was asked for, if and only if the mapping does
not become a part of an area before it, the search for a place does not pass below zero, and populating a 2M block in place of the
mapping makes no difference. -/
theorem mmap_placed_iff (h : TaskOk t) (hall : mmapAllowed addr len prot flags) (hlen : 0 < len) (hend : addr + len < 2 ^ 64)
    (he : sysMmap fuel image t addr len prot flags = .ok (some r, t')) :
    MmapPlaced t t' addr len prot flags r ↔ t.MmapExact addr len prot flags := by
  have hsteps := (sysMmap_steps hall).1 _ he r rfl
  dsimp only at hsteps
  obtain ⟨t1, p, hclear, hadd, rfl, hpop⟩ := hsteps
  have hlim : USER_LIM = 140737488355328 := by decide
  by_cases hw : addr + len + (PAGE_SIZE - 1) < 2 ^ 64
  case neg =>
    obtain ⟨hzero, hlt, hsum⟩ := mmapSize_wrapped hend hw
    obtain rfl : t = t1 := by
      unfold mmapClear at hclear
      rw [hzero, removeVmaRange_zero (add64_sub64 (by decide))] at hclear
      split at hclear
      · cases hclear
        rfl
      · cases hclear
        rfl
    rw [hzero] at hadd
    obtain ⟨hends, hbase⟩ := (addVma_wrapped h.areas (pageAligned_roundDown addr) hlt).1 _ hadd
    refine ⟨fun hplaced => ?_, fun hc => absurd hc.noWrap hw⟩
    obtain ⟨k, ⟨x, hx, -, hxe, -⟩, -⟩ := hplaced.covered ((t'.vm.vma p).vmBase + mmapSize addr len - 1) (by omega) (by omega)
    have hle : (t'.vm.vma x).vmEnd ≤ USER_LIM := hends x hx
    by_cases hgt : USER_LIM < roundDown addr
    · have : (t'.vm.vma p).vmBase = roundDown addr := hbase p rfl hgt
      omega
    · omega
  obtain ⟨hpos, hal, hsum, hsub⟩ := mmapSize_eq hlen hw
  have hhigh : roundDown addr + mmapSize addr len < USER_LIM := by
    rw [hsum]
    exact hall.2.2.2.2
  have hbase := pageAligned_roundDown addr
  have hr : UserRange (roundDown addr) (roundDown addr + mmapSize addr len) :=
    ⟨hbase, by rw [hsum]; exact pageAligned_roundUp _, by omega, by omega⟩
  rw [hsub] at hclear hadd hpop
  obtain ⟨hok1, hout, hat1, hgone, hsame⟩ := (mmapClear_place h hr).1 _ hclear
  have hends : Yields (addVma fuel t1.vm "user" (roundDown addr) (mmapSize addr len) prot) _ :=
    addVma_rule id id hpos hal hbase (by omega) (placeRule_mapped hpos hal) hok1.areas
  obtain ⟨p', hp', hfound⟩ := (hends.1 _ hadd).resolve_left nofun
  cases hp'
  rcases hfound with ⟨b, hfirst, hlow, hbhigh, hba, hm⟩ | ⟨hlost, hno⟩
  case inr =>
    constructor
    · intro hplaced
      obtain ⟨k, ⟨x, hx, -, hxe, -⟩, -⟩ := hplaced.covered _ le_rfl (by omega)
      have hle : (t'.vm.vma x).vmEnd ≤ USER_LIM := hlost.vmEnd x hx
      have : USER_LIM < (t'.vm.vma p).vmBase := hlost.base
      omega
    · intro hc
      obtain ⟨b, hb, -⟩ := hc.place
      have hfits : MmapReady t.vm t1.vm addr len flags := by
        refine .mk' hok1.areas (fun va k => ?_) (hb.fits (by omega) hsum)
        rw [hat1, hsum]
      have hsize : roundUp (add64 addr len) - roundDown addr = mmapSize addr len := by omega
      have hscan := hfits.fits
      rw [hsize] at hscan
      exact absurd hscan hno
  have hrb : UserRange b (b + mmapSize addr len) := by
    refine ⟨hba, ?_, by omega, hbhigh⟩
    simp only [pageAligned, PAGE_SIZE] at *
    omega
  by_cases hfix : hasFlag flags MAP_FIXED = true ∧ roundDown addr ≠ 0
  · -- the range has been emptied, so the search ends at once
    have hfree : t1.vm.Free (roundDown addr) (roundDown addr + mmapSize addr len) :=
      fun va k h1 h2 hin => ((hat1 va k).1 hin).2 ⟨hfix.1, h1, h2⟩
    obtain rfl : b = roundDown addr := by
      refine hfirst.unique (.inl ⟨0, by omega, ?_, ?_, hfree, fun j hj => absurd hj (Nat.not_lt_zero j)⟩)
      · rw [scanStart, if_neg hfix.2, Nat.zero_mul, Nat.sub_zero]
      · simp only [pageAligned, PAGE_SIZE] at *
        omega
    have hmr : MadeRoom t t1 prot (mmapSize addr len) (roundDown addr) := by
      refine ⟨fun va k hin => ((hat1 va k).1 hin).1, fun va k hva hin => (hat1 va k).2 ⟨hin, fun hc => hva hc.2⟩,
        hout.joinsBefore_iff, fun a => hout.joinsBehind_iff, fun a ha hna => ?_, fun a ha hge hlt => ?_⟩
      · by_cases hempty : t.vm.Free (roundDown addr) (roundDown addr + mmapSize addr len)
        · rw [hsame fun hc => hc.2 hempty]
        · rw [hgone ⟨hfix.1, hempty⟩ a ha, if_neg hna]
      · by_cases hempty : t.vm.Free (roundDown addr) (roundDown addr + mmapSize addr len)
        · rw [hsame fun hc => hc.2 hempty]
          simp only [hempty, true_and]
        · rw [hgone ⟨hfix.1, hempty⟩ a ha, if_pos ⟨hge, hlt⟩]
          simp only [hempty, false_and, ne_eq, not_true_eq_false]
    rw [hmr.placed_iff h hok1 hrb hlow hm (fun _ => rfl) (fun hno => absurd hfix hno) hpop]
    exact (TaskMem.mmapExact_iff hw (fun _ hzero => absurd hzero hfix.2) (by rw [MmapAt, if_pos hfix])).symm
  by_cases hfull : hasFlag flags MAP_FIXED = true ∧ ¬t.vm.Free 0 (mmapSize addr len)
  · have hzero : roundDown addr = 0 := by
      by_contra hne
      exact hfix ⟨hfull.1, hne⟩
    refine ⟨fun hplaced => absurd hplaced ?_, fun hc => absurd (hc.first hfull.1 hzero) hfull.2⟩
    refine firstPage_not_placed hok1 hm hlow hpos hzero (fun va k hin => ((hat1 va k).1 hin).1) (fun va k h1 h2 hin => ?_) hfull.2
    exact ((hat1 va k).1 hin).2 ⟨hfull.1, by omega, by omega⟩
  · have hfirst' : hasFlag flags MAP_FIXED = true → roundDown addr = 0 → t.vm.Free 0 (mmapSize addr len) := fun hyes _ => by
      by_contra hno
      exact hfull ⟨hyes, hno⟩
    obtain rfl : t1 = t := by
      refine hsame fun hc => hc.2 ?_
      have hzero : roundDown addr = 0 := by
        by_contra hne
        exact hfix ⟨hc.1, hne⟩
      rw [hzero, Nat.zero_add]
      exact hfirst' hc.1 hzero
    rw [(MadeRoom.refl hm.free).placed_iff h h hrb hlow hm (fun hyes => absurd hyes hfix) (fun _ => hm.free) hpop]
    exact (TaskMem.mmapExact_iff hw hfirst' (by rw [MmapAt, if_neg hfix]; exact hfirst)).symm

/-- A task with one page at `0x1000000`, as `sys_mmap` makes it. -/
def oneArea : TaskMem where
  phys := smallMachine.phys
  vm := single ⟨"user", 0x1000000, 0x1001000, none, 0, PROT_READ⟩
  pml4 := fun _ => 0

theorem oneArea_ok : TaskOk oneArea := by
  refine ⟨⟨single_agrees (by decide), ?_⟩, _, _, _, acc_empty smallMachine_ledger⟩
  rintro a ⟨p, hp, ha⟩
  cases List.mem_singleton.1 hp
  rcases ha with rfl | rfl <;> exact ⟨by decide, by decide, by decide⟩

/-- The page behind is mapped. The address returned is that of the first page. -/
theorem mmap_returns_page_before : TaskOk oneArea ∧ mmapAllowed 0x1001000 0x1000 PROT_READ (MAP_ANONYMOUS ||| MAP_PRIVATE) ∧
    ∃ t', sysMmap 20 (fun _ => 0) oneArea 0x1001000 0x1000 PROT_READ (MAP_ANONYMOUS ||| MAP_PRIVATE) = .ok (some 0x1000000, t') ∧
      ¬MmapPlaced oneArea t' 0x1001000 0x1000 PROT_READ (MAP_ANONYMOUS ||| MAP_PRIVATE) 0x1000000 := by
  have hrun : ∃ t', sysMmap 20 (fun _ => 0) oneArea 0x1001000 0x1000 PROT_READ (MAP_ANONYMOUS ||| MAP_PRIVATE) =
      .ok (some 0x1000000, t') := by
    decide +kernel
  obtain ⟨t', he⟩ := hrun
  refine ⟨oneArea_ok, by decide, t', he, fun hplaced => ?_⟩
  rcases hplaced.fresh with hfresh | ⟨hfix, -⟩
  · exact hfresh 0x1000000 _ le_rfl (by decide) ⟨0, List.mem_singleton.2 rfl, by decide, by decide, rfl⟩
  · exact absurd hfix (by decide)

/-- A page further behind is mapped and populated. -/
theorem mmap_placed_further : ∃ t', sysMmap 20 (fun _ => 0) oneArea 0x1002000 0x1000 PROT_READ
      (MAP_ANONYMOUS ||| MAP_PRIVATE ||| MAP_POPULATE) = .ok (some 0x1002000, t') ∧
    MmapPlaced oneArea t' 0x1002000 0x1000 PROT_READ (MAP_ANONYMOUS ||| MAP_PRIVATE ||| MAP_POPULATE) 0x1002000 := by
  have hrun : ∃ t', sysMmap 20 (fun _ => 0) oneArea 0x1002000 0x1000 PROT_READ
      (MAP_ANONYMOUS ||| MAP_PRIVATE ||| MAP_POPULATE) = .ok (some 0x1002000, t') := by
    decide +kernel
  obtain ⟨t', he⟩ := hrun
  refine ⟨t', he, (mmap_placed_iff oneArea_ok (by decide) (by decide) (by decide) he).2 ⟨by decide, fun hfix => absurd hfix (by decide),
    0x1002000, ?_, ?_, fun _ hblock => absurd hblock.1 (by decide)⟩⟩
  · refine .inl ⟨0, by decide, by decide, by decide, fun va k h1 h2 ⟨p, hp, hb, hlt, _⟩ => ?_, fun j hj => absurd hj (Nat.not_lt_zero j)⟩
    cases List.mem_singleton.1 hp
    have : va < 0x1001000 := hlt
    omega
  · rintro ⟨q, hq, hqe, -⟩
    cases List.mem_singleton.1 hq
    exact absurd hqe (by decide)

end OpenLsd
