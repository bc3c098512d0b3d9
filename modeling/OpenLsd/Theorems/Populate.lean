import OpenLsd.Lemmas.Populate
import OpenLsd.Theorems.Contents

/-!
# Populating pages

A fault populates one page. For an area that is backed by an executable the page is filled from the executable even if it was
there before, so that a fault after `fork` brings back the bytes that the program had overwritten.

`populate_vma_range` fills a range of pages. It stops at the end of the first 2M block of an anonymous area, and of the areas
that begin within the range none is filled from its executable.
-/

namespace OpenLsd

open Outcome VmSpace

variable {t t' : TaskMem} {image : Nat → UInt8} {va flags base size : Nat}

/-! ## Faults -/

/-- The page of the address holds what the executable has for it, as far as the page is there and the executable reaches. -/
def TaskMem.HoldsImage (t : TaskMem) (image : Nat → UInt8) (va : Nat) : Prop :=
  ∀ p, t.vm.taskFindVma va = some p → ∀ src, (t.vm.vma p).vmSrc = some src → ∀ a, roundDown a = roundDown va →
    a - (t.vm.vma p).vmBase < (t.vm.vma p).vmLen → ∀ b, mappedByte t.phys t.pml4 a = some b →
    b = image (src + (a - (t.vm.vma p).vmBase))

/-- What is mapped after a fault, in the area that it hits. -/
theorem TaskOk.fault (h : TaskOk t) (he : taskPageFaultHandler image t va flags = .ok (0, t')) :
    ∃ p ∈ t.vm.taskMmap, t.vm.taskFindVma va = some p ∧ ∀ a < USER_LIM, mappedByte t'.phys t'.pml4 a =
      ((t.vm.vma p).populate image (roundDown va) PAGE_SIZE (a / PAGE_SIZE)
        (PageState.contents (Node.page t.phys t.pml4 (a / PAGE_SIZE)))).map (· (a % PAGE_SIZE)) := by
  obtain ⟨hareas, keep, ext, alloc, hacc⟩ := h
  have hfault : ∃ p, t.vm.taskFindVma va = some p ∧ t'.vm = t.vm ∧ Moves keep True (fun g s s' => PageState.contents s' =
      (t.vm.vma p).populate image (roundDown va) PAGE_SIZE g (PageState.contents s)) ext alloc t.phys t.pml4 (t'.phys, t'.pml4) :=
    (fault_contents hareas hacc).1 _ he rfl
  obtain ⟨p, hf, -, ext', alloc', hm⟩ := hfault
  refine ⟨p, (taskFindVma_some hareas.agrees hf).1, hf, fun a ha => ?_⟩
  rw [mappedByte_eq ha, hm.page _ (user_page_lt ha)]

/-- A page fault that is taken care of keeps what is mapped at every address if and only if the page that it populates holds what
it was filled with. -/
theorem fault_keeps_contents_iff (h : TaskOk t) (he : taskPageFaultHandler image t va flags = .ok (0, t')) :
    (∀ a < USER_LIM, ∀ b, mappedByte t.phys t.pml4 a = some b → mappedByte t'.phys t'.pml4 a = some b) ↔
      t.HoldsImage image va := by
  obtain ⟨p, hpm, hf, hbyte⟩ := h.fault he
  obtain ⟨-, hpb, hpe⟩ := taskFindVma_some h.areas.agrees hf
  obtain ⟨hbase, hend⟩ := h.areas.page_in hpm hpb hpe
  have hlim := (h.areas.vmEnd hpm).2.2
  have hpos : 0 < PAGE_SIZE := by decide
  have hb64 : roundDown va < 2 ^ 64 := lt_of_lt_of_le (show roundDown va < USER_LIM by omega) (by decide)
  have hin : ∀ a, roundDown a = roundDown va ↔ InPages (roundDown va) PAGE_SIZE (a / PAGE_SIZE) := by
    intro a
    simp only [InPages, roundDown, PAGE_SIZE]
    omega
  have hbounds : ∀ a, roundDown a = roundDown va → roundDown va ≤ a ∧ a < roundDown va + PAGE_SIZE := by
    intro a ha
    rw [← ha]
    simp only [roundDown, PAGE_SIZE]
    omega
  constructor
  · intro hkeep q hq src hsrc a ha hlen b hb
    cases hf.symm.trans hq
    obtain ⟨hlo, hhi⟩ := hbounds a ha
    have hlt : a < USER_LIM := by omega
    have hafter := (hbyte a hlt).symm.trans (hkeep a hlt b hb)
    have hno : ¬hugeShortcut (t.vm.vma p) (roundDown va) := fun hs => by cases hsrc.symm.trans hs.1
    rw [Vma.populate, if_neg hno, if_pos ((hin a).1 ha), Option.map_some, filled_byte hbase hb64 hlo hhi, hsrc] at hafter
    simp only [if_pos hlen, Option.some.injEq] at hafter
    exact hafter.symm
  · intro himage a hlt b hb
    have hcont := (mappedByte_eq hlt).symm.trans hb
    obtain ⟨c, hc, hcb⟩ := Option.map_eq_some_iff.1 hcont
    rw [hbyte a hlt, hc]
    unfold Vma.populate
    split
    · split <;> exact congrArg some hcb
    · split
      · rename_i hin'
        have ha := (hin a).2 hin'
        obtain ⟨hlo, hhi⟩ := hbounds a ha
        rw [Option.map_some, filled_byte hbase hb64 hlo hhi]
        cases hsrc : (t.vm.vma p).vmSrc with
        | none => exact congrArg some hcb
        | some src =>
          simp only [Option.some.injEq]
          split
          · rename_i hlen
            exact (himage p hf src hsrc a ha hlen b hb).symm
          · exact hcb
      · exact congrArg some hcb

/-- A program writes to its data and forks. When it writes to the page again it has what the executable has there. -/
theorem fault_after_fork_refills : ∃ s1 s2 s3 s4 t t', smallMachine.act 20 (fun _ => 0x55)
      (.create 1 0 [⟨true, 0x400000, 0x10, 0x10, 0, true, false⟩]) = .ok s1 ∧
    s1.act 20 (fun _ => 0x55) (.fault 1 0x400000 PROT_WRITE) = .ok s2 ∧
    s2.act 20 (fun _ => 0x55) (.store 1 0x400004 0x77) = .ok s3 ∧
    s3.act 20 (fun _ => 0x55) (.fork 1 2) = .ok s4 ∧ s4.tasks 1 = some t ∧
    taskPageFaultHandler (fun _ => 0x55) (s4.running 1 t) 0x400000 PROT_WRITE = .ok (0, t') ∧
    mappedByte s4.phys t.pml4 0x400004 = some 0x77 ∧ mappedByte t'.phys t'.pml4 0x400004 = some 0x55 := by
  simp only [exists_and_left]
  decide +kernel

/-- The page of a segment is read twice. -/
theorem fault_keeps_contents_segment : ∃ t t', segmentTouched = .ok t ∧
    taskPageFaultHandler (fun _ => 0x55) t 0x400000 PROT_READ = .ok (0, t') ∧ mappedByte t.phys t.pml4 0x400000 = some 0x55 ∧
    mappedByte t'.phys t'.pml4 0x400000 = some 0x55 := by
  have hrun : ∃ t, segmentTouched = .ok t ∧ t.vm.taskFindVma 0x400000 = some 0 ∧ (t.vm.vma 0).vmBase = 0x400000 ∧
      (t.vm.vma 0).vmLen = 0x10 ∧ (∀ i : Fin 0x10, mappedByte t.phys t.pml4 (0x400000 + i) = some 0x55) ∧
      ∃ t', taskPageFaultHandler (fun _ => 0x55) t 0x400000 PROT_READ = .ok (0, t') := by
    decide +kernel
  obtain ⟨t, ht, hf, hbase, hlen, hbytes, t', he⟩ := hrun
  have himage : t.HoldsImage (fun _ => 0x55) 0x400000 := by
    intro p hp src _ a ha hlt b hb
    cases hf.symm.trans hp
    rw [hbase, hlen] at hlt
    have hge : 0x400000 ≤ a := by
      simp only [roundDown, PAGE_SIZE] at ha
      omega
    obtain ⟨i, rfl⟩ := Nat.exists_eq_add_of_le hge
    exact Option.some.inj (hb.symm.trans (hbytes ⟨i, by omega⟩))
  have h0 : mappedByte t.phys t.pml4 0x400000 = some 0x55 := hbytes 0
  exact ⟨t, t', ht, he, h0, (fault_keeps_contents_iff (segmentTouched_ok.1 _ ht) he).2 himage _ (by decide) _ h0⟩

/-! ## Ranges -/

/-- Every address of the range is in an area that allows the access. -/
def VmSpace.Allows (s : VmSpace) (flags base size : Nat) : Prop :=
  ∀ a, base ≤ a → a < base + size →
    ∃ p ∈ s.taskMmap, (s.vma p).vmBase ≤ a ∧ a < (s.vma p).vmEnd ∧ populateAllowed flags (s.vma p).vmFlags

/-- Every page of the range is there, and one that was not there before holds what backs it. -/
def Populates (image : Nat → UInt8) (t t' : TaskMem) (base size : Nat) : Prop :=
  ∀ a, base ≤ a → a < base + size → mappedByte t'.phys t'.pml4 a ≠ none ∧
    (mappedByte t.phys t.pml4 a = none → mappedByte t'.phys t'.pml4 a = (t.vm.backing image a).map Prod.snd)

/-- For the area that the range starts in:

1. If it is the only one, and `do_populate_vma` populates a 2M block, then all pages of the range behind the block are there.
2. Where a page is not there, the area would back the same byte as the area that the page is in. -/
def TaskMem.PopulatesAll (t : TaskMem) (image : Nat → UInt8) (base size : Nat) : Prop :=
  ∀ p ∈ t.vm.taskMmap, (t.vm.vma p).vmBase ≤ base → base < (t.vm.vma p).vmEnd →
    (base + size ≤ (t.vm.vma p).vmEnd → hugeShortcut (t.vm.vma p) base → ∀ a, blockStart HPAGE_SIZE base + HPAGE_SIZE ≤ a →
      a < base + size → mappedByte t.phys t.pml4 a ≠ none) ∧
    ∀ a, base ≤ a → a < base + size → mappedByte t.phys t.pml4 a = none →
      (t.vm.backing image a).map Prod.snd = some ((t.vm.vma p).backing image a).2

section Range

variable {p : Nat}

/-- A range that is covered lies in the user half. -/
theorem VmSpace.Allows.range (h : AreasOk t.vm) (hb : pageAligned base) (hs : pageAligned size) (hpos : 0 < size)
    (hall : t.vm.Allows flags base size) : UserRange base (base + size) := by
  obtain ⟨p, hp, -, hpe, -⟩ := hall (base + size - 1) (by omega) (by omega)
  have := (h.vmEnd hp).2.2
  refine ⟨hb, ?_, by omega, by omega⟩
  simp only [pageAligned, PAGE_SIZE] at *
  omega

/-- All areas that the range reaches into allow the access. -/
theorem VmSpace.Allows.area (h : Agrees t.vm) (hall : t.vm.Allows flags base size) (hp : p ∈ t.vm.taskMmap)
    (hpe : base < (t.vm.vma p).vmEnd) (hpb : (t.vm.vma p).vmBase < base + size) (hpos : 0 < size) :
    populateAllowed flags (t.vm.vma p).vmFlags := by
  have hproper := h.proper p hp
  obtain ⟨q, hq, hqb, hqe, hallow⟩ := hall (max base (t.vm.vma p).vmBase) (by omega) (by omega)
  have heq : q = p := by
    by_contra hne
    rcases h.apart hq hp hne with hap | hap <;> omega
  rwa [← heq]

/-- An area begins within the range just if the range goes beyond the first area. -/
theorem VmSpace.Allows.crosses (h : Agrees t.vm) (hall : t.vm.Allows flags base size) (hp : p ∈ t.vm.taskMmap)
    (hpb : (t.vm.vma p).vmBase ≤ base) (hpe : base < (t.vm.vma p).vmEnd) :
    t.vm.Crosses base (base + size) ↔ (t.vm.vma p).vmEnd < base + size := by
  constructor
  · rintro ⟨q, hq, hqb, hqs⟩
    have hproper := h.proper q hq
    rcases h.apart hp hq (fun e => by rw [e] at hpb; omega) with hap | hap <;> omega
  · intro hlt
    obtain ⟨q, hq, hqb, hqe, -⟩ := hall (t.vm.vma p).vmEnd (by omega) hlt
    rcases h.apart hp hq (fun e => by rw [e] at hqe; omega) with hap | hap
    · exact ⟨q, hq, by omega, by omega⟩
    · omega

/-- Data shorter than the user half never reach a range that starts before their area. -/
theorem vmLen_le_sub64 {v : Vma} (hlen : v.vmLen ≤ USER_LIM) (hlt : base < v.vmBase) (hv : v.vmBase ≤ USER_LIM) :
    v.vmLen ≤ sub64 base v.vmBase := by
  simp only [sub64, USER_LIM] at *
  omega

/-- What is mapped in a range that has been populated. -/
theorem TaskOk.populate {r : Bool} (h : TaskOk t) (hlen : ∀ p ∈ t.vm.taskMmap, (t.vm.vma p).vmLen ≤ USER_LIM)
    (hr : UserRange base (base + size)) (hall : t.vm.Allows flags base size) (hp : p ∈ t.vm.taskMmap)
    (hpb : (t.vm.vma p).vmBase ≤ base) (hpe : base < (t.vm.vma p).vmEnd)
    (he : populateVmaRange image t base size flags = .ok (r, t')) :
    r = true ∧ ∀ a < USER_LIM, mappedByte t'.phys t'.pml4 a = (t.vm.populate image p base size (a / PAGE_SIZE)
      (PageState.contents (Node.page t.phys t.pml4 (a / PAGE_SIZE)))).map (· (a % PAGE_SIZE)) := by
  obtain ⟨hareas, keep, ext, alloc, hacc⟩ := h
  have hpos : 0 < size := by
    have := hr.lt
    omega
  have hpop : r = true ∧ t'.vm = t.vm ∧ t'.root = t.root ∧ Moves keep True (fun g s s' => PageState.contents s' =
      t.vm.populate image p base size g (PageState.contents s)) ext alloc t.phys t.pml4 (t'.phys, t'.pml4) :=
    (populateVmaRange_contents hareas hacc hr (findVma_of_mem hareas.agrees hp hpb hpe) hpb
      (fun q hq hqe hqb => hall.area hareas.agrees hq hqe hqb hpos)
      fun q hq hqb _ => vmLen_le_sub64 (hlen q hq) hqb (hareas.vmBase hq).2.2).1 _ he
  obtain ⟨hok, -, -, ext', alloc', hm⟩ := hpop
  exact ⟨hok, fun a ha => by rw [mappedByte_eq ha, hm.page _ (user_page_lt ha)]⟩

/-- What an address of the range holds afterwards: what the first area fills it with, unless that area is the only one and its
2M block is populated. -/
theorem VmSpace.Allows.populate {a : Nat} (h : AreasOk t.vm) (hall : t.vm.Allows flags base size) (hr : UserRange base (base + size))
    (hp : p ∈ t.vm.taskMmap) (hpb : (t.vm.vma p).vmBase ≤ base) (hpe : base < (t.vm.vma p).vmEnd) (ha : base ≤ a)
    (hl : a < base + size) (c : Option (Nat → UInt8)) :
    t.vm.populate image p base size (a / PAGE_SIZE) c =
      if base + size ≤ (t.vm.vma p).vmEnd ∧ hugeShortcut (t.vm.vma p) base then
        if a < blockStart HPAGE_SIZE base + HPAGE_SIZE then some (orZeros c) else c
      else some ((t.vm.vma p).filled image base size (a / PAGE_SIZE) c) := by
  have hin : InPages base size (a / PAGE_SIZE) := by
    have h1 := hr.alignedBase
    have h2 := hr.alignedLast
    simp only [InPages, pageAligned, PAGE_SIZE] at *
    omega
  have hblock : InPages (blockStart HPAGE_SIZE base) HPAGE_SIZE (a / PAGE_SIZE) ↔ a < blockStart HPAGE_SIZE base + HPAGE_SIZE := by
    have hsize : HPAGE_SIZE = 2097152 := by decide
    simp only [InPages, blockStart, hsize, PAGE_SIZE]
    omega
  have hcross := hall.crosses h.agrees hp hpb hpe
  by_cases honly : base + size ≤ (t.vm.vma p).vmEnd
  · rw [VmSpace.populate, if_neg fun hc => absurd (hcross.1 hc.1) (by omega), Vma.populate]
    simp only [honly, true_and, hblock, if_pos hin]
  · rw [VmSpace.populate, if_pos ⟨hcross.2 (by omega), hin⟩, if_neg fun hc => honly hc.1]

/-- `populate_vma_range` on a range that is covered by areas which allow the access returns 0. It populates the range with what
backs it if and only if the first area speaks for all of it. -/
theorem populate_complete_iff {r : Bool} (h : TaskOk t) (hlen : ∀ p ∈ t.vm.taskMmap, (t.vm.vma p).vmLen ≤ USER_LIM)
    (hb : pageAligned base) (hs : pageAligned size) (hpos : 0 < size) (hall : t.vm.Allows flags base size)
    (he : populateVmaRange image t base size flags = .ok (r, t')) :
    r = true ∧ (Populates image t t' base size ↔ t.PopulatesAll image base size) := by
  have hag := h.areas.agrees
  have hr := hall.range h.areas hb hs hpos
  obtain ⟨p, hp, hpb, hpe, -⟩ := hall base le_rfl (by omega)
  obtain ⟨hok, hbyte⟩ := h.populate hlen hr hall hp hpb hpe he
  have hlim : ∀ a, a < base + size → a < USER_LIM := fun a ha => lt_of_lt_of_le ha hr.le
  have hb64 : base < 2 ^ 64 := lt_of_lt_of_le (hlim base (by omega)) (by decide)
  have hafter : ∀ a, base ≤ a → a < base + size → mappedByte t'.phys t'.pml4 a = _ := fun a ha hl => by
    rw [hbyte a (hlim a hl), hall.populate h.areas hr hp hpb hpe ha hl]
  have hzero : hugeShortcut (t.vm.vma p) base → ∀ a, ((t.vm.vma p).backing image a).2 = 0 := fun hsc a => by
    rw [Vma.backing_zero (.inl hsc.1)]
  have hone : ∀ q ∈ t.vm.taskMmap, (t.vm.vma q).vmBase ≤ base → base < (t.vm.vma q).vmEnd → q = p := by
    intro q hq hqb hqe
    by_contra hne
    rcases hag.apart hq hp hne with hap | hap <;> omega
  refine ⟨hok, fun hpop q hq hqb hqe => ?_, fun hcond a ha hl => ?_⟩
  · rw [hone q hq hqb hqe]
    refine ⟨fun honly hsc a hblock hl hno => ?_, fun a ha hl hno => ?_⟩
    · have hbase : blockStart HPAGE_SIZE base + HPAGE_SIZE > base := by
        have := Nat.lt_div_mul_add (a := base) (show 0 < HPAGE_SIZE by decide)
        exact this
      have hmapped := (hpop a (by omega) hl).1
      rw [hafter a (by omega) hl, if_pos ⟨honly, hsc⟩, if_neg (by omega), ← mappedByte_eq (hlim a hl)] at hmapped
      exact hmapped hno
    · obtain ⟨hmapped, hback⟩ := hpop a ha hl
      have hcont := Option.map_eq_none_iff.1 ((mappedByte_eq (hlim a hl)).symm.trans hno)
      rw [← hback hno]
      rw [hafter a ha hl, hcont] at hmapped ⊢
      split at hmapped
      · rename_i hsc
        rw [if_pos hsc, hzero hsc.2]
        split at hmapped
        · rename_i hlt
          rw [if_pos hlt]
          rfl
        · exact absurd rfl hmapped
      · rename_i hsc
        rw [if_neg hsc, Option.map_some, filled_backing hpb hb64 ha hl]
  · obtain ⟨hblock, hback⟩ := hcond p hp hpb hpe
    rw [hafter a ha hl]
    split
    · rename_i hsc
      split
      · refine ⟨nofun, fun hno => ?_⟩
        have hcont := Option.map_eq_none_iff.1 ((mappedByte_eq (hlim a hl)).symm.trans hno)
        rw [hback a ha hl hno, hzero hsc.2, hcont]
        rfl
      · rename_i hge
        have hthere := hblock hsc.1 hsc.2 a (by omega) hl
        rw [← mappedByte_eq (hlim a hl)]
        exact ⟨hthere, fun hno => absurd hno hthere⟩
    · refine ⟨nofun, fun hno => ?_⟩
      have hcont := Option.map_eq_none_iff.1 ((mappedByte_eq (hlim a hl)).symm.trans hno)
      rw [hback a ha hl hno, hcont, Option.map_some, filled_backing hpb hb64 ha hl]

end Range

/-- A program with two segments next to each other, of which nothing has been touched. -/
def twoSegments : Kernel TaskMem := do
  let vm ← taskLoadElf 20 0 [⟨true, 0x400000, 0x1000, 0x10, 0, true, false⟩, ⟨true, 0x401000, 0x1000, 0x10, 0x1000, true, false⟩]
  .ok { phys := smallMachine.phys, vm := vm, pml4 := fun _ => 0 }

theorem twoSegments_ok : Yields twoSegments TaskOk := by
  refine (taskLoadElf_ok id id fun h hh => ?_).bind fun vm hvm => .ok ⟨hvm, _, _, _, acc_empty smallMachine_ledger⟩
  rcases List.mem_cons.1 hh with rfl | hh
  · exact fun _ => by decide
  · rw [List.mem_singleton.1 hh]
    exact fun _ => by decide

/-- Where the two segments lie. -/
theorem twoSegments_areas : ∃ t, twoSegments = .ok t ∧ 0 ∈ t.vm.taskMmap ∧ 1 ∈ t.vm.taskMmap ∧
    (∀ p ∈ t.vm.taskMmap, (t.vm.vma p).vmLen ≤ USER_LIM) ∧
    (t.vm.vma 0).vmBase = 0x400000 ∧ (t.vm.vma 0).vmEnd = 0x401000 ∧ populateAllowed PROT_READ (t.vm.vma 0).vmFlags ∧
    (t.vm.vma 1).vmBase = 0x401000 ∧ (t.vm.vma 1).vmEnd = 0x402000 ∧ populateAllowed PROT_READ (t.vm.vma 1).vmFlags := by
  decide +kernel

/-- Both segments are populated at once. The second one gets zeros instead of its data. -/
theorem populate_skips_image : ∃ t t', twoSegments = .ok t ∧ TaskOk t ∧ t.vm.Allows PROT_READ 0x400000 0x2000 ∧
    populateVmaRange (fun _ => 0x55) t 0x400000 0x2000 PROT_READ = .ok (true, t') ∧
    mappedByte t.phys t.pml4 0x401000 = none ∧ (t.vm.backing (fun _ => 0x55) 0x401000).map Prod.snd = some 0x55 ∧
    mappedByte t'.phys t'.pml4 0x401000 = some 0 := by
  obtain ⟨t, ht, h0, h1, -, hb0, he0, hall0, hb1, he1, hall1⟩ := twoSegments_areas
  have hrun : ∃ t, twoSegments = .ok t ∧ mappedByte t.phys t.pml4 0x401000 = none ∧
      (t.vm.backing (fun _ => 0x55) 0x401000).map Prod.snd = some 0x55 ∧
      ∃ t', populateVmaRange (fun _ => 0x55) t 0x400000 0x2000 PROT_READ = .ok (true, t') ∧
        mappedByte t'.phys t'.pml4 0x401000 = some 0 := by
    decide +kernel
  obtain ⟨t1, ht1, hnone, hback, t', he, hb'⟩ := hrun
  cases ht.symm.trans ht1
  refine ⟨t, t', ht, twoSegments_ok.1 _ ht, fun a ha hl => ?_, he, hnone, hback, hb'⟩
  by_cases hlt : a < 0x401000
  · exact ⟨0, h0, by omega, by omega, hall0⟩
  · exact ⟨1, h1, by omega, by omega, hall1⟩

/-- One segment is populated. -/
theorem populate_complete_segment : ∃ t t', twoSegments = .ok t ∧
    populateVmaRange (fun _ => 0x55) t 0x401000 0x1000 PROT_READ = .ok (true, t') ∧
    Populates (fun _ => 0x55) t t' 0x401000 0x1000 := by
  obtain ⟨t, ht, -, h1, hlen, -, -, -, hb1, he1, hall1⟩ := twoSegments_areas
  have hrun : ∃ t, twoSegments = .ok t ∧ (t.vm.vma 1).vmSrc ≠ none ∧
      ∃ r, populateVmaRange (fun _ => 0x55) t 0x401000 0x1000 PROT_READ = .ok r := by
    decide +kernel
  obtain ⟨t1, ht1, hsrc, ⟨r, t'⟩, he⟩ := hrun
  cases ht.symm.trans ht1
  have hok := twoSegments_ok.1 _ ht
  have hall : t.vm.Allows PROT_READ 0x401000 0x1000 := fun a ha hl => ⟨1, h1, by omega, by omega, hall1⟩
  obtain ⟨rfl, hiff⟩ := populate_complete_iff hok hlen (by decide) (by decide) (by decide) hall he
  refine ⟨t, t', ht, he, hiff.2 fun p hp hpb hpe => ?_⟩
  obtain rfl : p = 1 := by
    by_contra hne
    rcases hok.areas.agrees.apart hp h1 hne with hap | hap <;> omega
  refine ⟨fun _ hsc => absurd hsc.1 hsrc, fun a ha hl _ => ?_⟩
  rw [VmSpace.backing_of_mem hok.areas.agrees h1 (by omega) (by omega)]
  rfl

end OpenLsd
