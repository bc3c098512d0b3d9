import OpenLsd.Lemmas.CallRules
import OpenLsd.Lemmas.MachineInv
import OpenLsd.Theorems.WriteExec

/-!
# What `mprotect` does to the contents of memory

A page that loses its read permission is no longer present in the page tables. When it may be read again the next access
faults, and what the fault finds is that no page is there: it maps a new one, filled with zeros. So `mprotect` keeps the
contents of memory only where it leaves pages readable. A fault at a page that is there copies it if it is shared, and leaves
it alone otherwise, but in an area that is backed by an executable the page is filled from the executable once more.
-/

namespace OpenLsd

open Outcome Function VmSpace

/-! ## Runs -/

/-- A task whose areas lie in the user half, and whose page tables are counted. -/
structure TaskOk (t : TaskMem) : Prop where
  areas : AreasOk t.vm
  counted : ∃ keep ext alloc, Acc keep ext alloc t.phys t.pml4

/-- A call of `mprotect`, or a page fault for an access that asks for `flags`. -/
inductive ProtectAct where
  | mprotect (addr len prot : Nat)
  | fault (va flags : Nat)

def ProtectAct.run (fuel : Nat) (image : Nat → UInt8) (t : TaskMem) : ProtectAct → Kernel (Int × TaskMem)
  | mprotect addr len prot => sysMprotect fuel t addr len prot
  | fault va flags => taskPageFaultHandler image t va flags

/-- Calls and faults one after the other, each of which may be taken where it is. -/
inductive ProtectRun (may : TaskMem → ProtectAct → Prop) : TaskMem → TaskMem → Prop
  | refl (t : TaskMem) : ProtectRun may t t
  | step {t t' t'' : TaskMem} {a : ProtectAct} {fuel : Nat} {r : Int} (image : Nat → UInt8) (hr : ProtectRun may t t')
    (ha : may t' a) (he : a.run fuel image t' = .ok (r, t'')) : ProtectRun may t t''

/-- The call leaves the pages of its range readable, or none of them is there; and the fault is at an anonymous area, at a page
that is not there, or at one that holds nothing of the executable. -/
def ProtectAct.KeepsContents (t : TaskMem) : ProtectAct → Prop
  | mprotect addr len prot => hasFlag prot PROT_READ = true ∨
    ∀ va, roundDown addr ≤ va → va < roundUp (add64 addr len) → pageLookup t.pml4 va = none
  | fault va _ => ∀ p, t.vm.taskFindVma va = some p → (t.vm.vma p).vmSrc = none ∨ pageLookup t.pml4 va = none ∨
    (t.vm.vma p).vmLen ≤ roundDown va - (t.vm.vma p).vmBase

/-! ## Bytes -/

/-- A page that is there stays there, with the same bytes. -/
def KeepsBytes (s s' : Option PageState) : Prop := ∀ a, s = some a → ∃ b, s' = some b ∧ b.bytes = a.bytes

namespace KeepsBytes

variable {s s' s'' : Option PageState}

theorem refl (s : Option PageState) : KeepsBytes s s := fun a h => ⟨a, h, rfl⟩

theorem trans (h : KeepsBytes s s') (h' : KeepsBytes s' s'') : KeepsBytes s s'' := by
  intro a ha
  obtain ⟨b, hb, hbytes⟩ := h a ha
  obtain ⟨c, hc, hbytes'⟩ := h' b hb
  exact ⟨c, hc, hbytes'.trans hbytes⟩

theorem of_same {lent : Set Nat} (h : SamePage lent s s') : KeepsBytes s s' := by
  rintro a rfl
  cases h with
  | some h => exact ⟨_, rfl, h.bytes⟩

theorem of_protect {flags : PageFlags} (hp : flags.present = true) {a b g : Nat} (h : (protectRel flags).at a b g s s') :
    KeepsBytes s s' := by
  unfold PageRel.at at h
  split at h
  · have h : if flags.present = true then SamePage ∅ (s.map (PageState.protect flags)) s' else s' = none := h
    rw [if_pos hp] at h
    rintro a rfl
    obtain ⟨b, hb, hbytes⟩ := of_same h _ rfl
    exact ⟨b, hb, hbytes⟩
  · exact of_same h

theorem of_populate {flags : PageFlags} {a b g : Nat} (h : (populateRel flags).at a b g s s') : KeepsBytes s s' := by
  unfold PageRel.at at h
  split at h
  · have h : Populated flags s s' := h
    rintro a rfl
    cases h with
    | copied hc => exact ⟨_, rfl, hc.bytes⟩
    | same hs => exact ⟨_, rfl, hs.bytes⟩
  · have h : PopulatedBeside flags s s' := h
    cases h with
    | same hs => exact of_same hs
    | copied hc =>
      rintro a ⟨⟩
      exact ⟨_, rfl, hc.bytes⟩

/-- Pages that get nothing of the executable keep their bytes. -/
theorem of_filled {image : Nat → UInt8} {src base n g : Nat} (h : Filled image src base n g s s')
    (hout : ∀ o < PAGE_SIZE, ¬(base ≤ g * PAGE_SIZE + o ∧ g * PAGE_SIZE + o < base + n)) : KeepsBytes s s' := by
  rintro a rfl
  cases h with
  | some h =>
    refine ⟨_, rfl, h.bytes.trans ?_⟩
    funext o
    rw [fillBytes, if_neg fun hin => hout o hin.1 hin.2]

end KeepsBytes

/-! ## Steps -/

section Steps

variable {t t' : TaskMem} {fuel addr len prot va flags : Nat} {image : Nat → UInt8}

/-- Every page of the user half keeps its bytes. -/
def ContentsKept (t t' : TaskMem) : Prop := ∀ g < 2 ^ 35, KeepsBytes (Node.page t.phys t.pml4 g) (Node.page t'.phys t'.pml4 g)

theorem user_addr_lt {g : Nat} (hg : g < 2 ^ 35) : g * PAGE_SIZE < USER_LIM := by
  simp only [PAGE_SIZE, USER_LIM]
  omega

theorem page_none_of_lookup {m : Phys} {pt : Pml4} (hva : va < USER_LIM) (h : pageLookup pt va = none) :
    Node.page m pt (va / PAGE_SIZE) = none := by
  rw [page_lookup hva, Option.map_eq_none_iff.1 h]
  rfl

theorem sysMprotect_contents (h : TaskOk t) (ha : (ProtectAct.mprotect addr len prot).KeepsContents t) :
    Ends Panics (sysMprotect fuel t addr len prot) fun r => TaskOk r.2 ∧ ContentsKept t r.2 := by
  obtain ⟨hareas, keep, ext, alloc, hacc⟩ := h
  let inRange : Nat → Prop := fun g => roundDown addr / PAGE_SIZE ≤ g ∧ g < roundUp (add64 addr len) / PAGE_SIZE
  -- A page of the range that is there may change only if it stays readable.
  let R : StateRel := fun g s s' =>
    hasFlag prot PROT_READ = true ∨ ¬inRange g → KeepsBytes s s'
  refine (sysMprotect_keeps (K := Moves keep True R ext alloc t.phys t.pml4) (by simp [Panics]) (by simp [Panics]) hareas
    ⟨ext, alloc, .refl hacc fun g s _ => .refl s⟩ fun hrange m pt hk => ?_).mono ?_
  rotate_left
  · intro r hr
    obtain ⟨ext', alloc', hm⟩ := hr.pages
    refine ⟨⟨hr.areas, keep, ext', alloc', hm.acc⟩, fun g hg => ?_⟩
    rcases ha with hread | hnone
    · exact hm.page g hg (.inl hread)
    · by_cases hin : inRange g
      · have hva := hnone (g * PAGE_SIZE) (by
          have := pageAligned_roundDown addr
          simp only [inRange, pageAligned, PAGE_SIZE] at *
          omega) (by
          have := pageAligned_roundUp (add64 addr len)
          simp only [inRange, pageAligned, PAGE_SIZE] at *
          omega)
        have hpage := page_none_of_lookup (m := t.phys) (user_addr_lt hg) hva
        rw [Nat.mul_div_cancel _ (by decide)] at hpage
        rw [hpage]
        intro a hno
        cases hno
      · exact hm.page g hg (.inr hin)
  · refine hk.then (fun ext' alloc' hacc' => (protectRegion_moves hrange (add64_sub64 (roundUp_lt _)) hacc').mono fun r hr =>
      hr.lossy_imp fun _ => trivial) fun g _ s s' s'' hs hs' hor => (hs hor).trans ?_
    by_cases hread : hasFlag prot PROT_READ = true
    · exact .of_protect (protectFlags_present hread) hs'
    · have hout := hor.resolve_left hread
      rw [PageRel.at, if_neg hout] at hs'
      exact .of_same hs'

theorem taskPageFaultHandler_contents (h : TaskOk t) (ha : (ProtectAct.fault va flags).KeepsContents t) :
    Ends Panics (taskPageFaultHandler image t va flags) fun r => TaskOk r.2 ∧ ContentsKept t r.2 := by
  obtain ⟨hareas, keep, ext, alloc, hacc⟩ := h
  refine (taskPageFaultHandler_spec (P := fun r => ∃ ext' alloc', Acc keep ext' alloc' r.1 r.2 ∧
    ∀ g < 2 ^ 35, KeepsBytes (Node.page t.phys t.pml4 g) (Node.page r.1 r.2 g)) (by simp [Panics]) hareas
    fun p hp hf hbase hend _ _ => ?_).mono fun r hr => ?_
  · have hhigh := (hareas.vmEnd hp).2.2
    have hlow : va < USER_LIM := by
      have := (taskFindVma_some hareas.agrees hf).2.2
      omega
    have hrange : UserRange (roundDown va) (roundDown va + PAGE_SIZE) := by
      refine ⟨pageAligned_roundDown va, ?_, Nat.lt_add_of_pos_right (by decide), by omega⟩
      have := pageAligned_roundDown va
      simp only [pageAligned, PAGE_SIZE] at *
      omega
    have hpage : roundDown va / PAGE_SIZE = va / PAGE_SIZE := Nat.mul_div_cancel _ (by decide)
    let n := (t.vm.vma p).fillLen (roundDown va) PAGE_SIZE
    -- Only the page that is filled from the executable may change.
    let R : StateRel := fun g s s' => ¬(g = va / PAGE_SIZE ∧ 0 < n) → KeepsBytes s s'
    have hpop : Ends Panics (populatePages image t.taskPml4 (t.vm.vma p) (roundDown va) PAGE_SIZE (t.phys, t.pml4))
        (Moves keep True R ext alloc t.phys t.pml4) := by
      refine populatePages_moves hrange hhigh hacc
        (fun _ g _ s s' s'' hs hs' _ => (KeepsBytes.of_populate hs).trans (.of_protect rfl hs'))
        fun _ g _ s s1 s2 s3 hs1 hs2 hs3 hout => ?_
      refine ((KeepsBytes.of_populate hs1).trans (.of_filled hs2 fun o ho hin => ?_)).trans (.of_protect rfl hs3)
      have hn : n ≤ PAGE_SIZE := by
        simp only [n, Vma.fillLen]
        split
        · exact Nat.zero_le _
        · exact Nat.min_le_left _ _
      have hin : roundDown va ≤ g * PAGE_SIZE + o ∧ g * PAGE_SIZE + o < roundDown va + n := hin
      refine hout ⟨?_, by omega⟩
      simp only [roundDown, PAGE_SIZE] at *
      omega
    refine hpop.mono fun r hr => ?_
    obtain ⟨ext', alloc', hm⟩ := hr
    refine ⟨ext', alloc', hm.acc, fun g hg => ?_⟩
    by_cases hfill : g = va / PAGE_SIZE ∧ 0 < n
    · have hnone : pageLookup t.pml4 va = none := by
        rcases ha p hf with hsrc | hnone | hlen
        · simp only [n, Vma.fillLen, hsrc] at hfill
          omega
        · exact hnone
        · have hsub : sub64 (roundDown va) (t.vm.vma p).vmBase = roundDown va - (t.vm.vma p).vmBase :=
            sub64_of_le hbase (lt_of_lt_of_le (lt_of_lt_of_le hrange.lt hrange.le) (by decide))
          simp only [n, Vma.fillLen, hsub] at hfill
          split at hfill
          · omega
          · omega
      rw [hfill.1, page_none_of_lookup hlow hnone]
      intro a hno
      cases hno
    · exact hm.page g hg hfill
  · rcases hr with hr | ⟨hvm, _, ext', alloc', hacc', hkept⟩
    · rw [hr]
      exact ⟨⟨hareas, keep, ext, alloc, hacc⟩, fun g _ => .refl _⟩
    · exact ⟨⟨hvm ▸ hareas, keep, ext', alloc', hacc'⟩, hkept⟩

end Steps

/-- What a run leaves, by induction on its steps. -/
theorem ProtectRun.contents {t t' : TaskMem} (h : TaskOk t) (hr : ProtectRun (fun t a => a.KeepsContents t) t t') :
    TaskOk t' ∧ ContentsKept t t' := by
  induction hr with
  | refl => exact ⟨h, fun g _ => .refl _⟩
  | @step t' t'' a fuel r image _ ha he ih =>
    obtain ⟨hok, hkept⟩ := ih
    have hstep : TaskOk t'' ∧ ContentsKept t' t'' := by
      cases a with
      | mprotect addr len prot => exact (sysMprotect_contents hok ha).1 _ he
      | fault va flags => exact (taskPageFaultHandler_contents hok ha).1 _ he
    exact ⟨hstep.1, fun g hg => (hkept g hg).trans (hstep.2 g hg)⟩

/-- After any calls of `mprotect` that leave the pages they change readable, with faults that fill no page that is there, a load
returns what it would have returned before. -/
theorem mprotect_keeps_contents {t t' : TaskMem} {va : Nat} {b b' : UInt8} (h : TaskOk t)
    (hr : ProtectRun (fun t a => a.KeepsContents t) t t') (hva : va < USER_LIM)
    (hb : userLoad t.phys t.pml4 va = some b) (hb' : userLoad t'.phys t'.pml4 va = some b') : b' = b := by
  have hkept := (hr.contents h).2 (va / PAGE_SIZE) (user_page_lt hva)
  rw [userLoad_eq hva, Option.bind_eq_some_iff] at hb hb'
  obtain ⟨s, hs, hb⟩ := hb
  obtain ⟨s', hs', hb'⟩ := hb'
  obtain ⟨s'', hs'', hbytes⟩ := hkept s hs
  obtain rfl : s'' = s' := Option.some.inj (hs''.symm.trans hs')
  split at hb
  · split at hb'
    · cases hb
      cases hb'
      rw [hbytes]
    · cases hb'
  · cases hb

/-! ## A page that is written -/

/-- A program with one page of data is started. -/
def createData : MemAction := .create 1 0 [⟨true, 0x400000, 0x1000, 0, 0, true, false⟩]

theorem createData_inUserHalf : smallMachine.InUserHalf createData := by
  refine ⟨by decide, by decide, fun h hh => ?_⟩
  rw [List.mem_singleton.1 hh]
  exact fun _ => by decide

/-- The frames of the small machine: one block of 32 is free, and nothing is allocated. -/
theorem smallMachine_ledger : Ledger (fun _ => none) 0 (fun _ => none) smallMachine.phys := by
  have hfree : ∀ q j, smallMachine.phys.FreeBlock q j ↔ q = 32 ∧ j = 5 := by
    intro q j
    constructor
    · rintro ⟨_, hf, ho⟩
      have hq : q = 32 := of_decide_eq_true hf
      subst hq
      exact ⟨rfl, ho.symm⟩
    · rintro ⟨rfl, rfl⟩
      exact ⟨by decide, rfl, rfl⟩
  have hblock : ∀ q j, smallMachine.phys.Block (fun _ => none) q j ↔ q = 32 ∧ j = 5 := by
    intro q j
    rw [Phys.Block, hfree]
    simp
  refine ⟨⟨⟨⟨by decide, fun k q => ?_, fun k => ?_, nofun, fun q k hb => ?_, fun q k q' k' hb hb' => ?_, fun q k _ hb hb' => ?_⟩,
    fun q k i _ _ _ => ⟨rfl, rfl⟩⟩, nofun⟩, fun f => rfl, nofun, nofun⟩
  · rw [hfree]
    show q ∈ (if k = 5 then [32] else []) ↔ _
    split <;> simp_all
  · show (if k = 5 then [32] else []).Nodup
    split <;> simp
  · obtain ⟨rfl, rfl⟩ := (hblock q k).1 hb
    decide
  · obtain ⟨rfl, rfl⟩ := (hblock q k).1 hb
    obtain ⟨rfl, rfl⟩ := (hblock q' k').1 hb'
    exact .inl ⟨rfl, rfl⟩
  · obtain ⟨rfl, rfl⟩ := (hfree q k).1 hb
    exact absurd ((hfree _ _).1 hb').1 (by decide)

theorem acc_empty {keep alloc : Orders} {ext : Nat → Nat} {m : Phys} (h : Ledger keep ext alloc m) :
    Acc keep ext alloc m (fun _ => 0 : Pml4) := by
  refine ⟨?_, fun i _ => nofun⟩
  rw [show Node.refs (fun _ => 0 : Pml4) = 0 from tableRefs_absent fun i _ => rfl, add_zero]
  exact h

/-- A program with one segment, filled with `0x55`, which has read its first page. -/
def segmentTouched : Kernel TaskMem := do
  let vm ← taskLoadElf 20 0 [⟨true, 0x400000, 0x10, 0x10, 0, true, false⟩]
  let (_, t) ← taskPageFaultHandler (fun _ => 0x55) { phys := smallMachine.phys, vm := vm, pml4 := fun _ => 0 } 0x400000 PROT_READ
  .ok t

theorem segmentTouched_ok : Yields segmentTouched TaskOk := by
  have hload : Yields (taskLoadElf 20 0 [⟨true, 0x400000, 0x10, 0x10, 0, true, false⟩]) AreasOk := by
    refine taskLoadElf_ok id id fun h hh => ?_
    rw [List.mem_singleton.1 hh]
    exact fun _ => by decide
  refine hload.bind fun vm hvm => ?_
  have hok : TaskOk { phys := smallMachine.phys, vm := vm, pml4 := fun _ => 0 } :=
    ⟨hvm, _, _, _, acc_empty smallMachine_ledger⟩
  have hnone : (ProtectAct.fault 0x400000 PROT_READ).KeepsContents { phys := smallMachine.phys, vm := vm, pml4 := fun _ => 0 } :=
    fun p _ => .inr (.inl rfl)
  exact ((taskPageFaultHandler_contents hok hnone).weaken fun _ => False.elim).bind fun r hr => .ok hr.1

/-- The page is write protected and made writable again. -/
theorem mprotect_keeps_contents_segment : ∃ t t' b', segmentTouched = .ok t ∧
    ProtectRun (fun t a => a.KeepsContents t) t t' ∧ userLoad t.phys t.pml4 0x400004 = some 0x55 ∧
    userLoad t'.phys t'.pml4 0x400004 = some b' ∧ b' = 0x55 := by
  have hrun : ∃ t, segmentTouched = .ok t ∧ userLoad t.phys t.pml4 0x400004 = some 0x55 ∧
      ∃ r1, sysMprotect 20 t 0x400000 0x1000 PROT_READ = .ok r1 ∧
      ∃ r2, sysMprotect 20 r1.2 0x400000 0x1000 (PROT_READ ||| PROT_WRITE) = .ok r2 ∧
      (userLoad r2.2.phys r2.2.pml4 0x400004).isSome := by
    decide +kernel
  obtain ⟨t, ht, hb, ⟨v1, t1⟩, h1, ⟨v2, t2⟩, h2, hb'⟩ := hrun
  obtain ⟨b', hb'⟩ := Option.isSome_iff_exists.1 hb'
  have hr1 : ProtectRun (fun t a => a.KeepsContents t) t t1 :=
    .step (a := .mprotect 0x400000 0x1000 PROT_READ) (fun _ => 0) (.refl t) (.inl (by decide)) h1
  have hr2 : ProtectRun (fun t a => a.KeepsContents t) t t2 :=
    .step (a := .mprotect 0x400000 0x1000 (PROT_READ ||| PROT_WRITE)) (fun _ => 0) hr1 (.inl (by decide)) h2
  exact ⟨t, t2, b', ht, hr2, hb, hb', mprotect_keeps_contents (segmentTouched_ok.1 _ ht) hr2 (by decide) hb hb'⟩

/-- A program without segments has mapped a page and stored `0x55` in it. -/
def pageStored : Kernel TaskMem := do
  let vm ← taskLoadElf 20 0 []
  let (_, t) ← sysMmap 20 (fun _ => 0) { phys := smallMachine.phys, vm := vm, pml4 := fun _ => 0 } 0x1000000 0x1000
    (PROT_READ ||| PROT_WRITE) (MAP_PRIVATE ||| MAP_ANONYMOUS ||| MAP_FIXED)
  let (_, t) ← taskPageFaultHandler (fun _ => 0) t 0x1000000 PROT_WRITE
  let (m, pml4) ← storeByte 0x1000000 0x55 (t.phys, t.pml4)
  .ok { t with phys := m, pml4 := pml4 }

/-- The permissions of the page are taken away and `PROT_READ` is given back. The load that follows faults, and returns zero. -/
theorem mprotect_none_clears : ∃ t t1 t2 t3 r, pageStored = .ok t ∧ userLoad t.phys t.pml4 0x1000000 = some 0x55 ∧
    sysMprotect 20 t 0x1000000 0x1000 0 = .ok (0, t1) ∧ sysMprotect 20 t1 0x1000000 0x1000 PROT_READ = .ok (0, t2) ∧
    userLoad t2.phys t2.pml4 0x1000000 = none ∧
    taskPageFaultHandler (fun _ => 0) t2 0x1000000 PROT_READ = .ok (r, t3) ∧
    userLoad t3.phys t3.pml4 0x1000000 = some 0 := by
  have hrun : ∃ t, pageStored = .ok t ∧ userLoad t.phys t.pml4 0x1000000 = some 0x55 ∧
      ∃ t1, sysMprotect 20 t 0x1000000 0x1000 0 = .ok (0, t1) ∧
      ∃ t2, sysMprotect 20 t1 0x1000000 0x1000 PROT_READ = .ok (0, t2) ∧ userLoad t2.phys t2.pml4 0x1000000 = none ∧
      ∃ r3, taskPageFaultHandler (fun _ => 0) t2 0x1000000 PROT_READ = .ok r3 ∧
      userLoad r3.2.phys r3.2.pml4 0x1000000 = some 0 := by
    decide +kernel
  obtain ⟨t, ht, hb, t1, h1, t2, h2, hnone, ⟨r, t3⟩, h3, hb3⟩ := hrun
  exact ⟨t, t1, t2, t3, r, ht, hb, h1, h2, hnone, h3, hb3⟩

end OpenLsd
