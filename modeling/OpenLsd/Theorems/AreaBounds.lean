import OpenLsd.Lemmas.CallRules
import OpenLsd.Theorems.Buddy

/-!
# The areas of a task stay in the user half

What memory calls with any arguments make of the areas that a program starts with.
-/

namespace OpenLsd

open Outcome VmSpace

/-- The areas that a list of areas in memory order must be: in the user half, on page boundaries, not empty, apart. -/
def AreasInUser (s : VmSpace) : Prop :=
  (∀ p ∈ s.taskMmap, PAGE_SIZE ≤ (s.vma p).vmBase ∧ (s.vma p).vmBase < (s.vma p).vmEnd ∧ (s.vma p).vmEnd ≤ USER_LIM ∧
    pageAligned (s.vma p).vmBase ∧ pageAligned (s.vma p).vmEnd) ∧
  (s.taskMmap.Pairwise fun p q => (s.vma p).vmBase < (s.vma q).vmBase) ∧
  s.taskMmap.Pairwise fun p q => (s.vma p).vmEnd ≤ (s.vma q).vmBase

instance (s : VmSpace) : Decidable (AreasInUser s) := by
  unfold AreasInUser pageAligned
  infer_instance

theorem AreasOk.inUser {s : VmSpace} (h : AreasOk s) : AreasInUser s := by
  refine ⟨fun p hp => ?_, ?_, h.agrees.sorted⟩
  · obtain ⟨halb, hlow, _⟩ := h.vmBase hp
    obtain ⟨hale, _, hhigh⟩ := h.vmEnd hp
    exact ⟨hlow, h.agrees.proper p hp, hhigh, halb, hale⟩
  · refine h.agrees.sorted.imp_of_mem fun hp _ hle => ?_
    exact lt_of_lt_of_le (h.agrees.proper _ hp) hle

/-- Calls of a task, one after the other, each of which puts its area where areas may lie. Between the calls the frames and the
page tables may change in any way. -/
inductive AreaRun : TaskMem → TaskMem → Prop
  | refl (t : TaskMem) : AreaRun t t
  | call {t t' t'' : TaskMem} {c : MemCall} {fuel : Nat} {image : Nat → UInt8} {cur : Option Nat} (hr : AreaRun t t')
    (hfit : c.AreasFit t'.vm) (he : c.run fuel image cur t' = .ok t'') : AreaRun t t''
  | other {t t' t'' : TaskMem} (hr : AreaRun t t') (hvm : t''.vm = t'.vm) : AreaRun t t''

theorem AreasOk.run {t t' : TaskMem} (h : AreasOk t.vm) (hr : AreaRun t t') : AreasOk t'.vm := by
  induction hr with
  | refl => exact h
  | call _ hfit he ih => exact (MemCall.run_ok ih hfit).1 _ he
  | other _ hvm ih => exact hvm ▸ ih

/-- The areas of a program stay in the user half, on page boundaries, ascending and apart, over every sequence of memory calls
whose mappings begin below their end and find their place before the search for one passes below zero. -/
theorem areas_stay_in_user_half {fuel binary : Nat} {hdrs : List ProgHdr} {t t' : TaskMem} (hu : ∀ h ∈ hdrs, h.InUser)
    (hload : taskLoadElf fuel binary hdrs = .ok t.vm) (hr : AreaRun t t') : AreasInUser t'.vm := by
  have hareas : Yields (taskLoadElf fuel binary hdrs) AreasOk := taskLoadElf_ok id id hu
  exact ((hareas.1 _ hload).run hr).inUser

/-- A task with no page tables, on a machine with no free frames. -/
def bareTask (vm : VmSpace) : TaskMem := { phys := bootPhys 0 fun _ _ => 0, vm := vm, pml4 := fun _ => 0 }

/-- A program with a text segment maps two pages, write protects one and unmaps the other. -/
theorem areas_stay_in_user_half_twoPages :
    ∃ vm t, taskLoadElf 20 0 [⟨true, 0x400000, 0x1800, 0x1800, 0, false, true⟩] = .ok vm ∧ AreaRun (bareTask vm) t ∧
      t.vm.taskMmap.length = 3 ∧ AreasInUser t.vm := by
  have hrun : ∃ vm, taskLoadElf 20 0 [⟨true, 0x400000, 0x1800, 0x1800, 0, false, true⟩] = .ok vm ∧
      ∃ t1, (MemCall.mmap 0 0x2000 3 (MAP_PRIVATE ||| MAP_ANONYMOUS)).run 20 (fun _ => 0) none (bareTask vm) = .ok t1 ∧
      ∃ t2, (MemCall.mprotect (USER_LIM - 0x2000) 0x1000 1).run 20 (fun _ => 0) none t1 = .ok t2 ∧
      ∃ t3, (MemCall.munmap (USER_LIM - 0x1000) 0x1000).run 20 (fun _ => 0) none t2 = .ok t3 ∧ t3.vm.taskMmap.length = 3 := by
    decide +kernel
  obtain ⟨vm, hload, t1, h1, t2, h2, t3, h3, hlen⟩ := hrun
  have hfit : MmapFits vm 0 0x2000 (MAP_PRIVATE ||| MAP_ANONYMOUS) := ⟨by decide, .inr (.inl (by decide))⟩
  have hr1 : AreaRun (bareTask vm) t1 := .call (.refl _) (by exact fun _ => hfit) h1
  have hr : AreaRun (bareTask vm) t3 := .call (.call hr1 (by trivial) h2) (by trivial) h3
  refine ⟨vm, t3, hload, hr, hlen, areas_stay_in_user_half (fun h hh => ?_) hload hr⟩
  rw [List.mem_singleton.1 hh]
  exact fun _ => by decide

/-- A mapping of nearly the whole user half passes the checks of `sys_mmap`. The search for a place for it starts below
`USER_LIM`, passes below zero, and puts the area at the top of the 64-bit range, with its end at the first page. -/
theorem area_below_zero :
    ∃ vm t, taskLoadElf 20 0 [] = .ok vm ∧
      (MemCall.mmap 0 (USER_LIM - PAGE_SIZE) PROT_READ (MAP_PRIVATE ||| MAP_ANONYMOUS)).run 20 (fun _ => 0) none
        (bareTask vm) = .ok t ∧ ¬AreasInUser t.vm := by
  simp only [exists_and_left]
  decide +kernel

end OpenLsd
