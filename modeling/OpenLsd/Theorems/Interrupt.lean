import OpenLsd.Lib.Outcome
import OpenLsd.Sched.Interrupt
import OpenLsd.Theorems.WriteExec

/-!
# Page faults in the kernel

A fault that the kernel takes on a user address may be resolved, but the code that took it is not resumed: `int_handler` saves
the frame only if it comes from user mode, and always leaves through the frame that is saved in some task. So a system
call that touches a page that is not there yet is given up in the middle, and its caller goes on as if it had returned. Of
`sys_cputs` what is printed is the part of the string before the first such page.
-/

namespace OpenLsd

/-- The frame of a page fault that was taken in the kernel. -/
structure IntFrame.KernelFault (frame : IntFrame) : Prop where
  kernel : frame.cs &&& 3 ≠ 3
  intNo_eq : frame.intNo = INT_PAGE_FAULT

namespace IntState

/-! ## The frame that is restored -/

/-- The task whose frame `int_handler` restores once the interrupt is dealt with. -/
def runsNext (s : IntState) : Option Nat :=
  if s.reschedule then s.sched.yieldsTo else s.sched.curTask.or s.sched.yieldsTo

variable {k : KernelServices} {image : Nat → UInt8} {s s' : IntState} {frame : IntFrame} {cr2 : Nat}

theorem schedYield_resumes : s.schedYield.Resumes frame ↔
    ∃ p, s.sched.yieldsTo = some p ∧ (s.taskFrame p).restored = frame.restored := by
  rw [schedYield]
  cases s.sched.yieldsTo with
  | none => simp [Leave.Resumes]
  | some p => simp [Leave.Resumes]

theorem leave_resumes : s.leave.Resumes frame ↔ ∃ p, s.runsNext = some p ∧ (s.taskFrame p).restored = frame.restored := by
  rw [leave, runsNext]
  cases s.reschedule with
  | true => exact schedYield_resumes
  | false =>
    cases hc : s.sched.curTask with
    | none => simpa using schedYield_resumes
    | some p => simp [taskRun, Leave.Resumes]

/-- A page fault changes the memory only. -/
theorem pageFaultHandler_eq (h : s.pageFaultHandler k image frame cr2 = .ok s') : ∃ m, s' = { s with machine := m } := by
  simp only [pageFaultHandler] at h
  split at h
  · cases h
  · split at h
    · cases h
    · split at h
      · cases h
      · split at h
        · cases h
          exact ⟨_, rfl⟩
        · cases h

theorem intHandler_kernel (hf : frame.KernelFault) (h : s.pageFaultHandler k image frame cr2 = .ok s') :
    s.intHandler k image frame cr2 = s'.leave := by
  have hd : s.intDispatch k image none frame cr2 = .ok s' := by
    rw [intDispatch, hf.intNo_eq, if_neg (by decide), if_neg (by decide), if_pos rfl, h]
  simp only [intHandler, if_neg hf.kernel, hd]

theorem intHandler_resumes (hf : frame.KernelFault) (h : s.pageFaultHandler k image frame cr2 = .ok s') :
    (s.intHandler k image frame cr2).Resumes frame ↔
      ∃ p, s.runsNext = some p ∧ (s.taskFrame p).restored = frame.restored := by
  rw [intHandler_kernel hf h, leave_resumes]
  obtain ⟨m, rfl⟩ := pageFaultHandler_eq h
  rfl

/-! ## A system call under faults -/

/-- What a fault should come to: it is resolved, and the code goes on. -/
def resolved (k : KernelServices) (image : Nat → UInt8) (frame : Nat → IntFrame) (s : IntState) (va : Nat) :
    Except Leave IntState := s.pageFaultHandler k image (frame va) va

variable {frames : Nat → IntFrame} {turns n va : Nat} {out : List UInt8}

section

variable (hf : ∀ a, (frames a).KernelFault) (hs : ∀ p a, s.runsNext = some p → (s.taskFrame p).restored ≠ (frames a).restored)

include hf hs

theorem interrupted_error (h : s.resolved k image frames va = .ok s') : ∃ l, s.interrupted k image frames va = .error l := by
  have hr := (intHandler_resumes (hf va) h).not.2 (fun ⟨p, hp, e⟩ => hs p va hp e)
  rw [interrupted]
  cases hl : s.intHandler k image (frames va) va with
  | resume s'' f =>
    rw [hl] at hr
    exact ⟨_, if_neg hr⟩
  | halt => exact ⟨_, rfl⟩
  | stop r => exact ⟨_, rfl⟩

/-- The loop prints what it should up to the first page that is missing. -/
theorem printLoop_iff (h : printLoop (resolved k image frames) turns n va s = (out, .ok s')) :
    (printLoop (interrupted k image frames) turns n va s = (out, .ok s') ↔
      ∀ i < out.length + 1, (s.kernelLoad (va + i)).isSome = true) ∧
    ((printLoop (interrupted k image frames) turns n va s).1 = out ↔
      ∀ i < out.length, (s.kernelLoad (va + i)).isSome = true) := by
  induction turns generalizing n va out with
  | zero => cases congrArg Prod.snd h
  | succ turns ih =>
    simp only [printLoop] at h ⊢
    cases hl : s.kernelLoad va with
    | none =>
      rw [hl] at h
      cases hr : s.resolved k image frames va with
      | error l =>
        rw [hr] at h
        cases congrArg Prod.snd h
      | ok s1 =>
        -- the loop is left here, whatever is still to be printed
        obtain ⟨l, hi⟩ := interrupted_error hf hs hr
        have absent : ¬(s.kernelLoad (va + 0)).isSome = true := by simp [hl]
        simp only [hi]
        refine ⟨⟨fun e => ?_, fun hall => absurd (hall 0 (Nat.succ_pos _)) absent⟩, ?_, ?_⟩
        · cases congrArg Prod.snd e
        · rintro rfl i hi
          exact absurd hi (Nat.not_lt_zero i)
        · intro hall
          cases out with
          | nil => rfl
          | cons b out => exact absurd (hall 0 (Nat.succ_pos _)) absent
    | some ch =>
      rw [hl] at h
      have first : (s.kernelLoad (va + 0)).isSome = true := by simp [hl]
      have ends : (∀ i < ([] : List UInt8).length + 1, (s.kernelLoad (va + i)).isSome = true) ∧
          ∀ i < ([] : List UInt8).length, (s.kernelLoad (va + i)).isSome = true := by
        simp [hl]
      dsimp only at h ⊢
      split at h
      · next h0 =>
        cases h
        rw [if_pos h0]
        exact ⟨iff_of_true rfl ends.1, iff_of_true rfl ends.2⟩
      · next h0 =>
        rw [if_neg h0]
        cases n with
        | zero =>
          cases h
          exact ⟨iff_of_true rfl ends.1, iff_of_true rfl ends.2⟩
        | succ n =>
          dsimp only at h ⊢
          cases hrec : printLoop (resolved k image frames) turns n (va + 1) s with
          | mk out' r =>
            rw [hrec] at h
            cases h
            obtain ⟨ih1, ih2⟩ := ih hrec
            have shift : ∀ i, s.kernelLoad (va + (i + 1)) = s.kernelLoad (va + 1 + i) := fun i =>
              congrArg s.kernelLoad (by omega)
            have tail : ∀ n, (∀ i < n + 1, (s.kernelLoad (va + i)).isSome = true) ↔
                ∀ i < n, (s.kernelLoad (va + 1 + i)).isSome = true := by
              intro n
              rw [Nat.forall_lt_succ_left]
              simp only [shift, first, true_and]
            rw [List.length_cons, tail, tail, ← ih1, ← ih2]
            cases printLoop (interrupted k image frames) turns n (va + 1) s
            simp

end

end IntState

/-! ## Transparency -/

open IntState

/-- For every state of the kernel:
1. A page fault in kernel mode that is resolved leads back to the interrupted code exactly when the task whose frame is restored
   has that very frame saved. This task is the current one, or the one that `sched_yield` picks if `reschedule` is set.
2. If it has not, `sys_cputs` runs as if all pages had been present exactly when all pages that it reads are: those of
   the characters that it prints and of the one behind them. It prints all that it should exactly when the characters are in
   pages that are present. (For `NULL` it prints a string of the kernel.) -/
theorem kernel_fault_transparent_iff (k : KernelServices) (image : Nat → UInt8) (s : IntState) :
    (∀ (frame : IntFrame) (cr2 : Nat) (s' : IntState), frame.KernelFault → s.pageFaultHandler k image frame cr2 = .ok s' →
      ((s.intHandler k image frame cr2).Resumes frame ↔
        ∃ p, s.runsNext = some p ∧ (s.taskFrame p).restored = frame.restored)) ∧
    ∀ frames : Nat → IntFrame, (∀ a, (frames a).KernelFault) →
      (∀ p a, s.runsNext = some p → (s.taskFrame p).restored ≠ (frames a).restored) →
      ∀ turns va len out s', s.sysCputs k (resolved k image frames) turns va len = (out, .ok s') →
        (s.sysCputs k (interrupted k image frames) turns va len = (out, .ok s') ↔
          va = 0 ∨ ∀ i ≤ out.length, (s.kernelLoad (va + i)).isSome = true) ∧
        ((s.sysCputs k (interrupted k image frames) turns va len).1 = out ↔
          va = 0 ∨ ∀ i < out.length, (s.kernelLoad (va + i)).isSome = true) := by
  refine ⟨fun frame cr2 s' hf h => intHandler_resumes hf h, ?_⟩
  intro frames hf hs turns va len out s' h
  simp only [sysCputs] at h ⊢
  cases ht : s.sched.curTask.bind s.machine.tasks with
  | none =>
    rw [ht] at h
    cases congrArg Prod.snd h
  | some t =>
    rw [ht] at h
    dsimp only at h ⊢
    split at h
    · cases congrArg Prod.snd h
    · next hc =>
      rw [if_neg hc]
      split at h
      · next h0 =>
        cases h
        rw [if_pos h0]
        exact ⟨iff_of_true rfl (.inl h0), iff_of_true rfl (.inl h0)⟩
      · next h0 =>
        rw [if_neg h0]
        simpa only [h0, false_or, Nat.lt_succ_iff] using printLoop_iff hf hs h

/-! ## A string that is not printed -/

/-- The executable of the example: the two characters of a string. -/
def hiImage (a : Nat) : UInt8 := if a = 0 then 72 else if a = 1 then 105 else 0

/-- 32 free frames, and a program whose only segment holds the string and has not been touched. -/
def hiMachine : Machine :=
  match smallMachine.taskCreate 20 1 0 [⟨true, 0x400000, 0x1000, 2, 0, false, false⟩] with
  | .ok m => m
  | .error _ => smallMachine

/-- A frame with the given code segment and instruction pointer. -/
def frameAt (cs rip : Nat) : IntFrame where
  ds := 0
  r15 := 0
  r14 := 0
  r13 := 0
  r12 := 0
  r11 := 0
  r10 := 0
  r9 := 0
  r8 := 0
  rdi := 0
  rsi := 0
  rbp := 0
  rbx := 0
  rdx := 0
  rcx := 0
  rax := 0
  intNo := INT_PAGE_FAULT
  errCode := 0
  rip := rip
  cs := cs
  rflags := 2
  rsp := 0
  ss := 0

/-- The program is in a system call. -/
def hiState : IntState where
  sched :=
    { tasks := fun q => if q = 1 then some { Sched.newTask .user 0 0 with taskStatus := .running } else none
      curTask := some 1
      runq := []
      nextq := []
      nuserTasks := 1
      births := 1
      trace := [] }
  machine := hiMachine
  taskFrame := fun _ => frameAt 0x23 0x400100
  reschedule := false

/-- Services that the example does not need. -/
def noServices : KernelServices where
  syscall := fun s _ => .ok (0, s)
  taskDestroy := fun _ => .halt
  expired := fun _ => false

theorem frameAt_kernelFault (rip : Nat) : (frameAt GDT_KCODE rip).KernelFault :=
  ⟨show GDT_KCODE &&& 3 ≠ 3 by decide, rfl⟩

theorem hiState_saved (p rip : Nat) : (hiState.taskFrame p).restored ≠ (frameAt GDT_KCODE rip).restored :=
  fun e => absurd (show 0x23 = GDT_KCODE from congrArg IntFrame.cs e) (by decide)

/-- Nothing of the string is printed, since its page is missing, and the call is not resumed. -/
theorem kernel_fault_transparent_hi :
    (hiState.sysCputs noServices (interrupted noServices hiImage fun _ => frameAt GDT_KCODE 0) 8 0x400000 2).1 ≠ [72, 105] ∧
    ¬(hiState.intHandler noServices hiImage (frameAt GDT_KCODE 0) 0x400000).Resumes (frameAt GDT_KCODE 0) := by
  have hfault : ∃ s1, hiState.pageFaultHandler noServices hiImage (frameAt GDT_KCODE 0) 0x400000 = .ok s1 := by
    decide +kernel
  have hprint : ∃ s2,
      (hiState.sysCputs noServices (resolved noServices hiImage fun _ => frameAt GDT_KCODE 0) 8 0x400000 2).2 = .ok s2 := by
    decide +kernel
  have hout : (hiState.sysCputs noServices (resolved noServices hiImage fun _ => frameAt GDT_KCODE 0) 8 0x400000 2).1 =
      [72, 105] := by
    decide +kernel
  obtain ⟨s1, hs1⟩ := hfault
  obtain ⟨s2, hs2⟩ := hprint
  obtain ⟨hframe, hcputs⟩ := kernel_fault_transparent_iff noServices hiImage hiState
  constructor
  · have h := (hcputs (fun _ => frameAt GDT_KCODE 0) (fun _ => frameAt_kernelFault 0) (fun p _ _ => hiState_saved p 0)
      8 0x400000 2 [72, 105] s2 (Prod.ext hout hs2)).2
    exact fun e => absurd (h.1 e) (by decide +kernel)
  · rw [hframe (frameAt GDT_KCODE 0) 0x400000 s1 (frameAt_kernelFault 0) hs1]
    exact fun ⟨p, _, e⟩ => hiState_saved p 0 e

/-- The string should be printed, nothing of it is, and the program goes on. -/
theorem sys_cputs_truncated :
    (hiState.sysCputs noServices (resolved noServices hiImage fun _ => frameAt GDT_KCODE 0) 8 0x400000 2).1 = [72, 105] ∧
    (hiState.sysCputs noServices (interrupted noServices hiImage fun _ => frameAt GDT_KCODE 0) 8 0x400000 2).1 = [] ∧
    (hiState.intHandler noServices hiImage (frameAt GDT_KCODE 0) 0x400000).Resumes (frameAt 0x23 0x400100) ∧
    ¬(hiState.intHandler noServices hiImage (frameAt GDT_KCODE 0) 0x400000).Resumes (frameAt GDT_KCODE 0) := by
  decide +kernel

end OpenLsd
