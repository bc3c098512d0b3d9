import OpenLsd.Sched.Memory
import OpenLsd.Sched.Task

/-!
# Interrupts

The model of `int_handler`, `int_dispatch`, `irq_handler` and `page_fault_handler` in `kernel/sched/idt.c`, of `task_run` and
`task_pop_frame` in `kernel/sched/task.c`, and of `sys_cputs` with the loop of `vprintfmt` that it comes to, on one CPU. The
kernel runs on the page tables of the current task. An interrupt ends with some frame being restored: code that was
interrupted in the kernel goes on exactly when that frame is the one it was interrupted with.

What the other system calls and `task_destroy` do is modelled elsewhere, and here it is a parameter; so is whether the time
of the current task is used up.
-/

namespace OpenLsd

/-- `struct int_frame`. -/
structure IntFrame where
  ds : Nat
  r15 : Nat
  r14 : Nat
  r13 : Nat
  r12 : Nat
  r11 : Nat
  r10 : Nat
  r9 : Nat
  r8 : Nat
  rdi : Nat
  rsi : Nat
  rbp : Nat
  rbx : Nat
  rdx : Nat
  rcx : Nat
  rax : Nat
  intNo : Nat
  errCode : Nat
  rip : Nat
  cs : Nat
  rflags : Nat
  rsp : Nat
  ss : Nat
  deriving DecidableEq, Repr

/-- What `iret64` restores of a frame: everything but the number of the interrupt and the error code. -/
def IntFrame.restored (frame : IntFrame) : IntFrame := { frame with intNo := 0, errCode := 0 }

def INT_DIVIDE : Nat := 0
def INT_BREAK : Nat := 3
def INT_GPF : Nat := 13
def INT_PAGE_FAULT : Nat := 14
def IRQ_TIMER : Nat := 32
def INT_PANIC : Nat := 127
def INT_SYSCALL : Nat := 128

def GDT_KCODE : Nat := 0x08

/-- Bits of the error code of a page fault. -/
def PF_PRESENT : Nat := 1 <<< 0
def PF_WRITE : Nat := 1 <<< 1
def PF_IFETCH : Nat := 1 <<< 4

/-- What interrupts work on: the scheduler, the memory of the tasks, the frame that is saved in each task, and the flag
`reschedule`. -/
structure IntState where
  sched : Sched
  machine : Machine
  taskFrame : Nat → IntFrame
  reschedule : Bool

/-- How the kernel is left. -/
inductive Leave where
  /-- The frame is restored. -/
  | resume (s : IntState) (frame : IntFrame)
  /-- There is nothing to run. -/
  | halt
  /-- The kernel does not get any further. -/
  | stop (r : Stop)

/-- The code that was interrupted with the frame goes on. -/
def Leave.Resumes : Leave → IntFrame → Prop
  | .resume _ f, frame => f.restored = frame.restored
  | _, _ => False

instance : (l : Leave) → (frame : IntFrame) → Decidable (l.Resumes frame)
  | .resume _ f, frame => inferInstanceAs (Decidable (f.restored = frame.restored))
  | .halt, _ => inferInstanceAs (Decidable False)
  | .stop _, _ => inferInstanceAs (Decidable False)

/-- The parts of the kernel that are modelled elsewhere. -/
structure KernelServices where
  /-- `syscall`, for the frame of the caller: the result, or how the call leaves the kernel. -/
  syscall : IntState → IntFrame → Except Leave (Nat × IntState)
  /-- `task_destroy(cur_task)`. -/
  taskDestroy : IntState → Leave
  /-- The time budget of the current task is used up. -/
  expired : IntState → Bool

/-! ## Running a task -/

/-- The task that `sched_yield` finds in the queues. -/
def Sched.nextTask (s : Sched) : Option Nat :=
  match popRunnable s.tasks s.runq with
  | some (p, _) => some p
  | none => (popRunnable s.tasks s.nextq).map Prod.fst

/-- The task that a call of `sched_yield` runs. -/
def Sched.yieldsTo (s : Sched) : Option Nat := if s.putBack.nuserTasks = 0 then none else s.putBack.nextTask

namespace IntState

/-- `task_run`, and `task_pop_frame` at its end. -/
def taskRun (s : IntState) (p : Nat) : Leave := .resume { s with sched := s.sched.taskRun p } (s.taskFrame p)

/-- `sched_yield`, which does not return. -/
def schedYield (s : IntState) : Leave :=
  match s.sched.yieldsTo with
  | none => .halt
  | some p => .resume { s with sched := s.sched.schedYield } (s.taskFrame p)

/-- The end of `int_handler`. -/
def leave (s : IntState) : Leave :=
  if s.reschedule then { s with reschedule := false }.schedYield
  else match s.sched.curTask with
  | some p => s.taskRun p
  | none => s.schedYield

/-! ## Page faults -/

/-- The access that the error code of a page fault stands for. -/
def faultPerm (errCode : Nat) : Nat :=
  (if hasFlag errCode PF_PRESENT then PROT_READ else 0) ||| (if hasFlag errCode PF_WRITE then PROT_WRITE else 0) |||
    (if hasFlag errCode PF_IFETCH then PROT_EXEC else 0)

section Handlers

variable (k : KernelServices) (image : Nat → UInt8)

/-- What `page_fault_handler` does with a fault that is not resolved. -/
def badFault (s : IntState) (frame : IntFrame) : Leave :=
  if frame.cs = GDT_KCODE then .stop .assertion else k.taskDestroy s

/-- `page_fault_handler`, with the address that `cr2` holds. A kernel thread has no areas. -/
def pageFaultHandler (s : IntState) (frame : IntFrame) (cr2 : Nat) : Except Leave IntState :=
  match s.sched.curTask with
  | none => .error (.stop .fault)
  | some p =>
    match s.machine.tasks p with
    | none => .error (s.badFault k frame)
    | some t =>
      match taskPageFaultHandler image (s.machine.running p t) cr2 (faultPerm frame.errCode) with
      | .error r => .error (.stop r)
      | .ok (ret, mem) =>
        let s := { s with machine := s.machine.withMem p t mem }
        if ret = 0 then .ok s else .error (s.badFault k frame)

/-! ## All interrupts -/

def irqHandler (s : IntState) : IntState :=
  match s.sched.curTask with
  | none => s
  | some _ => if k.expired s then { s with reschedule := true } else s

/-- `int_dispatch`, for a frame that lies in the task `saved`, or on the stack. -/
def intDispatch (s : IntState) (saved : Option Nat) (frame : IntFrame) (cr2 : Nat) : Except Leave IntState :=
  if frame.intNo = INT_BREAK then .ok s
  else if frame.intNo = INT_PANIC then .error .halt
  else if frame.intNo = INT_PAGE_FAULT then s.pageFaultHandler k image frame cr2
  else if frame.intNo = INT_SYSCALL then do
    let (ret, s) ← k.syscall s frame
    match saved with
    | none => .ok s
    | some p => .ok { s with taskFrame := Function.update s.taskFrame p { s.taskFrame p with rax := ret } }
  else if frame.intNo = INT_GPF ∨ frame.intNo = INT_DIVIDE then .error (k.taskDestroy s)
  else if frame.intNo = IRQ_TIMER then .ok (s.irqHandler k)
  else if frame.cs = GDT_KCODE then .error (.stop .assertion)
  else .error (k.taskDestroy s)

/-- The frame is on the stack. That of an interrupt in user mode is copied into the current task. -/
def intHandler (s : IntState) (frame : IntFrame) (cr2 : Nat) : Leave :=
  let dispatched : Except Leave IntState :=
    if frame.cs &&& 3 = 3 then
      match s.sched.curTask with
      | none => .error (.stop .assertion)
      | some p => { s with taskFrame := Function.update s.taskFrame p frame }.intDispatch k image (some p) frame cr2
    else s.intDispatch k image none frame cr2
  match dispatched with
  | .error l => l
  | .ok s => s.leave

end Handlers

/-! ## Printing a string -/

/-- A load in kernel mode from a user address, `none` for a page fault. -/
def kernelLoad (s : IntState) (va : Nat) : Option UInt8 :=
  match s.sched.curTask.bind s.machine.tasks with
  | none => none
  | some t =>
    (lookup t.pml4 va).map fun (pde, e) =>
      s.machine.phys.bytes (if pde then e.frame + signExtend va / PAGE_SIZE % PAGE_TABLE_ENTRIES else e.frame) (va % PAGE_SIZE)

/-- The loop of `vprintfmt` for `%s`, with the number of characters that the precision leaves: what is printed, and the state in
which the loop ends. `fault` is what a page fault at an address comes to. The character is read before the precision
is looked at. -/
def printLoop (fault : IntState → Nat → Except Leave IntState) :
    Nat → Nat → Nat → IntState → List UInt8 × Except Leave IntState
  | 0, _, _, _ => ([], .error (.stop .loop))
  | turns + 1, precision, va, s =>
    match s.kernelLoad va with
    | none =>
      match fault s va with
      | .error l => ([], .error l)
      | .ok s => printLoop fault turns precision va s
    | some ch =>
      if ch = 0 then ([], .ok s)
      else match precision with
      | 0 => ([], .ok s)
      | precision + 1 =>
        let (out, r) := printLoop fault turns precision (va + 1) s
        (ch :: out, r)

/-- The loop of `walk_vma_range` with the callback `do_check_user_vma`: where the areas end that follow on each other. -/
def checkUserAreas (s : VmSpace) (flags bound : Nat) : Nat → Option Nat → Nat → Option Nat
  | 0, _, _ => none
  | _ + 1, none, last => some last
  | n + 1, some p, last =>
    if (s.vma p).vmBase < bound then
      if (s.vma p).vmBase > last then none
      else if (s.vma p).vmFlags &&& flags ≠ flags then none
      else checkUserAreas s flags bound n (VmSpace.listNext p s.taskMmap) (s.vma p).vmEnd
    else some last

/-- `check_user_vma_range` returns 0. -/
def checkUserVmaRange (s : VmSpace) (base size flags : Nat) : Bool :=
  match s.findVma base with
  | none => false
  | some p =>
    if add64 base size ≤ (s.vma p).vmBase then false
    else match checkUserAreas s flags (add64 base size) (s.taskMmap.length + 1) (some p) base with
    | none => false
    | some last => add64 base size ≤ last

/-- The precision, an `int` that is passed as a `size_t`. A negative one sets no limit, and there are no more than `2 ^ 64`
addresses. -/
def precision (len : Nat) : Nat := if len % 2 ^ 32 < 2 ^ 31 then len % 2 ^ 32 else 2 ^ 64

/-- The string that `vprintfmt` prints for `NULL`. -/
def nullString : List UInt8 := [40, 110, 117, 108, 108, 41]

/-- `sys_cputs`: what is printed, and the state in which the call returns, or how it leaves the kernel. -/
def sysCputs (k : KernelServices) (fault : IntState → Nat → Except Leave IntState) (turns : Nat) (s : IntState) (va len : Nat) :
    List UInt8 × Except Leave IntState :=
  match s.sched.curTask.bind s.machine.tasks with
  | none => ([], .error (.stop .fault))
  | some t =>
    if checkUserVmaRange t.vm va len PROT_READ = false then ([], .error (k.taskDestroy s))
    else if va = 0 then (nullString.take (precision len), .ok s)
    else printLoop fault turns (precision len) va s

/-- What a page fault in the kernel comes to, for code that is at the frame: only if it is resumed it goes on. -/
def interrupted (k : KernelServices) (image : Nat → UInt8) (frame : Nat → IntFrame) (s : IntState) (va : Nat) :
    Except Leave IntState :=
  match s.intHandler k image (frame va) va with
  | .resume s' f => if f.restored = (frame va).restored then .ok s' else .error (.resume s' f)
  | l => .error l

end IntState

end OpenLsd
