import OpenLsd.Mem.Addr
import OpenLsd.Sched.Task

/-!
# The PID map and kernel threads

The model of `task_init`, `task_alloc`, `task_free` and `kthread_create` of `kernel/sched/task.c`, as far as they touch the PID map
and the stacks of kernel threads. Both are memory of the kernel's own address space, outside the direct map, and are reached
through `kernel_pml4`. Of the page tables we keep which frame each page leads to: `page_insert` makes a page lead to another
frame, whatever it led to before. Whether 512 pages are mapped one by one or as a huge page with the same bytes makes no
difference to what is read through them.

Which page `page_alloc` and which object `kmalloc` return is an argument of each call.
-/

namespace OpenLsd

/-- Memory mapped I/O. -/
def MMIO_LIM : Nat := KPAGES
def MMIO_BASE : Nat := MMIO_LIM - PDPT_SPAN

/-- The map of PIDs. -/
def PIDMAP_LIM : Nat := MMIO_BASE
def PIDMAP_BASE : Nat := PIDMAP_LIM - PDPT_SPAN

/-- The kernel stacks. -/
def KSTACK_TOP : Nat := PIDMAP_BASE
def KSTACK_SIZE : Nat := 31 * PAGE_SIZE
def KSTACK_GAP : Nat := PAGE_SIZE

def NCPUS : Nat := 64

/-- A pointer to a task, as it lies in memory. -/
abbrev TaskPtr := Fin 8 → UInt8

/-- `sizeof(struct task *)`. -/
def TASK_PTR_SIZE : Nat := 8

/-- The kernel's address space: the frames with their bytes, the frame that each page leads to in `kernel_pml4`, by the number
of the page, and the number of kernel threads made so far. -/
structure KernelSpace where
  npages : Nat
  bytes : Nat → Nat → UInt8
  mapped : Nat → Option Nat
  nkernelTasks : Nat

namespace KernelSpace

/-- A load of a pointer. It does not cross pages. -/
def load (s : KernelSpace) (va : Nat) : Option TaskPtr :=
  (s.mapped (va / PAGE_SIZE)).map fun frame i => s.bytes frame (va % PAGE_SIZE + i)

/-- A store of a pointer. -/
def store (s : KernelSpace) (va : Nat) (v : TaskPtr) : Option KernelSpace :=
  (s.mapped (va / PAGE_SIZE)).map fun frame =>
    { s with
      bytes := Function.update s.bytes frame fun i =>
        if h : va % PAGE_SIZE ≤ i ∧ i < va % PAGE_SIZE + 8 then v ⟨i - va % PAGE_SIZE, by omega⟩ else s.bytes frame i }

/-- Where `tasks[pid]` lies. -/
def taskAddr (pid : Nat) : Nat := PIDMAP_BASE + pid * TASK_PTR_SIZE

/-- `tasks[pid]`. -/
def tasks (s : KernelSpace) (pid : Nat) : Option TaskPtr := s.load (taskAddr pid)

/-- The search for a free PID: the first of `n` from `pid` on. -/
def findPid (s : KernelSpace) : Nat → Nat → Option (Option Nat)
  | 0, _ => some none
  | n + 1, pid => do
    let t ← s.tasks pid
    if t = 0 then return some pid else findPid s n (pid + 1)

/-- `page_alloc` gives the page, with the bytes it then gets. -/
def fill (s : KernelSpace) (page : Nat) (b : Nat → UInt8) : KernelSpace :=
  { s with bytes := Function.update s.bytes page b }

/-- `page_insert(kernel_pml4, page, va, …)`. -/
def pageInsert (s : KernelSpace) (page va : Nat) : KernelSpace :=
  { s with mapped := Function.update s.mapped (va / PAGE_SIZE) (some page) }

/-- `task_alloc`, with the pid of the new task or without one. The page becomes the PML4 of the task, with the bytes
`pml4`. -/
def taskAlloc (s : KernelSpace) (task : TaskPtr) (page : Nat) (pml4 : Nat → UInt8) : Option (Option Nat × KernelSpace) := do
  let s := s.fill page pml4
  match ← s.findPid (pidMax - 1) 1 with
  | none => return (none, s)
  | some pid =>
    let s ← s.store (taskAddr pid) task
    return (some pid, s)

/-- The end of `task_free`: the task is taken out of the PID map. -/
def taskFree (s : KernelSpace) (pid : Nat) : Option KernelSpace := s.store (taskAddr pid) 0

/-- The lower end of the stack that `kthread_create` makes when it has counted `nkernelTasks` threads, the new one included. -/
def stackBottom (nkernelTasks : Nat) : Nat :=
  let nkernelNumber := add64 nkernelTasks 1
  let stackTop := add64 KSTACK_TOP (nkernelNumber * PAGE_SIZE)
  sub64 stackTop PAGE_SIZE

/-- `kthread_create`, with the pid of the new thread and the lower end of its stack. It panics if there is no free PID. -/
def kthreadCreate (s : KernelSpace) (kthread : TaskPtr) (page : Nat) : Option (Nat × Nat × KernelSpace) := do
  match ← s.findPid (pidMax - 1) 1 with
  | none => none
  | some pid =>
    let s ← s.store (taskAddr pid) kthread
    let s := { s with nkernelTasks := add64 s.nkernelTasks 1 }
    let bottom := stackBottom s.nkernelTasks
    let s := s.fill page fun _ => 0
    return (pid, bottom, s.pageInsert page bottom)

end KernelSpace

/-- The stacks of the CPUs, by their lower and upper ends: the boot stack, and those that `mem_init_mp` makes. -/
def cpuStacks : List (Nat × Nat) :=
  (KSTACK_TOP - KSTACK_SIZE, KSTACK_TOP) ::
    (List.range NCPUS).map fun idx =>
      let stackTop := KSTACK_TOP - (idx + 1) * (KSTACK_SIZE + KSTACK_GAP)
      (stackTop - KSTACK_SIZE, stackTop)

end OpenLsd
