import OpenLsd.Vma.Calls

/-!
# The memory of tasks

The model of what `task_load_elf` and `task_setup_vas` in `kernel/sched/task.c`, `task_clone` in `kernel/sched/fork.c` and
`task_free` do with areas, page tables and frames, for any number of tasks that share the frames. When a task comes and goes,
and who may wait for it, is the business of `OpenLsd.Sched.Task`.
-/

namespace OpenLsd

/-! ## Loading a program -/

/-- `struct elf_proghdr`. -/
structure ProgHdr where
  /-- The type is `ELF_PROG_LOAD`. -/
  pLoad : Bool
  pVa : Nat
  pMemsz : Nat
  pFilesz : Nat
  pOffset : Nat
  pWrite : Bool
  pExec : Bool

namespace ProgHdr

def protFlags (h : ProgHdr) : Nat :=
  PROT_READ ||| MAP_POPULATE ||| (if h.pWrite then PROT_WRITE else 0) ||| (if h.pExec then PROT_EXEC else 0)

def areaName (h : ProgHdr) : String := if h.pExec then ".text" else if h.pWrite then ".data" else ".rodata"

end ProgHdr

/-- One turn of the loop of `task_load_elf`. What `add_executable_vma` returns is not looked at. -/
def loadSegment (fuel binary : Nat) (s : VmSpace) (h : ProgHdr) : Kernel VmSpace := do
  if h.pLoad = false then .ok s
  else if h.pMemsz < h.pFilesz then .error .assertion
  else
    let base := roundDown h.pVa
    let diff := h.pVa - base
    let (_, s) ← ofTree (s.addExecutableVma fuel true h.areaName base (sub64 (roundUp (add64 h.pVa h.pMemsz)) base) h.protFlags
      (some (sub64 (add64 binary h.pOffset) diff)) (add64 h.pFilesz diff))
    .ok s

/-- The areas that a program starts with. -/
def taskLoadElf (fuel binary : Nat) (hdrs : List ProgHdr) : Kernel VmSpace := do
  let s ← hdrs.foldlM (loadSegment fuel binary) VmSpace.empty
  let (_, s) ← ofTree (s.addAnonymousVma fuel true "stack" (USTACK_TOP - PAGE_SIZE) PAGE_SIZE (PROT_READ ||| PROT_WRITE))
  .ok s

/-! ## Tasks -/

/-- What a task has of its own: its areas, its page tables, and the frame of its PML4. -/
structure TaskSpace where
  vm : VmSpace
  pml4 : Pml4
  root : Nat

/-- The frames, and the tasks that share them. -/
structure Machine where
  phys : Phys
  kernelPml4 : Pml4
  tasks : Nat → Option TaskSpace

/-- The first entry of the kernel half in a PML4. -/
def KERNEL_INDEX : Nat := PAGE_TABLE_ENTRIES / 2

/-- `task_setup_vas`: the new PML4 has the kernel half of the kernel's. -/
def taskSetupVas (m : Phys) (kernelPml4 : Pml4) : Kernel (Phys × Pml4 × Nat) := do
  let (page, m) ← m.allocPage ALLOC_ZERO
  let m ← m.incRef page
  .ok (m, fun i => if i < KERNEL_INDEX then 0 else kernelPml4 i, page)

/-- What `task_alloc` sets up of the memory of a task: an address space in which nothing is resident yet. -/
def taskAlloc (m : Phys) (kernelPml4 : Pml4) (pid : Nat) : Kernel (Phys × Pml4 × Nat) := do
  let m := { m with cpu := { m.cpu with taskRss := Function.update m.cpu.taskRss pid 0 } }
  let (m, pml4, root) ← taskSetupVas m kernelPml4
  let m := { m with cpu := { m.cpu with taskPml4 := Function.update m.cpu.taskPml4 pid (KADDR (root * PAGE_SIZE)) } }
  .ok (m, pml4, root)

/-! ## Forking -/

/-- What `task_clone` works on: the frames, the page tables of the parent, and the areas and page tables of the child. -/
structure CloneState where
  phys : Phys
  parent : Pml4
  childVm : VmSpace
  child : Pml4

/-- One page of an area: it becomes read-only for the parent, whose PML4 is at the address `pml4`, and the child maps it as
well. What `page_insert` returns is not looked at. -/
def clonePage (pml4 va : Nat) (s : CloneState) : Kernel CloneState := do
  match pageLookup s.parent va with
  | none => .ok s
  | some e =>
    let parent := modifyEntry s.parent va fun e => { e with write := false }
    let m := s.phys.tlbInvalidate pml4 va
    let (_, m, child) ← pageInsert m s.child e.frame va { e with write := false : Entry }.umask
    .ok { s with phys := m, parent := parent, child := child }

/-- One area: the child gets an area like it, and the pages of it. -/
def cloneArea (fuel pml4 : Nat) (v : Vma) (s : CloneState) : Kernel CloneState := do
  match ← addVma fuel s.childVm v.vmName v.vmBase (sub64 v.vmEnd v.vmBase) v.vmFlags with
  | (none, _) => .error .fault
  | (some p, vm) =>
    let vm := vm.setVma p { vm.vma p with vmSrc := v.vmSrc, vmLen := v.vmLen }
    forRange (fun i => clonePage pml4 (v.vmBase + i * PAGE_SIZE)) (pageCount v.vmBase v.vmEnd) 0 { s with childVm := vm }

/-- The loop of `task_clone` over the areas of the parent. -/
def cloneAreas (fuel pml4 : Nat) (vm : VmSpace) : List Nat → CloneState → Kernel CloneState
  | [], s => .ok s
  | p :: l, s => do
    let s ← cloneArea fuel pml4 (vm.vma p) s
    cloneAreas fuel pml4 vm l s

namespace Machine

def setTask (s : Machine) (pid : Nat) (t : Option TaskSpace) : Machine := { s with tasks := Function.update s.tasks pid t }

@[simp] theorem setTask_tasks (s : Machine) (pid : Nat) (t : Option TaskSpace) (q : Nat) :
    (s.setTask pid t).tasks q = if q = pid then t else s.tasks q := by
  by_cases h : q = pid <;> simp [setTask, h]

theorem setTask_of_ne {s : Machine} {pid q : Nat} (t : Option TaskSpace) (h : q ≠ pid) : (s.setTask pid t).tasks q = s.tasks q := by
  rw [setTask_tasks, if_neg h]

/-- The memory that the calls of a task act on. -/
def taskMem (s : Machine) (t : TaskSpace) : TaskMem := { phys := s.phys, vm := t.vm, pml4 := t.pml4, root := t.root }

/-- What a call of a task leaves. -/
def withMem (s : Machine) (pid : Nat) (t : TaskSpace) (r : TaskMem) : Machine :=
  { s with phys := r.phys }.setTask pid (some { t with vm := r.vm, pml4 := r.pml4 })

/-- `task_create`, for the pid that `task_alloc` has found, and a binary that is loaded at an address of the kernel. -/
def taskCreate (fuel : Nat) (s : Machine) (pid binary : Nat) (hdrs : List ProgHdr) : Kernel Machine := do
  let (m, pml4, root) ← taskAlloc s.phys s.kernelPml4 pid
  let vm ← taskLoadElf fuel binary hdrs
  .ok ({ s with phys := m }.setTask pid (some { vm := vm, pml4 := pml4, root := root }))

/-- `task_clone`, for the pid that `task_alloc` has found for the child. -/
def taskClone (fuel : Nat) (s : Machine) (pid child : Nat) (t : TaskSpace) : Kernel Machine := do
  let (m, pml4, root) ← taskAlloc s.phys s.kernelPml4 child
  let c ← cloneAreas fuel (KADDR (t.root * PAGE_SIZE)) t.vm t.vm.taskMmap
    { phys := m, parent := t.pml4, childVm := VmSpace.empty, child := pml4 }
  .ok ({ s with phys := c.phys }.setTask pid (some { t with pml4 := c.parent })
    |>.setTask child (some { vm := c.childVm, pml4 := c.child, root := root }))

end Machine

/-! ## Exiting -/

/-- `free_vmas`. -/
def freeVmas (fuel : Nat) : List Nat → VmSpace → Kernel VmSpace
  | [], s => .ok s
  | p :: l, s => do
    let s ← ofTree (s.removeVma fuel p)
    freeVmas fuel l (s.kfree p)

/-- The part of `task_free` that frees the memory of the task. -/
def Machine.taskFree (fuel : Nat) (s : Machine) (pid : Nat) (t : TaskSpace) : Kernel Machine := do
  let _ ← freeVmas fuel t.vm.taskMmap t.vm
  let (m, _) ← unmapUserPages (KADDR (t.root * PAGE_SIZE)) s.phys t.pml4
  let m ← m.decref t.root
  .ok ({ s with phys := m }.setTask pid none)

/-! ## Loads and stores of user programs -/

/-- What a load returns, `none` for a page fault. -/
def userLoad (m : Phys) (t : Pml4) (va : Nat) : Option UInt8 :=
  match lookup t va with
  | none => none
  | some (pde, e) =>
    let frame := if pde then e.frame + signExtend va / PAGE_SIZE % PAGE_TABLE_ENTRIES else e.frame
    if e.user then some (m.bytes frame (va % PAGE_SIZE)) else none

/-- A store, `none` for a page fault. -/
def userStore (m : Phys) (t : Pml4) (va : Nat) (b : UInt8) : Option (Phys × Pml4) :=
  match lookup t va with
  | none => none
  | some (_, e) =>
    if e.user = true ∧ e.write = true then
      match storeByte va b (m, t) with
      | .ok r => some r
      | .error _ => none
    else none

/-! ## The steps of the machine -/

/-- What happens to the memory of the tasks. -/
inductive MemAction where
  /-- `task_create`, before the first task runs. -/
  | create (pid binary : Nat) (hdrs : List ProgHdr)
  /-- A system call of a task. -/
  | call (pid : Nat) (c : MemCall)
  /-- A page fault of a task, for an access that asks for `flags`. -/
  | fault (pid va flags : Nat)
  /-- A store of a task that the page tables allow. -/
  | store (pid va : Nat) (b : UInt8)
  /-- `sys_fork`, with the pid of the child. -/
  | fork (pid child : Nat)
  /-- The memory of a task is freed, while `cur` runs. -/
  | free (cur : Option Nat) (pid : Nat)

namespace Machine

/-- The memory that a task acts on while it runs: `cur_task` is the task, and its page tables are loaded. -/
def running (s : Machine) (pid : Nat) (t : TaskSpace) : TaskMem :=
  { s.taskMem t with
    phys := { s.phys with cpu := { s.phys.cpu with curTask := some pid, cr3 := t.root * PAGE_SIZE } } }

/-- What a task does, if it exists. -/
def forTask (s : Machine) (pid : Nat) (f : TaskSpace → Kernel Machine) : Kernel Machine :=
  match s.tasks pid with
  | none => .ok s
  | some t => f t

/-- A store of a task. If the page tables do not allow it there is a page fault instead. -/
def store (s : Machine) (pid va : Nat) (b : UInt8) (t : TaskSpace) : Machine :=
  match userStore s.phys t.pml4 va b with
  | none => s
  | some (m, pml4) => { s with phys := m }.setTask pid (some { t with pml4 := pml4 })

/-- `cur_task` is set. -/
def setCur (s : Machine) (cur : Option Nat) : Machine :=
  { s with phys := { s.phys with cpu := { s.phys.cpu with curTask := cur } } }

/-- One step. An action of a task that does not exist does not happen, and neither does the creation of a task whose pid is
taken. `image` is the memory that programs are loaded from. -/
def act (fuel : Nat) (image : Nat → UInt8) (s : Machine) : MemAction → Kernel Machine
  | .create pid binary hdrs => if (s.tasks pid).isSome then .ok s else s.taskCreate fuel pid binary hdrs
  | .call pid c => s.forTask pid fun t => do
    let r ← c.run fuel image (some pid) (s.running pid t)
    .ok (s.withMem pid t r)
  | .fault pid va flags => s.forTask pid fun t => do
    let (_, r) ← taskPageFaultHandler image (s.running pid t) va flags
    .ok (s.withMem pid t r)
  | .store pid va b => s.forTask pid fun t => .ok (s.store pid va b t)
  | .fork pid child =>
    if (s.tasks child).isSome then .ok s
    else s.forTask pid fun t => { s with phys := (s.running pid t).phys }.taskClone fuel pid child t
  | .free cur pid => s.forTask pid fun t => (s.setCur cur).taskFree fuel pid t

/-- Steps one after the other, each of which may be taken where it is. -/
inductive Run (may : Machine → MemAction → Prop) : Machine → Machine → Prop
  | refl (s : Machine) : Run may s s
  | step {s s' s'' : Machine} {a : MemAction} {fuel : Nat} {image : Nat → UInt8} (hr : Run may s s') (ha : may s' a)
    (he : s'.act fuel image a = .ok s'') : Run may s s''

/-- Nothing is created yet. -/
def NoTasks (s : Machine) : Prop := ∀ pid, s.tasks pid = none

end Machine

end OpenLsd
