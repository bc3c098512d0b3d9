import OpenLsd.Errors

/-!
# Tasks, scheduling, exit and wait

The model of `kernel/sched/task.c`, `sched.c`, `fork.c`, `wait.c` and `syscall.c` on one CPU, as far as the life of tasks goes. A task
is named by its pid, which is its index in the PID map: live tasks have distinct pids, so a pointer to a live task and its
pid say the same. The queues are listed in the order in which `list_pop_tail` takes from them, so `list_add` appends.

What a store through a user's `rstatus` pointer does depends on the page tables, which are elsewhere: every step is given
the outcome of such stores. A store that faults is not taken up again: `int_handler` leaves through `task_run(cur_task)`,
and the rest of the kernel's work is dropped.

Beside the kernel's data the state holds two records of ours: the number of tasks made so far, which numbers the tasks so
that a pid that is used again names another task, and the trace of what happened to them.
-/

namespace OpenLsd

/-- The values of `task_status`. -/
inductive TaskStatus where
  | dying
  | runnable
  | running
  | notRunnable
  deriving DecidableEq, Repr

inductive TaskType where
  | user
  | kernel
  deriving DecidableEq, Repr

/-- The numbers of the system calls that are modelled here. -/
def SYS_kill : Int := 3
def SYS_exit : Int := 4
def SYS_yield : Int := 10
def SYS_wait : Int := 11
def SYS_waitpid : Int := 12
def SYS_fork : Int := 13

/-- The pids of tasks go from 1 to `pidMax - 1`. -/
def pidMax : Nat := 1 <<< 16

/-- `struct task`, without the address space. -/
structure Task where
  taskType : TaskType
  taskPpid : Nat
  taskStatus : TaskStatus
  taskChildren : List Nat
  taskZombies : List Nat
  /-- The task this task is waiting on. -/
  taskWait : Option Nat
  /-- Where the exit status of the child goes, `none` for `NULL`. -/
  taskWaitExitStatus : Option Nat
  taskExitStatus : Int
  /-- The register `rax` of the saved frame: the number of the system call, and then its result. -/
  rax : Int
  /-- The register `rdi` of the saved frame: the first argument of the system call. -/
  rdi : Int
  /-- The number of the task, the only one it will ever have. -/
  birth : Nat
  deriving DecidableEq, Repr

/-- What happened to tasks, which are given by their numbers. -/
inductive TaskEvent where
  | forked (parent child : Nat)
  | exited (child pid : Nat) (status : Int)
  /-- The parent has the child's pid as the result of `sys_wait` or `sys_waitpid`, and its status. -/
  | reported (parent child pid : Nat) (status : Int)
  deriving DecidableEq, Repr

structure Sched where
  /-- The PID map. -/
  tasks : Nat → Option Task
  curTask : Option Nat
  runq : List Nat
  nextq : List Nat
  nuserTasks : Nat
  births : Nat
  trace : List TaskEvent

/-- The outcome of a store through a user pointer in kernel mode: the page is present; the page is not present and the
fault handler fills it in; or the pointer leads nowhere and the kernel panics, or into the kernel itself. -/
inductive StoreOutcome where
  | stored
  | resumed
  | fatal
  deriving DecidableEq, Repr

/-- The outcome of a store for the task whose page tables are loaded and the address. -/
abbrev UserMem := Nat → Nat → StoreOutcome

/-- How kernel work may end early: the current task is resumed in the state given, or nothing runs any more. -/
inductive KernelExit where
  | resumed (s : Sched)
  | fatal

namespace Sched

/-- A write to the fields of a task. -/
def modifyTask (s : Sched) (p : Nat) (f : Task → Task) : Sched :=
  { s with tasks := fun q => if q = p then (s.tasks q).map f else s.tasks q }

/-- `list_del(&task->task_node)`: the node is in a run queue, in a list of zombies, or in no list. -/
def delNode (s : Sched) (p : Nat) : Sched :=
  { s with
    tasks := fun q => (s.tasks q).map (fun t => { t with taskZombies := t.taskZombies.erase p })
    runq := s.runq.erase p
    nextq := s.nextq.erase p }

/-- `list_del(&task->task_child)`. -/
def delChild (s : Sched) (p : Nat) : Sched :=
  { s with tasks := fun q => (s.tasks q).map (fun t => { t with taskChildren := t.taskChildren.erase p }) }

/-! ## Running tasks -/

/-- Context switch to the task. -/
def taskRun (s : Sched) (p : Nat) : Sched :=
  { s.modifyTask p (fun t => { t with taskStatus := .running }) with curTask := some p }

/-- Takes tasks from a queue until one is runnable. -/
def popRunnable (tasks : Nat → Option Task) : List Nat → Option (Nat × List Nat)
  | [] => none
  | p :: rest =>
    match tasks p with
    | some t => if t.taskStatus = .runnable then some (p, rest) else popRunnable tasks rest
    | none => popRunnable tasks rest

/-- The search of `sched_yield` for the next task: the CPU's own queue first, and when it is empty the tasks of `nextq`,
which become the queue. On one CPU `spin_trylock` always gets the lock, so the branch that goes through the global queue is
never taken. With no runnable task the CPU spins. -/
def pickNext (s : Sched) : Sched :=
  match popRunnable s.tasks s.runq with
  | some (p, rest) => { s with runq := rest }.taskRun p
  | none =>
    match popRunnable s.tasks s.nextq with
    | some (p, rest) => { s with runq := rest, nextq := [] }.taskRun p
    | none => { s with runq := [], nextq := [] }

/-- Puts the current task, if it is running, at the back of `nextq`. -/
def putBack (s : Sched) : Sched :=
  match s.curTask with
  | none => s
  | some p =>
    match s.tasks p with
    | some t =>
      if t.taskStatus = .running then
        { s.modifyTask p (fun t => { t with taskStatus := .runnable }) with nextq := s.nextq ++ [p], curTask := none }
      else s
    | none => s

/-- Runs the next runnable task. Once the user tasks are gone the CPU halts. -/
def schedYield (s : Sched) : Sched :=
  let s := s.putBack
  if s.nuserTasks = 0 then s else s.pickNext

/-! ## Making tasks -/

/-- The loop of `task_alloc` that looks for a free pid, with the number of pids that are left. -/
def findPid (tasks : Nat → Option Task) : Nat → Nat → Option Nat
  | 0, _ => none
  | n + 1, pid => if (tasks pid).isNone then some pid else findPid tasks n (pid + 1)

/-- A fresh `struct task`. Memory from `kmalloc` is zero, which makes `NULL` of the pointers that nobody sets. -/
def newTask (type : TaskType) (ppid birth : Nat) : Task where
  taskType := type
  taskPpid := ppid
  taskStatus := .runnable
  taskChildren := []
  taskZombies := []
  taskWait := none
  taskWaitExitStatus := none
  taskExitStatus := 0
  rax := 0
  rdi := 0
  birth := birth

/-- `task_alloc` once there is a free pid, with the lists set up and the task in the run queue. -/
def addTask (s : Sched) (type : TaskType) (ppid pid : Nat) : Sched :=
  { s with
    tasks := Function.update s.tasks pid (some (newTask type ppid s.births))
    runq := s.runq ++ [pid]
    nuserTasks := if type = .user then s.nuserTasks + 1 else s.nuserTasks
    births := s.births + 1 }

/-- `task_create` and `kthread_create` at boot. Without a free pid the kernel panics. -/
def taskCreate (s : Sched) (type : TaskType) : Option Sched :=
  (findPid s.tasks (pidMax - 1) 1).map (s.addTask type 0)

/-- `sys_fork` of the task `p`. `enough` says whether there is memory for another task. The child is a user task, as
`task_alloc` makes it. -/
def sysFork (s : Sched) (p : Nat) (enough : Bool) : Int × Sched :=
  match s.tasks p, findPid s.tasks (pidMax - 1) 1 with
  | some t, some pid =>
    if enough then
      let s := (s.addTask .user p pid).modifyTask p (fun t => { t with taskChildren := pid :: t.taskChildren })
      (pid, { s with trace := .forked t.birth (s.births - 1) :: s.trace })
    else (-1, s)
  | _, _ => (-1, s)

/-! ## Freeing tasks -/

/-- The store of an exit status through the pointer of a task, with that task's page tables loaded. -/
def storeStatus (mem : UserMem) (s : Sched) (space : Nat) (rstatus : Option Nat) : Except KernelExit Unit :=
  match rstatus with
  | none => .ok ()
  | some va =>
    match mem space va, s.curTask with
    | .stored, _ => .ok ()
    | .resumed, some cur => .error (.resumed (s.taskRun cur))
    | .resumed, none => .error .fatal
    | .fatal, _ => .error .fatal

/-- The turn of `task_free` for one child: from now on the child has no parent. -/
def orphan (s : Sched) (c : Nat) : Sched := (s.delChild c).modifyTask c (fun t => { t with taskPpid := 0 })

/-- What `task_free` does after the parent has been dealt with: the children become orphans, the zombies are freed with
all that hangs from them, and the task goes. The recursion goes down the tree of zombies, where numbers grow, so the number
of tasks ever made bounds its depth. -/
def freeRest : Nat → Sched → Nat → Sched
  | 0, s, _ => s
  | n + 1, s, p =>
    match s.tasks p with
    | none => s
    | some t =>
      let s := t.taskChildren.foldl orphan s
      let s := t.taskZombies.foldl (fun s z =>
        freeRest n ((s.delNode z).modifyTask z (fun t => { t with taskPpid := 0, taskStatus := .dying })) z) s
      let s := s.delNode p
      { s with
        tasks := Function.update s.tasks p none
        nuserTasks := if t.taskType = .user then s.nuserTasks - 1 else s.nuserTasks }

/-- The parent is blocked in a call that the exit of its child `p` ends. -/
def waitsFor (parent : Task) (p : Nat) : Prop :=
  parent.taskStatus = .notRunnable ∧ (parent.taskWait = none ∨ parent.taskWait = some p)

instance (parent : Task) (p : Nat) : Decidable (waitsFor parent p) :=
  inferInstanceAs (Decidable (parent.taskStatus = .notRunnable ∧ (parent.taskWait = none ∨ parent.taskWait = some p)))

/-- Frees the task, or makes it a zombie of its parent when it is the current one and the parent does not wait for it. -/
def taskFree (mem : UserMem) (s : Sched) (p : Nat) : Except KernelExit Sched := do
  match s.tasks p with
  | none => return s
  | some t =>
    let s := s.modifyTask p (fun t => { t with taskStatus := .dying })
    match if t.taskPpid = 0 then none else s.tasks t.taskPpid with
    | none => return s.freeRest s.births p
    | some parent =>
      if waitsFor parent p then
        storeStatus mem s t.taskPpid parent.taskWaitExitStatus
        let s := s.modifyTask t.taskPpid (fun q => { q with rax := p, taskStatus := .runnable })
        let s := s.delChild p
        let s := { s with
          runq := s.runq ++ [t.taskPpid]
          trace := .reported parent.birth t.birth p t.taskExitStatus :: s.trace }
        return s.freeRest s.births p
      else if s.curTask = some p then
        let s := (s.delNode p).delChild p
        return s.modifyTask t.taskPpid (fun q => { q with taskZombies := q.taskZombies ++ [p] })
      else return s.freeRest s.births p

/-- Frees the current task and runs another one. -/
def taskDestroy (mem : UserMem) (s : Sched) (p : Nat) : Except KernelExit Sched := do
  let s ← taskFree mem s p
  return { s with curTask := none }.schedYield

/-- The death of the current task, after `sys_exit` or a fault of its own: the trace gets it, and the task is destroyed. -/
def die (mem : UserMem) (s : Sched) (p : Nat) : Except KernelExit Sched :=
  match s.tasks p with
  | none => .ok s
  | some t => taskDestroy mem { s with trace := .exited t.birth p t.taskExitStatus :: s.trace } p

def sysExit (mem : UserMem) (s : Sched) (p : Nat) (rcode : Int) : Except KernelExit Sched :=
  die mem (s.modifyTask p (fun t => { t with taskExitStatus := rcode, taskStatus := .dying })) p

/-! ## Waiting -/

/-- The child is reported to its parent `p`, the current task, taken out of the zombies and freed. -/
def reap (mem : UserMem) (s : Sched) (p z : Nat) : Except KernelExit Sched :=
  match s.tasks p, s.tasks z with
  | some t, some tz =>
    taskFree mem ({ s with trace := .reported t.birth tz.birth z tz.taskExitStatus :: s.trace }.delNode z) z
  | _, _ => .ok s

/-- The end of `sys_wait` and `sys_waitpid`: the current task is blocked and another one runs. -/
def block (s : Sched) (p : Nat) (wait rstatus : Option Nat) : Sched :=
  { s.modifyTask p (fun t =>
      { t with taskWait := wait, taskStatus := .notRunnable, taskWaitExitStatus := rstatus }) with
    curTask := none }.schedYield

/-- `sys_wait` of the current task `p`. The result is `none` when the call blocks. -/
def sysWait (mem : UserMem) (s : Sched) (p : Nat) (rstatus : Option Nat) : Except KernelExit (Option Int × Sched) := do
  match s.tasks p with
  | none => return (none, s)
  | some t =>
    if t.taskChildren = [] ∧ t.taskZombies = [] then return (some (-ECHILD), s)
    else match t.taskZombies with
    | z :: _ =>
      storeStatus mem s p rstatus
      let s ← reap mem s p z
      return (some z, s)
    | [] => return (none, s.block p none rstatus)

/-- `pid2task(pid, 1)` of the current task `p`, for a pid other than zero. -/
def pid2task (s : Sched) (p pid : Nat) : Option Nat :=
  if pid ≥ pidMax then none
  else match s.tasks pid with
  | none => none
  | some t => if pid ≠ p ∧ t.taskPpid ≠ p then none else some pid

/-- `pid2task(pid, 0)` of the current task `p`. Pid zero is the current task. -/
def anyTask (s : Sched) (p pid : Nat) : Option Nat :=
  if pid = 0 then some p else if pid ≥ pidMax then none else (s.tasks pid).map fun _ => pid

/-- `sys_kill` of the current task `p`: the target is dying from now on, and becomes a zombie of its parent. It is not freed
here. A pid below zero reads outside the PID map. -/
def sysKill (s : Sched) (p : Nat) (pid : Int) : Except KernelExit (Int × Sched) :=
  if pid < 0 then .error .fatal
  else match if pid = 0 then some p else pid2task s p pid.toNat with
  | none => .ok (-1, s)
  | some q =>
    let s := s.modifyTask q (fun t => { t with taskStatus := .dying })
    match (s.tasks q).bind (fun t => anyTask s p t.taskPpid) with
    | none => .ok (0, s)
    | some parent =>
      .ok (0, ((s.delNode q).delChild q).modifyTask parent (fun t => { t with taskZombies := t.taskZombies ++ [q] }))

/-- What the loop of `sys_waitpid` over the zombies leaves in `child`: the zombie with the pid, if there is one, and
otherwise the last zombie it looked at. -/
def zombieLoop (pid child : Nat) : List Nat → Nat
  | [] => child
  | z :: rest => if z = pid then z else zombieLoop pid z rest

/-- `sys_waitpid` of the current task `p`. A pid below `-1` reads outside the PID map. -/
def sysWaitpid (mem : UserMem) (s : Sched) (p : Nat) (pid : Int) (rstatus : Option Nat) :
    Except KernelExit (Option Int × Sched) := do
  match s.tasks p with
  | none => return (none, s)
  | some t =>
    if t.taskChildren = [] ∧ t.taskZombies = [] then return (some (-ECHILD), s)
    else if pid = -1 ∨ pid = 0 then sysWait mem s p rstatus
    else if pid < 0 then throw .fatal
    else match pid2task s p pid.toNat with
    | none => return (some (-ECHILD), s)
    | some child =>
      if child = p then return (some (-ECHILD), s)
      else if pid.toNat ∈ t.taskZombies then
        storeStatus mem s p rstatus
        let s ← reap mem s p pid.toNat
        return (some pid, s)
      else return (none, s.block p (some (zombieLoop pid.toNat child t.taskZombies)) rstatus)

/-! ## Steps -/

/-- What the current task does next. -/
inductive TaskAction where
  | fork (enough : Bool)
  | exit (rcode : Int)
  /-- A fault that kills the task. -/
  | fault
  | wait (rstatus : Option Nat)
  | waitpid (pid : Int) (rstatus : Option Nat)
  /-- `sys_yield`, or the end of the task's time slice. -/
  | yield
  deriving DecidableEq, Repr

/-- Entering the kernel saves the frame of the current task. -/
def enter (s : Sched) (p : Nat) (rax rdi : Int) : Sched := s.modifyTask p (fun t => { t with rax := rax, rdi := rdi })

/-- Returning from a system call. -/
def leave (p : Nat) : Option Int × Sched → Sched
  | (none, s) => s
  | (some v, s) => s.modifyTask p (fun t => { t with rax := v })

/-- The address in a register, zero for `NULL`. -/
def ptrArg (rstatus : Option Nat) : Int := (rstatus.getD 0 : Nat)

/-- One action of the current task `p`. -/
def act (mem : UserMem) (s : Sched) (p : Nat) : TaskAction → Except KernelExit Sched
  | .fork enough =>
    let (v, s) := (s.enter p SYS_fork 0).sysFork p enough
    .ok (leave p (some v, s))
  | .exit rcode => sysExit mem (s.enter p SYS_exit rcode) p rcode
  | .fault => die mem s p
  | .wait rstatus => (sysWait mem (s.enter p SYS_wait (ptrArg rstatus)) p rstatus).map (leave p)
  | .waitpid pid rstatus => (sysWaitpid mem (s.enter p SYS_waitpid pid) p pid rstatus).map (leave p)
  | .yield => .ok (s.enter p SYS_yield 0).schedYield

/-- One step of the system. There is none when no task runs or after a panic. -/
def step (mem : UserMem) (s : Sched) (a : TaskAction) : Option Sched :=
  match s.curTask with
  | none => none
  | some p =>
    match act mem s p a with
    | .ok s' => some s'
    | .error (.resumed s') => some s'
    | .error .fatal => none

/-- `sys_kill`, and what `int_handler` does after it: the current task runs on, whatever its status is. -/
def killStep (s : Sched) (pid : Int) : Option (Int × Sched) :=
  match s.curTask with
  | none => none
  | some p =>
    match (s.enter p SYS_kill pid).sysKill p pid with
    | .ok (v, s') => some (v, (leave p (some v, s')).taskRun p)
    | .error _ => none

/-- The state before any task was made. -/
def empty : Sched where
  tasks := fun _ => none
  curTask := none
  runq := []
  nextq := []
  nuserTasks := 0
  births := 0
  trace := []

/-- Boot makes the first tasks. -/
def createAll (s : Sched) : List TaskType → Option Sched
  | [] => some s
  | type :: rest => (s.taskCreate type).bind (fun s => createAll s rest)

end Sched

end OpenLsd
