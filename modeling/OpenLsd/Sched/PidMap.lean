import OpenLsd.Mem.PageTable
import OpenLsd.Sched.Task

/-!
# The PID map

The model of the PID map of `kernel/sched/task.c` with tasks named by the address of their `struct task`: the words of the
map, which `pid2task` indexes with a signed number, and the fields of the tasks that a look-up reads.
-/

namespace OpenLsd

/-- The PID map and the tasks. -/
structure PidMap where
  /-- The words at `PIDMAP_BASE`. Those with an index outside the map belong to something else. -/
  tasks : Int → Option Nat
  /-- Whether there is a task at an address. -/
  live : Nat → Bool
  taskPid : Nat → Int
  taskPpid : Nat → Int
  /-- The task in whose list of children or zombies the task is linked. -/
  parent : Nat → Option Nat
  curTask : Option Nat
  nkernelTasks : Nat

namespace PidMap

open Function

/-- The index at which `pid2task` reads the PID map for a PID other than zero, if it does. -/
def pidIndex (pid : Int) : Option Int := if pid ≥ pidMax then none else some pid

/-- Looks up the respective task for a given PID. Without a current task, the permission check reads through `NULL`. -/
def pid2task (s : PidMap) (pid : Int) (checkPerm : Bool) : Kernel (Option Nat) :=
  if pid = 0 then .ok s.curTask else
  match pidIndex pid with
  | none => .ok none
  | some i =>
    match s.tasks i with
    | none => .ok none
    | some task =>
      if checkPerm = false ∨ s.curTask = some task then .ok (some task) else
      match s.curTask with
      | none => .error .fault
      | some cur => .ok (if s.taskPpid task ≠ s.taskPid cur then none else some task)

/-- `task_alloc` for the new `struct task` at an address, and the same search for a free PID in `kthread_create`. The parent is
the one of `task_clone`; the other tasks get the parent PID 0. -/
def taskAlloc (s : PidMap) (task : Nat) (parent : Option Nat) : Option PidMap :=
  ((List.range' 1 (pidMax - 1)).find? fun pid : Nat => (s.tasks pid).isNone).map fun pid : Nat =>
    { s with
      tasks := update s.tasks pid (some task)
      live := update s.live task true
      taskPid := update s.taskPid task pid
      taskPpid := update s.taskPpid task (parent.elim 0 s.taskPid)
      parent := update s.parent task parent }

/-- The end of `task_free`: the tasks in the lists of the task become orphans, and the task leaves its own list and the map.
The zombies among them are freed as well, by calls of their own. -/
def taskFree (s : PidMap) (task : Nat) : PidMap :=
  { tasks := update s.tasks (s.taskPid task) none
    live := update s.live task false
    taskPid := s.taskPid
    nkernelTasks := s.nkernelTasks
    taskPpid := fun t => if s.parent t = some task then 0 else s.taskPpid t
    parent := fun t => if t = task ∨ s.parent t = some task then none else s.parent t
    curTask := if s.curTask = some task then none else s.curTask }

/-- The word is in a page of the map, of 512 words, in whose place `kthread_create` has put the stack of a thread. -/
def OnStack (nkernelTasks : Nat) (pid : Int) : Prop := 1 ≤ pid / 512 ∧ pid / 512 ≤ nkernelTasks

/-- The states that the kernel reaches from `task_init` on. A task that is freed is taken out of the lists of its parent, as
by every caller of `task_free` but `oom_kill_task`. -/
inductive Reachable : PidMap → Prop
  | init {s : PidMap} (hmap : ∀ i : Int, 0 ≤ i → i < pidMax → s.tasks i = none) (hlive : ∀ t, s.live t = false)
    (hcur : s.curTask = none) : Reachable s
  /-- `task_create` and `kthread_create` make a task without a parent, and `fork` a child of the current task. -/
  | alloc {s s' : PidMap} (h : Reachable s) (task : Nat) (parent : Option Nat) (hnew : s.live task = false)
    (hparent : parent = none ∨ parent = s.curTask) (hs : s.taskAlloc task parent = some s') : Reachable s'
  /-- The rest of `kthread_create`: the stack of the thread. -/
  | kthreadStack {s : PidMap} (h : Reachable s) : Reachable { s with nkernelTasks := s.nkernelTasks + 1 }
  | free {s : PidMap} (h : Reachable s) (task : Nat) (hl : s.live task = true) : Reachable (s.taskFree task)
  /-- Another task runs. -/
  | run {s : PidMap} (h : Reachable s) (cur : Option Nat) (hc : ∀ c, cur = some c → s.live c = true) :
    Reachable { s with curTask := cur }
  /-- What is not the map, or is no longer, is written to. -/
  | write {s : PidMap} (h : Reachable s) (tasks : Int → Option Nat)
    (hs : ∀ i : Int, 0 ≤ i → i < pidMax → ¬OnStack s.nkernelTasks i → tasks i = s.tasks i) : Reachable { s with tasks := tasks }

end PidMap

end OpenLsd
