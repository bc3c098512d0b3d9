import OpenLsd.Sched.Task
import OpenLsd.Sync.Spinlock

/-!
# Yielding with fine-grained locks

The model of `sched_yield` in `kernel/sched/sched.c` with `USE_BIG_KERNEL_LOCK` undefined, for one of several CPUs. The queues
are listed in the order in which `list_pop_tail` takes from them. The other CPUs may take and release `runq_lock` whenever this
CPU does not hold it, and change the global queue. With `sys_kill` they may also take tasks out of the queues of this CPU, which
no lock prevents. The time that tasks have used decides nothing here and is left out, and so are the big-lock macros, which are
empty. Beside the data there is a trace of the list operations on the global queue
and of the call of `task_run`, each with whether this CPU holds `runq_lock` at that moment.
-/

namespace OpenLsd

/-- A list operation on the global queue. -/
inductive RunqOp where
  | isEmpty
  | popTail
  | add (p : Nat)
  deriving DecidableEq, Repr

inductive YieldEvent where
  | runq (op : RunqOp) (holds : Bool)
  | taskRun (p : Nat) (holds : Bool)
  deriving DecidableEq, Repr

/-- What `sched_yield` works on. -/
structure YieldState where
  cpuId : Nat
  curTask : Option Nat
  /-- The queues of this CPU. -/
  runq : List Nat
  nextq : List Nat
  runqLen : Nat
  spinlockRank : BitVec 64
  globalRunq : List Nat
  /-- The fields of `runq_lock`. -/
  runqLocked : Bool
  runqCpu : Option Nat
  taskStatus : Nat → TaskStatus
  taskCpunum : Nat → Nat
  nuserTasks : Nat
  /-- `cpus[0].cpu_status == CPU_HALTED`. -/
  cpu0Halted : Bool
  /-- The tasks whose parent may run on another CPU meanwhile, and may kill them. -/
  mayKill : Nat → Bool
  trace : List YieldEvent

namespace YieldState

/-- `runq_lock`. Its initializer gives it no rank. -/
def runqLock (s : YieldState) : Spinlock Nat := { locked := s.runqLocked, rank := 0, cpu := s.runqCpu }

def setLock (s : YieldState) (lock : Spinlock Nat) (word : BitVec 64) : YieldState :=
  { s with runqLocked := lock.locked, runqCpu := lock.cpu, spinlockRank := word }

/-- `spin_haslock(&runq_lock)`. -/
def holds (s : YieldState) : Bool := s.runqLock.holding s.cpuId

def note (s : YieldState) (op : RunqOp) : YieldState := { s with trace := s.trace ++ [.runq op s.holds] }

/-- The current task goes back to `nextq` if it is running. -/
def putBack (s : YieldState) : YieldState :=
  match s.curTask with
  | none => s
  | some p =>
    if s.taskStatus p = .running then
      { s with
        taskStatus := Function.update s.taskStatus p .runnable
        runqLen := if s.taskCpunum p = s.cpuId ∧ s.runqLen > 0 then s.runqLen - 1 else s.runqLen
        nextq := s.nextq ++ [p]
        curTask := none }
    else s

/-- One of the two checks leads to `sched_halt`, which does not return. -/
def halts (s : YieldState) : Prop := (s.cpuId = 0 ∧ s.nuserTasks = 0) ∨ (s.cpuId ≠ 0 ∧ s.cpu0Halted = true)

instance (s : YieldState) : Decidable s.halts := inferInstanceAs (Decidable (_ ∨ _))

/-- The first runnable task of a queue, with what is behind it. -/
def popRunnable (status : Nat → TaskStatus) : List Nat → Option (Nat × List Nat)
  | [] => none
  | p :: rest => if status p = .runnable then some (p, rest) else popRunnable status rest

/-- The call of `task_run` for a task from the CPU's own queue. -/
def taskRun (s : YieldState) (p : Nat) (rest : List Nat) : YieldState :=
  { s with
    runq := rest
    taskCpunum := Function.update s.taskCpunum p s.cpuId
    runqLen := s.runqLen + 1
    trace := s.trace ++ [.taskRun p s.holds] }

/-- The loop that moves tasks from `nextq` to the global queue, with the number of turns that are left. -/
def migrate : Nat → YieldState → YieldState
  | 0, s => s
  | n + 1, s =>
    match s.nextq with
    | [] => s
    | p :: rest =>
      migrate n ({ s with nextq := rest, globalRunq := s.globalRunq ++ [p], runqLen := s.runqLen - 1 }.note (.add p))

/-- The loop that takes one task from the global queue. -/
def takeOne (s : YieldState) : YieldState :=
  let s := s.note .isEmpty
  match s.globalRunq with
  | [] => s
  | p :: rest => { s.note .popTail with globalRunq := rest, runq := s.runq ++ [p] }

/-- `if (fine_spin_haslock(&runq_lock)) fine_spin_unlock(&runq_lock)`, `none` for a panic. -/
def dropLock (s : YieldState) : Option YieldState :=
  if s.holds then (s.runqLock.spinUnlock s.cpuId s.spinlockRank).map fun (lock, word) => s.setLock lock word else some s

/-- What is done when `spin_trylock` returns 0. -/
def withoutLock (s : YieldState) : YieldState :=
  let s := s.note .isEmpty
  if s.globalRunq = [] ∧ s.runqLen > 0 then s.migrate (s.runqLen / 2) else s.takeOne

/-- Tasks are moved from `nextq` to the CPU's own queue. -/
def refill (s : YieldState) : YieldState :=
  { s with runq := s.runq ++ s.nextq, nextq := [], runqLen := s.nextq.length }

end YieldState

/-- Where the CPU is in `sched_yield`. -/
inductive YieldPc where
  /-- At the label `try_again`. -/
  | tryAgain
  /-- Before the call of `spin_trylock`. -/
  | trylock
  /-- `task_run` has been called. -/
  | ran (p : Nat)
  | halted
  | panicked
  deriving DecidableEq, Repr

namespace YieldState

/-- From `try_again` to the call of `spin_trylock`. -/
def front (s : YieldState) : YieldPc × YieldState :=
  let s := s.putBack
  if s.halts then (.halted, s)
  else match popRunnable s.taskStatus s.runq with
  | some (p, rest) => (.ran p, s.taskRun p rest)
  | none =>
    match { s with runq := [] }.dropLock with
    | none => (.panicked, s)
    | some s => (.trylock, s)

/-- From the call of `spin_trylock` back to `try_again`. -/
def back (s : YieldState) : YieldPc × YieldState :=
  match s.runqLock.spinTrylock s.cpuId s.spinlockRank with
  | none => (.panicked, s)
  | some (false, lock, word) =>
    match ((s.setLock lock word).withoutLock).dropLock with
    | none => (.panicked, s)
    | some s => (.tryAgain, s)
  | some (true, lock, word) =>
    let s := s.setLock lock word
    if s.nextq ≠ [] then (.tryAgain, s.refill)
    else if s.halts then (.halted, s)
    else (.tryAgain, s)

/-- The tasks that this CPU has in its hands. -/
def Own (s : YieldState) (p : Nat) : Prop := p ∈ s.runq ∨ p ∈ s.nextq ∨ s.curTask = some p

/-- The state after `sys_kill` on other CPUs: the tasks are dying, and `list_del` has taken them out of the queues. -/
def kill (s : YieldState) (killed : Nat → Bool) : YieldState :=
  { s with
    taskStatus := fun p => if killed p = true then .dying else s.taskStatus p
    runq := s.runq.filter fun p => !killed p
    nextq := s.nextq.filter fun p => !killed p }

/-- What the other CPUs may do. They kill tasks, they change the global queue, what is known of tasks that are not this CPU's and
the counts that are checked before halting, and they change `runq_lock` as long as this CPU does not hold it. There are no new
user tasks once there are none. -/
structure Interferes (s s' : YieldState) : Prop where
  rest : ∃ killed, (∀ p, killed p = true → s.mayKill p = true) ∧ s' = { s.kill killed with
    globalRunq := s'.globalRunq, runqLocked := s'.runqLocked, runqCpu := s'.runqCpu, nuserTasks := s'.nuserTasks,
    cpu0Halted := s'.cpu0Halted, taskStatus := s'.taskStatus } ∧ ∀ p, s.Own p → s'.taskStatus p = (s.kill killed).taskStatus p
  nuserTasks : s.nuserTasks = 0 → s'.nuserTasks = 0
  cpu0Halted : s.cpu0Halted = true → s'.cpu0Halted = true
  lock : if s.holds = true then s'.runqLocked = s.runqLocked ∧ s'.runqCpu = s.runqCpu else s'.holds = false

/-- What a call of `sched_yield` does, up to any moment. -/
inductive Run (s : YieldState) : YieldPc → YieldState → Prop
  | call : Run s .tryAgain { s with trace := [] }
  | front {s' : YieldState} (hr : Run s .tryAgain s') : Run s s'.front.1 s'.front.2
  | back {s' : YieldState} (hr : Run s .trylock s') : Run s s'.back.1 s'.back.2
  | others {pc : YieldPc} {s' s'' : YieldState} (hr : Run s pc s') (hi : s'.Interferes s'') : Run s pc s''

end YieldState

end OpenLsd
