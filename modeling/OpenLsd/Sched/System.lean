import OpenLsd.Sched.Memory
import OpenLsd.Sched.Task

/-!
# Tasks and their memory together

The scheduler of `OpenLsd.Sched.Task` over the memory of `OpenLsd.Sched.Memory`, on one CPU. They meet where the kernel stores an
exit status through a pointer that a program has given to `sys_wait` or `sys_waitpid`: the calls themselves do, with the page
tables of the caller, and `task_free` does for a parent that is blocked, with the page tables of the parent and while the task
that exits is still the current one. The pointer is not checked anywhere. `CR0.WP` is never set, so the kernel writes to every
page that is present, whatever its entry and its area allow.
-/

namespace OpenLsd

open Sched (TaskAction)

/-! ## The stores -/

/-- A store of an exit status through a pointer of a task. -/
structure StatusStore where
  /-- The task whose page tables are loaded. -/
  space : Nat
  va : Nat
  status : Int
  deriving DecidableEq, Repr

namespace Sched

/-- The store of `task_free`, for a parent that waits for the task. -/
def freeStore (s : Sched) (p : Nat) : Option StatusStore :=
  match s.tasks p with
  | none => none
  | some t =>
    match if t.taskPpid = 0 then none else (s.modifyTask p (fun t => { t with taskStatus := .dying })).tasks t.taskPpid with
    | none => none
    | some parent =>
      if waitsFor parent p then parent.taskWaitExitStatus.map fun va => ⟨t.taskPpid, va, t.taskExitStatus⟩ else none

/-- The stores for the zombie `z` that the current task `p` reaps: its own one, and that of `task_free`. -/
def reapStores (s : Sched) (p z : Nat) (rstatus : Option Nat) : List StatusStore :=
  (rstatus.map fun va => ⟨p, va, (s.tasks z).elim 0 Task.taskExitStatus⟩).toList ++ (freeStore (s.delNode z) z).toList

def waitStores (s : Sched) (p : Nat) (rstatus : Option Nat) : List StatusStore :=
  match (s.tasks p).bind fun t => t.taskZombies.head? with
  | none => []
  | some z => reapStores s p z rstatus

def waitpidStores (s : Sched) (p : Nat) (pid : Int) (rstatus : Option Nat) : List StatusStore :=
  match s.tasks p with
  | none => []
  | some t =>
    if pid = -1 ∨ pid = 0 then waitStores s p rstatus
    else if pid < 0 then []
    else match pid2task s p pid.toNat with
    | none => []
    | some child =>
      if child = p then [] else if pid.toNat ∈ t.taskZombies then reapStores s p pid.toNat rstatus else []

/-- The stores that an action of the current task `p` makes, one after the other as long as they go through. -/
def statusStores (s : Sched) (p : Nat) : TaskAction → List StatusStore
  | .exit rcode => (freeStore ((s.enter p SYS_exit rcode).modifyTask p fun t =>
      { t with taskExitStatus := rcode, taskStatus := .dying }) p).toList
  | .fault => (freeStore s p).toList
  | .wait rstatus => waitStores (s.enter p SYS_wait (ptrArg rstatus)) p rstatus
  | .waitpid pid rstatus => waitpidStores (s.enter p SYS_waitpid pid) p pid rstatus
  | .fork _ => []
  | .yield => []

end Sched

/-- The pointer that a call is given. -/
def Sched.TaskAction.rstatus : TaskAction → Option Nat
  | .wait rstatus => rstatus
  | .waitpid _ rstatus => rstatus
  | _ => none

/-- The bytes of an `int`, the low one first. -/
def statusByte (status : Int) (i : Nat) : UInt8 := UInt8.ofNat ((status % 2 ^ 32).toNat / 256 ^ i)

/-- The first byte of an `int` that is not mapped. -/
def unmapped (t : Pml4) (va : Nat) : Option Nat := ((List.range 4).map (add64 va)).find? fun x => (lookup t x).isNone

namespace Machine

/-- The store with all bytes mapped. Kernel threads make no system calls and have no pointers. -/
def storeStatus (m : Machine) (w : StatusStore) : Kernel Machine :=
  m.forTask w.space fun t => do
    let (phys, pml4) ← forRange (fun i => storeByte (add64 w.va i) (statusByte w.status i)) 4 0 (m.phys, t.pml4)
    .ok ({ m with phys := phys }.setTask w.space (some { t with pml4 := pml4 }))

/-- What a store comes to while `cur` is the current task. A page fault is taken to the areas of the current task, whoever the
pointer belongs to. -/
def storeOutcome (image : Nat → UInt8) (m : Machine) (cur : Nat) : UserMem := fun space va =>
  match m.tasks space, m.tasks cur with
  | some t, some u =>
    match unmapped t.pml4 va with
    | none => if va + 4 ≤ USER_LIM then .stored else .fatal
    | some x =>
      match taskPageFaultHandler image (m.running cur u) x PROT_WRITE with
      | .ok (ret, _) => if ret = 0 then .resumed else .fatal
      | .error _ => .fatal
  | _, _ => .fatal

/-- What the stores leave in the memory, up to the first that faults. -/
def deliver (fuel : Nat) (image : Nat → UInt8) (mem : UserMem) (cur : Nat) : List StatusStore → Machine → Kernel Machine
  | [], m => .ok m
  | w :: l, m =>
    match mem w.space w.va with
    | .stored => do
      let m ← m.storeStatus w
      deliver fuel image mem cur l m
    | .resumed => m.act fuel image (.fault cur (((m.tasks w.space).bind fun t => unmapped t.pml4 w.va).getD w.va) PROT_WRITE)
    | .fatal => .error .fault

/-- `task_clone`, for a fork that finds a pid and enough memory. -/
def forkFor (fuel : Nat) (image : Nat → UInt8) (m : Machine) (s : Sched) (p : Nat) : TaskAction → Kernel Machine
  | .fork true =>
    match s.tasks p, Sched.findPid s.tasks (pidMax - 1) 1 with
    | some _, some pid => m.act fuel image (.fork p pid)
    | _, _ => .ok m
  | _ => .ok m

/-- The memory of tasks that are gone is freed while `cur` is the current task. -/
def freeAll (fuel : Nat) (image : Nat → UInt8) (cur : Nat) : List Nat → Machine → Kernel Machine
  | [], m => .ok m
  | q :: l, m => do
    let m ← m.act fuel image (.free (some cur) q)
    freeAll fuel image cur l m

end Machine

/-! ## The system -/

structure System where
  sched : Sched
  machine : Machine

/-- The task that acts on its own memory. -/
def MemAction.actor : MemAction → Option Nat
  | .call pid _ => some pid
  | .fault pid _ _ => some pid
  | .store pid _ _ => some pid
  | _ => none

namespace System

/-- The first tasks are created. The program of a task is loaded into the memory of the pid that `task_alloc` has found. -/
inductive Booted (may : Machine → MemAction → Prop) (m0 : Machine) : System → Prop
  | empty : Booted may m0 ⟨Sched.empty, m0⟩
  | user {s : System} {pid binary fuel : Nat} {hdrs : List ProgHdr} {image : Nat → UInt8} {m : Machine} (hb : Booted may m0 s)
    (hpid : Sched.findPid s.sched.tasks (pidMax - 1) 1 = some pid) (ha : may s.machine (.create pid binary hdrs))
    (he : s.machine.act fuel image (.create pid binary hdrs) = .ok m) : Booted may m0 ⟨s.sched.addTask .user 0 pid, m⟩
  | kernel {s : System} {pid : Nat} (hb : Booted may m0 s) (hpid : Sched.findPid s.sched.tasks (pidMax - 1) 1 = some pid) :
    Booted may m0 ⟨s.sched.addTask .kernel 0 pid, s.machine⟩

/-- The tasks of `l` are those that are gone. -/
def Gone (s s' : Sched) (l : List Nat) : Prop := ∀ q, q ∈ l ↔ (s.tasks q).isSome ∧ (s'.tasks q).isNone

/-- A step while `p` is the current task. It acts on its memory as `may` allows, or takes a step of the scheduler as `ok` allows, or
kills a task. The order in which the memory of several tasks is freed is left open. -/
inductive Step (may : Machine → MemAction → Prop) (ok : System → Nat → TaskAction → Prop) (p : Nat) : System → System → Prop
  | own {s : System} {fuel : Nat} {image : Nat → UInt8} {a : MemAction} {m : Machine} (hp : a.actor = some p)
    (ha : may s.machine a) (he : s.machine.act fuel image a = .ok m) : Step may ok p s ⟨s.sched, m⟩
  | task {s : System} {s' : Sched} {fuel : Nat} {image : Nat → UInt8} {a : TaskAction} {l : List Nat} {m1 m2 m : Machine}
    (hok : ok s p a) (hs : s.sched.step (s.machine.storeOutcome image p) a = some s')
    (hd : s.machine.deliver fuel image (s.machine.storeOutcome image p) p (s.sched.statusStores p a) = .ok m1)
    (hf : m1.forkFor fuel image s.sched p a = .ok m2) (hl : Gone s.sched s' l) (he : m2.freeAll fuel image p l = .ok m) :
    Step may ok p s ⟨s', m⟩
  | kill {s : System} {pid v : Int} {s' : Sched} (hs : s.sched.killStep pid = some (v, s')) : Step may ok p s ⟨s', s.machine⟩

/-- The states reached from boot. -/
inductive Reachable (may : Machine → MemAction → Prop) (ok : System → Nat → TaskAction → Prop) (m0 : Machine) : System → Prop
  | boot {s : System} (hb : Booted may m0 s) : Reachable may ok m0 ⟨s.sched.schedYield, s.machine⟩
  | step {s s' : System} {p : Nat} (hr : Reachable may ok m0 s) (hc : s.sched.curTask = some p) (hs : Step may ok p s s') :
    Reachable may ok m0 s'

end System

end OpenLsd
