import Mathlib

/-!
# Spinlocks

The model of `kernel/spinlock.c` with `DEBUG_SPINLOCK`, which `include/spinlock.h` defines. Names, files and lines only go into
messages and are left out. A CPU runs the kernel with interrupts off, so it is in at most one of the three functions at a time,
and the steps of different CPUs are interleaved: a step is a check, an access to the lock that other CPUs can see, or
an update of `spinlock_rank`, which belongs to the CPU. A panic stops the machine, so a step that panics leads nowhere.
-/

namespace OpenLsd

variable {C L : Type}

/-- `struct spinlock`, for CPUs of any kind. -/
structure Spinlock (C : Type) where
  locked : Bool
  rank : BitVec 64
  /-- The CPU that is holding the lock, `none` for `NULL`. -/
  cpu : Option C

namespace Spinlock

variable [DecidableEq C]

/-- `holding`, and `spin_haslock`. -/
def holding (lock : Spinlock C) (c : C) : Prop := lock.locked = true ∧ lock.cpu = some c

instance (lock : Spinlock C) (c : C) : Decidable (lock.holding c) := inferInstanceAs (Decidable (_ ∧ _))

/-- `spin_init`, `none` for the panic: a rank has at most one bit set. -/
def spinInit (rank : BitVec 64) : Option (Spinlock C) :=
  if rank &&& (rank - 1) ≠ 0 then none else some { locked := false, rank := rank, cpu := none }

/-- The checks of `__spin_lock` and `__spin_trylock` pass for a CPU whose `spinlock_rank` is `word`. -/
def lockCheck (lock : Spinlock C) (c : C) (word : BitVec 64) : Prop :=
  ¬lock.holding c ∧ ¬(lock.rank ≠ 0 ∧ lock.rank ≤ word)

/-- The checks of `__spin_unlock` pass. -/
def unlockCheck (lock : Spinlock C) (c : C) (word : BitVec 64) : Prop :=
  lock.locked = true ∧ lock.holding c ∧ (lock.rank ≠ 0 → ¬lock.rank <<< 1 ≤ word ∧ ¬lock.rank > word)

instance (lock : Spinlock C) (c : C) (word : BitVec 64) : Decidable (lock.lockCheck c word) :=
  inferInstanceAs (Decidable (_ ∧ _))

instance (lock : Spinlock C) (c : C) (word : BitVec 64) : Decidable (lock.unlockCheck c word) :=
  inferInstanceAs (Decidable (_ ∧ _ ∧ (_ → _)))

/-- `__spin_trylock` as a whole, with `spinlock_rank`. The result is `none` for a panic. -/
def spinTrylock (lock : Spinlock C) (c : C) (word : BitVec 64) : Option (Bool × Spinlock C × BitVec 64) :=
  if lock.lockCheck c word then
    if lock.locked then some (false, lock, word)
    else some (true, { lock with locked := true, cpu := some c }, word ||| lock.rank)
  else none

/-- `__spin_unlock` as a whole. -/
def spinUnlock (lock : Spinlock C) (c : C) (word : BitVec 64) : Option (Spinlock C × BitVec 64) :=
  if lock.unlockCheck c word then some ({ lock with locked := false, cpu := none }, word ^^^ lock.rank) else none

end Spinlock

/-- Where a CPU is in the code of the locks. -/
inductive LockPc (L : Type) where
  /-- In none of the functions. -/
  | idle
  /-- In the loop of `__spin_lock`. -/
  | spinning (l : L)
  /-- Before the `atomic_cmpxchg` of `__spin_trylock`. -/
  | trying (l : L)
  /-- After the `atomic_cmpxchg` that took the lock, before `spinlock_rank` is updated. -/
  | won (l : L)
  /-- Before `lock->cpu` is set. -/
  | ranked (l : L)
  /-- In `__spin_unlock`, before `lock->cpu` is cleared. -/
  | clearing (l : L)
  /-- Before `lock->locked` is cleared. -/
  | releasing (l : L)
  /-- Before `spinlock_rank` is updated. -/
  | dropping (l : L)
  deriving DecidableEq

/-- The locks, what each CPU has of its own, and the locks that each CPU has won and not released, the last one first. The
latter is a record of ours. -/
structure LockState (C L : Type) where
  lock : L → Spinlock C
  spinlockRank : C → BitVec 64
  pc : C → LockPc L
  acquired : C → List L

namespace LockState

variable [DecidableEq C] [DecidableEq L]

@[simps -fullyApplied lock spinlockRank acquired]
def setPc (s : LockState C L) (c : C) (pc : LockPc L) : LockState C L := { s with pc := Function.update s.pc c pc }

@[simps -fullyApplied pc spinlockRank acquired]
def setLock (s : LockState C L) (l : L) (lock : Spinlock C) : LockState C L :=
  { s with lock := Function.update s.lock l lock }

omit [DecidableEq C] in
/-- `atomic_cmpxchg(&lock->locked, 0, 1)` that finds the lock free. -/
def win (s : LockState C L) (c : C) (l : L) : LockState C L :=
  { (s.setLock l { s.lock l with locked := true }).setPc c (.won l) with
    acquired := Function.update s.acquired c (l :: s.acquired c) }

/-- A step of one of the CPUs. -/
inductive Step : LockState C L → LockState C L → Prop
  /-- `__spin_lock` is called, and its checks pass. -/
  | lock (s : LockState C L) (c : C) (l : L) (hpc : s.pc c = .idle) (hc : (s.lock l).lockCheck c (s.spinlockRank c)) :
    Step s (s.setPc c (.spinning l))
  /-- `__spin_trylock` is called, and its checks pass. -/
  | trylock (s : LockState C L) (c : C) (l : L) (hpc : s.pc c = .idle) (hc : (s.lock l).lockCheck c (s.spinlockRank c)) :
    Step s (s.setPc c (.trying l))
  /-- A turn of the loop of `__spin_lock` that finds the lock taken. -/
  | spin (s : LockState C L) (c : C) (l : L) (hpc : s.pc c = .spinning l) (hl : (s.lock l).locked = true) : Step s s
  /-- `__spin_trylock` finds the lock taken and returns 0. -/
  | fail (s : LockState C L) (c : C) (l : L) (hpc : s.pc c = .trying l) (hl : (s.lock l).locked = true) :
    Step s (s.setPc c .idle)
  /-- The lock is free and the CPU takes it. -/
  | win (s : LockState C L) (c : C) (l : L) (hpc : s.pc c = .spinning l ∨ s.pc c = .trying l)
    (hl : (s.lock l).locked = false) : Step s (s.win c l)
  /-- `this_cpu->spinlock_rank |= lock->rank`. -/
  | addRank (s : LockState C L) (c : C) (l : L) (hpc : s.pc c = .won l) :
    Step s { s.setPc c (.ranked l) with
      spinlockRank := Function.update s.spinlockRank c (s.spinlockRank c ||| (s.lock l).rank) }
  /-- `lock->cpu = this_cpu`, and the function returns. -/
  | setCpu (s : LockState C L) (c : C) (l : L) (hpc : s.pc c = .ranked l) :
    Step s ((s.setLock l { s.lock l with cpu := some c }).setPc c .idle)
  /-- `__spin_unlock` is called, and its checks pass. -/
  | unlock (s : LockState C L) (c : C) (l : L) (hpc : s.pc c = .idle) (hc : (s.lock l).unlockCheck c (s.spinlockRank c)) :
    Step s (s.setPc c (.clearing l))
  /-- `lock->cpu = NULL`. -/
  | clearCpu (s : LockState C L) (c : C) (l : L) (hpc : s.pc c = .clearing l) :
    Step s ((s.setLock l { s.lock l with cpu := none }).setPc c (.releasing l))
  /-- `lock->locked = 0`. -/
  | release (s : LockState C L) (c : C) (l : L) (hpc : s.pc c = .releasing l) :
    Step s { (s.setLock l { s.lock l with locked := false }).setPc c (.dropping l) with
      acquired := Function.update s.acquired c ((s.acquired c).erase l) }
  /-- `this_cpu->spinlock_rank ^= lock->rank`, and the function returns. -/
  | dropRank (s : LockState C L) (c : C) (l : L) (hpc : s.pc c = .dropping l) :
    Step s { s.setPc c .idle with
      spinlockRank := Function.update s.spinlockRank c (s.spinlockRank c ^^^ (s.lock l).rank) }

/-- The locks are as `spin_init` or their static initialisers leave them, which give no rank, and no CPU has done anything yet. -/
structure Fresh (s : LockState C L) : Prop where
  lock : ∀ l, ∃ rank : BitVec 64, Spinlock.spinInit rank = some (s.lock l)
  pc : ∀ c, s.pc c = .idle
  acquired : ∀ c, s.acquired c = []

/-- The locks are as `spin_init` leaves them, with ranks other than zero, and no CPU has done anything yet. -/
structure Init (s : LockState C L) : Prop where
  lock : ∀ l, ∃ rank : BitVec 64, rank ≠ 0 ∧ Spinlock.spinInit rank = some (s.lock l)
  spinlockRank : ∀ c, s.spinlockRank c = 0
  pc : ∀ c, s.pc c = .idle
  acquired : ∀ c, s.acquired c = []

/-- The states that any number of steps of any CPUs reach. -/
inductive Reachable : LockState C L → Prop
  | init {s : LockState C L} (h : Init s) : Reachable s
  | step {s s' : LockState C L} (hr : Reachable s) (hs : Step s s') : Reachable s'

end LockState

end OpenLsd
