import OpenLsd.Sched.Yield

/-!
# Who holds the lock of the global run queue

`spin_trylock` returns 0 when it does not get the lock, and that is the branch in which `sched_yield` works on the global queue.
When it gets the lock it goes back to `try_again` with it, and may run a task while it holds it. So all is well only when the
CPU finds a task before it comes to the lock, and no other CPU may take that task away.
-/

namespace OpenLsd

/-- The global queue is used with the lock, and a task is run without it. -/
def YieldEvent.Disciplined : YieldEvent → Prop
  | .runq _ holds => holds = true
  | .taskRun _ holds => holds = false

namespace YieldState

variable {s s' : YieldState}

/-- The task is runnable, or will be once the current task has been put back. -/
def WillRun (s : YieldState) (p : Nat) : Prop := s.taskStatus p = .runnable ∨ (s.curTask = some p ∧ s.taskStatus p = .running)

/-- The CPU's own queue holds a task that is found there. The current task goes to `nextq` and is not. -/
def OwnRunnable (s : YieldState) : Prop := ∃ p ∈ s.runq, s.WillRun p

/-- The CPU's own queue holds such a task, and no other CPU may kill it before it is found. -/
def OwnSafe (s : YieldState) : Prop := ∃ p ∈ s.runq, s.WillRun p ∧ s.mayKill p = false

/-! ## The first half -/

/-- Putting the current task back changes nothing that decides where `sched_yield` goes but for the status of that task. -/
theorem putBack_same (s : YieldState) :
    s.putBack.cpuId = s.cpuId ∧ s.putBack.runq = s.runq ∧ s.putBack.trace = s.trace ∧ s.putBack.holds = s.holds ∧
      (s.putBack.halts ↔ s.halts) := by
  unfold putBack
  split
  · exact ⟨rfl, rfl, rfl, rfl, Iff.rfl⟩
  · split <;> exact ⟨rfl, rfl, rfl, rfl, Iff.rfl⟩

theorem putBack_runnable (s : YieldState) (p : Nat) : s.putBack.taskStatus p = .runnable ↔ s.WillRun p := by
  unfold putBack WillRun
  cases hc : s.curTask with
  | none => simp
  | some q =>
    by_cases hq : s.taskStatus q = .running
    · simp only [hq, if_true]
      by_cases hp : p = q
      · subst hp
        simp [hq]
      · simp [hp, Ne.symm hp]
    · simp only [hq, if_false, Option.some.injEq]
      constructor
      · exact .inl
      · rintro (hp | ⟨rfl, hp⟩)
        · exact hp
        · exact absurd hp hq

theorem popRunnable_eq_none {status : Nat → TaskStatus} {l : List Nat} :
    popRunnable status l = none ↔ ∀ p ∈ l, status p ≠ .runnable := by
  induction l with
  | nil => simp [popRunnable]
  | cons p l ih =>
    rw [popRunnable]
    by_cases hp : status p = .runnable <;> simp [hp, ih]

theorem holds_iff : s.holds = true ↔ s.runqLocked = true ∧ s.runqCpu = some s.cpuId := by
  simp only [holds, decide_eq_true_eq]
  rfl

/-- The lock is not held after it was dropped, and dropping it does not panic: a lock without a rank may be released at any
time. -/
theorem dropLock_eq (s : YieldState) : ∃ s', s.dropLock = some s' ∧ s'.trace = s.trace ∧ s'.holds = false := by
  unfold dropLock
  by_cases hold : s.holds = true
  · have hck : s.runqLock.unlockCheck s.cpuId s.spinlockRank :=
      ⟨(holds_iff.1 hold).1, holds_iff.1 hold, fun hne => absurd rfl hne⟩
    rw [if_pos hold, Spinlock.spinUnlock, if_pos hck]
    refine ⟨_, rfl, rfl, ?_⟩
    simp [holds, Spinlock.holding, runqLock, setLock]
  · rw [if_neg hold]
    exact ⟨s, rfl, rfl, by simpa using hold⟩

/-- Where the first half leads, and what it leaves. -/
theorem front_cases (s : YieldState) :
    (s.halts ∧ s.front.1 = .halted ∧ s.front.2.trace = s.trace) ∨
    (¬s.halts ∧ s.OwnRunnable ∧ ∃ p, s.front.1 = .ran p ∧ s.front.2.trace = s.trace ++ [.taskRun p s.holds]) ∨
    (¬s.halts ∧ ¬s.OwnRunnable ∧ s.front.1 = .trylock ∧ s.front.2.trace = s.trace ∧ s.front.2.holds = false) := by
  obtain ⟨_, hrunq, htrace, hholds, hhalts⟩ := s.putBack_same
  unfold front
  by_cases hh : s.halts
  · left
    rw [if_pos (hhalts.2 hh)]
    exact ⟨hh, rfl, htrace⟩
  · right
    rw [if_neg (fun h => hh (hhalts.1 h))]
    cases hp : popRunnable s.putBack.taskStatus s.putBack.runq with
    | some r =>
      left
      obtain ⟨p, rest⟩ := r
      refine ⟨hh, ?_, p, rfl, ?_⟩
      · by_contra hno
        have hnone : popRunnable s.putBack.taskStatus s.putBack.runq = none := popRunnable_eq_none.2 fun q hq hrun =>
          hno ⟨q, hrunq ▸ hq, (s.putBack_runnable q).1 hrun⟩
        rw [hp] at hnone
        cases hnone
      · rw [← htrace, ← hholds]
        rfl
    | none =>
      right
      obtain ⟨s1, hdrop, htr, hfree⟩ := dropLock_eq { s.putBack with runq := [] }
      rw [hdrop]
      refine ⟨hh, ?_, rfl, htr.trans htrace, hfree⟩
      rintro ⟨q, hq, hrun⟩
      exact popRunnable_eq_none.1 hp q (hrunq ▸ hq) ((s.putBack_runnable q).2 hrun)

/-! ## The second half -/

theorem subset_migrate (n : Nat) (s : YieldState) : s.trace ⊆ (s.migrate n).trace := by
  induction n generalizing s with
  | zero => exact List.Subset.refl _
  | succ n ih =>
    unfold migrate
    split
    · exact List.Subset.refl _
    · refine List.Subset.trans ?_ (ih _)
      exact List.subset_append_left _ _

theorem subset_takeOne (s : YieldState) : s.trace ⊆ s.takeOne.trace := by
  unfold takeOne
  simp only
  split
  · exact List.subset_append_left _ _
  · exact List.Subset.trans (List.subset_append_left _ _) (List.subset_append_left _ _)

/-- While another CPU has the lock, the second half looks at the global queue. -/
theorem back_of_locked (hl : s.runqLocked = true) (hfree : s.holds = false) :
    YieldEvent.runq .isEmpty false ∈ s.back.2.trace := by
  have hck : s.runqLock.lockCheck s.cpuId s.spinlockRank := by
    refine ⟨fun hold => ?_, fun hne => hne.1 rfl⟩
    rw [holds_iff.2 hold] at hfree
    cases hfree
  have htry : s.runqLock.spinTrylock s.cpuId s.spinlockRank = some (false, s.runqLock, s.spinlockRank) := by
    rw [Spinlock.spinTrylock, if_pos hck, if_pos (show s.runqLock.locked = true from hl)]
  have hmem : YieldEvent.runq .isEmpty false ∈ (s.setLock s.runqLock s.spinlockRank).withoutLock.trace := by
    have hnote : YieldEvent.runq .isEmpty false ∈ (s.note .isEmpty).trace := by simp [note, hfree]
    unfold withoutLock
    simp only
    split
    · exact subset_migrate _ _ hnote
    · exact subset_takeOne _ hnote
  obtain ⟨s1, hdrop, htr, _⟩ := dropLock_eq (s.setLock s.runqLock s.spinlockRank).withoutLock
  unfold back
  rw [htry]
  simp only [hdrop]
  rw [htr]
  exact hmem

/-! ## Runs -/

theorem Interferes.same (h : s.Interferes s') : s'.trace = s.trace ∧ s'.holds = s.holds ∧ s'.cpuId = s.cpuId := by
  obtain ⟨⟨killed, -, hs', -⟩, -, -, hlock⟩ := h
  have hcpu : s'.cpuId = s.cpuId := by rw [hs']; rfl
  refine ⟨by rw [hs']; rfl, ?_, hcpu⟩
  by_cases hold : s.holds = true
  · rw [if_pos hold] at hlock
    rw [hold]
    exact holds_iff.2 ⟨hlock.1.trans (holds_iff.1 hold).1, by rw [hlock.2, hcpu]; exact (holds_iff.1 hold).2⟩
  · rw [if_neg hold] at hlock
    rw [hlock]
    exact (Bool.not_eq_true _ ▸ hold).symm

/-- A CPU that is to halt still is. -/
theorem Interferes.halts (h : s.Interferes s') (hs : s.halts) : s'.halts := by
  obtain ⟨-, -, hcpu⟩ := h.same
  rw [YieldState.halts, hcpu]
  exact hs.imp (fun hs => ⟨hs.1, h.nuserTasks hs.2⟩) fun hs => ⟨hs.1, h.cpu0Halted hs.2⟩

/-- A task that no other CPU may kill stays in its queue. -/
theorem Interferes.ownSafe (h : s.Interferes s') (hs : s.OwnSafe) : s'.OwnSafe := by
  obtain ⟨p, hp, hrun, hsafe⟩ := hs
  obtain ⟨⟨killed, hmay, hs', hstatus⟩, -, -, -⟩ := h
  have hnot : killed p = false := by
    by_contra hk
    rw [hmay p (by simpa using hk)] at hsafe
    cases hsafe
  have hst : s'.taskStatus p = s.taskStatus p := by
    rw [hstatus p (.inl hp)]
    simp [kill, hnot]
  have hcur : s'.curTask = s.curTask := by rw [hs']; rfl
  refine ⟨p, ?_, ?_, by rw [hs']; exact hsafe⟩
  · rw [hs']
    exact List.mem_filter.2 ⟨hp, by simp [hnot]⟩
  · rw [WillRun, hst, hcur]
    exact hrun

/-- The other CPUs may kill all that they may, with the lock as it is. -/
theorem Interferes.kill (s : YieldState) : s.Interferes (s.kill s.mayKill) where
  rest := ⟨s.mayKill, fun _ => id, rfl, fun _ _ => rfl⟩
  nuserTasks := id
  cpu0Halted := id
  lock := by
    split
    · exact ⟨rfl, rfl⟩
    · next hold => exact (Bool.not_eq_true _ ▸ hold : s.holds = false)

/-- What is left in the queue then is not found. -/
theorem kill_ownRunnable (h : ¬s.OwnSafe) : ¬(s.kill s.mayKill).OwnRunnable := by
  rintro ⟨p, hp, hrun⟩
  obtain ⟨hp, hnot⟩ := List.mem_filter.1 hp
  have hnot : s.mayKill p = false := by simpa using hnot
  refine h ⟨p, hp, ?_, hnot⟩
  simpa [WillRun, YieldState.kill, hnot] using hrun

/-- Another CPU may take the lock if this one does not have it. -/
theorem Interferes.take (hfree : s.holds = false) : s.Interferes { s with runqLocked := true, runqCpu := none } where
  rest := ⟨fun _ => false, nofun, by simp [YieldState.kill], fun p _ => by simp [YieldState.kill]⟩
  nuserTasks := id
  cpu0Halted := id
  lock := by
    rw [if_neg (by simp [hfree])]
    simp [holds, Spinlock.holding, runqLock]

/-- A call that halts, or finds a task in its own queue without having the lock, is over after the first half. -/
theorem Run.disciplined {pc : YieldPc} (hr : Run s pc s') (hs : s.halts ∨ (s.holds = false ∧ s.OwnSafe)) :
    (pc = .tryAgain ∧ s'.trace = [] ∧ (s'.halts ∨ (s'.holds = false ∧ s'.OwnSafe))) ∨
      (pc ≠ .tryAgain ∧ pc ≠ .trylock ∧ ∀ e ∈ s'.trace, e.Disciplined) := by
  induction hr with
  | call => exact .inl ⟨rfl, rfl, hs⟩
  | @front s' _ ih =>
    right
    rcases ih with ⟨_, htr, hs'⟩ | ⟨hne, _⟩
    · rcases s'.front_cases with ⟨_, hpc, htr'⟩ | ⟨hh, _, p, hpc, htr'⟩ | ⟨hh, hno, _⟩
      · rw [hpc, htr', htr]
        simp
      · obtain ⟨hfree, _⟩ := hs'.resolve_left hh
        rw [hpc, htr', htr, hfree]
        simp [YieldEvent.Disciplined]
      · obtain ⟨_, p, hp, hrun, _⟩ := hs'.resolve_left hh
        exact absurd ⟨p, hp, hrun⟩ hno
    · exact absurd rfl hne
  | back _ ih =>
    rcases ih with ⟨hpc, _⟩ | ⟨_, hne, _⟩
    · cases hpc
    · exact absurd rfl hne
  | others _ hi ih =>
    obtain ⟨htr, hholds, _⟩ := hi.same
    rw [htr, hholds]
    exact ih.imp_left fun ⟨hpc, hnil, hs⟩ => ⟨hpc, hnil, hs.imp hi.halts fun hs => ⟨hs.1, hi.ownSafe hs.2⟩⟩

/-- A call that comes to `spin_trylock` may find the lock with another CPU. -/
theorem Run.undisciplined (hr : Run s .tryAgain s') (hh : ¬s'.halts) (hno : ¬s'.OwnRunnable) :
    ∃ pc s'', Run s pc s'' ∧ YieldEvent.runq .isEmpty false ∈ s''.trace := by
  have hfront := hr.front
  rcases s'.front_cases with ⟨hh', _⟩ | ⟨_, hrun, _⟩ | ⟨_, _, hpc, _, hfree⟩
  · exact absurd hh' hh
  · exact absurd hrun hno
  · rw [hpc] at hfront
    refine ⟨_, _, (hfront.others (.take hfree)).back, back_of_locked rfl ?_⟩
    simp [holds, Spinlock.holding, runqLock]

end YieldState

/-! ## The discipline -/

/-- In every execution of `sched_yield` the global queue is used with `runq_lock` held and a task is run without it, exactly
if the call halts or has a runnable task in the CPU's own queue that no other CPU may kill, without having the lock. -/
theorem sched_yield_disciplined_iff (s : YieldState) :
    (∀ pc s', YieldState.Run s pc s' → ∀ e ∈ s'.trace, e.Disciplined) ↔
      s.halts ∨ (s.holds = false ∧ s.OwnSafe) := by
  constructor
  · intro hall
    by_contra hno
    obtain ⟨hh, hno⟩ := not_or.1 hno
    by_cases hsafe : s.OwnSafe
    · -- The lock is held, and a task is run.
      have hhold : s.holds = true := by
        by_contra hfree
        exact hno ⟨by simpa using hfree, hsafe⟩
      obtain ⟨q, hq, hrun, -⟩ := hsafe
      rcases YieldState.front_cases { s with trace := [] } with ⟨hh', _⟩ | ⟨_, _, p, hpc, htr⟩ | ⟨_, hno', _⟩
      · exact hh hh'
      · have := hall _ _ (.front .call) (.taskRun p s.holds) (by rw [htr]; exact List.mem_append_right _ List.mem_cons_self)
        rw [YieldEvent.Disciplined, hhold] at this
        cases this
      · exact hno' ⟨q, hq, hrun⟩
    · -- The other CPUs empty the queue, and then one of them takes the lock before this one tries to.
      have hkill := YieldState.Run.others (.call (s := s)) (.kill { s with trace := [] })
      obtain ⟨pc, s', hr, hmem⟩ := hkill.undisciplined hh (YieldState.kill_ownRunnable hsafe)
      cases hall pc s' hr _ hmem
  · intro hs pc s' hr e he
    rcases hr.disciplined hs with ⟨_, htr, _⟩ | ⟨_, _, hall⟩
    · rw [htr] at he
      cases he
    · exact hall e he

/-- A task runs on CPU 1, and the global queue holds another one. -/
def yieldFrom (runqLocked : Bool) (runqCpu : Option Nat) : YieldState where
  cpuId := 1
  curTask := some 1
  runq := []
  nextq := []
  runqLen := 1
  spinlockRank := 0
  globalRunq := [2]
  runqLocked := runqLocked
  runqCpu := runqCpu
  taskStatus := fun p => if p = 1 then .running else .runnable
  taskCpunum := fun _ => 1
  nuserTasks := 2
  cpu0Halted := false
  mayKill := fun _ => false
  trace := []

/-- With the lock free the CPU takes it and runs the task while it holds it; with the lock in the hands of CPU 0 it takes a
task from the global queue without the lock. -/
theorem sched_yield_undisciplined :
    (∃ s', YieldState.Run (yieldFrom false none) (.ran 1) s' ∧ s'.trace = [.taskRun 1 true]) ∧
    (∃ s', YieldState.Run (yieldFrom true (some 0)) .tryAgain s' ∧
      s'.trace = [.runq .isEmpty false, .runq .isEmpty false, .runq .popTail false]) := by
  have hfree := YieldState.Run.front (.call (s := yieldFrom false none))
  have htaken := YieldState.Run.front (.call (s := yieldFrom true (some 0)))
  exact ⟨⟨_, .front (.back hfree), by decide⟩, ⟨_, .back htaken, by decide⟩⟩

end OpenLsd
