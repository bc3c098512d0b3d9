import OpenLsd.Lemmas.SchedOps

/-!
# The frames of blocked tasks

A blocked task keeps the frame of the call it is blocked in, and what it waits for, until the exit of a child wakes it:
`Still s s'` says so of the tasks blocked in `s'`. Only a call that blocks makes a blocked task, and no such task runs.
-/

namespace OpenLsd

namespace Sched

/-- The two are blocked in the same call, for the same task and with the same pointer. -/
def SameCall (t t' : Task) : Prop :=
  t'.rax = t.rax ∧ t'.rdi = t.rdi ∧ t'.taskWait = t.taskWait ∧ t'.taskWaitExitStatus = t.taskWaitExitStatus

theorem SameCall.refl (t : Task) : SameCall t t := ⟨rfl, rfl, rfl, rfl⟩

/-- The task is not blocked. -/
def Awake (s : Sched) (q : Nat) : Prop := ∀ t, s.tasks q = some t → t.taskStatus ≠ .notRunnable

/-- The tasks blocked in `s'` were blocked in `s`, and in the same call. A task that starts to run is not blocked. -/
structure Still (s s' : Sched) : Prop where
  tasks : ∀ q t', s'.tasks q = some t' → t'.taskStatus = .notRunnable →
    ∃ t, s.tasks q = some t ∧ t.taskStatus = .notRunnable ∧ SameCall t t'
  cur : ∀ q, s'.curTask = some q → s.curTask = some q ∨ Awake s' q

/-- The state that kernel work leaves, if it leaves one. -/
def outcome : Except KernelExit Sched → Option Sched
  | .ok s => some s
  | .error (.resumed s) => some s
  | .error .fatal => none

theorem step_eq_outcome {s : Sched} {p : Nat} (hc : s.curTask = some p) (mem : UserMem) (a : TaskAction) :
    s.step mem a = outcome (act mem s p a) := by
  cases he : act mem s p a with
  | ok s' => simp only [step, hc, he, outcome]
  | error e => cases e <;> simp only [step, hc, he, outcome]

variable {W : Prop} {s s' s'' : Sched} {p : Nat} {mem : UserMem}

namespace Still

theorem refl (s : Sched) : Still s s := ⟨fun _ t h hb => ⟨t, h, hb, .refl t⟩, fun _ => .inl⟩

theorem awake {q : Nat} (h : Still s s') (hq : Awake s q) : Awake s' q := by
  intro t' ht' hb
  obtain ⟨t, ht, hbt, _⟩ := h.tasks q t' ht' hb
  exact hq t ht hbt

theorem trans (h : Still s s') (h' : Still s' s'') : Still s s'' := by
  refine ⟨fun q t'' hq hb => ?_, fun q hq => ?_⟩
  · obtain ⟨t', hq', hb', e1, e2, e3, e4⟩ := h'.tasks q t'' hq hb
    obtain ⟨t, hq0, hb0, f1, f2, f3, f4⟩ := h.tasks q t' hq' hb'
    exact ⟨t, hq0, hb0, e1.trans f1, e2.trans f2, e3.trans f3, e4.trans f4⟩
  · rcases h'.cur q hq with hq' | hw
    · exact (h.cur q hq').imp id h'.awake
    · exact .inr hw

theorem of_tasks (h : s'.tasks = s.tasks) (hc : s'.curTask = s.curTask ∨ s'.curTask = none) : Still s s' := by
  refine ⟨fun _ t hq hb => ⟨t, h ▸ hq, hb, .refl t⟩, fun q hq => .inl ?_⟩
  rcases hc with hc | hc
  · exact hc ▸ hq
  · rw [hc] at hq
    cases hq

/-- Before that only the queues and the trace have changed, or no task is the current one any more. -/
theorem of_queues (h' : Still s' s'') (h : s'.tasks = s.tasks) (hc : s'.curTask = s.curTask ∨ s'.curTask = none) : Still s s'' :=
  (of_tasks h hc).trans h'

/-- Writes to every task that leave the frame, or leave the task not blocked. -/
theorem of_map {f : Nat → Task → Task} (hs : ∀ q, s'.tasks q = (s.tasks q).map (f q)) (hc : s'.curTask = s.curTask)
    (hf : ∀ q t, s.tasks q = some t → (f q t).taskStatus = .notRunnable → t.taskStatus = .notRunnable ∧ SameCall t (f q t)) :
    Still s s' := by
  refine ⟨fun q t' hq hb => ?_, fun q hq => .inl (hc ▸ hq)⟩
  rw [hs, Option.map_eq_some_iff] at hq
  obtain ⟨t, ht, rfl⟩ := hq
  exact ⟨t, ht, hf q t ht hb⟩

theorem modifyTask {f : Task → Task} (hf : ∀ t, s.tasks p = some t → (f t).taskStatus = .notRunnable →
    t.taskStatus = .notRunnable ∧ SameCall t (f t)) : Still s (s.modifyTask p f) := by
  refine ⟨fun q t' hq hb => ?_, fun _ => .inl⟩
  rw [modifyTask_tasks] at hq
  split at hq
  · rename_i e
    subst e
    obtain ⟨t, ht, rfl⟩ := Option.map_eq_some_iff.1 hq
    exact ⟨t, ht, hf t ht hb⟩
  · exact ⟨t', hq, hb, .refl t'⟩

theorem delNode (s : Sched) (p : Nat) : Still s (s.delNode p) :=
  of_map (f := fun _ t => { t with taskZombies := t.taskZombies.erase p }) (fun _ => rfl) rfl
    (fun _ t _ hb => ⟨hb, .refl t⟩)

theorem delChild (s : Sched) (p : Nat) : Still s (s.delChild p) :=
  of_map (f := fun _ t => { t with taskChildren := t.taskChildren.erase p }) (fun _ => rfl) rfl
    (fun _ t _ hb => ⟨hb, .refl t⟩)

theorem orphan (s : Sched) (c : Nat) : Still s (s.orphan c) :=
  (delChild s c).trans (modifyTask fun t _ hb => ⟨hb, .refl t⟩)

theorem foldl {f : Sched → Nat → Sched} (hf : ∀ s c, Still s (f s c)) (l : List Nat) (s : Sched) : Still s (l.foldl f s) := by
  induction l generalizing s with
  | nil => exact refl s
  | cons c l ih => exact (hf s c).trans (ih (f s c))

theorem remove (s : Sched) (p n : Nat) : Still s { s with tasks := Function.update s.tasks p none, nuserTasks := n } := by
  refine ⟨fun q t' hq hb => ?_, fun _ => .inl⟩
  by_cases hqp : q = p
  · simp [hqp] at hq
  · exact ⟨t', by simpa [hqp] using hq, hb, .refl t'⟩

theorem freeRest (n : Nat) (s : Sched) (p : Nat) : Still s (s.freeRest n p) := by
  induction n generalizing s p with
  | zero => exact refl s
  | succ n ih =>
    unfold Sched.freeRest
    cases s.tasks p with
    | none => exact refl s
    | some t =>
      refine (foldl orphan t.taskChildren s).trans ((foldl (fun s z => ?_) t.taskZombies _).trans
        ((delNode _ p).trans (remove _ p _)))
      refine (delNode s z).trans ((modifyTask fun _ _ hb => ?_).trans (ih _ z))
      cases hb

theorem awake_taskRun (s : Sched) (p : Nat) : Awake (s.taskRun p) p := by
  intro t ht hb
  have ht : (s.modifyTask p fun t => { t with taskStatus := .running }).tasks p = some t := ht
  rw [modifyTask_tasks, if_pos rfl, Option.map_eq_some_iff] at ht
  obtain ⟨_, _, rfl⟩ := ht
  cases hb

theorem taskRun (s : Sched) (p : Nat) : Still s (s.taskRun p) := by
  have hm : Still s (s.modifyTask p fun t => { t with taskStatus := .running }) := modifyTask fun _ _ hb => by cases hb
  refine ⟨hm.tasks, fun q hq => .inr ?_⟩
  cases hq
  exact awake_taskRun s p

theorem putBack (s : Sched) : Still s s.putBack := by
  unfold Sched.putBack
  split
  · exact refl s
  · split
    · split
      · rename_i p _ _ _ _ _
        refine (modifyTask (p := p) (f := fun t => { t with taskStatus := .runnable }) fun _ _ hb => ?_).trans
          (of_tasks rfl (.inr rfl))
        cases hb
      · exact refl s
    · exact refl s

theorem pickNext (s : Sched) : Still s s.pickNext := by
  unfold Sched.pickNext
  split
  · exact (taskRun _ _).of_queues rfl (.inl rfl)
  · split
    · exact (taskRun _ _).of_queues rfl (.inl rfl)
    · exact of_tasks rfl (.inl rfl)

theorem schedYield (s : Sched) : Still s s.schedYield := by
  unfold Sched.schedYield
  dsimp only
  split
  · exact putBack s
  · exact (putBack s).trans (pickNext _)

/-- A store that fails resumes the current task; one that goes through is followed by the rest of the work. -/
theorem storeStatus {s0 : Sched} {space : Nat} {rstatus : Option Nat} {k : Except KernelExit Sched} (h : Still s0 s)
    (hk : outcome k = some s' → Still s0 s')
    (ho : outcome ((Sched.storeStatus mem s space rstatus).bind fun _ => k) = some s') : Still s0 s' := by
  cases hst : Sched.storeStatus mem s space rstatus with
  | ok u =>
    rw [hst] at ho
    exact hk ho
  | error e =>
    rw [hst] at ho
    cases e with
    | fatal => cases ho
    | resumed r =>
      cases ho
      unfold Sched.storeStatus at hst
      split at hst
      · cases hst
      · split at hst <;> cases hst
        exact h.trans (taskRun s _)

theorem taskFree (ho : outcome (Sched.taskFree mem s p) = some s') : Still s s' := by
  unfold Sched.taskFree at ho
  split at ho
  · cases ho
    exact refl s
  · have hd : Still s (s.modifyTask p (fun t => { t with taskStatus := .dying })) :=
      modifyTask fun _ _ hb => by cases hb
    generalize s.modifyTask p (fun t => { t with taskStatus := .dying }) = d at ho hd
    dsimp only at ho
    split at ho
    · cases ho
      exact hd.trans (freeRest _ _ _)
    · split at ho
      · refine storeStatus hd (fun ho => ?_) ho
        cases ho
        refine hd.trans ((modifyTask fun _ _ hb => ?_).trans ((delChild _ p).trans ((freeRest _ _ _).of_queues rfl (.inl rfl))))
        cases hb
      · split at ho <;> cases ho
        · exact hd.trans ((delNode _ p).trans ((delChild _ p).trans (modifyTask fun t _ hb => ⟨hb, .refl t⟩)))
        · exact hd.trans (freeRest _ _ _)

theorem taskDestroy (ho : outcome (Sched.taskDestroy mem s p) = some s') : Still s s' := by
  unfold Sched.taskDestroy at ho
  cases hf : Sched.taskFree mem s p with
  | ok r =>
    rw [hf] at ho
    have hr : Still s r := taskFree (by rw [hf]; rfl)
    have hy : Still r { r with curTask := none }.schedYield :=
      (schedYield { r with curTask := none }).of_queues rfl (.inr rfl)
    cases ho
    exact hr.trans hy
  | error e =>
    rw [hf] at ho
    exact taskFree (by rw [hf]; exact ho)

theorem die (ho : outcome (Sched.die mem s p) = some s') : Still s s' := by
  unfold Sched.die at ho
  split at ho
  · cases ho
    exact refl s
  · exact (taskDestroy ho).of_queues rfl (.inl rfl)

theorem reap {z : Nat} (ho : outcome (Sched.reap mem s p z) = some s') : Still s s' := by
  unfold Sched.reap at ho
  split at ho
  · exact (delNode s z).trans ((taskFree ho).of_queues rfl (.inl rfl))
  · cases ho
    exact refl s

theorem addTask (s : Sched) (type : TaskType) (ppid pid : Nat) : Still s (s.addTask type ppid pid) := by
  refine ⟨fun q t' hq hb => ?_, fun _ => .inl⟩
  by_cases hqp : q = pid
  · subst hqp
    have e : (s.addTask type ppid q).tasks q = some (newTask type ppid s.births) := Function.update_self ..
    rw [e] at hq
    cases hq
    cases hb
  · have e : (s.addTask type ppid pid).tasks q = s.tasks q := Function.update_of_ne hqp ..
    exact ⟨t', e ▸ hq, hb, .refl t'⟩

theorem sysFork (s : Sched) (p : Nat) (enough : Bool) : Still s (s.sysFork p enough).2 := by
  unfold Sched.sysFork
  split
  · rename_i t pid _ _
    split
    · have hc : Still (s.addTask .user p pid)
          ((s.addTask .user p pid).modifyTask p (fun t => { t with taskChildren := pid :: t.taskChildren })) :=
        modifyTask fun t _ hb => ⟨hb, .refl t⟩
      exact (addTask s .user p pid).trans (hc.trans (of_tasks rfl (.inl rfl)))
    · exact refl s
  · exact refl s

end Still

/-- The frame of a task is that of a call that waits for `taskWait`. -/
def CallFrame (t : Task) : Prop :=
  (t.rax = SYS_wait ∧ t.taskWait = none) ∨ (t.rax = SYS_waitpid ∧ (t.rdi = -1 ∨ t.rdi = 0) ∧ t.taskWait = none) ∨
  (t.rax = SYS_waitpid ∧ 0 < t.rdi ∧ t.taskWait = some t.rdi.toNat)

/-- Every blocked task waits for what its call says. -/
def Frames (s : Sched) : Prop := ∀ q t, s.tasks q = some t → t.taskStatus = .notRunnable → CallFrame t

namespace Frames

variable {t : Task}

theorem still (h : Frames s) (hs : Still s s') : Frames s' := by
  intro q t' hq hb
  obtain ⟨t, ht, hbt, e1, e2, e3, _⟩ := hs.tasks q t' hq hb
  have := h q t ht hbt
  unfold CallFrame at this ⊢
  rwa [e1, e2, e3]

section

variable (h : Frames s) (hi : SchedInv W s ∅ (some p))

include h hi

/-- A write to the record of the current task, which goes on running. -/
theorem modifyCur {f : Task → Task} (hf : ∀ t, (f t).taskStatus = t.taskStatus) : Frames (s.modifyTask p f) := by
  obtain ⟨t, ht, hrun⟩ := (hi.cur p).1 rfl
  refine h.still (Still.modifyTask fun t' ht' hb => ?_)
  cases ht.symm.trans ht'
  rw [hf, hrun] at hb
  cases hb

theorem enter (a b : Int) : Frames (s.enter p a b) := h.modifyCur hi fun _ => rfl

theorem leave (v : Int) : Frames (Sched.leave p (some v, s)) :=
  h.modifyCur hi fun _ => rfl

end

theorem block {wait : Option Nat} (h : Frames s) (hp : s.tasks p = some t) (rstatus : Option Nat)
    (hf : CallFrame { t with taskWait := wait }) : Frames (s.block p wait rstatus) := by
  refine Frames.still (s := s.modifyTask p (fun t =>
    { t with taskWait := wait, taskStatus := .notRunnable, taskWaitExitStatus := rstatus })) (fun q t' hq hb => ?_)
    ((Still.schedYield { s.modifyTask p _ with curTask := none }).of_queues rfl (.inr rfl))
  rw [modifyTask_tasks] at hq
  split at hq
  · rename_i e
    subst e
    rw [hp] at hq
    cases hq
    exact hf
  · exact h q t' hq hb

theorem reap {z : Nat} (h : Frames s) (hi : SchedInv W s ∅ (some p)) (hc : s.curTask = some p) (hp : s.tasks p = some t)
    (hz : z ∈ t.taskZombies) (hr : Sched.reap mem s p z = .ok s') (v : Int) : Frames (Sched.leave p (some v, s')) := by
  obtain ⟨s1, tz, hr', _, hi', _⟩ := reap_spec hi hc hp hz mem
  rw [hr, Except.ok.injEq] at hr'
  subst hr'
  exact (h.still (Still.reap (congrArg outcome hr))).leave hi' v

end Frames

/-- A call that reaps only zombies, and blocks only for what its frame says. -/
theorem WaitPath.run_frames {x : WaitPath} {t : Task} (h : Frames s) (hi : SchedInv W s ∅ (some p)) (hc : s.curTask = some p)
    (hp : s.tasks p = some t) (rstatus : Option Nat) (hx : x.Sound W False t)
    (hb : ∀ wait, x = .blocks wait → CallFrame { t with taskWait := wait })
    (ho : outcome ((x.run mem s p rstatus).map (leave p)) = some s') : Frames s' := by
  cases x with
  | absent => exact hx.elim
  | answers v =>
    cases ho
    exact h.leave hi v
  | reaps z =>
    obtain ⟨s1, _, hr, _⟩ := reap_spec hi hc hp hx mem
    simp only [run] at ho
    rcases storeStatus_cases mem s p rstatus hc with hst | ⟨va, _, _, hst | hst⟩
    · rw [hst, hr] at ho
      cases ho
      exact h.reap hi hc hp hx hr _
    · rw [hst] at ho
      cases ho
      exact h.still (Still.taskRun s p)
    · rw [hst] at ho
      cases ho
  | blocks wait =>
    cases ho
    exact h.block hp rstatus (hb wait rfl)
  | fatal => cases ho

theorem waitPath_blocks {t : Task} {wait : Option Nat} (hp : s.tasks p = some t) (h : waitPath s p = .blocks wait) : wait = none := by
  rcases waitPath_cases hp with ⟨_, _, he⟩ | ⟨z, rest, hz, he⟩ | ⟨_, hz, he⟩ <;> cases he.symm.trans h
  rfl

/-- An action leaves every blocked task in a call that waits for what its frame says. -/
theorem act_frames (h : Frames s) (hi : SchedInv W s ∅ (some p)) (hc : s.curTask = some p) (a : TaskAction)
    (hw : WaitpidOk s p a) (ho : outcome (act mem s p a) = some s') : Frames s' := by
  have hdie : ∀ {e : Sched}, Frames e → outcome (die mem e p) = some s' → Frames s' :=
    fun he ho => he.still (Still.die ho)
  cases a with
  | fork enough =>
    cases ho
    obtain ⟨t, _, _, he, hec, _⟩ := enter_spec hi hc SYS_fork 0
    exact ((h.enter hi _ _).still (Still.sysFork _ p enough)).leave (sysFork_spec he hec enough).1 _
  | exit rcode =>
    refine hdie ((h.enter hi SYS_exit rcode).still (Still.modifyTask fun _ _ hb => ?_)) ho
    cases hb
  | fault => exact hdie h ho
  | wait rstatus =>
    obtain ⟨t, _, het, he, hec, _⟩ := enter_spec hi hc SYS_wait (ptrArg rstatus)
    have ho : outcome ((sysWait mem (s.enter p SYS_wait (ptrArg rstatus)) p rstatus).map (Sched.leave p)) = some s' := ho
    rw [sysWait_eq] at ho
    exact WaitPath.run_frames (h.enter hi _ _) he hec het rstatus (waitPath_sound het)
      (fun wait hb => .inl ⟨rfl, waitPath_blocks het hb⟩) ho
  | waitpid pid rstatus =>
    obtain ⟨t, ht, het, he, hec, _⟩ := enter_spec hi hc SYS_waitpid pid
    have ho : outcome ((sysWaitpid mem (s.enter p SYS_waitpid pid) p pid rstatus).map (Sched.leave p)) = some s' := ho
    rw [sysWaitpid_eq] at ho
    refine WaitPath.run_frames (h.enter hi _ _) he hec het rstatus (waitpidPath_sound he het (fun _ hpos => hw hpos t ht) False.elim)
      (fun wait hb => .inr ?_) ho
    rcases waitpidPath_cases het pid with hb' | ⟨hany, hb'⟩ | ⟨_, hb'⟩ | ⟨_, hb'⟩ | ⟨hpos, hz, _, hb'⟩ <;> rw [hb] at hb'
    · cases hb'
    · exact .inl ⟨rfl, hany, waitPath_blocks het hb'.symm⟩
    · cases hb'
    · cases hb'
    · rw [(show t.taskZombies = [] from (hw hpos t ht).resolve_right hz)] at hb'
      cases hb'
      exact .inr ⟨rfl, hpos, rfl⟩
  | yield =>
    cases ho
    exact (h.enter hi _ _).still (Still.schedYield _)

end Sched

end OpenLsd
