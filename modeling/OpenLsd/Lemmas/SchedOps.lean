import OpenLsd.Lemmas.SchedTrace

/-!
# What the task operations do

One specification for each action of the current task: the invariant of the scheduler holds afterwards whatever the user's
memory looks like, and what the trace says stays true when the stores of exit statuses go through.
-/

namespace OpenLsd

namespace Sched

open TaskEvent

variable {W c : Prop} {mem : UserMem} {s s' e : Sched} {p r z : Nat} {t tq : Task} {cur : Option Nat} {new : List Nat} {f : Task → Task}
  {hand : Set Nat} {v a b : Int}

/-- The task `p` is dying. -/
def markDying (s : Sched) (p : Nat) : Sched := s.modifyTask p (fun t => { t with taskStatus := .dying })

/-- The state in which `task_free` has woken the parent of `p`. -/
def wakeParent (s : Sched) (p : Nat) (t tq : Task) : Sched :=
  let s := (s.markDying p).modifyTask t.taskPpid (fun q => { q with rax := p, taskStatus := .runnable })
  let s := s.delChild p
  { s with
    runq := s.runq ++ [t.taskPpid]
    trace := reported tq.birth t.birth p t.taskExitStatus :: s.trace }

/-- The state in which `p` is a zombie of its parent. -/
def becomeZombie (s : Sched) (p : Nat) (t : Task) : Sched :=
  (((s.markDying p).delNode p).delChild p).modifyTask t.taskPpid (fun q => { q with taskZombies := q.taskZombies ++ [p] })

theorem taskFree_orphan (hp : s.tasks p = some t) (hpp : t.taskPpid = 0) :
    taskFree mem s p = .ok ((s.markDying p).freeRest s.births p) := by
  simp only [taskFree, hp, hpp, if_true]
  rfl

theorem taskFree_child (hp : s.tasks p = some t) (hpp : t.taskPpid ≠ 0) (hne : t.taskPpid ≠ p)
    (hq : s.tasks t.taskPpid = some tq) :
    taskFree mem s p =
      if waitsFor tq p then
        (storeStatus mem (s.markDying p) t.taskPpid tq.taskWaitExitStatus).map
          (fun _ => (s.wakeParent p t tq).freeRest s.births p)
      else if s.curTask = some p then .ok (s.becomeZombie p t)
      else .ok ((s.markDying p).freeRest s.births p) := by
  have hq' : (s.modifyTask p (fun t => { t with taskStatus := .dying })).tasks t.taskPpid = some tq := by
    rw [modifyTask_of_ne _ _ _ _ hne, hq]
  simp only [taskFree, hp, if_neg hpp, hq']
  split
  · rw [markDying]
    cases storeStatus mem (s.modifyTask p (fun t => { t with taskStatus := .dying })) t.taskPpid tq.taskWaitExitStatus <;> rfl
  · by_cases hc : s.curTask = some p <;> simp only [modifyTask_curTask, hc, if_true, if_false] <;> rfl

/-- The pre-state of a death: the current task `p`, whose record has become `t1`, with its status and exit status set. -/
structure Dying (s s1 : Sched) (p : Nat) (t t1 : Task) : Prop where
  cur : s1.curTask = some p
  tasks : ∀ q, s1.tasks q = if q = p then some t1 else s.tasks q
  record : t1 = { t with taskStatus := t1.taskStatus, taskExitStatus := t1.taskExitStatus }
  runq : s1.runq = s.runq
  nextq : s1.nextq = s.nextq
  births : s1.births = s.births
  trace : s1.trace = exited t.birth p t1.taskExitStatus :: s.trace

/-- Tasks are new, with a pid that there is, or were there before, and those that were dying are still dying, except
for `p`. -/
structure Buried (p : Nat) (s s' : Sched) : Prop where
  births : s.births ≤ s'.births
  tasks : ∀ q t', s'.tasks q = some t' → (s.births ≤ t'.birth ∧ q < pidMax) ∨
    ∃ t, s.tasks q = some t ∧ t'.birth = t.birth ∧ (q ≠ p → t.taskStatus = .dying → t'.taskStatus = .dying)

theorem Buried.trans {s'' : Sched} (h : Buried p s s') (h' : Buried p s' s'') : Buried p s s'' := by
  refine ⟨h.births.trans h'.births, fun q t'' hq => ?_⟩
  rcases h'.tasks q t'' hq with hb' | ⟨t', ht', hb', hd'⟩
  · exact .inl ⟨h.births.trans hb'.1, hb'.2⟩
  · rcases h.tasks q t' ht' with hb | ⟨t, ht, hb, hd⟩
    · exact .inl (by rw [hb']; exact hb)
    · exact .inr ⟨t, ht, hb'.trans hb, fun hne h => hd' hne (hd hne h)⟩

theorem Kept.buried {E : Set Nat} (h : Kept s s' E) (p : Nat) : Buried p s s' := by
  refine ⟨le_of_eq h.births.symm, fun q t' hq => .inr ?_⟩
  obtain ⟨t, ht, e, _⟩ := h.back q t' hq
  exact ⟨t, ht, by rw [e], fun _ hd => by rw [e]; exact hd⟩

theorem SameFamily.buried (h : SameFamily s s') (p : Nat) : Buried p s s' := by
  refine ⟨le_of_eq h.1.symm, fun q t' hq => .inr ?_⟩
  obtain ⟨t, ht, e⟩ := some_of_map_eq (h.2 q) hq
  obtain ⟨_, _, _, hb, hd, _⟩ := family_eq.1 e
  exact ⟨t, ht, hb, fun _ => hd.2⟩

/-- A write to the record of `p` that leaves its number. -/
theorem Buried.modifyTask (s : Sched) (p : Nat) (hf : ∀ t, (f t).birth = t.birth) : Buried p s (s.modifyTask p f) := by
  refine ⟨le_rfl, fun q t' hq => .inr ?_⟩
  rw [modifyTask_tasks] at hq
  split at hq
  · rename_i hqp
    obtain ⟨t, ht, rfl⟩ := Option.map_eq_some_iff.1 hq
    exact ⟨t, ht, hf t, fun hne => absurd hqp hne⟩
  · exact ⟨t', hq, rfl, fun _ => id⟩

/-- Writes to the records of `p` and of another task that leave their numbers, and the other one dead if it was. -/
theorem Buried.of_two {t' tq' : Task} (hb : s'.births = s.births) (hp : s.tasks p = some t) (hq : s.tasks r = some tq)
    (key : ∀ q, s'.tasks q = if q = p then some t' else if q = r then some tq' else s.tasks q) (ht : t'.birth = t.birth)
    (htq : tq'.birth = tq.birth ∧ (tq.taskStatus = .dying → tq'.taskStatus = .dying)) : Buried p s s' := by
  refine ⟨le_of_eq hb.symm, fun q x hx => .inr ?_⟩
  rw [key] at hx
  split at hx
  · rename_i hqp
    cases hx
    exact ⟨t, hqp ▸ hp, ht, fun hne => absurd hqp hne⟩
  · split at hx
    · rename_i hqr
      cases hx
      exact ⟨tq, hqr ▸ hq, htq.1, fun _ => htq.2⟩
    · exact ⟨x, hx, rfl, fun _ => id⟩

theorem Buried.uncur (h : Buried p s s') : Buried p s { s' with curTask := cur } := ⟨h.births, h.tasks⟩

theorem Buried.taskRun (s : Sched) (p : Nat) : Buried p s (s.taskRun p) :=
  (Buried.modifyTask s p (f := fun t => { t with taskStatus := .running }) fun _ => rfl).uncur

theorem Buried.enter (s : Sched) (p : Nat) (a b : Int) : Buried p s (s.enter p a b) :=
  Buried.modifyTask s p (f := fun t => { t with rax := a, rdi := b }) fun _ => rfl

/-- The task runs, or can run. -/
def Live (t : Task) : Prop := t.taskStatus = .running ∨ t.taskStatus = .runnable

/-- If the task `q` runs or can run, it is still there, with the result of its last call. -/
def Spared (q : Nat) (s s' : Sched) : Prop :=
  ∀ t, s.tasks q = some t → Live t → ∃ t', s'.tasks q = some t' ∧ Live t' ∧ t'.birth = t.birth ∧ t'.rax = t.rax

namespace Spared

variable {q : Nat}

theorem of_eq (h : s'.tasks q = s.tasks q) : Spared q s s' := fun t ht hl => ⟨t, h.trans ht, hl, rfl, rfl⟩

theorem trans {s'' : Sched} (h : Spared q s s') (h' : Spared q s' s'') : Spared q s s'' := by
  intro t ht hl
  obtain ⟨t1, ht1, hl1, hb1, hr1⟩ := h t ht hl
  obtain ⟨t2, ht2, hl2, hb2, hr2⟩ := h' t1 ht1 hl1
  exact ⟨t2, ht2, hl2, hb2.trans hb1, hr2.trans hr1⟩

theorem modifyTask (s : Sched) (hf : ∀ t, Live t → Live (f t) ∧ (f t).birth = t.birth ∧ (f t).rax = t.rax) :
    Spared q s (s.modifyTask p f) := by
  intro t ht hl
  rw [modifyTask_tasks]
  split
  · exact ⟨f t, by rw [ht]; rfl, hf t hl⟩
  · exact ⟨t, ht, hl, rfl, rfl⟩

theorem modify_other (hq : q ≠ p) (f : Task → Task) : Spared q s (s.modifyTask p f) := of_eq (modifyTask_of_ne _ _ _ _ hq)

theorem of_kept {E : Set Nat} (h : Kept s s' E) : Spared q s s' := by
  intro t ht hl
  obtain ⟨t', ht'⟩ := h.live q t ht (by rcases hl with hl | hl <;> rw [hl] <;> decide)
  obtain ⟨t0, ht0, he, -⟩ := h.back q t' ht'
  cases ht.symm.trans ht0
  exact ⟨t', ht', by rw [he]; exact hl, by rw [he], by rw [he]⟩

/-- A write to a second record that leaves the task as it is, or finds it blocked or dying. -/
theorem of_two {t' tq' : Task} (hr : s.tasks r = some tq)
    (key : ∀ q, s'.tasks q = if q = p then some t' else if q = r then some tq' else s.tasks q)
    (h : Live tq → Live tq' ∧ tq'.birth = tq.birth ∧ tq'.rax = tq.rax) (hq : q ≠ p) : Spared q s s' := by
  intro t ht hl
  rw [key, if_neg hq]
  split
  · rename_i hqr
    cases hr.symm.trans (hqr ▸ ht)
    exact ⟨tq', rfl, h hl⟩
  · exact ⟨t, ht, hl, rfl, rfl⟩

/-- Choosing the next task only changes statuses. -/
theorem schedYield (s : Sched) : Spared q s s.schedYield := by
  have hrun : ∀ s p, Spared q s (Sched.taskRun s p) := fun s p => modifyTask s fun t _ => ⟨.inl rfl, rfl, rfl⟩
  have hback : Spared q s s.putBack := by
    unfold putBack
    split
    · exact of_eq rfl
    · split
      · split
        · exact modifyTask s (f := fun t => { t with taskStatus := .runnable }) fun t _ => ⟨.inr rfl, rfl, rfl⟩
        · exact of_eq rfl
      · exact of_eq rfl
  have hpick : ∀ s, Spared q s (Sched.pickNext s) := by
    intro s
    unfold pickNext
    split
    · exact hrun _ _
    · split
      · exact hrun _ _
      · exact of_eq rfl
  unfold Sched.schedYield
  dsimp only
  split
  · exact hback
  · exact hback.trans (hpick _)

end Spared

/-- What the kernel's work on the task `p` does to the others before another task is chosen: tasks that were blocked, or are
new, join the run queue, the dead stay dead, and those that can run keep their results. -/
structure Moved (p : Nat) (s s' : Sched) (new : List Nat) : Prop where
  runq : s'.runq = s.runq ++ new
  nextq : s'.nextq = s.nextq
  new : ∀ x ∈ new, ∀ t, s.tasks x = some t → t.taskStatus = .notRunnable
  buried : Buried p s s'
  spared : ∀ q, q ≠ p → Spared q s s'

/-- How an action of the current task `p` ends: `p` runs on, `p` is blocked or dead and another task is chosen, or `p` gives
up its turn. -/
inductive Ended (s : Sched) (p : Nat) : Sched → Prop
  | stays {s' : Sched} {new : List Nat} (hc : s'.curTask = some p) (hm : Moved p s s' new) : Ended s p s'
  | leaves {e : Sched} {new : List Nat} (hi : SchedInv False e ∅ none) (hc : e.curTask = none) (hm : Moved p s e new) :
    Ended s p e.schedYield
  | yields {e : Sched} (hi : SchedInv False e ∅ (some p)) (hc : e.curTask = some p) (hm : Moved p s e []) :
    Ended s p e.schedYield

theorem Ended.spared {q : Nat} (h : Ended s p s') (hq : q ≠ p) : Spared q s s' := by
  cases h with
  | stays _ hm => exact hm.spared q hq
  | leaves _ _ hm | yields _ _ hm => exact (hm.spared q hq).trans (.schedYield _)

/-- Only the parent has the task among its children. -/
theorem SchedInv.child_only (h : SchedInv W s ∅ cur) (hp : s.tasks p = some t) (s2 : Sched)
    (hs2 : ∀ q tq2, s2.tasks q = some tq2 → ∃ tq, s.tasks q = some tq ∧ tq2.taskChildren = tq.taskChildren) :
    ∀ q tq, s2.tasks q = some tq → p ∈ tq.taskChildren → q = t.taskPpid := by
  intro q tq hq hc
  obtain ⟨tq0, hq0, e⟩ := hs2 q tq hq
  rw [e] at hc
  obtain ⟨t', ht', hpp, _⟩ := (h.links.child q tq0 p hq0).1 hc
  cases hp.symm.trans ht'
  rw [hpp]

theorem name_second {e g : Nat → Option Task} {a b : Task} (hr : g r = some b) (key : ∀ q, e q = if q = p then some a else g q)
    (q : Nat) : e q = if q = p then some a else if q = r then some b else g q := by
  rw [key]
  by_cases hqr : q = r
  · rw [if_pos hqr, hqr, hr]
  · rw [if_neg hqr]

/-- A write to the second of two records that differ from `g`. -/
theorem modify_second {g : Nat → Option Task} {a b : Task} (hne : r ≠ p)
    (key : ∀ q, e.tasks q = if q = p then some a else if q = r then some b else g q) (f : Task → Task) (q : Nat) :
    (e.modifyTask r f).tasks q = if q = p then some a else if q = r then some (f b) else g q := by
  rw [modifyTask_tasks, key]
  by_cases hqp : q = p
  · simp [hqp, hne.symm]
  · by_cases hqr : q = r <;> simp [hqr, hne, hqp]

/-- Where two records differ, the second in nothing that the trace reads, all tasks but the first are as before. -/
theorem kin_second {a b : Task} (hr : s.tasks r = some tq)
    (key : ∀ q, s'.tasks q = if q = p then some a else if q = r then some b else s.tasks q) (hk : kin b = kin tq) (q : Nat) (hq : q ≠ p) :
    (s'.tasks q).map kin = (s.tasks q).map kin := by
  rw [key, if_neg hq]
  split
  · rename_i hqr
    rw [hqr, hr, Option.map_some, Option.map_some, hk]
  · rfl

/-- What the end of the task `p` with a status tells its parent: nothing, or the parent can run, with the pid as its result. -/
def Tells (s s' : Sched) (p : Nat) (t : Task) (status : Int) : Prop :=
  s'.trace = exited t.birth p status :: s.trace ∨
  ∃ tq tq', s.tasks t.taskPpid = some tq ∧ waitsFor tq p ∧ s'.tasks t.taskPpid = some tq' ∧ Live tq' ∧ tq'.birth = tq.birth ∧
    tq'.rax = p ∧ s'.trace = reported tq.birth t.birth p status :: exited t.birth p status :: s.trace

theorem Tells.schedYield {status : Int} (h : Tells s e p t status) (htr : e.schedYield.trace = e.trace) :
    Tells s e.schedYield p t status := by
  rcases h with h | ⟨tq, tq', hq, hw, hq', hl, hb, hr, htr'⟩
  · exact .inl (htr.trans h)
  · obtain ⟨tq'', h1, h2, h3, h4⟩ := Spared.schedYield e tq' hq' hl
    exact .inr ⟨tq, tq'', hq, hw, h1, h2, h3.trans hb, h4.trans hr, htr.trans htr'⟩

namespace Dying

variable {s1 : Sched} {t1 : Task}

theorem markDying_tasks (hD : Dying s s1 p t t1) (q : Nat) :
    (s1.markDying p).tasks q = if q = p then some { t1 with taskStatus := .dying } else s.tasks q := by
  rw [markDying, modifyTask_tasks, hD.tasks]
  by_cases hq : q = p <;> simp [hq]

variable (hD : Dying s s1 p t t1) (h : SchedInv W s ∅ (some p)) (hp : s.tasks p = some t)

include hD h hp

theorem wakeParent_tasks (hq : s.tasks t.taskPpid = some tq) (hne : t.taskPpid ≠ p) :
    ∀ q, (s1.wakeParent p t1 tq).tasks q = if q = p then some { t1 with taskStatus := .dying }
      else if q = t.taskPpid then
        some { tq with rax := p, taskStatus := .runnable, taskChildren := tq.taskChildren.erase p }
      else s.tasks q := by
  have hpp : t1.taskPpid = t.taskPpid := by rw [hD.record]
  rw [← hpp] at hq hne ⊢
  have key := modify_second hne (name_second hq hD.markDying_tasks) (fun q => { q with rax := p, taskStatus := .runnable })
  have honly := h.child_only hp _ (fun q tq2 hq2 => by
    rw [key] at hq2
    have := hD.record
    grind)
  rw [← hpp] at honly
  simp only [wakeParent]
  rw [delChild_eq honly]
  exact modify_second hne key _

theorem becomeZombie_tasks (hq : s.tasks t.taskPpid = some tq) (hne : t.taskPpid ≠ p) :
    (∀ q, (s1.becomeZombie p t1).tasks q = if q = p then some { t1 with taskStatus := .dying }
      else if q = t.taskPpid then
        some { tq with taskChildren := tq.taskChildren.erase p, taskZombies := tq.taskZombies ++ [p] }
      else s.tasks q) ∧ (s1.becomeZombie p t1).runq = s.runq ∧ (s1.becomeZombie p t1).nextq = s.nextq := by
  have hpp : t1.taskPpid = t.taskPpid := by rw [hD.record]
  obtain ⟨t0, ht0, hrun⟩ := (h.cur p).1 rfl
  have hnotq : p ∉ s.runq ∧ p ∉ s.nextq := by
    have := h.queued p
    grind
  -- The current task is in no list of zombies, so taking its node out changes nothing.
  have hnoz : ∀ q tq, (s1.markDying p).tasks q = some tq → p ∈ tq.taskZombies → q = p := by
    intro q tq hq hz
    have := h.links.zombie q
    rw [hD.markDying_tasks] at hq
    grind
  have hdel := delNode_eq hnoz (by rw [markDying, modifyTask_runq, hD.runq]; exact hnotq.1)
    (by rw [markDying, modifyTask_nextq, hD.nextq]; exact hnotq.2)
  have key : ∀ q, ((s1.markDying p).delNode p).tasks q =
      if q = p then some { t1 with taskStatus := .dying } else s.tasks q := by
    intro q
    rw [hdel, modifyTask_tasks, hD.markDying_tasks]
    by_cases hqp : q = p
    · have hself : p ∉ t1.taskZombies := by
        have := h.links.zombie p t p hp
        have := hD.record
        grind
      simp [hqp, List.erase_of_not_mem hself]
    · simp [hqp]
  have honly := h.child_only hp _ (fun q tq2 hq2 => by
    rw [key] at hq2
    have := hD.record
    grind)
  refine ⟨?_, ?_, ?_⟩
  · rw [← hpp] at hq hne honly ⊢
    rw [becomeZombie, delChild_eq honly]
    exact modify_second hne (modify_second hne (name_second hq key) _) _
  · rw [becomeZombie, hdel]
    exact hD.runq
  · rw [becomeZombie, hdel]
    exact hD.nextq

/-- What `task_free` makes of the current task. When the store of the exit status faults, the task goes on. -/
theorem taskFree (mem : UserMem) :
    (∃ s', Sched.taskFree mem s1 p = .ok s' ∧ SchedInv W s' ∅ none ∧ (TraceInv s ∅ → TraceInv s' ∅) ∧
      Tells s s' p t t1.taskExitStatus ∧ ∃ new, Moved p s s' new) ∨
    (∃ tq va, s.tasks t.taskPpid = some tq ∧ waitsFor tq p ∧ tq.taskWaitExitStatus = some va ∧
      mem t.taskPpid va ≠ .stored ∧
      ((∃ s', Sched.taskFree mem s1 p = .error (.resumed s') ∧ SchedInv W s' ∅ s'.curTask ∧ s'.curTask = some p ∧
          Moved p s s' []) ∨
        Sched.taskFree mem s1 p = .error .fatal)) := by
  have hp1 : s1.tasks p = some t1 := by rw [hD.tasks, if_pos rfl]
  have hpp : t1.taskPpid = t.taskPpid := by rw [hD.record]
  have hbirth : t1.birth = t.birth := by rw [hD.record]
  have hrec : ({ t1 with taskStatus := .dying } : Task) =
      { t with taskStatus := .dying, taskExitStatus := ({ t1 with taskStatus := .dying } : Task).taskExitStatus } := by
    rw [hD.record]
  have hb : (s1.markDying p).births = s1.births := rfl
  have hmark : Buried p s (s1.markDying p) :=
    .of_two hD.births hp hp
      (fun q => (hD.markDying_tasks q).trans (by grind : _ = if q = p then some { t1 with taskStatus := .dying }
        else if q = p then some { t1 with taskStatus := .dying } else s.tasks q)) hbirth ⟨hbirth, fun _ => rfl⟩
  have hmarked : ∀ q, q ≠ p → Spared q s (s1.markDying p) := fun q hq => .of_eq ((hD.markDying_tasks q).trans (if_neg hq))
  by_cases h0 : t.taskPpid = 0
  · rw [taskFree_orphan hp1 (hpp.trans h0), ← hb]
    have hi : SchedInv W (s1.markDying p) {p} none := h.die_orphan hp hrec hD.births h0 hD.markDying_tasks hD.runq hD.nextq
    have hk := hi.freeRest_kept
    refine .inl ⟨_, rfl, hi.freeRest, fun ht => ?_, .inl (hk.trace.trans hD.trace), [], ?_⟩
    · refine TraceInv.freeRest (ht.die h hp hrec (fun x hx => ⟨hx, h0⟩) ?_ (fun q hq => ?_) hD.births hD.trace) hi
      · rw [hD.markDying_tasks, if_pos rfl]
      · rw [hD.markDying_tasks, if_neg hq]
    · refine ⟨?_, hk.nextq.trans hD.nextq, fun x hx => (by cases hx), hmark.trans (hk.buried p),
        fun q hq => (hmarked q hq).trans (.of_kept hk)⟩
      rw [hk.runq, List.append_nil]
      exact hD.runq
  · obtain ⟨tq, hq, hlt, hne⟩ := h.parent_of hp h0
    have hq1 : s1.tasks t1.taskPpid = some tq := by rw [hpp, hD.tasks, if_neg hne, hq]
    rw [taskFree_child hp1 (hpp ▸ h0) (hpp ▸ hne) hq1]
    by_cases hw : waitsFor tq p
    · rw [if_pos hw]
      have hi : SchedInv W (s1.wakeParent p t1 tq) {p} none :=
        h.die_handover hp hrec hD.births hq hw rfl (hD.wakeParent_tasks h hp hq hne)
          (by rw [← hpp, ← hD.runq]; rfl) hD.nextq
      have hdone : ∃ s', (Except.ok ((s1.wakeParent p t1 tq).freeRest s1.births p) : Except KernelExit Sched) = .ok s' ∧
          SchedInv W s' ∅ none ∧ (TraceInv s ∅ → TraceInv s' ∅) ∧ Tells s s' p t t1.taskExitStatus ∧
          ∃ new, Moved p s s' new := by
        have hk := hi.freeRest_kept
        have hq2 := hD.wakeParent_tasks h hp hq hne t.taskPpid
        rw [if_neg hne, if_pos rfl] at hq2
        obtain ⟨tq', htq', hlive, hbq, hrax⟩ := Spared.of_kept hk _ hq2 (.inr rfl)
        have htrace : (s1.wakeParent p t1 tq).trace =
            reported tq.birth t.birth p t1.taskExitStatus :: exited t.birth p t1.taskExitStatus :: s.trace := by
          rw [← hD.trace, ← hbirth]
          rfl
        have hspared := fun q hqp => Spared.of_two (q := q) hq (hD.wakeParent_tasks h hp hq hne)
          (fun hl => by rcases hl with hl | hl <;> cases hw.1.symm.trans hl) hqp
        have hwake : Buried p s (s1.wakeParent p t1 tq) :=
          .of_two hD.births hp hq (hD.wakeParent_tasks h hp hq hne) hbirth ⟨rfl, fun hd => by rw [hw.1] at hd; cases hd⟩
        refine ⟨_, rfl, hi.freeRest, fun ht => ?_,
          .inr ⟨tq, tq', hq, hw, htq', hlive, hbq, hrax, hk.trace.trans htrace⟩,
          [t.taskPpid], hk.runq.trans ?_, hk.nextq.trans hD.nextq, fun x hx tx hx' => ?_, hwake.trans (hk.buried p),
          fun q hqp => (hspared q hqp).trans (.of_kept hk)⟩
        rotate_left
        · rw [← hpp, ← hD.runq]
          rfl
        · cases hq.symm.trans (List.mem_singleton.1 hx ▸ hx')
          exact hw.1
        -- The death and the report, one after the other.
        have hp2 := hD.wakeParent_tasks h hp hq hne p
        rw [if_pos rfl] at hp2
        have hdead : TraceInv { s1.wakeParent p t1 tq with trace := s1.trace } ∅ :=
          ht.die h hp hrec (fun x hx => hx.elim) hp2
            (kin_second hq (hD.wakeParent_tasks h hp hq hne) (by simp [kin, hw.1])) hD.births hD.trace
        have hsame : SchedInv W { s1.wakeParent p t1 tq with trace := s1.trace } {p} none := hi.of_eq rfl rfl rfl rfl
        have hrep := hdead.report hsame.links hp2 rfl (hpp ▸ hq2)
        exact TraceInv.freeRest hrep hi
      cases hst : tq.taskWaitExitStatus with
      | none => exact .inl hdone
      | some va =>
        cases hm : mem t.taskPpid va with
        | stored =>
          simp only [storeStatus, hpp, hm]
          exact .inl hdone
        | resumed =>
          refine .inr ⟨tq, va, hq, hw, hst, by rw [hm]; decide, .inl ?_⟩
          have hc : (s1.markDying p).curTask = some p := hD.cur
          simp only [storeStatus, hpp, hm, hc]
          refine ⟨_, rfl, ?_, rfl, ?_, hD.nextq, fun x hx => (by cases hx),
            hmark.trans (.taskRun _ p), fun q hq => (hmarked q hq).trans (.modify_other hq _)⟩
          rotate_left
          · rw [List.append_nil]
            exact hD.runq
          show SchedInv W _ ∅ (some p)
          refine h.congr (fun q => ?_) hD.runq hD.nextq hD.births
          obtain ⟨t0, ht0, hrun⟩ := (h.cur p).1 rfl
          rw [taskRun, modifyTask_tasks, hD.markDying_tasks]
          by_cases hqp : q = p
          · rw [hp, Option.some.injEq] at ht0
            subst hqp ht0
            rw [if_pos rfl, if_pos rfl, hp, hD.record]
            simp [SchedInv.view, hrun]
          · rw [if_neg hqp, if_neg hqp]
        | fatal =>
          refine .inr ⟨tq, va, hq, hw, hst, by rw [hm]; decide, .inr ?_⟩
          simp only [storeStatus, hpp, hm]
          rfl
    · rw [if_neg hw, if_pos hD.cur]
      obtain ⟨hkey, hr, hn⟩ := hD.becomeZombie_tasks h hp hq hne
      refine .inl ⟨_, rfl, h.die_zombie hp hrec hD.births hq hw rfl hkey hr hn, fun ht => ?_, .inl hD.trace, [], ?_, hn,
        fun x hx => (by cases hx), .of_two hD.births hp hq hkey hbirth ⟨rfl, id⟩,
        fun q hqp => .of_two hq hkey (fun hl => ⟨hl, rfl, rfl⟩) hqp⟩
      · exact ht.die h hp hrec (fun x hx => hx.elim) (by rw [hkey, if_pos rfl]) (kin_second hq hkey rfl) hD.births hD.trace
      · rw [hr, List.append_nil]

end Dying

/-- What an action leaves behind: the invariant, and the trace is still right. -/
structure Done (W : Prop) (s : Sched) (p : Nat) (s' : Sched) : Prop where
  inv : SchedInv W s' ∅ s'.curTask
  trace : TraceInv s ∅ → TraceInv s' ∅
  ended : Ended s p s'

theorem SchedInv.weaken (h : SchedInv W s hand cur) : SchedInv False s hand cur :=
  ⟨h.links, h.cur, h.queued, h.nodup, False.elim⟩

theorem Done.of_ended (h : SchedInv W e ∅ e.curTask) (ht : TraceInv s ∅ → TraceInv e ∅) (he : Ended s p e.schedYield) :
    Done W s p e.schedYield := by
  obtain ⟨h1, h2, h3⟩ := h.schedYield
  exact ⟨h1, fun hs => (ht hs).congr (SameKin.of_family h2) h3, he⟩

/-- The current task gives the CPU away. -/
theorem Done.leaves (h : SchedInv W e ∅ none) (hc : e.curTask = none)
    (ht : TraceInv s ∅ → TraceInv e ∅) (hm : Moved p s e new) : Done W s p e.schedYield :=
  .of_ended (hc.symm ▸ h) ht (.leaves h.weaken hc hm)

theorem Done.yields (h : SchedInv W e ∅ (some p)) (hc : e.curTask = some p)
    (ht : TraceInv s ∅ → TraceInv e ∅) (hm : Moved p s e []) : Done W s p e.schedYield :=
  .of_ended (hc.symm ▸ h) ht (.yields h.weaken hc hm)

/-- A parent that waits for `p` with a pointer through which the store does not go. -/
def StoreFails (mem : UserMem) (s : Sched) (t : Task) (p : Nat) : Prop :=
  ∃ tq va, s.tasks t.taskPpid = some tq ∧ waitsFor tq p ∧ tq.taskWaitExitStatus = some va ∧ mem t.taskPpid va ≠ .stored

/-- The current task is destroyed. -/
theorem Dying.taskDestroy {s1 : Sched} {t1 : Task} (hD : Dying s s1 p t t1) (h : SchedInv W s ∅ (some p))
    (hp : s.tasks p = some t) (mem : UserMem) :
    (∃ s', Sched.taskDestroy mem s1 p = .ok s' ∧ Tells s s' p t t1.taskExitStatus ∧ Done W s p s') ∨
    (StoreFails mem s t p ∧
      ((∃ s', Sched.taskDestroy mem s1 p = .error (.resumed s') ∧ SchedInv W s' ∅ s'.curTask ∧ Ended s p s') ∨
        Sched.taskDestroy mem s1 p = .error .fatal)) := by
  rcases hD.taskFree h hp mem with ⟨s', he, hi, ht, htell, new, hm⟩ | ⟨tq, va, h1, h2, h3, h4, ⟨s', he, hi, hc, hm⟩ | he⟩
  · have hi' : SchedInv W { s' with curTask := none } ∅ none := hi.of_eq rfl rfl rfl rfl
    refine .inl ⟨{ s' with curTask := none }.schedYield, ?_, Tells.schedYield (e := { s' with curTask := none }) htell hi'.schedYield.2.2, ?_⟩
    · simp only [Sched.taskDestroy, he]
      rfl
    · exact .leaves hi' rfl (fun hs => (ht hs).congr ⟨rfl, fun _ => rfl⟩ rfl)
        ⟨hm.runq, hm.nextq, hm.new, hm.buried.uncur, hm.spared⟩
  · refine .inr ⟨⟨tq, va, h1, h2, h3, h4⟩, .inl ⟨s', ?_, hi, .stays hc hm⟩⟩
    simp only [Sched.taskDestroy, he]
    rfl
  · refine .inr ⟨⟨tq, va, h1, h2, h3, h4⟩, .inr ?_⟩
    simp only [Sched.taskDestroy, he]
    rfl

/-- Reaping a zombie of the current task always succeeds, and reports it. -/
theorem reap_spec (h : SchedInv W s ∅ (some p)) (hc : s.curTask = some p) (hp : s.tasks p = some t)
    (hz : z ∈ t.taskZombies) (mem : UserMem) :
    ∃ s' tz, reap mem s p z = .ok s' ∧ s.tasks z = some tz ∧ SchedInv W s' ∅ (some p) ∧ s'.curTask = some p ∧
      (TraceInv s ∅ → TraceInv s' ∅) ∧ s'.trace = reported t.birth tz.birth z tz.taskExitStatus :: s.trace ∧
      (∀ q, Spared q s s') ∧ Moved p s s' [] := by
  obtain ⟨tz, htz, hpp, hd, _⟩ := (h.links.zombie p t z hp).1 hz
  obtain ⟨t0, ht0, hrun⟩ := (h.cur p).1 rfl
  cases hp.symm.trans ht0
  have hpz : p ≠ z := by
    rintro rfl
    cases hp.symm.trans htz
    cases hd.symm.trans hrun
  have hp0 := h.links.ne_zero hp
  let r : Sched := { s with trace := reported t.birth tz.birth z tz.taskExitStatus :: s.trace }
  have hr : SchedInv W r ∅ (some p) := h.of_eq rfl rfl rfl rfl
  have hi : SchedInv W ((r.delNode z).markDying z) {z} (some p) := (hr.take_zombie hp hz rfl).1
  have hz' : (r.delNode z).tasks z = some { tz with taskZombies := tz.taskZombies.erase z } := by
    show (s.tasks z).map _ = _
    rw [htz]
    rfl
  have hpd : (r.delNode z).tasks p = some { t with taskZombies := t.taskZombies.erase z } := by
    show (s.tasks p).map _ = _
    rw [hp]
    rfl
  have hcalc : reap mem s p z = .ok (((r.delNode z).markDying z).freeRest s.births z) := by
    unfold reap
    rw [hp, htz]
    show Sched.taskFree mem (r.delNode z) z = _
    have hnw : ¬waitsFor { t with taskZombies := t.taskZombies.erase z } z := by simp [waitsFor, hrun]
    have hcz : ¬(r.delNode z).curTask = some z := by
      show ¬s.curTask = some z
      rw [hc]
      exact fun e => hpz (Option.some.inj e)
    rw [taskFree_child hz' (by rw [hpp]; exact hp0) (by rw [hpp]; exact hpz) (by rw [hpp]; exact hpd), if_neg hnw, if_neg hcz]
    rfl
  obtain ⟨tz', hzin, _⟩ := hi.links.inHand z rfl
  obtain ⟨_, hk, _⟩ := hi.links.freeRest (n := s.births) rfl hi.queues hzin (by show s.births ≤ _; omega)
  have hnotq : z ∉ s.runq ∧ z ∉ s.nextq := by
    have hqz := h.queued z
    grind
  have hdel : Buried p s ((r.delNode z).markDying z) := by
    refine ⟨le_rfl, fun q t' hq' => .inr ?_⟩
    rw [markDying, modifyTask_tasks, show (r.delNode z).tasks q =
      (s.tasks q).map fun t => { t with taskZombies := t.taskZombies.erase z } from rfl] at hq'
    cases hsq : s.tasks q with
    | none => simp [hsq] at hq'
    | some tq =>
      refine ⟨tq, rfl, ?_⟩
      rw [hsq] at hq'
      split at hq' <;> cases hq'
      · exact ⟨rfl, fun _ _ => rfl⟩
      · exact ⟨rfl, fun _ => id⟩
  have hspared : ∀ q, Spared q s ((r.delNode z).markDying z) := by
    intro q tx hx hl
    have hqz : q ≠ z := by
      rintro rfl
      cases hx.symm.trans htz
      rcases hl with hl | hl <;> cases hd.symm.trans hl
    refine ⟨{ tx with taskZombies := tx.taskZombies.erase z }, ?_, hl, rfl, rfl⟩
    rw [markDying, modifyTask_of_ne _ _ _ _ hqz]
    show (s.tasks q).map _ = _
    rw [hx]
    rfl
  refine ⟨_, tz, hcalc, htz, hi.freeRest, hk.curTask.trans hc, fun ht => ?_, hk.trace, fun q => (hspared q).trans (.of_kept hk),
    ?_, ?_, fun x hx => (by cases hx), hdel.trans (hk.buried p), fun q _ => (hspared q).trans (.of_kept hk)⟩
  rotate_left
  · rw [List.append_nil]
    exact hk.runq.trans (List.erase_of_not_mem hnotq.1)
  · exact hk.nextq.trans (List.erase_of_not_mem hnotq.2)
  have hrep := ht.report h.links htz hd (hpp ▸ hp)
  suffices hsame : SameKin r ((r.delNode z).markDying z) from TraceInv.freeRest (hrep.congr hsame rfl) hi
  refine ⟨rfl, fun q => ?_⟩
  rw [markDying, modifyTask_tasks]
  show (if q = z then ((s.tasks q).map _).map _ else (s.tasks q).map _).map kin = (s.tasks q).map kin
  by_cases hq : q = z
  · subst hq
    simp [htz, kin, hd]
  · cases hs : s.tasks q <;> simp [hq, kin]

/-! ## Actions -/

/-- The store of an exit status that the action makes, if it makes one, goes through; and a pid below `-1` is not used. -/
def StoreOk (mem : UserMem) (s : Sched) (p : Nat) : TaskAction → Prop
  | .exit _ | .fault => ∀ t, s.tasks p = some t → ¬StoreFails mem s t p
  | .wait rstatus => ∀ t va, s.tasks p = some t → t.taskZombies ≠ [] → rstatus = some va → mem p va = .stored
  | .waitpid pid rstatus =>
    -1 ≤ pid ∧ ∀ t va, s.tasks p = some t → t.taskZombies ≠ [] → rstatus = some va → mem p va = .stored
  | .fork _ | .yield => True

/-- A call of `sys_waitpid` finds the child among the zombies, or no zombies at all. -/
def WaitpidOk (s : Sched) (p : Nat) : TaskAction → Prop
  | .waitpid pid _ => 0 < pid → ∀ t, s.tasks p = some t → t.taskZombies = [] ∨ pid.toNat ∈ t.taskZombies
  | _ => True

/-- Saving registers in the frame changes nothing that the invariants read. -/
theorem regs (hf : ∀ t, ∃ a b, f t = { t with rax := a, rdi := b }) (h : SchedInv W s hand cur) :
    SchedInv W (s.modifyTask p f) hand cur ∧ (TraceInv s hand → TraceInv (s.modifyTask p f) hand) := by
  refine ⟨h.modify_frame fun t => ?_, fun ht => ht.congr (SameKin.of_family (SameFamily.modifyTask s p fun t _ => ?_)) rfl⟩
  · obtain ⟨a, b, e⟩ := hf t
    rw [e]
    rfl
  · obtain ⟨a, b, e⟩ := hf t
    rw [e]
    rfl

/-- Saving registers of the current task is not seen by the others, before the work or after it. -/
theorem Moved.regs_left (h : Moved p (s.enter p a b) s' new) : Moved p s s' new := by
  refine ⟨h.runq, h.nextq, fun x hx t ht => ?_, (Buried.enter s p a b).trans h.buried,
    fun q hq => (Spared.modify_other hq _).trans (h.spared q hq)⟩
  · by_cases hxp : x = p
    · subst hxp
      exact h.new x hx { t with rax := a, rdi := b } (modifyTask_self _ _ _ ht)
    · exact h.new x hx t ((modifyTask_of_ne _ _ _ _ hxp).trans ht)

theorem Moved.regs_right (h : Moved p s s' new) (hf : ∀ t, (f t).birth = t.birth) : Moved p s (s'.modifyTask p f) new :=
  ⟨h.runq, h.nextq, h.new, h.buried.trans (Buried.modifyTask s' p hf), fun q hq => (h.spared q hq).trans (.modify_other hq _)⟩

theorem Ended.regs_left (h : Ended (s.enter p a b) p s') : Ended s p s' := by
  cases h with
  | stays hc hm => exact .stays hc hm.regs_left
  | leaves hi hc hm => exact .leaves hi hc hm.regs_left
  | yields hi hc hm => exact .yields hi hc hm.regs_left

theorem Moved.refl (s : Sched) (p : Nat) : Moved p s s [] :=
  ⟨(List.append_nil _).symm, rfl, fun x hx => (by cases hx), ⟨le_rfl, fun _ t ht => .inr ⟨t, ht, rfl, fun _ => id⟩⟩,
    fun _ _ => .of_eq rfl⟩

theorem Moved.resume (s : Sched) (p : Nat) : Moved p s (s.taskRun p) [] :=
  ⟨(List.append_nil _).symm, rfl, fun x hx => (by cases hx), .taskRun s p, fun _ hq => .modify_other hq _⟩

/-- The state in which the kernel works on the system call of the current task. -/
theorem enter_spec (h : SchedInv W s ∅ (some p)) (hc : s.curTask = some p) (a b : Int) :
    ∃ t, s.tasks p = some t ∧ (s.enter p a b).tasks p = some { t with rax := a, rdi := b } ∧ SchedInv W (s.enter p a b) ∅ (some p) ∧
      (s.enter p a b).curTask = some p ∧ (TraceInv s ∅ → TraceInv (s.enter p a b) ∅) ∧
      (∀ q, q ≠ p → (s.enter p a b).tasks q = s.tasks q) ∧ (s.enter p a b).trace = s.trace := by
  obtain ⟨t, ht, _⟩ := (h.cur p).1 rfl
  obtain ⟨h1, h2⟩ := regs (p := p) (f := fun t => { t with rax := a, rdi := b }) (fun t => ⟨a, b, rfl⟩) h
  exact ⟨t, ht, modifyTask_self _ _ _ ht, h1, hc, h2, fun q hq => modifyTask_of_ne _ _ _ _ hq, rfl⟩

theorem leave_spec (h : SchedInv W s' ∅ (some p)) (hc : s'.curTask = some p)
    (ht : TraceInv s ∅ → TraceInv s' ∅) (hm : Moved p s s' new) : Done W s p (leave p (some v, s')) := by
  obtain ⟨h1, h2⟩ := regs (p := p) (f := fun t => { t with rax := v }) (fun t => ⟨v, t.rdi, rfl⟩) h
  refine ⟨?_, fun hs => h2 (ht hs), .stays hc (hm.regs_right fun _ => rfl)⟩
  show SchedInv W _ ∅ s'.curTask
  rw [hc]
  exact h1

theorem findPid_some {tasks : Nat → Option Task} {n pid q : Nat} (h : findPid tasks n pid = some q) :
    tasks q = none ∧ pid ≤ q ∧ q < pid + n := by
  induction n generalizing pid with
  | zero => cases h
  | succ n ih =>
    rw [findPid] at h
    split at h
    · rename_i hn
      cases h
      exact ⟨Option.isNone_iff_eq_none.1 hn, le_rfl, by omega⟩
    · obtain ⟨h1, h2, h3⟩ := ih h
      exact ⟨h1, by omega, by omega⟩

/-- What `sys_fork` does. -/
theorem sysFork_spec (h : SchedInv W s ∅ (some p)) (hc : s.curTask = some p) (enough : Bool) :
    SchedInv W (s.sysFork p enough).2 ∅ (some p) ∧ (s.sysFork p enough).2.curTask = some p ∧
      (TraceInv s ∅ → TraceInv (s.sysFork p enough).2 ∅) ∧ ∃ new, Moved p s (s.sysFork p enough).2 new := by
  obtain ⟨t, ht, hrun⟩ := (h.cur p).1 rfl
  unfold sysFork
  rw [ht]
  cases hf : findPid s.tasks (pidMax - 1) 1 with
  | none => exact ⟨h, hc, id, [], .refl s p⟩
  | some pid =>
    cases enough with
    | false => exact ⟨h, hc, id, [], .refl s p⟩
    | true =>
      obtain ⟨hpid, hpos, hmax⟩ := findPid_some hf
      have hne : p ≠ pid := by
        rintro rfl
        rw [hpid] at ht
        cases ht
      have key : ∀ q, ((s.addTask .user p pid).modifyTask p
          (fun t => { t with taskChildren := pid :: t.taskChildren })).tasks q =
          if q = pid then some (newTask .user p s.births)
          else if q = p then (s.tasks q).map (fun t => { t with taskChildren := pid :: t.taskChildren }) else s.tasks q := by
        intro q
        rw [modifyTask_tasks]
        by_cases hq : q = pid
        · simp [hq, hne.symm, addTask]
        · simp [hq, addTask]
      simp only [if_true]
      refine ⟨?_, hc, fun hs => ?_, [pid], rfl, rfl, fun x hx tx hx' => ?_, ⟨Nat.le_succ _, fun q tq htq => ?_⟩,
        fun q hqp tx hx hl => ⟨tx, ?_, hl, rfl, rfl⟩⟩
      · exact h.add .user hpid (by omega) (fun _ => rfl) key rfl rfl rfl
      · refine hs.fork h.links ht hpid (by omega) ?_ (fun q hq => ?_) rfl rfl
        · exact (key pid).trans (if_pos rfl)
        · refine (congrArg _ ((key q).trans (if_neg hq))).trans ?_
          split
          · rw [Option.map_map]
            rfl
          · rfl
      · rw [List.mem_singleton.1 hx, hpid] at hx'
        cases hx'
      · rw [show _ = _ from key q] at htq
        split at htq
        · cases htq
          rename_i hqpid
          subst hqpid
          exact .inl ⟨le_rfl, by simp only [pidMax] at *; omega⟩
        · split at htq
          · rename_i hqp
            obtain ⟨t1, ht1, rfl⟩ := Option.map_eq_some_iff.1 htq
            exact .inr ⟨t1, ht1, rfl, fun hn => absurd hqp hn⟩
          · exact .inr ⟨tq, htq, rfl, fun _ => id⟩
      · have hqpid : q ≠ pid := by
          rintro rfl
          cases hpid.symm.trans hx
        exact (key q).trans (by rw [if_neg hqpid, if_neg hqp, hx])

/-- A store goes through, or the current task is resumed, or the kernel is done for. -/
theorem storeStatus_cases (mem : UserMem) (s : Sched) (space : Nat) (rstatus : Option Nat) (hc : s.curTask = some p) :
    storeStatus mem s space rstatus = .ok () ∨
    ∃ va, rstatus = some va ∧ mem space va ≠ .stored ∧
      (storeStatus mem s space rstatus = .error (.resumed (s.taskRun p)) ∨ storeStatus mem s space rstatus = .error .fatal) := by
  cases rstatus with
  | none => exact .inl rfl
  | some va =>
    cases hm : mem space va with
    | stored => exact .inl (by simp only [storeStatus, hm])
    | resumed => exact .inr ⟨va, rfl, by rw [hm]; decide, .inl (by simp only [storeStatus, hm, hc])⟩
    | fatal => exact .inr ⟨va, rfl, by rw [hm]; decide, .inr (by simp only [storeStatus, hm])⟩

theorem taskRun_inv (h : SchedInv W s ∅ (some p)) : SchedInv W (s.taskRun p) ∅ (some p) := by
  obtain ⟨t, ht, hrun⟩ := (h.cur p).1 rfl
  refine h.congr (fun q => ?_) rfl rfl rfl
  rw [taskRun, modifyTask_tasks]
  split
  · rename_i hq
    subst hq
    simp [ht, SchedInv.view, hrun]
  · rfl

/-- How the kernel work on a system call may end without a result, and when. -/
def Aborts {α : Type} (W c : Prop) (s : Sched) (p : Nat) (r : Except KernelExit α) : Prop :=
  ¬c ∧ ((∃ s', r = .error (.resumed s') ∧ SchedInv W s' ∅ s'.curTask ∧ Ended s p s') ∨ r = .error .fatal)

/-- Blocking the current task for something it has not missed. -/
theorem block_done (wait rstatus : Option Nat) (h : SchedInv W s ∅ (some p)) (hp : s.tasks p = some t) (hw : W → Awaits t wait) :
    Done W s p (s.block p wait rstatus) := by
  obtain ⟨h1, h2⟩ := h.block rstatus hp hw
  exact .leaves h1 rfl (fun ht => ht.congr (SameKin.of_family h2) rfl)
    ⟨(List.append_nil _).symm, rfl, fun x hx => (by cases hx), h2.buried p, fun _ hq => .modify_other hq _⟩

theorem pid2task_some {pid q : Nat} (h : pid2task s p pid = some q) :
    q = pid ∧ ∃ tc, s.tasks pid = some tc ∧ (pid = p ∨ tc.taskPpid = p) := by
  unfold pid2task at h
  split at h
  · cases h
  · split at h
    · cases h
    · rename_i tc htc
      split at h
      · cases h
      · rename_i hcond
        cases h
        refine ⟨rfl, tc, htc, ?_⟩
        by_contra hno
        exact hcond ⟨fun e => hno (.inl e), fun e => hno (.inr e)⟩

/-! ### The ways of `sys_wait` and `sys_waitpid` -/

/-- What a call of the task `p` comes to: there is no such task, the call returns at once, it reaps a zombie, it blocks, or it
reads outside the PID map. -/
inductive WaitPath where
  | absent
  | answers (v : Int)
  | reaps (z : Nat)
  | blocks (wait : Option Nat)
  | fatal

def WaitPath.run (mem : UserMem) (s : Sched) (p : Nat) (rstatus : Option Nat) : WaitPath → Except KernelExit (Option Int × Sched)
  | absent => .ok (none, s)
  | answers v => .ok (some v, s)
  | reaps z => (storeStatus mem s p rstatus).bind fun _ => (reap mem s p z).bind fun s => .ok (some z, s)
  | blocks wait => .ok (none, s.block p wait rstatus)
  | fatal => .error .fatal

def waitPath (s : Sched) (p : Nat) : WaitPath :=
  match s.tasks p with
  | none => .absent
  | some t =>
    if t.taskChildren = [] ∧ t.taskZombies = [] then .answers (-ECHILD)
    else match t.taskZombies with
    | z :: _ => .reaps z
    | [] => .blocks none

def waitpidPath (s : Sched) (p : Nat) (pid : Int) : WaitPath :=
  match s.tasks p with
  | none => .absent
  | some t =>
    if t.taskChildren = [] ∧ t.taskZombies = [] then .answers (-ECHILD)
    else if pid = -1 ∨ pid = 0 then waitPath s p
    else if pid < 0 then .fatal
    else match pid2task s p pid.toNat with
    | none => .answers (-ECHILD)
    | some child =>
      if child = p then .answers (-ECHILD)
      else if pid.toNat ∈ t.taskZombies then .reaps pid.toNat
      else .blocks (some (zombieLoop pid.toNat child t.taskZombies))

theorem sysWait_eq (mem : UserMem) (s : Sched) (p : Nat) (rstatus : Option Nat) :
    sysWait mem s p rstatus = (waitPath s p).run mem s p rstatus := by
  unfold sysWait waitPath
  cases s.tasks p with
  | none => rfl
  | some t =>
    dsimp only
    by_cases he : t.taskChildren = [] ∧ t.taskZombies = []
    · rw [if_pos he, if_pos he]
      rfl
    · rw [if_neg he, if_neg he]
      cases t.taskZombies <;> rfl

theorem sysWaitpid_eq (mem : UserMem) (s : Sched) (p : Nat) (pid : Int) (rstatus : Option Nat) :
    sysWaitpid mem s p pid rstatus = (waitpidPath s p pid).run mem s p rstatus := by
  unfold sysWaitpid waitpidPath
  cases s.tasks p with
  | none => rfl
  | some t =>
    dsimp only
    by_cases he : t.taskChildren = [] ∧ t.taskZombies = []
    · rw [if_pos he, if_pos he]
      rfl
    · rw [if_neg he, if_neg he]
      by_cases hany : pid = -1 ∨ pid = 0
      · rw [if_pos hany, if_pos hany, sysWait_eq]
      · rw [if_neg hany, if_neg hany]
        by_cases hneg : pid < 0
        · rw [if_pos hneg, if_pos hneg]
          rfl
        · rw [if_neg hneg, if_neg hneg]
          cases pid2task s p pid.toNat with
          | none => rfl
          | some child =>
            dsimp only
            split
            · rfl
            · split
              · rw [WaitPath.run, Int.toNat_of_nonneg (by omega)]
                rfl
              · rfl

theorem waitPath_cases (hp : s.tasks p = some t) :
    (t.taskChildren = [] ∧ t.taskZombies = [] ∧ waitPath s p = .answers (-ECHILD)) ∨
    (∃ z rest, t.taskZombies = z :: rest ∧ waitPath s p = .reaps z) ∨
    (t.taskChildren ≠ [] ∧ t.taskZombies = [] ∧ waitPath s p = .blocks none) := by
  unfold waitPath
  rw [hp]
  cases hz : t.taskZombies with
  | nil => by_cases hch : t.taskChildren = [] <;> simp [hch, hz]
  | cons z rest => simp [hz]

/-- What `sys_waitpid` comes to. -/
theorem waitpidPath_cases (hp : s.tasks p = some t) (pid : Int) :
    (waitpidPath s p pid = .answers (-ECHILD)) ∨ ((pid = -1 ∨ pid = 0) ∧ waitpidPath s p pid = waitPath s p) ∨
    (pid < -1 ∧ waitpidPath s p pid = .fatal) ∨ (pid.toNat ∈ t.taskZombies ∧ waitpidPath s p pid = .reaps pid.toNat) ∨
    (0 < pid ∧ pid.toNat ∉ t.taskZombies ∧ (∃ tc, s.tasks pid.toNat = some tc ∧ tc.taskPpid = p) ∧
      waitpidPath s p pid = .blocks (some (zombieLoop pid.toNat pid.toNat t.taskZombies))) := by
  unfold waitpidPath
  rw [hp]
  dsimp only
  split
  · exact .inl rfl
  · split
    · next hany => exact .inr (.inl ⟨hany, rfl⟩)
    · next hany =>
      split
      · exact .inr (.inr (.inl ⟨by omega, rfl⟩))
      · next hneg =>
        split
        · exact .inl rfl
        · next child hchild =>
          split
          · exact .inl rfl
          · next hself =>
            obtain ⟨rfl, tc, htc, hpp⟩ := pid2task_some hchild
            split
            · next hz => exact .inr (.inr (.inr (.inl ⟨hz, rfl⟩)))
            · next hz =>
              exact .inr (.inr (.inr (.inr ⟨by omega, hz, ⟨tc, htc, hpp.resolve_left hself⟩, rfl⟩)))

theorem reap_done (h : SchedInv W s ∅ (some p)) (hc : s.curTask = some p) (hp : s.tasks p = some t)
    (hz : z ∈ t.taskZombies) (hr : reap mem s p z = .ok s') : Done W s p (leave p (some v, s')) := by
  obtain ⟨s'', tz, hr', _, hi, hcur, htr, _, _, hm⟩ := reap_spec h hc hp hz mem
  rw [hr, Except.ok.injEq] at hr'
  subst hr'
  exact leave_spec hi hcur htr hm

theorem die_spec (s1 : Sched) (t1 : Task) (h : SchedInv W s ∅ (some p)) (hp : s.tasks p = some t)
    (hD : Dying s { s1 with trace := exited t1.birth p t1.taskExitStatus :: s1.trace } p t t1) (mem : UserMem) :
    (∃ s', die mem s1 p = .ok s' ∧ Tells s s' p t t1.taskExitStatus ∧ Done W s p s') ∨
      Aborts W (¬StoreFails mem s t p) s p (die mem s1 p) := by
  have hp1 : s1.tasks p = some t1 := by
    have := hD.tasks p
    rwa [if_pos rfl] at this
  have hdie : die mem s1 p = taskDestroy mem { s1 with trace := exited t1.birth p t1.taskExitStatus :: s1.trace } p := by
    simp only [die, hp1]
  rw [hdie]
  rcases hD.taskDestroy h hp mem with hok | ⟨hf, hab⟩
  · exact .inl hok
  · exact .inr ⟨fun hno => hno hf, hab⟩

/-- The call reaps only a zombie, blocks only for what it has not missed, and fails only if `c` does. -/
def WaitPath.Sound (W c : Prop) (t : Task) : WaitPath → Prop
  | absent => False
  | answers _ => True
  | reaps z => z ∈ t.taskZombies
  | blocks wait => W → Awaits t wait
  | fatal => ¬c

/-- A wait comes to its end. -/
theorem WaitPath.run_done {x : WaitPath} (h : SchedInv W s ∅ (some p)) (hc : s.curTask = some p) (hp : s.tasks p = some t)
    (mem : UserMem) (rstatus : Option Nat) (hx : x.Sound W c t)
    (hst : c → ∀ va, t.taskZombies ≠ [] → rstatus = some va → mem p va = .stored) :
    (∃ s', (x.run mem s p rstatus).map (leave p) = .ok s' ∧ Done W s p s') ∨
      Aborts W c s p ((x.run mem s p rstatus).map (leave p)) := by
  cases x with
  | absent => exact hx.elim
  | answers v => exact .inl ⟨_, rfl, leave_spec h hc id (.refl s p)⟩
  | reaps z =>
    have hz : z ∈ t.taskZombies := hx
    simp only [run]
    rcases storeStatus_cases mem s p rstatus hc with hok | ⟨va, hva, hm, hno | hno⟩
    · obtain ⟨s', _, hreap, _⟩ := reap_spec h hc hp hz mem
      rw [hok, hreap]
      exact .inl ⟨_, rfl, reap_done h hc hp hz hreap⟩
    · rw [hno]
      exact .inr ⟨fun hc => hm (hst hc va (List.ne_nil_of_mem hz) hva),
        .inl ⟨s.taskRun p, rfl, taskRun_inv h, .stays rfl (.resume s p)⟩⟩
    · rw [hno]
      exact .inr ⟨fun hc => hm (hst hc va (List.ne_nil_of_mem hz) hva), .inr rfl⟩
  | blocks wait => exact .inl ⟨_, rfl, block_done wait rstatus h hp hx⟩
  | fatal => exact .inr ⟨hx, .inr rfl⟩

theorem waitPath_sound (hp : s.tasks p = some t) : (waitPath s p).Sound W c t := by
  rcases waitPath_cases hp with ⟨_, _, he⟩ | ⟨z, rest, hz, he⟩ | ⟨hch, hz, he⟩ <;> rw [he]
  · trivial
  · show z ∈ t.taskZombies
    simp [hz]
  · exact fun _ => ⟨fun _ => ⟨hz, hch⟩, nofun⟩

theorem waitpidPath_sound {pid : Int} (h : SchedInv W s ∅ (some p)) (hp : s.tasks p = some t)
    (hok : W → 0 < pid → t.taskZombies = [] ∨ pid.toNat ∈ t.taskZombies) (hc : c → -1 ≤ pid) :
    (waitpidPath s p pid).Sound W c t := by
  rcases waitpidPath_cases hp pid with he | ⟨_, he⟩ | ⟨hneg, he⟩ | ⟨hz, he⟩ | ⟨hpos, hz, ⟨tc, htc, hpp⟩, he⟩ <;> rw [he]
  · trivial
  · exact waitPath_sound hp
  · exact fun hcc => absurd (hc hcc) (by omega)
  · exact hz
  · intro hW
    rw [(hok hW hpos).resolve_right hz]
    refine ⟨nofun, fun x hx => ?_⟩
    cases hx
    refine (h.links.child p t _ hp).2 ⟨tc, htc, hpp, fun hd => hz ?_⟩
    exact (h.links.zombie p t _ hp).2 ⟨tc, htc, hpp, hd, Set.notMem_empty _⟩

/-- The frame that is saved at the entry to the kernel is not seen by the others. -/
theorem Done.regs_left (h : Done W (s.enter p a b) p s') (ht : TraceInv s ∅ → TraceInv (s.enter p a b) ∅) : Done W s p s' :=
  ⟨h.inv, fun hs => h.trace (ht hs), h.ended.regs_left⟩

theorem Aborts.regs_left {α : Type} {d : Prop} {r : Except KernelExit α} (h : Aborts W c (s.enter p a b) p r)
    (hcd : d → c) : Aborts W d s p r :=
  ⟨fun hd => h.1 (hcd hd), h.2.imp_left fun ⟨s', e, hi, he⟩ => ⟨s', e, hi, he.regs_left⟩⟩

/-- The record of a task that exits. -/
def exiting (rcode : Int) (t : Task) : Task := { t with taskExitStatus := rcode, taskStatus := .dying }

/-- `sys_exit` of the task `p`, whose record is `t` when the frame is saved. -/
theorem exit_dying (hc : s.curTask = some p) (hp : s.tasks p = some t) (rcode : Int) :
    Dying s { s.modifyTask p (exiting rcode) with trace := exited t.birth p rcode :: s.trace } p t (exiting rcode t) := by
  refine ⟨hc, fun q => ?_, rfl, rfl, rfl, rfl, rfl⟩
  show (s.modifyTask p _).tasks q = _
  rw [modifyTask_tasks]
  by_cases hq : q = p
  · rw [hq, if_pos rfl, if_pos rfl, hp]
    rfl
  · rw [if_neg hq, if_neg hq]

/-- A fault that ends the task `p`. -/
theorem fault_dying (hc : s.curTask = some p) (hp : s.tasks p = some t) :
    Dying s { s with trace := exited t.birth p t.taskExitStatus :: s.trace } p t t := by
  refine ⟨hc, fun q => ?_, rfl, rfl, rfl, rfl, rfl⟩
  by_cases hq : q = p
  · rw [if_pos hq, hq]
    exact hp
  · rw [if_neg hq]

/-- The parent is another task, so it is the same before and after the frame was saved. -/
theorem SchedInv.storeFails_enter (h : SchedInv W s ∅ (some p)) (hc : s.curTask = some p) (hp : s.tasks p = some t)
    (hf : StoreFails mem (s.enter p a b) { t with rax := a, rdi := b } p) : StoreFails mem s t p := by
  obtain ⟨tq, va, hq, hrest⟩ := hf
  obtain ⟨_, _, _, he, _, _, hother, _⟩ := enter_spec h hc a b
  obtain ⟨_, _, _, hne⟩ := h.parent_of hp (he.links.ne_zero hq)
  exact ⟨tq, va, (hother _ hne).symm.trans hq, hrest⟩

/-- Every action of the current task keeps the invariant. It comes to its end when its store of an exit status goes through,
and then the trace is right too. -/
theorem act_spec (h : SchedInv W s ∅ (some p)) (hc : s.curTask = some p) (mem : UserMem) (a : TaskAction)
    (hw : W → WaitpidOk s p a) :
    (∃ s', act mem s p a = .ok s' ∧ Done W s p s') ∨ Aborts W (StoreOk mem s p a) s p (act mem s p a) := by
  cases a with
  | fork enough =>
    obtain ⟨t, ht, _, he, hec, htr, _⟩ := enter_spec h hc SYS_fork 0
    obtain ⟨h1, h2, h3, new, hm⟩ := sysFork_spec he hec enough
    exact .inl ⟨_, rfl, (leave_spec h1 h2 h3 hm).regs_left htr⟩
  | exit rcode =>
    obtain ⟨t, ht, hp, he, hec, htr, hother, htrace⟩ := enter_spec h hc SYS_exit rcode
    have hact : act mem s p (.exit rcode) = sysExit mem (s.enter p SYS_exit rcode) p rcode := rfl
    rw [hact]
    generalize hedef : s.enter p SYS_exit rcode = e at hp he hec htr hother htrace ⊢
    have hspec := die_spec (e.modifyTask p (exiting rcode)) (exiting rcode { t with rax := SYS_exit, rdi := rcode }) he hp
      (exit_dying hec hp rcode) mem
    subst hedef
    rcases hspec with ⟨s', hs', -, hdone⟩ | hab
    · exact .inl ⟨s', hs', hdone.regs_left htr⟩
    · exact .inr (hab.regs_left fun hst hf => hst t ht (h.storeFails_enter hc ht hf))
  | fault =>
    obtain ⟨t, ht, hrun⟩ := (h.cur p).1 rfl
    exact (die_spec s t h ht (fault_dying hc ht) mem).imp (fun ⟨s', hs', _, hdone⟩ => ⟨s', hs', hdone⟩)
      fun hab => ⟨fun hst => hab.1 (hst t ht), hab.2⟩
  | wait rstatus =>
    obtain ⟨t, ht, hp, he, hec, htr, _⟩ := enter_spec h hc SYS_wait (ptrArg rstatus)
    have hdone := WaitPath.run_done (c := StoreOk mem s p (.wait rstatus)) he hec hp mem rstatus (waitPath_sound hp)
      fun hst va => hst t va ht
    rw [← sysWait_eq] at hdone
    exact hdone.imp (fun ⟨s', hs', hd⟩ => ⟨s', hs', hd.regs_left htr⟩) fun hab => hab.regs_left id
  | waitpid pid rstatus =>
    obtain ⟨t, ht, hp, he, hec, htr, _⟩ := enter_spec h hc SYS_waitpid pid
    have hdone := WaitPath.run_done (c := StoreOk mem s p (.waitpid pid rstatus)) he hec hp mem rstatus
      (waitpidPath_sound he hp (fun hW hpos => hw hW hpos t ht) And.left) fun hst va => hst.2 t va ht
    rw [← sysWaitpid_eq] at hdone
    exact hdone.imp (fun ⟨s', hs', hd⟩ => ⟨s', hs', hd.regs_left htr⟩) fun hab => hab.regs_left id
  | yield =>
    obtain ⟨t, ht, hp, he, hec, htr, _⟩ := enter_spec h hc SYS_yield 0
    exact .inl ⟨_, rfl, (Done.yields he hec id (.refl _ p)).regs_left htr⟩

end Sched

end OpenLsd
