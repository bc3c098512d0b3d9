import OpenLsd.Lemmas.SchedKill

/-!
# Kill is final

A task that another task killed never runs again, and its node stays in one list of zombies until it is freed. A task that
kills itself runs on.
-/

namespace OpenLsd

namespace Sched

/-- What the current task does next, killing included. -/
inductive KillAction where
  | act (a : TaskAction)
  | kill (pid : Int)

/-- One step of the current task. -/
def stepKill (s : Sched) (mem : UserMem) : KillAction → Option Sched
  | .act a => s.step mem a
  | .kill pid => (s.killStep pid).map Prod.snd

/-- The current task `p` does not kill itself. -/
def KillsOther (p : Nat) : KillAction → Prop
  | .act _ => True
  | .kill pid => pid ≠ 0 ∧ pid ≠ p

/-- Runs whose steps all meet the condition. -/
inductive KillRun (ok : Nat → KillAction → Prop) : Sched → Sched → Prop
  | refl (s : Sched) : KillRun ok s s
  | step {s s' s'' : Sched} {p : Nat} (mem : UserMem) (a : KillAction) (hr : KillRun ok s s') (hc : s'.curTask = some p)
    (hok : ok p a) (hs : s'.stepKill mem a = some s'') : KillRun ok s s''

/-- The states in which the first task starts to run. -/
def Booted (s : Sched) : Prop := ∃ types s0, createAll empty types = some s0 ∧ s = s0.schedYield

variable {s s0 s1 s' : Sched} {p q : Nat} {pid : Int} {b : Nat}

theorem Ended.buried (h : Ended s p s') : Buried p s s' := by
  cases h with
  | stays _ hm => exact hm.buried
  | leaves hi hc hm => exact hm.buried.trans ((hc ▸ hi).schedYield.2.1.buried p)
  | yields hi hc hm => exact hm.buried.trans ((hc ▸ hi).schedYield.2.1.buried p)

/-- What every step keeps. -/
def KillInv (s : Sched) : Prop := SchedInv False s ∅ s.curTask ∧ PidsBelow s

theorem Booted.killInv (h : Booted s) : KillInv s := by
  obtain ⟨types, s0, hb, rfl⟩ := h
  obtain ⟨hinv, _, hq⟩ := boot_inv (W := False) hb
  have hempty : Quiet empty := ⟨rfl, rfl, fun x tx hx => by cases hx⟩
  have hi : SchedInv False s0 ∅ s0.curTask := hq.cur ▸ (createAll_inv empty_inv hempty hb).1
  have hp : PidsBelow s0 := createAll_pidsBelow (fun x tx hx => by cases hx) hb
  exact ⟨hinv, hp.buried (hi.schedYield.2.1.buried 0)⟩

theorem KillInv.step (h : KillInv s) (mem : UserMem) (a : KillAction) (hc : s.curTask = some p) (hok : KillsOther p a)
    (hs : s.stepKill mem a = some s') : KillInv s' ∧ Buried p s s' := by
  cases a with
  | act a =>
    obtain ⟨hi, _, he⟩ := step_spec h.1 mem a hc False.elim hs
    exact ⟨⟨hi, h.2.buried he.buried⟩, he.buried⟩
  | kill pid =>
    obtain ⟨⟨v, s2⟩, hk, rfl⟩ := Option.map_eq_some_iff.1 hs
    obtain ⟨hi, hb, _⟩ := killStep_spec h.1 h.2 hc hok hk
    exact ⟨⟨hi, h.2.buried hb⟩, hb⟩

theorem KillRun.killInv (hr : KillRun KillsOther s s') (h : KillInv s) : KillInv s' := by
  induction hr with
  | refl => exact h
  | step mem a _ hc hok hs ih => exact (ih.step mem a hc hok hs).1

/-- The task born as number `b` at the pid `q` is dying, or it is gone. -/
def Killed (q b : Nat) (s : Sched) : Prop := b < s.births ∧ ∀ t, s.tasks q = some t → t.birth = b → t.taskStatus = .dying

/-- The current task runs, so it is not the killed one, and no other task revives that one. -/
theorem Killed.buried (h : Killed q b s) (hi : KillInv s) (hc : s.curTask = some p) (hb : Buried p s s') : Killed q b s' := by
  refine ⟨h.1.trans_le hb.births, fun t' ht' hbirth => ?_⟩
  rcases hb.tasks q t' ht' with ⟨hnew, _⟩ | ⟨t, ht, hsame, hdying⟩
  · exact absurd h.1 (by omega)
  · have hd := h.2 t ht (hsame ▸ hbirth)
    refine hdying (fun hqp => ?_) hd
    obtain ⟨t1, ht1, hrun⟩ := (hi.1.cur p).1 hc
    cases ht1.symm.trans (hqp ▸ ht)
    cases hrun.symm.trans hd

theorem KillRun.killed (hr : KillRun KillsOther s s') (hi : KillInv s) (h : Killed q b s) : Killed q b s' := by
  induction hr with
  | refl => exact h
  | step mem a hr hc hok hs ih => exact ih.buried (hr.killInv hi) hc ((hr.killInv hi).step mem a hc hok hs).2

/-- The node of the task `q` is in the list of zombies of one task, once, and in no other list. -/
def ZombieOnly (q : Nat) (s : Sched) : Prop :=
  q ∉ s.runq ∧ q ∉ s.nextq ∧ ∃ parent tp, s.tasks parent = some tp ∧ tp.taskZombies.count q = 1 ∧
    ∀ x tx, s.tasks x = some tx → x ≠ parent → q ∉ tx.taskZombies

/-- That task is `parent`. -/
def ZombieIn (parent q : Nat) (s : Sched) : Prop :=
  q ∉ s.runq ∧ q ∉ s.nextq ∧ ∃ tp, s.tasks parent = some tp ∧ tp.taskZombies.count q = 1 ∧
    ∀ x tx, s.tasks x = some tx → x ≠ parent → q ∉ tx.taskZombies

theorem ZombieIn.only {parent : Nat} (h : ZombieIn parent q s) : ZombieOnly q s := ⟨h.1, h.2.1, parent, h.2.2⟩

/-- A dying task is among the zombies of its parent, which is older. -/
theorem Links.dying_parent (h : Links s ∅) {t : Task} (hq : s.tasks q = some t) (hd : t.taskStatus = .dying) :
    ∃ tp, s.tasks t.taskPpid = some tp ∧ tp.birth < t.birth ∧ q ∈ tp.taskZombies := by
  have h0 : t.taskPpid ≠ 0 := fun h0 => not_in_hand q (h.orphan q t hq h0 hd)
  obtain ⟨tp, htp, hlt⟩ := h.parent q t hq (not_in_hand q) h0
  exact ⟨tp, htp, hlt, (h.zombie _ tp q htp).2 ⟨t, hq, rfl, hd, not_in_hand q⟩⟩

/-- A dying task is not current, and is a zombie of its parent. -/
theorem KillInv.dying (h : KillInv s) {t : Task} (ht : s.tasks q = some t) (hd : t.taskStatus = .dying) :
    s.curTask ≠ some q ∧ ZombieIn t.taskPpid q s := by
  obtain ⟨hi, _⟩ := h
  have hstatus : ∀ st, st ≠ .dying → ¬∃ t', s.tasks q = some t' ∧ t'.taskStatus = st := by
    rintro st hst ⟨t', ht', rfl⟩
    cases ht.symm.trans ht'
    exact hst hd
  have hqueue := fun hm => hstatus .runnable (by decide) ((hi.queued q).1 hm)
  obtain ⟨tp, htp, _, hmem⟩ := hi.links.dying_parent ht hd
  refine ⟨fun hc => hstatus .running (by decide) ((hi.cur q).1 hc), fun hm => hqueue (.inl hm), fun hm => hqueue (.inr hm),
    tp, htp, ?_, fun x tx hx hne hm => hne ?_⟩
  · rw [(hi.links.nodup _ tp htp).2.count, if_pos hmem]
  · obtain ⟨t', ht', hpp, _⟩ := (hi.links.zombie x tx q hx).1 hm
    cases ht.symm.trans ht'
    rw [hpp]

/-- In every run in which no task kills itself: once `sys_kill` returned 0 the target does not run again, and its node is in
one list, as long as the target has not been freed. The pid may have gone to a new task since, with another birth number. -/
theorem kill_final (hb : Booted s0) (hr : KillRun KillsOther s0 s) (hc : s.curTask = some p) (hok : KillsOther p (.kill pid))
    (hk : s.killStep pid = some (0, s1)) (hr' : KillRun KillsOther s1 s') :
    ∃ tq, s.tasks pid.toNat = some tq ∧ ∀ t, s'.tasks pid.toNat = some t → t.birth = tq.birth →
      s'.curTask ≠ some pid.toNat ∧ ZombieOnly pid.toNat s' := by
  have hi := hr.killInv hb.killInv
  obtain ⟨hi1, hb1, hzero⟩ := killStep_spec hi.1 hi.2 hc hok hk
  obtain ⟨tq, tq', htq, htq', hbirth, hd, _⟩ := hzero rfl
  have hinv1 : KillInv s1 := ⟨hi1, hi.2.buried hb1⟩
  have hkilled : Killed pid.toNat tq.birth s1 := by
    refine ⟨(hi.1.links.born _ tq htq).trans_le hb1.births, fun t ht _ => ?_⟩
    cases htq'.symm.trans ht
    exact hd
  refine ⟨tq, htq, fun t ht hbt => ?_⟩
  obtain ⟨hc', hz⟩ := (hr'.killInv hinv1).dying ht ((hr'.killed hinv1 hkilled).2 t ht hbt)
  exact ⟨hc', hz.only⟩

/-- A task kills its child, and gives up its turn. -/
theorem kill_final_child : ∃ s0 s s1 s' t, Booted s0 ∧ KillRun KillsOther s0 s ∧ s.killStep 2 = some (0, s1) ∧
    KillRun KillsOther s1 s' ∧ s'.tasks 2 = some t ∧ s'.curTask ≠ some 2 ∧ ZombieOnly 2 s' := by
  have hrun : ∃ s0, createAll empty [.user] = some s0 ∧ s0.schedYield.curTask = some 1 ∧
      ∃ s, s0.schedYield.step (fun _ _ => .stored) (.fork true) = some s ∧ s.curTask = some 1 ∧
      ∃ r, s.killStep 2 = some r ∧ r.1 = 0 ∧ r.2.curTask = some 1 ∧
      ∃ s', r.2.step (fun _ _ => .stored) .yield = some s' ∧
      ∃ t, s'.tasks 2 = some t ∧ some t.birth = (s.tasks 2).map Task.birth := by
    decide +kernel
  obtain ⟨s0, hb, hc0, s, hs, hc, ⟨v, s1⟩, hk, rfl, hc1, s', hs', t, ht, hbirth⟩ := hrun
  have hboot : Booted s0.schedYield := ⟨_, s0, hb, rfl⟩
  have hr : KillRun KillsOther s0.schedYield s := .step (fun _ _ => .stored) (.act (.fork true)) (.refl _) hc0 trivial hs
  have hr' : KillRun KillsOther s1 s' := .step (fun _ _ => .stored) (.act .yield) (.refl _) hc1 trivial hs'
  have hok : KillsOther 1 (.kill 2) := ⟨by decide, by decide⟩
  obtain ⟨tq, htq, hfinal⟩ := kill_final hboot hr hc hok hk hr'
  rw [show s.tasks 2 = some tq from htq, Option.map_some, Option.some.injEq] at hbirth
  exact ⟨_, s, s1, s', t, hboot, hr, hk, hr', ht, hfinal t ht hbirth⟩

/-- A child kills itself: `sys_kill` returns 0 to it, and it runs on while its node is among the zombies of its parent. -/
theorem killed_task_resumes : ∃ s0 s s1 t, Booted s0 ∧ KillRun (fun _ _ => True) s0 s ∧ s.curTask = some 2 ∧
    s.killStep 2 = some (0, s1) ∧ s1.curTask = some 2 ∧ s1.tasks 1 = some t ∧ t.taskZombies = [2] := by
  have hrun : ∃ s0, createAll empty [.user] = some s0 ∧ s0.schedYield.curTask = some 1 ∧
      ∃ s', s0.schedYield.step (fun _ _ => .stored) (.fork true) = some s' ∧ s'.curTask = some 1 ∧
      ∃ s, s'.step (fun _ _ => .stored) .yield = some s ∧ s.curTask = some 2 ∧
      ∃ r, s.killStep 2 = some r ∧ r.1 = 0 ∧ r.2.curTask = some 2 ∧ ∃ t, r.2.tasks 1 = some t ∧ t.taskZombies = [2] := by
    decide +kernel
  obtain ⟨s0, hb, hc0, s', hs', hc', s, hs, hc, ⟨v, s1⟩, hk, rfl, hc1, t, ht, hz⟩ := hrun
  refine ⟨s0.schedYield, s, s1, t, ⟨_, s0, hb, rfl⟩, ?_, hc, hk, hc1, ht, hz⟩
  have hfork : KillRun (fun _ _ => True) s0.schedYield s' := .step (fun _ _ => .stored) (.act (.fork true)) (.refl _) hc0 trivial hs'
  exact .step (fun _ _ => .stored) (.act .yield) hfork hc' trivial hs

/-- The task `q` is among the zombies of the task `p`. -/
def ZombieOf (s : Sched) (p q : Nat) : Prop := ∃ t, s.tasks p = some t ∧ q ∈ t.taskZombies

/-- Up the lists of zombies the tasks are older, so that there is an end, and no dying task is the end. -/
theorem Links.live_ancestor (h : Links s ∅) {t : Task} (hq : s.tasks q = some t) (hd : t.taskStatus = .dying) :
    ∃ p tp, s.tasks p = some tp ∧ tp.taskStatus ≠ .dying ∧ Relation.TransGen (ZombieOf s) p q := by
  induction hn : t.birth using Nat.strong_induction_on generalizing q t with
  | _ n ih =>
    obtain ⟨tp, htp, hlt, hz⟩ := h.dying_parent hq hd
    by_cases hdp : tp.taskStatus = .dying
    · obtain ⟨p, t', hp, hlive, hpath⟩ := ih tp.birth (hn ▸ hlt) htp hdp rfl
      exact ⟨p, t', hp, hlive, hpath.tail ⟨tp, htp, hz⟩⟩
    · exact ⟨_, tp, htp, hdp, .single ⟨tp, htp, hz⟩⟩

/-- In every run in which no task kills itself, no dead task is lost: as long as it is in the PID map it does not run, its node
is in one list, the zombies of its parent, and from a task that is not dying the lists of zombies, which `task_free` goes down,
lead to it. -/
theorem zombies_not_lost (hb : Booted s0) (hr : KillRun KillsOther s0 s) {t : Task} (hq : s.tasks q = some t)
    (hd : t.taskStatus = .dying) : s.curTask ≠ some q ∧ ZombieIn t.taskPpid q s ∧
      ∃ p tp, s.tasks p = some tp ∧ tp.taskStatus ≠ .dying ∧ Relation.TransGen (ZombieOf s) p q := by
  have hi := hr.killInv hb.killInv
  obtain ⟨hc, hz⟩ := hi.dying hq hd
  exact ⟨hc, hz, hi.1.links.live_ancestor hq hd⟩

/-- A task kills its child, which becomes its zombie. -/
theorem zombies_not_lost_child : ∃ s t p, s.tasks 2 = some t ∧ t.taskStatus = .dying ∧ t.taskPpid = 1 ∧ ZombieIn 1 2 s ∧
    Relation.TransGen (ZombieOf s) p 2 := by
  let mem : UserMem := fun _ _ => .stored
  have hrun : ∃ s0, createAll empty [.user] = some s0 ∧ s0.schedYield.curTask = some 1 ∧
      ∃ s, s0.schedYield.step mem (.fork true) = some s ∧ s.curTask = some 1 ∧
      ∃ s', s.stepKill mem (.kill 2) = some s' ∧ ∃ t, s'.tasks 2 = some t ∧ t.taskStatus = .dying ∧ t.taskPpid = 1 := by
    decide +kernel
  obtain ⟨s0, hb, hc0, s, hs, hc, s', hs', t, ht, hd, hpp⟩ := hrun
  have hr : KillRun KillsOther s0.schedYield s' :=
    .step mem (.kill 2) (.step mem (.act (.fork true)) (.refl _) hc0 trivial hs) hc ⟨by decide, by decide⟩ hs'
  obtain ⟨_, hz, p, _, _, _, hp⟩ := zombies_not_lost ⟨_, s0, hb, rfl⟩ hr ht hd
  exact ⟨s', t, p, ht, hd, hpp, hpp ▸ hz, hp⟩

end Sched

end OpenLsd
