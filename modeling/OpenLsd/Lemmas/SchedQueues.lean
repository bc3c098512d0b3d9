import OpenLsd.Lemmas.SchedRuns
import OpenLsd.Lib.RoundRobin

/-!
# The queues of the scheduler

The current task and the queues of the CPU behave like a round robin with two queues: every action of the current task is a
step of it.
-/

namespace OpenLsd

namespace Sched

open RoundRobin

variable {W : Prop} {s s' : Sched} {hand : Set Nat} {p : Nat}

/-- Who has the CPU, and the queues. -/
def cpu (s : Sched) : State Nat := ⟨s.curTask, s.runq, s.nextq⟩

/-- The runnable and the running tasks are here, once each. -/
theorem SchedInv.mem_present (h : SchedInv W s hand s.curTask) (q : Nat) :
    q ∈ s.cpu.present ↔ ∃ t, s.tasks q = some t ∧ (t.taskStatus = .running ∨ t.taskStatus = .runnable) := by
  have hcur := h.cur q
  have hqueued := h.queued q
  simp only [cpu, State.present, List.mem_append, Option.mem_toList, or_assoc]
  rw [hcur, hqueued]
  constructor
  · rintro (⟨t, ht, hst⟩ | ⟨t, ht, hst⟩)
    · exact ⟨t, ht, .inl hst⟩
    · exact ⟨t, ht, .inr hst⟩
  · rintro ⟨t, ht, hst | hst⟩
    · exact .inl ⟨t, ht, hst⟩
    · exact .inr ⟨t, ht, hst⟩

theorem SchedInv.nodup_present (h : SchedInv W s hand s.curTask) : s.cpu.present.Nodup := by
  cases hc : s.curTask with
  | none => simpa [cpu, State.present, hc] using h.nodup
  | some p =>
    have hnot : ¬(p ∈ s.runq ∨ p ∈ s.nextq) := by
      intro hq
      obtain ⟨t, ht, hst⟩ := (h.queued p).1 hq
      obtain ⟨t', ht', hst'⟩ := (h.cur p).1 hc
      cases ht.symm.trans ht'
      cases hst.symm.trans hst'
    simp only [cpu, State.present, hc, Option.toList_some, List.cons_append, List.nil_append, List.nodup_cons,
      List.mem_append]
    exact ⟨hnot, h.nodup⟩

theorem SchedInv.pickNext_cpu (h : SchedInv W s hand none) (hc : s.curTask = none) :
    s.pickNext.cpu = State.pick s.runq s.nextq := by
  unfold Sched.pickNext
  rw [h.pops.1, h.pops.2]
  cases hr : s.runq with
  | cons p rest => rfl
  | nil =>
    cases hn : s.nextq with
    | cons p rest => rfl
    | nil =>
      show State.mk s.curTask [] [] = _
      rw [hc]
      rfl

/-- `sched_yield` leaves the CPU without a task only when there are no user tasks, or nobody is in the queues. -/
theorem SchedInv.schedYield_none (h : SchedInv W s hand s.curTask) (hc : s.schedYield.curTask = none) :
    s.schedYield.nuserTasks = 0 ∨ s.schedYield.runq = [] ∧ s.schedYield.nextq = [] := by
  obtain ⟨hput, hnone, _⟩ := h.putBack_spec
  by_cases hn : s.putBack.nuserTasks = 0
  · refine .inl ?_
    rwa [Sched.schedYield, if_pos hn]
  · rw [Sched.schedYield, if_neg hn] at hc ⊢
    have hpick := hput.pickNext_cpu hnone
    have hcur : (State.pick s.putBack.runq s.putBack.nextq).cur = none := hpick ▸ hc
    rw [pick_none hcur] at hpick
    exact .inr ⟨congrArg State.runq hpick, congrArg State.nextq hpick⟩

/-- `sched_yield` chooses the next one in line, or the CPU halts. -/
theorem SchedInv.schedYield_cpu (h : SchedInv W s hand s.curTask) :
    s.schedYield.curTask = none ∨
      s.schedYield.cpu = State.pick s.runq (s.nextq ++ s.curTask.toList) := by
  unfold Sched.schedYield putBack
  cases hc : s.curTask with
  | none =>
    rw [hc] at h
    dsimp only
    split
    · exact .inl hc
    · refine .inr ?_
      rw [h.pickNext_cpu hc, Option.toList_none, List.append_nil]
  | some p =>
    rw [hc] at h
    obtain ⟨t, ht, hrun⟩ := (h.cur p).1 rfl
    simp only [ht, hrun, if_true]
    split
    · exact .inl rfl
    · exact .inr (h.put_back.pickNext_cpu rfl)

/-- The task that `sched_yield` chose in a step of the task `p`, if it chose one. Of the other actions those that end with
another current task, or with none, have called it; after `sys_yield` it may have chosen the same task again. -/
def selection (p : Nat) (a : TaskAction) (s' : Sched) : Option Nat :=
  if a = .yield ∨ s'.curTask ≠ some p then s'.curTask else none

theorem Moved.fresh {new : List Nat} (h : Moved p s s' new) (hi : SchedInv W s hand s.curTask) : ∀ x ∈ new, x ∉ s.cpu.present := by
  intro x hx hmem
  obtain ⟨t, ht, hst⟩ := (hi.mem_present x).1 hmem
  have hnot := h.new x hx t ht
  rcases hst with hst | hst <;> rw [hst] at hnot <;> cases hnot

theorem halt_cpu {c : State Nat} (h : s.curTask = none) : Step c none s.cpu := by
  rw [cpu, h]
  exact .halt

/-- Every action of the current task is a step of the round robin. -/
theorem Ended.cpu (h : Ended s p s') (hi : SchedInv W s ∅ s.curTask) (hc : s.curTask = some p) :
    Step s.cpu (if s'.curTask ≠ some p then s'.curTask else none) s'.cpu := by
  have hcpu : s.cpu.cur = some p := hc
  have hnot : p ∉ s.runq ∧ p ∉ s.nextq := by
    have hnd := hi.nodup_present
    simp only [Sched.cpu, State.present, hc, Option.toList_some, List.cons_append, List.nil_append,
      List.nodup_cons, List.mem_append, not_or] at hnd
    exact hnd.1
  cases h with
  | @stays _ new hc' hm =>
    rw [if_neg (not_not.2 hc')]
    have hs' : s'.cpu = ⟨s.cpu.cur, s.cpu.runq ++ new, s.cpu.nextq⟩ := by
      rw [Sched.cpu, hm.runq, hm.nextq, hc', hcpu]
      rfl
    rw [hs']
    exact .stay (hm.fresh hi)
  | @leaves e new hie hce hm =>
    have hfresh := hm.fresh hi
    rcases (hce.symm ▸ hie : SchedInv False e ∅ e.curTask).schedYield_cpu with hnone | hpick
    · rw [hnone, if_pos (by simp)]
      exact halt_cpu hnone
    · rw [hce, Option.toList_none, List.append_nil, hm.runq, hm.nextq] at hpick
      have hcur : e.schedYield.curTask = (State.pick (s.runq ++ new) s.nextq).cur :=
        congrArg State.cur hpick
      have hne : e.schedYield.curTask ≠ some p := by
        intro hp
        rcases mem_of_pick (hcur ▸ hp) with hmem | hmem
        · rcases List.mem_append.1 hmem with hmem | hmem
          · exact hnot.1 hmem
          · refine hfresh p hmem ?_
            simp [State.present, hcpu]
        · exact hnot.2 hmem
      rw [if_pos hne, hpick, hcur]
      exact .leave hcpu hfresh
  | @yields e hie hce hm =>
    rcases (hce.symm ▸ hie : SchedInv False e ∅ e.curTask).schedYield_cpu with hnone | hpick
    · rw [hnone, if_pos (by simp)]
      exact halt_cpu hnone
    · rw [hce, Option.toList_some, hm.runq, hm.nextq, List.append_nil] at hpick
      have hcur : e.schedYield.curTask = (State.pick s.runq (s.nextq ++ [p])).cur :=
        congrArg State.cur hpick
      by_cases hp : e.schedYield.curTask = some p
      · rw [if_neg (not_not.2 hp)]
        obtain ⟨hr, hn⟩ := pick_back hnot.1 hnot.2 (hcur ▸ hp)
        have hs' : e.schedYield.cpu = ⟨s.cpu.cur, s.cpu.runq ++ [], s.cpu.nextq⟩ := by
          rw [hpick, hr, hn, hcpu]
          simp [Sched.cpu, hr, hn, State.pick]
        rw [hs']
        exact .stay fun x hx => by cases hx
      · rw [if_pos hp, hpick, hcur]
        exact .back hcpu

/-- When the current task gives up its turn it goes to the back, and the next one in line is chosen. -/
theorem yield_cpu (hi : SchedInv W s ∅ s.curTask) (hc : s.curTask = some p) {mem : UserMem} (hs : s.step mem .yield = some s') :
    s'.curTask = none ∨ s'.cpu = State.pick s.runq (s.nextq ++ [p]) := by
  rw [hc] at hi
  obtain ⟨_, _, _, he, hec, _⟩ := enter_spec hi hc SYS_yield 0
  rw [← hec] at he
  have hs' : s' = (s.enter p SYS_yield 0).schedYield := by
    simp only [step, hc] at hs
    exact (Option.some.inj hs).symm
  rw [hs']
  have hy := he.schedYield_cpu
  rw [hec] at hy
  exact hy

end Sched

end OpenLsd
