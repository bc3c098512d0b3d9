import OpenLsd.Lemmas.SchedQueues

/-!
# Round robin over whole runs

Whatever the tasks do, in whatever order, no runnable task is lost or queued twice, and between two turns of a task every
other task that was waiting then has exactly one turn.
-/

namespace OpenLsd

namespace Sched

open RoundRobin

/-- The task can run. -/
def CanRun (u : Nat) (s : Sched) : Prop := ∃ t, s.tasks u = some t ∧ (t.taskStatus = .running ∨ t.taskStatus = .runnable)

/-- Steps through states that satisfy `keep`, with the tasks that `sched_yield` chose, one after the other. -/
inductive Turns (keep : Sched → Prop) : Sched → List Nat → Sched → Prop
  | refl (s : Sched) : Turns keep s [] s
  | step {s s' s'' : Sched} {sels : List Nat} {p : Nat} {mem : UserMem} {a : TaskAction} (hr : Turns keep s sels s')
    (hc : s'.curTask = some p) (hs : s'.step mem a = some s'') (hk : keep s'') :
    Turns keep s (sels ++ (selection p a s'').toList) s''

/-- Any task may do anything. -/
abbrev AnyRun : Sched → Prop := Reachable fun _ _ _ _ => True

variable {s s1 s' : Sched} {t u p : Nat} {mem : UserMem} {a : TaskAction} {sels : List Nat}

theorem AnyRun.inv (h : AnyRun s) : SchedInv False s ∅ s.curTask := Reachable.inv h fun _ _ _ _ _ hf => hf.elim

theorem AnyRun.canRun_iff (h : AnyRun s) : u ∈ s.cpu.present ↔ CanRun u s := h.inv.mem_present u

/-- Every step is one of the round robin. -/
theorem AnyRun.cpu_step (h : AnyRun s) (hc : s.curTask = some p) (hs : s.step mem a = some s') :
    s'.curTask = none ∨ Step s.cpu (selection p a s') s'.cpu := by
  unfold selection
  by_cases ha : a = .yield
  · subst ha
    rw [if_pos (.inl rfl)]
    refine (yield_cpu h.inv hc hs).imp_right fun hpick => ?_
    have hcur : s'.curTask = (State.pick s.runq (s.nextq ++ [p])).cur := congrArg State.cur hpick
    rw [hpick, hcur]
    exact .back hc
  · refine .inr ?_
    have hstep := (step_spec h.inv mem a hc False.elim hs).2.2.cpu h.inv hc
    simpa only [ha, false_or] using hstep

theorem Turns.halted {keep : Sched → Prop} (hr : Turns keep s sels s') (hnone : s.curTask = none) : sels = [] ∧ s' = s := by
  induction hr with
  | refl => exact ⟨rfl, rfl⟩
  | step _ hc _ _ ih =>
    rw [ih.2, hnone] at hc
    cases hc

/-- While the task `t` waits for its next turn the others have theirs. -/
theorem Turns.waiting (hr : Turns (CanRun u) s1 sels s') (h1 : AnyRun s1) (hu1 : CanRun u s1) {n : Nat}
    (hturn : Turn t u n s1.cpu) (hsel : t ∉ sels) :
    AnyRun s' ∧ CanRun u s' ∧ (s'.curTask = none ∨ Turn t u (n + sels.count u) s'.cpu) := by
  induction hr with
  | refl => exact ⟨h1, hu1, .inr hturn⟩
  | @step s' s'' sels p mem a hr hc hs hk ih =>
    rw [List.mem_append, not_or] at hsel
    obtain ⟨hany, hu, hw⟩ := ih hsel.1
    have hany' : AnyRun s'' := .step mem a hany hc trivial hs
    refine ⟨hany', hk, ?_⟩
    have hw : Turn t u (n + sels.count u) s'.cpu := hw.resolve_left (by rw [hc]; simp)
    by_cases hnone : s''.curTask = none
    · exact .inl hnone
    · refine .inr ?_
      rw [List.count_append, ← Nat.add_assoc]
      refine hw.step ((hany.cpu_step hc hs).resolve_left hnone) hany'.inv.nodup_present (hany.canRun_iff.2 hu)
        (hany'.canRun_iff.2 hk) hnone fun he => hsel.2 ?_
      rw [he]
      exact List.mem_singleton.2 rfl

/-- When the task has its next turn the others have had one each. -/
theorem Turns.again (hr : Turns (CanRun u) s1 sels s') (h1 : AnyRun s1) (hu1 : CanRun u s1) {n : Nat}
    (hturn : Turn t u n s1.cpu) {pre : List Nat} (hsels : sels = pre ++ [t]) (hpre : t ∉ pre) : n + pre.count u = 1 := by
  induction hr with
  | refl => simp at hsels
  | @step s' s'' sels p mem a hr hc hs hk ih =>
    cases hsel : selection p a s'' with
    | none =>
      rw [hsel, Option.toList_none, List.append_nil] at hsels
      exact ih hsels
    | some q =>
      rw [hsel, Option.toList_some] at hsels
      obtain ⟨rfl, hq⟩ := List.append_inj' hsels rfl
      cases hq
      obtain ⟨hany, hu, hw⟩ := hr.waiting h1 hu1 hturn hpre
      have hw : Turn t u (n + sels.count u) s'.cpu := hw.resolve_left (by rw [hc]; simp)
      have hcur : s''.curTask ≠ none := by
        intro hnone
        simp [selection, hnone] at hsel
      have hstep := (hany.cpu_step hc hs).resolve_left hcur
      rw [hsel] at hstep
      exact hw.last hstep (hany.canRun_iff.2 hu)

/-- Round robin, in every state that tasks reach from boot by forks, exits, faults, waits and yields.
1. The current task and the queues hold the tasks that can run, once each.
2. When the task `t` gives up its turn, and `sched_yield` then chooses the tasks in `pre` and after them `t` again, every other
   task that was in a queue, and could run all the time, is chosen exactly once. -/
theorem round_robin (h : AnyRun s) :
    (s.cpu.present.Nodup ∧ ∀ q, q ∈ s.cpu.present ↔ CanRun q s) ∧
    ∀ t u mem s1 s' sels pre, s.curTask = some t → s.step mem .yield = some s1 → u ≠ t → u ∈ s.runq ∨ u ∈ s.nextq →
      CanRun u s1 → Turns (CanRun u) s1 sels s' → (selection t .yield s1).toList ++ sels = pre ++ [t] → t ∉ pre →
      pre.count u = 1 := by
  refine ⟨⟨h.inv.nodup_present, fun q => h.canRun_iff⟩, ?_⟩
  intro t u mem s1 s' sels pre hc hs hut hu hu1 hr hsels hpre
  have h1 : AnyRun s1 := .step mem .yield h hc trivial hs
  have hsel : selection t .yield s1 = s1.curTask := by simp [selection]
  rw [hsel] at hsels
  rcases yield_cpu h.inv hc hs with hnone | hpick
  · -- The CPU has halted, so nobody is chosen.
    rw [hnone, (hr.halted hnone).1] at hsels
    simp at hsels
  · have hcur : s1.curTask = (State.pick s.runq (s.nextq ++ [t])).cur := congrArg State.cur hpick
    have hnd := h.inv.nodup_present
    have hnot : t ∉ s.runq ∧ t ∉ s.nextq := by
      simp only [cpu, State.present, hc, Option.toList_some, List.cons_append, List.nil_append, List.nodup_cons,
        List.mem_append, not_or] at hnd
      exact hnd.1
    by_cases hself : s1.curTask = some t
    · obtain ⟨hr0, hn0⟩ := pick_back hnot.1 hnot.2 (hcur ▸ hself)
      rw [hr0, hn0] at hu
      rcases hu with hu | hu <;> cases hu
    · have hturn : Turn t u (s1.curTask.toList.count u) s1.cpu := by
        rw [hpick, hcur]
        refine Turn.first hc hnd hu (hcur ▸ hself) ?_
        exact hpick ▸ h1.inv.nodup_present
      cases hx : s1.curTask with
      | none =>
        rw [hx, (hr.halted hx).1] at hsels
        simp at hsels
      | some x =>
        rw [hx, Option.toList_some, List.singleton_append] at hsels
        cases pre with
        | nil =>
          cases hsels
          exact absurd hx hself
        | cons y pre =>
          rw [List.cons_append, List.cons.injEq] at hsels
          obtain ⟨rfl, hsels⟩ := hsels
          rw [hx, Option.toList_some] at hturn
          have hcount := hr.again h1 hu1 hturn hsels fun hm => hpre (List.mem_cons_of_mem _ hm)
          rw [← List.singleton_append, List.count_append]
          exact hcount

/-- Two tasks give up their turns to each other. -/
theorem round_robin_twoTasks :
    ∃ s s1 s2, AnyRun s ∧ s.step (fun _ _ => .stored) .yield = some s1 ∧ s1.step (fun _ _ => .stored) .yield = some s2 ∧
      s1.curTask = some 2 ∧ s2.curTask = some 1 ∧ s.cpu.present.Nodup ∧ [2].count 2 = 1 := by
  have hrun : ∃ s, createAll empty [.user, .user] = some s ∧ s.schedYield.curTask = some 1 ∧ 2 ∈ s.schedYield.runq ∧
      ∃ s1, s.schedYield.step (fun _ _ => .stored) .yield = some s1 ∧ s1.curTask = some 2 ∧
      (∃ t, s1.tasks 2 = some t ∧ t.taskStatus = .running) ∧
      ∃ s2, s1.step (fun _ _ => .stored) .yield = some s2 ∧ s2.curTask = some 1 ∧
      ∃ t, s2.tasks 2 = some t ∧ t.taskStatus = .runnable := by
    decide +kernel
  obtain ⟨s, hboot, hc, hu, s1, hs1, hc1, ⟨t, ht, hst⟩, s2, hs2, hc2, t', ht', hst'⟩ := hrun
  have h : AnyRun s.schedYield := .boot hboot
  have hturns : Turns (CanRun 2) s1 ([] ++ (selection 2 .yield s2).toList) s2 :=
    .step (.refl s1) hc1 hs2 ⟨t', ht', .inr hst'⟩
  obtain ⟨⟨hnd, _⟩, hrobin⟩ := round_robin h
  refine ⟨s.schedYield, s1, s2, h, hs1, hs2, hc1, hc2, hnd, ?_⟩
  refine hrobin 1 2 _ s1 s2 _ [2] hc hs1 (by decide) (.inl hu) ⟨t, ht, .inl hst⟩ hturns ?_ (by decide)
  simp [selection, hc1, hc2]

end Sched

end OpenLsd
