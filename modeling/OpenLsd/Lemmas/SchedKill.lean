import OpenLsd.Lemmas.SchedRuns

/-!
# Killing a child

What `sys_kill` does when the target is a child of the caller: the child leaves its queue, if it is in one, and becomes a
zombie of the caller.
-/

namespace OpenLsd

namespace Sched

variable {W : Prop} {s s' : Sched} {p q : Nat} {t tq : Task}

section

variable (h : SchedInv W s ∅ (some p)) (hp : s.tasks p = some t) (hq : s.tasks q = some tq) (hpp : tq.taskPpid = p) (hne : q ≠ p)

include h hp hq hpp hne

/-- A child of the current task becomes a zombie of it, or stays one. -/
theorem SchedInv.kill {t' tq' : Task}
    (ht' : t' = { t with taskChildren := t.taskChildren.erase q, taskZombies := t.taskZombies.erase q ++ [q] })
    (htq' : tq' = { tq with taskStatus := .dying })
    (key : ∀ x, s'.tasks x = if x = p then some t' else if x = q then some tq' else s.tasks x) (hr : s'.runq = s.runq.erase q)
    (hn : s'.nextq = s.nextq.erase q) (hb : s'.births = s.births) : SchedInv W s' ∅ (some p) := by
  obtain ⟨t0, ht0, hrun⟩ := (h.cur p).1 rfl
  have hz := h.links.zero
  have hempty := not_in_hand
  have hnd := h.links.nodup p t hp
  have hnodup := h.nodup
  have hmemc := fun c => hnd.1.mem_erase_iff (a := c) (b := q)
  have hmemz := fun c => hnd.2.mem_erase_iff (a := c) (b := q)
  refine ⟨⟨?_, fun x tx c hx => ?_, fun x tx c hx => ?_, fun x tx hx => ?_, fun c tc hc _ hc0 => ?_, fun c tc hc => ?_,
    fun c hc => absurd hc (hempty c), fun a b ta tb ha hb => ?_, fun a ta ha => ?_⟩, fun x => ?_, fun x => ?_, ?_,
    fun hW x tx hx => ?_⟩
  · grind
  · have hc := h.links.child x
    simp only [key] at hx ⊢
    grind
  · have hc := h.links.zombie x
    simp only [key] at hx ⊢
    grind
  · have hc := h.links.nodup x
    have h1 := hnd.1.erase q
    have h2 : (t.taskZombies.erase q ++ [q]).Nodup := by
      have := hnd.2.erase q
      grind
    grind
  · have hpar := h.links.parent c
    simp only [key] at hc ⊢
    grind
  · have ho := h.links.orphan c
    simp only [key] at hc
    grind
  · have hbirth := h.links.birth a b
    grind
  · have hborn := h.links.born a
    grind
  · have hcur := h.cur x
    grind
  · have hqd := h.queued x
    have h1 := (List.nodup_append.1 hnodup).1.mem_erase_iff (a := x) (b := q)
    have h2 := (List.nodup_append.1 hnodup).2.1.mem_erase_iff (a := x) (b := q)
    rw [hr, hn, h1, h2]
    grind
  · rw [hr, hn]
    exact hnodup.sublist (List.erase_sublist.append List.erase_sublist)
  · have hbl := h.blocked hW x
    grind

/-- The state that `sys_kill` makes of a child. -/
theorem kill_tasks (x : Nat) : ((((s.modifyTask q fun t => { t with taskStatus := .dying }).delNode q).delChild q).modifyTask p
      fun t => { t with taskZombies := t.taskZombies ++ [q] }).tasks x =
    if x = p then some { t with taskChildren := t.taskChildren.erase q, taskZombies := t.taskZombies.erase q ++ [q] }
    else if x = q then some { tq with taskStatus := .dying } else s.tasks x := by
  rw [modifyTask_tasks]
  simp only [delChild, delNode, modifyTask_tasks, Option.map_map]
  by_cases hxp : x = p
  · subst hxp
    simp [Ne.symm hne, hp]
  · -- Nobody else has the child in a list.
    have hother : ∀ tx, s.tasks x = some tx → tx.taskChildren.erase q = tx.taskChildren ∧ tx.taskZombies.erase q = tx.taskZombies := by
      intro tx hx
      refine ⟨List.erase_of_not_mem fun hc => hxp ?_, List.erase_of_not_mem fun hz => hxp ?_⟩
      · obtain ⟨tc, htc, hpc, _⟩ := (h.links.child x tx q hx).1 hc
        cases hq.symm.trans htc
        rw [← hpc, hpp]
      · obtain ⟨tc, htc, hpc, _⟩ := (h.links.zombie x tx q hx).1 hz
        cases hq.symm.trans htc
        rw [← hpc, hpp]
    by_cases hxq : x = q
    · subst hxq
      obtain ⟨h1, h2⟩ := hother tq hq
      simp [hxp, hq, h1, h2]
    · cases hx : s.tasks x with
      | none => simp [hxp, hxq]
      | some tx =>
        obtain ⟨h1, h2⟩ := hother tx hx
        simp [hxp, hxq, h1, h2]

end

/-- The end of a call after which the current task runs on. -/
theorem resume_spec {v : Int} (h : SchedInv W s' ∅ (some p)) (hb : Buried p s s') :
    SchedInv W ((leave p (some v, s')).taskRun p) ∅ ((leave p (some v, s')).taskRun p).curTask ∧
      Buried p s ((leave p (some v, s')).taskRun p) := by
  refine ⟨taskRun_inv (h.modify_frame fun t => rfl), (hb.trans ?_).trans (.taskRun _ p)⟩
  exact Buried.modifyTask s' p (f := fun t => { t with rax := v }) fun _ => rfl

/-- A kill of another task than the caller keeps the invariant, and when it succeeds the target is dying. -/
theorem killStep_spec {pid v : Int} (h : SchedInv W s ∅ s.curTask) (hpids : PidsBelow s) (hc : s.curTask = some p)
    (hself : pid ≠ 0 ∧ pid ≠ p) (hs : s.killStep pid = some (v, s')) :
    SchedInv W s' ∅ s'.curTask ∧ Buried p s s' ∧
      (v = 0 → ∃ tq tq', s.tasks pid.toNat = some tq ∧ s'.tasks pid.toNat = some tq' ∧ tq'.birth = tq.birth ∧
        tq'.taskStatus = .dying ∧ pid.toNat ≠ p) := by
  rw [hc] at h
  obtain ⟨t, ht, hp, he, hec, _, hother, _⟩ := enter_spec h hc SYS_kill pid
  have hbe := Buried.enter s p SYS_kill pid
  simp only [killStep, hc, sysKill] at hs
  by_cases hneg : pid < 0
  · simp [hneg] at hs
  · rw [if_neg hneg, if_neg hself.1] at hs
    generalize s.enter p SYS_kill pid = e at hp he hec hother hbe hs
    cases hq : pid2task e p pid.toNat with
    | none =>
      rw [hq] at hs
      cases hs
      obtain ⟨h1, h2⟩ := resume_spec (v := -1) he hbe
      exact ⟨h1, h2, fun hv => by cases hv⟩
    | some q =>
      obtain ⟨rfl, tq, htq, hpp⟩ := pid2task_some hq
      have hne : pid.toNat ≠ p := fun e => hself.2 (by omega)
      have hpp : tq.taskPpid = p := hpp.resolve_left hne
      have hp0 := he.links.ne_zero hp
      -- The parent of the target is the caller.
      have hmark : (e.modifyTask pid.toNat fun t => { t with taskStatus := .dying }).tasks pid.toNat =
          some { tq with taskStatus := .dying } := modifyTask_self _ _ _ htq
      have hparent : anyTask (e.modifyTask pid.toNat fun t => { t with taskStatus := .dying }) p p = some p := by
        have hpm : ¬pidMax ≤ p := not_le.2 (hpids p t ht)
        rw [anyTask, if_neg hp0, if_neg hpm, modifyTask_of_ne _ _ _ _ (Ne.symm hne), hp]
        rfl
      simp only [hq, hmark, Option.bind_some, hpp, hparent, Option.some.injEq, Prod.mk.injEq] at hs
      obtain ⟨rfl, rfl⟩ := hs
      have key := kill_tasks he hp htq hpp hne
      have hinv := he.kill hp htq hpp hne rfl rfl key rfl rfl rfl
      have hb : Buried p e ((((e.modifyTask pid.toNat fun t => { t with taskStatus := .dying }).delNode pid.toNat).delChild
          pid.toNat).modifyTask p fun t => { t with taskZombies := t.taskZombies ++ [pid.toNat] }) :=
        .of_two rfl hp htq key rfl ⟨rfl, fun _ => rfl⟩
      obtain ⟨h1, h2⟩ := resume_spec (v := 0) hinv (hbe.trans hb)
      refine ⟨h1, h2, fun _ => ⟨tq, { tq with taskStatus := .dying }, (hother _ hne).symm.trans htq, ?_, rfl, rfl, hne⟩⟩
      rw [taskRun, modifyTask_of_ne _ _ _ _ hne, leave, modifyTask_of_ne _ _ _ _ hne, key, if_neg hne, if_pos rfl]

end Sched

end OpenLsd
