import OpenLsd.Lemmas.SchedLinks

/-!
# Where tasks are

`SchedInv W s hand cur` is the invariant of the scheduler: the family links hold, the task that runs is `cur`, the run queues
hold the runnable tasks, once each, and, if `W` holds, a blocked task has not missed what it waits for. Every action of the
current task keeps it, where the last part needs that `sys_waitpid` is called as it should be.
-/

namespace OpenLsd

namespace Sched

/-- The task has not missed what it waits for: any child, of which there is one and none has exited, or a certain one. -/
abbrev Awaits (t : Task) (wait : Option Nat) : Prop :=
  (wait = none → t.taskZombies = [] ∧ t.taskChildren ≠ []) ∧ ∀ c, wait = some c → c ∈ t.taskChildren

structure SchedInv (W : Prop) (s : Sched) (hand : Set Nat) (cur : Option Nat) : Prop where
  links : Links s hand
  cur : ∀ p, cur = some p ↔ ∃ t, s.tasks p = some t ∧ t.taskStatus = .running
  queued : ∀ p, (p ∈ s.runq ∨ p ∈ s.nextq) ↔ ∃ t, s.tasks p = some t ∧ t.taskStatus = .runnable
  nodup : (s.runq ++ s.nextq).Nodup
  blocked : W → ∀ p t, s.tasks p = some t → t.taskStatus = .notRunnable → Awaits t t.taskWait

/-- No task is in hand. -/
theorem not_in_hand (d : Nat) : d ∉ (∅ : Set Nat) := Set.notMem_empty d

namespace SchedInv

variable {W : Prop} {s s' : Sched} {hand : Set Nat} {cur : Option Nat} {p pid : Nat} {t : Task}

theorem queues (h : SchedInv W s hand cur) : Queued s := by
  intro x hx
  obtain ⟨t, ht, hr⟩ := (h.queued x).1 hx
  exact ⟨t, ht, by rw [hr]; decide⟩

/-- What the invariant reads of a task. -/
def view (t : Task) : Nat × List Nat × List Nat × Nat × TaskStatus × Option Nat :=
  (t.taskPpid, t.taskChildren, t.taskZombies, t.birth, t.taskStatus, t.taskWait)

/-- The invariant reads the view of each task, the queues and the number of births. -/
theorem congr (h : SchedInv W s hand cur) (ht : ∀ q, (s'.tasks q).map view = (s.tasks q).map view)
    (hr : s'.runq = s.runq) (hn : s'.nextq = s.nextq) (hb : s'.births = s.births) : SchedInv W s' hand cur := by
  have key : ∀ {s s' : Sched}, (∀ q, (s'.tasks q).map view = (s.tasks q).map view) → ∀ q t', s'.tasks q = some t' →
      ∃ t, s.tasks q = some t ∧ t'.taskChildren = t.taskChildren ∧ t'.taskZombies = t.taskZombies ∧
        t'.taskStatus = t.taskStatus ∧ t'.taskWait = t.taskWait := by
    intro s s' h q t' hq
    obtain ⟨t, ht, e⟩ := some_of_map_eq (h q) hq
    simp only [view, Prod.mk.injEq] at e
    exact ⟨t, ht, e.2.1, e.2.2.1, e.2.2.2.2⟩
  have fwd := key ht
  have bwd := key (fun q => (ht q).symm)
  refine ⟨h.links.of_ties hb fun q => ?_, fun q => ?_, fun q => ?_, by rw [hr, hn]; exact h.nodup, fun hW q t' hq hb => ?_⟩
  · have e := congrArg (Option.map fun f : Nat × List Nat × List Nat × Nat × TaskStatus × Option Nat =>
      (f.1, f.2.1, f.2.2.1, f.2.2.2.1, decide (f.2.2.2.2.1 = .dying))) (ht q)
    rwa [Option.map_map, Option.map_map] at e
  · have := h.cur q
    grind
  · have := h.queued q
    grind
  · have := h.blocked hW q
    grind

theorem of_eq (h : SchedInv W s hand cur) (ht : s'.tasks = s.tasks) (hr : s'.runq = s.runq) (hn : s'.nextq = s.nextq)
    (hb : s'.births = s.births) : SchedInv W s' hand cur := h.congr (fun q => by rw [ht]) hr hn hb

/-- Fields that the invariant does not read may change. -/
theorem modify_frame (h : SchedInv W s hand cur) {f : Task → Task} (hf : ∀ t, view (f t) = view t) :
    SchedInv W (s.modifyTask p f) hand cur := by
  refine h.congr (fun q => ?_) rfl rfl rfl
  rw [modifyTask_tasks]
  split
  · rw [Option.map_map]
    exact congrArg (fun g => (s.tasks q).map g) (funext hf)
  · rfl

/-! ## Scheduling -/

theorem put_back (h : SchedInv W s hand (some p)) :
    SchedInv W { s.modifyTask p (fun t => { t with taskStatus := .runnable }) with
      nextq := s.nextq ++ [p], curTask := none } hand none := by
  obtain ⟨t, ht, hrun⟩ := (h.cur p).1 rfl
  have hfam : SameFamily s (s.modifyTask p (fun t => { t with taskStatus := .runnable })) :=
    SameFamily.modifyTask s p (fun t' ht' => by grind [family])
  refine ⟨h.links.congr hfam, fun q => ?_, fun q => ?_, ?_, fun hW q t' hq hb => ?_⟩
  · have := h.cur q
    simp only [modifyTask_tasks]
    grind
  · have := h.queued q
    simp only [modifyTask_tasks, modifyTask_runq, List.mem_append, List.mem_singleton]
    by_cases hq : q = p
    · simp [hq, ht]
    · simpa [hq] using this
  · have := h.queued p
    have := h.nodup
    simp only [modifyTask_runq]
    grind
  · have := h.blocked hW q
    simp only [modifyTask_tasks] at hq
    grind

theorem pick {rest : List Nat} (h : SchedInv W s hand none) (hr : s.runq = p :: rest) :
    SchedInv W ({ s with runq := rest }.taskRun p) hand (some p) := by
  obtain ⟨t, ht, hst⟩ := (h.queued p).1 (by simp [hr])
  have hfam : SameFamily s ({ s with runq := rest }.taskRun p) :=
    SameFamily.modifyTask s p (f := fun t => { t with taskStatus := .running }) (fun t' ht' => by grind [family])
  have hnd := h.nodup
  rw [hr] at hnd
  refine ⟨h.links.congr hfam, fun q => ?_, fun q => ?_, ?_, fun hW q t' hq hb => ?_⟩
  · have := h.cur q
    simp only [taskRun, modifyTask_tasks]
    grind
  · have := h.queued q
    simp only [taskRun, modifyTask_tasks, modifyTask_runq, modifyTask_nextq]
    grind
  · simp only [taskRun, modifyTask_runq, modifyTask_nextq]
    grind
  · have := h.blocked hW q
    simp only [taskRun, modifyTask_tasks] at hq
    grind

theorem move_nextq (h : SchedInv W s hand cur) (hr : s.runq = []) :
    SchedInv W { s with runq := s.nextq, nextq := [] } hand cur := by
  obtain ⟨h1, h2, h3, h4, h5⟩ := h
  obtain ⟨l1, l2, l3, l4, l5, l6, l7, l8, l9⟩ := h1
  rw [hr] at h3 h4
  exact ⟨⟨l1, l2, l3, l4, l5, l6, l7, l8, l9⟩, h2, by simpa using h3, by simpa using h4, h5⟩

theorem popRunnable_eq {tasks : Nat → Option Task} {l : List Nat}
    (h : ∀ x ∈ l, ∃ t, tasks x = some t ∧ t.taskStatus = .runnable) :
    popRunnable tasks l = l.head?.map (fun p => (p, l.tail)) := by
  cases l with
  | nil => rfl
  | cons p rest =>
    obtain ⟨t, ht, hst⟩ := h p (List.mem_cons_self ..)
    simp [popRunnable, ht, hst]

/-- Everybody in the queues is runnable, so the choice is the next one in line. -/
theorem pops (h : SchedInv W s hand cur) : popRunnable s.tasks s.runq = s.runq.head?.map (fun p => (p, s.runq.tail)) ∧
    popRunnable s.tasks s.nextq = s.nextq.head?.map (fun p => (p, s.nextq.tail)) :=
  ⟨popRunnable_eq fun x hx => (h.queued x).1 (.inl hx), popRunnable_eq fun x hx => (h.queued x).1 (.inr hx)⟩

theorem pickNext (h : SchedInv W s hand none) (hcur : s.curTask = none) :
    SchedInv W s.pickNext hand s.pickNext.curTask ∧ SameFamily s s.pickNext ∧ s.pickNext.trace = s.trace := by
  have hfam : ∀ p, (p ∈ s.runq ∨ p ∈ s.nextq) → SameFamily s (s.modifyTask p (fun t => { t with taskStatus := .running })) := by
    intro p hp
    obtain ⟨t, ht, hst⟩ := (h.queued p).1 hp
    exact SameFamily.modifyTask s p (fun t' ht' => by grind [family])
  unfold Sched.pickNext
  rw [h.pops.1, h.pops.2]
  cases hr : s.runq with
  | cons p rest => exact ⟨h.pick hr, hfam p (by simp [hr]), rfl⟩
  | nil =>
    cases hn : s.nextq with
    | cons p rest =>
      refine ⟨?_, hfam p (by simp [hn]), rfl⟩
      exact (h.move_nextq hr).pick hn
    | nil =>
      refine ⟨?_, SameFamily.refl s, rfl⟩
      simp only [hcur]
      exact h.of_eq rfl hr.symm hn.symm rfl

theorem putBack_spec (h : SchedInv W s hand s.curTask) :
    SchedInv W s.putBack hand none ∧ s.putBack.curTask = none ∧ SameFamily s s.putBack ∧ s.putBack.trace = s.trace := by
  unfold putBack
  cases hc : s.curTask with
  | none =>
    rw [hc] at h
    exact ⟨h, hc, SameFamily.refl s, rfl⟩
  | some p =>
    rw [hc] at h
    obtain ⟨t, ht, hrun⟩ := (h.cur p).1 rfl
    simp only [ht, hrun, if_true]
    exact ⟨h.put_back, trivial, SameFamily.modifyTask s p (fun t' ht' => by grind [family]), rfl⟩

/-- Scheduling keeps the invariant and changes nothing of the family. -/
theorem schedYield (h : SchedInv W s hand s.curTask) :
    SchedInv W s.schedYield hand s.schedYield.curTask ∧ SameFamily s s.schedYield ∧ s.schedYield.trace = s.trace := by
  obtain ⟨h1, h2, h3, h4⟩ := h.putBack_spec
  unfold Sched.schedYield
  simp only
  split
  · exact ⟨h2 ▸ h1, h3, h4⟩
  · obtain ⟨g1, g2, g3⟩ := h1.pickNext h2
    exact ⟨g1, h3.trans g2, g3.trans h4⟩

/-! ## Freeing -/

theorem freeRest_kept (h : SchedInv W s {p} cur) : Kept s (Sched.freeRest s.births s p) ∅ := by
  obtain ⟨t, ht, _⟩ := h.links.inHand p rfl
  exact (h.links.freeRest (n := s.births) rfl h.queues ht (by omega)).2.1

/-- The end of `task_free`. -/
theorem freeRest (h : SchedInv W s {p} cur) : SchedInv W (Sched.freeRest s.births s p) ∅ cur := by
  obtain ⟨t, ht, _⟩ := h.links.inHand p rfl
  obtain ⟨hl, hk, hgone⟩ := h.links.freeRest (n := s.births) rfl h.queues ht (by omega)
  have hempty : ({p} : Set Nat) \ {p} = ∅ := Set.eq_empty_of_forall_notMem fun x hx => hx.2 hx.1
  rw [hempty] at hl
  have hst : ∀ q st, st ≠ .dying → ((∃ t', (Sched.freeRest s.births s p).tasks q = some t' ∧ t'.taskStatus = st) ↔
      ∃ t, s.tasks q = some t ∧ t.taskStatus = st) := by
    intro q st hst
    constructor
    · rintro ⟨t', ht', rfl⟩
      obtain ⟨t, ht, e, _⟩ := hk.back q t' ht'
      exact ⟨t, ht, by rw [e]⟩
    · rintro ⟨t, ht, rfl⟩
      obtain ⟨t', ht'⟩ := hk.live q t ht hst
      obtain ⟨t0, ht0, e, _⟩ := hk.back q t' ht'
      cases ht.symm.trans ht0
      exact ⟨t', ht', by rw [e]⟩
  refine ⟨hl, fun q => ?_, fun q => ?_, by rw [hk.runq, hk.nextq]; exact h.nodup, fun hW q t' ht' hb => ?_⟩
  · rw [hst q _ (by decide)]
    exact h.cur q
  · rw [hst q _ (by decide), hk.runq, hk.nextq]
    exact h.queued q
  · obtain ⟨t, ht, e, _, hlists⟩ := hk.back q t' ht'
    obtain ⟨hc, hz⟩ := hlists (Set.notMem_empty q)
    have hw : t'.taskWait = t.taskWait := by rw [e]
    rw [Awaits, hc, hz, hw]
    exact h.blocked hW q t ht (by rw [e] at hb; exact hb)

/-- The parent of a task that is not in hand, and what the links say of the two. -/
theorem parent_of (h : SchedInv W s ∅ cur) (hp : s.tasks p = some t) (hpp : t.taskPpid ≠ 0) :
    ∃ tq, s.tasks t.taskPpid = some tq ∧ tq.birth < t.birth ∧ t.taskPpid ≠ p := by
  obtain ⟨tq, htq, hlt⟩ := h.links.parent p t hp (Set.notMem_empty p) hpp
  refine ⟨tq, htq, hlt, fun e => ?_⟩
  cases hp.symm.trans (e ▸ htq)
  exact lt_irrefl _ hlt

section

variable (h : SchedInv W s ∅ (some p))

include h

section

variable (hp : s.tasks p = some t)

include hp

section

variable {t' tq' : Task} (ht' : t' = { t with taskStatus := .dying, taskExitStatus := t'.taskExitStatus })
  (hb : s'.births = s.births)

include ht' hb

/-- The current task dies, and its parent's lists follow. -/
theorem die_links {hand' : Set Nat} {f : Task → Task} (hh : hand' ⊆ {p})
    (horph : t.taskPpid = 0 → p ∈ hand')
    (key : ∀ q, s'.tasks q = if q = p then some t' else if q = t.taskPpid then (s.tasks q).map f else s.tasks q)
    (hf : ∀ tq, s.tasks t.taskPpid = some tq → (f tq).taskPpid = tq.taskPpid ∧ (f tq).birth = tq.birth ∧
      ((f tq).taskStatus = .dying ↔ tq.taskStatus = .dying) ∧ (f tq).taskChildren = tq.taskChildren.erase p ∧
      (p ∈ hand' ∧ (f tq).taskZombies = tq.taskZombies ∨ p ∉ hand' ∧ (f tq).taskZombies = tq.taskZombies ++ [p])) :
    Links s' hand' := by
  have hd : t'.taskStatus = .dying := by rw [ht']
  have hpp : t'.taskPpid = t.taskPpid := by rw [ht']
  refine h.links.unlink ⟨hp, Set.notMem_empty p, hb, ⟨by rw [ht'], by rw [ht'], by rw [ht']⟩, .inr ⟨hpp, hd⟩,
    fun h0 _ => horph (hpp ▸ h0), fun d hdp => iff_of_false (fun hd => hdp (hh hd)) (Set.notMem_empty d), fun _ => hd, f, key,
    fun tq hq => ?_⟩
  obtain ⟨h1, h2, h3, h4, h5⟩ := hf tq hq
  obtain ⟨t0, ht0, hrun⟩ := (h.cur p).1 rfl
  have hpz : p ∉ tq.taskZombies := by
    have := h.links.zombie _ tq p hq
    grind
  rw [List.erase_of_not_mem hpz, hpp]
  exact ⟨h1, h2, h3, h4, h5.imp (fun e => ⟨.inr e.1, e.2⟩) fun e => ⟨h.links.ne_zero hq, e⟩⟩

/-- The current task dies and nobody waits for it because it has no parent. -/
theorem die_orphan (hpp : t.taskPpid = 0) (key : ∀ q, s'.tasks q = if q = p then some t' else s.tasks q)
    (hr : s'.runq = s.runq) (hn : s'.nextq = s.nextq) : SchedInv W s' {p} none := by
  have hrun := (h.cur p).1 rfl
  have hz := h.links.zero
  refine ⟨h.die_links (f := id) hp ht' hb Set.Subset.rfl (fun _ => rfl) (by simpa using key) fun tq hq => ?_, fun q => ?_,
    fun q => ?_, by rw [hr, hn]; exact h.nodup, fun hW q tq hq => ?_⟩
  · rw [hpp, hz] at hq
    cases hq
  · have hcur := h.cur q
    grind
  · have hqd := h.queued q
    grind
  · have hbl := h.blocked hW q
    grind

/-- A death that wakes the parent. -/
theorem die_handover {tq : Task} (hq : s.tasks t.taskPpid = some tq) (hw : waitsFor tq p)
    (htq' : tq' = { tq with rax := tq'.rax, taskStatus := .runnable, taskChildren := tq.taskChildren.erase p })
    (key : ∀ q, s'.tasks q = if q = p then some t' else if q = t.taskPpid then some tq' else s.tasks q)
    (hr : s'.runq = s.runq ++ [t.taskPpid]) (hn : s'.nextq = s.nextq) : SchedInv W s' {p} none := by
  have hrun := (h.cur p).1 rfl
  obtain ⟨hnr, _⟩ := hw
  have key' : ∀ q, s'.tasks q = if q = p then some t' else if q = t.taskPpid then (s.tasks q).map (fun _ => tq') else s.tasks q := by
    grind
  refine ⟨h.die_links hp ht' hb Set.Subset.rfl (fun _ => rfl) key' fun x hx => ?_, fun q => ?_, fun q => ?_, ?_,
    fun hW q x hx => ?_⟩
  · have : (p ∈ ({p} : Set Nat)) := rfl
    grind
  · have hcur := h.cur q
    grind
  · have hqd := h.queued q
    rw [hr, hn]
    grind
  · -- The parent was blocked, so it was in no queue.
    have hqd := h.queued t.taskPpid
    have hnot : t.taskPpid ∉ s.runq ∧ t.taskPpid ∉ s.nextq := by grind
    have hnodup := h.nodup
    rw [hr, hn]
    grind
  · have hbl := h.blocked hW q
    grind

/-- The current task dies while its parent does something else: it becomes a zombie of the parent. -/
theorem die_zombie {tq : Task} (hq : s.tasks t.taskPpid = some tq) (hw : ¬waitsFor tq p)
    (htq' : tq' = { tq with taskChildren := tq.taskChildren.erase p, taskZombies := tq.taskZombies ++ [p] })
    (key : ∀ q, s'.tasks q = if q = p then some t' else if q = t.taskPpid then some tq' else s.tasks q) (hr : s'.runq = s.runq)
    (hn : s'.nextq = s.nextq) : SchedInv W s' ∅ none := by
  have hrun := (h.cur p).1 rfl
  have hpp : t.taskPpid ≠ 0 := h.links.ne_zero hq
  unfold waitsFor at hw
  have hnd := h.links.nodup _ tq hq
  have key' : ∀ q, s'.tasks q = if q = p then some t' else if q = t.taskPpid then (s.tasks q).map (fun _ => tq') else s.tasks q := by
    grind
  refine ⟨h.die_links hp ht' hb (Set.empty_subset _) (fun h0 => absurd h0 hpp) key' fun x hx => ?_, fun q => ?_,
    fun q => ?_, by rw [hr, hn]; exact h.nodup, fun hW q x hx hxs => ?_⟩
  · have := Set.notMem_empty p
    grind
  · have hcur := h.cur q
    grind
  · have hqd := h.queued q
    grind
  · have hbl := h.blocked hW q
    grind

end

/-- The current task takes one of its zombies to free it. -/
theorem take_zombie {z : Nat} (hz : z ∈ t.taskZombies)
    (hs' : s' = (s.delNode z).modifyTask z (fun t => { t with taskStatus := .dying })) :
    SchedInv W s' {z} (some p) ∧ s'.tasks p = some { t with taskZombies := t.taskZombies.erase z } := by
  obtain ⟨tz, htz, hpp, hd, _⟩ := (h.links.zombie p t z hp).1 hz
  obtain ⟨t0, ht0, hrun⟩ := (h.cur p).1 rfl
  have hpz : p ≠ z := by grind
  have hdel := h.links.delNode_dying h.queues htz hd (.inr hpp)
  have key : ∀ q, s'.tasks q = if q = z then some tz
      else if q = p then (s.tasks q).map (fun t => { t with taskZombies := t.taskZombies.erase z }) else s.tasks q := by
    intro q
    rw [hs', hdel, modifyTask_tasks, modifyTask_tasks]
    by_cases hq : q = z
    · simp only [hq, if_true, if_neg hpz.symm, htz, Option.map_some, Option.some.injEq]
      rw [← hd]
    · simp [hq]
  have hl : Links s' (insert z ∅) := h.links.zombie_out hp hz htz rfl (.inr hpp) (by rw [hs']; rfl) key
  rw [hdel] at hs'
  refine ⟨⟨by simpa using hl, fun q => ?_, fun q => ?_, by rw [hs']; exact h.nodup, fun hW q x hx => ?_⟩,
    by simp [key, hpz, hp]⟩
  · have hcur := h.cur q
    grind
  · have hqd := h.queued q
    rw [show s'.runq = s.runq by rw [hs']; rfl, show s'.nextq = s.nextq by rw [hs']; rfl]
    grind
  · have hbl := h.blocked hW q
    grind

end

end

/-! ## Blocking and making tasks -/

/-- The current task blocks, and it has not missed what it waits for. -/
theorem block {wait : Option Nat} (rstatus : Option Nat) (h : SchedInv W s ∅ (some p)) (hp : s.tasks p = some t)
    (hw : W → Awaits t wait) :
    SchedInv W { s.modifyTask p (fun t =>
      { t with taskWait := wait, taskStatus := .notRunnable, taskWaitExitStatus := rstatus }) with curTask := none } ∅ none ∧
    SameFamily s { s.modifyTask p (fun t =>
      { t with taskWait := wait, taskStatus := .notRunnable, taskWaitExitStatus := rstatus }) with curTask := none } := by
  obtain ⟨t0, ht0, hrun⟩ := (h.cur p).1 rfl
  have hfam : SameFamily s (s.modifyTask p (fun t =>
      { t with taskWait := wait, taskStatus := .notRunnable, taskWaitExitStatus := rstatus })) :=
    SameFamily.modifyTask s p (fun t' ht' => by grind [family])
  refine ⟨⟨h.links.congr hfam, fun q => ?_, fun q => ?_, h.nodup, fun hW q t' hq hb => ?_⟩, hfam⟩
  · have := h.cur q
    simp only [modifyTask_tasks]
    by_cases hq : q = p
    · simp [hq, hp]
    · simp only [hq, if_false]
      grind
  · have := h.queued q
    simp only [modifyTask_tasks, modifyTask_runq, modifyTask_nextq]
    by_cases hq : q = p
    · subst hq
      simp only [if_true, hp, Option.map_some, Option.some.injEq, exists_eq_left', reduceCtorEq, iff_false]
      grind
    · simpa [hq] using this
  · have := h.blocked hW q
    simp only [modifyTask_tasks] at hq
    by_cases hqp : q = p
    · subst hqp
      simp only [if_true, hp, Option.map_some, Option.some.injEq] at hq
      subst hq
      exact hw hW
    · simp only [hqp, if_false] at hq
      exact this t' hq hb

/-- A new task keeps the invariant. -/
theorem add {ppid : Nat} (type : TaskType) (h : SchedInv W s ∅ cur) (hpid : s.tasks pid = none) (hpos : pid ≠ 0)
    (hcur : ppid ≠ 0 → cur = some ppid)
    (key : ∀ q, s'.tasks q = if q = pid then some (newTask type ppid s.births)
      else if q = ppid then (s.tasks q).map (fun t => { t with taskChildren := pid :: t.taskChildren }) else s.tasks q)
    (hr : s'.runq = s.runq ++ [pid]) (hn : s'.nextq = s.nextq) (hb : s'.births = s.births + 1) : SchedInv W s' ∅ cur := by
  have hempty := not_in_hand
  have hz := h.links.zero
  have hchildless := h.links.childless hpid hpos
  have hparent : ppid ≠ 0 → ∃ t, s.tasks ppid = some t ∧ t.taskStatus = .running ∧ t.birth < s.births ∧ pid ∉ t.taskChildren := by
    intro h0
    obtain ⟨t, ht, hrun⟩ := (h.cur ppid).1 (hcur h0)
    have := h.links.child ppid t pid ht
    exact ⟨t, ht, hrun, h.links.born ppid t ht, by grind⟩
  refine ⟨⟨?_, fun q tq c hq => ?_, fun q tq c hq => ?_, fun q tq hq => ?_, fun c tc hc hch hc0 => ?_, fun c tc hc => ?_,
    fun c hc => absurd hc (hempty c), fun a b ta tb ha hb => ?_, fun a ta ha => ?_⟩, fun q => ?_, fun q => ?_, ?_,
    fun hW q t hq => ?_⟩
  · grind
  · have := h.links.child q
    simp only [key] at hq ⊢
    grind [newTask]
  · have := h.links.zombie q
    simp only [key] at hq ⊢
    grind [newTask]
  · have := h.links.nodup q
    grind [newTask]
  · have := h.links.parent c
    simp only [key] at hc ⊢
    grind [newTask]
  · have := h.links.orphan c
    grind [newTask]
  · have := h.links.birth a b
    have := h.links.born a
    have := h.links.born b
    grind [newTask]
  · have := h.links.born a
    grind [newTask]
  · have := h.cur q
    grind [newTask]
  · have := h.queued q
    rw [hr, hn]
    grind [newTask]
  · have := h.queued pid
    have := h.nodup
    rw [hr, hn]
    grind
  · have := h.blocked hW q
    grind [newTask]

theorem create (type : TaskType) (h : SchedInv W s ∅ cur) (hpid : s.tasks pid = none) (hpos : pid ≠ 0) :
    SchedInv W (s.addTask type 0 pid) ∅ cur := by
  refine h.add type hpid hpos (fun h0 => absurd rfl h0) (fun q => ?_) rfl rfl rfl
  have hz := h.links.zero
  by_cases hq : q = pid
  · simp [addTask, hq]
  · by_cases h0 : q = 0 <;> simp [addTask, hq, h0, hz, hpos.symm]

end SchedInv

end Sched

end OpenLsd
