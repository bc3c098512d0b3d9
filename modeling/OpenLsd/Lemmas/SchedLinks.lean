import OpenLsd.Sched.Task

/-!
# The family tree of tasks

`Links s hand` says how the PID map, the lists of children and of zombies and the parent pids fit together. The tasks in
`hand` are the ones `task_free` is working on: they are dying and already out of their parent's list. Freeing a task keeps
the links, takes the task out of the hand, and leaves every other task that is not a zombie below it in place.
-/

namespace OpenLsd

variable {hand : Set Nat} {s s' : Sched}

namespace Sched

section Fields

variable (s : Sched) (p q : Nat) (f : Task → Task)

theorem modifyTask_tasks : (s.modifyTask p f).tasks q = if q = p then (s.tasks q).map f else s.tasks q := rfl
@[simp] theorem modifyTask_curTask : (s.modifyTask p f).curTask = s.curTask := rfl
@[simp] theorem modifyTask_runq : (s.modifyTask p f).runq = s.runq := rfl
@[simp] theorem modifyTask_nextq : (s.modifyTask p f).nextq = s.nextq := rfl

theorem modifyTask_self {t : Task} (h : s.tasks p = some t) : (s.modifyTask p f).tasks p = some (f t) := by
  simp [modifyTask_tasks, h]

theorem modifyTask_of_ne (h : q ≠ p) : (s.modifyTask p f).tasks q = s.tasks q := by
  simp [modifyTask_tasks, h]

end Fields

/-- How the family lists fit the PID map while the tasks in `hand` are being freed. -/
structure Links (s : Sched) (hand : Set Nat) : Prop where
  zero : s.tasks 0 = none
  child : ∀ q tq c, s.tasks q = some tq →
    (c ∈ tq.taskChildren ↔ ∃ tc, s.tasks c = some tc ∧ tc.taskPpid = q ∧ tc.taskStatus ≠ .dying)
  zombie : ∀ q tq c, s.tasks q = some tq →
    (c ∈ tq.taskZombies ↔ ∃ tc, s.tasks c = some tc ∧ tc.taskPpid = q ∧ tc.taskStatus = .dying ∧ c ∉ hand)
  nodup : ∀ q tq, s.tasks q = some tq → tq.taskChildren.Nodup ∧ tq.taskZombies.Nodup
  parent : ∀ c tc, s.tasks c = some tc → c ∉ hand → tc.taskPpid ≠ 0 →
    ∃ tq, s.tasks tc.taskPpid = some tq ∧ tq.birth < tc.birth
  orphan : ∀ c tc, s.tasks c = some tc → tc.taskPpid = 0 → tc.taskStatus = .dying → c ∈ hand
  inHand : ∀ c ∈ hand, ∃ tc, s.tasks c = some tc ∧ tc.taskStatus = .dying
  birth : ∀ p q tp tq, s.tasks p = some tp → s.tasks q = some tq → tp.birth = tq.birth → p = q
  born : ∀ p tp, s.tasks p = some tp → tp.birth < s.births

/-- What the family links read of a task. -/
def ties (t : Task) : Nat × List Nat × List Nat × Nat × Bool :=
  (t.taskPpid, t.taskChildren, t.taskZombies, t.birth, decide (t.taskStatus = .dying))

/-- What the family links and the trace read of a task. -/
def family (t : Task) : Nat × List Nat × List Nat × Nat × Bool × Int :=
  (t.taskPpid, t.taskChildren, t.taskZombies, t.birth, decide (t.taskStatus = .dying), t.taskExitStatus)

theorem family_eq {t t' : Task} : family t' = family t ↔ t'.taskPpid = t.taskPpid ∧ t'.taskChildren = t.taskChildren ∧
    t'.taskZombies = t.taskZombies ∧ t'.birth = t.birth ∧ (t'.taskStatus = .dying ↔ t.taskStatus = .dying) ∧
    t'.taskExitStatus = t.taskExitStatus := by
  simp [family]

/-- The task that two states agree on as far as `f` reads it. -/
theorem some_of_map_eq {α : Type} {f : Task → α} {o o' : Option Task} {t' : Task} (h : o'.map f = o.map f)
    (ho' : o' = some t') : ∃ t, o = some t ∧ f t' = f t := by
  rw [ho', Option.map_some] at h
  obtain ⟨t, ht, hf⟩ := Option.map_eq_some_iff.1 h.symm
  exact ⟨t, ht, hf.symm⟩

/-- Two states with the same family, task by task. -/
def SameFamily (s s' : Sched) : Prop :=
  s'.births = s.births ∧ ∀ q, (s'.tasks q).map family = (s.tasks q).map family

theorem SameFamily.refl (s : Sched) : SameFamily s s := ⟨rfl, fun _ => rfl⟩

theorem SameFamily.trans {s'' : Sched} (h : SameFamily s s') (h' : SameFamily s' s'') : SameFamily s s'' :=
  ⟨h'.1.trans h.1, fun q => (h'.2 q).trans (h.2 q)⟩

/-- A change of one task that keeps its family keeps the family of all. -/
theorem SameFamily.modifyTask (s : Sched) (p : Nat) {f : Task → Task}
    (hf : ∀ t, s.tasks p = some t → family (f t) = family t) : SameFamily s (s.modifyTask p f) := by
  refine ⟨rfl, fun q => ?_⟩
  rw [modifyTask_tasks]
  split
  · rename_i hq
    subst hq
    cases hs : s.tasks q with
    | none => rfl
    | some t => simp [hf t hs]
  · rfl

theorem Links.of_ties (h : Links s hand) (hbirths : s'.births = s.births)
    (hs : ∀ q, (s'.tasks q).map ties = (s.tasks q).map ties) : Links s' hand := by
  have key : ∀ {s s' : Sched}, (∀ q, (s'.tasks q).map ties = (s.tasks q).map ties) → ∀ q t', s'.tasks q = some t' →
      ∃ t, s.tasks q = some t ∧ t'.taskPpid = t.taskPpid ∧ t'.taskChildren = t.taskChildren ∧
        t'.taskZombies = t.taskZombies ∧ t'.birth = t.birth ∧ (t'.taskStatus = .dying ↔ t.taskStatus = .dying) := by
    intro s s' h q t' hq
    obtain ⟨t, ht, e⟩ := some_of_map_eq (h q) hq
    exact ⟨t, ht, by simpa [ties] using e⟩
  have fwd := key hs
  have bwd := key (fun q => (hs q).symm)
  refine ⟨?_, fun q tq c hq => ?_, fun q tq c hq => ?_, fun q tq hq => ?_, fun c tc hc => ?_, fun c tc hc => ?_,
    fun c hc => ?_, fun a b ta tb ha hb => ?_, fun a ta ha => ?_⟩
  · have := hs 0
    rw [h.zero] at this
    simpa using this
  · have := h.child q
    grind
  · have := h.zombie q
    grind
  · have := h.nodup q
    grind
  · have := h.parent c
    grind
  · have := h.orphan c
    grind
  · have := h.inHand c
    grind
  · have := h.birth a b
    grind
  · have := h.born a
    grind

theorem Links.congr (h : Links s hand) (hs : SameFamily s s') : Links s' hand := by
  refine h.of_ties hs.1 fun q => ?_
  have e := congrArg (Option.map fun f : Nat × List Nat × List Nat × Nat × Bool × Int =>
    (f.1, f.2.1, f.2.2.1, f.2.2.2.1, f.2.2.2.2.1)) (hs.2 q)
  rwa [Option.map_map, Option.map_map] at e

/-- A list that does not hold the task is not changed by taking it out. -/
theorem delChild_eq {p c : Nat} (h : ∀ q tq, s.tasks q = some tq → c ∈ tq.taskChildren → q = p) :
    s.delChild c = s.modifyTask p (fun t => { t with taskChildren := t.taskChildren.erase c }) := by
  unfold delChild modifyTask
  congr 1
  funext q
  split
  · rfl
  · rename_i hq
    cases hs : s.tasks q with
    | none => rfl
    | some tq => rw [Option.map_some, List.erase_of_not_mem (fun hc => hq (h q tq hs hc))]

theorem delNode_eq {p c : Nat} (h : ∀ q tq, s.tasks q = some tq → c ∈ tq.taskZombies → q = p) (hr : c ∉ s.runq)
    (hn : c ∉ s.nextq) : s.delNode c = s.modifyTask p (fun t => { t with taskZombies := t.taskZombies.erase c }) := by
  unfold delNode modifyTask
  rw [List.erase_of_not_mem hr, List.erase_of_not_mem hn]
  congr 1
  funext q
  split
  · rfl
  · rename_i hq
    cases hs : s.tasks q with
    | none => rfl
    | some tq => rw [Option.map_some, List.erase_of_not_mem (fun hc => hq (h q tq hs hc))]

/-- The queues hold tasks that are not dying. -/
def Queued (s : Sched) : Prop := ∀ x, x ∈ s.runq ∨ x ∈ s.nextq → ∃ t, s.tasks x = some t ∧ t.taskStatus ≠ .dying

/-- What freeing leaves alone: the tasks that stay have the same records but for a parent pid that may have become zero,
and tasks that are not dying stay. The lists of the tasks in `E` may have changed. -/
structure Kept (s s' : Sched) (E : Set Nat) : Prop where
  curTask : s'.curTask = s.curTask
  runq : s'.runq = s.runq
  nextq : s'.nextq = s.nextq
  births : s'.births = s.births
  trace : s'.trace = s.trace
  back : ∀ q t', s'.tasks q = some t' → ∃ t, s.tasks q = some t ∧
    t' = { t with taskPpid := t'.taskPpid, taskChildren := t'.taskChildren, taskZombies := t'.taskZombies } ∧
    (t'.taskPpid = t.taskPpid ∨ t'.taskPpid = 0) ∧
    (q ∉ E → t'.taskChildren = t.taskChildren ∧ t'.taskZombies = t.taskZombies)
  live : ∀ q t, s.tasks q = some t → t.taskStatus ≠ .dying → ∃ t', s'.tasks q = some t'

namespace Kept

variable {s'' : Sched} {E : Set Nat}

theorem refl (s : Sched) (E : Set Nat) : Kept s s E :=
  ⟨rfl, rfl, rfl, rfl, rfl, fun _ t' h => ⟨t', h, rfl, .inl rfl, fun _ => ⟨rfl, rfl⟩⟩, fun _ t h _ => ⟨t, h⟩⟩

theorem trans (h : Kept s s' E) (h' : Kept s' s'' E) : Kept s s'' E where
  curTask := h'.curTask.trans h.curTask
  runq := h'.runq.trans h.runq
  nextq := h'.nextq.trans h.nextq
  births := h'.births.trans h.births
  trace := h'.trace.trans h.trace
  back := by
    intro q t'' hq
    obtain ⟨t', ht', e', hp', hl'⟩ := h'.back q t'' hq
    obtain ⟨t, ht, e, hp, hl⟩ := h.back q t' ht'
    refine ⟨t, ht, by rw [e', e], by grind, fun hE => ?_⟩
    rw [(hl' hE).1, (hl' hE).2]
    exact hl hE
  live := by
    intro q t ht hd
    obtain ⟨t', ht'⟩ := h.live q t ht hd
    obtain ⟨t0, ht0, e, _⟩ := h.back q t' ht'
    have hst : t'.taskStatus = t.taskStatus := by
      rw [e]
      rw [ht, Option.some.injEq] at ht0
      rw [ht0]
    exact h'.live q t' ht' (hst ▸ hd)

theorem mono {E' : Set Nat} (h : Kept s s' E) (hE : E ⊆ E') : Kept s s' E' := by
  refine { h with back := fun q t' hq => ?_ }
  obtain ⟨t, ht, e, hp, hl⟩ := h.back q t' hq
  exact ⟨t, ht, e, hp, fun hq' => hl (fun hqE => hq' (hE hqE))⟩

/-- Once the tasks of `E` are gone there are no exceptions left. -/
theorem of_gone (h : Kept s s' E) (hE : ∀ q ∈ E, s'.tasks q = none) : Kept s s' ∅ := by
  refine { h with back := fun q t' hq => ?_ }
  obtain ⟨t, ht, e, hp, hl⟩ := h.back q t' hq
  refine ⟨t, ht, e, hp, fun _ => hl (fun hqE => ?_)⟩
  rw [hE q hqE] at hq
  cases hq

/-- A change to the lists of `p` and to the parent of `c` leaves the rest alone. -/
theorem of_two {p c : Nat} {tc : Task} {f : Task → Task} (hc : s.tasks c = some tc)
    (hf : ∀ t, f t = { t with taskChildren := (f t).taskChildren, taskZombies := (f t).taskZombies })
    (hfields : s'.curTask = s.curTask ∧ s'.runq = s.runq ∧ s'.nextq = s.nextq ∧ s'.births = s.births ∧ s'.trace = s.trace)
    (key : ∀ q, s'.tasks q = if q = c then some { tc with taskPpid := 0 } else if q = p then (s.tasks q).map f else s.tasks q) :
    Kept s s' {p} := by
  refine ⟨hfields.1, hfields.2.1, hfields.2.2.1, hfields.2.2.2.1, hfields.2.2.2.2, fun q t' hq => ?_, fun q t hq _ => ?_⟩
  · rw [key] at hq
    split at hq
    · rename_i hqc
      rw [Option.some.injEq] at hq
      subst hq hqc
      exact ⟨tc, hc, rfl, .inr rfl, fun _ => ⟨rfl, rfl⟩⟩
    · split at hq
      · rename_i hqp
        obtain ⟨t, ht, rfl⟩ := Option.map_eq_some_iff.1 hq
        exact ⟨t, ht, by rw [hf], .inl (by rw [hf]), fun hn => absurd hqp hn⟩
      · exact ⟨t', hq, rfl, .inl rfl, fun _ => ⟨rfl, rfl⟩⟩
  · rw [key, hq, Option.map_some]
    split
    · exact ⟨_, rfl⟩
    · split <;> exact ⟨_, rfl⟩

theorem queued (h : Kept s s' E) (hq : Queued s) : Queued s' := by
  intro x hx
  rw [h.runq, h.nextq] at hx
  obtain ⟨t, ht, hd⟩ := hq x hx
  obtain ⟨t', ht'⟩ := h.live x t ht hd
  obtain ⟨t0, ht0, e, _⟩ := h.back x t' ht'
  refine ⟨t', ht', ?_⟩
  rw [e]
  cases ht.symm.trans ht0
  exact hd

end Kept

namespace Links

variable {p c : Nat} {tp tc : Task}

section

variable (h : Links s hand) {tc' : Task}

include h

theorem ne_zero (hp : s.tasks p = some tp) : p ≠ 0 := by
  rintro rfl
  rw [h.zero] at hp
  cases hp

omit h in
theorem childless {pid : Nat} (h : Links s ∅) (hpid : s.tasks pid = none) (hpos : pid ≠ 0) (x : Nat) (tx : Task)
    (hx : s.tasks x = some tx) : tx.taskPpid ≠ pid := by
  rintro rfl
  obtain ⟨tq, hq, _⟩ := h.parent x tx hx (Set.notMem_empty x) hpos
  rw [hpid] at hq
  cases hq

/-- The task `c` dies or loses its parent, and it leaves the lists of the parent or becomes the last of the zombies. -/
structure Unlinked (s s' : Sched) (hand hand' : Set Nat) (c : Nat) (tc tc' : Task) : Prop where
  before : s.tasks c = some tc
  fresh : c ∉ hand
  births : s'.births = s.births
  own : tc'.taskChildren = tc.taskChildren ∧ tc'.taskZombies = tc.taskZombies ∧ tc'.birth = tc.birth
  out : tc'.taskPpid = 0 ∨ tc'.taskPpid = tc.taskPpid ∧ tc'.taskStatus = .dying
  orphan : tc'.taskPpid = 0 → tc'.taskStatus = .dying → c ∈ hand'
  hands : ∀ d, d ≠ c → (d ∈ hand' ↔ d ∈ hand)
  inHand : c ∈ hand' → tc'.taskStatus = .dying
  tasks : ∃ f : Task → Task, (∀ q, s'.tasks q = if q = c then some tc' else if q = tc.taskPpid then (s.tasks q).map f else s.tasks q) ∧
    ∀ tp, s.tasks tc.taskPpid = some tp → (f tp).taskPpid = tp.taskPpid ∧ (f tp).birth = tp.birth ∧
      ((f tp).taskStatus = .dying ↔ tp.taskStatus = .dying) ∧ (f tp).taskChildren = tp.taskChildren.erase c ∧
      ((tc'.taskPpid = 0 ∨ c ∈ hand') ∧ (f tp).taskZombies = tp.taskZombies.erase c ∨
        tc'.taskPpid ≠ 0 ∧ c ∉ hand' ∧ (f tp).taskZombies = tp.taskZombies.erase c ++ [c])

/-- The links when a task leaves its parent. -/
theorem unlink {hand' : Set Nat} (hu : Unlinked s s' hand hand' c tc tc') : Links s' hand' := by
  obtain ⟨hc, hfresh, hb, hown, hout, horph, hh, hin, f, key, hf⟩ := hu
  have hz0 := h.zero
  have hc0 := h.ne_zero hc
  have hpar := h.parent c tc hc hfresh
  -- All tasks but `c` keep their parent pid, number and state, and their lists but for `c`.
  have both : ∀ q, q ≠ c → s'.tasks q = none ∧ s.tasks q = none ∨ ∃ tq tq', s.tasks q = some tq ∧ s'.tasks q = some tq' ∧
      tq'.taskPpid = tq.taskPpid ∧ tq'.birth = tq.birth ∧ (tq'.taskStatus = .dying ↔ tq.taskStatus = .dying) ∧
      (tq'.taskChildren.Nodup ∧ tq'.taskZombies.Nodup) ∧
      (∀ d, d ∈ tq'.taskChildren ↔ d ≠ c ∧ d ∈ tq.taskChildren) ∧
      ∀ d, d ∈ tq'.taskZombies ↔ d ≠ c ∧ d ∈ tq.taskZombies ∨ d = c ∧ tc'.taskPpid = q ∧ c ∉ hand' := by
    intro q hqc
    have hkey := key q
    rw [if_neg hqc] at hkey
    cases hq : s.tasks q with
    | none => exact .inl ⟨by rw [hkey, hq]; simp, rfl⟩
    | some tq =>
      have hq0 := h.ne_zero hq
      have hnd := h.nodup q tq hq
      have hcc := h.child q tq c hq
      have hcz := h.zombie q tq c hq
      rw [hq, Option.map_some] at hkey
      by_cases hqp : q = tc.taskPpid
      · obtain ⟨h1, h2, h3, h4, h5⟩ := hf tq (hqp ▸ hq)
        rw [if_pos hqp] at hkey
        have hme := fun d => hnd.1.mem_erase_iff (a := d) (b := c)
        have hme' := fun d => hnd.2.mem_erase_iff (a := d) (b := c)
        have := hnd.1.erase c
        have := hnd.2.erase c
        refine .inr ⟨tq, f tq, rfl, hkey, h1, h2, h3, ⟨?_, ?_⟩, ?_, ?_⟩ <;> grind
      · rw [if_neg hqp] at hkey
        refine .inr ⟨tq, tq, rfl, hkey, rfl, rfl, Iff.rfl, hnd, ?_, ?_⟩ <;> grind
  have hc' : s'.tasks c = some tc' := by rw [key, if_pos rfl]
  clear key hf
  refine ⟨?_, fun q tq d hq => ?_, fun q tq d hq => ?_, fun q tq hq => ?_, fun d td hd hdh h0 => ?_, fun d td hd => ?_,
    fun d hd => ?_, fun a b ta tb ha hb' => ?_, fun a ta ha => ?_⟩
  · grind
  · have := h.child q
    grind
  · have := h.zombie q
    grind
  · have := h.nodup q
    grind
  · have := h.parent d
    grind
  · have := h.orphan d
    grind
  · have := h.inHand d
    grind
  · have := h.birth a b
    grind
  · have := h.born a
    grind

/-- One child of a task in hand becomes an orphan. -/
theorem orphan_child (hh : p ∈ hand) (hp : s.tasks p = some tp) (hc : c ∈ tp.taskChildren) :
    Links (s.orphan c) hand ∧ Kept s (s.orphan c) {p} ∧
      (s.orphan c).tasks p = some { tp with taskChildren := tp.taskChildren.erase c } := by
  obtain ⟨tc, htc, rfl, hd⟩ := (h.child p tp c hp).1 hc
  have hch : c ∉ hand := by
    have := h.inHand c
    grind
  have hpc : tc.taskPpid ≠ c := fun e => hch (e ▸ hh)
  have honly : ∀ q tq, s.tasks q = some tq → c ∈ tq.taskChildren → q = tc.taskPpid := by
    intro q tq hq hcq
    obtain ⟨tc', htc', hpp', _⟩ := (h.child q tq c hq).1 hcq
    grind
  have key : ∀ q, (s.orphan c).tasks q = if q = c then some { tc with taskPpid := 0 }
      else if q = tc.taskPpid then (s.tasks q).map (fun t => { t with taskChildren := t.taskChildren.erase c })
      else s.tasks q := by
    intro q
    rw [Sched.orphan, delChild_eq honly, modifyTask_tasks, modifyTask_tasks]
    by_cases hq : q = c
    · simp [hq, hpc.symm, htc]
    · simp [hq]
  have hcz : c ∉ tp.taskZombies := by
    have := h.zombie _ tp c hp
    grind
  have hun : Unlinked s (s.orphan c) hand hand c tc { tc with taskPpid := 0 } := by
    refine ⟨htc, hch, rfl, ⟨rfl, rfl, rfl⟩, .inl rfl, fun _ e => absurd e hd, fun _ _ => Iff.rfl, fun e => absurd e hch, _, key,
      fun tq hq => ?_⟩
    cases hp.symm.trans hq
    exact ⟨rfl, rfl, Iff.rfl, rfl, .inl ⟨.inl rfl, (List.erase_of_not_mem hcz).symm⟩⟩
  exact ⟨h.unlink hun, Kept.of_two htc (fun _ => rfl) ⟨rfl, rfl, rfl, rfl, rfl⟩ key, by simp [key, hpc, hp]⟩

/-- All children of a task in hand become orphans. -/
theorem orphan_children (hh : p ∈ hand) (hp : s.tasks p = some tp) :
    Links (tp.taskChildren.foldl Sched.orphan s) hand ∧ Kept s (tp.taskChildren.foldl Sched.orphan s) {p} ∧
      (tp.taskChildren.foldl Sched.orphan s).tasks p = some { tp with taskChildren := [] } := by
  generalize hl : tp.taskChildren = l
  induction l generalizing s tp with
  | nil =>
    refine ⟨h, Kept.refl s _, ?_⟩
    rw [List.foldl_nil, hp, ← hl]
  | cons c rest ih =>
    obtain ⟨h1, k1, hp1⟩ := h.orphan_child hh hp (c := c) (by rw [hl]; exact List.mem_cons_self ..)
    obtain ⟨h2, k2, hp2⟩ := ih h1 hp1 (by simp [hl])
    rw [List.foldl_cons]
    exact ⟨h2, k1.trans k2, hp2⟩

/-- The node of a dying task is in no list but the one of its parent's zombies. -/
theorem delNode_dying (hq : Queued s) (hc : s.tasks c = some tc) (hd : tc.taskStatus = .dying) (hp : c ∈ hand ∨ tc.taskPpid = p) :
    s.delNode c = s.modifyTask p (fun t => { t with taskZombies := t.taskZombies.erase c }) := by
  have := hq c
  refine delNode_eq (fun q tq htq hcq => ?_) (by grind) (by grind)
  have := h.zombie q tq c htq
  grind

/-- A zombie leaves the list. -/
theorem zombie_out (hp : s.tasks p = some tp) (hc : c ∈ tp.taskZombies)
    (htc : s.tasks c = some tc) (htc' : tc' = { tc with taskPpid := tc'.taskPpid })
    (hpp' : tc'.taskPpid = 0 ∨ tc'.taskPpid = p) (hb : s'.births = s.births)
    (key : ∀ q, s'.tasks q = if q = c then some tc'
      else if q = p then (s.tasks q).map (fun t => { t with taskZombies := t.taskZombies.erase c }) else s.tasks q) :
    Links s' (insert c hand) := by
  obtain ⟨tc0, htc0, rfl, hd, hch⟩ := (h.zombie p tp c hp).1 hc
  obtain rfl : tc0 = tc := Option.some.inj (htc0.symm.trans htc)
  have hd' : tc'.taskStatus = .dying := by rw [htc', hd]
  have hcc : c ∉ tp.taskChildren := by
    have := h.child _ tp c hp
    grind
  refine h.unlink ⟨htc, hch, hb, ⟨by rw [htc'], by rw [htc'], by rw [htc']⟩, hpp'.imp_right fun e => ⟨e, hd'⟩,
    fun _ _ => Set.mem_insert c hand, fun d hdc => by simp [hdc], fun _ => hd', _, key, fun tq hq => ?_⟩
  cases hp.symm.trans hq
  exact ⟨rfl, rfl, Iff.rfl, (List.erase_of_not_mem hcc).symm, .inl ⟨.inr (Set.mem_insert c hand), rfl⟩⟩

section

variable (hh : p ∈ hand) (hq : Queued s) (hp : s.tasks p = some tp)

include hh hq hp

/-- Taking a zombie out to free it. -/
theorem take_zombie (hc : c ∈ tp.taskZombies) (s' : Sched)
    (hs' : s' = (s.delNode c).modifyTask c (fun t => { t with taskPpid := 0, taskStatus := .dying })) :
    c ∉ hand ∧ (∃ tc, s'.tasks c = some tc ∧ tp.birth < tc.birth) ∧ Links s' (insert c hand) ∧ Kept s s' {p} ∧
      s'.tasks p = some { tp with taskZombies := tp.taskZombies.erase c } := by
  obtain ⟨tc, htc, hpp, hd, hch⟩ := (h.zombie p tp c hp).1 hc
  have hpc : p ≠ c := fun e => hch (e ▸ hh)
  have hbirth : tp.birth < tc.birth := by
    obtain ⟨tq, htq, hlt⟩ := h.parent c tc htc hch (hpp ▸ h.ne_zero hp)
    grind
  have hdel := h.delNode_dying hq htc hd (.inr hpp)
  have key : ∀ q, s'.tasks q = if q = c then some { tc with taskPpid := 0 }
      else if q = p then (s.tasks q).map (fun t => { t with taskZombies := t.taskZombies.erase c }) else s.tasks q := by
    intro q
    rw [hs', hdel, modifyTask_tasks, modifyTask_tasks]
    by_cases hq : q = c
    · simp [hq, hpc.symm, htc, hd]
    · simp [hq]
  rw [hdel] at hs'
  subst hs'
  exact ⟨hch, ⟨{ tc with taskPpid := 0 }, by simp [key], hbirth⟩, h.zombie_out hp hc htc rfl (.inl rfl) rfl key,
    Kept.of_two htc (fun _ => rfl) ⟨rfl, rfl, rfl, rfl, rfl⟩ key, by simp [key, hpc, hp]⟩

/-- Freeing a task without children. -/
theorem remove (hc : tp.taskChildren = []) (hz : tp.taskZombies = []) (n : Nat) (s' : Sched)
    (hs' : s' = { s.delNode p with tasks := Function.update (s.delNode p).tasks p none, nuserTasks := n }) :
    Links s' (hand \ {p}) ∧ Kept s s' ∅ ∧ s'.tasks p = none := by
  obtain ⟨tp', htp', hd⟩ := h.inHand p hh
  rw [h.delNode_dying (p := p) hq htp' hd (.inl hh)] at hs'
  have key : ∀ q, s'.tasks q = if q = p then none else s.tasks q := by
    intro q
    rw [hs']
    by_cases hq : q = p
    · simp [hq]
    · simp [hq, modifyTask_tasks]
  have hdiff : ∀ d, d ∈ hand \ {p} ↔ d ∈ hand ∧ d ≠ p := fun d => Iff.rfl
  have hb : s'.births = s.births := by rw [hs']; rfl
  refine ⟨⟨?_, ?_, ?_, ?_, ?_, ?_, ?_, ?_, ?_⟩, ⟨by rw [hs']; rfl, by rw [hs']; rfl, by rw [hs']; rfl, hb, by rw [hs']; rfl, ?_, ?_⟩,
    by simp [key]⟩
  · have := h.zero
    grind
  · intro q tq d hq
    have hchild := h.child q
    simp only [key] at hq ⊢
    grind
  · intro q tq d hq
    have hzombie := h.zombie q
    simp only [key, hdiff] at hq ⊢
    grind
  · intro q tq hq
    have hnodup := h.nodup q
    rw [key] at hq
    grind
  · intro d td hd' hdh hd0
    have hparent := h.parent d
    have hchild := h.child p tp d hp
    have hzombie := h.zombie p tp d hp
    simp only [key, hdiff] at hd' hdh ⊢
    grind
  · intro d td hd'
    have horphan := h.orphan d
    simp only [key, hdiff] at hd' ⊢
    grind
  · intro d hdh
    have hin := h.inHand d
    simp only [key, hdiff] at hdh ⊢
    grind
  · intro a b ta tb ha hb
    have hbirth := h.birth a b
    rw [key] at ha hb
    grind
  · intro a ta ha
    have hborn := h.born a
    rw [key] at ha
    grind
  · intro q t' hq
    rw [key] at hq
    split at hq
    · cases hq
    · exact ⟨t', hq, rfl, .inl rfl, fun _ => ⟨rfl, rfl⟩⟩
  · intro q t hq hqd
    rw [key]
    grind

/-- Freeing a task in hand with all zombies below it. -/
theorem freeRest {n : Nat} (hn : s.births ≤ tp.birth + n) :
    Links (Sched.freeRest n s p) (hand \ {p}) ∧ Kept s (Sched.freeRest n s p) ∅ ∧
      (Sched.freeRest n s p).tasks p = none := by
  induction n generalizing s hand p tp with
  | zero =>
    have := h.born p tp hp
    omega
  | succ n ih =>
    obtain ⟨h1, k1, hp1⟩ := h.orphan_children hh hp
    -- The loop over the zombies: each is freed by the recursion before the next one is looked at.
    let body : Sched → Nat → Sched := fun s z =>
      Sched.freeRest n ((s.delNode z).modifyTask z (fun t => { t with taskPpid := 0, taskStatus := .dying })) z
    have loop : ∀ (l : List Nat) (s' : Sched) (tp' : Task), Links s' hand → Queued s' → s'.tasks p = some tp' →
        tp'.taskZombies = l → tp'.birth = tp.birth → s'.births = s.births → tp'.taskChildren = [] →
        ∃ tp'', (l.foldl body s').tasks p = some tp'' ∧ tp''.taskChildren = [] ∧ tp''.taskZombies = [] ∧
          Links (l.foldl body s') hand ∧ Kept s' (l.foldl body s') {p} := by
      intro l
      induction l with
      | nil =>
        intro s' tp' h' _ hp' hz _ _ hc
        exact ⟨tp', hp', hc, hz, h', Kept.refl s' _⟩
      | cons z rest ihl =>
        intro s' tp' h' hq' hp' hz hb hbs hc
        obtain ⟨hzh, ⟨tz, htz, hlt⟩, hL, hK, hp2⟩ := h'.take_zombie hh hq' hp' (c := z)
          (by rw [hz]; exact List.mem_cons_self ..) _ rfl
        obtain ⟨hL3, hK3, _⟩ := ih hL (Set.mem_insert z hand) (hK.queued hq') htz (by rw [hK.births]; omega)
        have hback : insert z hand \ {z} = hand := by
          ext x
          rw [Set.mem_sdiff, Set.mem_insert_iff, Set.mem_singleton_iff]
          grind
        rw [hback] at hL3
        obtain ⟨tp3, htp3, _⟩ := hL3.inHand p hh
        obtain ⟨tp2, htp2, e3, _, hlists⟩ := hK3.back p tp3 htp3
        rw [hp2, Option.some.injEq] at htp2
        obtain ⟨hc3, hz3⟩ := hlists (Set.notMem_empty p)
        have hz4 : tp3.taskZombies = rest := by rw [hz3, ← htp2]; simp [hz]
        have hb4 : tp3.birth = tp.birth := by rw [e3, ← htp2]; exact hb
        have hc4 : tp3.taskChildren = [] := by rw [hc3, ← htp2]; exact hc
        have hK4 := hK.trans (hK3.mono (Set.empty_subset _))
        obtain ⟨tp'', g1, g2, g3, g4, g5⟩ := ihl _ tp3 hL3 (hK4.queued hq') htp3 hz4 hb4 (hK4.births.trans hbs) hc4
        rw [List.foldl_cons]
        exact ⟨tp'', g1, g2, g3, g4, hK4.trans g5⟩
    obtain ⟨tp'', g1, g2, g3, g4, g5⟩ := loop _ _ _ h1 (k1.queued hq) hp1 rfl rfl k1.births rfl
    have hK := k1.trans g5
    rw [Sched.freeRest, hp]
    obtain ⟨r1, r2, r3⟩ := g4.remove hh (hK.queued hq) g1 g2 g3 _ _ rfl
    refine ⟨r1, (hK.trans (r2.mono (Set.empty_subset _))).of_gone ?_, r3⟩
    rintro q rfl
    exact r3

end

end

end Links

end Sched

end OpenLsd
