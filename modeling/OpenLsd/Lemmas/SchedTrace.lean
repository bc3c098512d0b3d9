import OpenLsd.Lemmas.SchedInv

/-!
# What the trace says about tasks

`TraceInv s hand` ties the trace to the tasks: what is forked and not yet reported is in its parent's lists, what died is
dying or gone, and reports are of dead children, to their own parents, once. Tasks in `hand` have been reported or have
nobody to be reported to.
-/

namespace OpenLsd

namespace Sched

open TaskEvent

/-- The numbers in an event are below `n`. -/
def eventBelow (n : Nat) : TaskEvent → Prop
  | forked parent child => parent < n ∧ child < n
  | exited child _ _ => child < n
  | reported parent child _ _ => parent < n ∧ child < n

/-- What the trace says of the tasks. -/
structure TraceInv (s : Sched) (hand : Set Nat) : Prop where
  below : ∀ e ∈ s.trace, eventBelow s.births e
  nodup : s.trace.Nodup
  kin : ∀ x tx tq, s.tasks x = some tx → s.tasks tx.taskPpid = some tq → forked tq.birth tx.birth ∈ s.trace
  pending : ∀ q tq c, s.tasks q = some tq → q ∉ hand → forked tq.birth c ∈ s.trace →
    (∀ pid st, reported tq.birth c pid st ∉ s.trace) →
    ∃ x tx, s.tasks x = some tx ∧ tx.birth = c ∧ tx.taskPpid = q ∧ x ∉ hand
  unreported : ∀ x tx P pid st, s.tasks x = some tx → x ∉ hand → reported P tx.birth pid st ∉ s.trace
  dying : ∀ x tx, s.tasks x = some tx → tx.taskStatus = .dying → exited tx.birth x tx.taskExitStatus ∈ s.trace
  alive : ∀ x tx pid st, s.tasks x = some tx → tx.taskStatus ≠ .dying → exited tx.birth pid st ∉ s.trace
  sound : ∀ P c pid st, reported P c pid st ∈ s.trace → forked P c ∈ s.trace ∧ exited c pid st ∈ s.trace
  once : ∀ c pid st pid' st', exited c pid st ∈ s.trace → exited c pid' st' ∈ s.trace → pid' = pid ∧ st' = st
  oneParent : ∀ P P' c, forked P c ∈ s.trace → forked P' c ∈ s.trace → P' = P

/-- What the trace says is about these fields of a task. -/
def kin (t : Task) : Nat × Nat × Bool × Int :=
  (t.taskPpid, t.birth, decide (t.taskStatus = .dying), t.taskExitStatus)

theorem some_of_kin {o o' : Option Task} {t' : Task} (h : o'.map kin = o.map kin) (ho' : o' = some t') :
    ∃ t, o = some t ∧ t'.taskPpid = t.taskPpid ∧ t'.birth = t.birth ∧
      (t'.taskStatus = .dying ↔ t.taskStatus = .dying) ∧ t'.taskExitStatus = t.taskExitStatus := by
  obtain ⟨t, ht, hk⟩ := some_of_map_eq h ho'
  exact ⟨t, ht, by simpa [kin] using hk⟩

/-- Two states that the trace does not tell apart, task by task. -/
def SameKin (s s' : Sched) : Prop := s'.births = s.births ∧ ∀ q, (s'.tasks q).map kin = (s.tasks q).map kin

theorem SameKin.of_family {s s' : Sched} (h : SameFamily s s') : SameKin s s' := by
  refine ⟨h.1, fun q => ?_⟩
  have e := congrArg (Option.map fun f : Nat × List Nat × List Nat × Nat × Bool × Int =>
    (f.1, f.2.2.2.1, f.2.2.2.2.1, f.2.2.2.2.2)) (h.2 q)
  rwa [Option.map_map, Option.map_map] at e

namespace TraceInv

variable {W : Prop} {s s' : Sched} {hand : Set Nat} {cur : Option Nat} {p : Nat} {t : Task}

theorem congr (h : TraceInv s hand) (hs : SameKin s s') (ht : s'.trace = s.trace) : TraceInv s' hand := by
  have fwd := fun (q : Nat) (t' : Task) (hq : s'.tasks q = some t') => some_of_kin (hs.2 q) hq
  have bwd := fun (q : Nat) (t : Task) (hq : s.tasks q = some t) => some_of_kin (hs.2 q).symm hq
  refine ⟨?_, ?_, fun x tx tq hx hq => ?_, fun q tq c hq => ?_, fun x tx P pid st hx => ?_, fun x tx hx => ?_,
    fun x tx pid st hx => ?_, ?_, ?_, ?_⟩ <;> (try rw [ht])
  · rw [hs.1]
    exact h.below
  · exact h.nodup
  · have := h.kin x
    grind
  · have := h.pending q
    grind
  · have := h.unreported x
    grind
  · have := h.dying x
    grind
  · have := h.alive x
    grind
  · exact h.sound
  · exact h.once
  · exact h.oneParent

/-- Freeing the task in hand. -/
theorem freeRest (h : TraceInv s {p}) (hi : SchedInv W s {p} cur) : TraceInv (Sched.freeRest s.births s p) ∅ := by
  obtain ⟨t, ht, _⟩ := hi.links.inHand p rfl
  obtain ⟨_, hk, hgone⟩ := hi.links.freeRest (n := s.births) rfl hi.queues ht (by omega)
  have hl := hi.freeRest.links
  have hl0 := hi.links
  generalize Sched.freeRest s.births s p = s' at hk hgone hl
  have hback := hk.back
  have hempty := not_in_hand
  have hsing : ∀ d, d ∈ ({p} : Set Nat) ↔ d = p := fun d => Iff.rfl
  refine ⟨?_, ?_, fun x tx tq hx hq => ?_, fun q tq c hq _ hf hu => ?_, fun x tx P pid st hx _ => ?_, fun x tx hx hd => ?_,
    fun x tx pid st hx hd => ?_, ?_, ?_, ?_⟩ <;> (try rw [hk.trace])
  · rw [hk.births]
    exact h.below
  · exact h.nodup
  · obtain ⟨tx0, hx0, ex, hp, _⟩ := hback x tx hx
    obtain ⟨tq0, hq0, eq, _⟩ := hback _ tq hq
    have := hl.ne_zero hq
    have := h.kin x tx0 tq0 hx0
    grind
  · -- The child is in one of the parent's lists, and these lists have not changed.
    obtain ⟨tq0, hq0, eq, _, hlists⟩ := hback q tq hq
    obtain ⟨hc, hz⟩ := hlists (hempty q)
    have hqp : q ≠ p := by
      rintro rfl
      rw [hgone] at hq
      cases hq
    rw [hk.trace] at hf hu
    obtain ⟨x, tx, hx, hb, hpp, hxp⟩ := h.pending q tq0 c hq0 hqp (by grind) (by grind)
    have hx' : ∃ tx', s'.tasks x = some tx' ∧ tx'.taskPpid = q := by
      by_cases hd : tx.taskStatus = .dying
      · have := (hl0.zombie q tq0 x hq0).2 ⟨tx, hx, hpp, hd, hxp⟩
        have := hl.zombie q tq x hq
        grind
      · have := (hl0.child q tq0 x hq0).2 ⟨tx, hx, hpp, hd⟩
        have := hl.child q tq x hq
        grind
    obtain ⟨tx', hx', hpp'⟩ := hx'
    obtain ⟨tx0, hx0, ex, _⟩ := hback x tx' hx'
    exact ⟨x, tx', hx', by grind, hpp', hempty x⟩
  · obtain ⟨tx0, hx0, ex, _⟩ := hback x tx hx
    have := h.unreported x tx0 P pid st hx0
    grind
  · obtain ⟨tx0, hx0, ex, _⟩ := hback x tx hx
    have := h.dying x tx0 hx0
    grind
  · obtain ⟨tx0, hx0, ex, _⟩ := hback x tx hx
    have := h.alive x tx0 pid st hx0
    grind
  · exact h.sound
  · exact h.once
  · exact h.oneParent

/-- The death of the current task, which is in hand when it has no parent. -/
theorem die (h : TraceInv s ∅) (hi : SchedInv W s ∅ (some p)) (hp : s.tasks p = some t) {t' : Task}
    (ht' : t' = { t with taskStatus := .dying, taskExitStatus := t'.taskExitStatus })
    (hhand : ∀ x ∈ hand, x = p ∧ t.taskPpid = 0) (hp' : s'.tasks p = some t')
    (hs : ∀ q, q ≠ p → (s'.tasks q).map Sched.kin = (s.tasks q).map Sched.kin) (hb : s'.births = s.births)
    (ht : s'.trace = exited t.birth p t'.taskExitStatus :: s.trace) : TraceInv s' hand := by
  have hz := hi.links.zero
  obtain ⟨t0, ht0, hrun⟩ := (hi.cur p).1 rfl
  have hborn := hi.links.born p t hp
  have hempty := not_in_hand
  have hnew : ∀ pid st, exited t.birth pid st ∉ s.trace := fun pid st => h.alive p t pid st hp (by grind)
  have fwd := fun (q : Nat) (t' : Task) (hqp : q ≠ p) (hq : s'.tasks q = some t') => some_of_kin (hs q hqp) hq
  have bwd := fun (q : Nat) (t : Task) (hqp : q ≠ p) (hq : s.tasks q = some t) => some_of_kin (hs q hqp).symm hq
  refine ⟨?_, ?_, fun x tx tq hx hq => ?_, fun q tq c hq hqp hf hu => ?_, fun x tx P pid st hx hxp => ?_, fun x tx hx hd => ?_,
    fun x tx pid st hx hd => ?_, fun P c pid st hr => ?_, fun c pid st pid' st' h1 h2 => ?_, fun P P' c h1 h2 => ?_⟩
  · have := h.below
    rw [ht, hb]
    intro e he
    rcases List.mem_cons.1 he with rfl | he
    · exact hborn
    · exact this e he
  · rw [ht]
    exact List.nodup_cons.2 ⟨hnew _ _, h.nodup⟩
  · have := h.kin x
    rw [ht]
    grind
  · have := h.pending q
    rw [ht] at hf hu
    grind
  · have := h.unreported x
    rw [ht]
    grind
  · have := h.dying x
    rw [ht]
    grind
  · have := h.alive x
    have := hi.links.birth x p
    rw [ht]
    grind
  · have := h.sound P c pid st
    rw [ht] at hr ⊢
    grind
  · have := h.once c
    rw [ht] at h1 h2
    grind
  · have := h.oneParent P P' c
    rw [ht] at h1 h2
    grind

/-- A dead child is reported to its parent and taken in hand. -/
theorem report {x : Nat} {tx tq : Task} (h : TraceInv s ∅) (hl : Links s hand) (hx : s.tasks x = some tx)
    (hd : tx.taskStatus = .dying) (hq : s.tasks tx.taskPpid = some tq) :
    TraceInv { s with trace := reported tq.birth tx.birth x tx.taskExitStatus :: s.trace } {x} := by
  have hsing : ∀ d, d ∈ ({x} : Set Nat) ↔ d = x := fun d => Iff.rfl
  have hempty := not_in_hand
  have hnew : ∀ P pid st, reported P tx.birth pid st ∉ s.trace := fun P pid st => h.unreported x tx P pid st hx (hempty x)
  have hkin := h.kin x tx tq hx hq
  have hdead := h.dying x tx hx hd
  have hb := hl.born x tx hx
  have hb' := hl.born _ tq hq
  refine ⟨?_, List.nodup_cons.2 ⟨hnew _ _ _, h.nodup⟩, fun y ty ty' hy hy' => ?_, fun q ty c hy hyx hf hu => ?_,
    fun y ty P pid st hy hyx => ?_, fun y ty hy hyd => ?_, fun y ty pid st hy hyd => ?_, fun P c pid st hr => ?_,
    fun c pid st pid' st' h1 h2 => ?_, fun P P' c h1 h2 => ?_⟩
  · intro e he
    rcases List.mem_cons.1 he with rfl | he
    · exact ⟨hb', hb⟩
    · exact h.below e he
  · exact List.mem_cons_of_mem _ (h.kin y ty ty' hy hy')
  · obtain ⟨y, ty', hy', hyb, hyp, _⟩ := h.pending q ty c hy (hempty q) (by grind) (by grind)
    refine ⟨y, ty', hy', hyb, hyp, ?_⟩
    -- The child that is reported now is no longer pending.
    rintro rfl
    grind
  · have := h.unreported y ty P pid st hy (hempty y)
    have := hl.birth y x ty tx hy hx
    rw [hsing] at hyx
    grind
  · exact List.mem_cons_of_mem _ (h.dying y ty hy hyd)
  · have := h.alive y ty pid st hy hyd
    grind
  · have := h.sound P c pid st
    grind
  · have := h.once c pid st pid' st'
    grind
  · have := h.oneParent P P' c
    grind

/-- The trace after a fork. -/
theorem fork {pid : Nat} (h : TraceInv s ∅) (hl : Links s ∅) (hp : s.tasks p = some t) (hpid : s.tasks pid = none)
    (hpos : pid ≠ 0) (hpid' : s'.tasks pid = some (newTask .user p s.births))
    (hs : ∀ q, q ≠ pid → (s'.tasks q).map Sched.kin = (s.tasks q).map Sched.kin)
    (hb : s'.births = s.births + 1) (ht : s'.trace = forked t.birth s.births :: s.trace) : TraceInv s' ∅ := by
  have hborn := hl.born p t hp
  have hempty := not_in_hand
  have hpp : p ≠ pid := by grind
  have fwd := fun (q : Nat) (t' : Task) (hqp : q ≠ pid) (hq : s'.tasks q = some t') => some_of_kin (hs q hqp) hq
  have bwd := fun (q : Nat) (t : Task) (hqp : q ≠ pid) (hq : s.tasks q = some t) => some_of_kin (hs q hqp).symm hq
  -- Events are about numbers given before, so none is about the new task.
  have hnew : ∀ e ∈ s.trace, e ≠ forked t.birth s.births := by
    rintro e he rfl
    exact lt_irrefl _ (h.below _ he).2
  have hnoexit : ∀ pid st, exited s.births pid st ∉ s.trace := fun pid st he => lt_irrefl _ (h.below _ he)
  have hnoreport : ∀ P pid st, reported P s.births pid st ∉ s.trace := fun P pid st he => lt_irrefl _ (h.below _ he).2
  have hnochild : ∀ P, forked P s.births ∉ s.trace := fun P he => lt_irrefl _ (h.below _ he).2
  have hnoparent : ∀ c, forked s.births c ∉ s.trace := fun c he => lt_irrefl _ (h.below _ he).1
  have hchildless := hl.childless hpid hpos
  refine ⟨?_, ?_, fun x tx tq hx hq => ?_, fun q tq c hq hqp hf hu => ?_, fun x tx P pid st hx hxp => ?_, fun x tx hx hd => ?_,
    fun x tx pid st hx hd => ?_, fun P c pid st hr => ?_, fun c pid st pid' st' h1 h2 => ?_, fun P P' c h1 h2 => ?_⟩
  · rw [ht, hb]
    intro e he
    rcases List.mem_cons.1 he with rfl | he
    · exact ⟨by omega, by omega⟩
    · have := h.below e he
      cases e <;> simp only [eventBelow] at this ⊢ <;> omega
  · rw [ht]
    exact List.nodup_cons.2 ⟨fun he => hnew _ he rfl, h.nodup⟩
  · have := h.kin x
    rw [ht]
    grind [newTask]
  · have hpend := h.pending q
    rw [ht] at hf hu
    by_cases hqpid : q = pid
    · grind [newTask]
    · by_cases hc : c = s.births
      · have := hl.birth q p
        exact ⟨pid, _, hpid', by grind [newTask]⟩
      · grind
  · have := h.unreported x
    rw [ht]
    grind [newTask]
  · have := h.dying x
    rw [ht]
    grind [newTask]
  · have := h.alive x
    rw [ht]
    grind [newTask]
  · have := h.sound P c pid st
    rw [ht] at hr ⊢
    grind
  · have := h.once c
    rw [ht] at h1 h2
    grind
  · have := h.oneParent P P' c
    rw [ht] at h1 h2
    grind

end TraceInv

end Sched

end OpenLsd
