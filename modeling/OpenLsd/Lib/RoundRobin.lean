import Mathlib

/-!
# Round robin with two queues

A processor that serves a queue from its front and collects in a second queue those who gave up their turn; when the first
queue is empty the two change roles. Newcomers join the first queue. Between two turns of somebody everybody who was
waiting then, and did not go away, has exactly one turn.
-/

namespace RoundRobin

variable {A : Type} [DecidableEq A]

/-- Who has the processor, and the queues in the order in which they are served. -/
structure State (A : Type) where
  cur : Option A
  runq : List A
  nextq : List A

namespace State

/-- Everybody who is here. -/
def present (s : State A) : List A := s.cur.toList ++ s.runq ++ s.nextq

/-- The choice of the next one. -/
def pick (runq nextq : List A) : State A :=
  match runq, nextq with
  | p :: rest, nextq => ⟨some p, rest, nextq⟩
  | [], p :: rest => ⟨some p, rest, []⟩
  | [], [] => ⟨none, [], []⟩

/-- Those who are served before `t`. -/
def ahead (t : A) (s : State A) : List A :=
  if t ∈ s.runq then s.runq.takeWhile (· ≠ t) else s.runq ++ s.nextq.takeWhile (· ≠ t)

end State

open State

/-- One step, with the choice it makes if it makes one. Newcomers were not here before. -/
inductive Step : State A → Option A → State A → Prop
  /-- The one who has the processor keeps it. -/
  | stay {s : State A} {new : List A} (hnew : ∀ x ∈ new, x ∉ s.present) : Step s none ⟨s.cur, s.runq ++ new, s.nextq⟩
  /-- The one who has the processor gives up the turn. -/
  | back {s : State A} {p : A} (hp : s.cur = some p) : Step s (pick s.runq (s.nextq ++ [p])).cur (pick s.runq (s.nextq ++ [p]))
  /-- The one who has the processor goes away. -/
  | leave {s : State A} {new : List A} {p : A} (hp : s.cur = some p) (hnew : ∀ x ∈ new, x ∉ s.present) :
    Step s (pick (s.runq ++ new) s.nextq).cur (pick (s.runq ++ new) s.nextq)
  /-- The processor stops. -/
  | halt {s : State A} {runq nextq : List A} : Step s none ⟨none, runq, nextq⟩

variable {s s' : State A} {sel : Option A} {t u : A} {nextq runq new : List A}

omit [DecidableEq A] in
theorem mem_of_pick (h : (pick runq nextq).cur = some t) : t ∈ runq ∨ t ∈ nextq := by
  cases runq with
  | cons p rest =>
    cases h
    exact .inl List.mem_cons_self
  | nil =>
    cases nextq with
    | cons p rest =>
      cases h
      exact .inr List.mem_cons_self
    | nil => cases h

omit [DecidableEq A] in
theorem pick_none (h : (pick runq nextq).cur = none) : pick runq nextq = ⟨none, [], []⟩ := by
  cases runq with
  | cons p rest => cases h
  | nil =>
    cases nextq with
    | cons p rest => cases h
    | nil => rfl

omit [DecidableEq A] in
/-- One who gives up the turn is chosen again only when nobody else is here. -/
theorem pick_back (hr : t ∉ runq) (hn : t ∉ nextq) (h : (pick runq (nextq ++ [t])).cur = some t) : runq = [] ∧ nextq = [] := by
  cases runq with
  | cons p rest =>
    cases h
    exact absurd List.mem_cons_self hr
  | nil =>
    cases nextq with
    | cons p rest =>
      cases h
      exact absurd List.mem_cons_self hn
    | nil => exact ⟨rfl, rfl⟩

/-- The choice is the first who is ahead of `t`, or `t` when nobody is. -/
theorem pick_ahead (ht : t ∈ runq ∨ t ∈ nextq) :
    (ahead t ⟨none, runq, nextq⟩ = [] ∧ (pick runq nextq).cur = some t) ∨
    ∃ p rest, ahead t ⟨none, runq, nextq⟩ = p :: rest ∧ p ≠ t ∧ (pick runq nextq).cur = some p ∧
      ahead t (pick runq nextq) = rest ∧ (t ∈ (pick runq nextq).runq ∨ t ∈ (pick runq nextq).nextq) := by
  cases runq with
  | cons p rest =>
    by_cases hpt : p = t
    · subst hpt
      exact .inl ⟨by simp [ahead], rfl⟩
    · refine .inr ⟨p, ahead t ⟨some p, rest, nextq⟩, ?_, hpt, rfl, rfl, ?_⟩
      · by_cases hmem : t ∈ rest
        · simp [ahead, hmem, hpt]
        · simp [ahead, hmem, Ne.symm hpt]
      · rcases ht with ht | ht
        · exact .inl ((List.mem_cons.1 ht).resolve_left (Ne.symm hpt))
        · exact .inr ht
  | nil =>
    have htn : t ∈ nextq := ht.resolve_left List.not_mem_nil
    cases nextq with
    | nil => cases htn
    | cons p rest =>
      by_cases hpt : p = t
      · subst hpt
        exact .inl ⟨by simp [ahead], rfl⟩
      · have hmem : t ∈ rest := (List.mem_cons.1 htn).resolve_left (Ne.symm hpt)
        refine .inr ⟨p, ahead t ⟨some p, rest, []⟩, ?_, hpt, rfl, rfl, .inl hmem⟩
        simp [ahead, hmem, hpt]

theorem mem_of_mem_ahead (h : u ∈ ahead t s) : u ∈ s.runq ∨ u ∈ s.nextq := by
  unfold ahead at h
  split at h
  · exact .inl (List.takeWhile_subset _ h)
  · exact (List.mem_append.1 h).imp_right fun h => List.takeWhile_subset _ h

theorem takeWhile_append_of_mem {l l' : List A} (h : t ∈ l) : (l ++ l').takeWhile (· ≠ t) = l.takeWhile (· ≠ t) := by
  induction l with
  | nil => cases h
  | cons x l ih =>
    by_cases hx : x = t
    · simp [hx]
    · have hl := ih ((List.mem_cons.1 h).resolve_left (Ne.symm hx))
      simp [hx] at hl ⊢
      exact hl

/-- Newcomers do not change whether one of the others is ahead. -/
theorem mem_ahead_append (c c' : Option A) (runq nextq : List A) (ht : t ∉ new) (hu : u ∉ new) :
    u ∈ ahead t ⟨c, runq ++ new, nextq⟩ ↔ u ∈ ahead t ⟨c', runq, nextq⟩ := by
  by_cases hmem : t ∈ runq
  · simp only [ahead, List.mem_append, hmem, true_or, if_true, takeWhile_append_of_mem hmem]
  · simp only [ahead, List.mem_append, hmem, ht, or_self, if_false, hu, or_false]

/-- Nobody overtakes: one who gives up the turn is behind. -/
theorem ahead_back (c c' : Option A) {p : A} (ht : t ∈ runq ∨ t ∈ nextq) :
    ahead t ⟨c, runq, nextq ++ [p]⟩ = ahead t ⟨c', runq, nextq⟩ := by
  by_cases hmem : t ∈ runq
  · simp only [ahead, hmem, if_true]
  · simp only [ahead, hmem, if_false, takeWhile_append_of_mem (ht.resolve_left hmem)]

/-- While `t` waits for its turn, `u` has had `n` turns: one if it is not ahead any more, and none before. -/
structure Turn (t u : A) (n : Nat) (s : State A) : Prop where
  waits : t ∈ s.runq ∨ t ∈ s.nextq
  count : n + (if u ∈ ahead t s then 1 else 0) = 1

variable {n : Nat}

/-- A choice of somebody other than `t`. -/
theorem Turn.pick (h : Turn t u n ⟨none, runq, nextq⟩) (hsel : (pick runq nextq).cur ≠ some t)
    (hnd : (pick runq nextq).present.Nodup) : Turn t u (n + (pick runq nextq).cur.toList.count u) (pick runq nextq) := by
  rcases pick_ahead h.waits with ⟨_, hcur⟩ | ⟨p, rest, hahead, hpt, hcur, hrest, hwait⟩
  · exact absurd hcur hsel
  · refine ⟨hwait, ?_⟩
    have hcount := h.count
    rw [hahead] at hcount
    rw [hcur, hrest, Option.toList_some]
    by_cases hu : u = p
    · -- The one who is chosen is in no queue any more, so it is not ahead.
      subst hu
      have hnot : u ∉ rest := fun hmem => by
        have hq := mem_of_mem_ahead (hrest ▸ hmem)
        simp only [present, hcur, Option.toList_some, List.cons_append, List.nil_append, List.nodup_cons,
          List.mem_append] at hnd
        exact hnd.1 hq
      simpa [hnot] using hcount
    · simpa [hu, Ne.symm hu] using hcount

/-- The step in which `t` gives up its turn. -/
theorem Turn.first (ht : s.cur = some t) (hnd : s.present.Nodup) (hu : u ∈ s.runq ∨ u ∈ s.nextq)
    (hsel : (State.pick s.runq (s.nextq ++ [t])).cur ≠ some t) (hnd' : (State.pick s.runq (s.nextq ++ [t])).present.Nodup) :
    Turn t u ((State.pick s.runq (s.nextq ++ [t])).cur.toList.count u) (State.pick s.runq (s.nextq ++ [t])) := by
  have hnot : t ∉ s.runq ∧ t ∉ s.nextq := by
    simp only [present, ht, Option.toList_some, List.cons_append, List.nil_append, List.nodup_cons, List.mem_append,
      not_or] at hnd
    exact hnd.1
  have hstart : Turn t u 0 ⟨none, s.runq, s.nextq ++ [t]⟩ := by
    refine ⟨.inr (by simp), ?_⟩
    have hahead : ahead t ⟨none, s.runq, s.nextq ++ [t]⟩ = s.runq ++ s.nextq := by
      rw [ahead, if_neg hnot.1, List.takeWhile_append_of_pos]
      · simp
      · exact fun x hx => by simpa using fun e : x = t => hnot.2 (e ▸ hx)
    rw [hahead, if_pos (List.mem_append.2 hu)]
  simpa using hstart.pick hsel hnd'

theorem Turn.arrive {c c' : Option A} (h : Turn t u n ⟨c, runq, nextq⟩) (ht : t ∉ new)
    (hu : u ∉ new) : Turn t u n ⟨c', runq ++ new, nextq⟩ := by
  refine ⟨h.waits.imp_left fun h => List.mem_append_left _ h, ?_⟩
  simpa only [mem_ahead_append c' c runq nextq ht hu] using h.count

theorem Turn.back (h : Turn t u n s) (p : A) : Turn t u n ⟨none, s.runq, s.nextq ++ [p]⟩ := by
  refine ⟨h.waits.imp_right fun h => List.mem_append_left _ h, ?_⟩
  rw [ahead_back none s.cur h.waits]
  exact h.count

/-- When `t` is chosen nobody is ahead. -/
theorem Turn.chosen (h : Turn t u n ⟨none, runq, nextq⟩) (hsel : (State.pick runq nextq).cur = some t) : n = 1 := by
  rcases pick_ahead h.waits with ⟨hnil, _⟩ | ⟨p, rest, _, hpt, hcur, _⟩
  · have hcount := h.count
    rw [hnil, if_neg List.not_mem_nil] at hcount
    exact hcount
  · rw [hcur, Option.some.injEq] at hsel
    exact absurd hsel hpt

theorem Turn.present (h : Turn t u n s) : t ∈ s.present := by
  simp only [State.present, List.mem_append]
  rcases h.waits with hw | hw
  · exact .inl (.inr hw)
  · exact .inr hw

/-- Any other step that does not choose `t`, as long as `u` is here. -/
theorem Turn.step (h : Turn t u n s) (hs : Step s sel s') (hnd' : s'.present.Nodup) (hu : u ∈ s.present) (hu' : u ∈ s'.present)
    (hcur : s'.cur ≠ none) (hsel : sel ≠ some t) : Turn t u (n + sel.toList.count u) s' := by
  cases hs with
  | stay hnew => exact h.arrive (fun ht => hnew t ht h.present) fun hn => hnew u hn hu
  | @back p hp =>
    exact (h.back p).pick hsel hnd'
  | @leave new p hp hnew =>
    have harr : Turn t u n ⟨none, s.runq ++ new, s.nextq⟩ := h.arrive (fun ht => hnew t ht h.present) fun hn => hnew u hn hu
    exact harr.pick hsel hnd'
  | halt => exact absurd rfl hcur

/-- When `t` has its turn again, `u` has had exactly one. -/
theorem Turn.last (h : Turn t u n s) (hs : Step s (some t) s') (hu : u ∈ s.present) : n = 1 := by
  generalize hsel : some t = sel at hs
  cases hs with
  | stay => cases hsel
  | @back p hp => exact (h.back p).chosen hsel.symm
  | @leave new p hp hnew =>
    have harr : Turn t u n ⟨none, s.runq ++ new, s.nextq⟩ := h.arrive (fun ht => hnew t ht h.present) fun hn => hnew u hn hu
    exact harr.chosen hsel.symm
  | halt => cases hsel

end RoundRobin
