import OpenLsd.Lemmas.SchedFrames
import OpenLsd.Lib.Outcome

/-!
# Runs of the scheduler

The states the scheduler reaches from boot when tasks fork, exit, wait and yield in any order, and the invariants of all of
them.
-/

namespace OpenLsd

namespace Sched

open TaskEvent

/-- The states reached from boot by steps that meet the condition. -/
inductive Reachable (ok : UserMem → Sched → Nat → TaskAction → Prop) : Sched → Prop
  | boot {types : List TaskType} {s : Sched} (h : createAll empty types = some s) : Reachable ok s.schedYield
  | step {s s' : Sched} {p : Nat} (mem : UserMem) (a : TaskAction) (hr : Reachable ok s) (hc : s.curTask = some p)
    (hok : ok mem s p a) (hs : s.step mem a = some s') : Reachable ok s'

variable {W : Prop} {ok : UserMem → Sched → Nat → TaskAction → Prop} {s s' : Sched} {p : Nat} {t : Task}
  {check : Sched → Nat → TaskAction → Bool} {types : List TaskType} {acts : List TaskAction} {mem : UserMem}

/-! ## Boot -/

theorem empty_inv : SchedInv W empty ∅ none := by
  have hno : ∀ q t, empty.tasks q ≠ some t := fun q t h => by cases h
  refine ⟨⟨rfl, ?_, ?_, ?_, ?_, ?_, ?_, ?_, ?_⟩, ?_, ?_, List.nodup_nil, ?_⟩
  · exact fun q tq c h => absurd h (hno q tq)
  · exact fun q tq c h => absurd h (hno q tq)
  · exact fun q tq h => absurd h (hno q tq)
  · exact fun q tq h => absurd h (hno q tq)
  · exact fun q tq h => absurd h (hno q tq)
  · exact fun c hc => absurd hc (Set.notMem_empty c)
  · exact fun a b ta tb h => absurd h (hno a ta)
  · exact fun q tq h => absurd h (hno q tq)
  · intro q
    refine ⟨fun h => (by cases h), fun h => ?_⟩
    obtain ⟨t, ht, _⟩ := h
    exact absurd ht (hno q t)
  · intro q
    refine ⟨fun h => (by rcases h with h | h <;> cases h), fun h => ?_⟩
    obtain ⟨t, ht, _⟩ := h
    exact absurd ht (hno q t)
  · exact fun _ q tq h => absurd h (hno q tq)

/-- Nothing has happened yet: no task has a parent, or is dying. -/
structure Quiet (s : Sched) : Prop where
  cur : s.curTask = none
  trace : s.trace = []
  orphans : ∀ x tx, s.tasks x = some tx → tx.taskPpid = 0 ∧ tx.taskStatus ≠ .dying ∧ tx.taskStatus ≠ .notRunnable

theorem Quiet.addTask (h : Quiet s) (type : TaskType) (pid : Nat) : Quiet (s.addTask type 0 pid) := by
  refine ⟨h.cur, h.trace, fun x tx hx => ?_⟩
  by_cases hxp : x = pid
  · subst hxp
    have e : (s.addTask type 0 x).tasks x = some (newTask type 0 s.births) := Function.update_self ..
    rw [e] at hx
    cases hx
    exact ⟨rfl, by simp [newTask], by simp [newTask]⟩
  · have e : (s.addTask type 0 pid).tasks x = s.tasks x := Function.update_of_ne hxp ..
    exact h.orphans x tx (e ▸ hx)

/-- What the creation of a task with a free pid keeps holds after boot. -/
theorem createAll_rule {P : Sched → Prop} (hP : ∀ s type pid, s.tasks pid = none → pid ≠ 0 → pid < pidMax → P s →
    P (s.addTask type 0 pid)) (h : P s) (hs : s.createAll types = some s') : P s' := by
  induction types generalizing s with
  | nil =>
    cases hs
    exact h
  | cons type rest ih =>
    rw [createAll, taskCreate] at hs
    cases hf : findPid s.tasks (pidMax - 1) 1 with
    | none =>
      rw [hf] at hs
      cases hs
    | some pid =>
      rw [hf] at hs
      obtain ⟨hpid, hpos, hmax⟩ := findPid_some hf
      exact ih (hP s type pid hpid (by omega) (by simp only [pidMax] at hmax ⊢; omega) h) hs

theorem createAll_inv (h : SchedInv W s ∅ none) (hq : Quiet s) (hs : s.createAll types = some s') :
    SchedInv W s' ∅ none ∧ Quiet s' :=
  createAll_rule (P := fun s => SchedInv W s ∅ none ∧ Quiet s)
    (fun _ type pid hpid hpos _ h => ⟨h.1.create type hpid hpos, h.2.addTask type pid⟩) ⟨h, hq⟩ hs

/-- The pids of tasks are below `pidMax`. -/
def PidsBelow (s : Sched) : Prop := ∀ q t, s.tasks q = some t → q < pidMax

theorem PidsBelow.buried (h : PidsBelow s) (hb : Buried p s s') : PidsBelow s' := by
  intro q t' hq
  rcases hb.tasks q t' hq with ⟨_, hlt⟩ | ⟨t, ht, _⟩
  · exact hlt
  · exact h q t ht

theorem createAll_pidsBelow (h : PidsBelow s) (hs : s.createAll types = some s') : PidsBelow s' := by
  refine createAll_rule (fun s type pid _ _ hlt h q t hq => ?_) h hs
  by_cases hqp : q = pid
  · exact hqp ▸ hlt
  · exact h q t ((Function.update_of_ne hqp _ _).symm.trans hq)

/-- An empty trace is right about tasks without parents. -/
theorem Quiet.traceInv (h : Quiet s) (hz : s.tasks 0 = none) : TraceInv s ∅ := by
  have hnil : ∀ e : TaskEvent, e ∉ s.trace := fun e he => by simp [h.trace] at he
  refine ⟨?_, by simp [h.trace], ?_, ?_, ?_, ?_, ?_, ?_, ?_, ?_⟩
  · exact fun e he => absurd he (hnil e)
  · intro x tx tq hx hq
    rw [(h.orphans x tx hx).1, hz] at hq
    cases hq
  · exact fun q tq c _ _ hf => absurd hf (hnil _)
  · exact fun x tx P pid st _ _ => hnil _
  · exact fun x tx hx hd => absurd hd (h.orphans x tx hx).2.1
  · exact fun x tx pid st _ _ => hnil _
  · exact fun P c pid st hr => absurd hr (hnil _)
  · exact fun c pid st pid' st' he => absurd he (hnil _)
  · exact fun P P' c hf => absurd hf (hnil _)

theorem boot_inv (h : createAll empty types = some s) :
    SchedInv W s.schedYield ∅ s.schedYield.curTask ∧ TraceInv s.schedYield ∅ ∧ Quiet s := by
  have hempty : Quiet empty := ⟨rfl, rfl, fun x tx hx => by cases hx⟩
  obtain ⟨hi, hq⟩ := createAll_inv empty_inv hempty h
  rw [← hq.cur] at hi
  obtain ⟨h1, h2, h3⟩ := hi.schedYield
  exact ⟨h1, (hq.traceInv hi.links.zero).congr (SameKin.of_family h2) h3, hq⟩

/-! ## Runs -/

/-- A step that ends early leaves the invariant, and happens only when the store of an exit status fails. -/
theorem step_spec (h : SchedInv W s ∅ s.curTask) (mem : UserMem) (a : TaskAction) (hc : s.curTask = some p)
    (hw : W → WaitpidOk s p a) (hs : s.step mem a = some s') :
    SchedInv W s' ∅ s'.curTask ∧ (StoreOk mem s p a → TraceInv s ∅ → TraceInv s' ∅) ∧ Ended s p s' := by
  rw [hc] at h
  rcases act_spec h hc mem a hw with ⟨s1, he, hdone⟩ | ⟨hno, ⟨s1, he, hi, hend⟩ | he⟩ <;> simp only [step, hc, he] at hs
  · cases hs
    exact ⟨hdone.inv, fun _ ht => hdone.trace ht, hdone.ended⟩
  · cases hs
    exact ⟨hi, fun hok => absurd hok hno, hend⟩
  · cases hs

theorem Reachable.inv (h : Reachable ok s) (hw : ∀ mem s p a, ok mem s p a → W → WaitpidOk s p a) : SchedInv W s ∅ s.curTask := by
  induction h with
  | boot h => exact (boot_inv h).1
  | step mem a _ hc hok hs ih => exact (step_spec ih mem a hc (hw _ _ _ _ hok) hs).1

theorem Reachable.traceInv (h : Reachable ok s) (hw : ∀ mem s p a, ok mem s p a → WaitpidOk s p a ∧ StoreOk mem s p a) :
    TraceInv s ∅ := by
  induction h with
  | boot h => exact (boot_inv (W := True) h).2.1
  | step mem a hr hc hok hs ih =>
    obtain ⟨hwp, hst⟩ := hw _ _ _ _ hok
    have hi : SchedInv True _ ∅ _ := hr.inv fun mem s p a h _ => (hw mem s p a h).1
    exact (step_spec hi mem a hc (fun _ => hwp) hs).2.1 hst ih

theorem Reachable.frames (h : Reachable ok s) (hw : ∀ mem s p a, ok mem s p a → WaitpidOk s p a) : Frames s := by
  induction h with
  | boot h =>
    refine Frames.still (fun q t hq hb => ?_) (Still.schedYield _)
    exact absurd hb ((boot_inv (W := True) h).2.2.orphans q t hq).2.2
  | step mem a hr hc hok hs ih =>
    rw [step_eq_outcome hc] at hs
    have hi : SchedInv True _ ∅ _ := hr.inv fun mem s p a h _ => hw mem s p a h
    exact act_frames ih (hc ▸ hi) hc a (hw _ _ _ _ hok) hs

/-- Runs a list of actions, each of which has to pass the check. -/
def runChecked (check : Sched → Nat → TaskAction → Bool) (mem : UserMem) (s : Sched) : List TaskAction → Option Sched
  | [] => some s
  | a :: rest =>
    match s.curTask with
    | none => none
    | some p => if check s p a then (s.step mem a).bind (fun s => runChecked check mem s rest) else none

theorem Reachable.runChecked (h : Reachable ok s) (hok : ∀ s p a, check s p a = true → ok mem s p a)
    (hs : Sched.runChecked check mem s acts = some s') : Reachable ok s' := by
  induction acts generalizing s with
  | nil =>
    cases hs
    exact h
  | cons a rest ih =>
    unfold Sched.runChecked at hs
    split at hs
    · cases hs
    · rename_i p hc
      split at hs
      · rename_i hcheck
        obtain ⟨s1, hs1, hs⟩ := Option.bind_eq_some_iff.1 hs
        exact ih (h.step mem a hc (hok _ _ _ hcheck) hs1) hs
      · cases hs

/-- Boots with one user task and runs a list of actions. -/
def bootRun (check : Sched → Nat → TaskAction → Bool) (mem : UserMem) (acts : List TaskAction) : Option Sched :=
  (createAll empty [.user]).bind (fun s => runChecked check mem s.schedYield acts)

theorem bootRun_reachable
    (hok : ∀ s p a, check s p a = true → ok mem s p a) (hs : bootRun check mem acts = some s) : Reachable ok s := by
  obtain ⟨s0, hb, hr⟩ := Option.bind_eq_some_iff.1 hs
  exact (Reachable.boot hb).runChecked hok hr

/-- A run whose actions pass the check, and a task at its end. -/
theorem bootRun_task {q : Nat} {P : Sched → Task → Prop} (check : Sched → Nat → TaskAction → Bool) (mem : UserMem)
    (acts : List TaskAction) (h : ∃ s, bootRun check mem acts = some s ∧ ∃ t, s.tasks q = some t ∧ P s t) :
    ∃ s t, Reachable (fun _ s p a => check s p a = true) s ∧ s.tasks q = some t ∧ P s t := by
  obtain ⟨s, hs, t, ht, hP⟩ := h
  exact ⟨s, t, bootRun_reachable (fun _ _ _ h => h) hs, ht, hP⟩

end Sched

end OpenLsd
