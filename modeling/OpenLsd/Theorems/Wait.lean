import OpenLsd.Lemmas.SchedQueues
import OpenLsd.Lemmas.StatusStores

/-!
# Exit and wait over whole runs

What holds in all states that the scheduler reaches from boot: where every task is, what the trace of forks, exits and
reports says, and that no waiter has missed its child.
-/

namespace OpenLsd

namespace Sched

open TaskEvent

variable {ok : UserMem → Sched → Nat → TaskAction → Prop} {s s' : Sched} {p : Nat} {t : Task}

/-! ## `sys_waitpid` -/

/-- The calls of `sys_waitpid` are for a child of the caller, dead or alive. -/
def WaitpidCall (s : Sched) (p : Nat) : TaskAction → Bool
  | .waitpid pid _ => 0 < pid && (s.tasks p).any (fun t => pid.toNat ∈ t.taskChildren || pid.toNat ∈ t.taskZombies)
  | .fork _ | .exit _ | .yield => true
  | .wait _ | .fault => false

/-- Tasks blocked in `sys_waitpid(pid)` wait for the child with that pid, which has not exited. This is so when each call
finds its child among the zombies, or finds no zombies. -/
theorem waitpid_wakeup_not_lost (h : Reachable (fun _ s p a => WaitpidOk s p a) s) {q pid : Nat} (hq : s.tasks q = some t)
    (hb : t.taskStatus = .notRunnable) (hrax : t.rax = SYS_waitpid) (hrdi : t.rdi = pid) (hpos : 0 < pid) :
    t.taskWait = some pid ∧ pid ∉ t.taskZombies := by
  have hi := h.inv (W := True) (fun _ _ _ _ h _ => h)
  have hwait : t.taskWait = some pid := by
    rcases h.frames (fun _ _ _ _ h => h) q t hq hb with ⟨e, _⟩ | ⟨_, e, _⟩ | ⟨_, _, e⟩
    · rw [hrax] at e
      exact absurd e (by decide)
    · omega
    · rw [e, hrdi, Int.toNat_natCast]
  refine ⟨hwait, fun hz => ?_⟩
  -- What a blocked task waits for is among the children, and these are not dying.
  obtain ⟨tc, htc, _, hnd⟩ := (hi.links.child q t pid hq).1 ((hi.blocked trivial q t hq hb).2 pid hwait)
  obtain ⟨tc', htc', _, hd, _⟩ := (hi.links.zombie q t pid hq).1 hz
  cases htc.symm.trans htc'
  exact hnd hd

/-- The check of `WaitpidOk`. -/
def waitpidCheck (s : Sched) (p : Nat) : TaskAction → Bool
  | .waitpid pid _ => (s.tasks p).all (fun t => t.taskZombies.isEmpty || pid.toNat ∈ t.taskZombies)
  | _ => true

theorem waitpidCheck_ok (s : Sched) (p : Nat) (a : TaskAction) (h : waitpidCheck s p a = true) : WaitpidOk s p a := by
  cases a with
  | waitpid pid rstatus =>
    intro _ t ht
    simpa [waitpidCheck, ht] using h
  | _ => trivial

theorem waitpid_wakeup_not_lost_one : ∃ s t, Reachable (fun _ s p a => WaitpidOk s p a) s ∧ s.tasks 1 = some t ∧
    t.taskStatus = .notRunnable ∧ t.rax = SYS_waitpid ∧ t.rdi = ((2 : Nat) : Int) ∧ t.taskWait = some 2 ∧ 2 ∉ t.taskZombies := by
  have hrun : ∃ s, bootRun waitpidCheck (fun _ _ => .stored) [.fork true, .waitpid 2 none] = some s ∧
      ∃ t, s.tasks 1 = some t ∧ t.taskStatus = .notRunnable ∧ t.rax = SYS_waitpid ∧ t.rdi = ((2 : Nat) : Int) := by
    decide +kernel
  obtain ⟨s, hs, t, ht, hb, hrax, hrdi⟩ := hrun
  have hr : Reachable (fun _ s p a => WaitpidOk s p a) s := bootRun_reachable waitpidCheck_ok hs
  exact ⟨s, t, hr, ht, hb, hrax, hrdi, waitpid_wakeup_not_lost hr ht hb hrax hrdi (by decide)⟩

/-- The second child exits while the parent is blocked in `sys_waitpid` for it. The first child had exited before the call,
which left it in `task_wait`, so the exit of the second one wakes nobody. -/
theorem waitpid_wakeup_lost : ∃ s t, Reachable (fun _ s p a => WaitpidCall s p a = true) s ∧ s.tasks 1 = some t ∧
    t.taskStatus = .notRunnable ∧ t.rax = SYS_waitpid ∧ t.rdi = 3 ∧ t.taskWait = some 2 ∧ 3 ∈ t.taskZombies :=
  bootRun_task WaitpidCall (fun _ _ => .stored) [.fork true, .fork true, .yield, .exit 5, .yield, .waitpid 3 none, .exit 6]
    (by decide +kernel)

/-! ## `sys_wait` -/

/-- The actions of the protocol of `sys_exit` and `sys_wait`. -/
def ExitWaitOp : TaskAction → Bool
  | .waitpid _ _ => false
  | _ => true

/-- In how many places a task is: on the CPU, in the queues, blocked, or among the zombies of its parent. -/
def places (s : Sched) (p : Nat) (t : Task) : Nat :=
  (if s.curTask = some p then 1 else 0) + s.runq.count p + s.nextq.count p +
    (if t.taskStatus = .notRunnable then 1 else 0) + ((s.tasks t.taskPpid).map (fun tq => tq.taskZombies.count p)).getD 0

/-! ### What reaches the parent -/

/-- The tasks, and the bytes that each of them sees at its addresses. -/
structure Seen where
  sched : Sched
  bytes : Nat → Nat → UInt8

/-- What a task sees after stores of exit statuses. They are made in place, and those who share the page see them too. -/
def SeenAfter (shared : StatusStore → Nat → Prop) (l : List StatusStore) (q : Nat) (b b' : Nat → UInt8) : Prop :=
  ∀ x, (∃ w ∈ l, (q = w.space ∨ shared w q) ∧ ∃ i < 4, x = add64 w.va i ∧ b' x = statusByte w.status i) ∨
    (∀ w ∈ l, q = w.space ∨ shared w q → ∀ i < 4, x ≠ add64 w.va i) ∧ b' x = b x

/-- An action of the current task `p` whose stores go through, to pages that nobody shares. What a new task sees is left
open. -/
structure Seen.Acts (shared : StatusStore → Nat → Prop) (p : Nat) (a : TaskAction) (x y : Seen) : Prop where
  cur : x.sched.curTask = some p
  op : ExitWaitOp a = true
  step : ∃ mem, StoreOk mem x.sched p a ∧ x.sched.step mem a = some y.sched
  alone : ∀ w ∈ x.sched.statusStores p a, ∀ q, ¬shared w q
  seen : ∀ q t, x.sched.tasks q = some t → SeenAfter shared (x.sched.statusStores p a) q (x.bytes q) (y.bytes q)

/-- A step while `q` does not run: another task acts, or writes to its own memory. -/
inductive Seen.OtherStep (q : Nat) : Seen → Seen → Prop
  | act {x y : Seen} {shared : StatusStore → Nat → Prop} {p : Nat} {a : TaskAction} (hp : p ≠ q) (h : Acts shared p a x y) :
    OtherStep q x y
  | write {x : Seen} {bytes : Nat → Nat → UInt8} (hb : bytes q = x.bytes q) : OtherStep q x ⟨x.sched, bytes⟩

/-- The pointer of the call that the task `q` is in, while `p` does `a`. -/
def pointer (s : Sched) (p : Nat) (a : TaskAction) (q : Nat) : Option Nat :=
  if q = p then a.rstatus else (s.tasks q).bind Task.taskWaitExitStatus

/-- The task `q` with the number `P` can run, with the pid as the result of its call. -/
def Got (s : Sched) (q P pid : Nat) : Prop := ∃ t, s.tasks q = some t ∧ Live t ∧ t.birth = P ∧ t.rax = pid

/-- A child that an action reports is told to its parent: until the parent runs again, it has the pid as the result of its
call, and the status where its pointer leads. -/
def Delivers (s : Sched) : Prop :=
  ∀ x y shared p a P c pid st, x.sched = s → Seen.Acts shared p a x y → reported P c pid st ∈ y.sched.trace →
    reported P c pid st ∉ s.trace → ∃ q, ∀ z, Relation.ReflTransGen (Seen.OtherStep q) y z → Got z.sched q P pid ∧
      ∀ va, s.pointer p a q = some va → ∀ i < 4, z.bytes q (add64 va i) = statusByte st i

/-- The protocol between children that exit and parents that wait. -/
structure WaitProtocol (s : Sched) : Prop where
  /-- A report is of a child that exited, with its pid and status, to the task that forked it. -/
  sound : ∀ P c pid st, reported P c pid st ∈ s.trace → forked P c ∈ s.trace ∧ exited c pid st ∈ s.trace
  /-- The report reaches the parent. -/
  delivered : Delivers s
  /-- No child is reported twice. -/
  once : s.trace.Nodup ∧ ∀ P P' c pid pid' st st', reported P c pid st ∈ s.trace → reported P' c pid' st' ∈ s.trace →
    P' = P ∧ pid' = pid ∧ st' = st
  /-- An exited child has been reported, or waits among the zombies of its parent, as long as there is a parent. -/
  pending : ∀ q tq c pid st, s.tasks q = some tq → forked tq.birth c ∈ s.trace → exited c pid st ∈ s.trace →
    reported tq.birth c pid st ∈ s.trace ∨
    (pid ∈ tq.taskZombies ∧ ∃ tz, s.tasks pid = some tz ∧ tz.birth = c ∧ tz.taskExitStatus = st)
  /-- `sys_wait` reports the first zombie, once it can store the status. -/
  reports : ∀ p t z rest mem rstatus, s.curTask = some p → s.tasks p = some t → t.taskZombies = z :: rest →
    (∀ va, rstatus = some va → mem p va = .stored) → ∃ tz s', s.tasks z = some tz ∧
    sysWait mem (s.enter p SYS_wait (ptrArg rstatus)) p rstatus = .ok (some z, s') ∧
    s'.trace = reported t.birth tz.birth z tz.taskExitStatus :: s.trace
  /-- `sys_wait` fails exactly for a task whose children have all been reported. -/
  echild : ∀ p t mem rstatus, s.curTask = some p → s.tasks p = some t →
    ((∃ s', sysWait mem (s.enter p SYS_wait (ptrArg rstatus)) p rstatus = .ok (some (-ECHILD), s')) ↔
      ∀ c, forked t.birth c ∈ s.trace → ∃ pid st, reported t.birth c pid st ∈ s.trace)
  /-- No task is blocked in `sys_wait` with a zombie. -/
  noMissed : ∀ q t, s.tasks q = some t → t.taskStatus = .notRunnable → t.rax = SYS_wait → t.taskZombies = []
  /-- The task that a child would notify is the one that forked it, also when pids are used again. -/
  kin : ∀ x tx tq, s.tasks x = some tx → s.tasks tx.taskPpid = some tq → forked tq.birth tx.birth ∈ s.trace
  /-- Every task is in one place, and no other task has it among its zombies. -/
  place : ∀ p t, s.tasks p = some t → s.places p t = 1 ∧ ∀ q tq, s.tasks q = some tq → p ∈ tq.taskZombies → q = t.taskPpid

theorem exited_pending (h : SchedInv True s ∅ s.curTask) (ht : TraceInv s ∅) {q c pid : Nat} {st : Int} (hq : s.tasks q = some t)
    (hf : forked t.birth c ∈ s.trace) (he : exited c pid st ∈ s.trace) : reported t.birth c pid st ∈ s.trace ∨
    (pid ∈ t.taskZombies ∧ ∃ tz, s.tasks pid = some tz ∧ tz.birth = c ∧ tz.taskExitStatus = st) := by
  by_cases hr : ∃ pid' st', reported t.birth c pid' st' ∈ s.trace
  · obtain ⟨pid', st', hr⟩ := hr
    obtain ⟨rfl, rfl⟩ := ht.once _ _ _ _ _ he (ht.sound _ _ _ _ hr).2
    exact .inl hr
  · obtain ⟨x, tx, hx, rfl, hpp, hn⟩ := ht.pending q t c hq (Set.notMem_empty q) hf (fun pid st h => hr ⟨pid, st, h⟩)
    have hd : tx.taskStatus = .dying := by
      by_contra hd
      exact ht.alive x tx pid st hx hd he
    obtain ⟨rfl, rfl⟩ := ht.once _ _ _ _ _ he (ht.dying x tx hx hd)
    exact .inr ⟨(h.links.zombie q t x hq).2 ⟨tx, hx, hpp, hd, hn⟩, tx, hx, rfl, rfl⟩

/-- A task has no children and no zombies exactly when all it forked has been reported. -/
theorem childless_iff (h : SchedInv True s ∅ s.curTask) (ht : TraceInv s ∅) (hp : s.tasks p = some t) :
    t.taskChildren = [] ∧ t.taskZombies = [] ↔
      ∀ c, forked t.birth c ∈ s.trace → ∃ pid st, reported t.birth c pid st ∈ s.trace := by
  refine ⟨fun hnil c hf => ?_, fun hall => ?_⟩
  · by_contra hno
    obtain ⟨x, tx, hx, _, hpp, hn⟩ := ht.pending p t c hp (Set.notMem_empty p) hf (fun pid st h => hno ⟨pid, st, h⟩)
    have hc := h.links.child p t x hp
    have hz := h.links.zombie p t x hp
    rw [hnil.1] at hc
    rw [hnil.2] at hz
    by_cases hd : tx.taskStatus = .dying
    · exact absurd (hz.2 ⟨tx, hx, hpp, hd, hn⟩) List.not_mem_nil
    · exact absurd (hc.2 ⟨tx, hx, hpp, hd⟩) List.not_mem_nil
  · -- Every child that is there was forked and not reported.
    have hnone : ∀ x tx, s.tasks x = some tx → tx.taskPpid ≠ p := by
      rintro x tx hx rfl
      obtain ⟨pid, st, hr⟩ := hall tx.birth (ht.kin x tx t hx hp)
      exact ht.unreported x tx _ pid st hx (Set.notMem_empty x) hr
    refine ⟨List.eq_nil_iff_forall_not_mem.2 fun c hc => ?_, List.eq_nil_iff_forall_not_mem.2 fun c hc => ?_⟩
    · obtain ⟨tc, htc, hpp, _⟩ := (h.links.child p t c hp).1 hc
      exact hnone c tc htc hpp
    · obtain ⟨tc, htc, hpp, _⟩ := (h.links.zombie p t c hp).1 hc
      exact hnone c tc htc hpp

theorem sysWait_echild_iff (hp : s.tasks p = some t) (mem : UserMem) (rstatus : Option Nat) :
    (∃ s', sysWait mem s p rstatus = .ok (some (-ECHILD), s')) ↔ t.taskChildren = [] ∧ t.taskZombies = [] := by
  rw [sysWait_eq]
  rcases waitPath_cases hp with ⟨h1, h2, he⟩ | ⟨z, rest, hz, he⟩ | ⟨h1, _, he⟩ <;> rw [he]
  · exact ⟨fun _ => ⟨h1, h2⟩, fun _ => ⟨s, rfl⟩⟩
  · refine iff_of_false ?_ fun hnil => absurd hnil.2 (by simp [hz])
    rintro ⟨s', e⟩
    simp only [WaitPath.run] at e
    cases hst : storeStatus mem s p rstatus with
    | error x => simp [hst, Except.bind] at e
    | ok u =>
      cases hr : reap mem s p z with
      | error x => simp [hst, hr, Except.bind] at e
      | ok r =>
        simp only [hst, hr, Except.bind, Except.ok.injEq, Prod.mk.injEq, Option.some.injEq, ECHILD] at e
        omega
  · refine iff_of_false ?_ fun hnil => h1 hnil.1
    rintro ⟨s', e⟩
    cases e

/-- The status of a task says where it is. -/
theorem places_eq_one (h : SchedInv True s ∅ s.curTask) (hp : s.tasks p = some t) : s.places p t = 1 := by
  have hcur := h.cur p
  have hqueued := h.queued p
  have hnd := List.nodup_append.1 h.nodup
  have hrunq := hnd.1.count (a := p)
  have hnextq := hnd.2.1.count (a := p)
  have hboth := hnd.2.2 p
  have hz : ((s.tasks t.taskPpid).map (fun tq => tq.taskZombies.count p)).getD 0 =
      if t.taskStatus = .dying then 1 else 0 := by
    cases hq : s.tasks t.taskPpid with
    | none =>
      have hnd : t.taskStatus ≠ .dying := by
        intro hd
        by_cases h0 : t.taskPpid = 0
        · exact Set.notMem_empty p (h.links.orphan p t hp h0 hd)
        · obtain ⟨tq, htq, _⟩ := h.links.parent p t hp (Set.notMem_empty p) h0
          rw [hq] at htq
          cases htq
      simp [hnd]
    | some tq =>
      have hmem := h.links.zombie _ tq p hq
      have hcount := (h.links.nodup _ tq hq).2.count (a := p)
      simp only [Option.map_some, Option.getD_some, hcount]
      by_cases hd : t.taskStatus = .dying
      · rw [if_pos hd, if_pos (hmem.2 ⟨t, hp, rfl, hd, Set.notMem_empty p⟩)]
      · rw [if_neg hd, if_neg]
        intro hin
        obtain ⟨t', ht', _, hd', _⟩ := hmem.1 hin
        cases hp.symm.trans ht'
        exact hd hd'
  unfold places
  rw [hz, hrunq, hnextq]
  cases hst : t.taskStatus <;> grind

theorem sysWait_reports (h : SchedInv True s ∅ (some p)) (hc : s.curTask = some p) (hp : s.tasks p = some t) {z : Nat}
    {rest : List Nat} (hz : t.taskZombies = z :: rest) (mem : UserMem) (rstatus : Option Nat)
    (hst : ∀ va, rstatus = some va → mem p va = .stored) : ∃ tz s', s.tasks z = some tz ∧
    sysWait mem s p rstatus = .ok (some z, s') ∧ s'.trace = reported t.birth tz.birth z tz.taskExitStatus :: s.trace := by
  obtain ⟨s', tz, hr, htz, _, _, _, htr, _⟩ := reap_spec h hc hp (z := z) (by simp [hz]) mem
  refine ⟨tz, s', htz, ?_, htr⟩
  have hpath : waitPath s p = .reaps z := by simp [waitPath, hp, hz]
  rcases storeStatus_cases mem s p rstatus hc with hok | ⟨va, hva, hm, _⟩
  · rw [sysWait_eq, hpath, WaitPath.run, hok, hr]
    rfl
  · exact absurd (hst va hva) hm

section Delivery

variable {W : Prop} {P c pid : Nat} {st : Int} {a : TaskAction} {mem : UserMem}

/-- The parent that is told of the end of `p` has its pid, and gets its status. -/
theorem Tells.delivers {e e1 : Sched} {t1 : Task} (h : SchedInv W e ∅ (some p)) (hp : e.tasks p = some t)
    (ht : Tells e s' p t t1.taskExitStatus) (he : ∀ q, e1.tasks q = if q = p then some t1 else e.tasks q)
    (hpp : t1.taskPpid = t.taskPpid) (hother : ∀ q, q ≠ p → e.tasks q = s.tasks q) (hnew : reported P c pid st ∈ s'.trace) :
    reported P c pid st ∈ e.trace ∨
      ∃ q, Got s' q P pid ∧ ∀ va, s.pointer p a q = some va → (freeStore e1 p).toList = [⟨q, va, st⟩] := by
  rcases ht with ht | ⟨tq, tq', hq, hw, hq', hl, hb, hr, ht⟩ <;> rw [ht] at hnew
  · exact .inl (by simpa using hnew)
  · rcases List.mem_cons.1 hnew with e | hnew
    · cases e
      have h0 := h.links.ne_zero hq
      obtain ⟨_, _, _, hne⟩ := h.parent_of hp h0
      refine .inr ⟨t.taskPpid, ⟨tq', hq', hl, hb, hr⟩, fun va hva => ?_⟩
      rw [pointer, if_neg hne, ← hother _ hne, hq, Option.bind_some] at hva
      simp [freeStore, he, hpp, h0, modifyTask_of_ne _ _ _ _ hne, hne, hq, hw, hva]
    · exact .inl (by simpa using hnew)

/-- A caller that reaps a zombie gets its status, and `task_free` finds nobody to give it to. -/
theorem reapStores_eq {z va : Nat} {tz : Task} (hp : s.tasks p = some t) (hrun : t.taskStatus = .running) (hz : s.tasks z = some tz)
    (hpp : tz.taskPpid = p) (h0 : p ≠ 0) (hne : p ≠ z) : reapStores s p z (some va) = [⟨p, va, tz.taskExitStatus⟩] := by
  have hz' : (s.delNode z).tasks z = some { tz with taskZombies := tz.taskZombies.erase z } := by simp [delNode, hz]
  have hp' : (s.delNode z).tasks p = some { t with taskZombies := t.taskZombies.erase z } := by simp [delNode, hp]
  simp [reapStores, hz, freeStore, hz', hpp, h0, modifyTask_of_ne _ _ _ _ hne, hp', waitsFor, hrun]

/-- Who is told of a child has its pid, and the one store of the action is that of the status. -/
theorem step_tells (h : SchedInv W s ∅ (some p)) (hc : s.curTask = some p) (hop : ExitWaitOp a = true)
    (hok : StoreOk mem s p a) (hs : s.step mem a = some s') (hnew : reported P c pid st ∈ s'.trace) :
    reported P c pid st ∈ s.trace ∨
      ∃ q, Got s' q P pid ∧ ∀ va, s.pointer p a q = some va → s.statusStores p a = [⟨q, va, st⟩] := by
  obtain ⟨t, ht, hrun⟩ := (h.cur p).1 rfl
  rw [step_eq_outcome hc] at hs
  cases a with
  | waitpid pid rstatus => cases hop
  | fork enough =>
    cases hs
    refine .inl ?_
    change _ ∈ ((s.enter p SYS_fork 0).sysFork p enough).2.trace at hnew
    unfold sysFork at hnew
    split at hnew
    · split at hnew
      · exact (List.mem_cons.1 hnew).resolve_left nofun
      · exact hnew
    · exact hnew
  | yield =>
    cases hs
    obtain ⟨_, _, _, he, hec, _, _, htr⟩ := enter_spec h hc SYS_yield 0
    have := (hec.symm ▸ he : SchedInv W _ ∅ (s.enter p SYS_yield 0).curTask).schedYield.2.2
    exact .inl (htr ▸ this ▸ hnew)
  | exit rcode =>
    obtain ⟨_, ht', hp, he, hec, _, hother, htr⟩ := enter_spec h hc SYS_exit rcode
    cases ht.symm.trans ht'
    have hD := exit_dying hec hp rcode
    rcases die_spec _ (exiting rcode { t with rax := SYS_exit, rdi := rcode }) he hp hD mem with ⟨s1, hrun', htell, -⟩ | hab
    · change outcome (die mem ((s.enter p SYS_exit rcode).modifyTask p (exiting rcode)) p) = some s' at hs
      rw [hrun'] at hs
      cases hs
      exact htell.delivers (e := s.enter p SYS_exit rcode) he hp hD.tasks rfl hother hnew
    · exact absurd (fun hf => hok t ht (h.storeFails_enter hc ht hf)) hab.1
  | fault =>
    have hD := fault_dying hc ht
    rcases die_spec s t h ht hD mem with ⟨s1, hrun', htell, -⟩ | hab
    · change outcome (die mem s p) = some s' at hs
      rw [hrun'] at hs
      cases hs
      exact htell.delivers h ht hD.tasks rfl (fun _ _ => rfl) hnew
    · exact absurd (hok t ht) hab.1
  | wait rstatus =>
    obtain ⟨_, ht', hp, he, hec, _, _, htr⟩ := enter_spec h hc SYS_wait (ptrArg rstatus)
    cases ht.symm.trans ht'
    rw [act, sysWait_eq] at hs
    rcases waitPath_cases hp with ⟨_, _, hpath⟩ | ⟨z, rest, hz, hpath⟩ | ⟨_, _, hpath⟩ <;> rw [hpath] at hs
    · cases hs
      exact .inl hnew
    · have hmem : z ∈ t.taskZombies := by rw [show t.taskZombies = z :: rest from hz]; exact List.mem_cons_self
      obtain ⟨s1, tz, hr, htz, _, _, _, htr1, hsp, _⟩ := reap_spec he hec hp hmem mem
      have hstore : storeStatus mem (s.enter p SYS_wait (ptrArg rstatus)) p rstatus = .ok () := by
        refine (storeStatus_cases mem _ p rstatus hec).resolve_right ?_
        rintro ⟨va, hva, hm, _⟩
        exact hm (hok t va ht (List.ne_nil_of_mem hmem) hva)
      simp only [WaitPath.run, hstore, hr] at hs
      cases hs
      change _ ∈ s1.trace at hnew
      rw [htr1] at hnew
      rcases List.mem_cons.1 hnew with e | hnew
      · cases e
        obtain ⟨tz', htz', hpp, hd, _⟩ := (he.links.zombie p _ pid hp).1 hmem
        cases htz.symm.trans htz'
        obtain ⟨t', ht', hl, hb, _⟩ := hsp p _ hp (.inl hrun)
        refine .inr ⟨p, ⟨{ t' with rax := pid }, modifyTask_self _ _ _ ht', hl, hb, rfl⟩, fun va hva => ?_⟩
        rw [pointer, if_pos rfl] at hva
        obtain rfl : rstatus = some va := hva
        rw [statusStores, waitStores_eq, hpath]
        refine reapStores_eq hp hrun htz hpp (he.links.ne_zero hp) ?_
        rintro rfl
        cases hp.symm.trans htz
        cases hrun.symm.trans hd
      · exact .inl hnew
    · cases hs
      exact .inl ((he.weaken.block rstatus hp False.elim).1.schedYield.2.2 ▸ hnew)

theorem waitpidOk_of_op (h : ExitWaitOp a = true) : WaitpidOk s p a := by
  cases a with
  | waitpid pid rstatus => cases h
  | _ => trivial

theorem SeenAfter.single {shared : StatusStore → Nat → Prop} {q va i : Nat} {b b' : Nat → UInt8}
    (h : SeenAfter shared [⟨q, va, st⟩] q b b') (hi : i < 4) : b' (add64 va i) = statusByte st i := by
  rcases h (add64 va i) with ⟨w, hw, -, j, hj, hx, hb⟩ | ⟨hno, -⟩
  · cases List.mem_singleton.1 hw
    have hij : i = j := by
      simp only [add64] at hx
      omega
    rw [hb, hij]
  · exact absurd rfl (hno _ List.mem_cons_self (.inl rfl) i hi)

/-- The stores of the others go to themselves or to tasks that are blocked. -/
theorem Seen.OtherStep.keeps {q : Nat} {x y : Seen} (hs : Seen.OtherStep q x y) (h : SchedInv True x.sched ∅ x.sched.curTask)
    (hg : Got x.sched q P pid) : SchedInv True y.sched ∅ y.sched.curTask ∧ Got y.sched q P pid ∧ y.bytes q = x.bytes q := by
  cases hs with
  | write hb => exact ⟨h, hg, hb⟩
  | @act _ _ p _ hp ha =>
    obtain ⟨mem, -, hstep⟩ := ha.step
    obtain ⟨hi, -, hend⟩ := step_spec h mem _ ha.cur (fun _ => waitpidOk_of_op ha.op) hstep
    obtain ⟨t, ht, hl, hb, hr⟩ := hg
    obtain ⟨t', ht', hl', hb', hr'⟩ := hend.spared hp.symm t ht hl
    refine ⟨hi, ⟨t', ht', hl', hb'.trans hb, hr'.trans hr⟩, funext fun v => ?_⟩
    have hawake : Awake x.sched p := by
      intro tp htp hbl
      obtain ⟨tp', htp', hrun⟩ := (h.cur p).1 ha.cur
      cases htp.symm.trans htp'
      cases hrun.symm.trans hbl
    rcases ha.seen q t ht v with ⟨w, hw, rfl | hsh, -⟩ | ⟨-, hsame⟩
    · rcases mem_statusStores hawake hw with ⟨e, -⟩ | ⟨tq, htq, hbl, -⟩
      · exact absurd e.symm hp
      · cases ht.symm.trans htq
        rcases hl with hl | hl <;> cases hbl.symm.trans hl
    · exact absurd hsh (ha.alone w hw q)
    · exact hsame

theorem delivers_of_inv (h : SchedInv True s ∅ s.curTask) : Delivers s := by
  intro x y shared p a P c pid st hx ha hnew hold
  subst hx
  obtain ⟨mem, hok, hstep⟩ := ha.step
  have hi := (step_spec h mem a ha.cur (fun _ => waitpidOk_of_op ha.op) hstep).1
  have hcur := h
  rw [ha.cur] at hcur
  obtain ⟨q, hg, hst⟩ := (step_tells hcur ha.cur ha.op hok hstep hnew).resolve_left hold
  refine ⟨q, fun z hz => ?_⟩
  obtain ⟨-, hgz, hbz⟩ : SchedInv True z.sched ∅ z.sched.curTask ∧ Got z.sched q P pid ∧ z.bytes q = y.bytes q := by
    induction hz with
    | refl => exact ⟨hi, hg, rfl⟩
    | tail _ hs ih =>
      obtain ⟨h1, h2, h3⟩ := hs.keeps ih.1 ih.2.1
      exact ⟨h1, h2, h3.trans ih.2.2⟩
  refine ⟨hgz, fun va hva i hi => ?_⟩
  obtain ⟨t, ht⟩ : ∃ t, x.sched.tasks q = some t := by
    by_cases hqp : q = p
    · exact ((hcur.cur p).1 rfl).imp fun t ht => hqp ▸ ht.1
    · rw [pointer, if_neg hqp] at hva
      exact (Option.bind_eq_some_iff.1 hva).imp fun _ => And.left
  have hseen := ha.seen q t ht
  rw [hst va hva] at hseen
  rw [hbz, hseen.single hi]

end Delivery

theorem waitProtocol_of_inv (h : SchedInv True s ∅ s.curTask) (ht : TraceInv s ∅) (hf : Frames s) : WaitProtocol s := by
  refine ⟨ht.sound, delivers_of_inv h, ⟨ht.nodup, fun P P' c pid pid' st st' hr hr' => ?_⟩, fun q tq c pid st hq => exited_pending h ht hq,
    fun p t z rest mem rstatus hc hp hz hst => ?_, fun p t mem rstatus hc hp => ?_, fun q t hq hb hrax => ?_, ht.kin,
    fun p t hp => ⟨places_eq_one h hp, fun q tq hq hz => ?_⟩⟩
  · obtain ⟨hf, he⟩ := ht.sound _ _ _ _ hr
    obtain ⟨hf', he'⟩ := ht.sound _ _ _ _ hr'
    exact ⟨ht.oneParent _ _ _ hf hf', ht.once _ _ _ _ _ he he'⟩
  · rw [hc] at h
    obtain ⟨t0, ht0, het, he, hec, _, hother, _⟩ := enter_spec h hc SYS_wait (ptrArg rstatus)
    cases hp.symm.trans ht0
    obtain ⟨tz, s', htz, hres, htr⟩ := sysWait_reports he hec het hz mem rstatus hst
    refine ⟨tz, s', ?_, hres, htr⟩
    -- The caller is running, so it is not its own zombie.
    obtain ⟨tz0, htz0, _, hd, _⟩ := (h.links.zombie p t z hp).1 (by simp [hz])
    rw [← hother z, htz]
    rintro rfl
    obtain ⟨t1, ht1, hrun⟩ := (h.cur z).1 rfl
    cases htz0.symm.trans ht1
    rw [hd] at hrun
    cases hrun
  · have hi := h
    rw [hc] at h
    obtain ⟨t0, ht0, het, he, hec, _⟩ := enter_spec h hc SYS_wait (ptrArg rstatus)
    cases hp.symm.trans ht0
    have hchildless := childless_iff hi ht hp
    exact (sysWait_echild_iff het mem rstatus).trans hchildless
  · rcases hf q t hq hb with ⟨_, hw⟩ | ⟨e, _⟩ | ⟨e, _⟩
    · exact ((h.blocked trivial q t hq hb).1 hw).1
    · rw [hrax] at e
      exact absurd e (by decide)
    · rw [hrax] at e
      exact absurd e (by decide)
  · obtain ⟨t', ht', hpp, _⟩ := (h.links.zombie q tq p hq).1 hz
    cases hp.symm.trans ht'
    rw [hpp]

/-- When the stores of exit statuses that the actions make go through, forks, exits, faults, waits and yields in any order
keep the protocol. -/
theorem exit_wait_protocol (h : Reachable (fun mem s p a => ExitWaitOp a = true ∧ StoreOk mem s p a) s) :
    WaitProtocol s := by
  have hw : ∀ mem s p a, ExitWaitOp a = true ∧ StoreOk mem s p a → WaitpidOk s p a ∧ StoreOk mem s p a :=
    fun mem s p a hok => ⟨waitpidOk_of_op hok.1, hok.2⟩
  have hw' := fun mem s p a hok => (hw mem s p a hok).1
  exact waitProtocol_of_inv (h.inv fun mem s p a h _ => hw' mem s p a h) (h.traceInv hw) (h.frames hw')

/-- A child hands its status over to the parent, which is blocked in `sys_wait`. -/
theorem exit_wait_protocol_handover : ∃ s, Reachable (fun mem s p a => ExitWaitOp a = true ∧ StoreOk mem s p a) s ∧
    s.trace = [reported 0 1 2 5, exited 1 2 5, forked 0 1] ∧ (s.tasks 1).map Task.rax = some 2 ∧ WaitProtocol s := by
  have hrun : ∃ s, bootRun (fun _ _ a => ExitWaitOp a) (fun _ _ => .stored) [.fork true, .wait (some 4096), .exit 5] = some s ∧
      s.trace = [reported 0 1 2 5, exited 1 2 5, forked 0 1] ∧ (s.tasks 1).map Task.rax = some 2 := by
    decide +kernel
  obtain ⟨s, hs, htrace, hrax⟩ := hrun
  have hr : Reachable (fun mem s p a => ExitWaitOp a = true ∧ StoreOk mem s p a) s := by
    refine bootRun_reachable (fun s p a hop => ⟨hop, ?_⟩) hs
    cases a with
    | exit _ | fault => exact fun t _ ⟨_, _, _, _, _, hm⟩ => hm rfl
    | wait _ => exact fun _ _ _ _ _ => rfl
    | waitpid _ _ => cases hop
    | fork _ | yield => trivial
  exact ⟨s, hr, htrace, hrax, exit_wait_protocol hr⟩

/-- The parent waits with a pointer into a page that is not there yet. The store of the status faults in the kernel, and the
child that was about to be freed runs on: it exited, and is neither reported nor a zombie. -/
theorem exit_wait_protocol_fails : ∃ s t, Reachable (fun _ _ _ a => ExitWaitOp a = true) s ∧ s.tasks 1 = some t ∧
    forked t.birth 1 ∈ s.trace ∧ exited 1 2 5 ∈ s.trace ∧ reported t.birth 1 2 5 ∉ s.trace ∧ 2 ∉ t.taskZombies ∧
    s.curTask = some 2 :=
  bootRun_task (fun _ _ a => ExitWaitOp a) (fun _ _ => .resumed) [.fork true, .wait (some 4096), .exit 5] (by decide +kernel)

/-! ## Waiting in vain -/

theorem Reachable.idle (h : Reachable ok s) (hc : s.curTask = none) : s.nuserTasks = 0 ∨ s.runq = [] ∧ s.nextq = [] := by
  cases h with
  | boot h =>
    obtain ⟨hi, hq⟩ := createAll_inv (W := False) empty_inv ⟨rfl, rfl, fun x tx hx => by cases hx⟩ h
    exact (hq.cur ▸ hi : SchedInv False _ ∅ _).schedYield_none hc
  | step mem a hr hcur hok hs =>
    have hi : SchedInv False _ ∅ _ := hr.inv fun _ _ _ _ _ hf => hf.elim
    cases (step_spec hi mem a hcur False.elim hs).2.2 with
    | stays hp _ =>
      rw [hp] at hc
      cases hc
    | leaves he hce _ => exact (hce ▸ he).schedYield_none hc
    | yields he hce _ => exact (hce ▸ he).schedYield_none hc

/-- A blocked task has a younger child that is alive. -/
theorem SchedInv.younger (h : SchedInv True s ∅ s.curTask) (hp : s.tasks p = some t) (hb : t.taskStatus = .notRunnable) :
    ∃ c tc, s.tasks c = some tc ∧ tc.taskStatus ≠ .dying ∧ t.birth < tc.birth := by
  obtain ⟨hany, hone⟩ := h.blocked trivial p t hp hb
  obtain ⟨c, hc⟩ : ∃ c, c ∈ t.taskChildren := by
    cases hw : t.taskWait with
    | none => exact List.exists_mem_of_ne_nil _ (hany hw).2
    | some c => exact ⟨c, hone c hw⟩
  obtain ⟨tc, htc, hpp, hd⟩ := (h.links.child p t c hp).1 hc
  obtain ⟨t', ht', hlt⟩ := h.links.parent c tc htc (Set.notMem_empty c) (hpp ▸ h.links.ne_zero hp)
  cases hp.symm.trans (hpp ▸ ht')
  exact ⟨c, tc, htc, hd, hlt⟩

/-- The tasks never all wait for each other: as long as there are tasks, `sched_yield` finds one that can run, also when some of
them are blocked in `sys_wait` or `sys_waitpid`. The CPU is idle only once the user tasks, or all tasks, are gone. -/
theorem waits_deadlock_free (h : Reachable (fun _ s p a => WaitpidOk s p a) s) (hc : s.curTask = none) :
    s.nuserTasks = 0 ∨ ∀ p, s.tasks p = none := by
  refine (h.idle hc).imp_right fun ⟨hr, hn⟩ p => ?_
  have hi := h.inv (W := True) fun _ _ _ _ h _ => h
  -- The youngest task that is alive would be blocked, and have a child that is younger still.
  have hdying : ∀ n q tq, s.tasks q = some tq → s.births ≤ tq.birth + n → tq.taskStatus = .dying := by
    intro n
    induction n with
    | zero => exact fun q tq hq hle => absurd (hi.links.born q tq hq) (by omega)
    | succ n ih =>
      intro q tq hq hle
      cases hst : tq.taskStatus with
      | dying => rfl
      | running =>
        have := (hi.cur q).2 ⟨tq, hq, hst⟩
        rw [hc] at this
        cases this
      | runnable =>
        have := (hi.queued q).2 ⟨tq, hq, hst⟩
        simp [hr, hn] at this
      | notRunnable =>
        obtain ⟨c, tc, htc, hd, hlt⟩ := hi.younger hq hst
        exact absurd (ih c tc htc (by omega)) hd
  -- The oldest one that is dead would have a parent that is older still.
  have hnone : ∀ n q tq, s.tasks q = some tq → n ≤ tq.birth := by
    intro n
    induction n with
    | zero => exact fun _ _ _ => Nat.zero_le _
    | succ n ih =>
      intro q tq hq
      have hd := hdying s.births q tq hq (Nat.le_add_left _ _)
      have h0 : tq.taskPpid ≠ 0 := fun h0 => Set.notMem_empty q (hi.links.orphan q tq hq h0 hd)
      obtain ⟨tp, htp, hlt⟩ := hi.links.parent q tq hq (Set.notMem_empty q) h0
      exact Nat.lt_of_le_of_lt (ih _ tp htp) hlt
  cases hp : s.tasks p with
  | none => rfl
  | some t => exact absurd (hnone (t.birth + 1) p t hp) (by omega)

/-- A task waits for its child, and exits after it. -/
theorem waits_deadlock_free_two : ∃ s, Reachable (fun _ s p a => WaitpidOk s p a) s ∧ s.curTask = none ∧
    (s.nuserTasks = 0 ∨ ∀ p, s.tasks p = none) := by
  have hrun : ∃ s, bootRun waitpidCheck (fun _ _ => .stored) [.fork true, .wait none, .exit 5, .exit 0] = some s ∧
      s.curTask = none := by
    decide +kernel
  obtain ⟨s, hs, hc⟩ := hrun
  have hr : Reachable (fun _ s p a => WaitpidOk s p a) s := bootRun_reachable waitpidCheck_ok hs
  exact ⟨s, hr, hc, waits_deadlock_free hr hc⟩

end Sched

end OpenLsd
