import OpenLsd.Lemmas.MachineInv
import OpenLsd.Lemmas.SchedFrames
import OpenLsd.Sched.System

/-!
# Exit statuses and their pointers

Where the pointers come from that exit statuses are stored through: from the call that the current task makes, or from the call
that a task is blocked in. Then what such a store does to the memory, and what the other tasks have of it.
-/

namespace OpenLsd

open Outcome Function VmSpace

/-! ## Pointers -/

namespace Sched

variable {s s' s'' : Sched} {p q va : Nat} {mem : UserMem} {rstatus wait : Option Nat} {w : StatusStore} {a : TaskAction}
  {x : WaitPath}

/-- The task is blocked in a call with the pointer `va`. -/
def WaitsAt (s : Sched) (q va : Nat) : Prop :=
  ∃ t, s.tasks q = some t ∧ t.taskStatus = .notRunnable ∧ t.taskWaitExitStatus = some va

theorem Still.waitsAt (h : Still s s') (hq : WaitsAt s' q va) : WaitsAt s q va := by
  obtain ⟨t', ht', hb, hva⟩ := hq
  obtain ⟨t, ht, hbt, _, _, _, hsame⟩ := h.tasks q t' ht' hb
  exact ⟨t, ht, hbt, hsame ▸ hva⟩

/-- The frame of a task that is not blocked may change. -/
theorem Still.modify_awake {f : Task → Task} (h : Awake s p) (hf : ∀ t, (f t).taskStatus = t.taskStatus) :
    Still s (s.modifyTask p f) := by
  refine Still.modifyTask fun t ht hb => ?_
  rw [hf] at hb
  exact absurd hb (h t ht)

theorem Still.enter (h : Awake s p) (a b : Int) : Still s (s.enter p a b) := Still.modify_awake h fun _ => rfl

theorem Still.leave (hs : Still s s') (h : Awake s p) (v : Int) : Still s (Sched.leave p (some v, s')) :=
  hs.trans (Still.modify_awake (hs.awake h) fun _ => rfl)

theorem freeStore_waitsAt (h : freeStore s p = some w) : WaitsAt s w.space w.va := by
  unfold freeStore at h
  split at h
  · cases h
  · next t ht =>
    split at h
    · cases h
    · next parent hparent =>
      split at h
      · next hw =>
        obtain ⟨va, hva, rfl⟩ := Option.map_eq_some_iff.1 h
        have hdying : Still s (s.modifyTask p fun t => { t with taskStatus := .dying }) :=
          Still.modifyTask fun _ _ hb => by cases hb
        split at hparent
        · cases hparent
        · exact hdying.waitsAt ⟨parent, hparent, hw.1, hva⟩
      · cases h

theorem mem_reapStores {z : Nat} (h : w ∈ reapStores s p z rstatus) :
    (w.space = p ∧ rstatus = some w.va) ∨ WaitsAt s w.space w.va := by
  rcases List.mem_append.1 h with h | h
  · obtain ⟨va, hva, rfl⟩ := Option.map_eq_some_iff.1 (Option.mem_toList.1 h)
    exact .inl ⟨rfl, hva⟩
  · exact .inr ((Still.delNode s z).waitsAt (freeStore_waitsAt (Option.mem_toList.1 h)))

/-- The stores of a call. -/
def WaitPath.stores (s : Sched) (p : Nat) (rstatus : Option Nat) : WaitPath → List StatusStore
  | reaps z => reapStores s p z rstatus
  | _ => []

theorem waitStores_eq (s : Sched) (p : Nat) (rstatus : Option Nat) : waitStores s p rstatus = (waitPath s p).stores s p rstatus := by
  cases hp : s.tasks p with
  | none => simp [waitStores, waitPath, hp, WaitPath.stores]
  | some t =>
    rcases waitPath_cases hp with ⟨_, hz, he⟩ | ⟨z, rest, hz, he⟩ | ⟨_, hz, he⟩ <;> simp [waitStores, hp, hz, he, WaitPath.stores]

theorem waitpidStores_eq (s : Sched) (p : Nat) (pid : Int) (rstatus : Option Nat) :
    waitpidStores s p pid rstatus = (waitpidPath s p pid).stores s p rstatus := by
  unfold waitpidStores waitpidPath
  cases hp : s.tasks p with
  | none => rfl
  | some t =>
    dsimp only
    rw [waitStores_eq]
    by_cases he : t.taskChildren = [] ∧ t.taskZombies = []
    · rcases waitPath_cases hp with ⟨_, _, hw⟩ | ⟨z, rest, hz, _⟩ | ⟨hch, _⟩
      · rw [if_pos he, hw, he.2]
        cases pid2task s p pid.toNat <;> simp [WaitPath.stores]
      · cases hz.symm.trans he.2
      · exact absurd he.1 hch
    · rw [if_neg he]
      split
      · rfl
      · split
        · rfl
        · cases pid2task s p pid.toNat with
          | none => rfl
          | some child =>
            dsimp only
            split
            · rfl
            · split <;> rfl

theorem WaitPath.mem_stores (h : w ∈ x.stores s p rstatus) : (w.space = p ∧ rstatus = some w.va) ∨ WaitsAt s w.space w.va := by
  cases x with
  | reaps z => exact mem_reapStores h
  | _ => cases h

/-- A status goes to where the caller says, or to where a blocked task has said. -/
theorem mem_statusStores (hp : Awake s p) (h : w ∈ s.statusStores p a) :
    (w.space = p ∧ a.rstatus = some w.va) ∨ WaitsAt s w.space w.va := by
  cases a with
  | fork enough => cases h
  | yield => cases h
  | exit rcode =>
    have hexit : Still (s.enter p SYS_exit rcode)
        ((s.enter p SYS_exit rcode).modifyTask p fun t => { t with taskExitStatus := rcode, taskStatus := .dying }) :=
      Still.modifyTask fun _ _ hb => by cases hb
    exact .inr (((Still.enter hp _ _).trans hexit).waitsAt (freeStore_waitsAt (Option.mem_toList.1 h)))
  | fault => exact .inr (freeStore_waitsAt (Option.mem_toList.1 h))
  | wait rstatus =>
    rw [statusStores, waitStores_eq] at h
    exact (WaitPath.mem_stores h).imp id (Still.enter hp _ _).waitsAt
  | waitpid pid rstatus =>
    rw [statusStores, waitpidStores_eq] at h
    exact (WaitPath.mem_stores h).imp id (Still.enter hp _ _).waitsAt

/-! ## The stores of a step are all that it asks the page tables for -/

section Congr

variable {mem' : UserMem} {rstatus : Option Nat}

theorem storeStatus_congr {space : Nat} (h : ∀ va ∈ rstatus, mem space va = mem' space va) :
    storeStatus mem s space rstatus = storeStatus mem' s space rstatus := by
  unfold storeStatus
  cases rstatus with
  | none => rfl
  | some va =>
    dsimp only
    rw [h va rfl]

theorem taskFree_congr (h : ∀ w ∈ freeStore s p, mem w.space w.va = mem' w.space w.va) : taskFree mem s p = taskFree mem' s p := by
  unfold freeStore at h
  unfold taskFree
  cases ht : s.tasks p with
  | none => rfl
  | some t =>
    simp only [ht] at h
    dsimp only
    cases hp : if t.taskPpid = 0 then none else (s.modifyTask p fun t => { t with taskStatus := .dying }).tasks t.taskPpid with
    | none => rfl
    | some parent =>
      simp only [hp] at h
      dsimp only
      by_cases hw : waitsFor parent p
      · rw [if_pos hw] at h
        rw [if_pos hw, if_pos hw, storeStatus_congr fun va hva => ?_]
        exact h ⟨t.taskPpid, va, t.taskExitStatus⟩ (Option.map_eq_some_iff.2 ⟨va, hva, rfl⟩)
      · rw [if_neg hw, if_neg hw]

theorem die_congr (h : ∀ w ∈ freeStore s p, mem w.space w.va = mem' w.space w.va) : die mem s p = die mem' s p := by
  unfold die taskDestroy
  split
  · rfl
  · next t _ =>
    have hfree : ∀ w ∈ freeStore { s with trace := .exited t.birth p t.taskExitStatus :: s.trace } p,
        mem w.space w.va = mem' w.space w.va := h
    rw [taskFree_congr hfree]

theorem WaitPath.run_congr
    (h : ∀ w ∈ x.stores s p rstatus, mem w.space w.va = mem' w.space w.va) : x.run mem s p rstatus = x.run mem' s p rstatus := by
  cases x with
  | reaps z =>
    have hreap : reap mem s p z = reap mem' s p z := by
      unfold reap
      split
      · exact taskFree_congr fun w hw => h w (List.mem_append_right _ (Option.mem_toList.2 hw))
      · rfl
    rw [run, run, hreap, storeStatus_congr fun va hva => ?_]
    exact h ⟨p, va, _⟩ (List.mem_append_left _ (Option.mem_toList.2 (Option.map_eq_some_iff.2 ⟨va, hva, rfl⟩)))
  | _ => rfl

/-- A step depends on the page tables only through the stores that are listed for it. -/
theorem act_congr (h : ∀ w ∈ s.statusStores p a, mem w.space w.va = mem' w.space w.va) :
    act mem s p a = act mem' s p a := by
  cases a with
  | fork enough => rfl
  | yield => rfl
  | exit rcode => exact die_congr fun w hw => h w (Option.mem_toList.2 hw)
  | fault => exact die_congr fun w hw => h w (Option.mem_toList.2 hw)
  | wait rstatus =>
    rw [statusStores, waitStores_eq] at h
    rw [act, act, sysWait_eq, sysWait_eq, WaitPath.run_congr h]
  | waitpid pid rstatus =>
    rw [statusStores, waitpidStores_eq] at h
    rw [act, act, sysWaitpid_eq, sysWaitpid_eq, WaitPath.run_congr h]

end Congr

/-! ## Who is blocked after a step -/

/-- A step that blocks the current task has nothing to store. -/
def Blocks (s : Sched) (p : Nat) (rstatus : Option Nat) (l : List StatusStore) (s' : Sched) : Prop :=
  ∃ e wait, Still s e ∧ s' = e.block p wait rstatus ∧ l = []

theorem storeStatus_still {space : Nat} {e : KernelExit}
    (h : Sched.storeStatus mem s space rstatus = .error e) (ho : outcome (.error e) = some s') : Still s s' :=
  Still.storeStatus (k := .ok s) (.refl s) (fun hk => by cases hk; exact .refl s) (by rw [h]; exact ho)

theorem WaitPath.run_still (hp : Awake s p) (ho : outcome ((x.run mem s p rstatus).map (leave p)) = some s') :
    Still s s' ∨ Blocks s p rstatus (x.stores s p rstatus) s' := by
  cases x with
  | absent =>
    cases ho
    exact .inl (.refl s)
  | answers v =>
    cases ho
    exact .inl (Still.leave (.refl s) hp v)
  | reaps z =>
    refine .inl ?_
    simp only [run] at ho
    cases hst : Sched.storeStatus mem s p rstatus with
    | error e =>
      rw [hst] at ho
      exact storeStatus_still hst ho
    | ok u =>
      rw [hst] at ho
      cases hr : Sched.reap mem s p z with
      | error e =>
        simp only [hr, Except.bind] at ho
        exact Still.reap (by rw [hr]; exact ho)
      | ok r =>
        simp only [hr, Except.bind] at ho
        cases ho
        exact (Still.reap (congrArg outcome hr)).leave hp z
  | blocks wait =>
    cases ho
    exact .inr ⟨s, wait, .refl s, rfl, rfl⟩
  | fatal => cases ho

/-- An action blocks no task but its own, and then there is nothing to store. -/
theorem act_still (hp : Awake s p) (ho : outcome (act mem s p a) = some s') :
    Still s s' ∨ Blocks s p a.rstatus (s.statusStores p a) s' := by
  have he : ∀ x y, Still s (s.enter p x y) := Still.enter hp
  cases a with
  | fork enough =>
    cases ho
    exact .inl (((he _ _).trans (Still.sysFork _ p enough)).leave hp _)
  | exit rcode =>
    refine .inl ((he SYS_exit rcode).trans (Still.trans ?_ (Still.die ho)))
    exact Still.modifyTask fun _ _ hb => by cases hb
  | fault => exact .inl (Still.die ho)
  | wait rstatus =>
    rw [act, sysWait_eq] at ho
    rw [statusStores, waitStores_eq]
    exact (WaitPath.run_still ((he _ _).awake hp) ho).imp (he _ _).trans fun ⟨e, wait, h, hs⟩ => ⟨e, wait, (he _ _).trans h, hs⟩
  | waitpid pid rstatus =>
    rw [act, sysWaitpid_eq] at ho
    rw [statusStores, waitpidStores_eq]
    exact (WaitPath.run_still ((he _ _).awake hp) ho).imp (he _ _).trans fun ⟨e, wait, h, hs⟩ => ⟨e, wait, (he _ _).trans h, hs⟩
  | yield =>
    cases ho
    exact .inl ((he _ _).trans (Still.schedYield _))

theorem block_waitsAt (h : WaitsAt (s.block p wait rstatus) q va) : WaitsAt s q va ∨ (q = p ∧ rstatus = some va) := by
  obtain ⟨t, ht, hb, hva⟩ := (Still.schedYield _).waitsAt h
  have ht : (s.modifyTask p fun t => { t with taskWait := wait, taskStatus := .notRunnable, taskWaitExitStatus := rstatus }).tasks q
    = some t := ht
  rw [modifyTask_tasks] at ht
  split at ht
  · next hq =>
    obtain ⟨_, _, rfl⟩ := Option.map_eq_some_iff.1 ht
    exact .inr ⟨hq, hva⟩
  · exact .inl ⟨t, ht, hb, hva⟩

theorem block_awake (h : (s.block p wait rstatus).curTask = some q) : Awake (s.block p wait rstatus) q :=
  ((Still.schedYield _).cur q h).resolve_left nofun

/-- The current task is never blocked. -/
def CurAwake (s : Sched) : Prop := ∀ q, s.curTask = some q → Awake s q

theorem CurAwake.still (h : CurAwake s) (hs : Still s s') : CurAwake s' :=
  fun q hq => (hs.cur q hq).elim (fun hq => hs.awake (h q hq)) id

theorem CurAwake.step (h : CurAwake s) (hc : s.curTask = some p) (hs : s.step mem a = some s') : CurAwake s' := by
  rw [step_eq_outcome hc] at hs
  rcases act_still (h p hc) hs with hst | ⟨e, wait, _, rfl, _⟩
  · exact h.still hst
  · exact fun q => block_awake

/-- Who is blocked with a pointer after a step was so before, or is the current task with the pointer of its call. -/
theorem step_waitsAt (h : CurAwake s) (hc : s.curTask = some p) (hs : s.step mem a = some s')
    (hq : WaitsAt s' q va) : WaitsAt s q va ∨ (q = p ∧ a.rstatus = some va ∧ s.statusStores p a = []) := by
  rw [step_eq_outcome hc] at hs
  rcases act_still (h p hc) hs with hst | ⟨e, wait, hst, rfl, hl⟩
  · exact .inl (hst.waitsAt hq)
  · rcases block_waitsAt hq with hq | ⟨hqp, hva⟩
    · exact .inl (hst.waitsAt hq)
    · exact .inr ⟨hqp, hva, hl⟩

theorem kill_still {pid v : Int} (h : CurAwake s) (hs : s.killStep pid = some (v, s')) : Still s s' := by
  unfold killStep at hs
  split at hs
  · cases hs
  · next p hc =>
    have he := Still.enter (h p hc) SYS_kill pid
    generalize s.enter p SYS_kill pid = e at he hs
    split at hs
    · next v' e' hk =>
      cases hs
      suffices hk : Still e e' from ((he.trans hk).leave (h p hc) v).trans (Still.taskRun _ p)
      unfold sysKill at hk
      split at hk
      · cases hk
      · split at hk
        · cases hk
          exact .refl e
        · next q _ =>
          have hd : Still e (e.modifyTask q fun t => { t with taskStatus := .dying }) := Still.modifyTask fun _ _ hb => by cases hb
          dsimp only at hk
          split at hk
          · cases hk
            exact hd
          · cases hk
            refine hd.trans ((Still.delNode _ q).trans ((Still.delChild _ q).trans (Still.modifyTask fun t _ hb => ?_)))
            exact ⟨hb, .refl t⟩
    · cases hs

end Sched

/-! ## Stores through a pointer -/

theorem mappedFrame_congr {t t' : Pml4} {va : Nat} (h : (lookup t' va).map leafOf = (lookup t va).map leafOf) :
    mappedFrame t' va = mappedFrame t va := by
  have hleaf : ∀ u : Pml4, mappedFrame u va = ((lookup u va).map leafOf).map fun x : Bool × Nat =>
      if x.1 then x.2 + signExtend va / PAGE_SIZE % PAGE_TABLE_ENTRIES else x.2 := fun u => by
    rw [Option.map_map]
    rfl
  rw [hleaf, hleaf, h]

/-- What stores to the first `n` bytes behind `va` leave of the frames and page tables. -/
structure Written (m : Phys) (t : Pml4) (va n : Nat) (m' : Phys) (t' : Pml4) : Prop where
  same : SameFrames m m'
  leaves : ∀ x < USER_LIM, (lookup t' x).map leafOf = (lookup t x).map leafOf
  bytes : ∀ f o, m'.bytes f o ≠ m.bytes f o → ∃ i < n, mappedFrame t (add64 va i) = some f ∧ o = add64 va i % PAGE_SIZE

theorem Written.refl (m : Phys) (t : Pml4) (va : Nat) : Written m t va 0 m t :=
  ⟨.refl m, fun _ _ => rfl, fun _ _ hne => absurd rfl hne⟩

/-- One byte of the status. -/
theorem Written.storeByte {m m1 m' : Phys} {t t1 t' : Pml4} {va n : Nat} {b : UInt8} (h : Written m t va n m1 t1)
    (hva : add64 va n < USER_LIM) (he : OpenLsd.storeByte (add64 va n) b (m1, t1) = .ok (m', t')) : Written m t va (n + 1) m' t' := by
  unfold OpenLsd.storeByte at he
  cases hl : lookup t1 (add64 va n) with
  | none =>
    simp only [hl] at he
    cases he
  | some x =>
    obtain ⟨pde, e⟩ := x
    simp only [hl] at he
    cases he
    have hframe : mappedFrame t (add64 va n) =
        some (if pde then e.frame + signExtend (add64 va n) / PAGE_SIZE % PAGE_TABLE_ENTRIES else e.frame) := by
      rw [← mappedFrame_congr (h.leaves _ hva), mappedFrame, hl]
      rfl
    refine ⟨h.same.trans (.of_pages rfl rfl rfl), fun x hx => ?_, fun f o hne => ?_⟩
    · have hkeeps : KeepsFrame fun e => { e with dirty := true } := ⟨fun _ => rfl, fun _ => rfl, fun _ => rfl⟩
      rw [← h.leaves x hx, lookup_modifyEntry hkeeps hva hx, Option.map_map]
      refine congrArg (fun k => (lookup t1 x).map k) (funext fun y => ?_)
      simp only [comp_apply]
      split <;> rfl
    · by_cases hold : m1.bytes f o = m.bytes f o
      · -- Then it is the byte of this store.
        refine ⟨n, Nat.lt_succ_self n, ?_⟩
        rw [hframe]
        rw [← hold] at hne
        by_cases hf : f = if pde then e.frame + signExtend (add64 va n) / PAGE_SIZE % PAGE_TABLE_ENTRIES else e.frame
        · refine ⟨congrArg some hf.symm, ?_⟩
          by_contra ho
          rw [← hf] at hne
          simp [ho] at hne
        · simp [update_of_ne hf] at hne
      · obtain ⟨i, hi, hplace⟩ := h.bytes f o hold
        exact ⟨i, Nat.lt_succ_of_lt hi, hplace⟩

namespace Machine

variable {m m' : Machine} {w : StatusStore} {q fuel : Nat} {image : Nat → UInt8} {a : MemAction}

/-- An action leaves the tasks alone that it is not about. -/
theorem act_tasks (he : m.act fuel image a = .ok m') (hq : q ∉ a.touches) : m'.tasks q = m.tasks q := by
  suffices h : Yields (m.act fuel image a) fun m' => m'.tasks q = m.tasks q from h.1 _ he
  have hforTask : ∀ {pid : Nat} {f : TaskSpace → Kernel Machine}, (∀ t, Yields (f t) fun m' => m'.tasks q = m.tasks q) →
      Yields (m.forTask pid f) fun m' => m'.tasks q = m.tasks q := by
    intro pid f hf
    unfold forTask
    split
    · exact .ok rfl
    · exact hf _
  cases a with
  | create pid binary hdrs =>
    refine .ite (fun _ => .ok rfl) fun _ => .skip fun _ => .skip fun _ => .ok ?_
    exact setTask_of_ne _ hq
  | call pid c =>
    exact hforTask fun t => .skip fun r => .ok (setTask_of_ne _ hq)
  | fault pid va flags =>
    exact hforTask fun t => .skip fun r => .ok (setTask_of_ne _ hq)
  | store pid va b =>
    refine hforTask fun t => .ok ?_
    unfold store
    split
    · rfl
    · exact setTask_of_ne _ hq
  | fork pid child =>
    obtain ⟨hqp, hqc⟩ := not_or.1 hq
    refine .ite (fun _ => .ok rfl) fun _ => hforTask fun t => .skip fun _ => .skip fun _ => .ok ?_
    exact (setTask_of_ne _ hqc).trans (setTask_of_ne _ hqp)
  | free cur pid =>
    refine hforTask fun t => .skip fun _ => .skip fun _ => .skip fun _ => .ok ?_
    exact setTask_of_ne _ hq

theorem storeStatus_tasks (he : m.storeStatus w = .ok m') {t : TaskSpace} (ht : m.tasks q = some t) :
    ∃ t', m'.tasks q = some t' ∧ t'.vm = t.vm := by
  suffices h : Yields (m.storeStatus w) fun m' => ∃ t', m'.tasks q = some t' ∧ t'.vm = t.vm from h.1 _ he
  unfold storeStatus forTask
  split
  · exact .ok ⟨t, ht, rfl⟩
  · next u hu =>
    refine .skip fun r => .ok ?_
    by_cases hq : q = w.space
    · rw [← hq, ht] at hu
      cases hu
      exact ⟨{ t with pml4 := r.2 }, by rw [setTask_tasks, if_pos hq], rfl⟩
    · exact ⟨t, (setTask_of_ne _ hq).trans ht, rfl⟩

variable {keep : Orders} {ext0 : Nat → Nat} {alloc0 alloc : Orders} {p0 : Phys} {t : TaskSpace}

/-- The store of a status keeps the counts. -/
theorem Counted.storeStatus (h : m.Counted keep ext0 alloc0 p0 alloc) (ht : m.tasks w.space = some t)
    (hva : ∀ i < 4, add64 w.va i < USER_LIM) (he : m.storeStatus w = .ok m') :
    ∃ pml4, m' = { m with phys := m'.phys }.setTask w.space (some { t with pml4 := pml4 }) ∧
      m'.Counted keep ext0 alloc0 p0 alloc ∧ Written m.phys t.pml4 w.va 4 m'.phys pml4 := by
  suffices hends : Yields (m.storeStatus w) fun m' =>
      ∃ pml4, m' = { m with phys := m'.phys }.setTask w.space (some { t with pml4 := pml4 }) ∧
        m'.Counted keep ext0 alloc0 p0 alloc ∧ Written m.phys t.pml4 w.va 4 m'.phys pml4 from hends.1 _ he
  unfold Machine.storeStatus Machine.forTask
  rw [ht]
  dsimp only
  have hloop : Yields (forRange (fun i => storeByte (add64 w.va i) (statusByte w.status i)) 4 0 (m.phys, t.pml4))
      fun r => ({ m with phys := r.1 }.setTask w.space (some { t with pml4 := r.2 })).Counted keep ext0 alloc0 p0 alloc ∧
        Written m.phys t.pml4 w.va 4 r.1 r.2 := by
    refine forRange_rule (I := fun n (r : Phys × Pml4) =>
      ({ m with phys := r.1 }.setTask w.space (some { t with pml4 := r.2 })).Counted keep ext0 alloc0 p0 alloc ∧
        Written m.phys t.pml4 w.va n r.1 r.2) (fun i r _ hi hinv => ?_) ⟨?_, ?_⟩
    · obtain ⟨hc, hw⟩ := hinv
      refine (Ends.self _).mono fun r' hr' => ⟨?_, hw.storeByte (hva i (by omega)) hr'⟩
      have hself : ({ m with phys := r.1 }.setTask w.space (some { t with pml4 := r.2 })).tasks w.space = some { t with pml4 := r.2 } := by
        rw [setTask_tasks, if_pos rfl]
      have hwritten := (hc.written hself (hva i (by omega)) hr').1
      rw [setTask, setTask, update_idem] at hwritten
      exact hwritten
    · have hsame : m.setTask w.space (some t) = m := by
        rw [setTask, ← ht, update_eq_self]
      rw [← hsame] at h
      exact h
    · exact .refl m.phys t.pml4 w.va
  exact hloop.bind fun r hr => .ok ⟨r.2, rfl, hr⟩

end Machine

end OpenLsd
