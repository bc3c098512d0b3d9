import OpenLsd.Sched.Kthread
import OpenLsd.Sched.PidMap

/-!
# Looking up PIDs

The PID map names the live tasks, each under its own PID, in every state that the kernel reaches, as far as its pages have not
become stacks of kernel threads. The limit of `pid2task` is one-sided: a negative PID reads in front of the map. The scheduler
and the kernel's address space have the same map in their own terms, and both search it and look it up as this one does.
-/

namespace OpenLsd

namespace PidMap

open Function

variable {s s' : PidMap}

/-- The map and the tasks agree, and a task has the PID of its parent, or 0. -/
structure Agrees (s : PidMap) : Prop where
  bounds : ∀ t, s.live t = true → 1 ≤ s.taskPid t ∧ s.taskPid t < pidMax
  slot : ∀ t, s.live t = true → ¬OnStack s.nkernelTasks (s.taskPid t) → s.tasks (s.taskPid t) = some t
  task : ∀ (pid : Int) t, 0 ≤ pid → pid < pidMax → ¬OnStack s.nkernelTasks pid → s.tasks pid = some t → s.live t = true ∧ s.taskPid t = pid
  child : ∀ t p, s.live t = true → s.parent t = some p → s.live p = true ∧ s.taskPpid t = s.taskPid p
  orphan : ∀ t, s.live t = true → s.parent t = none → s.taskPpid t = 0
  cur : ∀ c, s.curTask = some c → s.live c = true

namespace Agrees

variable (h : s.Agrees)

include h

theorem pid_inj {t t' : Nat} (ht : s.live t = true) (ht' : s.live t' = true) (hs : ¬OnStack s.nkernelTasks (s.taskPid t))
    (he : s.taskPid t = s.taskPid t') : t = t' := by
  have h1 := h.slot t ht hs
  rw [he] at h1 hs
  exact Option.some.inj (h1.symm.trans (h.slot t' ht' hs))

theorem alloc {task : Nat} {parent : Option Nat} (hnew : s.live task = false) (hparent : parent = none ∨ parent = s.curTask)
    (hs : s.taskAlloc task parent = some s') : s'.Agrees := by
  obtain ⟨pid, hfind, rfl⟩ := Option.map_eq_some_iff.1 hs
  have hnone : s.tasks pid = none := by simpa using List.find?_some hfind
  have hpid := List.mem_range'_1.1 (List.mem_of_find?_eq_some hfind)
  have hmax : (1 : Int) ≤ pid ∧ (pid : Int) < pidMax := by
    simp only [pidMax] at hpid ⊢
    omega
  obtain ⟨hbounds, hslot, htask, hchild, horphan, hcur⟩ := h
  constructor <;> grind [update_apply]

theorem free {task : Nat} (hl : s.live task = true) : (s.taskFree task).Agrees := by
  -- The other live tasks have other PIDs, so that their words of the map stay.
  have hother : ∀ t, s.live t = true → ¬OnStack s.nkernelTasks (s.taskPid t) → s.taskPid t = s.taskPid task → t = task :=
    fun t ht hs he => h.pid_inj ht hl hs he
  obtain ⟨hbounds, hslot, htask, hchild, horphan, hcur⟩ := h
  unfold taskFree
  constructor <;> grind [update_apply]

/-- The parent PID tells whether a live task is a child. -/
theorem taskPpid_eq_iff {t c : Nat} (ht : s.live t = true) (hc : s.live c = true) (hs : ¬OnStack s.nkernelTasks (s.taskPid c)) :
    s.taskPpid t = s.taskPid c ↔ s.parent t = some c := by
  constructor
  · intro he
    cases hp : s.parent t with
    | none =>
      rw [h.orphan t ht hp] at he
      have := (h.bounds c hc).1
      omega
    | some p =>
      obtain ⟨h1, h2⟩ := h.child t p ht hp
      rw [h.pid_inj hc h1 hs (he.symm.trans h2)]
  · exact fun hp => (h.child t c ht hp).2

theorem pid2task_eq_some_iff {c : Nat} (hc : s.curTask = some c) (hcs : ¬OnStack s.nkernelTasks (s.taskPid c)) {pid : Int} (h0 : 0 ≤ pid)
    (hs : ¬OnStack s.nkernelTasks pid) (hne : pid ≠ 0) (t : Nat) :
    s.pid2task pid true = .ok (some t) ↔ s.live t = true ∧ s.taskPid t = pid ∧ (t = c ∨ s.parent t = some c) := by
  have hppid := fun ht => h.taskPpid_eq_iff (t := t) ht (h.cur c hc) hcs
  obtain ⟨hbounds, hslot, htask, hchild, horphan, hcur⟩ := h
  unfold pid2task pidIndex
  grind

end Agrees

theorem Reachable.agrees (h : Reachable s) : s.Agrees := by
  induction h with
  | init hmap hlive hcur => constructor <;> grind
  | alloc _ task parent hnew hparent hs ih => exact ih.alloc hnew hparent hs
  | free _ task hl ih => exact ih.free hl
  | @kthreadStack s _ ih =>
    have hmono : ∀ i, OnStack s.nkernelTasks i → OnStack (s.nkernelTasks + 1) i := fun i hi => ⟨hi.1, by have := hi.2; omega⟩
    obtain ⟨hbounds, hslot, htask, hchild, horphan, hcur⟩ := ih
    constructor <;> grind
  | run _ cur hc ih => exact ⟨ih.bounds, ih.slot, ih.task, ih.child, ih.orphan, hc⟩
  | write _ tasks hs ih =>
    obtain ⟨hbounds, hslot, htask, hchild, horphan, hcur⟩ := ih
    constructor <;> grind

/-- The look-up of a PID is exact: the index that it uses is one of the map, and with the permission check it finds the
current task and its children, by their PIDs, and nothing else. -/
def ExactFor (s : PidMap) (c : Nat) (pid : Int) : Prop :=
  (∀ i, pid ≠ 0 → pidIndex pid = some i → 0 ≤ i ∧ i < pidMax) ∧
  (pid ≠ 0 → ∀ t, s.pid2task pid true = .ok (some t) ↔
    s.live t = true ∧ s.taskPid t = pid ∧ (t = c ∨ s.parent t = some c))

/-- In every state that the kernel reaches, two live tasks never have the same PID, and a look-up is exact for exactly the
PIDs that are not negative, for PIDs in pages of the map that have not become stacks. -/
theorem pid2task_exact_iff {c : Nat} (h : Reachable s) (hc : s.curTask = some c) (hcs : ¬OnStack s.nkernelTasks (s.taskPid c)) :
    (∀ t t', s.live t = true → s.live t' = true → ¬OnStack s.nkernelTasks (s.taskPid t) → s.taskPid t = s.taskPid t' → t = t') ∧
    ∀ pid : Int, -2 ^ 31 ≤ pid → pid < 2 ^ 31 → ¬OnStack s.nkernelTasks pid → (s.ExactFor c pid ↔ 0 ≤ pid) := by
  have hag := h.agrees
  refine ⟨fun t t' ht ht' => hag.pid_inj ht ht', fun pid _ _ hs => ⟨fun hex => ?_, fun h0 => ⟨fun i hne hi => ?_, ?_⟩⟩⟩
  · by_contra hneg
    have hi : pidIndex pid = some pid := if_neg (by simp only [pidMax]; omega)
    exact hneg (hex.1 pid (by omega) hi).1
  · unfold pidIndex at hi
    split at hi
    · cases hi
    · cases hi
      exact ⟨h0, by omega⟩
  · exact fun hne => hag.pid2task_eq_some_iff hc hcs h0 hs hne

/-- No task yet, and in front of the map a word that leads to the address 99, where the word 1 is in the place of
`task_ppid`. -/
def bootPids : PidMap where
  tasks := fun i => if i = -1 then some 99 else none
  live := fun _ => false
  taskPid := fun _ => 0
  taskPpid := fun _ => 1
  parent := fun _ => none
  curTask := none
  nkernelTasks := 0

/-- The task at the address 7 is the only one, and current. -/
theorem bootPids_alloc : ∃ s, Reachable s ∧ s.curTask = some 7 ∧ s.nkernelTasks = 0 ∧ s.live 99 = false ∧
    s.pid2task (-1) true = .ok (some 99) := by
  have hinit : Reachable bootPids := by
    refine .init (fun i h0 _ => if_neg ?_) (fun _ => rfl) rfl
    omega
  exact ⟨_, .run (.alloc hinit 7 none rfl (.inl rfl) rfl) (some 7) (fun c hc => by cases hc; rfl), rfl, rfl, rfl, rfl⟩

/-- The task at the address 7 has a child at the address 8, and finds it. It does not find the task at the address 9, which is not
its child. -/
theorem pid2task_exact_child : ∃ s, Reachable s ∧ s.curTask = some 7 ∧ s.ExactFor 7 2 ∧ s.ExactFor 7 3 ∧
    s.pid2task 2 true = .ok (some 8) ∧ s.pid2task 3 true = .ok none := by
  have hinit : Reachable bootPids := by
    refine .init (fun i h0 _ => if_neg ?_) (fun _ => rfl) rfl
    omega
  have hrun : Reachable _ := .run (.alloc hinit 7 none rfl (.inl rfl) rfl) (some 7) (fun c hc => by cases hc; rfl)
  have hs : Reachable _ := .alloc (.alloc hrun 8 (some 7) rfl (.inr rfl) rfl) 9 none rfl (.inl rfl) rfl
  have hno : ∀ pid, ¬OnStack 0 pid := fun pid h => absurd (Int.le_trans h.1 h.2) (by decide)
  have hexact := (pid2task_exact_iff hs (c := 7) rfl (hno _)).2
  exact ⟨_, hs, rfl, (hexact 2 (by decide) (by decide) (hno 2)).2 (by decide), (hexact 3 (by decide) (by decide) (hno 3)).2 (by decide),
    rfl, rfl⟩

/-- `sys_kill(-1)` reads in front of the map and takes what it finds for a child. -/
theorem pid2task_before_map : ∃ s, Reachable s ∧ s.curTask = some 7 ∧ pidIndex (-1) = some (-1) ∧
    s.pid2task (-1) true = .ok (some 99) ∧ s.live 99 = false := by
  obtain ⟨s, hs, hc, _, hl, hp⟩ := bootPids_alloc
  exact ⟨s, hs, hc, by decide, hp, hl⟩

/-! ## The other models of the map -/

/-- The map of a scheduler, whose tasks are named by their PIDs. -/
def ofSched (s : Sched) : PidMap where
  tasks := fun i => if 0 ≤ i then (s.tasks i.toNat).map fun _ => i.toNat else none
  live := fun p => (s.tasks p).isSome
  taskPid := fun p => p
  taskPpid := fun p => ((s.tasks p).elim 0 Task.taskPpid : Nat)
  parent := fun p => (s.tasks p).bind fun t => if t.taskPpid = 0 then none else some t.taskPpid
  curTask := s.curTask
  nkernelTasks := 0

@[simp] theorem ofSched_tasks (s : Sched) (pid : Nat) : (ofSched s).tasks pid = (s.tasks pid).map fun _ => pid := by
  simp [ofSched]

theorem pidIndex_ofNat (pid : Nat) : pidIndex pid = if pid ≥ pidMax then none else some (pid : Int) := by
  simp [pidIndex, pidMax]

/-- `pid2task(pid, 1)` of the scheduler is that of its map. -/
theorem pid2task_ofSched {s : Sched} {p pid : Nat} (hc : s.curTask = some p) (hpid : pid ≠ 0) :
    (ofSched s).pid2task pid true = .ok (s.pid2task p pid) := by
  have hcur : (ofSched s).curTask = some p := hc
  unfold pid2task Sched.pid2task
  rw [if_neg (by omega), pidIndex_ofNat, hcur]
  by_cases hmax : pid ≥ pidMax
  · simp [hmax]
  · simp only [hmax, if_false, ofSched_tasks]
    cases ht : s.tasks pid with
    | none => rfl
    | some t =>
      have hppid : (ofSched s).taskPpid pid = t.taskPpid := by simp [ofSched, ht]
      have hp : (ofSched s).taskPid p = p := rfl
      by_cases he : p = pid
      · simp [he]
      · simp [he, Ne.symm he, hppid, hp, apply_ite]

/-- `pid2task(pid, 0)` of the scheduler is that of its map. -/
theorem anyTask_ofSched {s : Sched} {p : Nat} (hc : s.curTask = some p) (pid : Nat) :
    (ofSched s).pid2task pid false = .ok (s.anyTask p pid) := by
  have hcur : (ofSched s).curTask = some p := hc
  unfold pid2task Sched.anyTask
  rw [pidIndex_ofNat, hcur]
  by_cases h0 : pid = 0
  · simp [h0]
  · by_cases hmax : pid ≥ pidMax
    · simp [h0, hmax]
    · simp only [h0, hmax, Int.natCast_eq_zero, if_false, ofSched_tasks]
      cases s.tasks pid <;> rfl

/-- The search of the scheduler finds the PID that `task_alloc` finds in its map. -/
theorem findPid_ofSched (s : Sched) (n pid : Nat) :
    Sched.findPid s.tasks n pid = (List.range' pid n).find? fun q : Nat => ((ofSched s).tasks q).isNone := by
  induction n generalizing pid with
  | zero => rfl
  | succ n ih =>
    rw [Sched.findPid, List.range'_succ, List.find?_cons, ofSched_tasks, Option.isNone_map, ih]
    cases (s.tasks pid).isNone <;> rfl

/-- The words of the map in the kernel's address space are there, and are `NULL` where the map has no task. -/
def HeldBy (s : PidMap) (k : KernelSpace) : Prop :=
  ∀ pid < pidMax, ∃ word, k.tasks pid = some word ∧ (word = 0 ↔ s.tasks pid = none)

/-- The search through the kernel's address space finds the PID that `task_alloc` finds in the map. -/
theorem HeldBy.findPid {k : KernelSpace} (h : s.HeldBy k) {n pid : Nat} (hn : pid + n ≤ pidMax) :
    k.findPid n pid = some ((List.range' pid n).find? fun q : Nat => (s.tasks q).isNone) := by
  induction n generalizing pid with
  | zero => rfl
  | succ n ih =>
    obtain ⟨word, hword, hnull⟩ := h pid (by omega)
    rw [KernelSpace.findPid, hword, List.range'_succ, List.find?_cons, ih (by omega)]
    by_cases h0 : word = 0
    · simp [h0, hnull.1 h0]
    · obtain ⟨t, ht⟩ := Option.ne_none_iff_exists'.1 (mt hnull.2 h0)
      simp [h0, ht]

end PidMap

end OpenLsd
