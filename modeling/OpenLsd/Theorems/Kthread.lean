import OpenLsd.Sched.Kthread

/-!
# Kernel threads and the PID map

`KSTACK_TOP` is `PIDMAP_BASE`, and the stacks of kernel threads grow upwards from there, a page each: the stack of the first
thread is the second page of the PID map. The PID map has 128 pages, so the first 127 threads each take the place of one of
them, and the 512 tasks that are entered there are lost. From the 128th thread on the stack is private memory.
-/

namespace OpenLsd

open Function

variable {s : KernelSpace}

namespace KernelSpace

/-- The number of the first page of the PID map. -/
def PIDMAP_PAGE : Nat := PIDMAP_BASE / PAGE_SIZE

/-- A page that `page_alloc` may return: one that no page of the kernel leads to. -/
def Fresh (s : KernelSpace) (page : Nat) : Prop := page < s.npages ∧ ∀ g, s.mapped g ≠ some page

/-- No two pages lead to one frame. -/
def Inj (mapped : Nat → Option Nat) : Prop := ∀ g g' f, mapped g = some f → mapped g' = some f → g = g'

/-- The state after `task_init`. There are no more than `2 ^ 40` frames, since a physical address has 52 bits. -/
structure Boot (s : KernelSpace) : Prop where
  frames : s.npages ≤ 2 ^ 40
  inj : Inj s.mapped
  pidmap : ∀ k < 128, ∃ f, s.mapped (PIDMAP_PAGE + k) = some f
  empty : ∀ pid < pidMax, s.tasks pid = some 0
  nkernelTasks_eq : s.nkernelTasks = 0

/-- The states that the calls make in any order, with the kernel stacks there are. -/
inductive Run : KernelSpace → List (Nat × Nat) → Prop where
  | boot {s : KernelSpace} (h : s.Boot) : Run s cpuStacks
  | taskAlloc {s s' : KernelSpace} {kstacks : List (Nat × Nat)} {task : TaskPtr} {page : Nat} {pml4 : Nat → UInt8}
    {pid : Option Nat} (hr : Run s kstacks) (hf : s.Fresh page) (h : s.taskAlloc task page pml4 = some (pid, s')) :
    Run s' kstacks
  | taskFree {s s' : KernelSpace} {kstacks : List (Nat × Nat)} {pid : Nat} (hr : Run s kstacks)
    (h : s.taskFree pid = some s') : Run s' kstacks
  | kthreadCreate {s s' : KernelSpace} {kstacks : List (Nat × Nat)} {kthread : TaskPtr} {page pid bottom : Nat}
    (hr : Run s kstacks) (hf : s.Fresh page) (h : s.kthreadCreate kthread page = some (pid, bottom, s')) :
    Run s' ((bottom, bottom + PAGE_SIZE) :: kstacks)

variable {s s' : KernelSpace} {kstacks : List (Nat × Nat)} {v : TaskPtr} {p n va : Nat}

/-! ## Addresses -/

theorem stackBottom_eq (h : n < 2 ^ 50) : stackBottom n = (PIDMAP_BASE + n * PAGE_SIZE) % 2 ^ 64 := by
  have hn : add64 n 1 = n + 1 := Nat.mod_eq_of_lt (by omega)
  rw [stackBottom, hn, sub64, add64]
  simp only [PAGE_SIZE, KSTACK_TOP]
  omega

theorem stackBottom_page (h : n < 2 ^ 50) : stackBottom n / PAGE_SIZE = (PIDMAP_PAGE + n) % 2 ^ 52 := by
  have hb : PIDMAP_BASE = PIDMAP_PAGE * PAGE_SIZE := by decide
  rw [stackBottom_eq h, hb, ← Nat.add_mul, PAGE_SIZE, show 2 ^ 64 = 2 ^ 52 * 4096 from rfl, Nat.mul_mod_mul_right,
    Nat.mul_div_cancel _ (by decide)]

theorem pidmapPage_eq : PIDMAP_PAGE = 2 ^ 52 - 402653184 := by decide

theorem pidmapBase_page : PIDMAP_BASE = PIDMAP_PAGE * 4096 := by decide

/-- No two stacks share a page. -/
theorem stackBottom_page_inj {k : Nat} (hn : n < 2 ^ 50) (hk : k < 2 ^ 50)
    (h : stackBottom n / PAGE_SIZE = stackBottom k / PAGE_SIZE) : n = k := by
  rw [stackBottom_page hn, stackBottom_page hk, pidmapPage_eq] at h
  omega

/-- A stack takes the place of a page of the PID map if it is one of the first 127. -/
theorem stackBottom_page_pidmap {k : Nat} (hn : n < 2 ^ 50) (hk : k < 128) :
    stackBottom n / PAGE_SIZE = PIDMAP_PAGE + k ↔ n = k := by
  rw [stackBottom_page hn, pidmapPage_eq]
  omega

theorem taskAddr_page (pid : Nat) : taskAddr pid / PAGE_SIZE = PIDMAP_PAGE + pid / 512 := by
  rw [taskAddr, pidmapBase_page, PAGE_SIZE, TASK_PTR_SIZE]
  omega

theorem taskAddr_offset (pid : Nat) : taskAddr pid % PAGE_SIZE = pid % 512 * 8 := by
  rw [taskAddr, pidmapBase_page, PAGE_SIZE, TASK_PTR_SIZE]
  omega

/-! ## What each step leaves alone -/

theorem store_eq (h : s.store va v = some s') : ∃ b, s' = { s with bytes := b } := by
  obtain ⟨f, -, rfl⟩ := Option.map_eq_some_iff.1 h
  exact ⟨_, rfl⟩

theorem tasks_store_of_ne {pid : Nat} (hinj : Inj s.mapped)
    (h : s.store (taskAddr pid) v = some s') (hne : p ≠ pid) : s'.tasks p = s.tasks p := by
  obtain ⟨f, hf, rfl⟩ := Option.map_eq_some_iff.1 h
  simp only [tasks, load]
  refine Option.map_congr fun f' hf' => ?_
  funext i
  by_cases e : f' = f
  · -- the two entries lie in one page, at other offsets
    subst e
    have hg := hinj _ _ _ hf' hf
    rw [taskAddr_page, taskAddr_page] at hg
    rw [update_self, dif_neg]
    rw [taskAddr_offset, taskAddr_offset]
    omega
  · rw [update_of_ne e]

theorem tasks_store_self {pid : Nat} (h : s.store (taskAddr pid) v = some s') : s'.tasks pid = some v := by
  obtain ⟨f, hf, rfl⟩ := Option.map_eq_some_iff.1 h
  simp only [tasks, load, hf, Option.map_some, update_self]
  congr 1
  funext i
  rw [dif_pos (by omega)]
  congr 1
  exact Fin.ext (Nat.add_sub_cancel_left _ _)

theorem tasks_fill {page : Nat} (hf : s.Fresh page) (b : Nat → UInt8) : (s.fill page b).tasks p = s.tasks p := by
  simp only [tasks, load]
  refine Option.map_congr fun f hf' => ?_
  funext i
  have hne : f ≠ page := fun e => hf.2 _ (e ▸ hf')
  simp only [fill, update_of_ne hne]

theorem tasks_pageInsert {page : Nat} (h : va / PAGE_SIZE ≠ PIDMAP_PAGE + p / 512) :
    (s.pageInsert page va).tasks p = s.tasks p := by
  simp only [tasks, load, pageInsert]
  rw [update_of_ne (by rw [taskAddr_page]; exact h.symm)]

theorem kthreadCreate_eq {kthread : TaskPtr} {page pid bottom : Nat} (h : s.kthreadCreate kthread page = some (pid, bottom, s')) :
    ∃ s1, s.store (taskAddr pid) kthread = some s1 ∧ bottom = stackBottom (add64 s.nkernelTasks 1) ∧
      s' = (KernelSpace.fill { s1 with nkernelTasks := add64 s.nkernelTasks 1 } page fun _ => 0).pageInsert page bottom := by
  simp only [kthreadCreate, Option.bind_eq_bind, Option.bind_eq_some_iff] at h
  obtain ⟨r, -, h⟩ := h
  cases r with
  | none => cases h
  | some q =>
    simp only [Option.bind_eq_some_iff, Option.pure_def, Option.some.injEq, Prod.mk.injEq] at h
    obtain ⟨s1, h1, rfl, rfl, rfl⟩ := h
    obtain ⟨b, rfl⟩ := store_eq h1
    exact ⟨_, h1, rfl, rfl⟩

/-! ## Runs -/

/-- What holds between calls. -/
structure Inv (s : KernelSpace) (kstacks : List (Nat × Nat)) : Prop where
  frames : s.npages ≤ 2 ^ 40
  inj : Inj s.mapped
  pidmap : ∀ k < 128, ∃ f, s.mapped (PIDMAP_PAGE + k) = some f
  threads : ∀ k, 1 ≤ k → k ≤ s.nkernelTasks → ∃ f < s.npages, s.mapped (stackBottom k / PAGE_SIZE) = some f
  kstacks : ∀ b ∈ kstacks, b ∈ cpuStacks ∨
    ∃ k, 1 ≤ k ∧ k ≤ s.nkernelTasks ∧ b = (stackBottom k, stackBottom k + PAGE_SIZE)
  count : s.nkernelTasks ≤ s.npages

theorem Boot.inv (h : s.Boot) : Inv s cpuStacks where
  frames := h.frames
  inj := h.inj
  pidmap := h.pidmap
  threads := fun k h1 h2 => by
    rw [h.nkernelTasks_eq] at h2
    omega
  kstacks := fun b hb => .inl hb
  count := by
    rw [h.nkernelTasks_eq]
    exact Nat.zero_le _

theorem Inv.bytes (h : Inv s kstacks) (b : Nat → Nat → UInt8) : Inv { s with bytes := b } kstacks :=
  ⟨h.frames, h.inj, h.pidmap, h.threads, h.kstacks, h.count⟩

theorem Inv.next (h : Inv s kstacks) : add64 s.nkernelTasks 1 = s.nkernelTasks + 1 ∧ s.nkernelTasks + 1 < 2 ^ 50 := by
  have h1 := h.frames
  have h2 := h.count
  exact ⟨Nat.mod_eq_of_lt (by omega), by omega⟩

/-- Every thread has a frame of its own for its stack, so there are no more threads than frames. -/
theorem count_le (hinj : Inj s.mapped) (hn : s.nkernelTasks < 2 ^ 50)
    (h : ∀ k, 1 ≤ k → k ≤ s.nkernelTasks → ∃ f < s.npages, s.mapped (stackBottom k / PAGE_SIZE) = some f) :
    s.nkernelTasks ≤ s.npages := by
  have hf : ∀ k : Fin s.nkernelTasks, ∃ f : Fin s.npages, s.mapped (stackBottom (k + 1) / PAGE_SIZE) = some f.1 := by
    intro k
    obtain ⟨f, hlt, hf⟩ := h (k + 1) (Nat.le_add_left _ _) k.2
    exact ⟨⟨f, hlt⟩, hf⟩
  choose f hf using hf
  have hf_inj : Injective f := by
    intro a b hab
    have hb := hf b
    rw [← hab] at hb
    have := stackBottom_page_inj (by omega) (by omega) (hinj _ _ _ (hf a) hb)
    exact Fin.ext (by omega)
  simpa using Fintype.card_le_of_injective f hf_inj

theorem Inv.kthreadCreate {kthread : TaskPtr} {page pid bottom : Nat} (h : Inv s kstacks) (hf : s.Fresh page)
    (hk : s.kthreadCreate kthread page = some (pid, bottom, s')) : Inv s' ((bottom, bottom + PAGE_SIZE) :: kstacks) := by
  obtain ⟨s1, h₁, hb, hs⟩ := kthreadCreate_eq hk
  obtain ⟨b, rfl⟩ := store_eq h₁
  obtain ⟨hadd, hlt⟩ := h.next
  rw [hadd] at hb hs
  subst hs
  have hinj : Inj (update s.mapped (bottom / PAGE_SIZE) (some page)) := by
    intro g g' f hg hg'
    rw [update_apply] at hg hg'
    split at hg <;> split at hg'
    · omega
    · exact absurd (hg'.trans hg.symm) (hf.2 _)
    · exact absurd (hg.trans hg'.symm) (hf.2 _)
    · exact h.inj g g' f hg hg'
  have hthreads : ∀ k, 1 ≤ k → k ≤ s.nkernelTasks + 1 → ∃ f < s.npages,
      update s.mapped (bottom / PAGE_SIZE) (some page) (stackBottom k / PAGE_SIZE) = some f := by
    intro k h1 h2
    by_cases e : k = s.nkernelTasks + 1
    · subst e
      rw [← hb]
      exact ⟨page, hf.1, update_self ..⟩
    · have hne : stackBottom k / PAGE_SIZE ≠ bottom / PAGE_SIZE := by
        rw [hb]
        exact fun he => e (stackBottom_page_inj (by omega) hlt he)
      rw [update_of_ne hne]
      exact h.threads k h1 (by omega)
  refine ⟨h.frames, hinj, ?_, hthreads, ?_, count_le hinj hlt hthreads⟩
  · intro k hk
    simp only [pageInsert, fill, update_apply]
    split
    · exact ⟨page, rfl⟩
    · exact h.pidmap k hk
  · intro a ha
    rcases List.mem_cons.1 ha with rfl | ha
    · exact .inr ⟨s.nkernelTasks + 1, Nat.le_add_left _ _, le_rfl, by rw [hb]⟩
    · rcases h.kstacks a ha with hc | ⟨k, h1, h2, rfl⟩
      · exact .inl hc
      · exact .inr ⟨k, h1, Nat.le_succ_of_le h2, rfl⟩

theorem Run.inv (h : Run s kstacks) : Inv s kstacks := by
  induction h with
  | boot h => exact h.inv
  | @taskAlloc s s' kstacks task page pml4 pid hr hf h ih =>
    simp only [KernelSpace.taskAlloc, Option.bind_eq_bind, Option.bind_eq_some_iff] at h
    obtain ⟨r, -, h⟩ := h
    cases r with
    | none =>
      cases h
      exact ih.bytes _
    | some q =>
      simp only [Option.bind_eq_some_iff, Option.pure_def, Option.some.injEq, Prod.mk.injEq] at h
      obtain ⟨s1, h1, rfl, rfl⟩ := h
      obtain ⟨b, rfl⟩ := store_eq h1
      exact ih.bytes b
  | taskFree hr h ih =>
    obtain ⟨b, rfl⟩ := store_eq h
    exact ih.bytes b
  | kthreadCreate hr hf h ih => exact ih.kthreadCreate hf h

/-! ## Privacy -/

/-- Two ranges of memory, by their lower and upper ends, have no byte in common. -/
def Apart (a b : Nat × Nat) : Prop := a.2 ≤ b.1 ∨ b.2 ≤ a.1

theorem cpuStacks_bounds : ∀ b ∈ cpuStacks, PIDMAP_BASE - 2 ^ 24 ≤ b.1 ∧ b.2 ≤ PIDMAP_BASE := by decide +kernel

theorem pidmapBase_eq : PIDMAP_BASE = 2 ^ 64 - 402653184 * 4096 := by decide

variable {kthread : TaskPtr} {page pid bottom : Nat}

theorem Inv.apart_pidmap (h : Inv s kstacks) :
    Apart (stackBottom (s.nkernelTasks + 1), stackBottom (s.nkernelTasks + 1) + PAGE_SIZE)
      (PIDMAP_BASE, PIDMAP_BASE + pidMax * TASK_PTR_SIZE) ↔ 127 ≤ s.nkernelTasks := by
  have h1 := h.frames
  have h2 := h.count
  have hp : pidMax * TASK_PTR_SIZE = 128 * 4096 := by decide
  rw [Apart, stackBottom_eq h.next.2, hp, pidmapBase_eq, PAGE_SIZE]
  omega

theorem Inv.apart_kstacks (h : Inv s kstacks) : ∀ b ∈ kstacks,
    Apart (stackBottom (s.nkernelTasks + 1), stackBottom (s.nkernelTasks + 1) + PAGE_SIZE) b := by
  have h1 := h.frames
  have h2 := h.count
  intro b hb
  rw [Apart, stackBottom_eq h.next.2, PAGE_SIZE]
  rcases h.kstacks b hb with hc | ⟨k, hk1, hk2, rfl⟩
  · have hc := cpuStacks_bounds b hc
    rw [pidmapBase_eq] at hc ⊢
    omega
  · simp only [stackBottom_eq (show k < 2 ^ 50 by omega), PAGE_SIZE, pidmapBase_eq]
    omega

/-- `kthread_create` writes the entry of the new thread, and makes a page lead to other memory. -/
theorem Inv.tasks_kthreadCreate (h : Inv s kstacks) (hf : s.Fresh page)
    (hk : s.kthreadCreate kthread page = some (pid, bottom, s')) (hp : p < pidMax) (hne : p ≠ pid)
    (hpage : s.nkernelTasks + 1 ≠ p / 512) : s'.tasks p = s.tasks p := by
  obtain ⟨s1, h1, hb, hs⟩ := kthreadCreate_eq hk
  obtain ⟨hadd, hlt⟩ := h.next
  rw [hadd] at hb hs
  have hpm : pidMax = 65536 := by decide
  have hva : bottom / PAGE_SIZE ≠ PIDMAP_PAGE + p / 512 := by
    rw [hb]
    exact fun e => hpage ((stackBottom_page_pidmap hlt (by omega)).1 e)
  obtain ⟨b, rfl⟩ := store_eq h1
  have hfresh : Fresh { s with bytes := b, nkernelTasks := s.nkernelTasks + 1 } page := hf
  have hstore := tasks_store_of_ne h.inj h1 hne
  rw [hs, tasks_pageInsert hva]
  exact (tasks_fill hfresh _).trans hstore

/-- Each of the first 127 kernel threads takes 512 tasks out of the PID map. -/
theorem kthread_create_loses_tasks (hr : Run s kstacks) (hk : s.kthreadCreate kthread page = some (pid, bottom, s'))
    (hp : p < pidMax) (hpage : p / 512 = s.nkernelTasks + 1) : s'.tasks p = some 0 := by
  obtain ⟨s1, h1, hb, hs⟩ := kthreadCreate_eq hk
  obtain ⟨hadd, hlt⟩ := hr.inv.next
  rw [hadd] at hb hs
  have hpm : pidMax = 65536 := by decide
  have hva : taskAddr p / PAGE_SIZE = bottom / PAGE_SIZE := by
    rw [taskAddr_page, hb]
    exact ((stackBottom_page_pidmap hlt (by omega)).2 hpage.symm).symm
  rw [hs, tasks, load, hva]
  simp only [pageInsert, fill, update_self, Option.map_some]
  rfl

end KernelSpace

open KernelSpace

/-- The stack page that `kthread_create` maps lies outside the PID map and outside every other kernel stack, and the call changes
no entry of the PID map but that of the new thread, exactly when at least 127 kernel threads were made before. -/
theorem kthread_stack_private_iff {s s' : KernelSpace} {kstacks : List (Nat × Nat)} {kthread : TaskPtr}
    {page pid bottom : Nat} (hr : Run s kstacks) (hf : s.Fresh page)
    (h : s.kthreadCreate kthread page = some (pid, bottom, s')) :
    (Apart (bottom, bottom + PAGE_SIZE) (PIDMAP_BASE, PIDMAP_BASE + pidMax * TASK_PTR_SIZE) ∧
      (∀ b ∈ kstacks, Apart (bottom, bottom + PAGE_SIZE) b) ∧
      ∀ p < pidMax, p ≠ pid → s'.tasks p = s.tasks p) ↔ 127 ≤ s.nkernelTasks := by
  have hi := hr.inv
  have hb : bottom = stackBottom (s.nkernelTasks + 1) := by
    obtain ⟨-, -, hb, -⟩ := kthreadCreate_eq h
    rw [hb, hi.next.1]
  rw [hb]
  constructor
  · exact fun hall => hi.apart_pidmap.1 hall.1
  · intro hn
    refine ⟨hi.apart_pidmap.2 hn, hi.apart_kstacks, fun p hp hne => ?_⟩
    have hpm : pidMax = 65536 := by decide
    exact hi.tasks_kthreadCreate hf h hp hne (by omega)

/-! ## A machine that loses a task -/

/-- 1024 frames, with the PID map in the first 128. -/
def pidmapExample : KernelSpace where
  npages := 1024
  bytes := fun _ _ => 0
  mapped := fun g => if PIDMAP_PAGE ≤ g ∧ g < PIDMAP_PAGE + 128 then some (g - PIDMAP_PAGE) else none
  nkernelTasks := 0

theorem pidmapExample_mapped {k : Nat} (h : k < 128) : pidmapExample.mapped (PIDMAP_PAGE + k) = some k := by
  simp only [pidmapExample]
  rw [if_pos (by omega), Nat.add_sub_cancel_left]

theorem pidmapExample_boot : pidmapExample.Boot where
  frames := by decide
  inj := by
    intro g g' f hg hg'
    simp only [pidmapExample] at hg hg'
    split at hg <;> split at hg' <;> simp at hg hg'
    omega
  pidmap := fun k h => ⟨k, pidmapExample_mapped h⟩
  empty := by
    intro pid h
    have hpm : pidMax = 65536 := by decide
    rw [tasks, load, taskAddr_page, pidmapExample_mapped (by omega)]
    rfl
  nkernelTasks_eq := rfl

theorem pidmapExample_fresh (hn : s.npages = 1024) (hm : s.mapped = pidmapExample.mapped) : s.Fresh 500 := by
  refine ⟨by omega, fun g h => ?_⟩
  simp only [hm, pidmapExample] at h
  split at h <;> simp at h
  omega

/-- The first kernel thread. -/
theorem kthread_stack_private_first :
    ∃ s', pidmapExample.kthreadCreate (fun _ => 1) 500 = some (1, PIDMAP_BASE + PAGE_SIZE, s') ∧
      ¬(Apart (PIDMAP_BASE + PAGE_SIZE, PIDMAP_BASE + PAGE_SIZE + PAGE_SIZE)
          (PIDMAP_BASE, PIDMAP_BASE + pidMax * TASK_PTR_SIZE) ∧
        (∀ b ∈ cpuStacks, Apart (PIDMAP_BASE + PAGE_SIZE, PIDMAP_BASE + PAGE_SIZE + PAGE_SIZE) b) ∧
        ∀ p < pidMax, p ≠ 1 → s'.tasks p = pidmapExample.tasks p) := by
  obtain ⟨s', h⟩ : ∃ s', pidmapExample.kthreadCreate (fun _ => 1) 500 = some (1, PIDMAP_BASE + PAGE_SIZE, s') := ⟨_, rfl⟩
  refine ⟨s', h, fun hall => ?_⟩
  have hn := (kthread_stack_private_iff (.boot pidmapExample_boot) (pidmapExample_fresh rfl rfl) h).1 hall
  exact absurd hn (by decide)

theorem findPid_eq {n a j : Nat} (hj : j < n) (hlt : ∀ p, a ≤ p → p < a + j → ∃ t, s.tasks p = some t ∧ t ≠ 0)
    (h0 : s.tasks (a + j) = some 0) : s.findPid n a = some (some (a + j)) := by
  induction j generalizing n a with
  | zero =>
    obtain ⟨n, rfl⟩ : ∃ k, n = k + 1 := ⟨n - 1, by omega⟩
    rw [Nat.add_zero] at h0
    simp [findPid, h0]
  | succ j ih =>
    obtain ⟨n, rfl⟩ : ∃ k, n = k + 1 := ⟨n - 1, by omega⟩
    obtain ⟨t, ht, hne⟩ := hlt a le_rfl (by omega)
    have hrec := ih (n := n) (a := a + 1) (by omega) (fun p h1 h2 => hlt p (by omega) (by omega))
      (by rw [← h0]; congr 1; omega)
    simp only [findPid, ht, Option.bind_eq_bind, Option.bind_some, if_neg hne, hrec]
    congr 2
    omega

theorem pidmapExample_tasks {n : Nat} (hn : n < pidMax) : ∃ s, Run s cpuStacks ∧ s.npages = 1024 ∧
    s.mapped = pidmapExample.mapped ∧ s.nkernelTasks = 0 ∧ (∀ p, 1 ≤ p → p ≤ n → s.tasks p = some fun _ => 1) ∧
    ∀ p, n < p → p < pidMax → s.tasks p = some 0 := by
  induction n with
  | zero =>
    exact ⟨_, .boot pidmapExample_boot, rfl, rfl, rfl, fun p h1 h2 => absurd h1 (by omega),
      fun p _ hp => pidmapExample_boot.empty p hp⟩
  | succ n ih =>
    obtain ⟨s, hr, hnp, hm, hk, hset, hempty⟩ := ih (by omega)
    have hf := pidmapExample_fresh hnp hm
    have hfind : (s.fill 500 fun _ => 0).findPid (pidMax - 1) 1 = some (some (1 + n)) := by
      refine findPid_eq (by omega) (fun p h1 h2 => ⟨_, (tasks_fill hf _).trans (hset p h1 (by omega)), ?_⟩)
        ((tasks_fill hf _).trans (hempty _ (by omega) (by omega)))
      exact fun e => absurd (congrFun e 0) (by decide)
    have hpm : pidMax = 65536 := by decide
    obtain ⟨s', hs'⟩ : ∃ s', (s.fill 500 fun _ => 0).store (taskAddr (1 + n)) (fun _ => 1) = some s' := by
      rw [store, taskAddr_page]
      simp only [fill, hm]
      rw [pidmapExample_mapped (by omega)]
      exact ⟨_, rfl⟩
    have halloc : s.taskAlloc (fun _ => 1) 500 (fun _ => 0) = some (some (1 + n), s') := by
      simp only [taskAlloc, hfind, Option.bind_eq_bind, Option.bind_some, hs', Option.pure_def]
    have hother : ∀ p, p ≠ 1 + n → s'.tasks p = s.tasks p := fun p hp =>
      (tasks_store_of_ne (s := s.fill 500 fun _ => 0) hr.inv.inj hs' hp).trans (tasks_fill hf _)
    obtain ⟨b, hb⟩ := store_eq hs'
    refine ⟨s', hr.taskAlloc hf halloc, by rw [hb]; exact hnp, by rw [hb]; exact hm, by rw [hb]; exact hk, ?_, ?_⟩
    · intro p h1 h2
      by_cases e : p = 1 + n
      · rw [e]
        exact tasks_store_self hs'
      · rw [hother p e]
        exact hset p h1 (by omega)
    · intro p h1 h2
      rw [hother p (by omega)]
      exact hempty p (by omega) h2

/-- With 512 tasks in the PID map the first kernel thread makes the entry of the last of them `NULL`. -/
theorem kthread_create_takes_pidmap_page : ∃ s s' bottom, Run s cpuStacks ∧ s.Fresh 500 ∧
    s.kthreadCreate (fun _ => 1) 500 = some (513, bottom, s') ∧
    PIDMAP_BASE ≤ bottom ∧ bottom + PAGE_SIZE ≤ PIDMAP_BASE + pidMax * TASK_PTR_SIZE ∧
    s.tasks 512 = some (fun _ => 1) ∧ s'.tasks 512 = some 0 := by
  obtain ⟨s, hr, hnp, hm, hk, hset, hempty⟩ := @pidmapExample_tasks 512 (by decide)
  have hfind : s.findPid (pidMax - 1) 1 = some (some (1 + 512)) := by
    refine findPid_eq (by decide) (fun p h1 h2 => ⟨_, hset p h1 (by omega), ?_⟩) (hempty _ (by decide) (by decide))
    exact fun e => absurd (congrFun e 0) (by decide)
  obtain ⟨s1, hs1⟩ : ∃ s1, s.store (taskAddr (1 + 512)) (fun _ => 1) = some s1 := by
    rw [store, taskAddr_page, hm, pidmapExample_mapped (by decide)]
    exact ⟨_, rfl⟩
  obtain ⟨s', hs'⟩ : ∃ s', s.kthreadCreate (fun _ => 1) 500 = some (513, stackBottom 1, s') := by
    obtain ⟨b, rfl⟩ := store_eq hs1
    simp only [kthreadCreate, hfind, Option.bind_eq_bind, Option.bind_some, hs1, hk]
    exact ⟨_, rfl⟩
  refine ⟨s, s', _, hr, pidmapExample_fresh hnp hm, hs', by decide, by decide, hset 512 (by decide) (by decide), ?_⟩
  exact kthread_create_loses_tasks hr hs' (by decide) (by rw [hk])

end OpenLsd
