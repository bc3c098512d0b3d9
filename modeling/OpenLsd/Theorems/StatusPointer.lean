import OpenLsd.Lemmas.StatusStores
import OpenLsd.Theorems.Contents
import OpenLsd.Theorems.UserMemory

/-!
# The pointers of `sys_wait` and `sys_waitpid`

Nobody checks the pointer that a program gives to `sys_wait` or `sys_waitpid`, and the status of a child may be stored through it
long after the call, while another task runs. It is enough to check it in the call: a task that is blocked keeps its areas, and
nobody comes to share the pages that it has to itself.
-/

namespace OpenLsd

open Outcome Function Machine

variable {C : Prop} {keep alloc0 : Orders} {ext0 : Nat → Nat} {p0 : Phys} {m m' m0 : Machine} {fuel q : Nat}
  {image : Nat → UInt8} {w : StatusStore} {may : Machine → MemAction → Prop}
open Sched (TaskAction)

/-- An `int` at `va` is in areas that may be written. -/
def VmSpace.GrantsInt (vm : VmSpace) (va : Nat) : Prop := ∀ i < 4, vm.Grants PROT_WRITE (add64 va i)

instance (vm : VmSpace) (va : Nat) : Decidable (vm.GrantsInt va) := inferInstanceAs (Decidable (∀ i < 4, ∃ p ∈ vm.taskMmap, _))

/-- The pages of an `int` at `va` that are present have one reference. -/
def Machine.AloneAt (m : Machine) (t : TaskSpace) (va : Nat) : Prop :=
  ∀ i < 4, ∀ x, lookup t.pml4 (add64 va i) = some x → (m.phys.pages x.2.frame).ppRef ≤ 1

namespace System

/-- If the task gives a pointer, it leads to where the task may write. -/
def WritablePtr (s : System) (p : Nat) (a : TaskAction) : Prop :=
  ∀ va, a.rstatus = some va → ∃ t, s.machine.tasks p = some t ∧ t.vm.GrantsInt va

/-- If the task gives a pointer, the pages it leads to are not shared. -/
def UnsharedPtr (s : System) (p : Nat) (a : TaskAction) : Prop :=
  ∀ va t, a.rstatus = some va → s.machine.tasks p = some t → s.machine.AloneAt t va

end System

/-! ## Pointers that stay good -/

/-- The pointer of the task leads to where it may write, and if `C` holds to pages that it has to itself. -/
def Machine.PtrOk (C : Prop) (m : Machine) (q va : Nat) : Prop :=
  ∃ t, m.tasks q = some t ∧ t.vm.GrantsInt va ∧ (C → m.AloneAt t va)

section Steps

variable {alloc : Orders} {q va : Nat} {a : MemAction} {t : TaskSpace}

/-- The frames are counted, if `C` holds. -/
def Machine.CountedIf (C : Prop) (keep : Orders) (ext0 : Nat → Nat) (alloc0 : Orders) (p0 : Phys)
    (m : Machine) : Prop :=
  C → ∃ alloc, m.Counted keep ext0 alloc0 p0 alloc

theorem Machine.Counted.grantsInt_user (h : m.Counted keep ext0 alloc0 p0 alloc) (ht : m.tasks q = some t) (hva : t.vm.GrantsInt va) :
    ∀ i < 4, add64 va i < USER_LIM := by
  intro i hi
  obtain ⟨p, hp, _, hlt, _⟩ := hva i hi
  exact lt_of_lt_of_le hlt ((h.areas q t ht).vmEnd hp).2.2

namespace Machine.CountedIf

theorem act (h : m.CountedIf C keep ext0 alloc0 p0) (he : m.act fuel image a = .ok m') (hin : C → m.InUserHalf a) :
    m'.CountedIf C keep ext0 alloc0 p0 := by
  intro hC
  obtain ⟨alloc, hc⟩ := h hC
  exact (hc.step (hin hC) he).1

theorem storeStatus (h : m.CountedIf C keep ext0 alloc0 p0) (hw : m.PtrOk C w.space w.va) (he : m.storeStatus w = .ok m') :
    m'.CountedIf C keep ext0 alloc0 p0 := by
  intro hC
  obtain ⟨alloc, hc⟩ := h hC
  obtain ⟨t, ht, hgrant, _⟩ := hw
  obtain ⟨_, _, hc', _⟩ := hc.storeStatus ht (hc.grantsInt_user ht hgrant) he
  exact ⟨alloc, hc'⟩

/-- An action leaves a task alone that it is not about. -/
theorem act_apart (h : m.CountedIf C keep ext0 alloc0 p0) (he : m.act fuel image a = .ok m') (hC : C)
    (hin : C → m.InUserHalf a) (hq : q ∉ a.touches) : m.Apart {q}ᶜ m' := by
  obtain ⟨alloc, hc⟩ := h hC
  exact (hc.step (hin hC) he).2.mono fun z hz hzq => hq (hzq ▸ hz)

/-- A status that is stored for one task leaves the pages alone that the others share with nobody. -/
theorem storeStatus_apart (h : m.CountedIf C keep ext0 alloc0 p0) (hC : C) (hw : m.PtrOk C w.space w.va)
    (he : m.storeStatus w = .ok m') : m.Apart {w.space} m' := by
  obtain ⟨alloc, hc⟩ := h hC
  obtain ⟨t, ht, hgrant, _⟩ := hw
  have huser := hc.grantsInt_user ht hgrant
  obtain ⟨pml4, hm', _, hwritten⟩ := hc.storeStatus ht huser he
  refine ⟨fun q hq => ?_, fun q f _ _ hone => (hwritten.same.ppRef f).trans_le hone, fun q u va x hq hu hva hl hone y hy => ?_⟩
  · rw [hm', setTask_of_ne _ hq]
  · funext o
    by_contra hne
    obtain ⟨i, hi, hframe, _⟩ := hwritten.bytes y o hne
    obtain ⟨x', hl', hy', _⟩ := mappedFrame_block hframe
    -- The two tasks would both refer to the frame.
    have hsame := hc.ledger.disjoint_blocks (hc.leaf_alloc hu hva hl).1 (hc.leaf_alloc ht (huser i hi) hl').1 hy hy'
    have htwo := hc.two_le_ref (fun e : q = w.space => hq e) (leaf_refs_pos hu hva hl) (hsame ▸ leaf_refs_pos ht (huser i hi) hl')
    omega

end Machine.CountedIf

namespace Machine.PtrOk

/-- What other tasks do keeps a pointer good. -/
theorem act (h : m.PtrOk C q va) (hc : m.CountedIf C keep ext0 alloc0 p0) (he : m.act fuel image a = .ok m')
    (hin : C → m.InUserHalf a) (hq : q ∉ a.touches) : m'.PtrOk C q va := by
  obtain ⟨t, ht, hgrant, halone⟩ := h
  refine ⟨t, (act_tasks he hq).trans ht, hgrant, fun hC i hi x hx => ?_⟩
  obtain ⟨alloc, hc⟩ := hc hC
  exact (hc.step (hin hC) he).2.alone q _ hq (leaf_refs_pos ht (hc.grantsInt_user ht hgrant i hi) hx) (halone hC i hi x hx)

/-- So does a store through a pointer that is good. -/
theorem storeStatus (h : m.PtrOk C q va) (hc : m.CountedIf C keep ext0 alloc0 p0) (hw : m.PtrOk C w.space w.va)
    (he : m.storeStatus w = .ok m') : m'.PtrOk C q va := by
  obtain ⟨t, ht, hgrant, halone⟩ := h
  obtain ⟨t', ht', hvm⟩ := storeStatus_tasks he ht
  refine ⟨t', ht', hvm ▸ hgrant, fun hC i hi x hx => ?_⟩
  obtain ⟨alloc, hc⟩ := hc hC
  obtain ⟨u, hu, hgrantw, _⟩ := hw
  obtain ⟨pml4, hm', _, hwritten⟩ := hc.storeStatus hu (hc.grantsInt_user hu hgrantw) he
  have hlt := hc.grantsInt_user ht hgrant i hi
  have hleaf : (lookup t'.pml4 (add64 va i)).map leafOf = (lookup t.pml4 (add64 va i)).map leafOf := by
    rw [hm'] at ht'
    by_cases hq : q = w.space
    · rw [setTask_tasks, if_pos hq] at ht'
      rw [hq, hu] at ht
      cases ht
      cases ht'
      exact hwritten.leaves _ hlt
    · rw [setTask_of_ne _ hq, show ({ m with phys := m'.phys } : Machine).tasks q = some t from ht] at ht'
      cases ht'
      rfl
  rw [hx] at hleaf
  obtain ⟨x', hx', hxx⟩ := Option.map_eq_some_iff.1 hleaf.symm
  rw [hwritten.same.ppRef, show x.2.frame = x'.2.frame from (congrArg Prod.snd hxx).symm]
  exact halone hC i hi x' hx'

end Machine.PtrOk

section

variable (hc : m.CountedIf C keep ext0 alloc0 p0) {l : List StatusStore} {cur : Nat}

include hc

/-- What the stores of a step leave, up to the first that faults for the current task. -/
theorem deliver_ptrOk {mem : UserMem} (hl : ∀ w ∈ l, m.PtrOk C w.space w.va) (he : deliver fuel image mem cur l m = .ok m') :
    m'.CountedIf C keep ext0 alloc0 p0 ∧ (∀ q va, q ≠ cur → m.PtrOk C q va → m'.PtrOk C q va) ∧
      (C → ∀ q, q ≠ cur → (∀ w ∈ l, w.space ≠ q) → m.Apart {q}ᶜ m') := by
  induction l generalizing m with
  | nil =>
    cases he
    exact ⟨hc, fun _ _ _ => id, fun _ _ _ _ => .refl _ _⟩
  | cons w l ih =>
    unfold deliver at he
    have hw := hl w List.mem_cons_self
    split at he
    · obtain ⟨m1, hst, he⟩ := bind_ok he
      obtain ⟨hc', hkeep, hap⟩ := ih (hc.storeStatus hw hst)
        (fun v hv => (hl v (List.mem_cons_of_mem w hv)).storeStatus hc hw hst) he
      refine ⟨hc', fun q va hq h => hkeep q va hq (h.storeStatus hc hw hst), fun hC q hq hsp => ?_⟩
      refine .trans ((hc.storeStatus_apart hC hw hst).mono fun z hz hzq => ?_) (hap hC q hq fun v hv => ?_)
      · exact hsp w List.mem_cons_self (hz ▸ hzq)
      · exact hsp v (List.mem_cons_of_mem w hv)
    · refine ⟨hc.act he fun _ => trivial, fun q va hq h => h.act hc he (fun _ => trivial) hq, fun hC q hq _ => ?_⟩
      exact hc.act_apart he hC (fun _ => trivial) hq
    · cases he

/-- What stores that all go through leave. -/
theorem foldlM_ptrOk (hl : ∀ w ∈ l, m.PtrOk C w.space w.va) (he : l.foldlM storeStatus m = .ok m') :
    m'.CountedIf C keep ext0 alloc0 p0 ∧ ∀ q va, m.PtrOk C q va → m'.PtrOk C q va := by
  induction l generalizing m with
  | nil =>
    cases he
    exact ⟨hc, fun _ _ => id⟩
  | cons w l ih =>
    have hw := hl w List.mem_cons_self
    rw [List.foldlM_cons] at he
    obtain ⟨m1, hst, he⟩ := bind_ok he
    obtain ⟨hc', hkeep⟩ := ih (hc.storeStatus hw hst)
      (fun v hv => (hl v (List.mem_cons_of_mem w hv)).storeStatus hc hw hst) he
    exact ⟨hc', fun q va h => hkeep q va (h.storeStatus hc hw hst)⟩

/-- What it leaves that tasks are freed. -/
theorem freeAll_ptrOk {l : List Nat} (he : freeAll fuel image cur l m = .ok m') :
    m'.CountedIf C keep ext0 alloc0 p0 ∧ (∀ q va, q ∉ l → m.PtrOk C q va → m'.PtrOk C q va) ∧
      (C → ∀ q, q ∉ l → m.Apart {q}ᶜ m') := by
  induction l generalizing m with
  | nil =>
    cases he
    exact ⟨hc, fun _ _ _ => id, fun _ _ _ => .refl _ _⟩
  | cons z l ih =>
    obtain ⟨m1, hfree, he⟩ := bind_ok he
    obtain ⟨hc', hkeep, hap⟩ := ih (hc.act hfree fun _ => trivial) he
    refine ⟨hc', fun q va hq h => hkeep q va (fun hql => hq (List.mem_cons_of_mem z hql)) ?_, fun hC q hq => ?_⟩
    · exact h.act hc hfree (fun _ => trivial) fun hqz => hq (List.mem_cons.2 (.inl hqz))
    · obtain ⟨hqz, hql⟩ := not_or.1 fun h => hq (List.mem_cons.2 h)
      exact (hc.act_apart hfree hC (fun _ => trivial) hqz).trans (hap hC q hql)

/-- What a fork leaves. -/
theorem forkFor_ptrOk {s : Sched} {p : Nat} {a : TaskAction} (he : m.forkFor fuel image s p a = .ok m') :
    m'.CountedIf C keep ext0 alloc0 p0 ∧ (∀ q va, q ≠ p → (s.tasks q).isSome → m.PtrOk C q va → m'.PtrOk C q va) ∧
      (C → ∀ q, q ≠ p → (s.tasks q).isSome → m.Apart {q}ᶜ m') := by
  unfold forkFor at he
  split at he
  · split at he
    · next t pid _ hpid =>
      obtain ⟨hnone, hpos, hlt⟩ := Sched.findPid_some hpid
      have hin : C → m.InUserHalf (.fork p pid) := fun _ => ⟨by omega, by simp only [pidMax] at hlt ⊢; omega⟩
      have hout : ∀ q, q ≠ p → (s.tasks q).isSome → q ∉ (MemAction.fork p pid).touches := by
        rintro q hq hsome (hqp | hqc)
        · exact hq hqp
        · rw [show q = pid from hqc, hnone] at hsome
          cases hsome
      exact ⟨hc.act he hin, fun q va hq hsome h => h.act hc he hin (hout q hq hsome),
        fun hC q hq hsome => hc.act_apart he hC hin (hout q hq hsome)⟩
    · cases he
      exact ⟨hc, fun _ _ _ _ => id, fun _ _ _ _ => .refl _ _⟩
  · cases he
    exact ⟨hc, fun _ _ _ _ => id, fun _ _ _ _ => .refl _ _⟩

end

end Steps

/-! ## Runs -/

namespace System

/-- The pointers of blocked tasks are good. -/
structure PtrInv (C : Prop) (keep : Orders) (ext0 : Nat → Nat) (alloc0 : Orders) (p0 : Phys) (s : System) :
    Prop where
  cur : s.sched.CurAwake
  ptr : ∀ q va, s.sched.WaitsAt q va → s.machine.PtrOk C q va
  counted : s.machine.CountedIf C keep ext0 alloc0 p0

variable {s : System} {p : Nat} {a : TaskAction}

/-- The statuses that a step stores go through pointers that are good. -/
theorem PtrInv.stores (h : PtrInv C keep ext0 alloc0 p0 s) (hc : s.sched.curTask = some p)
    (hw : s.WritablePtr p a) (hu : C → s.UnsharedPtr p a) : ∀ w ∈ s.sched.statusStores p a, s.machine.PtrOk C w.space w.va := by
  intro w hmem
  rcases Sched.mem_statusStores (h.cur p hc) hmem with ⟨hp, hva⟩ | hq
  · obtain ⟨t, ht, hgrant⟩ := hw w.va hva
    exact ⟨t, hp ▸ ht, hgrant, fun hC => hu hC w.va t hva ht⟩
  · exact h.ptr _ _ hq

theorem Booted.still (hb : Booted may m0 s) : Sched.Still Sched.empty s.sched := by
  induction hb with
  | empty => exact .refl _
  | user _ _ _ _ ih => exact ih.trans (Sched.Still.addTask _ _ _ _)
  | kernel _ _ ih => exact ih.trans (Sched.Still.addTask _ _ _ _)

theorem Booted.counted (hb : Booted may m0 s) (hmay : ∀ m a, C → may m a → m.InUserHalf a)
    (h0 : m0.CountedIf C keep ext0 alloc0 p0) : s.machine.CountedIf C keep ext0 alloc0 p0 := by
  induction hb with
  | empty => exact h0
  | user _ _ ha he ih => exact ih.act he fun hC => hmay _ _ hC ha
  | kernel _ _ ih => exact ih

section Invariant

variable {s' : System} {ok : System → Nat → TaskAction → Prop} (hmay : ∀ m a, C → may m a → m.InUserHalf a)
  (hok : ∀ s p a, ok s p a → s.WritablePtr p a ∧ (C → s.UnsharedPtr p a))

include hmay hok

/-- A step in which the pointers are good when the calls are made. -/
theorem PtrInv.step (h : PtrInv C keep ext0 alloc0 p0 s) (hc : s.sched.curTask = some p) (hs : Step may ok p s s') :
    PtrInv C keep ext0 alloc0 p0 s' := by
  cases hs with
  | @own fuel image a m hp ha he =>
    have hin : C → s.machine.InUserHalf a := fun hC => hmay _ _ hC ha
    refine ⟨h.cur, fun q va hq => (h.ptr q va hq).act h.counted he hin fun hqa => ?_, h.counted.act he hin⟩
    -- The one that acts is not blocked.
    obtain ⟨t, ht, hb, _⟩ := hq
    have hqp : q = p := by
      cases a <;> cases hp <;> exact hqa
    exact h.cur q (hqp ▸ hc) t ht hb
  | @task s' fuel image a l m1 m2 m hokay hs hd hf hl he =>
    obtain ⟨hw, hu⟩ := hok _ _ _ hokay
    obtain ⟨hc1, hkeep1, _⟩ := deliver_ptrOk h.counted (h.stores hc hw hu) hd
    obtain ⟨hc2, hkeep2, _⟩ := forkFor_ptrOk hc1 hf
    obtain ⟨hc3, hkeep3, _⟩ := freeAll_ptrOk hc2 he
    refine ⟨h.cur.step hc hs, fun q va hq => hkeep3 q va (fun hql => ?_) ?_, hc3⟩
    · obtain ⟨t, ht, _⟩ := hq
      have hgone := ((hl q).1 hql).2
      rw [show s'.tasks q = some t from ht] at hgone
      cases hgone
    · rcases Sched.step_waitsAt h.cur hc hs hq with hold | ⟨rfl, hva, hnil⟩
      · have hqp : q ≠ p := by
          rintro rfl
          obtain ⟨t, ht, hb, _⟩ := hold
          exact h.cur q hc t ht hb
        have hsome : (s.sched.tasks q).isSome := by
          obtain ⟨t, ht, _⟩ := hold
          rw [ht]
          rfl
        exact hkeep2 q va hqp hsome (hkeep1 q va hqp (h.ptr q va hold))
      · -- The task has blocked in this call, and then there was nothing else to do.
        rw [hnil] at hd
        cases hd
        obtain ⟨t, ht, hgrant⟩ := hw va hva
        have hsame : m2 = s.machine := by
          cases a with
          | wait rstatus => exact (Except.ok.inj hf).symm
          | waitpid pid rstatus => exact (Except.ok.inj hf).symm
          | fork enough => cases hva
          | exit rcode => cases hva
          | fault => cases hva
          | yield => cases hva
        rw [hsame]
        exact ⟨t, ht, hgrant, fun hC => hu hC va t hva ht⟩
  | kill hs =>
    have hstill := Sched.kill_still h.cur hs
    exact ⟨h.cur.still hstill, fun q va hq => h.ptr q va (hstill.waitsAt hq), h.counted⟩

/-- The invariant of all runs in which the pointers are good when the calls are made. -/
theorem Reachable.ptrInv (hr : Reachable may ok m0 s) (h0 : m0.CountedIf C keep ext0 alloc0 p0) :
    PtrInv C keep ext0 alloc0 p0 s := by
  induction hr with
  | boot hb =>
    have hstill := hb.still.trans (Sched.Still.schedYield _)
    have hempty : Sched.empty.CurAwake := fun q hq => by cases hq
    refine ⟨hempty.still hstill, fun q va hq => ?_, hb.counted hmay h0⟩
    obtain ⟨t, ht, _⟩ := hstill.waitsAt hq
    cases ht
  | step _ hc hs ih => exact ih.step hmay hok hc hs

end Invariant

end System

/-! ## Whose memory is changed -/

/-- The frame belongs to the page at `va` of the task: no other page of any task is mapped to it, it is nobody's page table, and
it was free when the kernel had booted. -/
structure Machine.OwnFrame (m0 m : Machine) (pid va f : Nat) : Prop where
  pages : ∀ q u x, m.tasks q = some u → x < USER_LIM → mappedFrame u.pml4 x = some f → q = pid ∧ x / PAGE_SIZE = va / PAGE_SIZE
  tables : ∀ q, ¬Node.Table (m.tasks q) f
  kernel : f ∈ m0.phys.freeSet

section

variable {alloc : Orders} {pid va f : Nat} {t : TaskSpace} (h : m.Counted keep ext0 alloc0 m0.phys alloc)
  (hboot : ∀ g k, alloc0 g = some k → 0 < ext0 g ∨ keep g = some k) (ht : m.tasks pid = some t) (hva : va < USER_LIM)
  (hf : mappedFrame t.pml4 va = some f)

include h hboot ht hva hf

/-- What a task reaches is not free, it is nobody's page table, and it was free when the kernel had booted. -/
theorem Machine.Counted.reached : f ∉ m.phys.freeSet ∧ (∀ q, ¬Node.Table (m.tasks q) f) ∧ f ∈ m0.phys.freeSet := by
  obtain ⟨x, hl, hx, _⟩ := mappedFrame_block hf
  obtain ⟨halloc, hkeep⟩ := h.leaf_alloc ht hva hl
  refine ⟨h.ledger.not_mem_freeSet halloc hx, fun q htable => ?_, ?_⟩
  · -- A page table is a block of its own.
    have hblock := h.ledger.disjoint_blocks halloc (Node.fits_table (h.fits q) htable).1 hx (head_mem_blockSet _ _)
    exact h.leaf_not_table ht ⟨va, x, hva, hl, hblock⟩ q htable
  · rcases (h.kernel.covered f).1 (.inr ⟨_, _, halloc, hx⟩) with hfree | ⟨g, k, hg, hfg⟩
    · exact hfree
    · exfalso
      rcases hboot g k hg with hext | hkept
      · have hframe := h.ledger.disjoint_blocks halloc (h.kernel.stays g k hext hg) hx hfg
        rw [← hframe, (h.leaf_ext ht hva hl).1] at hext
        exact absurd hext (lt_irrefl 0)
      · have hframe := h.ledger.disjoint_blocks halloc (h.ledger.kept g k hkept) hx hfg
        rw [← hframe, hkeep] at hkept
        cases hkept

/-- A frame with one reference that a task maps is its own. -/
theorem Machine.Counted.ownFrame (hone : ∀ x, lookup t.pml4 va = some x → (m.phys.pages x.2.frame).ppRef ≤ 1) :
    m0.OwnFrame m pid va f := by
  refine ⟨fun q u y hu hy hfy => ?_, (h.reached hboot ht hva hf).2.1, (h.reached hboot ht hva hf).2.2⟩
  obtain ⟨x, hl, hx, _⟩ := mappedFrame_block hf
  obtain ⟨x', hl', hx', _⟩ := mappedFrame_block hfy
  have hframe := h.ledger.disjoint_blocks (h.leaf_alloc ht hva hl).1 (h.leaf_alloc hu hy hl').1 hx hx'
  have hq : q = pid := by
    by_contra hne
    have := h.two_le_ref hne (hframe ▸ leaf_refs_pos hu hy hl') (leaf_refs_pos ht hva hl)
    have := hone x hl
    omega
  subst hq
  rw [ht] at hu
  cases hu
  exact ⟨rfl, (h.accPml4 ht).mappedFrame_inj (h.pml4_refs_le_one ht) hy hva hfy hf⟩

end

/-- The exit statuses of children go where the pointers of `sys_wait` and `sys_waitpid` may lead, in any run from boot.
1. A step asks the page tables for nothing but the stores that are listed for it.
2. If every pointer leads to areas that may be written when the call is made, every status is stored in such areas of the task
   that waits, whenever that is.
3. If moreover every pointer leads to pages that are not shared, and the memory calls stay in the user half, then the only bytes
   that such a store changes are those of the `int`, in frames that belong to these pages alone. -/
theorem status_stores_confined {m0 : Machine} {alloc0 : Nat → Option Nat} (hno : m0.NoTasks) (hf : Frames m0.phys alloc0) :
    (∀ (s : Sched) (p : Nat) (a : TaskAction) (mem mem' : UserMem),
      (∀ w ∈ s.statusStores p a, mem w.space w.va = mem' w.space w.va) → Sched.act mem s p a = Sched.act mem' s p a) ∧
    (∀ s p a, System.Reachable (fun _ _ => True) System.WritablePtr m0 s → s.sched.curTask = some p → s.WritablePtr p a →
      ∀ w ∈ s.sched.statusStores p a, ∃ t, s.machine.tasks w.space = some t ∧ t.vm.GrantsInt w.va) ∧
    (∀ s p a, System.Reachable Machine.InUserHalf (fun s p a => s.WritablePtr p a ∧ s.UnsharedPtr p a) m0 s →
      s.sched.curTask = some p → s.WritablePtr p a → s.UnsharedPtr p a →
      ∀ l1 w l2 m m', s.sched.statusStores p a = l1 ++ w :: l2 → l1.foldlM Machine.storeStatus s.machine = .ok m →
        m.storeStatus w = .ok m' → ∀ f o, m'.phys.bytes f o ≠ m.phys.bytes f o →
          ∃ t, m.tasks w.space = some t ∧ ∃ i < 4, mappedFrame t.pml4 (add64 w.va i) = some f ∧ o = add64 w.va i % PAGE_SIZE ∧
            m0.OwnFrame m w.space (add64 w.va i) f) := by
  refine ⟨fun s p a mem mem' => Sched.act_congr, fun s p a hr hc hw w hmem => ?_,
    fun s p a hr hc hw hu l1 w l2 m m' hl hbefore he f o hne => ?_⟩
  · -- Frames do not matter for the areas.
    have hzero : m0.CountedIf False (fun _ => none) 0 alloc0 m0.phys := nofun
    have hinv := hr.ptrInv (fun _ _ => False.elim) (fun _ _ _ hok => ⟨hok, nofun⟩) hzero
    obtain ⟨t, ht, hgrant, _⟩ := hinv.stores hc hw nofun w hmem
    exact ⟨t, ht, hgrant⟩
  · have hinv := hr.ptrInv (C := True) (fun _ _ _ => id) (fun _ _ _ hok => ⟨hok.1, fun _ => hok.2⟩)
      fun _ => ⟨alloc0, Machine.Counted.boot hno hf⟩
    have hstores := hinv.stores hc hw fun _ => hu
    rw [hl] at hstores
    obtain ⟨hcounted, hptr⟩ := foldlM_ptrOk hinv.counted (fun v hv => hstores v (List.mem_append_left _ hv)) hbefore
    obtain ⟨t, ht, hgrant, halone⟩ := hptr _ _ (hstores w (by simp))
    obtain ⟨alloc, h⟩ := hcounted trivial
    have huser := h.grantsInt_user ht hgrant
    obtain ⟨pml4, _, _, hwritten⟩ := h.storeStatus ht huser he
    obtain ⟨i, hi, hframe, ho⟩ := hwritten.bytes f o hne
    refine ⟨t, ht, i, hi, hframe, ho, h.ownFrame (fun g k hg => ?_) ht (huser i hi) hframe (halone trivial i hi)⟩
    by_cases hz : (m0.phys.pages g).ppRef = 0
    · exact .inr (by rw [if_pos hz, hg])
    · exact .inl (Nat.pos_of_ne_zero hz)

/-! ## A parent that waits -/

/-- The first task runs. -/
def firstTask : Sched := (Sched.empty.addTask .user 0 1).schedYield

/-- It has forked. -/
def forkedTask : Sched := Sched.leave 1 (some 2, ((firstTask.enter 1 SYS_fork 0).sysFork 1 true).2)

/-- It waits for its child, with a pointer to its first segment. -/
def waitingTask : Sched := (forkedTask.enter 1 SYS_wait 0x400000).block 1 none (some 0x400000)

theorem firstTask_tasks (h : (firstTask.tasks q).isSome) : q = 1 := by
  by_contra hq
  simp [firstTask, Sched.schedYield, Sched.putBack, Sched.addTask, Sched.empty, Sched.pickNext, Sched.popRunnable, Sched.taskRun,
    Sched.modifyTask, Sched.newTask, hq] at h

theorem forkedTask_tasks (h : (forkedTask.tasks q).isSome) : q = 1 ∨ q = 2 := by
  by_contra hq
  obtain ⟨h1, h2⟩ := not_or.1 hq
  have hnone : firstTask.tasks q = none := Option.not_isSome_iff_eq_none.1 fun hsome => h1 (firstTask_tasks hsome)
  have he : (firstTask.enter 1 SYS_fork 0).tasks q = none := by rwa [Sched.enter, Sched.modifyTask_tasks, if_neg h1]
  have hf : forkedTask.tasks q = (firstTask.enter 1 SYS_fork 0).tasks q := by
    show (if q = 1 then _ else if q = 1 then _ else update _ 2 _ q) = _
    rw [if_neg h1, if_neg h1, update_of_ne h2]
  rw [hf, he] at h
  cases h

/-- No task goes when the first one forks, and none when it waits. -/
theorem nobody_gone : System.Gone firstTask forkedTask [] ∧ System.Gone forkedTask waitingTask [] := by
  refine ⟨fun q => ⟨nofun, fun ⟨hsome, hgone⟩ => ?_⟩, fun q => ⟨nofun, fun ⟨hsome, hgone⟩ => ?_⟩⟩
  · rw [firstTask_tasks hsome] at hgone
    exact absurd hgone (by decide +kernel)
  · rcases forkedTask_tasks hsome with rfl | rfl
    · exact absurd hgone (by decide +kernel)
    · exact absurd hgone (by decide +kernel)

theorem waiting_run : firstTask.curTask = some 1 ∧ forkedTask.curTask = some 1 ∧ waitingTask.curTask = some 2 ∧
    forkedTask.statusStores 1 (.wait (some 0x400000)) = [] ∧ waitingTask.statusStores 2 (.exit 7) = [⟨1, 0x400000, 7⟩] := by
  decide +kernel

section Run

variable {ok : System → Nat → TaskAction → Prop} {binary : Nat} {hdrs : List ProgHdr}

theorem reachable_firstTask (hmay : may m0 (.create 1 binary hdrs)) (he : m0.act fuel image (.create 1 binary hdrs) = .ok m) :
    System.Reachable may ok m0 ⟨firstTask, m⟩ :=
  .boot (s := ⟨Sched.empty.addTask .user 0 1, m⟩) (.user .empty rfl hmay he)

theorem reachable_forkedTask (h : System.Reachable may ok m0 ⟨firstTask, m⟩) (hok : ok ⟨firstTask, m⟩ 1 (.fork true))
    (he : m.act fuel image (.fork 1 2) = .ok m') : System.Reachable may ok m0 ⟨forkedTask, m'⟩ := by
  have hs : firstTask.step (m.storeOutcome image 1) (.fork true) = some forkedTask := rfl
  have hf : m.forkFor fuel image firstTask 1 (.fork true) = .ok m' := he
  exact .step h waiting_run.1 (.task hok hs rfl hf nobody_gone.1 rfl)

theorem reachable_waitingTask (h : System.Reachable may ok m0 ⟨forkedTask, m⟩)
    (hok : ok ⟨forkedTask, m⟩ 1 (.wait (some 0x400000))) : System.Reachable may ok m0 ⟨waitingTask, m⟩ := by
  obtain ⟨_, hc, _, hnil, _⟩ := waiting_run
  have hs : forkedTask.step (m.storeOutcome (fun _ => 0) 1) (.wait (some 0x400000)) = some waitingTask := rfl
  have hd : m.deliver 0 (fun _ => 0) (m.storeOutcome (fun _ => 0) 1) 1 (forkedTask.statusStores 1 (.wait (some 0x400000))) = .ok m := by
    rw [hnil]
    rfl
  exact .step h hc (.task hok hs hd rfl nobody_gone.2 rfl)

end Run

/-- A program waits with a pointer to its code, which it has executed, and which its child shares: the status of the child is
stored there. -/
theorem status_stored_in_text : ∃ s t t2 m', System.Reachable (fun _ _ => True) (fun _ _ _ => True) smallMachine s ∧
    s.sched.curTask = some 2 ∧ s.sched.statusStores 2 (.exit 7) = [⟨1, 0x400000, 7⟩] ∧ s.machine.tasks 1 = some t ∧
    s.machine.tasks 2 = some t2 ∧ ¬t.vm.GrantsInt 0x400000 ∧ s.machine.storeOutcome (fun _ => 0) 2 1 0x400000 = .stored ∧
    s.machine.storeStatus ⟨1, 0x400000, 7⟩ = .ok m' ∧ userLoad s.machine.phys t2.pml4 0x400000 = some 0 ∧
    userLoad m'.phys t2.pml4 0x400000 = some 7 := by
  have hrun : ∃ m1, smallMachine.act 20 (fun _ => 0) (.create 1 0 [⟨true, 0x400000, 0x1000, 0, 0, false, true⟩]) = .ok m1 ∧
      ∃ m2, m1.act 20 (fun _ => 0) (.fault 1 0x400000 PROT_EXEC) = .ok m2 ∧ ∃ m3, m2.act 20 (fun _ => 0) (.fork 1 2) = .ok m3 ∧
      (∃ t, m3.tasks 1 = some t ∧ ¬t.vm.GrantsInt 0x400000) ∧ m3.storeOutcome (fun _ => 0) 2 1 0x400000 = .stored ∧
      ∃ t2, m3.tasks 2 = some t2 ∧ ∃ m4, m3.storeStatus ⟨1, 0x400000, 7⟩ = .ok m4 ∧
      userLoad m3.phys t2.pml4 0x400000 = some 0 ∧ userLoad m4.phys t2.pml4 0x400000 = some 7 := by
    decide +kernel
  obtain ⟨m1, h1, m2, h2, m3, h3, ⟨t, ht, hgrant⟩, hstored, t2, ht2, m4, h4, hbefore, hafter⟩ := hrun
  obtain ⟨hcur, _, hcur2, _, hstores⟩ := waiting_run
  have hr : System.Reachable (fun _ _ => True) (fun _ _ _ => True) smallMachine ⟨firstTask, m1⟩ := reachable_firstTask trivial h1
  have hr2 := hr.step hcur (.own (a := .fault 1 0x400000 PROT_EXEC) rfl trivial h2)
  have hr3 := reachable_waitingTask (reachable_forkedTask hr2 trivial h3) trivial
  exact ⟨⟨waitingTask, m3⟩, t, t2, m4, hr3, hcur2, hstores, ht, ht2, hgrant, hstored, h4, hbefore, hafter⟩

/-- A program waits with a pointer to data that it has written after the fork. -/
theorem status_stores_confined_data : ∃ s t m' f, System.Reachable Machine.InUserHalf
    (fun s p a => s.WritablePtr p a ∧ s.UnsharedPtr p a) smallMachine s ∧ s.sched.curTask = some 2 ∧
    s.sched.statusStores 2 (.exit 7) = [⟨1, 0x400000, 7⟩] ∧ s.machine.storeStatus ⟨1, 0x400000, 7⟩ = .ok m' ∧
    m'.phys.bytes f 0 ≠ s.machine.phys.bytes f 0 ∧ s.machine.tasks 1 = some t ∧ t.vm.GrantsInt 0x400000 ∧
    smallMachine.OwnFrame s.machine 1 0x400000 f := by
  have hrun : ∃ m1, smallMachine.act 20 (fun _ => 0) createData = .ok m1 ∧
      ∃ m2, m1.act 20 (fun _ => 0) (.fork 1 2) = .ok m2 ∧ ∃ m3, m2.act 20 (fun _ => 0) (.fault 1 0x400000 PROT_WRITE) = .ok m3 ∧
      ∃ m4, m3.storeStatus ⟨1, 0x400000, 7⟩ = .ok m4 ∧
      ∃ t, m3.tasks 1 = some t ∧ ∃ f, mappedFrame t.pml4 0x400000 = some f ∧ t.vm.GrantsInt 0x400000 ∧
      (∀ i < 4, ((lookup t.pml4 (add64 0x400000 i)).all fun x => (m3.phys.pages x.2.frame).ppRef ≤ 1) = true) ∧
      m4.phys.bytes f 0 ≠ m3.phys.bytes f 0 := by
    decide +kernel
  obtain ⟨m1, h1, m2, h2, m3, h3, m4, h4, t, ht, f, hf, hgrant, halone, hne⟩ := hrun
  obtain ⟨hcur, hcur1, hcur2, _, hstores⟩ := waiting_run
  have hr : System.Reachable Machine.InUserHalf (fun s p a => s.WritablePtr p a ∧ s.UnsharedPtr p a) smallMachine ⟨firstTask, m1⟩ :=
    reachable_firstTask createData_inUserHalf h1
  have hr2 := reachable_forkedTask hr ⟨nofun, nofun⟩ h2
  have hr3 := hr2.step hcur1 (.own (a := .fault 1 0x400000 PROT_WRITE) rfl (by trivial) h3)
  have hwait : System.WritablePtr ⟨forkedTask, m3⟩ 1 (.wait (some 0x400000)) ∧
      System.UnsharedPtr ⟨forkedTask, m3⟩ 1 (.wait (some 0x400000)) := by
    refine ⟨fun va hva => ⟨t, ht, ?_⟩, fun va u hva hu i hi x hx => ?_⟩
    · cases hva
      exact hgrant
    · cases hva
      cases ht.symm.trans hu
      have hall := halone i hi
      rw [hx] at hall
      exact of_decide_eq_true hall
  have hr4 := reachable_waitingTask hr3 hwait
  have hmain := status_stores_confined smallMachine_noTasks smallMachine_ledger.toFrames
  obtain ⟨u, hu, i, hi, hframe, ho, hown⟩ := hmain.2.2 ⟨waitingTask, m3⟩ 2 (.exit 7) hr4 hcur2 nofun nofun [] _ [] m3 m4 hstores rfl h4 f 0 hne
  have hi0 : i = 0 := by
    simp only [add64, PAGE_SIZE] at ho
    omega
  subst hi0
  exact ⟨⟨waitingTask, m3⟩, t, m4, f, hr4, hcur2, hstores, h4, hne, ht, hgrant, hown⟩

end OpenLsd
