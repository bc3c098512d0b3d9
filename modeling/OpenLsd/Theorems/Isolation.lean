import OpenLsd.Theorems.Buddy
import OpenLsd.Theorems.StatusPointer

/-!
# Tasks and the memory of others

What tasks do to memory that is not theirs, over whole runs in which they are made, fault, store, call, fork and end, in any order.
As before the calls stay in the user half and leave pages present.
-/

namespace OpenLsd

open Node Outcome

/-- Whatever tasks do, in every state that they reach:
1. What a user address leads to is no free frame, no page table of any task, and no memory that the kernel had taken at boot.
2. If the page has one reference, no other page of any task leads there.
3. The frames that the kernel refers to have the references that they had. -/
theorem user_memory_confined {s0 s : Machine} {alloc : Nat → Option Nat} (hs : s0.NoTasks) (hf : Frames s0.phys alloc)
    (hr : Machine.Run Machine.InUserHalf s0 s) :
    (∀ pid t va f, s.tasks pid = some t → va < USER_LIM → mappedFrame t.pml4 va = some f →
      (f ∉ s.phys.freeSet ∧ (∀ q, ¬Table (s.tasks q) f) ∧ f ∈ s0.phys.freeSet) ∧
      ((∀ x, lookup t.pml4 va = some x → (s.phys.pages x.2.frame).ppRef ≤ 1) → s0.OwnFrame s pid va f)) ∧
    ∀ f, (s0.phys.pages f).ppRef ≠ 0 → (s.phys.pages f).ppRef = (s0.phys.pages f).ppRef := by
  obtain ⟨alloc', h⟩ := (Machine.Counted.boot hs hf).run hr
  have hboot : ∀ g k, alloc g = some k → 0 < (s0.phys.pages g).ppRef ∨
      (if (s0.phys.pages g).ppRef = 0 then alloc g else none) = some k := by
    intro g k hg
    by_cases hz : (s0.phys.pages g).ppRef = 0
    · exact .inr (by rw [if_pos hz, hg])
    · exact .inl (Nat.pos_of_ne_zero hz)
  refine ⟨fun pid t va f ht hva hfr => ⟨h.reached hboot ht hva hfr, h.ownFrame hboot ht hva hfr⟩, fun f href => ?_⟩
  have hle := h.refs_le_card f (Finset.range pidMax) fun q _ => by
    have hle := h.once q f
    rw [if_neg href] at hle
    exact Nat.le_zero.1 hle
  rw [sdiff_self, Finset.bot_eq_empty, Finset.card_empty, Nat.le_zero] at hle
  rw [h.ledger.counted, Pi.add_apply, hle, Nat.add_zero]

/-- A program forks, and both tasks write to their page, the child first. -/
theorem smallMachine_fork : ∃ s s' t f, Machine.Run Machine.InUserHalf smallMachine s ∧
    s.act 20 (fun _ => 0) (.fault 1 0x400000 PROT_WRITE) = .ok s' ∧ s.tasks 2 = some t ∧ mappedFrame t.pml4 0x400000 = some f ∧
    ∀ x, lookup t.pml4 0x400000 = some x → (s.phys.pages x.2.frame).ppRef ≤ 1 := by
  have hrun : ∃ s1, smallMachine.act 20 (fun _ => 0) createData = .ok s1 ∧
      ∃ s2, s1.act 20 (fun _ => 0) (.fork 1 2) = .ok s2 ∧ ∃ s3, s2.act 20 (fun _ => 0) (.fault 2 0x400000 PROT_WRITE) = .ok s3 ∧
      ∃ s4, s3.act 20 (fun _ => 0) (.fault 1 0x400000 PROT_WRITE) = .ok s4 ∧ ∃ t, s3.tasks 2 = some t ∧
      ∃ f, mappedFrame t.pml4 0x400000 = some f ∧ ∃ x, lookup t.pml4 0x400000 = some x ∧ (s3.phys.pages x.2.frame).ppRef ≤ 1 := by
    decide +kernel
  obtain ⟨s1, h1, s2, h2, s3, h3, s4, h4, t, ht, f, hf, x, hx, href⟩ := hrun
  have hfork : s1.InUserHalf (.fork 1 2) := ⟨by decide, by decide⟩
  refine ⟨s3, s4, t, f, .step (.step (.step (.refl _) createData_inUserHalf h1) hfork h2) (by trivial) h3, h4, ht, hf, fun y hy => ?_⟩
  cases hx.symm.trans hy
  exact href

theorem user_memory_confined_fork : ∃ (s : Machine) (f : Nat), f ∉ s.phys.freeSet ∧ smallMachine.OwnFrame s 2 0x400000 f := by
  obtain ⟨s, _, t, f, hr, -, ht, hf, hone⟩ := smallMachine_fork
  obtain ⟨hreach, hown⟩ := (user_memory_confined smallMachine_noTasks smallMachine_ledger.toFrames hr).1 2 t _ f ht (by decide) hf
  exact ⟨s, f, hreach.1, hown hone⟩

/-! ## The pages that a task shares with nobody -/

namespace System

/-- The pointer of a call leads to pages of the task that it may write, and that are not shared. -/
def GoodPtr (s : System) (p : Nat) (a : Sched.TaskAction) : Prop := s.WritablePtr p a ∧ s.UnsharedPtr p a

/-- A step of a task other than `q`, after which `q` is still in the PID map. -/
def OtherStep (q : Nat) (s s' : System) : Prop :=
  ∃ p, p ≠ q ∧ s.sched.curTask = some p ∧ Step Machine.InUserHalf GoodPtr p s s' ∧ (s'.sched.tasks q).isSome

variable {keep : Orders} {ext0 : Nat → Nat} {alloc0 : Orders} {p0 : Phys} {s s' : System} {q : Nat}

/-- What others do leaves the task alone, as long as it is not blocked in a wait with a pointer. It does not block meanwhile. -/
theorem OtherStep.apart (hs : OtherStep q s s') (h : PtrInv True keep ext0 alloc0 p0 s) (hq : (s.sched.tasks q).isSome)
    (hw : ∀ va, ¬s.sched.WaitsAt q va) : s.machine.Apart {q}ᶜ s'.machine ∧ ∀ va, ¬s'.sched.WaitsAt q va := by
  obtain ⟨p, hpq, hc, hs, hq'⟩ := hs
  cases hs with
  | @own fuel image a m hp ha he =>
    refine ⟨h.counted.act_apart he trivial (fun _ => ha) fun hqa => hpq ?_, hw⟩
    cases a <;> cases hp <;> exact hqa.symm
  | @task s' fuel image a l m1 m2 m hok hs hd hf hl he =>
    have hstores := h.stores hc hok.1 fun _ => hok.2
    obtain ⟨hc1, -, hap1⟩ := deliver_ptrOk h.counted hstores hd
    obtain ⟨hc2, -, hap2⟩ := forkFor_ptrOk hc1 hf
    obtain ⟨-, -, hap3⟩ := freeAll_ptrOk hc2 he
    have hspace : ∀ w ∈ s.sched.statusStores p a, w.space ≠ q := by
      intro w hmem hwq
      rcases Sched.mem_statusStores (h.cur p hc) hmem with ⟨hp, _⟩ | hold
      · exact hpq (hp.symm.trans hwq)
      · exact hw w.va (hwq ▸ hold)
    have hql : q ∉ l := fun hql => by
      have hgone := ((hl q).1 hql).2
      rw [Option.isNone_iff_eq_none.1 hgone] at hq'
      cases hq'
    refine ⟨((hap1 trivial q hpq.symm hspace).trans (hap2 trivial q hpq.symm hq)).trans (hap3 trivial q hql), fun va hva => ?_⟩
    rcases Sched.step_waitsAt h.cur hc hs hva with hold | ⟨hqp, _⟩
    · exact hw va hold
    · exact hpq hqp.symm
  | kill hs => exact ⟨.refl _ _, fun va hva => hw va ((Sched.kill_still h.cur hs).waitsAt hva)⟩

end System

end OpenLsd
