import OpenLsd.Lemmas.Permissions

/-!
# No page is writable and executable

The system calls do not accept `PROT_WRITE` and `PROT_EXEC` together. The loader of programs does not check its headers, so
this has to be asked of the programs: then it holds of every page of every task.
-/

namespace OpenLsd

open Outcome

/-- The page may be written or executed, not both. -/
def WriteXorExec (e : Entry) : Prop := ¬(e.write = true ∧ e.noExec = false)

instance (e : Entry) : Decidable (WriteXorExec e) := inferInstanceAs (Decidable (¬_))

/-- The area may be written or executed, not both. -/
def FlagsXor (flags : Nat) : Prop := ¬(hasFlag flags PROT_WRITE = true ∧ hasFlag flags PROT_EXEC = true)

theorem writeXorExec_of_prot {e : Entry} {fl : Nat} (hf : FlagsXor fl) (hw : e.write = hasFlag fl PROT_WRITE)
    (hx : e.noExec = !hasFlag fl PROT_EXEC) : WriteXorExec e := by
  intro h
  refine hf ⟨hw ▸ h.1, ?_⟩
  simpa [hx] using h.2

theorem permission_writeXorExec : Permission WriteXorExec FlagsXor where
  flags := fun e e' he h h' => by
    have hw : e'.write = e.write := congrArg PageFlags.write he
    have hx : e'.noExec = e.noExec := congrArg PageFlags.noExec he
    exact h ⟨hw ▸ h'.1, hx ▸ h'.2⟩
  readOnly := fun e he h => by simp [he] at h
  dirty := fun _ h => h
  zero := by unfold FlagsXor; decide
  allowed := fun h => h.1
  populated := fun hf _ he => writeXorExec_of_prot hf (congrArg PageFlags.write he) (congrArg PageFlags.noExec he)
  changed := fun {fl} hf hp e he => by
    by_cases h0 : fl = 0
    · rw [protectFlags, if_pos h0] at hp
      cases hp
    · rw [protectFlags, if_neg h0] at he
      exact writeXorExec_of_prot hf (congrArg PageFlags.write he) (congrArg PageFlags.noExec he)

/-- No segment that is loaded is both writable and executable. -/
def ProgHdr.WriteXorExec (h : ProgHdr) : Prop := h.pLoad = true → ¬(h.pWrite = true ∧ h.pExec = true)

instance (h : ProgHdr) : Decidable h.WriteXorExec := inferInstanceAs (Decidable (_ → _))

theorem ProgHdr.WriteXorExec.protFlags {h : ProgHdr} (hx : h.WriteXorExec) (hl : h.pLoad = true) : FlagsXor h.protFlags := by
  have hx := hx hl
  unfold ProgHdr.protFlags FlagsXor
  cases hw : h.pWrite <;> cases he : h.pExec
  · decide
  · decide
  · decide
  · exact absurd ⟨hw, he⟩ hx

/-- A program that is loaded has no segment that is both writable and executable. -/
def MemAction.LoadsXor : MemAction → Prop
  | .create _ _ hdrs => ∀ h ∈ hdrs, h.WriteXorExec
  | _ => True

theorem Machine.Run.writeXorExec {s0 s : Machine} (hs : s0.NoTasks) (hr : Machine.Run (fun _ a => a.LoadsXor) s0 s) :
    s.Permitted OpenLsd.WriteXorExec FlagsXor := by
  induction hr with
  | refl =>
    intro pid t ht
    rw [hs pid] at ht
    cases ht
  | step _ ha he ih =>
    refine (permission_writeXorExec.act _ ?_ ih).1 _ he
    rintro pid binary hdrs rfl hdr hmem hl
    exact (ha hdr hmem).protFlags hl

/-- No page of a task is both writable and executable, whatever the tasks call, touch, store and fork, if no segment of a
program that is loaded is. -/
theorem no_page_write_and_exec {s0 s : Machine} (hs : s0.NoTasks) (hr : Machine.Run (fun _ a => a.LoadsXor) s0 s) {pid va : Nat}
    {t : TaskSpace} {e : Entry} (ht : s.tasks pid = some t) (hva : va < USER_LIM) (he : pageLookup t.pml4 va = some e) :
    ¬(e.write = true ∧ e.noExec = false) :=
  (hr.writeXorExec hs pid t ht).leaves.pageLookup hva he

/-- A machine with 32 free frames and no tasks. -/
def smallMachine : Machine where
  phys :=
    { npages := 512
      pages := fun p =>
        { ppRef := 0, ppOrder := if p = 32 then 5 else 0, ppFree := p = 32, ppAvail := true, virtAddr := 0, owner := none }
      buddyFreeList := fun k => if k = 5 then [32] else []
      activePages := []
      bytes := fun _ _ => 0 }
  kernelPml4 := fun _ => 0
  tasks := fun _ => none

theorem smallMachine_noTasks : smallMachine.NoTasks := fun _ => rfl

/-- A program with a text and a data segment, which touches a page of each and forks. -/
theorem no_page_write_and_exec_textData : ∃ s t e, Machine.Run (fun _ a => a.LoadsXor) smallMachine s ∧
    s.tasks 2 = some t ∧ pageLookup t.pml4 0x400000 = some e ∧ ¬(e.write = true ∧ e.noExec = false) := by
  have hrun : ∃ s1, smallMachine.act 20 (fun _ => 0)
        (.create 1 0 [⟨true, 0x400000, 0x1000, 0, 0, false, true⟩, ⟨true, 0x600000, 0x1000, 0, 0, true, false⟩]) = .ok s1 ∧
      ∃ s2, s1.act 20 (fun _ => 0) (.fault 1 0x400000 PROT_EXEC) = .ok s2 ∧
      ∃ s3, s2.act 20 (fun _ => 0) (.fault 1 0x600000 PROT_WRITE) = .ok s3 ∧
      ∃ s4, s3.act 20 (fun _ => 0) (.fork 1 2) = .ok s4 ∧
      ∃ t, s4.tasks 2 = some t ∧ (pageLookup t.pml4 0x400000).isSome := by
    decide +kernel
  obtain ⟨s1, h1, s2, h2, s3, h3, s4, h4, t, ht, hp⟩ := hrun
  obtain ⟨e, he⟩ := Option.isSome_iff_exists.1 hp
  have hr1 : Machine.Run (fun _ a => a.LoadsXor) smallMachine s1 :=
    .step (.refl _) (by unfold MemAction.LoadsXor; decide) h1
  have hr3 : Machine.Run (fun _ a => a.LoadsXor) smallMachine s3 :=
    .step (.step hr1 (by trivial) h2) (by trivial) h3
  have hr : Machine.Run (fun _ a => a.LoadsXor) smallMachine s4 := .step hr3 (by trivial) h4
  exact ⟨s4, t, e, hr, ht, he, no_page_write_and_exec smallMachine_noTasks hr ht (by decide) he⟩

/-- A program with one segment that is writable and executable gets a page that is. -/
theorem page_write_and_exec : ∃ s1 s2 t e,
    smallMachine.act 20 (fun _ => 0) (.create 1 0 [⟨true, 0x400000, 0x1000, 0, 0, true, true⟩]) = .ok s1 ∧
      s1.act 20 (fun _ => 0) (.fault 1 0x400000 PROT_READ) = .ok s2 ∧ s2.tasks 1 = some t ∧
      pageLookup t.pml4 0x400000 = some e ∧ e.user = true ∧ e.write = true ∧ e.noExec = false := by
  simp only [exists_and_left]
  decide +kernel

end OpenLsd
