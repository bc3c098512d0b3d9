import OpenLsd.Dev.Printfmt
import OpenLsd.Lemmas.AreaCalls

/-!
# The kernel and the memory of a task

`sys_cputs` and the check of user memory that it makes first. What the loop over the characters reads is told by
`mem_putChars_reads`, and it is one byte more than the precision allows. On pages that are all present, the call prints the
same in the model of interrupts. `check_user_vma_range` says what it is meant to say, but
for ranges that wrap.
-/

namespace OpenLsd

/-! ## Printing -/

theorem add64_add64 (p i j : Nat) : add64 (add64 p i) j = add64 p (i + j) := by
  simp only [add64]
  omega

/-- Two bytes at less than `2 ^ 64` of a distance have different addresses. -/
theorem add64_left_inj {p i j : Nat} (hi : i < 2 ^ 64) (hj : j < 2 ^ 64) (h : add64 p i = add64 p j) : i = j := by
  simp only [add64] at h
  omega

/-- Which bytes the loop of `%s` reads: those that no `NUL` comes before, up to the one at the precision. -/
theorem mem_putChars_reads {mem : Nat → UInt8} {altflag : Bool} {turns p a : Nat} {precision : Int} (hp : p < 2 ^ 64) :
    a ∈ (putChars mem altflag turns p precision).reads ↔
      ∃ i < turns, a = add64 p i ∧ (∀ j < i, mem (add64 p j) ≠ 0) ∧ (precision < 0 ∨ (i : Int) ≤ precision) := by
  induction turns generalizing p precision with
  | zero => simp [putChars]
  | succ turns ih =>
    have hp0 : add64 p 0 = p := Nat.mod_eq_of_lt hp
    have hp1 : add64 p 1 < 2 ^ 64 := Nat.mod_lt _ (by decide)
    -- the first byte, and then those of the loop from the second on
    have hfirst : ∀ q : Int, (∃ i < turns + 1, a = add64 p i ∧ (∀ j < i, mem (add64 p j) ≠ 0) ∧ (q < 0 ∨ (i : Int) ≤ q)) ↔
        (a = p ∧ (q < 0 ∨ 0 ≤ q)) ∨ (mem p ≠ 0 ∧ ∃ i < turns, a = add64 (add64 p 1) i ∧
          (∀ j < i, mem (add64 (add64 p 1) j) ≠ 0) ∧ (q < 0 ∨ (i : Int) + 1 ≤ q)) := by
      intro q
      constructor
      · rintro ⟨i, hi, rfl, hmem, hq⟩
        cases i with
        | zero => exact .inl ⟨hp0, by simpa using hq⟩
        | succ i =>
          refine .inr ⟨hp0 ▸ hmem 0 (by omega), i, by omega, ?_, fun j hj => ?_, by simpa using hq⟩
          · rw [add64_add64, Nat.add_comm 1]
          · rw [add64_add64, Nat.add_comm 1]
            exact hmem (j + 1) (by omega)
      · rintro (⟨rfl, hq⟩ | ⟨h0, i, hi, rfl, hmem, hq⟩)
        · exact ⟨0, by omega, hp0.symm, fun j hj => absurd hj (by omega), by simpa using hq⟩
        · refine ⟨i + 1, by omega, by rw [add64_add64, Nat.add_comm 1], fun j hj => ?_, by simpa using hq⟩
          cases j with
          | zero => rwa [hp0]
          | succ j =>
            have := hmem j (by omega)
            rwa [add64_add64, Nat.add_comm 1] at this
    rw [hfirst]
    simp only [putChars]
    split
    case isTrue h0 => simp [h0]; omega
    case isFalse h0 =>
      split
      case isTrue hneg =>
        simp only [List.mem_cons, ih hp1, hneg, true_or, and_true, h0, ne_eq, not_false_eq_true, true_and]
      case isFalse hneg =>
        split
        case isTrue hge =>
          simp only [List.mem_cons, ih hp1, h0, ne_eq, not_false_eq_true, true_and]
          refine or_congr ⟨fun h => ⟨h, by omega⟩, And.left⟩ (exists_congr fun i => and_congr_right fun _ =>
            and_congr_right fun _ => and_congr_right fun _ => by omega)
        case isFalse hge =>
          simp only [List.mem_singleton]
          refine ⟨fun h => .inl ⟨h, by omega⟩, ?_⟩
          rintro (⟨h, -⟩ | ⟨-, i, -, -, -, hi⟩)
          · exact h
          · omega

/-- `%.*s` sets no width, and the precision to the length as an `int`. -/
theorem cputs_eq (mem : Nat → UInt8) (turns s len : Nat) {vm : VmSpace}
    (h : IntState.checkUserVmaRange vm s len PROT_READ = true) :
    cputs vm mem turns s len = some (if s = 0 then ⟨[], (putChars nullMemory false 7 1 (toInt32 len)).out⟩
      else putChars mem false turns s (toInt32 len)) := by
  have hfmt : fmtSwitch 4 .start [len, s] ['.', '*', 's'] = some (⟨32, 0, toInt32 len, false⟩, [s], []) := rfl
  by_cases hs : s = 0
  · subst hs
    simp [cputs, h, vprintfmt, hfmt, putString]
  · simp [cputs, h, vprintfmt, hfmt, hs, putString]

/-- `sys_cputs(s, len)` reads no byte outside of `[s, s + len)` if and only if the task is destroyed for it, or the pointer is
`NULL`, or the range has a `NUL`, or what is left of the length as an `int` is a shorter one. Else the byte behind the range
is read before the precision is looked at, and a length that is negative as an `int` sets no limit. -/
theorem cputs_reads_in_range_iff {vm : VmSpace} {mem : Nat → UInt8} {s len : Nat} (hs : s < 2 ^ 64) (hlen : len < 2 ^ 64) :
    (∀ turns, ∀ r ∈ cputs vm mem turns s len, ∀ a ∈ r.reads, ∃ i < len, a = add64 s i) ↔
      IntState.checkUserVmaRange vm s len PROT_READ = false ∨ s = 0 ∨ (∃ i < len, mem (add64 s i) = 0) ∨
        (len % 2 ^ 32 < 2 ^ 31 ∧ 2 ^ 32 ≤ len) := by
  cases hcheck : IntState.checkUserVmaRange vm s len PROT_READ with
  | false => simp [cputs, hcheck]
  | true =>
    by_cases h0 : s = 0
    · simp only [h0, true_or, or_true, iff_true]
      intro turns r hr a ha
      have hr' := cputs_eq mem turns s len hcheck
      rw [h0, if_pos rfl] at hr'
      cases hr'.symm.trans hr
      cases ha
    · have hreads : ∀ turns, ∃ r, cputs vm mem turns s len = some r ∧ ∀ a, a ∈ r.reads ↔ ∃ i < turns, a = add64 s i ∧
          (∀ j < i, mem (add64 s j) ≠ 0) ∧ (toInt32 len < 0 ∨ (i : Int) ≤ toInt32 len) := by
        intro turns
        refine ⟨_, cputs_eq mem turns s len hcheck, fun a => ?_⟩
        rw [if_neg h0, mem_putChars_reads hs]
      simp only [Bool.true_eq_false, h0, false_or]
      constructor
      · intro h
        by_contra hno
        rw [not_or, not_exists] at hno
        obtain ⟨r, hr, hmem⟩ := hreads (len + 1)
        have hint : toInt32 len < 0 ∨ (len : Int) ≤ toInt32 len := by
          simp only [toInt32]
          split <;> omega
        obtain ⟨i, hi, heq⟩ := h _ r hr (add64 s len)
          ((hmem _).2 ⟨len, by omega, rfl, fun j hj h => hno.1 j ⟨hj, h⟩, hint⟩)
        have := add64_left_inj hlen (by omega) heq
        omega
      · intro h turns r hr a ha
        obtain ⟨r', hr', hmem⟩ := hreads turns
        cases hr'.symm.trans hr
        obtain ⟨i, -, rfl, hnul, hint⟩ := (hmem a).1 ha
        refine ⟨i, ?_, rfl⟩
        rcases h with ⟨j, hj, hj0⟩ | ⟨hlow, hhigh⟩
        · by_contra hle
          exact hnul j (by omega) hj0
        · simp only [toInt32, if_pos hlow] at hint
          omega

/-- Text without a `NUL`, in an area that may be read. -/
def textVm : VmSpace := .single ⟨"user", 0x400000, 0x401000, none, 0, PROT_READ⟩

/-- Of `Hi!!..` the first two characters are printed, and three are read. -/
theorem cputs_reads_behind : ∃ mem : Nat → UInt8, ∃ r, cputs textVm mem 8 0x400000 2 = some r ∧ r.out = [72, 105] ∧
    r.reads = [0x400000, 0x400001, 0x400002] ∧ ¬∃ i < 2, 0x400002 = add64 0x400000 i :=
  ⟨fun a => if a = 0x400000 then 72 else if a = 0x400001 then 105 else 33, _, rfl, by decide, by decide, by decide⟩

/-- A `NUL` as the last byte of the range. -/
theorem cputs_reads_nul : ∃ mem : Nat → UInt8, IntState.checkUserVmaRange textVm 0x400000 3 PROT_READ = true ∧
    ∀ turns, ∀ r ∈ cputs textVm mem turns 0x400000 3, ∀ a ∈ r.reads, ∃ i < 3, a = add64 0x400000 i :=
  ⟨fun a => if a = 0x400002 then 0 else 33, by decide,
    (cputs_reads_in_range_iff (by decide) (by decide)).2 (.inr (.inr (.inl ⟨2, by decide, by decide⟩)))⟩

/-! ### The same call on the pages of a task -/

/-- On pages that are present, the loop that may fault prints what the loop over plain memory prints. -/
theorem printLoop_present {fault : IntState → Nat → Except Leave IntState} {s : IntState} {mem : Nat → UInt8} {turns n va : Nat}
    (hn : n < turns) (hva : va + n < 2 ^ 64) (hload : ∀ i ≤ n, s.kernelLoad (va + i) = some (mem (va + i))) :
    s.printLoop fault turns n va = ((putChars mem false turns va n).out, .ok s) := by
  induction turns generalizing n va with
  | zero => omega
  | succ turns ih =>
    have hfirst : s.kernelLoad va = some (mem va) := hload 0 (by omega)
    simp only [IntState.printLoop, putChars, hfirst]
    by_cases h0 : mem va = 0
    · simp [h0]
    · cases n with
      | zero => simp [h0]
      | succ n =>
        have hnext : add64 va 1 = va + 1 := Nat.mod_eq_of_lt (by omega)
        have hrec : s.printLoop fault turns n (va + 1) = ((putChars mem false turns (va + 1) n).out, .ok s) := by
          refine ih (by omega) (by omega) fun i hi => ?_
          rw [Nat.add_right_comm]
          exact hload (i + 1) (by omega)
        have hpos : ¬((n : Int) + 1 < 0) := by omega
        simp [h0, hnext, hrec, hpos, shownAs]

/-- A precision that the turns do not use up is none. -/
theorem putChars_unlimited {mem : Nat → UInt8} {altflag : Bool} {turns p n : Nat} (hn : turns ≤ n) :
    putChars mem altflag turns p n = putChars mem altflag turns p (-1) := by
  induction turns generalizing p n with
  | zero => rfl
  | succ turns ih =>
    obtain ⟨n, rfl⟩ : ∃ m, n = m + 1 := ⟨n - 1, by omega⟩
    have hpos : ¬((n : Int) + 1 < 0) := by omega
    simp [putChars, hpos, ih (n := n) (by omega)]

/-- `%.*s` prints of `NULL` the string for it, as far as the precision goes. -/
theorem putChars_null (n : Nat) : (putChars nullMemory false 7 1 n).out = IntState.nullString.take n := by
  match n with
  | 0 | 1 | 2 | 3 | 4 | 5 | 6 => rfl
  | n + 7 =>
    rw [putChars_unlimited (by omega), List.take_of_length_le (by simp [IntState.nullString])]
    rfl

/-- `sys_cputs` of a task whose pages are present, for a length that is not negative as an `int`: the state does not change, and
what is printed is what is printed from plain memory. -/
theorem sysCputs_present {k : KernelServices} {fault : IntState → Nat → Except Leave IntState} {s : IntState} {t : TaskSpace}
    {mem : Nat → UInt8} {turns va len : Nat} (ht : s.sched.curTask.bind s.machine.tasks = some t) (hlen : len % 2 ^ 32 < 2 ^ 31)
    (hturns : len % 2 ^ 32 < turns) (hva : va + len % 2 ^ 32 < 2 ^ 64)
    (hload : ∀ i ≤ len % 2 ^ 32, s.kernelLoad (va + i) = some (mem (va + i))) :
    s.sysCputs k fault turns va len =
      match cputs t.vm mem turns va len with
      | none => ([], .error (k.taskDestroy s))
      | some r => (r.out, .ok s) := by
  have hint : toInt32 len = (len % 2 ^ 32 : Nat) := if_pos hlen
  have hprec : IntState.precision len = len % 2 ^ 32 := if_pos hlen
  simp only [IntState.sysCputs, ht, hprec]
  cases hcheck : IntState.checkUserVmaRange t.vm va len PROT_READ with
  | false => simp [cputs, hcheck]
  | true =>
    rw [cputs_eq mem turns va len hcheck, hint]
    by_cases h0 : va = 0
    · simp only [h0, if_true, putChars_null, Bool.true_eq_false, if_false]
    · simp only [h0, if_false, printLoop_present hturns hva hload, Bool.true_eq_false]

/-! ## Checking a range -/

open VmSpace

/-- The byte is in an area that allows the access. -/
def VmSpace.Grants (s : VmSpace) (flags a : Nat) : Prop :=
  ∃ p ∈ s.taskMmap, (s.vma p).vmBase ≤ a ∧ a < (s.vma p).vmEnd ∧ (s.vma p).vmFlags &&& flags = flags

/-- The walk over the areas `l` at the end of the list, each of which ends above `last`, comes to `bound` if and only if the
areas grant all that is between. -/
theorem checkUserAreas_spec {s : VmSpace} {flags bound n last : Nat} {a l : List Nat} (h : Agrees s) (hl : s.taskMmap = a ++ l)
    (hlast : ∀ p ∈ l, last < (s.vma p).vmEnd) (hgo : last < bound ∨ ∀ p ∈ l, bound ≤ (s.vma p).vmBase) (hn : l.length < n) :
    (∃ e, IntState.checkUserAreas s flags bound n l.head? last = some e ∧ bound ≤ e) ↔
      ∀ va, last ≤ va → va < bound →
        ∃ p ∈ l, (s.vma p).vmBase ≤ va ∧ va < (s.vma p).vmEnd ∧ (s.vma p).vmFlags &&& flags = flags := by
  induction l generalizing a n last with
  | nil =>
    obtain ⟨n, rfl⟩ : ∃ m, n = m + 1 := ⟨n - 1, by omega⟩
    simp only [List.head?_nil, IntState.checkUserAreas, Option.some.injEq, exists_eq_left', List.not_mem_nil, false_and,
      exists_false, imp_false, not_lt]
    exact ⟨fun hle va hva => by omega, fun hva => hva last le_rfl⟩
  | cons p l ih =>
    obtain ⟨n, rfl⟩ : ∃ m, n = m + 1 := ⟨n - 1, by omega⟩
    rw [List.length_cons] at hn
    obtain ⟨_, hsort, hproper, hnext⟩ := h.around hl
    -- no other area than the first one has the byte at `last`
    have honly : ∀ q ∈ p :: l, (s.vma q).vmBase ≤ last → q = p := by
      intro q hq hle
      rcases List.mem_cons.1 hq with rfl | hq
      · rfl
      · have := hsort q hq
        have := hlast p (by simp)
        omega
    have hfirst := hlast p (by simp)
    simp only [List.head?_cons, IntState.checkUserAreas, hnext]
    by_cases hb : (s.vma p).vmBase < bound
    · have hlt : last < bound := hgo.resolve_right fun hge => by
        have := hge p (by simp)
        omega
      rw [if_pos hb]
      by_cases hgap : (s.vma p).vmBase > last
      · rw [if_pos hgap]
        refine ⟨fun ⟨e, he, _⟩ => (nomatch he), fun hall => ?_⟩
        obtain ⟨q, hq, hle, -⟩ := hall last le_rfl hlt
        rw [honly q hq hle] at hle
        omega
      · rw [if_neg hgap]
        by_cases hf : (s.vma p).vmFlags &&& flags = flags
        · rw [if_neg (not_not.2 hf)]
          have hends : ∀ q ∈ l, (s.vma p).vmEnd < (s.vma q).vmEnd := fun q hq =>
            lt_of_le_of_lt (hsort q hq) (hproper q (by simp [hq]))
          rw [ih (a := a ++ [p]) (by simp [hl]) hends
            ((lt_or_ge _ _).imp id fun hge q hq => le_trans hge (hsort q hq)) (by omega)]
          constructor
          · intro hall va hva hvb
            by_cases hin : va < (s.vma p).vmEnd
            · exact ⟨p, by simp, by omega, hin, hf⟩
            · obtain ⟨q, hq, hqa⟩ := hall va (by omega) hvb
              exact ⟨q, by simp [hq], hqa⟩
          · intro hall va hva hvb
            obtain ⟨q, hq, hqb, hqe, hqf⟩ := hall va (by omega) hvb
            rcases List.mem_cons.1 hq with rfl | hq
            · omega
            · exact ⟨q, hq, hqb, hqe, hqf⟩
        · rw [if_pos hf]
          refine ⟨fun ⟨e, he, _⟩ => (nomatch he), fun hall => ?_⟩
          obtain ⟨q, hq, hle, -, hqf⟩ := hall last le_rfl hlt
          rw [honly q hq hle] at hqf
          exact absurd hqf hf
    · rw [if_neg hb]
      constructor
      · rintro ⟨e, he, hle⟩ va hva hvb
        cases he
        omega
      · intro hall
        refine ⟨last, rfl, ?_⟩
        by_contra hlt
        obtain ⟨q, hq, hle, -⟩ := hall last le_rfl (by omega)
        rw [honly q hq hle] at hle
        omega

/-- `check_user_vma_range` returns 0 if and only if the bytes from the base to the sum, which may have wrapped, are granted, and
for a sum below the base if the area of the base does, and starts below the sum. -/
theorem checkUserVmaRange_eq {s : VmSpace} {base size flags : Nat} (h : Agrees s) :
    IntState.checkUserVmaRange s base size flags = true ↔
      (base < add64 base size ∧ ∀ va, base ≤ va → va < add64 base size → s.Grants flags va) ∨
      (add64 base size ≤ base ∧ ∃ p ∈ s.taskMmap, (s.vma p).vmBase < add64 base size ∧ base < (s.vma p).vmEnd ∧
        (s.vma p).vmFlags &&& flags = flags) := by
  rw [IntState.checkUserVmaRange]
  cases hf : s.findVma base with
  | none =>
    rw [findVma_eq h] at hf
    have hnone : ∀ p ∈ s.taskMmap, ¬base < (s.vma p).vmEnd := by simpa using List.find?_eq_none.1 hf
    simp only [Bool.false_eq_true, false_iff, not_or]
    constructor
    · rintro ⟨hlt, hall⟩
      obtain ⟨p, hp, -, hpe, -⟩ := hall base le_rfl hlt
      exact hnone p hp hpe
    · rintro ⟨-, p, hp, -, hpe, -⟩
      exact hnone p hp hpe
  | some p =>
    obtain ⟨a, b, hl, ha, hends⟩ := findVma_split h hf
    obtain ⟨_, hb, hproper, hnext⟩ := h.around hl
    have hpe := hends p (by simp)
    have hbe : ∀ q ∈ b, (s.vma p).vmEnd < (s.vma q).vmEnd := fun q hq => lt_of_le_of_lt (hb q hq) (hproper q (by simp [hq]))
    -- no other area than `p` starts at the base or below and ends above it
    have honly : ∀ q ∈ s.taskMmap, (s.vma q).vmBase ≤ base → base < (s.vma q).vmEnd → q = p := by
      intro q hq hqb hqe
      rw [hl, List.mem_append, List.mem_cons] at hq
      rcases hq with hq | rfl | hq
      · have := ha q hq
        omega
      · rfl
      · have := hb q hq
        omega
    have hlen : (p :: b).length < s.taskMmap.length + 1 := by
      rw [hl, List.length_append]
      omega
    simp only []
    by_cases hstart : add64 base size ≤ (s.vma p).vmBase
    · rw [if_pos hstart]
      simp only [Bool.false_eq_true, false_iff, not_or]
      constructor
      · rintro ⟨hlt, hall⟩
        obtain ⟨q, hq, hqb, hqe, -⟩ := hall base le_rfl hlt
        rw [honly q hq hqb hqe] at hqb
        omega
      · rintro ⟨hle, q, hq, hqb, hqe, -⟩
        rw [honly q hq (by omega) hqe] at hqb
        omega
    · rw [if_neg hstart]
      refine Iff.trans (b := ∃ e, IntState.checkUserAreas s flags (add64 base size) (s.taskMmap.length + 1) (some p) base = some e ∧
        add64 base size ≤ e) ?_ ?_
      · cases IntState.checkUserAreas s flags (add64 base size) (s.taskMmap.length + 1) (some p) base <;> simp
      by_cases hlt : base < add64 base size
      · rw [← List.head?_cons (a := p) (l := b), checkUserAreas_spec h hl hends (.inl hlt) hlen]
        simp only [hlt, true_and, not_le.2 hlt, false_and, or_false]
        refine forall₃_congr fun va hva _ => ⟨?_, ?_⟩
        · rintro ⟨q, hq, hqa⟩
          exact ⟨q, by simp [hl, List.mem_cons.1 hq], hqa⟩
        · rintro ⟨q, hq, hqb, hqe, hqf⟩
          rw [hl, List.mem_append] at hq
          refine ⟨q, hq.resolve_left fun hqa => ?_, hqb, hqe, hqf⟩
          have := ha q hqa
          omega
      · have hrest : ∃ e, IntState.checkUserAreas s flags (add64 base size) s.taskMmap.length b.head? (s.vma p).vmEnd = some e ∧
            add64 base size ≤ e :=
          (checkUserAreas_spec (a := a ++ [p]) h (by simp [hl]) hbe (.inr fun q hq => by have := hb q hq; omega)
            (by rw [hl, List.length_append, List.length_cons]; omega)).2 fun va hva hvb => by omega
        simp only [hlt, false_and, false_or, not_lt.1 hlt, true_and, IntState.checkUserAreas]
        rw [if_pos (by omega), if_neg (by omega), hnext]
        constructor
        · rintro ⟨e, he, hle⟩
          by_cases hflags : (s.vma p).vmFlags &&& flags = flags
          · exact ⟨p, by simp [hl], by omega, hpe, hflags⟩
          · rw [if_pos hflags] at he
            cases he
        · rintro ⟨q, hq, hqb, hqe, hqf⟩
          rw [honly q hq (by omega) hqe] at hqf
          rw [if_neg (not_not.2 hqf)]
          exact hrest

/-- `check_user_vma_range` is exact if and only if the sum of base and size does not come out, beyond `2 ^ 64`, above the start of
an area that the base is in and that allows the access. -/
theorem checkUserVmaRange_exact_iff {s : VmSpace} {base size flags : Nat} (h : Agrees s)
    (hend : ∀ p ∈ s.taskMmap, (s.vma p).vmEnd < 2 ^ 64) (hbase : base < 2 ^ 64) (hpos : 1 ≤ size) (hsize : size < 2 ^ 64) :
    (IntState.checkUserVmaRange s base size flags = true ↔ ∀ i < size, s.Grants flags (base + i)) ↔
      ¬(2 ^ 64 < base + size ∧ ∃ p ∈ s.taskMmap, (s.vma p).vmBase < base + size - 2 ^ 64 ∧ base < (s.vma p).vmEnd ∧
        (s.vma p).vmFlags &&& flags = flags) := by
  rw [checkUserVmaRange_eq h]
  by_cases hwrap : base + size < 2 ^ 64
  · have hsum : add64 base size = base + size := Nat.mod_eq_of_lt hwrap
    rw [hsum]
    simp only [show ¬2 ^ 64 < base + size by omega, false_and, not_false_eq_true, iff_true, show base < base + size by omega,
      true_and, show ¬base + size ≤ base by omega, or_false]
    refine ⟨fun hall i hi => hall _ (by omega) (by omega), fun hall va hva hvb => ?_⟩
    have := hall (va - base) (by omega)
    rwa [Nat.add_sub_cancel' hva] at this
  · have hsum : add64 base size = base + size - 2 ^ 64 := by
      simp only [add64]
      omega
    -- the byte at the end of the addresses, or the first one beyond, is in no area
    have hnot : ¬∀ i < size, s.Grants flags (base + i) := by
      intro hall
      obtain ⟨p, hp, -, hpe, -⟩ := hall (size - 1) (by omega)
      have := hend p hp
      omega
    rw [hsum]
    simp only [hnot, iff_false, show ¬base < base + size - 2 ^ 64 by omega, false_and, false_or,
      show base + size - 2 ^ 64 ≤ base by omega, true_and]
    refine not_congr ⟨?_, And.right⟩
    rintro ⟨p, hp, hpb, hpe⟩
    exact ⟨by omega, p, hp, hpb, hpe⟩

/-- Of a range of almost all addresses the check is that its first page may be read. -/
theorem checkUserVmaRange_wraps : Agrees textVm ∧ (∀ p ∈ textVm.taskMmap, (textVm.vma p).vmEnd < 2 ^ 64) ∧
    IntState.checkUserVmaRange textVm 0x400800 (2 ^ 64 - 0x400) PROT_READ = true ∧
    ¬textVm.Grants PROT_READ (0x400800 + 0x800) :=
  ⟨single_agrees (by decide), by simp [textVm, single], by decide, by simp [VmSpace.Grants, textVm, single]⟩

/-- The first half of a page, and one byte more than the page. -/
theorem checkUserVmaRange_exact_text :
    (IntState.checkUserVmaRange textVm 0x400000 0x800 PROT_READ = true ↔
      ∀ i < 0x800, textVm.Grants PROT_READ (0x400000 + i)) ∧
    (IntState.checkUserVmaRange textVm 0x400000 0x1001 PROT_READ = true ↔
      ∀ i < 0x1001, textVm.Grants PROT_READ (0x400000 + i)) := by
  have h : Agrees textVm := single_agrees (by decide)
  have hend : ∀ p ∈ textVm.taskMmap, (textVm.vma p).vmEnd < 2 ^ 64 := by simp [textVm, single]
  exact ⟨(checkUserVmaRange_exact_iff h hend (by decide) (by decide) (by decide)).2 (by simp),
    (checkUserVmaRange_exact_iff h hend (by decide) (by decide) (by decide)).2 (by simp)⟩

end OpenLsd
