import Mathlib

/-!
# Steps downward in modular arithmetic

A counter of fixed width that is decreased by the same amount again and again passes below zero and comes back from above. It
reaches exactly the values that agree with its first one modulo the common divisor of the step and the modulus.
-/

namespace Stride

variable {M d b v : Nat}

/-- One step of `d` downward, modulo `M`. -/
def down (M d b : Nat) : Nat := (b + (M - d % M)) % M

theorem down_lt (hM : 0 < M) : down M d b < M := Nat.mod_lt _ hM

theorem iterate_lt (hM : 0 < M) (hb : b < M) (n : Nat) : (down M d)^[n] b < M := by
  cases n with
  | zero => exact hb
  | succ n =>
    rw [Function.iterate_succ_apply']
    exact down_lt hM

theorem down_cast (hM : 0 < M) : ((down M d b : Nat) : ZMod M) = b - d := by
  have hle : d % M ≤ M := le_of_lt (Nat.mod_lt _ hM)
  rw [down, ZMod.natCast_mod, Nat.cast_add, Nat.cast_sub hle, ZMod.natCast_self, ZMod.natCast_mod]
  ring

theorem iterate_cast (hM : 0 < M) (n : Nat) : (((down M d)^[n] b : Nat) : ZMod M) = b - n * d := by
  induction n with
  | zero => simp
  | succ n ih =>
    rw [Function.iterate_succ_apply', down_cast hM, ih]
    push_cast
    ring

/-- A step keeps the value modulo the common divisor. -/
theorem down_modEq : down M d b ≡ b [MOD Nat.gcd d M] := by
  have hM : Nat.gcd d M ∣ M := Nat.gcd_dvd_right d M
  have hstep : Nat.gcd d M ∣ M - d % M := Nat.dvd_sub hM ((Nat.dvd_mod_iff hM).2 (Nat.gcd_dvd_left d M))
  calc down M d b ≡ b + (M - d % M) [MOD Nat.gcd d M] := (Nat.mod_modEq _ M).of_dvd hM
    _ ≡ b + 0 [MOD Nat.gcd d M] := (Nat.modEq_zero_iff_dvd.2 hstep).add_left b

/-- Values that agree modulo the common divisor are a number of steps apart. -/
theorem exists_steps (hM : 0 < M) (h : b ≡ v [MOD Nat.gcd d M]) : ∃ n : Nat, (n * d : ZMod M) = b - v := by
  have : NeZero M := ⟨Nat.pos_iff_ne_zero.1 hM⟩
  obtain ⟨q, hq⟩ : ((Nat.gcd d M : Nat) : ℤ) ∣ v - b := Nat.modEq_iff_dvd.1 h
  have hbezout := Nat.gcd_eq_gcd_ab d M
  refine ⟨(((-(Nat.gcdA d M * q) : ℤ)) : ZMod M).val, ?_⟩
  have hcast : ((v : ℤ) - b : ZMod M) = ((Nat.gcd d M : Nat) : ℤ) * q := by exact_mod_cast congrArg (Int.cast (R := ZMod M)) hq
  rw [hbezout] at hcast
  rw [ZMod.natCast_val, ZMod.cast_id]
  push_cast at hcast ⊢
  rw [ZMod.natCast_self] at hcast
  linear_combination hcast

/-- What a counter reaches. -/
theorem reaches_iff (hM : 0 < M) (hb : b < M) (hv : v < M) : (∃ n, (down M d)^[n] b = v) ↔ b ≡ v [MOD Nat.gcd d M] := by
  constructor
  · rintro ⟨n, rfl⟩
    induction n with
    | zero => rfl
    | succ n ih =>
      rw [Function.iterate_succ_apply']
      exact (ih (iterate_lt hM hb n)).trans down_modEq.symm
  · intro h
    obtain ⟨n, hn⟩ := exists_steps hM h
    refine ⟨n, ?_⟩
    have hcast := iterate_cast (d := d) (b := b) hM n
    rw [hn, sub_sub_cancel, ZMod.natCast_eq_natCast_iff] at hcast
    exact Nat.ModEq.eq_of_lt_of_lt hcast (iterate_lt hM hb n) hv

end Stride
