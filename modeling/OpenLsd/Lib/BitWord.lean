import Mathlib

/-!
# Words as sets of bits

A word with one bit set stands for an element, and the bitwise OR of such words for a set of them. The elements are ordered as
their words are, and the last one that was added can be taken out again with XOR as long as it is the greatest.
-/

namespace BitWord

variable {w : Nat} {x y : BitVec w} {l : List (BitVec w)}

/-- One bit of the word is set. -/
def IsBit (x : BitVec w) : Prop := ∃ i, x.toNat = 2 ^ i

/-- The OR of the words. -/
def orAll (l : List (BitVec w)) : BitVec w := l.foldr (· ||| ·) 0

@[simp] theorem orAll_nil : orAll ([] : List (BitVec w)) = 0 := rfl

@[simp] theorem orAll_cons (x : BitVec w) (l : List (BitVec w)) : orAll (x :: l) = x ||| orAll l := rfl

/-- The usual test for a power of two. -/
theorem isBit_of_and_sub_one (hx : x ≠ 0) (h : x &&& (x - 1) = 0) : IsBit x := by
  have hpos : x.toNat ≠ 0 := fun e => hx (BitVec.eq_of_toNat_eq (by simpa using e))
  have hlt := x.isLt
  have hone : (1 : BitVec w).toNat = 1 := Nat.mod_eq_of_lt (show 1 < 2 ^ w by omega)
  have hsub : (x - 1).toNat = x.toNat - 1 := by
    rw [BitVec.toNat_sub_of_le (BitVec.le_def.2 (by omega)), hone]
  have hand : x.toNat &&& (x.toNat - 1) = 0 := by
    rw [← hsub, ← BitVec.toNat_and, h]
    rfl
  exact (Nat.and_sub_one_eq_zero_iff_isPowerOfTwo hpos).1 hand

/-- Of two bits, the double of the smaller is at most the greater. -/
theorem IsBit.two_mul_le (hx : IsBit x) (hy : IsBit y) (h : x.toNat < y.toNat) : 2 * x.toNat ≤ y.toNat := by
  obtain ⟨i, hi⟩ := hx
  obtain ⟨j, hj⟩ := hy
  rw [hi, hj] at h ⊢
  have hij := (Nat.pow_lt_pow_iff_right (by decide)).1 h
  calc 2 * 2 ^ i = 2 ^ (i + 1) := by rw [Nat.pow_succ, Nat.mul_comm]
    _ ≤ 2 ^ j := Nat.pow_le_pow_right (by decide) hij

theorem le_orAll (h : x ∈ l) : x.toNat ≤ (orAll l).toNat := by
  induction l with
  | nil => cases h
  | cons y l ih =>
    rw [orAll_cons, BitVec.toNat_or]
    rcases List.mem_cons.1 h with rfl | h
    · exact Nat.left_le_or
    · exact (ih h).trans Nat.right_le_or

theorem orAll_lt {i : Nat} (h : ∀ y ∈ l, y.toNat < 2 ^ i) : (orAll l).toNat < 2 ^ i := by
  induction l with
  | nil =>
    have hzero : (orAll ([] : List (BitVec w))).toNat = 0 := by simp
    rw [hzero]
    exact Nat.two_pow_pos i
  | cons y l ih =>
    rw [orAll_cons, BitVec.toNat_or]
    exact Nat.or_lt_two_pow (h y List.mem_cons_self) (ih fun z hz => h z (List.mem_cons_of_mem y hz))

/-- A bit above all others is taken out of the word with XOR. -/
theorem orAll_cons_xor (hx : IsBit x) (h : ∀ y ∈ l, y.toNat < x.toNat) : orAll (x :: l) ^^^ x = orAll l := by
  obtain ⟨i, hi⟩ := hx
  have hlt : (orAll l).toNat < 2 ^ i := orAll_lt fun y hy => hi ▸ h y hy
  refine BitVec.eq_of_toNat_eq (Nat.eq_of_testBit_eq fun j => ?_)
  rw [orAll_cons, BitVec.toNat_xor, BitVec.toNat_or, hi, Nat.testBit_xor, Nat.testBit_or, Nat.testBit_two_pow]
  by_cases hj : i = j
  · subst hj
    simp [Nat.testBit_lt_two_pow hlt]
  · simp [hj]

end BitWord
