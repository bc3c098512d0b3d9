import Mathlib

/-!
# Aligned blocks of a power of two

A block of order `k` is an interval of `2 ^ k` numbers that starts at a multiple of `2 ^ k`. Two blocks are nested or
disjoint, and the block of order `k + 1` that holds a block of order `k` is that block and its buddy, the one whose start
differs in bit `k`.
-/

namespace DyadicBlock

/-- The start of the other half of the block of order `k + 1` that holds the block of order `k` at `p`. -/
def buddy (p k : Nat) : Nat := p ^^^ 2 ^ k

/-- The two halves of a block of order `k + 1`: the buddy stands right above when the start is a multiple of `2 ^ (k + 1)`,
right below otherwise, and then the start of the buddy is that multiple. -/
theorem buddy_cases {p k : Nat} (h : 2 ^ k ∣ p) :
    (2 ^ (k + 1) ∣ p ∧ buddy p k = p + 2 ^ k) ∨
      (2 ^ k ≤ p ∧ 2 ^ (k + 1) ∣ p - 2 ^ k ∧ buddy p k = p - 2 ^ k) := by
  obtain ⟨a, rfl⟩ := h
  have hx : buddy (2 ^ k * a) k = 2 ^ k * (a ^^^ 1) := by
    have := Nat.shiftLeft_xor_distrib (i := k) (a := a) (b := 1)
    simp only [Nat.shiftLeft_eq, Nat.one_mul] at this
    rw [buddy, Nat.mul_comm, ← this, Nat.mul_comm]
  rcases Nat.even_or_odd a with ha | ha
  · left
    rw [hx, Nat.xor_one_of_even ha]
    obtain ⟨b, rfl⟩ := ha
    exact ⟨⟨b, by ring⟩, by ring⟩
  · right
    rw [hx, Nat.xor_one_of_odd ha]
    obtain ⟨b, rfl⟩ := ha
    have e : 2 ^ k * (2 * b + 1) = 2 ^ k * (2 * b) + 2 ^ k := by ring
    refine ⟨by omega, ⟨b, ?_⟩, ?_⟩
    · rw [e, Nat.add_sub_cancel]
      ring
    · rw [e, Nat.add_sub_cancel, Nat.add_sub_cancel]

/-- The buddy of a block that starts a block of the next order is the upper half of that one. -/
theorem buddy_of_dvd_succ {p k : Nat} (h : 2 ^ (k + 1) ∣ p) : buddy p k = p + 2 ^ k := by
  rcases buddy_cases ((Nat.pow_dvd_pow 2 (Nat.le_succ k)).trans h) with ⟨_, e⟩ | ⟨hle, hd, _⟩
  · exact e
  · have hpos := Nat.two_pow_pos k
    obtain ⟨a, ha⟩ := h
    obtain ⟨b, hb⟩ := hd
    have ha' : p = 2 ^ k * (2 * a) := by rw [ha]; ring
    have hb' : p = 2 ^ k * (2 * b + 1) := by
      rw [Nat.mul_add, Nat.mul_one, ← Nat.mul_assoc, ← Nat.pow_succ, ← hb]
      omega
    have := Nat.eq_of_mul_eq_mul_left hpos (ha'.symm.trans hb')
    omega

theorem buddy_ne {p k : Nat} (h : 2 ^ k ∣ p) : buddy p k ≠ p := by
  rcases buddy_cases h with ⟨_, e⟩ | ⟨_, _, e⟩ <;> omega

/-- A bound that is a multiple of `2 ^ j` leaves room for a whole block of every smaller order. -/
theorem add_le_of_lt {p k j n : Nat} (hk : k ≤ j) (hp : 2 ^ k ∣ p) (hn : 2 ^ j ∣ n) (h : p < n) : p + 2 ^ k ≤ n := by
  obtain ⟨a, rfl⟩ := hp
  obtain ⟨b, rfl⟩ := (Nat.pow_dvd_pow 2 hk).trans hn
  have hab : a < b := Nat.lt_of_mul_lt_mul_left h
  calc 2 ^ k * a + 2 ^ k = 2 ^ k * (a + 1) := by ring
    _ ≤ 2 ^ k * b := Nat.mul_le_mul_left _ hab

/-- A block that holds one number of another block of at most its order holds all of it. -/
theorem nested {p k q j : Nat} (hk : k ≤ j) (hp : 2 ^ k ∣ p) (hq : 2 ^ j ∣ q) {i : Nat}
    (hip : p ≤ i ∧ i < p + 2 ^ k) (hiq : q ≤ i ∧ i < q + 2 ^ j) : q ≤ p ∧ p + 2 ^ k ≤ q + 2 ^ j := by
  have hqk : 2 ^ k ∣ q := (Nat.pow_dvd_pow 2 hk).trans hq
  have hqj : 2 ^ k ∣ q + 2 ^ j := Nat.dvd_add hqk (Nat.pow_dvd_pow 2 hk)
  have h1 : p + 2 ^ k ≤ q + 2 ^ j := add_le_of_lt le_rfl hp hqj (by omega)
  refine ⟨?_, h1⟩
  by_contra hlt
  have := add_le_of_lt le_rfl hp hqk (by omega)
  omega

end DyadicBlock
