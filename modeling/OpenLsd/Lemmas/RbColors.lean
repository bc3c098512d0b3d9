import OpenLsd.Lemmas.RbShape

/-!
# The colors of a red-black tree

The red-black properties, and when a tree has them that is made of a subtree and of what is around its place.
-/

namespace OpenLsd

namespace RbTree

open PtrTree Shape

variable {c : Place} {t u : Colored} {p n m : Nat} {k : RbColor} {d : Bool}

/-- The number of black nodes on the paths down to `NULL`, if it is the same on all of them. -/
def height : Colored → Option Nat
  | .leaf => some 0
  | .node l (_, k) r =>
    match height l, height r with
    | some a, some b => if a = b then some (a + if k = .black then 1 else 0) else none
    | _, _ => none

/-- The red-black properties. -/
def NoRedRed : Colored → Prop
  | .leaf => True
  | .node l (_, k) r => (k = .red → red l = false ∧ red r = false) ∧ NoRedRed l ∧ NoRedRed r

structure RedBlack (t : Colored) : Prop where
  root : red t = false
  noRedRed : NoRedRed t
  height : height t ≠ none

theorem height_fork {a : Nat} : height (fork d t (p, k) u) = some a ↔
    ∃ m, height t = some m ∧ height u = some m ∧ a = m + if k = .black then 1 else 0 := by
  cases d <;> simp only [fork, height] <;> cases height t <;> cases height u <;> grind

theorem height_fork_none : height (fork d t (p, k) u) = none ↔ ∀ m, height t = some m → height u ≠ some m := by
  cases d <;> simp only [fork, height] <;> cases height t <;> cases height u <;> grind

theorem noRedRed_fork : NoRedRed (fork d t (p, k) u) ↔
    (k = .red → red t = false ∧ red u = false) ∧ NoRedRed t ∧ NoRedRed u := by
  cases d with
  | false => rfl
  | true =>
    simp only [fork, NoRedRed]
    tauto

theorem red_ne_leaf (h : red t = true) : t ≠ .leaf := by
  rintro rfl
  cases h

/-- Making a red node black makes a difference. -/
theorem height_blacken_red (hr : red t = true) (h : height t = some m) : height (blacken t) = some (m + 1) := by
  obtain ⟨a, p, k, b, rfl⟩ := exists_fork_of_ne (red_ne_leaf hr) false
  rw [red_fork, decide_eq_true_eq] at hr
  rw [blacken_fork]
  obtain ⟨m', ha, hb, rfl⟩ := height_fork.1 h
  exact height_fork.2 ⟨m', ha, hb, by simp [hr]⟩

/-- The tree has the red-black properties but for its root, and there are `n` black nodes on every path. -/
def Balanced (t : Colored) (n : Nat) : Prop := NoRedRed t ∧ height t = some n

theorem redBlack_iff : RedBlack t ↔ red t = false ∧ ∃ n, Balanced t n := by
  constructor
  · intro h
    obtain ⟨n, hn⟩ := Option.ne_none_iff_exists'.1 h.height
    exact ⟨h.root, n, h.noRedRed, hn⟩
  · rintro ⟨hr, n, hnr, hn⟩
    exact ⟨hr, hnr, hn ▸ Option.some_ne_none n⟩

theorem balanced_red : Balanced (fork d t (p, .red) u) n ↔ (red t = false ∧ red u = false) ∧ Balanced t n ∧ Balanced u n := by
  simp only [Balanced, noRedRed_fork, height_fork]
  grind

theorem balanced_black : Balanced (fork d t (p, .black) u) n ↔ ∃ m, n = m + 1 ∧ Balanced t m ∧ Balanced u m := by
  simp only [Balanced, noRedRed_fork, height_fork]
  grind

/-- A red node that becomes black adds one to every path. -/
theorem Balanced.blacken (h : Balanced t n) : Balanced (blacken t) (if red t then n + 1 else n) := by
  obtain - | ⟨l, ⟨p, k⟩, r⟩ := t
  · exact h
  cases k with
  | black => exact h
  | red => exact (balanced_black (d := false)).2 ⟨n, rfl, ((balanced_red (d := false)).1 h).2⟩

/-- What is around the place makes a balanced tree with a black tree of the height `n` in it. -/
def Fits : Place → Nat → Prop
  | [], _ => True
  | ⟨_, (_, .red), other⟩ :: c, n => (red other = false ∧ ∀ x ∈ top c, x.2 = .black) ∧ Balanced other n ∧ Fits c n
  | ⟨_, (_, .black), other⟩ :: c, n => Balanced other n ∧ Fits c (n + 1)

/-- Balance of a tree by its parts. -/
theorem exists_balanced_plug :
    (∃ m, Balanced (plug c t) m) ↔ ∃ n, Fits c n ∧ Balanced t n ∧ (red t = true → ∀ x ∈ top c, x.2 = .black) := by
  induction c generalizing t with
  | nil =>
    refine exists_congr fun n => ⟨fun h => ⟨trivial, h, fun _ _ hx => ?_⟩, fun h => h.2.1⟩
    cases hx
  | cons f c ih =>
    obtain ⟨d, ⟨p, k⟩, other⟩ := f
    rw [plug, ih]
    have htop : ∀ x : Nat × RbColor, x ∈ top (⟨d, (p, k), other⟩ :: c) ↔ x = (p, k) := fun x => by simp [top, eq_comm]
    simp only [htop, forall_eq, red_fork, decide_eq_true_eq]
    cases k with
    | red =>
      simp only [balanced_red, Fits, reduceCtorEq, imp_false, Bool.not_eq_true, true_implies]
      refine exists_congr fun n => ⟨?_, ?_⟩
      · rintro ⟨h1, h2, h3⟩
        exact ⟨⟨⟨h2.1.2, h3⟩, h2.2.2, h1⟩, h2.2.1, h2.1.1⟩
      · rintro ⟨h1, h2, h3⟩
        exact ⟨h1.2.2, ⟨⟨h3, h1.1.1⟩, h2, h1.2.1⟩, h1.1.2⟩
    | black =>
      simp only [balanced_black, Fits]
      constructor
      · rintro ⟨_, h1, ⟨n, rfl, h2, h3⟩, -⟩
        exact ⟨n, ⟨h3, h1⟩, h2, fun _ => trivial⟩
      · rintro ⟨n, h1, h2, -⟩
        exact ⟨n + 1, h1.2, ⟨n, rfl, h2, h1.1⟩, fun h => by cases h⟩

end RbTree

end OpenLsd
