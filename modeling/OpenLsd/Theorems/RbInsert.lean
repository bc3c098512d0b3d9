import OpenLsd.Lemmas.RbHolds

/-!
# Insertion into red-black trees

A new node goes below a node that has no child on its side, or becomes the root of an empty tree. `rb_balance` makes it red, which
may leave it below a red parent, and moves that one fault up the tree until it is gone.
-/

namespace OpenLsd

namespace RbTree

open PtrTree Shape

variable {s : RbTree} {c : Place} {t a b : Colored} {p q : Nat} {k : RbColor} {d : Bool}

/-- The nodes are a tree to which `q` has been attached, and `rb_balance` makes a red-black tree of it that has the same nodes in the
same order. The loop ends in as many turns as there are nodes. -/
def Restored (s : RbTree) (q : Nat) : Prop :=
  ∃ v, Draws s v ∧ ∀ fuel, (keys v).length < fuel → ∃ s' u, s.rbBalance fuel q = some s' ∧ Draws s' u ∧ RedBlack u ∧ keys u = keys v

/-- A node without children in a place that fits. -/
theorem restored_of_fits (h : Draws s (plug c (fork false .leaf (q, k) .leaf))) (hc : RootBlack c) (hf : Fits c 0) : Restored s q := by
  refine ⟨_, h, fun fuel hfuel => ?_⟩
  obtain ⟨s', u, he, hu, hr, hk, hbal⟩ := rbBalance_draws h hc hfuel
  have hleaf : Balanced .leaf 0 := ⟨trivial, rfl⟩
  exact ⟨s', u, he, hu, redBlack_iff.2 ⟨hr, hbal 0 (balanced_red.2 ⟨⟨rfl, rfl⟩, hleaf, hleaf⟩) hf⟩, hk⟩

/-- Whichever empty place of a red-black tree a node is attached in, the tree is one again after `rb_balance`. -/
theorem rbBalance_redBlack (h : Draws s t) (hrb : RedBlack t) (hq : q ∉ keys t) (hnull : ∀ e, (s.node q).child e = none) :
    (∀ p d, p ∈ keys t → (s.node p).child d = none → Restored (s.attach p q d) q) ∧
    (t = .leaf → (s.node q).parent = none → Restored { s with root := some q } q) := by
  constructor
  · intro p d hp hnone
    obtain ⟨⟨p, k⟩, hx, rfl⟩ := List.mem_map.1 hp
    obtain ⟨c, l, r, rfl⟩ := exists_plug hx
    obtain ⟨a, b, hab⟩ := exists_fork d l (p, k) r
    rw [hab] at h hrb hq
    obtain rfl : a = .leaf := key_eq_none.1 (h.read.2.1.symm.trans hnone)
    obtain ⟨n, hf, ⟨-, hn⟩, -⟩ := exists_balanced_plug (c := ⟨d, (p, k), b⟩ :: c) (t := .leaf).1 (redBlack_iff.1 hrb).2
    cases hn
    exact restored_of_fits (h.attach hq hnull) (rootBlack_of_red (t := .leaf) hrb.root) hf
  · rintro rfl hpar
    refine restored_of_fits (c := []) (k := (s.node q).color) ⟨?_, by simp [plug, fork, Shape.map, Shape.toList], ?_⟩ trivial trivial
    · exact ⟨rfl, hpar, hnull false, hnull true⟩
    · simp [plug, fork, Shape.toList]

/-- Eight nodes, by their places from left to right. -/
def eightNodes : RbTree where
  node := fun p => match p with
    | 0 => ⟨some 1, fun _ => none, .black⟩
    | 1 => ⟨some 5, fun d => if d then some 3 else some 0, .red⟩
    | 2 => ⟨some 3, fun _ => none, .red⟩
    | 3 => ⟨some 1, fun d => if d then some 4 else some 2, .black⟩
    | 4 => ⟨some 3, fun _ => none, .red⟩
    | 5 => ⟨none, fun d => if d then some 6 else some 1, .black⟩
    | 6 => ⟨some 5, fun d => if d then some 7 else none, .black⟩
    | 7 => ⟨some 6, fun _ => none, .red⟩
    | _ => .zero
  root := some 5

/-- A node is attached below a red one whose sibling is red. They become black, and then the red grandparent is below a red node
with a black sibling: two rotations bring it to the root. -/
theorem rbBalance_redBlack_eightNodes : Restored (eightNodes.attach 2 8 false) 8 ∧
    ((eightNodes.attach 2 8 false).rbBalance 10 8).bind RbTree.root = some 3 := by
  have h : Draws eightNodes (.node (.node (.node .leaf (0, .black) .leaf) (1, .red)
      (.node (.node .leaf (2, .red) .leaf) (3, .black) (.node .leaf (4, .red) .leaf))) (5, .black)
      (.node .leaf (6, .black) (.node .leaf (7, .red) .leaf))) := by
    refine ⟨?_, by decide, by decide⟩
    simp [Shape.map, PtrTree.Repr, links, eightNodes]
  refine ⟨(rbBalance_redBlack h ⟨rfl, ?_, by decide⟩ (by decide) fun _ => rfl).1 2 false (by decide) rfl, by decide +kernel⟩
  simp [NoRedRed, red]

end RbTree

end OpenLsd
