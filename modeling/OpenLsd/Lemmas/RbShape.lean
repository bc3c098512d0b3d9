import OpenLsd.Lemmas.RbTree

/-!
# Red-black trees as shapes

`Draws s t` says that the pointers and colors of the nodes are the tree `t` of colored nodes. Each operation of `rbtree.c` that
changes the tree is said in terms of that tree: what stands in which place afterwards.
-/

namespace OpenLsd

namespace RbTree

open PtrTree Shape

/-- A tree of nodes with their colors. -/
abbrev Colored := Shape (Nat × RbColor)

/-- A place in a tree of nodes with their colors. -/
abbrev Place := List (Frame (Nat × RbColor))

/-- The pointer to a tree. -/
def key (t : Colored) : Option Nat := t.ptr.map Prod.fst

@[simp] theorem key_leaf : key .leaf = none := rfl

@[simp] theorem key_fork (d : Bool) (a : Colored) (x : Nat × RbColor) (b : Colored) : key (fork d a x b) = some x.1 := by
  simp [key]

theorem key_eq_none {t : Colored} : key t = none ↔ t = .leaf := by
  cases t <;> simp [key, Shape.ptr]

/-- The nodes from left to right. -/
abbrev keys (t : Colored) : List Nat := t.toList.map Prod.fst

theorem keys_fork (d : Bool) (a : Colored) (x : Nat × RbColor) (b : Colored) :
    keys (fork d a x b) = if d then keys b ++ x.1 :: keys a else keys a ++ x.1 :: keys b := by
  cases d <;> simp [keys, fork, Shape.toList]

/-- The nodes of a tree depend on those of the subtree in a place. -/
theorem keys_plug (c : Place) : ∃ l r, ∀ t, keys (plug c t) = l ++ keys t ++ r := by
  obtain ⟨l, r, h⟩ := toList_plug c
  exact ⟨l.map Prod.fst, r.map Prod.fst, fun t => by simp [keys, h]⟩

theorem keys_plug_congr (c : Place) {t u : Colored} (h : keys t = keys u) : keys (plug c t) = keys (plug c u) := by
  obtain ⟨l, r, hc⟩ := keys_plug c
  rw [hc, hc, h]

/-- The topmost node is red. -/
def red : Colored → Bool
  | .node _ (_, .red) _ => true
  | _ => false

@[simp] theorem red_leaf : red .leaf = false := rfl

@[simp] theorem red_fork (d : Bool) (a : Colored) (p : Nat) (k : RbColor) (b : Colored) :
    red (fork d a (p, k) b) = decide (k = .red) := by
  cases d <;> cases k <;> rfl

/-- The topmost node becomes black. -/
def blacken : Colored → Colored
  | .leaf => .leaf
  | .node l (p, _) r => .node l (p, .black) r

@[simp] theorem blacken_leaf : blacken .leaf = .leaf := rfl

@[simp] theorem blacken_fork (d : Bool) (a : Colored) (p : Nat) (k : RbColor) (b : Colored) :
    blacken (fork d a (p, k) b) = fork d a (p, .black) b := by
  cases d <;> rfl

@[simp] theorem keys_blacken (t : Colored) : keys (blacken t) = keys t := by
  cases t <;> simp [keys, blacken, Shape.toList]

@[simp] theorem red_blacken (t : Colored) : red (blacken t) = false := by
  cases t <;> rfl

/-- The root of a tree with something in the place is black, unless it is in the place itself. -/
def RootBlack : Place → Prop
  | [] => True
  | [f] => f.node.2 = .black
  | _ :: f :: c => RootBlack (f :: c)

theorem RootBlack.tail {f : Frame (Nat × RbColor)} {c : Place} (h : RootBlack (f :: c)) : RootBlack c := by
  cases c with
  | nil => trivial
  | cons g c => exact h

/-- A black node above the place, and what was above the place before. -/
theorem RootBlack.cons {f : Frame (Nat × RbColor)} {c : Place} (h : RootBlack c) (hf : f.node.2 = .black) : RootBlack (f :: c) := by
  cases c with
  | nil => exact hf
  | cons g c => exact h

theorem red_plug_eq (f : Frame (Nat × RbColor)) (c : Place) (t : Colored) : red (plug (f :: c) t) = false ↔ RootBlack (f :: c) := by
  induction c generalizing f t with
  | nil =>
    rw [plug, plug, show f.node = (f.node.1, f.node.2) from rfl, red_fork, decide_eq_false_iff_not, RootBlack]
    cases f.node.2 <;> simp
  | cons g c ih => exact ih g _

/-- The root is black when what is in the place is. -/
theorem RootBlack.red_plug {c : Place} {t : Colored} (h : RootBlack c) (ht : red t = false) : red (plug c t) = false := by
  cases c with
  | nil => exact ht
  | cons f c => exact (red_plug_eq f c t).2 h

theorem rootBlack_of_red {c : Place} {t : Colored} (h : red (plug c t) = false) : RootBlack c := by
  cases c with
  | nil => trivial
  | cons f c => exact (red_plug_eq f c t).1 h

theorem exists_fork_of_ne {t : Colored} (h : t ≠ .leaf) (d : Bool) : ∃ a p k b, t = fork d a (p, k) b := by
  cases t with
  | leaf => exact absurd rfl h
  | node l x r =>
    obtain ⟨a, b, hab⟩ := exists_fork d l x r
    exact ⟨a, x.1, x.2, b, hab⟩

/-- The nodes of the tree are linked and colored as `t` has it. -/
structure Draws (s : RbTree) (t : Colored) : Prop where
  repr : Repr s.links none s.root (t.map Prod.fst)
  nodup : (t.map Prod.fst).toList.Nodup
  color : ∀ x ∈ t.toList, (s.node x.1).color = x.2

variable {s s' : RbTree} {l : List Nat} {c : Place} {t u a b e : Colored} {p q x n : Nat} {k k' : RbColor} {d : Bool}

theorem exists_draws (h : Rooted s.links l) : ∃ t, Draws s t ∧ keys t = l := by
  obtain ⟨hnd, u, hu, rfl⟩ := h
  have hmap : (u.map fun p => (p, (s.node p).color)).map Prod.fst = u := by
    clear hu hnd
    induction u with
    | leaf => rfl
    | node l p r ihl ihr => simp [Shape.map, ihl, ihr]
  refine ⟨u.map fun p => (p, (s.node p).color), ⟨hmap.symm ▸ hu, hmap.symm ▸ hnd, fun x hx => ?_⟩, ?_⟩
  · rw [toList_map, List.mem_map] at hx
    obtain ⟨p, -, rfl⟩ := hx
    rfl
  · rw [keys, ← toList_map, hmap]

namespace Draws

theorem rooted (h : Draws s t) : Rooted s.links (t.toList.map Prod.fst) :=
  ⟨by simpa using h.nodup, _, h.repr, by simp⟩

/-! ## Reading -/

/-- What the code finds at a node of the tree. -/
theorem read (h : Draws s (plug c (fork d a (p, k) b))) :
    (s.node p).parent = (top c).map Prod.fst ∧ (s.node p).child d = key a ∧ (s.node p).child (!d) = key b ∧
      (s.node p).color = k := by
  have hr := h.repr
  rw [map_plug, map_fork] at hr
  obtain ⟨-, hpar, ha, hb⟩ := repr_fork.1 (repr_plug.1 hr).2
  refine ⟨hpar.trans ?_, ha.ptr_eq.trans (by simp [key]), hb.ptr_eq.trans (by simp [key]), h.color (p, k) (by simp)⟩
  cases c <;> rfl

theorem root (h : Draws s t) : s.root = key t := h.repr.ptr_eq.trans (by simp [key])

theorem isRed (h : Draws s (plug c t)) : s.isRed (key t) = red t := by
  cases t with
  | leaf => rfl
  | node l x r =>
    have hx := h.color x (by simp [Shape.toList])
    cases hk : x.2 with
    | black => simp [key, Shape.ptr, RbTree.isRed, hx, hk, red]; grind
    | red => simp [key, Shape.ptr, RbTree.isRed, hx, hk, red]; grind

theorem unique (h : Draws s t) (h' : Draws s u) : t = u := by
  have hmap : ∀ {t : Colored}, Draws s t → t = (t.map Prod.fst).map fun p => (p, (s.node p).color) := by
    intro t h
    have hcol := h.color
    clear h
    induction t with
    | leaf => rfl
    | node l x r ihl ihr =>
      simp only [Shape.toList, List.mem_append, List.mem_cons] at hcol
      simp only [Shape.map]
      rw [← ihl fun y hy => hcol y (.inl hy), ← ihr fun y hy => hcol y (.inr (.inr hy)), hcol x (.inr (.inl rfl))]
  rw [hmap h, hmap h', h.repr.unique h'.repr]

theorem ne {y : Nat × RbColor} (h : Draws s (plug c (fork d a (p, k) b))) (hy : y ∈ a.toList ∨ y ∈ b.toList ∨ y ∈ nodes c) :
    y.1 ≠ p := by
  have hnd := h.nodup
  rw [map_plug, map_fork, nodup_plug, nodup_fork, nodes_map] at hnd
  simp only [toList_map, List.disjoint_left, mem_fork, List.mem_map] at hnd
  grind

/-! ## Changing -/

theorem setColor (h : Draws s (plug c (fork d a (p, k) b))) (k' : RbColor) :
    Draws (s.setColor p k') (plug c (fork d a (p, k') b)) := by
  have hmap : (plug c (fork d a (p, k') b)).map Prod.fst = (plug c (fork d a (p, k) b)).map Prod.fst := by
    simp only [map_plug, map_fork]
  refine ⟨by rw [hmap, setColor_links]; exact h.repr, hmap ▸ h.nodup, fun x hx => ?_⟩
  rw [mem_plug, mem_fork, or_assoc, or_assoc] at hx
  rw [setColor_color]
  rcases hx with rfl | hx
  · exact if_pos rfl
  · rw [if_neg (h.ne hx)]
    exact h.color x (by rw [mem_plug, mem_fork]; tauto)

theorem rotate {x y : Nat × RbColor} (h : Draws s (plug c (fork d a x (fork d b y e)))) :
    ∃ s', s.rotateNode x.1 d = some s' ∧ Draws s' (plug c (fork d (fork d a x b) y e)) := by
  have hchild := h.read.2.2.1
  rw [key_fork] at hchild
  obtain ⟨s', he, hrot, hcol⟩ := rotateNode_spec h.rooted (List.mem_map.2 ⟨x, by simp, rfl⟩) hchild
  have hrepr := h.repr
  have hnd := h.nodup
  rw [← toList_map] at hrot
  simp only [map_plug, map_fork] at hrepr hnd hrot
  refine ⟨s', he, ⟨?_, ?_, fun z hz => (hcol z.1).trans (h.color z ?_)⟩⟩
  · simp only [map_plug, map_fork]
    exact hrepr.rotate hnd hrot
  · simp only [map_plug, map_fork]
    rw [nodup_plug] at hnd ⊢
    simp only [nodup_fork, mem_fork, List.disjoint_left] at hnd ⊢
    grind
  · rw [mem_plug] at hz ⊢
    simp only [mem_fork] at hz ⊢
    tauto

/-- The node below which there is nothing on one side gives its place to what is below it on the other side. -/
theorem detach (h : Draws s (plug c (fork d .leaf (p, k) b))) :
    Draws (s.detach p (s.node p).parent ((s.node p).child (!d))) (plug c b) ∧
      ((s.detach p (s.node p).parent ((s.node p).child (!d))).node p).color = .black := by
  have hspl := detach_spliced (d := d) h.rooted (List.mem_map.2 ⟨(p, k), by simp, rfl⟩)
  have hrepr := h.repr
  have hnd := h.nodup
  rw [← toList_map] at hspl
  rw [map_plug, map_fork] at hrepr hnd hspl
  refine ⟨⟨?_, ?_, fun x hx => ?_⟩, by rw [detach_color, if_pos rfl]⟩
  · rw [map_plug]
    exact hrepr.splice hnd hspl
  · rw [map_plug]
    rw [nodup_plug] at hnd ⊢
    simp only [nodup_fork, mem_fork, List.disjoint_left] at hnd ⊢
    grind
  · rw [mem_plug] at hx
    rw [detach_color, if_neg (h.ne (.inr hx))]
    exact h.color x (by rw [mem_plug, mem_fork]; tauto)

/-- One node for another, in the drawing. -/
theorem takeOver (h : Draws s (plug c (fork false a (p, k) b))) (hx : x ∉ keys (plug c (fork false a (p, k) b)))
    (hc : (s.node x).color = k') : Draws (s.takeOver p x) (plug c (fork false a (x, k') b)) := by
  have hpm : (p, k) ∈ (plug c (fork false a (p, k) b)).toList := by simp
  have hrep := takeOver_replaced h.rooted (List.mem_map.2 ⟨_, hpm, rfl⟩) hx
  have hxp : x ≠ p := fun hxp => hx (List.mem_map.2 ⟨_, hpm, hxp.symm⟩)
  have hrepr := h.repr
  have hnd := h.nodup
  rw [keys, ← toList_map] at hx
  rw [← toList_map] at hrep
  rw [map_plug, map_fork] at hrepr hnd hrep hx
  refine ⟨?_, ?_, fun y hy => ?_⟩
  · rw [map_plug, map_fork]
    exact hrepr.replace hnd hrep
  · rw [map_plug, map_fork]
    rw [mem_plug, mem_fork] at hx
    rw [nodup_plug] at hnd ⊢
    simp only [nodup_fork, mem_fork, List.disjoint_left] at hnd ⊢
    grind
  · have hcol : ((s.takeOver p x).node y.1).color = if y.1 = p then .black else (s.node y.1).color := by
      simp [RbTree.takeOver, detach_color]
    rw [mem_plug, mem_fork, or_assoc, or_assoc] at hy
    rcases hy with rfl | hy
    · rw [hcol, if_neg hxp, hc]
    · rw [hcol, if_neg (h.ne hy)]
      exact h.color y (by rw [mem_plug, mem_fork]; tauto)

theorem blackenTop (h : Draws s (plug c t)) (hp : key t = some p) : Draws (s.setColor p .black) (plug c (blacken t)) := by
  obtain ⟨a, q, k, b, rfl⟩ := exists_fork_of_ne (fun hl : t = .leaf => by rw [hl] at hp; cases hp) false
  rw [key_fork] at hp
  cases hp
  rw [blacken_fork]
  exact h.setColor .black

end Draws

/-! ## What is wanted of a tree -/

/-- The nodes of the tree are `l`, from left to right, and the root is not red. -/
structure Holds (s : RbTree) (l : List Nat) : Prop where
  tree : Rooted s.links l
  root : ∀ r, s.root = some r → (s.node r).color = .black

theorem Draws.root_black_iff (h : Draws s t) : (∀ r, s.root = some r → (s.node r).color = .black) ↔ red t = false := by
  have hred := Draws.isRed (c := []) h
  rw [← h.root] at hred
  rw [← hred]
  cases s.root with
  | none => simp [RbTree.isRed]
  | some r => cases hc : (s.node r).color <;> simp [RbTree.isRed, hc]

theorem Draws.holds (h : Draws s t) (hr : red t = false) : Holds s (keys t) := ⟨h.rooted, h.root_black_iff.2 hr⟩

/-! ## Unlinking a node -/

/-- A tree without its rightmost node, and that node. -/
def takeLast (l : Colored) (y : Nat × RbColor) : Colored → Colored × (Nat × RbColor)
  | .leaf => (l, y)
  | .node l' y' r' => (.node l y (takeLast l' y' r').1, (takeLast l' y' r').2)

theorem takeLast_toList (l : Colored) (y : Nat × RbColor) (r : Colored) :
    (takeLast l y r).1.toList ++ [(takeLast l y r).2] = (Shape.node l y r).toList := by
  induction r generalizing l y with
  | leaf => rfl
  | node l' y' r' _ ih => simpa [takeLast, Shape.toList] using ih l' y'

theorem takeLast_place (l : Colored) (y : Nat × RbColor) (r : Colored) : ∃ (c : Place) (u : Colored),
    .node l y r = plug c (.node u (takeLast l y r).2 .leaf) ∧ (takeLast l y r).1 = plug c u := by
  induction r generalizing l y with
  | leaf => exact ⟨[], l, rfl, rfl⟩
  | node l' y' r' _ ih =>
    obtain ⟨c, u, h, h'⟩ := ih l' y'
    refine ⟨c ++ [⟨true, y, l⟩], u, ?_, ?_⟩
    · rw [plug_append, takeLast, ← h]
      rfl
    · rw [plug_append, takeLast, h']
      rfl

/-- `get_outermost` finds the rightmost node. -/
theorem getOutermost_draws {l r : Colored} {y : Nat × RbColor} (h : Draws s (plug c (.node l y r)))
    (hn : r.toList.length < n) : s.getOutermost n y.1 true = some (takeLast l y r).2.1 := by
  induction r generalizing c l y n with
  | leaf =>
    obtain ⟨n, rfl⟩ : ∃ m, n = m + 1 := ⟨n - 1, by omega⟩
    have hchild := (Draws.read (d := true) (a := .leaf) (b := l) h).2.1
    rw [getOutermost, show (s.node y.1).child true = none from hchild]
    rfl
  | node l' y' r' _ ih =>
    obtain ⟨n, rfl⟩ : ∃ m, n = m + 1 := ⟨n - 1, by omega⟩
    have hchild := (Draws.read (d := true) (a := .node l' y' r') (b := l) h).2.1
    rw [getOutermost, show (s.node y.1).child true = some y'.1 from hchild]
    simp only [Shape.toList, List.length_append, List.length_cons] at hn
    exact ih (c := ⟨true, y, l⟩ :: c) h (by omega)

theorem doRemove_draws_one (h : Draws s (plug c (fork d .leaf (p, k) b))) :
    ∃ s', s.doRemove (n + 1) p = some s' ∧ Draws s' (plug c b) ∧ (s'.node p).color = .black := by
  obtain ⟨-, hnone, hother, -⟩ := h.read
  refine ⟨_, ?_, h.detach⟩
  rw [doRemove]
  cases d with
  | false =>
    rw [key_leaf] at hnone
    simp only [hnone, Bool.not_false]
  | true =>
    rw [key_leaf] at hnone
    simp only [hnone, Bool.not_true]
    cases hl : (s.node p).child false <;> rfl

/-- `do_remove` of a node with two children: the one before it takes its place, and becomes black. -/
theorem doRemove_draws_two {l r b1 b2 : Colored} {y z : Nat × RbColor}
    (h : Draws s (plug c (.node (.node l y r) (p, k) (.node b1 z b2)))) (hn : r.toList.length + 1 < n) :
    ∃ s', s.doRemove (n + 1) p = some s' ∧
      Draws s' (plug c (.node (takeLast l y r).1 ((takeLast l y r).2.1, .black) (.node b1 z b2))) ∧
      (s'.node p).color = .black := by
  obtain ⟨n, rfl⟩ : ∃ m, n = m + 1 := ⟨n - 1, by omega⟩
  obtain ⟨hpar, hleft, hright, -⟩ := Draws.read (d := false) (a := .node l y r) (b := .node b1 z b2) h
  obtain ⟨c', u, hplace, htake⟩ := takeLast_place l y r
  generalize hx : (takeLast l y r).2 = x at hplace ⊢
  -- the rightmost node of the left subtree in its place
  have hdraw : Draws s (plug (c' ++ ⟨false, (p, k), .node b1 z b2⟩ :: c) (fork true .leaf (x.1, x.2) u)) := by
    rw [plug_append]
    exact hplace ▸ h
  obtain ⟨s1, he1, hd1, hcol1⟩ := doRemove_draws_one (n := n) hdraw
  have hfresh : x.1 ∉ keys (plug c (fork false (takeLast l y r).1 (p, k) (.node b1 z b2))) := by
    rw [htake, show plug c (fork false (plug c' u) (p, k) (.node b1 z b2)) = plug (c' ++ ⟨false, (p, k), .node b1 z b2⟩ :: c) u by
      rw [plug_append]; rfl]
    intro hmem
    obtain ⟨w, hw, hwx⟩ := List.mem_map.1 hmem
    exact hdraw.ne (.inr (mem_plug.1 hw)) hwx
  have hd1 : Draws s1 (plug c (.node (takeLast l y r).1 (p, k) (.node b1 z b2))) := by
    rw [plug_append, ← htake] at hd1
    exact hd1
  have hpar1 := (Draws.read (d := false) (a := (takeLast l y r).1) (b := .node b1 z b2) hd1).1
  have hxp : p ≠ x.1 := fun hpx => hfresh (List.mem_map.2 ⟨(p, k), by simp [Shape.toList], hpx⟩)
  refine ⟨s1.takeOver p x.1, ?_, hd1.takeOver hfresh hcol1, by simp [takeOver, detach_color]⟩
  have hout := getOutermost_draws (c := ⟨false, (p, k), .node b1 z b2⟩ :: c) h (by omega : r.toList.length < n + 1)
  rw [hx] at hout
  rw [doRemove]
  simp only [show (s.node p).child false = some y.1 from hleft, show (s.node p).child true = some z.1 from hright, hout, he1,
    Option.bind_eq_bind, Option.bind_some, Option.pure_def, setParent?_child, setChild_child, hxp, if_false, hpar, ← hpar1,
    takeOver]

end RbTree

end OpenLsd
