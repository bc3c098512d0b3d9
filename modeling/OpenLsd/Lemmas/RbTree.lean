import OpenLsd.Lib.PtrPlace
import OpenLsd.Vma.RbTree

/-!
# The pointers of red-black trees

What the functions of `rbtree.c` that write pointers do to the links of the nodes: a rotation, the detaching of a node, and one
node taking the place of another.
-/

namespace OpenLsd

namespace RbTree

open PtrTree

/-- The pointers of the nodes. -/
def links (s : RbTree) : Links Nat where
  parent := fun p => (s.node p).parent
  child := fun p => (s.node p).child
  root := s.root

section Fields

variable (s : RbTree) (p q : Nat) (dir e : Bool) (c par new : Option Nat) (old : Nat) (color : RbColor)

@[simp] theorem setChild_child : ((s.setChild p dir c).node q).child e =
    if q = p then (if e = dir then c else (s.node q).child e) else (s.node q).child e := by
  simp only [setChild, setNode]
  split <;> simp_all

@[simp] theorem setChild_parent : ((s.setChild p dir c).node q).parent = (s.node q).parent := by
  simp only [setChild, setNode]
  split <;> simp_all

@[simp] theorem setChild_color : ((s.setChild p dir c).node q).color = (s.node q).color := by
  simp only [setChild, setNode]
  split <;> simp_all

@[simp] theorem setChild_root : (s.setChild p dir c).root = s.root := rfl

@[simp] theorem setParent_parent : ((s.setParent p par).node q).parent = if q = p then par else (s.node q).parent := by
  simp only [setParent, setNode]
  split <;> simp_all

@[simp] theorem setParent_child : ((s.setParent p par).node q).child = (s.node q).child := by
  simp only [setParent, setNode]
  split <;> simp_all

@[simp] theorem setParent_color : ((s.setParent p par).node q).color = (s.node q).color := by
  simp only [setParent, setNode]
  split <;> simp_all

@[simp] theorem setParent_root : (s.setParent p par).root = s.root := rfl

@[simp] theorem setParent?_parent : ((s.setParent? c par).node q).parent = if c = some q then par else (s.node q).parent := by
  cases c with
  | none => rfl
  | some p => simp [setParent?, eq_comm]

@[simp] theorem setParent?_child : ((s.setParent? c par).node q).child = (s.node q).child := by
  cases c <;> simp [setParent?]

@[simp] theorem setParent?_color : ((s.setParent? c par).node q).color = (s.node q).color := by
  cases c <;> simp [setParent?]

@[simp] theorem setParent?_root : (s.setParent? c par).root = s.root := by
  cases c <;> rfl

@[simp] theorem relink_child : ((s.relink par old new).node q).child e =
    if par = some q ∧ e = decide ((s.node q).child true = some old) then new else (s.node q).child e := by
  cases par with
  | none => simp [relink]
  | some p =>
    by_cases h : q = p
    · simp [relink, h]
    · simp [relink, h, Ne.symm h]

@[simp] theorem relink_parent : ((s.relink par old new).node q).parent = (s.node q).parent := by
  cases par <;> simp [relink]

@[simp] theorem relink_color : ((s.relink par old new).node q).color = (s.node q).color := by
  cases par <;> simp [relink]

@[simp] theorem relink_root : (s.relink par old new).root = if par = none then new else s.root := by
  cases par <;> simp [relink]

@[simp] theorem setColor_color : ((s.setColor p color).node q).color = if q = p then color else (s.node q).color := by
  simp only [setColor, setNode]
  split <;> simp_all

@[simp] theorem setColor_links : (s.setColor p color).links = s.links := by
  simp only [links, setColor, setNode, Links.mk.injEq, and_true]
  refine ⟨funext fun q => ?_, funext fun q => ?_⟩ <;> split <;> simp_all

@[simp] theorem setColor_root : (s.setColor p color).root = s.root := rfl

end Fields

variable {s s' : RbTree} {l : List Nat} {p q x : Nat} {dir : Bool}

/-- The test with which the parent of a node is told which of its children the node is. -/
theorem relink_iff (h : Rooted s.links l) (hp : p ∈ l) (hq : q ∈ l) (e : Bool) :
    ((s.node p).parent = some q ∧ e = decide ((s.node q).child true = some p)) ↔ (s.node q).child e = some p := by
  constructor
  · rintro ⟨hpar, rfl⟩
    obtain ⟨_, d, hd⟩ := h.parent_mem hp hpar
    by_cases ht : (s.node q).child true = some p
    · simp [ht]
    · cases d with
      | false =>
        rw [decide_eq_false ht]
        exact hd
      | true => exact absurd hd ht
  · intro he
    refine ⟨(h.child_mem hq he).2, ?_⟩
    by_cases ht : (s.node q).child true = some p
    · simpa [ht] using h.child_inj hq ht he
    · cases e with
      | false => simp [ht]
      | true => exact absurd he ht

/-- What a rotation does to the links. -/
theorem rotateNode_spec (h : Rooted s.links l) (hp : p ∈ l) (hx : (s.node p).child (!dir) = some x) :
    ∃ s', s.rotateNode p dir = some s' ∧ Rooted.Rotated s.links s'.links p x dir l ∧ ∀ q, (s'.node q).color = (s.node q).color := by
  have hxl : x ∈ l := (h.child_mem hp hx).1
  have hxp : x ≠ p := h.child_ne hp hx
  have hin : ∀ y, (s.node x).child dir = some y → y ≠ p ∧ y ≠ x := fun y hy =>
    ⟨h.grandchild_ne hp hx hy, h.child_ne hxl hy⟩
  have hroot : (s.node p).parent = none ↔ s.root = some p :=
    ⟨fun e => h.root_of_parent hp e, fun e => (h.root_mem e).2⟩
  have hpar : ∀ y, (s.node p).parent = some y → y ≠ p ∧ y ≠ x := by
    intro y hy
    obtain ⟨hyl, e, he⟩ := h.parent_mem hp hy
    refine ⟨fun hyp => h.child_ne hyl he hyp.symm, ?_⟩
    rintro rfl
    exact h.grandchild_ne hp hx he rfl
  have hrelink := fun q hq e => relink_iff h hp (q := q) hq e
  simp only [rotateNode, hx, Option.bind_eq_bind, Option.bind_some, Option.pure_def]
  suffices hr : Rooted.Rotated s.links _ p x dir l from ⟨_, rfl, hr, fun q => by simp⟩
  refine ⟨?_, ⟨?_, ?_⟩, ?_, ⟨?_, ?_⟩, ?_, fun q hq hqp hqx e => ?_, fun q hq hqp hqx => ?_⟩
  all_goals simp only [links, setParent_child, relink_child, setChild_child, setParent?_child, setParent_parent,
    relink_parent, setChild_parent, setParent?_parent, setParent_root, relink_root, setChild_root, setParent?_root]
  · grind
  · grind
  · grind
  · grind
  · grind
  · grind
  · grind
  · have := hrelink q hq e
    simp only [hqp, hqx, if_false]
    grind
  · grind

/-! ## Removal -/

section Detach

variable (s : RbTree) (p q : Nat) (par c : Option Nat)

theorem detach_child (hqp : q ≠ p) (e : Bool) : ((s.detach p par c).node q).child e =
    if par = some q ∧ e = decide ((s.node q).child true = some p) then c else (s.node q).child e := by
  simp [detach, setNode, hqp]

theorem detach_parent (hqp : q ≠ p) : ((s.detach p par c).node q).parent = if c = some q then par else (s.node q).parent := by
  simp [detach, setNode, hqp]

theorem detach_color : ((s.detach p par c).node q).color = if q = p then .black else (s.node q).color := by
  by_cases hqp : q = p <;> simp [detach, setNode, hqp, RbNode.zero]

theorem detach_root : (s.detach p par c).root = if par = none then c else s.root := by
  simp [detach, setNode]

end Detach

theorem parent_none_iff (h : Rooted s.links l) (hp : p ∈ l) : (s.node p).parent = none ↔ s.root = some p :=
  ⟨fun e => h.root_of_parent hp e, fun e => (h.root_mem e).2⟩

theorem detach_spliced {d : Bool} (h : Rooted s.links l) (hp : p ∈ l) :
    Rooted.Spliced s.links (s.detach p (s.node p).parent ((s.node p).child (!d))).links p d l := by
  refine ⟨?_, fun x hx hxp e => ?_, fun x hx hxp => ?_⟩
  · have hroot := parent_none_iff h hp
    simp only [links, detach_root]
    grind
  · have hlink := relink_iff h hp hx e
    simp only [links, detach_child _ _ _ _ _ hxp]
    grind
  · simp only [links, detach_parent _ _ _ _ _ hxp]
    grind

/-- A node that is not in the tree, usually the one that was before, takes the place of a node: all of `do_remove` behind its
call of itself. -/
def takeOver (s : RbTree) (p x : Nat) : RbTree :=
  ((((s.setChild x false ((s.node p).child false)).setParent? ((s.node p).child false) (some x)).setChild x true
    ((s.node p).child true)).setParent? ((s.node p).child true) (some x)).detach p (s.node p).parent (some x)

/-- One node for another. -/
theorem takeOver_replaced (h : Rooted s.links l) (hp : p ∈ l) (hx : x ∉ l) :
    Rooted.Replaced s.links (s.takeOver p x).links p x l := by
  have hxp : x ≠ p := (ne_of_mem_of_not_mem hp hx).symm
  have hroot := parent_none_iff h hp
  have hc := fun e y (he : (s.node p).child e = some y) => h.child_mem hp he
  unfold takeOver
  refine ⟨?_, fun e => ?_, ?_, fun q hq hqp e => ?_, fun q hq hqp => ?_⟩
  · simp only [links, detach_root, setParent?_root, setChild_root]
    grind
  · simp only [links, detach_child _ _ _ _ _ hxp, setParent?_child, setChild_child]
    have hpx : (s.node p).parent ≠ some x := fun e => hx (h.parent_mem hp e).1
    cases e <;> grind
  · simp only [links, detach_parent _ _ _ _ _ hxp, if_true]
  · have hqx : q ≠ x := ne_of_mem_of_not_mem hq hx
    have hlink := relink_iff h hp hq e
    simp only [links, detach_child _ _ _ _ _ hqp, setParent?_child, setChild_child, hqx, if_false]
    grind
  · have hqx : q ≠ x := ne_of_mem_of_not_mem hq hx
    have hpar := fun (e : (s.node q).parent = some p) => h.parent_mem hq e
    have hf := hc false q
    have ht := hc true q
    simp only [links, detach_parent _ _ _ _ _ hqp, setParent?_parent, setChild_parent] at hf ht hpar ⊢
    by_cases hq' : (s.node q).parent = some p
    · obtain ⟨_, d, hd⟩ := hpar hq'
      cases d <;> grind
    · grind

end RbTree

end OpenLsd
