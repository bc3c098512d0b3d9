import Mathlib

/-!
# Binary trees of linked nodes

Nodes with a pointer to their parent and one to each child, and what it means that they form a tree. `Repr s par ptr t` says
that the nodes reached from `ptr`, whose parent is `par`, are the tree `t`, with every parent pointer in place; `Rooted s l`
says that the nodes reached from the root are a tree whose nodes are `l`, from left to right. The pointer writes of rotations,
insertions and removals are given by what the new pointers are in terms of the old ones, for the nodes of the tree only. What
they do to the tree is in `OpenLsd.Lib.PtrPlace`.

Directions are `false` for left and `true` for right.
-/

namespace PtrTree

variable {α : Type*}

/-- The pointers of a tree. -/
structure Links (α : Type*) where
  parent : α → Option α
  child : α → Bool → Option α
  root : Option α

/-- A tree of nodes. -/
inductive Shape (α : Type*) where
  | leaf
  | node (l : Shape α) (p : α) (r : Shape α)

/-- The nodes from left to right. -/
def Shape.toList : Shape α → List α
  | leaf => []
  | node l p r => l.toList ++ p :: r.toList

/-- The nodes reached from `ptr` are the tree, and the parent of the topmost one is `par`. -/
def Repr (s : Links α) : Option α → Option α → Shape α → Prop
  | _, ptr, .leaf => ptr = none
  | par, ptr, .node l p r =>
    ptr = some p ∧ s.parent p = par ∧ Repr s (some p) (s.child p false) l ∧ Repr s (some p) (s.child p true) r

/-- The tree below the root has the nodes `l`, from left to right. -/
def Rooted (s : Links α) (l : List α) : Prop := l.Nodup ∧ ∃ t, Repr s none s.root t ∧ t.toList = l

variable {s s' : Links α} {par ptr : Option α} {t : Shape α} {p q x : α} {d : Bool} {l : List α}

namespace Repr

section

variable (h : Repr s par ptr t)

include h

/-- A tree depends on the pointers of its own nodes only. -/
theorem congr (hs : ∀ q ∈ t.toList, s'.parent q = s.parent q ∧ ∀ e, s'.child q e = s.child q e) : Repr s' par ptr t := by
  induction t generalizing par ptr with
  | leaf => exact h
  | node l p r ihl ihr =>
    obtain ⟨hptr, hpar, hl, hr⟩ := h
    obtain ⟨hp, hc⟩ := hs p (by simp [Shape.toList])
    refine ⟨hptr, hp.trans hpar, ?_, ?_⟩
    · rw [hc]
      exact ihl hl (fun q hq => hs q (by simp [Shape.toList, hq]))
    · rw [hc]
      exact ihr hr (fun q hq => hs q (by simp [Shape.toList, hq]))

/-- What the pointer to a tree is. -/
theorem ptr_mem (hp : ptr = some p) : p ∈ t.toList := by
  cases t with
  | leaf =>
    rw [hp] at h
    cases h
  | node l q r =>
    obtain ⟨hq, _⟩ := h
    rw [hq, Option.some.injEq] at hp
    simp [Shape.toList, hp]

omit h in
theorem ptr_none (h : Repr s par none t) : t = .leaf := by
  cases t with
  | leaf => rfl
  | node l q r => cases h.1

/-- The children of a node of the tree are nodes of the tree, and their parent is the node. -/
theorem child_mem (hp : p ∈ t.toList) (hx : s.child p d = some x) : x ∈ t.toList ∧ s.parent x = some p := by
  induction t generalizing par ptr with
  | leaf => simp [Shape.toList] at hp
  | node l q r ihl ihr =>
    obtain ⟨_, _, hl, hr⟩ := h
    simp only [Shape.toList, List.mem_append, List.mem_cons] at hp ⊢
    rcases hp with hp | rfl | hp
    · obtain ⟨h1, h2⟩ := ihl hl hp
      exact ⟨.inl h1, h2⟩
    · cases d with
      | false =>
        refine ⟨.inl (hl.ptr_mem hx), ?_⟩
        cases l with
        | leaf => rw [hl] at hx; cases hx
        | node a y b =>
          rw [hl.1, Option.some.injEq] at hx
          rw [← hx, hl.2.1]
      | true =>
        refine ⟨.inr (.inr (hr.ptr_mem hx)), ?_⟩
        cases r with
        | leaf => rw [hr] at hx; cases hx
        | node a y b =>
          rw [hr.1, Option.some.injEq] at hx
          rw [← hx, hr.2.1]
    · obtain ⟨h1, h2⟩ := ihr hr hp
      exact ⟨.inr (.inr h1), h2⟩

/-- Every node of the tree is the topmost one, or a child of a node of the tree. -/
theorem parent_mem (hq : q ∈ t.toList) :
    (ptr = some q ∧ s.parent q = par) ∨ ∃ p ∈ t.toList, s.parent q = some p ∧ ∃ d, s.child p d = some q := by
  induction t generalizing par ptr with
  | leaf => simp [Shape.toList] at hq
  | node l x r ihl ihr =>
    obtain ⟨hptr, hpar, hl, hr⟩ := h
    simp only [Shape.toList, List.mem_append, List.mem_cons] at hq ⊢
    rcases hq with hq | rfl | hq
    · rcases ihl hl hq with ⟨h1, h2⟩ | ⟨p, hp, h1, h2⟩
      · exact .inr ⟨x, by simp, h2, false, h1⟩
      · exact .inr ⟨p, by simp [hp], h1, h2⟩
    · exact .inl ⟨hptr, hpar⟩
    · rcases ihr hr hq with ⟨h1, h2⟩ | ⟨p, hp, h1, h2⟩
      · exact .inr ⟨x, by simp, h2, true, h1⟩
      · exact .inr ⟨p, by simp [hp], h1, h2⟩

/-- The two trees below a node do not have the node, and share no node. -/
theorem below (hnd : t.toList.Nodup) (hp : p ∈ t.toList) :
    ∃ u v, Repr s (some p) (s.child p false) u ∧ Repr s (some p) (s.child p true) v ∧ p ∉ u.toList ∧ p ∉ v.toList ∧
      ∀ y ∈ u.toList, y ∉ v.toList := by
  induction t generalizing par ptr with
  | leaf => simp [Shape.toList] at hp
  | node l q r ihl ihr =>
    obtain ⟨_, _, hl, hr⟩ := h
    simp only [Shape.toList, List.nodup_append, List.nodup_cons, List.mem_append, List.mem_cons] at hnd hp
    rcases hp with hp | rfl | hp
    · exact ihl hl hnd.1 hp
    · exact ⟨l, r, hl, hr, fun e => hnd.2.2 p e p (.inl rfl) rfl, hnd.2.1.1, fun y hy e => hnd.2.2 y hy y (.inr e) rfl⟩
    · exact ihr hr hnd.2.1.2 hp

theorem child_inj (hnd : t.toList.Nodup) (hp : p ∈ t.toList) {e : Bool} (hx : s.child p d = some x)
    (hx' : s.child p e = some x) : e = d := by
  obtain ⟨u, v, hu, hv, _, _, hdis⟩ := h.below hnd hp
  cases d <;> cases e <;> first | rfl | exact (hdis x (hu.ptr_mem ‹_›) (hv.ptr_mem ‹_›)).elim

/-- The topmost node is not a child of a node of the tree, when its parent is outside. -/
theorem child_ne_ptr (hpar : ∀ q, par = some q → q ∉ t.toList) (hp : p ∈ t.toList)
    (hx : s.child p d = some x) : ptr ≠ some x := by
  rintro rfl
  obtain ⟨hx', hpx⟩ := h.child_mem hp hx
  cases t with
  | leaf => cases h
  | node l q r =>
    obtain ⟨hq, hpq, _⟩ := h
    cases hq
    exact hpar p (hpq ▸ hpx) hp

end

variable [DecidableEq α]

/-- The same tree with another parent for the topmost node. -/
theorem reparent {par' : Option α} (h : Repr s par ptr t) (hnd : t.toList.Nodup)
    (hc : ∀ q ∈ t.toList, ∀ e, s'.child q e = s.child q e)
    (hp : ∀ q ∈ t.toList, s'.parent q = if ptr = some q then par' else s.parent q) : Repr s' par' ptr t := by
  cases t with
  | leaf => exact h
  | node l p r =>
    obtain ⟨rfl, hpar, hl, hr⟩ := h
    simp only [Shape.toList, List.nodup_append, List.nodup_cons, List.mem_cons, List.mem_append] at hnd hc hp
    have hpp := hp p (by simp)
    rw [if_pos rfl] at hpp
    refine ⟨rfl, hpp, ?_, ?_⟩
    · rw [hc p (by simp)]
      refine hl.congr (fun q hq => ⟨?_, hc q (by simp [hq])⟩)
      rw [hp q (by simp [hq]), if_neg]
      rintro ⟨⟩
      exact hnd.2.2 p hq p (by simp) rfl
    · rw [hc p (by simp)]
      refine hr.congr (fun q hq => ⟨?_, hc q (by simp [hq])⟩)
      rw [hp q (by simp [hq]), if_neg]
      rintro ⟨⟩
      exact hnd.2.1.1 hq

end Repr

namespace Rooted

section

variable (h : Rooted s l)

include h

theorem child_mem (hp : p ∈ l) (hx : s.child p d = some x) : x ∈ l ∧ s.parent x = some p := by
  obtain ⟨_, t, ht, rfl⟩ := h
  exact ht.child_mem hp hx

theorem child_inj (hp : p ∈ l) {e : Bool} (hx : s.child p d = some x) (hx' : s.child p e = some x) : e = d := by
  obtain ⟨hnd, t, ht, rfl⟩ := h
  exact ht.child_inj hnd hp hx hx'

theorem root_mem (hp : s.root = some p) : p ∈ l ∧ s.parent p = none := by
  obtain ⟨_, t, ht, rfl⟩ := h
  refine ⟨ht.ptr_mem hp, ?_⟩
  cases t with
  | leaf => cases hp.symm.trans ht
  | node u q v =>
    obtain ⟨hq, hpar, _⟩ := ht
    rw [hp, Option.some.injEq] at hq
    rw [hq, hpar]

theorem parent_mem (hq : q ∈ l) (hp : s.parent q = some p) : p ∈ l ∧ ∃ d, s.child p d = some q := by
  obtain ⟨_, t, ht, rfl⟩ := h
  rcases ht.parent_mem hq with ⟨_, hn⟩ | ⟨p', hp', he, hd⟩
  · rw [hn] at hp
    cases hp
  · rw [hp, Option.some.injEq] at he
    exact he ▸ ⟨hp', hd⟩

theorem root_of_parent (hq : q ∈ l) (hp : s.parent q = none) : s.root = some q := by
  obtain ⟨_, t, ht, rfl⟩ := h
  rcases ht.parent_mem hq with ⟨hr, _⟩ | ⟨p', _, he, _⟩
  · exact hr
  · rw [hp] at he
    cases he

theorem root_none (hr : s.root = none) : l = [] := by
  obtain ⟨_, t, ht, rfl⟩ := h
  rw [hr] at ht
  rw [ht.ptr_none]
  rfl

theorem child_ne (hp : p ∈ l) (hx : s.child p d = some x) : x ≠ p := by
  rintro rfl
  obtain ⟨hnd, t, ht, rfl⟩ := h
  obtain ⟨u, v, hu, hv, hnu, hnv, _⟩ := ht.below hnd hp
  cases d with
  | false => exact hnu (hu.ptr_mem hx)
  | true => exact hnv (hv.ptr_mem hx)

theorem grandchild_ne (hp : p ∈ l) {e : Bool} (hx : s.child p d = some x) (hq : s.child x e = some q) : q ≠ p := by
  rintro rfl
  obtain ⟨hnd, t, ht, rfl⟩ := h
  obtain ⟨u, v, hu, hv, hnu, hnv, _⟩ := ht.below hnd hp
  cases d with
  | false => exact hnu (hu.child_mem (hu.ptr_mem hx) hq).1
  | true => exact hnv (hv.child_mem (hv.ptr_mem hx) hq).1

theorem congr (hr : s'.root = s.root) (hs : ∀ q ∈ l, s'.parent q = s.parent q ∧ ∀ e, s'.child q e = s.child q e) :
    Rooted s' l := by
  obtain ⟨hnd, t, ht, rfl⟩ := h
  refine ⟨hnd, t, ?_, rfl⟩
  rw [hr]
  exact ht.congr hs

end

variable [DecidableEq α]

/-! ## Rotations -/

/-- The pointers after the child `x` of `p` in the direction `!d` has taken the place of `p`. -/
structure Rotated (s s' : Links α) (p x : α) (d : Bool) (l : List α) : Prop where
  root : s'.root = if s.root = some p then some x else s.root
  child_p : s'.child p d = s.child p d ∧ s'.child p (!d) = s.child x d
  parent_p : s'.parent p = some x
  child_x : s'.child x d = some p ∧ s'.child x (!d) = s.child x (!d)
  parent_x : s'.parent x = s.parent p
  child : ∀ q ∈ l, q ≠ p → q ≠ x → ∀ e, s'.child q e = if s.child q e = some p then some x else s.child q e
  parent : ∀ q ∈ l, q ≠ p → q ≠ x → s'.parent q = if s.child x d = some q then some p else s.parent q

/-! ## Insertion -/

/-- Puts `q` next to `p`, to the right of it for `true`. -/
def insertBeside (d : Bool) (p q : α) : List α → List α
  | [] => []
  | x :: l => if x = p then (if d then p :: q :: l else q :: p :: l) else x :: insertBeside d p q l

theorem insertBeside_append {a b : List α} (d : Bool) (q : α) (hp : p ∉ a) :
    insertBeside d p q (a ++ p :: b) = a ++ if d then p :: q :: b else q :: p :: b := by
  induction a with
  | nil => simp [insertBeside]
  | cons x a ih =>
    rw [List.mem_cons, not_or] at hp
    rw [List.cons_append, insertBeside, if_neg (fun e => hp.1 e.symm), ih hp.2, List.cons_append]

theorem insertBeside_perm (d : Bool) (q : α) (hp : p ∈ l) : (insertBeside d p q l).Perm (q :: l) := by
  induction l with
  | nil => cases hp
  | cons x l ih =>
    unfold insertBeside
    by_cases hx : x = p
    · subst hx
      rw [if_pos rfl]
      cases d
      · exact List.Perm.refl _
      · exact List.Perm.swap q x l
    · rw [if_neg hx]
      have hp' : p ∈ l := (List.mem_cons.1 hp).resolve_left (fun e => hx e.symm)
      exact ((ih hp').cons x).trans (List.Perm.swap q x l)

/-- The pointers after `q`, which has no children, has become the child `d` of `p`. -/
structure Inserted (s s' : Links α) (p q : α) (d : Bool) (l : List α) : Prop where
  root : s'.root = s.root
  child_p : s'.child p d = some q ∧ s'.child p (!d) = s.child p (!d)
  child_q : ∀ e, s'.child q e = none
  parent_q : s'.parent q = some p
  child : ∀ x ∈ l, x ≠ p → ∀ e, s'.child x e = s.child x e
  parent : ∀ x ∈ l, s'.parent x = s.parent x

/-! ## Removal -/

/-- The pointers after the only subtree of `p`, which is in the direction `!d`, has taken the place of `p`. -/
structure Spliced (s s' : Links α) (p : α) (d : Bool) (l : List α) : Prop where
  root : s'.root = if s.root = some p then s.child p (!d) else s.root
  child : ∀ x ∈ l, x ≠ p → ∀ e, s'.child x e = if s.child x e = some p then s.child p (!d) else s.child x e
  parent : ∀ x ∈ l, x ≠ p → s'.parent x = if s.child p (!d) = some x then s.parent p else s.parent x

/-- The pointers after `x`, which was not in the tree, has taken the place of `p` with all that was below it. -/
structure Replaced (s s' : Links α) (p x : α) (l : List α) : Prop where
  root : s'.root = if s.root = some p then some x else s.root
  child_x : ∀ e, s'.child x e = s.child p e
  parent_x : s'.parent x = s.parent p
  child : ∀ q ∈ l, q ≠ p → ∀ e, s'.child q e = if s.child q e = some p then some x else s.child q e
  parent : ∀ q ∈ l, q ≠ p → s'.parent q = if s.parent q = some p then some x else s.parent q

end Rooted

end PtrTree
