import OpenLsd.Lib.PtrTree

/-!
# Places in a tree of linked nodes

A place is what is around a subtree: the nodes above it, the innermost first, each with the side on which the subtree is and
with the tree on its other side. `plug c t` is the tree with `t` in the place `c`. The pointer writes of rotations, insertions
and removals are shown to change the subtree in a place in the way they are meant to, and nothing around it. What they do to the
list of nodes follows.
-/

namespace PtrTree

variable {α β : Type*}

namespace Shape

/-- The tree with `a` on the side `d` of the node, and `b` on the other one. -/
def fork (d : Bool) (a : Shape α) (p : α) (b : Shape α) : Shape α :=
  match d with
  | false => .node a p b
  | true => .node b p a

/-- The topmost node. -/
def ptr : Shape α → Option α
  | leaf => none
  | node _ p _ => some p

@[simp] theorem ptr_fork (d : Bool) (a : Shape α) (p : α) (b : Shape α) : (fork d a p b).ptr = some p := by
  cases d <;> rfl

theorem fork_perm (d : Bool) (a : Shape α) (p : α) (b : Shape α) : (fork d a p b).toList.Perm (p :: (a.toList ++ b.toList)) := by
  cases d with
  | false => exact List.perm_middle
  | true => exact List.perm_middle.trans (List.perm_append_comm.cons p)

@[simp] theorem mem_fork {d : Bool} {a : Shape α} {p : α} {b : Shape α} {x : α} :
    x ∈ (fork d a p b).toList ↔ x = p ∨ x ∈ a.toList ∨ x ∈ b.toList := by
  simp [(fork_perm d a p b).mem_iff]

@[simp] theorem nodup_fork {d : Bool} {a : Shape α} {p : α} {b : Shape α} :
    (fork d a p b).toList.Nodup ↔ p ∉ a.toList ∧ p ∉ b.toList ∧ a.toList.Nodup ∧ b.toList.Nodup ∧ a.toList.Disjoint b.toList := by
  rw [(fork_perm d a p b).nodup_iff, List.nodup_cons, List.nodup_append', List.mem_append, not_or, and_assoc]

theorem exists_fork (d : Bool) (l : Shape α) (p : α) (r : Shape α) : ∃ a b, node l p r = fork d a p b := by
  cases d with
  | false => exact ⟨l, r, rfl⟩
  | true => exact ⟨r, l, rfl⟩

theorem fork_not (d : Bool) (a : Shape α) (p : α) (b : Shape α) : fork (!d) a p b = fork d b p a := by
  cases d <;> rfl

/-- The subtree on the side `d`. -/
def sub (d : Bool) : Shape α → Shape α
  | leaf => leaf
  | node l _ r => if d then r else l

@[simp] theorem sub_fork (d : Bool) (a : Shape α) (p : α) (b : Shape α) : (fork d a p b).sub d = a := by
  cases d <;> rfl

@[simp] theorem sub_fork_not (d : Bool) (a : Shape α) (p : α) (b : Shape α) : (fork d a p b).sub (!d) = b := by
  cases d <;> rfl

/-- The same tree with other nodes. -/
def map {β : Type*} (f : α → β) : Shape α → Shape β
  | leaf => leaf
  | node l p r => node (l.map f) (f p) (r.map f)

section Map

variable {β : Type*} (f : α → β)

@[simp] theorem toList_map (t : Shape α) : (t.map f).toList = t.toList.map f := by
  induction t with
  | leaf => rfl
  | node l p r ihl ihr => simp [map, toList, ihl, ihr]

@[simp] theorem map_fork (d : Bool) (a : Shape α) (p : α) (b : Shape α) : (fork d a p b).map f = fork d (a.map f) (f p) (b.map f) := by
  cases d <;> rfl

@[simp] theorem ptr_map (t : Shape α) : (t.map f).ptr = t.ptr.map f := by
  cases t <;> rfl

end Map

end Shape

open Shape

/-- A node above a place: the side the place is on, and the tree on the other side. -/
structure Frame (α : Type*) where
  side : Bool
  node : α
  other : Shape α

/-- The tree with `t` in the place. -/
def plug : List (Frame α) → Shape α → Shape α
  | [], t => t
  | f :: c, t => plug c (fork f.side t f.node f.other)

/-- The nodes around the place. -/
def nodes : List (Frame α) → List α
  | [] => []
  | f :: c => f.node :: (f.other.toList ++ nodes c)

/-- The node right above the place. -/
def top (c : List (Frame α)) : Option α := c.head?.map Frame.node

/-- The same place with other nodes. -/
def Frame.map {β : Type*} (f : α → β) (a : Frame α) : Frame β := ⟨a.side, f a.node, a.other.map f⟩

theorem map_plug (f : α → β) (c : List (Frame α)) (t : Shape α) : (plug c t).map f = plug (c.map (Frame.map f)) (t.map f) := by
  induction c generalizing t with
  | nil => rfl
  | cons a c ih => simp [plug, ih, Frame.map]

theorem nodes_map (f : α → β) (c : List (Frame α)) : nodes (c.map (Frame.map f)) = (nodes c).map f := by
  induction c with
  | nil => rfl
  | cons a c ih => simp [nodes, ih, Frame.map]

theorem plug_append (c c' : List (Frame α)) (t : Shape α) : plug (c ++ c') t = plug c' (plug c t) := by
  induction c generalizing t with
  | nil => rfl
  | cons a c ih => exact ih _

/-- The place of the other subtree. -/
theorem plug_other (d : Bool) (p : α) (a b : Shape α) (c : List (Frame α)) : plug (⟨!d, p, a⟩ :: c) b = plug c (fork d a p b) := by
  rw [plug, fork_not]

variable {s s' : Links α} {par ptr y : Option α} {t t' a b e : Shape α} {p q x : α} {d : Bool} {c : List (Frame α)}

theorem plug_perm (c : List (Frame α)) (t : Shape α) : (plug c t).toList.Perm (t.toList ++ nodes c) := by
  induction c generalizing t with
  | nil => simp [plug, nodes]
  | cons f c ih =>
    refine (ih _).trans (((fork_perm f.side t f.node f.other).append_right _).trans ?_)
    simpa [nodes] using List.perm_middle.symm

@[simp] theorem mem_plug : x ∈ (plug c t).toList ↔ x ∈ t.toList ∨ x ∈ nodes c := by
  simp [(plug_perm c t).mem_iff]

theorem nodup_plug : (plug c t).toList.Nodup ↔ t.toList.Nodup ∧ (nodes c).Nodup ∧ t.toList.Disjoint (nodes c) := by
  rw [(plug_perm c t).nodup_iff, List.nodup_append']

/-- What is in a place stands between what is to the left and to the right of the place. -/
theorem toList_plug (c : List (Frame α)) : ∃ l r, ∀ t, (plug c t).toList = l ++ t.toList ++ r := by
  induction c with
  | nil => exact ⟨[], [], fun t => by simp [plug]⟩
  | cons f c ih =>
    obtain ⟨l, r, h⟩ := ih
    cases hf : f.side with
    | false => exact ⟨l, f.node :: f.other.toList ++ r, fun t => by simp [plug, hf, h, fork, Shape.toList]⟩
    | true => exact ⟨l ++ f.other.toList ++ [f.node], r, fun t => by simp [plug, hf, h, fork, Shape.toList]⟩

theorem exists_plug (h : p ∈ t.toList) : ∃ c l r, t = plug c (.node l p r) := by
  have go : ∀ (u : Shape α) (c : List (Frame α)), p ∈ u.toList → ∃ c' l r, plug c u = plug c' (.node l p r) := by
    intro u
    induction u with
    | leaf => simp [Shape.toList]
    | node l q r ihl ihr =>
      intro c hu
      rcases (by simpa [Shape.toList] using hu : p ∈ l.toList ∨ p = q ∨ p ∈ r.toList) with hu | rfl | hu
      · exact ihl (⟨false, q, r⟩ :: c) hu
      · exact ⟨c, l, r, rfl⟩
      · exact ihr (⟨true, q, l⟩ :: c) hu
  exact go t [] h

/-! ## Pointers around a place -/

theorem repr_fork : Repr s par ptr (fork d a p b) ↔
    ptr = some p ∧ s.parent p = par ∧ Repr s (some p) (s.child p d) a ∧ Repr s (some p) (s.child p (!d)) b := by
  cases d with
  | false => exact Iff.rfl
  | true => exact and_congr_right fun _ => and_congr_right fun _ => and_comm

theorem Repr.ptr_eq (h : Repr s par ptr t) : ptr = t.ptr := by
  cases t with
  | leaf => exact h
  | node l p r => exact h.1

/-- The nodes reached from a pointer are one tree. -/
theorem Repr.unique (h : Repr s par ptr t) (h' : Repr s par ptr t') : t = t' := by
  induction t generalizing par ptr t' with
  | leaf =>
    cases t' with
    | leaf => rfl
    | node _ _ _ => cases h.symm.trans h'.1
  | node l p r ihl ihr =>
    cases t' with
    | leaf => cases h.1.symm.trans h'
    | node l' p' r' =>
      obtain rfl : p = p' := Option.some.inj (h.1.symm.trans h'.1)
      rw [ihl h.2.2.1 h'.2.2.1, ihr h.2.2.2 h'.2.2.2]

/-- The pointers of the nodes around a place, with `ptr` as the pointer to the place. -/
def Around (s : Links α) : List (Frame α) → Option α → Prop
  | [], ptr => s.root = ptr
  | f :: c, ptr => Around s c (some f.node) ∧ s.parent f.node = top c ∧ s.child f.node f.side = ptr ∧
      Repr s (some f.node) (s.child f.node (!f.side)) f.other

/-- A tree is what is around a place, and what is in it. -/
theorem repr_plug : Repr s none s.root (plug c t) ↔ Around s c t.ptr ∧ Repr s (top c) t.ptr t := by
  induction c generalizing t with
  | nil => exact ⟨fun h => ⟨h.ptr_eq, h.ptr_eq ▸ h⟩, fun ⟨h, h'⟩ => (show s.root = t.ptr from h) ▸ h'⟩
  | cons f c ih =>
    rw [plug, ih, repr_fork, ptr_fork]
    constructor
    · rintro ⟨hc, -, hpar, ht, ho⟩
      exact ⟨⟨hc, hpar, ht.ptr_eq, ho⟩, ht.ptr_eq ▸ ht⟩
    · rintro ⟨⟨hc, hpar, hptr, ho⟩, ht⟩
      exact ⟨hc, rfl, hpar, hptr.symm ▸ ht, ho⟩

/-- A node of the tree in its place, with the subtree on the side `d` first. -/
theorem Rooted.exists_place {l : List α} (h : Rooted s l) (hp : p ∈ l) (d : Bool) : ∃ c a b, l = (plug c (fork d a p b)).toList ∧
    Repr s none s.root (plug c (fork d a p b)) ∧ s.child p d = a.ptr ∧ s.child p (!d) = b.ptr := by
  obtain ⟨_, t, ht, rfl⟩ := h
  obtain ⟨c, u, v, rfl⟩ := exists_plug hp
  obtain ⟨a, b, hab⟩ := exists_fork d u p v
  rw [hab] at ht
  obtain ⟨_, _, ha, hb⟩ := repr_fork.1 (repr_plug.1 ht).2
  exact ⟨c, a, b, by rw [hab], ht, ha.ptr_eq, hb.ptr_eq⟩

namespace Around

/-- What the pointers around a place lead to. -/
theorem child_mem (h : Around s c ptr) (hq : q ∈ nodes c) (hx : s.child q d = some x) : ptr = some x ∨ x ∈ nodes c := by
  induction c generalizing ptr with
  | nil => cases hq
  | cons f c ih =>
    obtain ⟨hc, _, hptr, ho⟩ := h
    simp only [nodes, List.mem_cons, List.mem_append] at hq ⊢
    rcases hq with rfl | hq | hq
    · by_cases hd : d = f.side
      · subst hd
        exact .inl (hptr ▸ hx)
      · have hd' : d = !f.side := by cases d <;> cases hs : f.side <;> simp_all
        subst hd'
        exact .inr (.inr (.inl (ho.ptr_mem hx)))
    · exact .inr (.inr (.inl (ho.child_mem hq hx).1))
    · rcases ih hc hq with h | h
      · exact .inr (.inl (Option.some.inj h).symm)
      · exact .inr (.inr (.inr h))

theorem root_mem (h : Around s c ptr) (hx : s.root = some x) : ptr = some x ∨ x ∈ nodes c := by
  induction c generalizing ptr with
  | nil => exact .inl (h.symm.trans hx)
  | cons f c ih =>
    simp only [nodes, List.mem_cons, List.mem_append]
    rcases ih h.1 with h | h
    · exact .inr (.inl (Option.some.inj h).symm)
    · exact .inr (.inr (.inr h))

theorem congr (h : Around s c ptr) (hroot : s'.root = s.root)
    (hs : ∀ q ∈ nodes c, s'.parent q = s.parent q ∧ ∀ e, s'.child q e = s.child q e) : Around s' c ptr := by
  induction c generalizing ptr with
  | nil => exact hroot.trans h
  | cons f c ih =>
    obtain ⟨hc, hpar, hptr, ho⟩ := h
    simp only [nodes, List.mem_cons, List.mem_append] at hs
    obtain ⟨hp, hch⟩ := hs f.node (.inl rfl)
    refine ⟨ih hc fun q hq => hs q (.inr (.inr hq)), hp.trans hpar, (hch _).trans hptr, ?_⟩
    rw [hch]
    exact ho.congr fun q hq => hs q (.inr (.inl hq))

variable [DecidableEq α]

/-- The pointer to the place is changed, and nothing else. -/
theorem move (h : Around s c (some p)) (hp : p ∉ nodes c) (hroot : s'.root = if s.root = some p then y else s.root)
    (hs : ∀ q ∈ nodes c, s'.parent q = s.parent q ∧ ∀ e, s'.child q e = if s.child q e = some p then y else s.child q e) :
    Around s' c y := by
  cases c with
  | nil => exact hroot.trans (if_pos h)
  | cons f c =>
    obtain ⟨hc, hpar, hptr, ho⟩ := h
    simp only [nodes, List.mem_cons, List.mem_append, not_or] at hs hp
    obtain ⟨hf, hch⟩ := hs f.node (.inl rfl)
    refine ⟨hc.congr ?_ fun q hq => ⟨(hs q (.inr (.inr hq))).1, fun e => ?_⟩, hf.trans hpar, (hch _).trans (if_pos hptr), ?_⟩
    · refine hroot.trans (if_neg fun hr => ?_)
      rcases hc.root_mem hr with h | h
      · exact hp.1 (Option.some.inj h).symm
      · exact hp.2.2 h
    · refine ((hs q (.inr (.inr hq))).2 e).trans (if_neg fun he => ?_)
      rcases hc.child_mem hq he with h | h
      · exact hp.1 (Option.some.inj h).symm
      · exact hp.2.2 h
    · rw [hch, if_neg fun he => hp.2.1 (ho.ptr_mem he)]
      refine ho.congr fun q hq => ⟨(hs q (.inr (.inl hq))).1, fun e => ?_⟩
      exact ((hs q (.inr (.inl hq))).2 e).trans (if_neg fun he => hp.2.1 (ho.child_mem hq he).1)

end Around

/-! ## Changing what is in a place -/

variable [DecidableEq α]

theorem Repr.put (h : Repr s none s.root (plug c t)) (hp : t.ptr = some p) (hnd : (plug c t).toList.Nodup)
    (hroot : s'.root = if s.root = some p then y else s.root)
    (hs : ∀ q ∈ nodes c, s'.parent q = s.parent q ∧ ∀ e, s'.child q e = if s.child q e = some p then y else s.child q e)
    (ht : Repr s' (top c) y t') : Repr s' none s'.root (plug c t') := by
  obtain ⟨hc, hr⟩ := repr_plug.1 h
  rw [hp] at hc hr
  have hy := ht.ptr_eq
  exact repr_plug.2 ⟨hy ▸ hc.move ((nodup_plug.1 hnd).2.2 (hr.ptr_mem rfl)) hroot hs, hy ▸ ht⟩

/-- A child takes the place of its parent, which becomes its child. -/
theorem Repr.rotate (h : Repr s none s.root (plug c (fork d a p (fork d b x e))))
    (hnd : (plug c (fork d a p (fork d b x e))).toList.Nodup)
    (hr : Rooted.Rotated s s' p x d (plug c (fork d a p (fork d b x e))).toList) :
    Repr s' none s'.root (plug c (fork d (fork d a p b) x e)) := by
  obtain ⟨-, ht⟩ := repr_plug.1 h
  obtain ⟨-, hpar, ha, hx⟩ := repr_fork.1 ht
  obtain ⟨hxp, hxpar, hb, he⟩ := repr_fork.1 hx
  have hnd' := nodup_plug.1 hnd
  simp only [nodup_fork, mem_fork, List.disjoint_left] at hnd'
  have hmem : ∀ q, q ∈ (plug c (fork d a p (fork d b x e))).toList ↔
      (q = p ∨ q ∈ a.toList ∨ q = x ∨ q ∈ b.toList ∨ q ∈ e.toList) ∨ q ∈ nodes c := by
    simp
  have hbptr := fun z => hb.ptr_mem (p := z)
  -- Away from the two nodes the pointers are as before, but for the parent of the tree between them.
  have hchild : ∀ q, q ∈ a.toList ∨ q ∈ b.toList ∨ q ∈ e.toList → ∀ i, s'.child q i = s.child q i := by
    intro q hq i
    have hne : s.child q i ≠ some p := by
      intro hi
      rcases hq with hq | hq | hq
      · exact hnd'.1.1 (ha.child_mem hq hi).1
      · have := (hb.child_mem hq hi).1
        grind
      · have := (he.child_mem hq hi).1
        grind
    rw [hr.child q ((hmem q).2 (by tauto)) (by grind) (by grind), if_neg hne]
  have hparent : ∀ q, q ∈ a.toList ∨ q ∈ b.toList ∨ q ∈ e.toList ∨ q ∈ nodes c →
      s'.parent q = if s.child x d = some q then some p else s.parent q := fun q hq =>
    hr.parent q ((hmem q).2 (by tauto)) (by grind) (by grind)
  refine h.put (ptr_fork ..) hnd hr.root (fun q hq => ⟨?_, hr.child q ((hmem q).2 (.inr hq)) (by grind) (by grind)⟩)
    (repr_fork.2 ⟨rfl, hr.parent_x.trans hpar, ?_, ?_⟩)
  · rw [hparent q (by tauto), if_neg fun hi => ?_]
    have := hbptr q hi
    grind
  · refine repr_fork.2 ⟨hr.child_x.1, hr.parent_p, ?_, ?_⟩
    · rw [hr.child_p.1]
      refine ha.congr fun q hq => ⟨?_, hchild q (.inl hq)⟩
      rw [hparent q (.inl hq), if_neg fun hi => ?_]
      have := hbptr q hi
      grind
    · rw [hr.child_p.2]
      exact hb.reparent hnd'.1.2.2.2.1.2.2.1 (fun q hq => hchild q (.inr (.inl hq))) fun q hq => hparent q (.inr (.inl hq))
  · rw [hr.child_x.2]
    refine he.congr fun q hq => ⟨?_, hchild q (.inr (.inr hq))⟩
    rw [hparent q (.inr (.inr (.inl hq))), if_neg fun hi => ?_]
    have := hbptr q hi
    grind

theorem Repr.insert (h : Repr s none s.root (plug c (fork d .leaf p b))) (hnd : (plug c (fork d .leaf p b)).toList.Nodup)
    (hi : Rooted.Inserted s s' p q d (plug c (fork d .leaf p b)).toList) :
    Repr s' none s'.root (plug c (fork d (.node .leaf q .leaf) p b)) := by
  obtain ⟨-, ht⟩ := repr_plug.1 h
  obtain ⟨-, hpar, -, hb⟩ := repr_fork.1 ht
  have hnd' := nodup_plug.1 hnd
  simp only [nodup_fork, mem_fork, List.disjoint_left, Shape.toList, List.not_mem_nil, false_or] at hnd'
  have hmem : ∀ x, x ∈ (plug c (fork d .leaf p b)).toList ↔ (x = p ∨ x ∈ b.toList) ∨ x ∈ nodes c := by
    simp [Shape.toList]
  have hroot : s'.root = if s.root = some p then some p else s.root := by
    rw [hi.root]
    split <;> simp_all
  refine h.put (ptr_fork ..) hnd hroot (fun x hx => ⟨hi.parent x ((hmem x).2 (.inr hx)), fun i => ?_⟩)
    (repr_fork.2 ⟨rfl, (hi.parent p ((hmem p).2 (by simp))).trans hpar, ?_, ?_⟩)
  · rw [hi.child x ((hmem x).2 (.inr hx)) (by grind)]
    split <;> simp_all
  · rw [hi.child_p.1]
    exact ⟨rfl, hi.parent_q, hi.child_q false, hi.child_q true⟩
  · rw [hi.child_p.2]
    exact hb.congr fun x hx => ⟨hi.parent x ((hmem x).2 (by tauto)), hi.child x ((hmem x).2 (by tauto)) (by grind)⟩

theorem Repr.splice (h : Repr s none s.root (plug c (fork d .leaf p t))) (hnd : (plug c (fork d .leaf p t)).toList.Nodup)
    (hi : Rooted.Spliced s s' p d (plug c (fork d .leaf p t)).toList) : Repr s' none s'.root (plug c t) := by
  obtain ⟨-, ht⟩ := repr_plug.1 h
  obtain ⟨-, hpar, -, hw⟩ := repr_fork.1 ht
  have hnd' := nodup_plug.1 hnd
  simp only [nodup_fork, mem_fork, List.disjoint_left, Shape.toList, List.not_mem_nil, false_or] at hnd'
  have hmem : ∀ q, q ∈ (plug c (fork d .leaf p t)).toList ↔ (q = p ∨ q ∈ t.toList) ∨ q ∈ nodes c := by
    simp [Shape.toList]
  refine h.put (ptr_fork ..) hnd hi.root (fun q hq => ⟨?_, hi.child q ((hmem q).2 (.inr hq)) (by grind)⟩) ?_
  · rw [hi.parent q ((hmem q).2 (.inr hq)) (by grind), if_neg fun he => ?_]
    have := hw.ptr_mem he
    grind
  · refine hpar ▸ hw.reparent (by tauto) (fun q hq i => ?_) fun q hq => hi.parent q ((hmem q).2 (by tauto)) (by grind)
    rw [hi.child q ((hmem q).2 (by tauto)) (by grind), if_neg fun he => ?_]
    have := (hw.child_mem hq he).1
    grind

theorem Repr.replace (h : Repr s none s.root (plug c (.node a p b))) (hnd : (plug c (.node a p b)).toList.Nodup)
    (hi : Rooted.Replaced s s' p x (plug c (.node a p b)).toList) : Repr s' none s'.root (plug c (.node a x b)) := by
  obtain ⟨-, ht⟩ := repr_plug.1 h
  obtain ⟨-, hpar, ha, hb⟩ := ht
  have hnd' := nodup_plug.1 hnd
  rw [show (Shape.node a p b) = fork false a p b from rfl] at hnd'
  simp only [nodup_fork, mem_fork, List.disjoint_left] at hnd'
  have hmem : ∀ q, q ∈ (plug c (.node a p b)).toList ↔ (q = p ∨ q ∈ a.toList ∨ q ∈ b.toList) ∨ q ∈ nodes c := by
    intro q
    simp [Shape.toList]
    tauto
  -- Only the topmost nodes of the two subtrees have the node as their parent.
  have hlift : ∀ {w : Shape α} {o : Option α}, Repr s (some p) o w → w.toList.Nodup → p ∉ w.toList →
      (∀ q ∈ w.toList, q ∈ a.toList ∨ q ∈ b.toList) → Repr s' (some x) o w := by
    intro w o hw hndw hpw hin
    have hq : ∀ q ∈ w.toList, q ∈ (plug c (.node a p b)).toList ∧ q ≠ p := fun q hq =>
      ⟨(hmem q).2 (.inl (.inr (hin q hq))), ne_of_mem_of_not_mem hq hpw⟩
    refine hw.reparent hndw (fun q hqw i => ?_) fun q hqw => ?_
    · rw [hi.child q (hq q hqw).1 (hq q hqw).2, if_neg fun he => hpw (hw.child_mem hqw he).1]
    · rw [hi.parent q (hq q hqw).1 (hq q hqw).2]
      rcases hw.parent_mem hqw with ⟨h1, h2⟩ | ⟨z, hz, h1, i, h2⟩
      · rw [if_pos h2, if_pos h1]
      · rw [if_neg, if_neg]
        · exact hw.child_ne_ptr (fun z hz => by cases hz; exact hpw) hz h2
        · rw [h1, Option.some.injEq]
          exact ne_of_mem_of_not_mem hz hpw
  refine h.put rfl hnd hi.root (fun q hq => ⟨?_, hi.child q ((hmem q).2 (.inr hq)) (by grind)⟩) ⟨rfl, hi.parent_x.trans hpar, ?_, ?_⟩
  · rw [hi.parent q ((hmem q).2 (.inr hq)) (by grind), if_neg fun he => ?_]
    -- The children of the node are below it.
    have hroot : Rooted s (plug c (.node a p b)).toList := ⟨hnd, _, h, rfl⟩
    obtain ⟨_, i, hch⟩ := hroot.parent_mem ((hmem q).2 (.inr hq)) he
    cases i with
    | false =>
      have := ha.ptr_mem hch
      grind
    | true =>
      have := hb.ptr_mem hch
      grind
  · rw [hi.child_x]
    exact hlift ha (by tauto) (by tauto) fun q hq => .inl hq
  · rw [hi.child_x]
    exact hlift hb (by tauto) (by tauto) fun q hq => .inr hq

/-! ## The nodes in order -/

namespace Rooted

variable {l : List α}

/-- A node that becomes a child of `p` where there was none is next to `p`. -/
theorem insert (h : Rooted s l) (hp : p ∈ l) (hnone : s.child p d = none) (hq : q ∉ l) (hi : Inserted s s' p q d l) :
    Rooted s' (insertBeside d p q l) := by
  have hnd := h.1
  obtain ⟨c, a, b, rfl, ht, ha, -⟩ := h.exists_place hp d
  obtain rfl : a = .leaf := by
    cases a with
    | leaf => rfl
    | node _ _ _ => cases ha.symm.trans hnone
  refine ⟨(insertBeside_perm d q hp).nodup_iff.2 (List.nodup_cons.2 ⟨hq, hnd⟩), _, ht.insert hnd hi, ?_⟩
  obtain ⟨l, r, hc⟩ := toList_plug c
  rw [hc] at hnd
  cases d with
  | false =>
    have hpl : p ∉ l := by simp [fork, Shape.toList, List.nodup_append] at hnd; grind
    rw [hc, hc, show l ++ (fork false .leaf p b).toList ++ r = l ++ p :: (b.toList ++ r) by simp [fork, Shape.toList],
      insertBeside_append _ _ hpl]
    simp [fork, Shape.toList]
  | true =>
    have hpl : p ∉ l ++ b.toList := by simp [fork, Shape.toList, List.nodup_append] at hnd; grind
    rw [hc, hc, show l ++ (fork true .leaf p b).toList ++ r = (l ++ b.toList) ++ p :: r by simp [fork, Shape.toList],
      insertBeside_append _ _ hpl]
    simp [fork, Shape.toList]

end Rooted

end PtrTree
