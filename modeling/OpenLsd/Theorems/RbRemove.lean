import OpenLsd.Lemmas.VmSpace

/-!
# Removal from red-black trees

`rb_remove` against what a removal is meant to be. The fix-up starts from the child that was to the left of the node, whichever
node has really been taken out and whatever color that one had, so it adds a black node where none is missing. And it follows
pointers that may be `NULL`.
-/

namespace OpenLsd

namespace RbTree

open PtrTree Shape

variable {s s' : RbTree} {c : Place} {t u near far : Colored} {p q n m fuel : Nat} {x : Nat × RbColor} {k k' : RbColor} {d : Bool}
  {f : Frame (Nat × RbColor)}

/-! ## Black heights -/

theorem height_blacken_none : height (blacken t) = none ↔ height t = none := by
  cases t with
  | leaf => rfl
  | node l x r =>
    show height (fork false l (x.1, .black) r) = none ↔ height (fork false l (x.1, x.2) r) = none
    rw [height_fork_none, height_fork_none]

theorem height_plug_none (c : Place) (h : height t = none) : height (plug c t) = none := by
  induction c generalizing t with
  | nil => exact h
  | cons f c ih => exact ih ((height_fork_none (k := f.node.2)).2 fun m hm => by rw [h] at hm; cases hm)

theorem Below.height_none (hb : Below t u) (h : height u = none) : height t = none := by
  obtain ⟨f, c, rfl⟩ := hb
  exact height_plug_none _ h

/-! ## The loop on a tree that is off balance -/

/-- The node and its sibling are even, and there are black nodes. -/
def Level (t : Colored) : Place → Prop
  | [] => False
  | f :: _ => ∃ m, height t = some (m + 1) ∧ height f.other = some (m + 1) ∧ NoRedRed f.other

/-- Subtrees around a place whose black heights are known. -/
def Even (c : Place) : Prop := ∀ f ∈ c, height f.other ≠ none

theorem Even.cons (h : Even c) (hf : height f.other ≠ none) : Even (f :: c) := by
  intro g hg
  rcases List.mem_cons.1 hg with rfl | hg
  · exact hf
  · exact h g hg

/-- The loop is at a node that is off balance, or even with its sibling. -/
def Off (s : RbTree) (n : Nat) : Prop :=
  ∃ c t, Draws s (plug c t) ∧ key t = some n ∧ (height t = none ∨ Level t c) ∧ Even c

def Unbalanced (s : RbTree) : Prop := ∃ u, Draws s u ∧ height u = none

/-- What is left of a turn when neither the tree that the loop goes on with nor the one it ends with can be balanced. -/
theorem SiblingOutcome.doomed {r : Option Turn} (ho : SiblingOutcome d t x near q far c r) (hc : Even c)
    (hup : height (fork d t x (fork d near (q, .red) far)) = none) (hlast : height (fork d t (x.1, .black) near) = none)
    (hnear : height near = some m) (hfar : height far = some m) : TurnGoes r Off Unbalanced := by
  have hends : ∀ {v : Colored}, Finishes r c (fork d t x (fork d near (q, .red) far)) v → height v = none →
      TurnGoes r Off Unbalanced := by
    rintro v ⟨turn, s', u, hr, hend, hd, hb, -⟩ hv
    exact .inr (.inr ⟨turn, s', hr, hend, u, hd, hb.height_none hv⟩)
  cases ho with
  | up hn hf h => exact .inr (.inl ⟨_, _, rfl, c, _, h, by simp, .inl hup, hc⟩)
  | last hf h => exact hends h hlast
  | third hn hf hok h =>
    refine hends h (height_fork_none.2 fun a ha hfar' => ?_)
    rw [height_blacken_red hn hnear] at ha
    rw [hfar] at hfar'
    cases ha
    simp at hfar'
  | null => exact .inl rfl

theorem removeTurn_doomed (h : Draws s (plug c (fork d t (p, k) u))) (ht : key t = some n)
    (hbad : height t = none ∨ Level t (⟨d, (p, k), u⟩ :: c)) (hc : Even (⟨d, (p, k), u⟩ :: c)) :
    TurnGoes (s.removeTurn n p) Off Unbalanced := by
  have hu : height u ≠ none := hc ⟨d, (p, k), u⟩ (by simp)
  have hrest : Even c := fun f hf => hc f (by simp [hf])
  -- a subtree with one black node less than the sibling does not go with the node
  have huneven : ∀ {w : Colored} {a : Nat} {k : RbColor}, height u = some (a + 1) → height w = some a →
      height (fork d t (p, k) w) = none := by
    intro w a k hs hw
    rw [height_fork_none]
    intro b hb hwb
    rcases hbad with hbad | ⟨m, hm, hs', -⟩
    · rw [hbad] at hb
      cases hb
    · rw [show height u = some (m + 1) from hs', Option.some.injEq] at hs
      rw [hm, Option.some.injEq] at hb
      rw [hw, Option.some.injEq] at hwb
      omega
  have ho := removeTurn_outcome h ht
  generalize s.removeTurn n p = r at ho
  cases ho with
  | leaf =>
    rcases hbad with hbad | ⟨m, -, hm, -⟩
    · refine .inr (.inr ⟨_, _, rfl, .stop s n, _, Draws.blackenTop (c := ⟨d, (p, k), .leaf⟩ :: c) h ht, ?_⟩)
      exact height_plug_none _ (height_blacken_none.2 hbad)
    · cases hm
  | @black near far q _ ho =>
    obtain ⟨a, ha⟩ := Option.ne_none_iff_exists'.1 hu
    obtain ⟨b, hnear, hfar, hab⟩ := height_fork.1 ha
    simp only [if_true] at hab
    rw [hab] at ha
    have hred : height (fork d near (q, .red) far) = some b := height_fork.2 ⟨b, hnear, hfar, by simp⟩
    exact ho.doomed hrest (huneven ha hred) (huneven ha hnear) hnear hfar
  | redNull => exact .inl rfl
  | @red nn nf far q m km _ ho =>
    obtain ⟨a, ha⟩ := Option.ne_none_iff_exists'.1 hu
    obtain ⟨b, hnear, hfar, hab⟩ := height_fork.1 ha
    obtain ⟨e, hnn, hnf, hbe⟩ := height_fork.1 hnear
    have hred : height (fork d nn (m, .red) nf) = some e := height_fork.2 ⟨e, hnn, hnf, by simp⟩
    -- a black child of the red sibling has as many black nodes as the sibling
    have hone : ∀ {w : Colored} {k : RbColor}, height w = some e → height (fork d t (p, k) w) = none := by
      intro w k hw
      rcases hbad with hbad | ⟨m', hm, hs, hnr⟩
      · exact height_fork_none.2 fun _ hm => by rw [hbad] at hm; cases hm
      · have hkm : km = .black := by
          have := ((noRedRed_fork.1 hnr).1 rfl).1
          rw [red_fork, decide_eq_false_iff_not] at this
          cases km <;> simp_all
        refine huneven ?_ hw
        rw [ha, hab, hbe, hkm]
        simp
    exact ho.doomed (hrest.cons (by rw [hfar]; exact Option.some_ne_none _)) (hone hred) (hone hnn) hnn hnf

/-- From a node that is off balance, or that is even with its sibling, the loop leaves a tree that is not balanced. -/
theorem removeLoop_doomed (h : Off s n) (he : s.removeLoop m n = some s') : Unbalanced s' := by
  refine removeLoop_rule (I := Off) (Q := Unbalanced) ?_ ?_ h he
  · rintro s n p ⟨c, t, h, ht, hbad, hc⟩ hpar
    rcases h.above ht with ⟨-, hnone⟩ | ⟨d, p', k, sib, c', rfl, hpar', h'⟩
    · rw [hpar] at hnone
      cases hnone
    · cases hpar.symm.trans hpar'
      exact removeTurn_doomed h' ht hbad hc
  · rintro s n ⟨c, t, h, ht, hbad, -⟩ hpar
    rcases h.above ht with ⟨rfl, -⟩ | ⟨d, p, k, sib, c', rfl, hpar', -⟩
    · exact ⟨_, h.blackenTop ht, height_blacken_none.2 (hbad.resolve_right id)⟩
    · rw [hpar] at hpar'
      cases hpar'

/-! ## Trees with and without the node -/

theorem height_sub (h : height (plug c t) ≠ none) : height t ≠ none := mt (height_plug_none c) h

theorem even_of_height (h : height (plug c t) ≠ none) : Even c := by
  induction c generalizing t with
  | nil => exact fun f hf => by cases hf
  | cons f c ih =>
    intro g hg
    rcases List.mem_cons.1 hg with rfl | hg
    · intro hnone
      refine height_sub (c := c) h ((height_fork_none (k := g.node.2)).2 fun m _ hm => ?_)
      rw [hnone] at hm
      cases hm
    · exact ih h g hg

/-- The black height in a place is that of the tree beside it. -/
theorem height_other (h : height (plug (f :: c) t) ≠ none) : height t = height f.other := by
  obtain ⟨a, ha⟩ := Option.ne_none_iff_exists'.1 (height_sub (c := c) h)
  obtain ⟨m, h1, h2, -⟩ := (height_fork (k := f.node.2)).1 ha
  rw [h1, h2]

theorem noRedRed_sub (h : NoRedRed (plug c t)) : NoRedRed t ∧ ∀ f ∈ c, NoRedRed f.other := by
  induction c generalizing t with
  | nil => exact ⟨h, fun f hf => by cases hf⟩
  | cons f c ih =>
    obtain ⟨h1, h2⟩ := ih h
    obtain ⟨-, ht, ho⟩ := (noRedRed_fork (k := f.node.2)).1 h1
    refine ⟨ht, fun g hg => ?_⟩
    rcases List.mem_cons.1 hg with rfl | hg
    · exact ho
    · exact h2 g hg

/-- Another subtree with the same black height may stand in a place. -/
theorem redBlack_plug (h : RedBlack (plug c t)) (hu : NoRedRed u) (hred : red u = true → red t = true)
    (hh : height u = height t) : RedBlack (plug c u) := by
  obtain ⟨n, hf, ht, htop⟩ := exists_balanced_plug.1 (redBlack_iff.1 h).2
  refine redBlack_iff.2 ⟨?_, exists_balanced_plug.2 ⟨n, hf, ⟨hu, hh.trans ht.2⟩, fun hr => htop (hred hr)⟩⟩
  cases c with
  | nil => exact Bool.eq_false_iff.2 fun hr => Bool.eq_false_iff.1 h.root (hred hr)
  | cons f c => exact (red_plug_eq f c u).2 ((red_plug_eq f c t).1 h.root)

theorem red_of_height_zero (h : height t = some 0) (hne : t ≠ .leaf) : red t = true := by
  obtain ⟨a, p, k, b, rfl⟩ := exists_fork_of_ne hne false
  obtain ⟨m, -, -, hm⟩ := height_fork.1 h
  cases k with
  | red => simp
  | black => simp at hm

/-- Below a red node without black nodes there is nothing. -/
theorem red_leaf_of_height_zero {a b : Colored} (hh : height (.node a x b) = some 0) (hn : NoRedRed (.node a x b)) :
    Shape.node a x b = .node .leaf (x.1, .red) .leaf := by
  obtain ⟨m, ha, hb, hm⟩ := (height_fork (d := false) (k := x.2)).1 hh
  have hx : x.2 = .red := by
    cases hk : x.2 with
    | red => rfl
    | black => simp [hk] at hm
  obtain rfl : m = 0 := by omega
  obtain ⟨hra, hrb⟩ := hn.1 hx
  have hleaf : ∀ {w : Colored}, height w = some 0 → red w = false → w = .leaf := by
    intro w hw hr
    by_contra hne
    rw [red_of_height_zero hw hne] at hr
    cases hr
  rw [hleaf ha hra, hleaf hb hrb, ← hx]

/-! ## The three properties -/

/-- A node with one child: the child is red, and becomes black in the place of the node. -/
theorem rbRemove_one_redBlack (h : Draws s (plug c (fork d .leaf (p, k) t))) (hrb : RedBlack (plug c (fork d .leaf (p, k) t)))
    (ht : t ≠ .leaf) : ∃ s' u, s.rbRemove 1 p = some s' ∧ Draws s' u ∧ RedBlack u := by
  obtain ⟨m, hm⟩ := Option.ne_none_iff_exists'.1 (height_sub hrb.height)
  obtain ⟨m', h0, hh, hmk⟩ := height_fork.1 hm
  obtain rfl : 0 = m' := Option.some.inj h0
  obtain ⟨hk, -, hn⟩ := noRedRed_fork.1 (noRedRed_sub hrb.noRedRed).1
  have hred := red_of_height_zero hh ht
  have hblack : k = .black := by
    cases k with
    | black => rfl
    | red => simp [hred] at hk
  obtain ⟨a, y, ky, b, rfl⟩ := exists_fork_of_ne ht false
  obtain ⟨s1, h1, he⟩ := rbRemove_one (n := 0) h
  have hky : ky = .red := by simpa using hred
  rw [if_pos hky] at he
  refine ⟨_, _, he, h1.setColor .black, redBlack_plug hrb ?_ (by simp) ?_⟩
  · exact noRedRed_fork.2 ⟨fun hb => (by cases hb), (noRedRed_fork.1 hn).2⟩
  · rw [hm, hmk, hblack, ← blacken_fork false a y ky b, height_blacken_red hred hh]
    simp

/-- The removals that leave a red-black tree: of a red node without children, of the only node, of a node with one child, and of a
root whose two children are red and have no children. -/
def Harmless (c : Place) (a : Colored) (k : RbColor) (b : Colored) : Prop :=
  (a = .leaf ∧ b = .leaf ∧ (k = .red ∨ c = [])) ∨ (a = .leaf ∧ b ≠ .leaf) ∨ (a ≠ .leaf ∧ b = .leaf) ∨
    (c = [] ∧ ∃ x y, a = .node .leaf (x, .red) .leaf ∧ b = .node .leaf (y, .red) .leaf)

variable {a b : Colored}

theorem rbRemove_harmless (h : Draws s (plug c (.node a (p, k) b))) (hrb : RedBlack (plug c (.node a (p, k) b)))
    (hc : Harmless c a k b) : ∃ fuel s' u, s.rbRemove fuel p = some s' ∧ Draws s' u ∧ RedBlack u := by
  rcases hc with ⟨rfl, rfl, hc⟩ | ⟨rfl, hb⟩ | ⟨ha, rfl⟩ | ⟨rfl, x, y, rfl, rfl⟩
  · obtain ⟨s1, he, h1⟩ := rbRemove_leaf (n := 0) h
    refine ⟨_, s1, _, he, h1, ?_⟩
    rcases hc with rfl | rfl
    · exact redBlack_plug hrb trivial (fun h => by cases h) rfl
    · exact ⟨rfl, trivial, Option.some_ne_none 0⟩
  · exact ⟨1, rbRemove_one_redBlack (d := false) h hrb hb⟩
  · exact ⟨1, rbRemove_one_redBlack (d := true) h hrb ha⟩
  · obtain ⟨s1, h1, he⟩ := rbRemove_two (n := 2) h (by simp [Shape.toList])
    have h1 : Draws s1 (fork false .leaf (x, .black) (.node .leaf (y, .red) .leaf)) := h1
    obtain ⟨hpar, -, -, hcol⟩ := Draws.read (c := []) h1
    rw [if_neg (by simp [hcol]), removeLoop, show (s1.node x).parent = none from hpar] at he
    refine ⟨_, _, _, he, Draws.blackenTop (c := []) (t := fork false .leaf (x, .black) _) h1 (key_fork ..), rfl, ?_, ?_⟩
    · simp [plug, blacken, fork, NoRedRed]
    · simp [plug, blacken, fork, height]

/-- A black node without children, and not the only one, leaves a path with a black node less. -/
theorem rbRemove_leaf_doomed (h : Draws s (plug c (.node .leaf (p, .black) .leaf)))
    (hrb : RedBlack (plug c (.node .leaf (p, .black) .leaf))) (hc : c ≠ []) (he : s.rbRemove (n + 1) p = some s') :
    ∃ u, Draws s' u ∧ height u = none := by
  obtain ⟨s1, he1, h1⟩ := rbRemove_leaf (n := n) h
  cases he1.symm.trans he
  refine ⟨_, h1, ?_⟩
  by_contra hh
  cases c with
  | nil => exact hc rfl
  | cons f c =>
    have heq := (height_other hh).trans (height_other hrb.height).symm
    cases heq

theorem rbRemove_two_doomed {l r a b : Colored} {y z : Nat × RbColor}
    (h : Draws s (plug c (.node (.node l y r) (p, k) (.node a z b))))
    (hrb : RedBlack (plug c (.node (.node l y r) (p, k) (.node a z b)))) (hn : r.toList.length + 1 < n)
    (he : s.rbRemove (n + 1) p = some s') : Harmless c (.node l y r) k (.node a z b) ∨ ∃ u, Draws s' u ∧ height u = none := by
  obtain ⟨s1, h1, he1⟩ := rbRemove_two h hn
  rw [he1] at he
  -- the black heights around the node
  obtain ⟨m0, hm0⟩ := Option.ne_none_iff_exists'.1 (height_sub hrb.height)
  obtain ⟨m, hleft, hright, hm⟩ := (height_fork (d := false)).1 hm0
  obtain ⟨m', hl, hr, hmy⟩ := (height_fork (d := false) (k := y.2)).1 hleft
  have hnr := (noRedRed_sub hrb.noRedRed).1
  have heven := even_of_height hrb.height
  cases r with
  | leaf =>
    -- the left child is the node before, and stands in the place of the node
    obtain rfl : 0 = m' := Option.some.inj hr
    have h1 : Draws s1 (plug c (fork false l (y.1, .black) (.node a z b))) := h1
    rw [if_neg (by simp [h1.read.2.2.2])] at he
    have hblack : y.2 = .black → height (fork false l (y.1, .black) (.node a z b)) = none := by
      intro hy
      rw [height_fork_none, hl, hright, hmy, hy]
      simp
    cases c with
    | nil =>
      rw [removeLoop, show (s1.node y.1).parent = none from h1.read.1] at he
      cases he
      cases hy : y.2 with
      | black =>
        exact .inr ⟨_, Draws.blackenTop (c := []) (t := fork false l (y.1, .black) (.node a z b)) h1 (key_fork ..),
          height_blacken_none.2 (hblack hy)⟩
      | red =>
        obtain rfl : m = 0 := by simpa [hy] using hmy
        exact .inl (.inr (.inr (.inr ⟨rfl, y.1, z.1, red_leaf_of_height_zero hleft hnr.2.1,
          red_leaf_of_height_zero hright hnr.2.2⟩)))
    | cons f c =>
      refine .inr (removeLoop_doomed ⟨_, _, h1, key_fork .., ?_, heven⟩ he)
      cases hy : y.2 with
      | black => exact .inl (hblack hy)
      | red =>
        have hk : k = .black := by
          cases k with
          | black => rfl
          | red =>
            have := (hnr.1 rfl).1
            rw [show Shape.node l y .leaf = fork false l (y.1, y.2) .leaf from rfl, red_fork, hy] at this
            simp at this
        obtain rfl : m = 0 := by simpa [hy] using hmy
        refine .inr ⟨0, height_fork.2 ⟨0, hl, hright, by simp⟩, ?_, (noRedRed_sub hrb.noRedRed).2 f (by simp)⟩
        rw [← height_other hrb.height, hm0, hm, hk]
        rfl
  | node l2 y2 r2 =>
    generalize htake : takeLast l2 y2 r2 = w at h1
    have h1 : Draws s1 (plug (⟨false, (w.2.1, .black), .node a z b⟩ :: c) (fork false l (y.1, y.2) w.1)) := by
      simp only [takeLast, htake] at h1
      exact h1
    have hcol := h1.read.2.2.2
    cases hy : y.2 with
    | red =>
      rw [if_pos (hcol.trans hy)] at he
      cases he
      refine .inr ⟨_, h1.setColor .black, height_plug_none c ?_⟩
      -- the red child has become black, beside a subtree that has stayed as it was
      refine (height_fork_none (d := false)).2 fun e he' hz => ?_
      obtain ⟨e', hl', -, hee⟩ := height_fork.1 he'
      rw [hl, Option.some.injEq] at hl'
      rw [hright, Option.some.injEq] at hz
      simp [hy] at hmy hee
      omega
    | black =>
      rw [hcol, hy, if_neg (by simp)] at he
      rw [hy] at h1
      refine .inr (removeLoop_doomed ⟨_, _, h1, key_fork .., ?_, heven.cons ?_⟩ he)
      · cases hh : height (fork false l (y.1, .black) w.1) with
        | none => exact .inl rfl
        | some e =>
          obtain ⟨e', hl', -, hee⟩ := height_fork.1 hh
          cases hl.symm.trans hl'
          rw [hy] at hmy
          refine .inr ⟨m', by rw [hh, hee]; simp, ?_, hnr.2.2⟩
          simpa [hmy] using hright
      · rw [show height _ = some m from hright]
        exact Option.some_ne_none _

/-- Let `p` be a node of a red-black tree, with the subtrees `a` and `b` in the place `c`. `rb_remove` returns and leaves a
red-black tree of the other nodes if and only if the removal is harmless. -/
theorem rbRemove_redBlack_iff (h : Draws s (plug c (.node a (p, k) b))) (hrb : RedBlack (plug c (.node a (p, k) b))) :
    (∃ fuel s' u, s.rbRemove fuel p = some s' ∧ Draws s' u ∧ RedBlack u ∧
      u.toList.map Prod.fst = ((plug c (.node a (p, k) b)).toList.map Prod.fst).erase p) ↔ Harmless c a k b := by
  constructor
  · rintro ⟨fuel, s', u, he, hu, hrbu, -⟩
    by_contra hno
    -- with more turns than are needed
    have hle : fuel ≤ fuel + (a.toList.length + 2) + 1 := by omega
    have he := rbRemove_mono he hle
    suffices hbad : ∃ u, Draws s' u ∧ height u = none by
      obtain ⟨u', hu', hh⟩ := hbad
      rw [hu.unique hu'] at hrbu
      exact hrbu.height hh
    cases a with
    | leaf =>
      cases b with
      | leaf =>
        have hk : k = .black ∧ c ≠ [] := by
          refine ⟨?_, fun hc => hno (.inl ⟨rfl, rfl, .inr hc⟩)⟩
          cases k with
          | black => rfl
          | red => exact absurd (.inl ⟨rfl, rfl, .inl rfl⟩) hno
        obtain ⟨rfl, hc⟩ := hk
        exact rbRemove_leaf_doomed h hrb hc he
      | node _ _ _ => exact absurd (.inr (.inl ⟨rfl, nofun⟩)) hno
    | node l y r =>
      cases b with
      | leaf => exact absurd (.inr (.inr (.inl ⟨nofun, rfl⟩))) hno
      | node a' z b' =>
        refine (rbRemove_two_doomed h hrb ?_ he).resolve_left hno
        simp only [Shape.toList, List.length_append, List.length_cons]
        omega
  · intro hc
    obtain ⟨fuel, s', u, he, hu, hrbu⟩ := rbRemove_harmless h hrb hc
    refine ⟨fuel, s', u, he, hu, hrbu, ?_⟩
    have hp : p ∈ (plug c (.node a (p, k) b)).toList.map Prod.fst := List.mem_map.2 ⟨(p, k), by simp [Shape.toList], rfl⟩
    obtain ⟨-, v, hv, hl⟩ := (rbRemove_spec (h.holds hrb.root) hp he).tree
    rw [← hl, ← toList_map, hu.repr.unique hv]

/-- Three black nodes, the node 1 above the others. -/
def threeBlack : RbTree where
  node := fun p => ⟨if p = 1 then none else some 1, fun d => if p = 1 then (if d then some 2 else some 0) else none, .black⟩
  root := some 1

/-- When the left one of three black nodes is removed, there is a path with one black node and another one with two. -/
theorem rbRemove_loses_balance :
    Draws threeBlack (.node (.node .leaf (0, .black) .leaf) (1, .black) (.node .leaf (2, .black) .leaf)) ∧
    RedBlack (.node (.node .leaf (0, .black) .leaf) (1, .black) (.node .leaf (2, .black) .leaf)) ∧
    ∃ s', threeBlack.rbRemove 8 0 = some s' ∧ Draws s' (.node .leaf (1, .black) (.node .leaf (2, .black) .leaf)) ∧
      height (.node .leaf (1, .black) (.node .leaf (2, .black) .leaf)) = none := by
  have h : Draws threeBlack (.node (.node .leaf (0, .black) .leaf) (1, .black) (.node .leaf (2, .black) .leaf)) := by
    refine ⟨?_, by decide, by decide⟩
    simp [Shape.map, PtrTree.Repr, links, threeBlack]
  obtain ⟨s', he, h'⟩ := rbRemove_leaf (c := [⟨false, (1, .black), .node .leaf (2, .black) .leaf⟩]) (n := 7) h
  refine ⟨h, ⟨rfl, by simp [NoRedRed], by decide⟩, s', he, h', by decide⟩

/-- A red node below a black one. -/
def redBelow : RbTree where
  node := fun p => ⟨if p = 1 then none else some 1, fun d => if p = 1 ∧ d = true then some 2 else none, if p = 1 then .black else .red⟩
  root := some 1

theorem rbRemove_redBlack_redBelow : ∃ fuel s' u, redBelow.rbRemove fuel 1 = some s' ∧ Draws s' u ∧ RedBlack u ∧
    u.toList.map Prod.fst = [2] := by
  have h : Draws redBelow (.node .leaf (1, .black) (.node .leaf (2, .red) .leaf)) := by
    refine ⟨?_, by decide, by decide⟩
    simp [Shape.map, PtrTree.Repr, links, redBelow]
  have hrb : RedBlack (.node .leaf (1, .black) (.node .leaf (2, .red) .leaf)) := ⟨rfl, by simp [NoRedRed], by decide⟩
  exact (rbRemove_redBlack_iff (c := []) h hrb).2 (.inr (.inl ⟨rfl, by simp⟩))

end RbTree

end OpenLsd
