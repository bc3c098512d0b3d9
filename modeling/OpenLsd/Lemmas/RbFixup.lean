import OpenLsd.Lemmas.RbColors

/-!
# The loop of `rb_remove`

What a turn of the loop does to the tree, for a node in a place whose innermost frame has the parent of the node and its sibling:
the loop goes on higher up, or it comes to an end and leaves a tree in which a certain subtree has been made, or it follows a
`NULL` pointer. All that is said of the loop is said from these outcomes.
-/

namespace OpenLsd

namespace RbTree

open PtrTree Shape

variable {s s' : RbTree} {c : Place} {t u near far : Colored} {p q n m : Nat} {x : Nat × RbColor} {k k' : RbColor} {d : Bool}
  {l : List Nat}

/-! ## Subtrees -/

/-- The tree has `u` as a subtree, not at its root. -/
def Below (t u : Colored) : Prop := ∃ f c, t = plug (f :: c) u

theorem below_plug (f : Frame (Nat × RbColor)) (c : Place) (u : Colored) : Below (plug (f :: c) u) u := ⟨f, c, rfl⟩

theorem Below.blacken (h : Below t u) : Below (blacken t) u := by
  obtain ⟨f, c, rfl⟩ := h
  induction c generalizing f u with
  | nil => exact ⟨⟨f.side, (f.node.1, .black), f.other⟩, [], blacken_fork ..⟩
  | cons g c ih =>
    obtain ⟨g', c', h⟩ := ih g (u := fork f.side u f.node f.other)
    exact ⟨f, g' :: c', h⟩

theorem plug_fork_ne (c : Place) (d : Bool) (t : Colored) (x : Nat × RbColor) (u : Colored) : plug c (fork d t x u) ≠ .leaf := by
  induction c generalizing d t x u with
  | nil => cases d <;> exact fun h => by cases h
  | cons f c ih => exact ih f.side (fork d t x u) f.node f.other

/-! ## The end of the loop -/

/-- After the turn the loop ends, with the tree `s'`. -/
inductive Turn.Ends : Turn → RbTree → Prop
  | stop (s : RbTree) (node : Nat) : Ends (.stop s node) (s.setColor node .black)
  | root (s : RbTree) (node : Nat) (h : (s.node node).parent = none) : Ends (.next s node) (s.setColor node .black)

/-- The rotation with which the loop ends. -/
theorem lastRotation_draws (h : Draws s (plug c (fork d t (p, k) (fork d near (q, k') far)))) (hfar : far ≠ .leaf) :
    ∃ s1 r, s.lastRotation p q (!d) = some (.next s1 r) ∧ s1.root = some r ∧
      Draws s1 (plug c (fork d (fork d t (p, .black) near) (q, k) (blacken far))) := by
  obtain ⟨fa, f, kf, fb, rfl⟩ := exists_fork_of_ne hfar d
  have hcol := h.read.2.2.2
  -- the sibling gets the color of the parent, the parent and the far nephew become black
  have h1 : Draws (s.setColor q k) (plug c (fork d t (p, k) (fork d near (q, k) (fork d fa (f, kf) fb)))) := by
    rw [← plug_other] at h ⊢
    exact h.setColor k
  have h2 := h1.setColor .black
  have hchild : (((s.setColor q k).setColor p .black).node q).child (!d) = some f := by
    rw [← plug_other] at h2
    exact h2.read.2.2.1.trans (by simp)
  have h3 : Draws (((s.setColor q k).setColor p .black).setColor f .black)
      (plug c (fork d t (p, .black) (fork d near (q, k) (fork d fa (f, .black) fb)))) := by
    rw [← plug_other, ← plug_other] at h2 ⊢
    exact h2.setColor .black
  obtain ⟨s1, he, h4⟩ := h3.rotate
  obtain ⟨r, hr⟩ := Option.ne_none_iff_exists'.1 (fun hnone => plug_fork_ne _ _ _ _ _ (key_eq_none.1 (h4.root ▸ hnone)) :
    s1.root ≠ none)
  refine ⟨s1, r, ?_, hr, by rwa [blacken_fork]⟩
  simp only [lastRotation, hcol, hchild, Bool.not_not, Option.bind_eq_bind, Option.bind_some, Option.pure_def]
  rw [he]
  simp only [Option.bind_some, hr]

/-- A turn that comes to the last rotation ends the loop, and what was made of the place of the parent is still there. -/
theorem lastRotation_ends (h : Draws s (plug c (fork d t (p, k) (fork d near (q, k') far)))) (hfar : far ≠ .leaf) :
    ∃ turn s' u, s.lastRotation p q (!d) = some turn ∧ turn.Ends s' ∧ Draws s' u ∧ Below u (fork d t (p, .black) near) ∧
      (∀ v, Below (blacken far) v → Below u v) ∧ keys u = keys (plug c (fork d t (p, k) (fork d near (q, k') far))) ∧
      red u = false := by
  obtain ⟨s1, r, he, hr, h1⟩ := lastRotation_draws h hfar
  refine ⟨_, _, _, he, .root s1 r ?_, Draws.blackenTop (c := []) h1 (h1.root ▸ hr), Below.blacken (below_plug ⟨d, (q, k), _⟩ c _), ?_, ?_,
    red_blacken _⟩
  · exact (h1.rooted.root_mem hr).2
  · rintro v ⟨f, c', hv⟩
    refine Below.blacken ?_
    rw [← plug_other, hv, ← plug_append]
    exact ⟨f, _, rfl⟩
  · refine (keys_blacken _).trans (keys_plug_congr c ?_)
    cases d <;> simp [keys_fork]

/-- The loop ends with this turn. It leaves a tree of the nodes of `t` and of those around it, with a black root, and with `v` as a
subtree. -/
def Finishes (r : Option Turn) (c : Place) (t v : Colored) : Prop :=
  ∃ turn s' u, r = some turn ∧ turn.Ends s' ∧ Draws s' u ∧ Below u v ∧ keys u = keys (plug c t) ∧ (RootBlack c → red u = false)

/-! ## A turn -/

/-- The rotation of the parent towards its sibling is followed by one above it for which there is a child: the place of the parent
is on the side of the sibling, or there is no uncle on that side, or the uncle has a far child. -/
def UncleOk (d : Bool) : Place → Prop
  | [] => True
  | f :: _ => f.side = d → f.other = .leaf ∨ f.other.sub (!d) ≠ .leaf

/-- How a turn goes on once the sibling has two black children, or counts as black: `t` is on the side `d` of the parent `x`, and
the sibling `q`, with its near and far subtrees, on the other side. -/
inductive SiblingOutcome (d : Bool) (t : Colored) (x : Nat × RbColor) (near : Colored) (q : Nat) (far : Colored) (c : Place) :
    Option Turn → Prop
  /-- The sibling becomes red, and the loop goes on with the parent. -/
  | up {s' : RbTree} (hn : red near = false) (hf : red far = false)
      (h : Draws s' (plug c (fork d t x (fork d near (q, .red) far)))) : SiblingOutcome d t x near q far c (some (.next s' x.1))
  /-- The far nephew is red: the sibling takes the place of the parent. -/
  | last {r : Option Turn} (hf : red far = true)
      (h : Finishes r c (fork d t x (fork d near (q, .red) far)) (fork d t (x.1, .black) near)) : SiblingOutcome d t x near q far c r
  /-- Only the near nephew is red: the node takes the place of its parent, and the sibling stays above its children. -/
  | third {r : Option Turn} (hn : red near = true) (hf : red far = false) (hok : UncleOk d c)
      (h : Finishes r c (fork d t x (fork d near (q, .red) far)) (fork d (blacken near) (q, .red) far)) :
      SiblingOutcome d t x near q far c r
  | null (hn : red near = true) (hf : red far = false) (hno : ¬UncleOk d c) : SiblingOutcome d t x near q far c none

/-- The rest of the third case, behind its rotation. -/
def uncleTurn (s : RbTree) (node : Nat) (dir : Bool) : Option Turn :=
  match (s.node node).parent with
  | none => some (.stop s node)
  | some parent => match (s.node parent).child dir with
    | none => some (.stop s node)
    | some sibling => s.lastRotation parent sibling dir

section UncleTurn

variable {a b v : Colored} {y : Nat × RbColor}

theorem below_inner (c : Place) (d : Bool) (a : Colored) (y : Nat × RbColor) (b : Colored) (x : Nat × RbColor) (v : Colored) :
    Below (plug c (fork d a y (fork d b x v))) v := by
  rw [← plug_other, ← plug_other]
  exact below_plug _ _ _

section

variable (h : Draws s (plug c (fork d a (n, k) (fork d b x v))))

include h

theorem uncleTurn_stop (he : s.uncleTurn n (!d) = some (.stop s n)) :
    Finishes (s.uncleTurn n (!d)) c (fork d a (n, k) (fork d b x v)) v :=
  ⟨_, _, _, he, .stop s n, h.setColor .black, below_inner .., keys_plug_congr c (by simp [keys_fork]),
    fun hc => hc.red_plug (by simp)⟩

/-- The node is above its former parent `x`, whose subtree `v` stays. -/
theorem uncleTurn_ends (hok : UncleOk d c) : Finishes (s.uncleTurn n (!d)) c (fork d a (n, k) (fork d b x v)) v := by
  have hpar := h.read.1
  cases c with
  | nil =>
    refine uncleTurn_stop h ?_
    rw [uncleTurn, hpar]
    rfl
  | cons f c =>
    have hpar : (s.node n).parent = some f.node.1 := hpar
    obtain ⟨side, ⟨g, kg⟩, other⟩ := f
    by_cases hside : side = d
    · -- the uncle is the sibling of the next rotation
      subst hside
      have hf : Draws s (plug c (fork side (fork side a (n, k) (fork side b x v)) (g, kg) other)) := h
      have hchild := hf.read.2.2.1
      by_cases hleaf : other = .leaf
      · refine uncleTurn_stop h ?_
        simp only [uncleTurn, hpar, hchild, hleaf, key_leaf]
      · obtain ⟨un, w, kw, uf, rfl⟩ := exists_fork_of_ne hleaf side
        have hfar : uf ≠ .leaf := by simpa using (hok rfl).resolve_left hleaf
        obtain ⟨turn, s', u, he, hend, hd, ⟨f1, c1, hb⟩, -, hkeys, hred⟩ := lastRotation_ends hf hfar
        refine ⟨turn, s', u, by simp only [uncleTurn, hpar, hchild, key_fork, he], hend, hd, ?_, hkeys, fun _ => hred⟩
        rw [hb]
        exact below_inner (⟨side, (g, .black), un⟩ :: f1 :: c1) side a (n, k) b x v
    · -- the node itself is
      obtain rfl : side = !d := by cases side <;> cases d <;> simp_all
      have hf : Draws s (plug c (fork d other (g, kg) (fork d a (n, k) (fork d b x v)))) := by
        rw [← fork_not]
        exact h
      have hchild := hf.read.2.2.1
      obtain ⟨turn, s', u, he, hend, hd, -, hb, hkeys, hred⟩ := lastRotation_ends hf (plug_fork_ne [] d b x v)
      refine ⟨turn, s', u, by simp only [uncleTurn, hpar, hchild, key_fork, he], hend, hd, hb v ?_, ?_, fun _ => hred⟩
      · rw [show x = (x.1, x.2) from rfl, blacken_fork, show fork d b (x.1, .black) v = plug [⟨!d, (x.1, .black), b⟩] v from
          (fork_not d v _ b).symm]
        exact below_plug _ _ _
      · rw [hkeys, plug_other]

/-- The rotation reads a node that is not there. -/
theorem uncleTurn_null (hno : ¬UncleOk d c) : s.uncleTurn n (!d) = none := by
  cases c with
  | nil => exact absurd trivial hno
  | cons f c =>
    have hpar : (s.node n).parent = some f.node.1 := h.read.1
    simp only [UncleOk, Classical.not_imp, not_or, not_not] at hno
    obtain ⟨hside, hleaf, hfar⟩ := hno
    obtain ⟨un, w, kw, uf, huncle⟩ := exists_fork_of_ne hleaf d
    rw [huncle, sub_fork_not] at hfar
    have hf : Draws s (plug c (fork d (fork d a (n, k) (fork d b x v)) (f.node.1, f.node.2) (fork d un (w, kw) .leaf))) := by
      rw [← hfar, ← huncle]
      exact hside ▸ h
    have hchild := hf.read.2.2.1
    have hw : (s.node w).child (!d) = none := by
      rw [← plug_other] at hf
      exact hf.read.2.2.1
    have hlinks : ∀ k1 k2, (((s.setColor w k1).setColor f.node.1 k2).node w).child (!d) = none := by
      intro k1 k2
      have := congrArg (fun l => l.child w (!d)) (show ((s.setColor w k1).setColor f.node.1 k2).links = s.links by simp)
      exact this.trans hw
    simp only [uncleTurn, hpar, hchild, key_fork, lastRotation, hlinks, Option.bind_eq_bind, Option.bind_none]

end

end UncleTurn

/-- A turn with a black sibling. -/
theorem blackSibling_outcome (h : Draws s (plug c (fork d t (p, k) (fork d near (q, k') far)))) (ht : key t = some n) :
    SiblingOutcome d t (p, k) near q far c (s.blackSibling n p q (!d)) := by
  have hq : Draws s (plug (⟨!d, (p, k), t⟩ :: c) (fork d near (q, k') far)) := by rwa [plug_other]
  obtain ⟨-, hnear, hfar, -⟩ := hq.read
  have hnr : s.isRed (key near) = red near := Draws.isRed (c := ⟨d, (q, k'), far⟩ :: ⟨!d, (p, k), t⟩ :: c) hq
  have hfr : s.isRed (key far) = red far := by
    refine Draws.isRed (c := ⟨!d, (q, k'), near⟩ :: ⟨!d, (p, k), t⟩ :: c) ?_
    rwa [plug_other]
  unfold blackSibling
  simp only [Bool.not_not, hnear, hfar, hnr, hfr, Bool.not_eq_true']
  by_cases hboth : red near = false ∧ red far = false
  · rw [if_pos hboth]
    have h' := hq.setColor .red
    rw [plug_other] at h'
    exact .up hboth.1 hboth.2 h'
  · rw [if_neg hboth]
    by_cases hf : red far = true
    · rw [if_pos hf]
      obtain ⟨turn, s', u, he, hend, hd, hb, -, hkeys, hred⟩ := lastRotation_ends h (red_ne_leaf hf)
      refine .last hf ⟨turn, s', u, he, hend, hd, hb, hkeys.trans (keys_plug_congr c ?_), fun _ => hred⟩
      cases d <;> simp [keys_fork]
    · rw [if_neg hf]
      have hf : red far = false := by simpa using hf
      have hn : red near = true := by simpa [hf] using hboth
      -- the sibling becomes red and its near child black, then the node takes the place of its parent
      obtain ⟨na, m, km, nb, rfl⟩ := exists_fork_of_ne (red_ne_leaf hn) d
      obtain ⟨ta, n', kn, tb, rfl⟩ := exists_fork_of_ne (fun hl : t = .leaf => by rw [hl] at ht; cases ht) d
      rw [key_fork] at ht
      cases ht
      have h1 := hq.setColor .red
      have hchild : ((s.setColor q .red).node q).child d = some m := h1.read.2.1.trans (by simp)
      have h2 := Draws.setColor (c := ⟨d, (q, .red), far⟩ :: ⟨!d, (p, k), fork d ta (n', kn) tb⟩ :: c) h1 .black
      have h3 : Draws ((s.setColor q .red).setColor m .black) (plug c (fork (!d) (fork d (fork d na (m, .black) nb) (q, .red) far)
          (p, k) (fork (!d) tb (n', kn) ta))) := by
        rw [fork_not d tb]
        exact h2
      obtain ⟨s1, he1, h4⟩ := h3.rotate
      have h4 : Draws s1 (plug c (fork d ta (n', kn) (fork d tb (p, k) (fork d (fork d na (m, .black) nb) (q, .red) far)))) := by
        simpa only [fork_not] using h4
      simp only [hchild, he1, Option.bind_eq_bind, Option.bind_some]
      show SiblingOutcome _ _ _ _ _ _ _ (s1.uncleTurn n' (!d))
      by_cases hok : UncleOk d c
      · obtain ⟨turn, s', u, he, hend, hd, hb, hkeys, hred⟩ := uncleTurn_ends h4 hok
        refine .third hn hf hok ⟨turn, s', u, he, hend, hd, by rwa [blacken_fork], hkeys.trans (keys_plug_congr c ?_), hred⟩
        cases d <;> simp [keys_fork]
      · rw [uncleTurn_null h4 hok]
        exact .null hn hf hok

/-- On which side of its parent the loop finds the sibling. -/
theorem dir_eq (h : Draws s (plug c (fork d t (p, k) u))) (ht : key t = some n) :
    decide ((s.node p).child false = some n) = !d := by
  obtain ⟨-, hchild, hother, -⟩ := h.read
  rw [ht] at hchild
  cases d with
  | false => simp [hchild]
  | true =>
    rw [decide_eq_false]
    · rfl
    · intro hf
      have hinj := h.rooted.child_inj (List.mem_map.2 ⟨(p, k), by simp, rfl⟩) (show s.links.child p true = some n from hchild) hf
      cases hinj

/-- A turn with a red sibling. -/
theorem removeTurn_red (h : Draws s (plug c (fork d t (p, k) (fork d near (q, .red) far)))) (ht : key t = some n) :
    ∃ s1, Draws s1 (plug c (fork d (fork d t (p, .red) near) (q, .black) far)) ∧
      s.removeTurn n p = (s1.node p).child (!d) >>= fun sibling => s1.blackSibling n p sibling (!d) := by
  have hother := h.read.2.2.1
  rw [key_fork] at hother
  have h1 := h.setColor .red
  rw [← plug_other] at h h1
  have hcol := h.read.2.2.2
  have h2 := h1.setColor .black
  rw [plug_other] at h h2
  obtain ⟨s1, he1, h3⟩ := h2.rotate
  obtain ⟨ta, n', kn, tb, rfl⟩ := exists_fork_of_ne (fun hl : t = .leaf => by rw [hl] at ht; cases ht) d
  have hpar : (s1.node n').parent = some p :=
    (Draws.read (c := ⟨d, (p, .red), near⟩ :: ⟨d, (q, .black), far⟩ :: c) h3).1
  rw [key_fork] at ht
  cases ht
  refine ⟨s1, h3, ?_⟩
  simp only [removeTurn, dir_eq h (key_fork ..), hother, hcol, if_true, Bool.not_not]
  rw [show ((s.setColor p .red).setColor q .black).rotateNode p d = some s1 from he1]
  simp only [Option.bind_eq_bind, Option.bind_some, hpar]

/-- How a turn goes on, by the sibling of the node. -/
inductive TurnOutcome (s : RbTree) (d : Bool) (t : Colored) (x : Nat × RbColor) (c : Place) (n : Nat) :
    Colored → Option Turn → Prop
  | leaf : TurnOutcome s d t x c n .leaf (some (.stop s n))
  | black {near far : Colored} {q : Nat} {r : Option Turn} (h : SiblingOutcome d t x near q far c r) :
      TurnOutcome s d t x c n (fork d near (q, .black) far) r
  | redNull {far : Colored} {q : Nat} : TurnOutcome s d t x c n (fork d .leaf (q, .red) far) none
  /-- The red sibling goes up, so that its near child is the sibling then. -/
  | red {near nearFar far : Colored} {q m : Nat} {k : RbColor} {r : Option Turn}
      (h : SiblingOutcome d t (x.1, .red) near m nearFar (⟨d, (q, .black), far⟩ :: c) r) :
      TurnOutcome s d t x c n (fork d (fork d near (m, k) nearFar) (q, .red) far) r

/-- All turns of the loop. -/
theorem removeTurn_outcome {sib : Colored} (h : Draws s (plug c (fork d t (p, k) sib))) (ht : key t = some n) :
    TurnOutcome s d t (p, k) c n sib (s.removeTurn n p) := by
  by_cases hleaf : sib = .leaf
  · subst hleaf
    have hother := h.read.2.2.1
    simp only [removeTurn, dir_eq h ht, hother, key_leaf]
    exact .leaf
  obtain ⟨near, q, kq, far, rfl⟩ := exists_fork_of_ne hleaf d
  cases kq with
  | black =>
    have hq := h
    rw [← plug_other] at hq
    have hcol := hq.read.2.2.2
    have hother := h.read.2.2.1
    rw [key_fork] at hother
    simp only [removeTurn, dir_eq h ht, hother, hcol, reduceCtorEq, if_false]
    exact .black (blackSibling_outcome h ht)
  | red =>
    obtain ⟨s1, h1, he⟩ := removeTurn_red h ht
    have hchild := (Draws.read (c := ⟨d, (q, .black), far⟩ :: c) h1).2.2.1
    rw [he, hchild]
    by_cases hnl : near = .leaf
    · subst hnl
      exact .redNull
    · obtain ⟨nn, m, km, nf, rfl⟩ := exists_fork_of_ne hnl d
      rw [key_fork]
      exact .red (blackSibling_outcome (c := ⟨d, (q, .black), far⟩ :: c) h1 ht)

/-! ## The loop -/

/-- What a turn comes to, with what holds when the loop goes on and when it has ended. -/
def TurnGoes (r : Option Turn) (next : RbTree → Nat → Prop) (done : RbTree → Prop) : Prop :=
  r = none ∨ (∃ s n, r = some (.next s n) ∧ next s n) ∨ ∃ turn s', r = some turn ∧ turn.Ends s' ∧ done s'

theorem removeLoop_succ (h : s.removeLoop n p = some s') : s.removeLoop (n + 1) p = some s' := by
  induction n generalizing s p with
  | zero => cases h
  | succ n ih =>
    rw [removeLoop] at h ⊢
    split at h
    · exact h
    · obtain ⟨turn, ht, h⟩ := Option.bind_eq_some_iff.1 h
      simp only [ht, Option.bind_eq_bind, Option.bind_some]
      cases turn with
      | stop s1 y => exact h
      | next s1 y => exact ih h

/-- A turn that ends the loop does so within two turns. -/
theorem removeLoop_of_ends {turn : Turn} (hpar : (s.node n).parent = some p) (ht : s.removeTurn n p = some turn)
    (hend : turn.Ends s') : s.removeLoop (m + 2) n = some s' := by
  rw [removeLoop, hpar]
  simp only [ht, Option.bind_eq_bind, Option.bind_some]
  cases hend with
  | stop s1 y => rfl
  | root s1 y hy => simp only [removeLoop, hy]

/-- The rule for the loop: an invariant of the turns, and what holds when the loop has ended. -/
theorem removeLoop_rule {I : RbTree → Nat → Prop} {Q : RbTree → Prop}
    (hturn : ∀ {s n p}, I s n → (s.node n).parent = some p → TurnGoes (s.removeTurn n p) I Q)
    (hroot : ∀ {s n}, I s n → (s.node n).parent = none → Q (s.setColor n .black)) (h : I s n)
    (he : s.removeLoop m n = some s') : Q s' := by
  induction m generalizing s n with
  | zero => cases he
  | succ m ih =>
    cases hpar : (s.node n).parent with
    | none =>
      rw [removeLoop, hpar] at he
      cases he
      exact hroot h hpar
    | some p =>
      rcases hturn h hpar with hr | ⟨s1, y, hr, hI⟩ | ⟨turn, s1, hr, hend, hQ⟩
      · rw [removeLoop, hpar] at he
        simp only [hr, Option.bind_eq_bind, Option.bind_none] at he
        cases he
      · rw [removeLoop, hpar] at he
        simp only [hr, Option.bind_eq_bind, Option.bind_some] at he
        exact ih hI he
      · cases (removeLoop_of_ends hpar hr hend).symm.trans (removeLoop_succ he)
        exact hQ

/-- What the loop finds above the node: nothing, or the parent with the sibling on its other side. -/
theorem Draws.above (h : Draws s (plug c t)) (ht : key t = some n) :
    (c = [] ∧ (s.node n).parent = none) ∨
      ∃ d p k sib c', c = ⟨d, (p, k), sib⟩ :: c' ∧ (s.node n).parent = some p ∧ Draws s (plug c' (fork d t (p, k) sib)) := by
  obtain ⟨a, n', k', b, rfl⟩ := exists_fork_of_ne (fun hl : t = .leaf => by rw [hl] at ht; cases ht) false
  rw [key_fork] at ht
  cases ht
  have hpar := h.read.1
  cases c with
  | nil => exact .inl ⟨rfl, hpar⟩
  | cons f c => exact .inr ⟨f.side, f.node.1, f.node.2, f.other, c, rfl, hpar, h⟩

/-- What holds between the turns of the loop: the tree has the nodes `l`, and only the node at hand may be a red root. -/
def AtPlace (l : List Nat) (s : RbTree) (n : Nat) : Prop :=
  ∃ c t, Draws s (plug c t) ∧ key t = some n ∧ RootBlack c ∧ keys (plug c t) = l

theorem SiblingOutcome.keeps {r : Option Turn} (ho : SiblingOutcome d t x near q far c r) (hc : RootBlack c)
    (hl : keys (plug c (fork d t x (fork d near (q, .red) far))) = l) : TurnGoes r (AtPlace l) (Holds · l) := by
  have hends : ∀ {v : Colored}, Finishes r c (fork d t x (fork d near (q, .red) far)) v → TurnGoes r (AtPlace l) (Holds · l) := by
    rintro v ⟨turn, s', u, hr, hend, hd, -, hkeys, hred⟩
    exact .inr (.inr ⟨turn, s', hr, hend, hl ▸ hkeys ▸ hd.holds (hred hc)⟩)
  cases ho with
  | up hn hf h => exact .inr (.inl ⟨_, _, rfl, c, _, h, by simp, hc, hl⟩)
  | last hf h => exact hends h
  | third hn hf hok h => exact hends h
  | null => exact .inl rfl

/-- The loop leaves a tree of the same nodes, with a black root. -/
theorem removeLoop_holds (h : AtPlace l s n) (he : s.removeLoop m n = some s') : Holds s' l := by
  refine removeLoop_rule (I := AtPlace l) (Q := (Holds · l)) ?_ ?_ h he
  · rintro s n p ⟨c, t, h, ht, hc, hl⟩ hpar
    rcases h.above ht with ⟨-, hnone⟩ | ⟨d, p', k, sib, c', rfl, hpar', h'⟩
    · rw [hpar] at hnone
      cases hnone
    cases hpar.symm.trans hpar'
    have ho := removeTurn_outcome h' ht
    generalize s.removeTurn n p = r at ho
    cases ho with
    | leaf =>
      have hd := (h.blackenTop ht).holds (hc.red_plug (red_blacken t))
      rw [keys_plug_congr _ (keys_blacken t), hl] at hd
      exact .inr (.inr ⟨_, _, rfl, .stop s n, hd⟩)
    | black ho => exact ho.keeps hc.tail ((keys_plug_congr c' (by simp [keys_fork])).trans hl)
    | redNull => exact .inl rfl
    | red ho =>
      refine ho.keeps (hc.tail.cons rfl) ((keys_plug_congr c' ?_).trans hl)
      cases d <;> simp [keys_fork]
  · rintro s n ⟨c, t, h, ht, -, hl⟩ hpar
    rcases h.above ht with ⟨rfl, -⟩ | ⟨d, p, k, sib, c', rfl, hpar', -⟩
    · have hd := (h.blackenTop ht).holds (red_blacken t)
      rwa [plug, keys_blacken, show keys t = l from hl] at hd
    · rw [hpar] at hpar'
      cases hpar'

end RbTree

end OpenLsd
