import OpenLsd.Lemmas.RbFixup

/-!
# The red-black tree stays a tree

`Holds s l` says that the nodes of the tree are `l`, from left to right, with all pointers in place, and that the root is not
red. Insertion and removal keep it, with one node more or less. Insertion also keeps the tree balanced. Removal does not: it
rotates the wrong node.
-/

namespace OpenLsd

namespace RbTree

open PtrTree Shape

variable {s s' : RbTree} {l : List Nat} {c : Place} {t u a b uncle : Colored} {p q n m fuel g : Nat} {x : Nat × RbColor}
  {k k' kg : RbColor} {d : Bool}

/-! ## Insertion -/

/-- What a turn of the loop of `rb_balance` does with the red node `n`, whose parent `p` is red too and stands on the side `d` of the
grandparent `g`. -/
inductive BalanceOutcome (s : RbTree) (a : Colored) (n : Nat) (b : Colored) (e : Bool) (p : Nat) (other : Colored) (d : Bool) (g : Nat)
    (uncle : Colored) (c : Place) : Prop
  /-- The red uncle and the parent become black, and the loop goes on with the grandparent. -/
  | up {s' : RbTree} (hu : red uncle = true)
      (h : Draws s' (plug c (fork d (fork e (fork d a (n, .red) b) (p, .black) other) (g, .red) (blacken uncle))))
      (he : ∀ m, balanceLoop (m + 1) s n = balanceLoop m s' g)
  /-- The parent takes the place of the grandparent. -/
  | outer {s' : RbTree} (hu : red uncle = false) (hside : e = d)
      (h : Draws s' (plug c (fork d (fork d a (n, .red) b) (p, .black) (fork d other (g, .red) uncle))))
      (he : ∀ m, balanceLoop (m + 2) s n = some s')
  /-- The node itself takes the place of the grandparent. -/
  | inner {s' : RbTree} (hu : red uncle = false) (hside : e = !d)
      (h : Draws s' (plug c (fork d (fork d other (p, .red) a) (n, .black) (fork d b (g, .red) uncle))))
      (he : ∀ m, balanceLoop (m + 2) s n = some s')

/-- The second rotation of a turn: the node that comes up is black, with the node of the next turn as a child. -/
theorem balance_rotate {y : Nat} (h : Draws s (plug c (fork d (fork d t (p, k) u) (g, kg) uncle))) (ht : key t = some y) :
    ∃ s', ((s.setColor p .black).setColor g .red).rotateNode g (!d) = some s' ∧
      Draws s' (plug c (fork d t (p, .black) (fork d u (g, .red) uncle))) ∧ ∀ m, balanceLoop (m + 1) s' y = some s' := by
  have h1 := Draws.setColor (c := ⟨d, (g, kg), uncle⟩ :: c) h .black
  have h2 : Draws ((s.setColor p .black).setColor g .red)
      (plug c (fork (!d) uncle (g, .red) (fork (!d) u (p, .black) t))) := by
    rw [fork_not, fork_not]
    exact Draws.setColor (c := c) h1 .red
  obtain ⟨s', he, h3⟩ := h2.rotate
  simp only [fork_not] at h3
  refine ⟨s', he, h3, fun m => ?_⟩
  rcases Draws.above (c := ⟨d, (p, .black), _⟩ :: c) h3 ht with ⟨hnil, -⟩ | ⟨_, _, _, _, _, hc, hpar, -⟩
  · cases hnil
  · cases hc
    simp only [balanceLoop, hpar, h3.read.2.2.2, if_true]

/-- The cases of a turn of `rb_balance`. -/
theorem balanceLoop_outcome {e : Bool} {other : Colored}
    (h : Draws s (plug c (fork d (fork e (fork d a (n, .red) b) (p, .red) other) (g, kg) uncle))) :
    BalanceOutcome s a n b e p other d g uncle c := by
  have hp : Draws s (plug (⟨d, (g, kg), uncle⟩ :: c) (fork e (fork d a (n, .red) b) (p, .red) other)) := h
  obtain ⟨hgp, hn, -, hcol⟩ := hp.read
  replace hgp : (s.node p).parent = some g := hgp
  replace hn : (s.node p).child e = some n := hn.trans (key_fork ..)
  have hpar : (s.node n).parent = some p := (Draws.read (c := ⟨e, (p, .red), other⟩ :: ⟨d, (g, kg), uncle⟩ :: c) h).1
  have hdir : decide ((s.node g).child false = some p) = !d := dir_eq h (key_fork ..)
  have huncle := h.read.2.2.1
  have hured : s.isRed (key uncle) = red uncle := by
    refine Draws.isRed (c := ⟨!d, (g, kg), fork e (fork d a (n, .red) b) (p, .red) other⟩ :: c) ?_
    rwa [plug_other]
  cases hu : red uncle with
  | true =>
    obtain ⟨ua, w, kw, ub, rfl⟩ := exists_fork_of_ne (red_ne_leaf hu) d
    have h1 := hp.setColor .black
    have h2 : Draws ((s.setColor p .black).setColor w .black)
        (plug c (fork d (fork e (fork d a (n, .red) b) (p, .black) other) (g, kg) (fork d ua (w, .black) ub))) := by
      rw [← plug_other]
      refine Draws.setColor ?_ .black (k := kw)
      rw [plug_other]
      exact h1
    refine .up hu (by rw [blacken_fork]; exact h2.setColor .red) fun m => ?_
    rw [hu] at hured
    rw [key_fork] at huncle hured
    simp only [balanceLoop, hpar, hcol, hgp, hdir, huncle, hured, reduceCtorEq, if_false, Option.bind_eq_bind, Option.bind_some]
  | false =>
    rw [hu] at hured
    have hloop : ∀ {s1 s2 : RbTree} {y q : Nat}, s.straighten n p (!d) = some (s1, y, q) →
        ((s1.setColor q .black).setColor g .red).rotateNode g (!d) = some s2 → (∀ m, balanceLoop (m + 1) s2 y = some s2) →
        ∀ m, balanceLoop (m + 2) s n = some s2 := by
      intro s1 s2 y q hs hr hend m
      rw [balanceLoop]
      simp only [hpar, hcol, hgp, hdir, huncle, hured, hs, hr, reduceCtorEq, if_false, Option.bind_eq_bind, Option.bind_some]
      cases key uncle <;> exact hend m
    by_cases hside : e = d
    · subst hside
      obtain ⟨s2, hr, h2, hend⟩ := balance_rotate h (key_fork ..)
      refine .outer hu rfl h2 (hloop ?_ hr hend)
      rw [straighten, if_neg fun hin => ?_]
      have := hp.rooted.child_inj (List.mem_map.2 ⟨(p, .red), by simp, rfl⟩) hn hin
      cases e <;> cases this
    · obtain rfl : e = !d := by cases e <;> cases d <;> simp_all
      have hp' := hp
      rw [fork_not] at hp'
      obtain ⟨s1, he1, h1⟩ := hp'.rotate
      obtain ⟨s2, hr, h2, hend⟩ := balance_rotate (c := c) h1 (key_fork ..)
      have hpar1 : (s1.node p).parent = some n :=
        (Draws.read (c := ⟨d, (n, .red), b⟩ :: ⟨d, (g, kg), uncle⟩ :: c) h1).1
      refine .inner hu rfl h2 (hloop ?_ hr hend)
      simp only [straighten, hn, Bool.not_not, if_true, show s.rotateNode p d = some s1 from he1, Option.bind_eq_bind,
        Option.bind_some, hpar1, Option.pure_def]

/-- The loop comes to its end, since what is around the node gets smaller with every turn but the last. The only red node below a
red one is the node of the turn, so that none is left in the end, but for a red root. -/
theorem balanceLoop_draws (h : Draws s (plug c t)) (ht : key t = some n) (hr : red t = true) (hc : RootBlack c)
    (hm : (nodes c).length < m) : ∃ s' u, balanceLoop m s n = some s' ∧ Draws s' u ∧ keys u = keys (plug c t) ∧
      ∀ i, Balanced t i → Fits c i → ∃ j, Balanced u j := by
  induction m generalizing s c t n with
  | zero => omega
  | succ m ih =>
    rcases h.above ht with ⟨rfl, hpar⟩ | ⟨e, p, k, other, c, rfl, hpar, h1⟩
    · exact ⟨s, t, by simp only [balanceLoop, hpar], h, rfl, fun i hi _ => ⟨i, hi⟩⟩
    cases k with
    | black =>
      refine ⟨s, _, by simp only [balanceLoop, hpar, h1.read.2.2.2, if_true], h, rfl, fun i hi hf => ?_⟩
      exact exists_balanced_plug.2 ⟨i, hf, hi, fun _ x hx => by cases hx; rfl⟩
    | red =>
      -- the root is not red, so the parent has a parent
      rcases h1.above (key_fork ..) with ⟨rfl, -⟩ | ⟨d, g, kg, uncle, c, rfl, -, h2⟩
      · cases hc
      obtain ⟨a, n', k', b, rfl⟩ := exists_fork_of_ne (red_ne_leaf hr) d
      obtain rfl : n' = n := by simpa using ht
      obtain rfl : k' = .red := by simpa using hr
      simp only [nodes, List.length_cons, List.length_append] at hm
      obtain ⟨m, rfl⟩ : ∃ i, m = i + 1 := ⟨m - 1, by omega⟩
      -- the grandparent of the node is black, with the parent in a tree of the same height as the uncle
      have hfits : ∀ i, Fits (⟨e, (p, .red), other⟩ :: ⟨d, (g, kg), uncle⟩ :: c) i →
          red other = false ∧ Balanced other i ∧ Balanced uncle i ∧ Fits c (i + 1) := by
        rintro i ⟨⟨ho, hk⟩, hb, hf⟩
        obtain rfl : kg = .black := hk (g, kg) rfl
        exact ⟨ho, hb, hf⟩
      have hblack : ∀ {i u}, Balanced u (i + 1) → red u = false → Fits c (i + 1) → ∃ j, Balanced (plug c u) j := fun hb hr hf =>
        exists_balanced_plug.2 ⟨_, hf, hb, fun h => by rw [hr] at h; cases h⟩
      cases balanceLoop_outcome h2 with
      | up hu h3 he =>
        obtain ⟨s', u, hrun, hd, hk, hbal⟩ := ih h3 (key_fork ..) (by simp) hc.tail.tail (by omega)
        refine ⟨s', u, (he _).trans hrun, hd, hk.trans (keys_plug_congr c ?_), fun i hi hf => ?_⟩
        · simp [keys_fork]
        · obtain ⟨-, ho, hub, hf⟩ := hfits i hf
          refine hbal (i + 1) (balanced_red.2 ⟨⟨by simp, by simp⟩, balanced_black.2 ⟨i, rfl, hi, ho⟩, ?_⟩) hf
          simpa [hu] using hub.blacken
      | outer hu hside h3 he =>
        subst hside
        refine ⟨_, _, he m, h3, keys_plug_congr c ?_, fun i hi hf => ?_⟩
        · cases e <;> simp [keys_fork]
        · obtain ⟨hor, ho, hub, hf⟩ := hfits i hf
          exact hblack (balanced_black.2 ⟨i, rfl, hi, balanced_red.2 ⟨⟨hor, hu⟩, ho, hub⟩⟩) (by simp) hf
      | inner hu hside h3 he =>
        subst hside
        refine ⟨_, _, he m, h3, keys_plug_congr c ?_, fun i hi hf => ?_⟩
        · cases d <;> simp [keys_fork]
        · obtain ⟨hor, ho, hub, hf⟩ := hfits i hf
          obtain ⟨hab, ha, hb⟩ := balanced_red.1 hi
          exact hblack (balanced_black.2 ⟨i, rfl, balanced_red.2 ⟨⟨hor, hab.1⟩, ho, ha⟩, balanced_red.2 ⟨⟨hab.2, hu⟩, hb, hub⟩⟩)
            (by simp) hf

theorem exists_place (h : Rooted s.links l) (hp : p ∈ l) :
    ∃ c a k b, Draws s (plug c (fork false a (p, k) b)) ∧ keys (plug c (fork false a (p, k) b)) = l := by
  obtain ⟨t, ht, rfl⟩ := exists_draws h
  obtain ⟨⟨q, k⟩, hx, rfl⟩ := List.mem_map.1 hp
  obtain ⟨c, a, b, rfl⟩ := exists_plug hx
  exact ⟨c, a, k, b, ht, rfl⟩

theorem rbBalance_draws (h : Draws s (plug c (fork false a (n, k) b))) (hc : RootBlack c)
    (hfuel : (keys (plug c (fork false a (n, k) b))).length < fuel) : ∃ s' u, s.rbBalance fuel n = some s' ∧ Draws s' u ∧
      red u = false ∧ keys u = keys (plug c (fork false a (n, k) b)) ∧
      ∀ i, Balanced (fork false a (n, .red) b) i → Fits c i → ∃ j, Balanced u j := by
  have hlen := (plug_perm c (fork false a (n, k) b)).length_eq
  simp only [keys, List.length_map, List.length_append] at hfuel hlen
  obtain ⟨s1, u, he, hu, hk, hbal⟩ := balanceLoop_draws (m := fuel) (h.setColor .red) (key_fork ..) (by simp) hc (by omega)
  replace hk : keys u = keys (plug c (fork false a (n, k) b)) := hk.trans (keys_plug_congr c (by simp [keys_fork]))
  have hne : u ≠ .leaf := by
    rintro rfl
    have hn : n ∈ keys .leaf := hk ▸ List.mem_map.2 ⟨(n, k), by simp, rfl⟩
    cases hn
  obtain ⟨ua, r, kr, ub, rfl⟩ := exists_fork_of_ne hne false
  refine ⟨_, _, ?_, Draws.blackenTop (c := []) (t := fork false ua (r, kr) ub) hu (key_fork ..), red_blacken _,
    (keys_blacken _).trans hk, fun i hi hf => ?_⟩
  · simp only [rbBalance, he, hu.root, key_fork, Option.bind_eq_bind, Option.bind_some, Option.pure_def]
  · obtain ⟨j, hj⟩ := hbal i hi hf
    exact ⟨_, hj.blacken⟩

theorem rbBalance_spec (h : Rooted s.links l) (hn : n ∈ l) (hroot : ∀ r, s.root = some r → r = n ∨ (s.node r).color = .black)
    (hfuel : l.length < fuel) : ∃ s', s.rbBalance fuel n = some s' ∧ Holds s' l := by
  obtain ⟨c, a, k, b, hd, rfl⟩ := exists_place h hn
  have hc : RootBlack c := by
    rcases hd.above (key_fork ..) with ⟨rfl, -⟩ | ⟨d, p, kp, sib, c, rfl, hpar, -⟩
    · trivial
    -- a node with a parent is not the root
    refine rootBlack_of_red (hd.root_black_iff.1 fun r hr => (hroot r hr).resolve_left ?_)
    rintro rfl
    cases hpar.symm.trans (hd.rooted.root_mem hr).2
  obtain ⟨s', u, he, hu, hr, hk, -⟩ := rbBalance_draws hd hc hfuel
  exact ⟨s', he, hk ▸ hu.holds hr⟩

theorem insert_first (fuel : Nat) (hq : s.node q = .zero) (hfuel : 1 < fuel) :
    ∃ s', ({ s with root := some q } : RbTree).rbBalance fuel q = some s' ∧ Holds s' [q] := by
  refine rbBalance_spec (s := { s with root := some q }) ⟨by simp, .node .leaf q .leaf, ⟨rfl, ?_, ?_, ?_⟩, rfl⟩ (by simp)
    (fun r hr => .inl (Option.some.inj hr).symm) hfuel
  all_goals simp [links, hq, RbNode.zero, PtrTree.Repr]

/-- A node without children becomes the child of `p` on the side `d`. -/
abbrev attach (s : RbTree) (p q : Nat) (d : Bool) : RbTree := (s.setChild p d (some q)).setParent q (some p)

theorem attach_inserted (hp : p ∈ l) (hq : q ∉ l) (hnull : ∀ e, (s.node q).child e = none) :
    Rooted.Inserted s.links (s.attach p q d).links p q d l := by
  have hpq : p ≠ q := ne_of_mem_of_not_mem hp hq
  refine ⟨rfl, ⟨?_, ?_⟩, fun e => ?_, ?_, fun x hx hxp e => ?_, fun x hx => ?_⟩
  · simp [links, attach]
  · simp [links, attach]
  · simp [links, attach, hpq.symm, hnull]
  · simp [links, attach]
  · simp [links, attach, hxp]
  · simp [links, attach, ne_of_mem_of_not_mem hx hq]

/-- A node goes next to its parent. -/
theorem insert_spec (fuel : Nat) (h : Holds s l) (hp : p ∈ l) (hnone : (s.node p).child d = none) (hq : q ∉ l)
    (hzero : s.node q = .zero) (hfuel : l.length + 1 < fuel) :
    ∃ s', (s.attach p q d).rbBalance fuel q = some s' ∧ Holds s' (Rooted.insertBeside d p q l) := by
  have ht := h.tree.insert hp hnone hq (attach_inserted hp hq fun e => by rw [hzero]; rfl)
  have hperm := Rooted.insertBeside_perm d q hp
  refine rbBalance_spec ht (hperm.mem_iff.2 (by simp)) (fun r hr => .inr ?_) (by rw [hperm.length_eq]; simpa using hfuel)
  simpa [attach] using h.root r hr

/-- A new leaf in the tree. -/
theorem Draws.attach (h : Draws s (plug c (fork d .leaf (p, k) b))) (hq : q ∉ keys (plug c (fork d .leaf (p, k) b)))
    (hnull : ∀ e, (s.node q).child e = none) : Draws (s.attach p q d)
      (plug (⟨d, (p, k), b⟩ :: c) (fork false .leaf (q, (s.node q).color) .leaf)) := by
  have hp : p ∈ keys (plug c (fork d .leaf (p, k) b)) := List.mem_map.2 ⟨(p, k), by simp, rfl⟩
  have hins := attach_inserted (d := d) hp hq hnull
  have hrepr := h.repr
  have hnd := h.nodup
  rw [keys, ← toList_map] at hq hins
  simp only [map_plug, map_fork] at hrepr hnd hins hq
  refine ⟨?_, ?_, fun x hx => ?_⟩
  · simp only [map_plug, map_fork, List.map_cons]
    exact hrepr.insert hnd hins
  · simp only [map_plug, map_fork, plug]
    rw [mem_plug, mem_fork] at hq
    rw [nodup_plug] at hnd ⊢
    simp only [nodup_fork, mem_fork, List.disjoint_left, Shape.map, Shape.toList, List.not_mem_nil] at hq hnd ⊢
    grind
  · rw [plug, mem_plug, mem_fork, mem_fork] at hx
    have hcol : ((s.attach p q d).node x.1).color = (s.node x.1).color := by simp [RbTree.attach]
    rw [hcol]
    rcases hx with (rfl | (rfl | hx | hx) | hx) | hx
    · exact h.color _ (by simp)
    · rfl
    · cases hx
    · cases hx
    · exact h.color x (by simp [hx])
    · exact h.color x (by simp [hx])

/-! ## More turns than are needed -/

theorem getOutermost_succ {dir : Bool} (h : s.getOutermost n p dir = some q) : s.getOutermost (n + 1) p dir = some q := by
  induction n generalizing p with
  | zero => cases h
  | succ n ih =>
    rw [getOutermost] at h ⊢
    split at h
    · exact ih h
    · exact h

theorem doRemove_succ (h : s.doRemove n p = some s') : s.doRemove (n + 1) p = some s' := by
  induction n generalizing s s' p with
  | zero => cases h
  | succ n ih =>
    rw [doRemove] at h ⊢
    split at h
    · obtain ⟨q, hq, h⟩ := Option.bind_eq_some_iff.1 h
      obtain ⟨s1, hs1, h⟩ := Option.bind_eq_some_iff.1 h
      simp only [getOutermost_succ hq, ih hs1, Option.bind_eq_bind, Option.bind_some]
      exact h
    · exact h
    · exact h

theorem rbRemove_mono (h : s.rbRemove n p = some s') (hm : n ≤ m) : s.rbRemove m p = some s' := by
  induction hm with
  | refl => exact h
  | step _ ih =>
    rw [rbRemove] at ih ⊢
    obtain ⟨s1, hs1, h⟩ := Option.bind_eq_some_iff.1 ih
    simp only [doRemove_succ hs1, Option.bind_eq_bind, Option.bind_some]
    split at h
    · rename_i hleaf
      rw [if_pos hleaf]
      exact h
    · rename_i hleaf
      rw [if_neg hleaf]
      split at h
      · rename_i hred
        rw [if_pos hred]
        exact h
      · rename_i hred
        rw [if_neg hred]
        obtain ⟨y, hy, h⟩ := Option.bind_eq_some_iff.1 h
        rw [hy, Option.bind_some]
        split at h
        · rename_i hy
          rw [if_pos hy]
          exact h
        · rename_i hy
          rw [if_neg hy]
          exact removeLoop_succ h

/-! ## What `rb_remove` comes to -/

theorem rbRemove_leaf (h : Draws s (plug c (.node .leaf (p, k) .leaf))) :
    ∃ s1, s.rbRemove (n + 1) p = some s1 ∧ Draws s1 (plug c .leaf) := by
  obtain ⟨-, hleft, hright, -⟩ := Draws.read (d := false) (a := .leaf) (b := .leaf) h
  rw [Bool.not_false] at hright
  obtain ⟨s1, he, h1, -⟩ := doRemove_draws_one (d := false) (n := n) h
  refine ⟨s1, ?_, h1⟩
  simp only [rbRemove, hleft, hright, he, key_leaf, Option.isNone_none, Bool.not_true, Option.bind_eq_bind, Option.bind_some,
    and_self, if_true, Option.pure_def]

theorem rbRemove_one (h : Draws s (plug c (fork d .leaf (p, k) (fork false a x b)))) :
    ∃ s1, Draws s1 (plug c (fork false a x b)) ∧
      s.rbRemove (n + 1) p = if x.2 = .red then some (s1.setColor x.1 .black) else s1.removeLoop (n + 1) x.1 := by
  obtain ⟨-, hnone, hchild, -⟩ := h.read
  rw [key_fork] at hchild
  obtain ⟨s1, he, h1, hcol⟩ := doRemove_draws_one (n := n) h
  refine ⟨s1, h1, ?_⟩
  have hx := h1.read.2.2.2
  cases d with
  | false =>
    rw [Bool.not_false] at hchild
    simp only [rbRemove, hnone, hchild, he, key_leaf, Option.isNone_none, Bool.not_true, Option.bind_eq_bind, Option.bind_some,
      reduceCtorEq, and_true, if_false, hcol, hx, Option.pure_def]
  | true =>
    rw [Bool.not_true] at hchild
    simp only [rbRemove, hnone, hchild, he, key_leaf, Option.isNone_some, Bool.not_false, Option.bind_eq_bind, Option.bind_some,
      reduceCtorEq, and_true, if_false, hcol, hx, Option.pure_def]

theorem rbRemove_two {l r : Colored} {y z : Nat × RbColor}
    (h : Draws s (plug c (.node (.node l y r) (p, k) (.node a z b)))) (hn : r.toList.length + 1 < n) :
    ∃ s1, Draws s1 (plug c (.node (takeLast l y r).1 ((takeLast l y r).2.1, .black) (.node a z b))) ∧
      s.rbRemove (n + 1) p =
        if (s1.node y.1).color = .red then some (s1.setColor y.1 .black) else s1.removeLoop (n + 1) y.1 := by
  obtain ⟨-, hleft, hright, -⟩ := Draws.read (d := false) (a := .node l y r) (b := .node a z b) h
  rw [Bool.not_false] at hright
  obtain ⟨s1, he, h1, hcol⟩ := doRemove_draws_two h hn
  refine ⟨s1, h1, ?_⟩
  rw [rbRemove, show (s.node p).child false = some y.1 from hleft]
  simp only [Option.isNone_some, show (s.node p).child false = some y.1 from hleft, Bool.not_false,
    show (s.node p).child true = some z.1 from hright, he, Option.bind_eq_bind, Option.bind_some, reduceCtorEq, and_self, if_false,
    hcol, Option.pure_def]

/-! ## Removal -/

theorem keys_erase (h : Draws s (plug c (fork false a (p, k) b))) (hu : keys u = keys a ++ keys b) :
    keys (plug c u) = (keys (plug c (fork false a (p, k) b))).erase p := by
  have hnd : (keys (plug c (fork false a (p, k) b))).Nodup := h.rooted.1
  obtain ⟨l, r, hc⟩ := keys_plug c
  rw [hc, keys_fork] at hnd
  rw [hc, hc, hu, keys_fork]
  simp only [Bool.false_eq_true, if_false, List.append_assoc, List.cons_append, List.nodup_append, List.nodup_cons,
    List.mem_append, List.mem_cons] at hnd ⊢
  rw [List.erase_append_right _ (by grind), List.erase_append_right _ (by grind), List.erase_cons_head]

/-- The end of `rb_remove`, for a node in a place below black nodes. -/
theorem fixup_holds (h : Draws s (plug c t)) (ht : key t = some n) (hc : RootBlack c)
    (he : (if (s.node n).color = .red then some (s.setColor n .black) else s.removeLoop m n) = some s') :
    Holds s' (keys (plug c t)) := by
  split at he
  · cases he
    have hd := (h.blackenTop ht).holds (hc.red_plug (red_blacken t))
    rwa [keys_plug_congr c (keys_blacken t)] at hd
  · exact removeLoop_holds ⟨c, t, h, ht, hc, rfl⟩ he

theorem rbRemove_one_holds (h : Draws s (plug c (fork d .leaf (p, k) t))) (ht : t ≠ .leaf) (hc : RootBlack c)
    (he : s.rbRemove (n + 1) p = some s') : Holds s' (keys (plug c t)) := by
  obtain ⟨a, y, ky, b, rfl⟩ := exists_fork_of_ne ht false
  obtain ⟨s1, h1, he1⟩ := rbRemove_one (n := n) h
  rw [he1, show (y, ky).2 = (s1.node y).color from h1.read.2.2.2.symm] at he
  exact fixup_holds h1 (key_fork ..) hc he

/-- When `rb_remove` returns, the node is out of the tree and the others are in place. -/
theorem rbRemove_spec (h : Holds s l) (hp : p ∈ l) (he : s.rbRemove fuel p = some s') : Holds s' (l.erase p) := by
  obtain ⟨c, a, k, b, hd, rfl⟩ := exists_place h.tree hp
  have hc : RootBlack c := rootBlack_of_red (hd.root_black_iff.1 h.root)
  -- with as many turns as are needed
  have he := rbRemove_mono he (show fuel ≤ fuel + (a.toList.length + 2) + 1 by omega)
  cases a with
  | leaf =>
    rw [← keys_erase hd (u := b) rfl]
    cases b with
    | leaf =>
      obtain ⟨s1, he1, h1⟩ := rbRemove_leaf (n := fuel + 2) hd
      cases he1.symm.trans he
      exact h1.holds (hc.red_plug rfl)
    | node l y r => exact rbRemove_one_holds (d := false) hd nofun hc he
  | node l y r =>
    cases b with
    | leaf =>
      rw [← keys_erase hd (u := .node l y r) (by simp [keys, Shape.toList])]
      exact rbRemove_one_holds (d := true) hd nofun hc he
    | node l' z r' =>
      have hlen : (Shape.node l y r).toList.length = l.toList.length + (r.toList.length + 1) := by simp [Shape.toList]
      obtain ⟨s1, h1, he1⟩ := rbRemove_two (n := fuel + ((Shape.node l y r).toList.length + 2)) hd (by omega)
      have hkeys := congrArg (List.map Prod.fst) (takeLast_toList l y r)
      rw [he1] at he
      rw [← keys_erase hd (u := .node (takeLast l y r).1 ((takeLast l y r).2.1, .black) (.node l' z r'))
        (by rw [keys, keys, ← hkeys]; simp [keys, Shape.toList])]
      -- the left child is where it was, or in the place of the node if it is the one before
      cases r with
      | leaf => exact fixup_holds (c := c) h1 rfl hc he
      | node l2 y2 r2 =>
        exact fixup_holds (c := ⟨false, ((takeLast l2 y2 r2).2.1, .black), .node l' z r'⟩ :: c)
          (t := .node l y (takeLast l2 y2 r2).1) h1 rfl (hc.cons rfl) he

end RbTree

end OpenLsd
