import OpenLsd.Lib.Outcome
import OpenLsd.Theorems.RbRemove

/-!
# Where removals follow `NULL`

A turn of the loop of `rb_remove` takes for granted that a red sibling has a child on the side of the node, and that the uncle it
comes to after the rotation of the third case has a child on the far side. Both are told from the siblings on the way from the
start of the fix-up to the root. Removals with these children in place never follow a `NULL` pointer, and the loop ends, on all
trees that insertions and such removals can build.
-/

namespace OpenLsd

namespace RbTree

open PtrTree Shape

variable {s s' : RbTree} {c : Place} {t near far a b : Colored} {p q n m : Nat} {x : Nat × RbColor} {k : RbColor} {d : Bool}

/-! ## The children that are needed -/

/-- Only the near child of a sibling is red, so that the third case of the loop is come to. -/
def NearRed (d : Bool) (t : Colored) : Prop := red (t.sub d) = true ∧ red (t.sub (!d)) = false

/-- The sibling of a node on the side `d` has the children that a turn needs. A red sibling goes up, and leaves the node with its
near child and then with its far child as the sibling. -/
def TurnSafe (d : Bool) (c : Place) : Colored → Prop
  | .leaf => True
  | .node l (q, .black) r => NearRed d (.node l (q, .black) r) → UncleOk d c
  | .node l (q, .red) r =>
    match d with
    | false => l ≠ .leaf ∧ (NearRed false l → UncleOk false [⟨false, (q, .black), r⟩]) ∧ TurnSafe false c r
    | true => r ≠ .leaf ∧ (NearRed true r → UncleOk true [⟨true, (q, .black), l⟩]) ∧ TurnSafe true c l

/-- All siblings on the way to the root have the children that are needed. -/
def Safe : Place → Prop
  | [] => True
  | f :: c => TurnSafe f.side c f.other ∧ Safe c

theorem turnSafe_black : TurnSafe d c (fork d near (q, .black) far) ↔ (red near = true → red far = false → UncleOk d c) := by
  cases d <;> simp [fork, TurnSafe, NearRed, sub]

theorem turnSafe_red : TurnSafe d c (fork d near (q, .red) far) ↔
    near ≠ .leaf ∧ (NearRed d near → UncleOk d (⟨d, (q, .black), far⟩ :: c)) ∧ TurnSafe d c far := by
  cases d <;> simp [fork, TurnSafe, UncleOk]

/-! ## The loop -/

/-- A turn goes on with the parent, or ends the loop, when the uncle is as it should be. -/
theorem SiblingOutcome.goes_on {r : Option Turn} (ho : SiblingOutcome d t x near q far c r)
    (hok : red near = true → red far = false → UncleOk d c) :
    (∃ s' u, r = some (.next s' x.1) ∧ Draws s' (plug c u) ∧ key u = some x.1) ∨ ∃ turn s', r = some turn ∧ turn.Ends s' := by
  cases ho with
  | up hn hf h => exact .inl ⟨_, _, rfl, h, by simp⟩
  | last hf h =>
    obtain ⟨turn, s', -, hr, hend, -⟩ := h
    exact .inr ⟨turn, s', hr, hend⟩
  | third hn hf hok h =>
    obtain ⟨turn, s', -, hr, hend, -⟩ := h
    exact .inr ⟨turn, s', hr, hend⟩
  | null hn hf hno => exact absurd (hok hn hf) hno

/-- A turn at a safe sibling goes on from a smaller place that is safe, or ends the loop. -/
theorem removeTurn_safe {sib : Colored} (h : Draws s (plug c (fork d t (p, k) sib))) (ht : key t = some n)
    (hturn : TurnSafe d c sib) (hc : Safe c) :
    (∃ s1 u c1, s.removeTurn n p = some (.next s1 p) ∧ Draws s1 (plug c1 u) ∧ key u = some p ∧ Safe c1 ∧
      (nodes c1).length < sib.toList.length + (nodes c).length + 1) ∨ ∃ turn s1, s.removeTurn n p = some turn ∧ turn.Ends s1 := by
  have ho := removeTurn_outcome h ht
  generalize s.removeTurn n p = r at ho
  cases ho with
  | leaf => exact .inr ⟨_, _, rfl, .stop s n⟩
  | black ho =>
    rcases ho.goes_on (turnSafe_black.1 hturn) with ⟨s1, u, hr, hd, hk⟩ | hend
    · exact .inl ⟨s1, u, c, hr, hd, hk, hc, by omega⟩
    · exact .inr hend
  | redNull => exact absurd rfl (turnSafe_red.1 hturn).1
  | @red nn nf far q m km _ ho =>
    obtain ⟨-, hnear, hfar⟩ := turnSafe_red.1 hturn
    simp only [NearRed, sub_fork, sub_fork_not] at hnear
    rcases ho.goes_on fun h1 h2 => hnear ⟨h1, h2⟩ with ⟨s1, u, hr, hd, hk⟩ | hend
    · refine .inl ⟨s1, u, _, hr, hd, hk, ⟨hfar, hc⟩, ?_⟩
      have hlen := (fork_perm d (fork d nn (m, km) nf) (q, .red) far).length_eq
      have hnlen := (fork_perm d nn (m, km) nf).length_eq
      simp only [nodes, List.length_cons, List.length_append] at hlen hnlen ⊢
      omega
    · exact .inr hend

/-- From a place where all siblings are safe the loop comes to its end. What is around the place gets smaller with every turn but
the last ones. -/
theorem removeLoop_safe (h : Draws s (plug c t)) (ht : key t = some n) (hc : Safe c) (hm : (nodes c).length < m) :
    ∃ s', s.removeLoop m n = some s' := by
  induction m generalizing s c t n with
  | zero => omega
  | succ m ih =>
    rcases h.above ht with ⟨rfl, hpar⟩ | ⟨d, p, k, sib, c, rfl, hpar, h1⟩
    · exact ⟨_, by rw [removeLoop, hpar]⟩
    simp only [nodes, List.length_cons, List.length_append] at hm
    rcases removeTurn_safe h1 ht hc.1 hc.2 with ⟨s1, u, c1, he, hd, hk, hc1, hlt⟩ | ⟨turn, s1, he, hend⟩
    · obtain ⟨s', hs'⟩ := ih hd hk hc1 (by omega)
      refine ⟨s', ?_⟩
      rw [removeLoop, hpar]
      simp only [he, Option.bind_eq_bind, Option.bind_some, hs']
    · obtain ⟨m, rfl⟩ : ∃ j, m = j + 1 := ⟨m - 1, by omega⟩
      exact ⟨s1, removeLoop_of_ends hpar he hend⟩

/-! ## Removals -/

/-- There is nothing to fix up, or a red child that becomes black. -/
def NoFixup (a b : Colored) : Prop :=
  (a = .leaf ∧ b = .leaf) ∨ (a = .leaf ∧ red b = true) ∨ (red a = true ∧ (b = .leaf ∨ a.sub true ≠ .leaf))

/-- The place from which the fix-up goes up to the root, for a node `x` with the subtrees `a` and `b` in the place `c`: that of its
left child when the node before is further down, and else the one of the node. -/
def fixupPlace (c : Place) (x : Nat × RbColor) : Colored → Colored → Place
  | .node _ _ (.node _ _ _), .node l y r => ⟨false, x, .node l y r⟩ :: c
  | _, _ => c

/-- `rb_remove` finds all the children it needs. -/
def Guarded (c : Place) (x : Nat × RbColor) (a b : Colored) : Prop := NoFixup a b ∨ Safe (fixupPlace c x a b)

/-- A node with one child. -/
theorem rbRemove_one_safe (h : Draws s (plug c (fork d .leaf (p, k) t))) (ht : t ≠ .leaf) (hg : red t = true ∨ Safe c)
    (hn : (nodes c).length ≤ n) : ∃ s', s.rbRemove (n + 1) p = some s' := by
  obtain ⟨ta, y, ky, tb, rfl⟩ := exists_fork_of_ne ht false
  obtain ⟨s1, h1, he⟩ := rbRemove_one (n := n) h
  rw [he]
  split
  · exact ⟨_, rfl⟩
  · rename_i hy
    rw [red_fork, decide_eq_true_eq] at hg
    exact removeLoop_safe h1 (key_fork ..) (hg.resolve_left hy) (by omega)

theorem rbRemove_safe (h : Draws s (plug c (.node a (p, k) b))) (hg : Guarded c (p, k) a b)
    (hn : (plug c (.node a (p, k) b)).toList.length ≤ n) : ∃ s', s.rbRemove (n + 2) p = some s' := by
  have hlen := (plug_perm c (.node a (p, k) b)).length_eq
  simp only [Shape.toList, List.length_append, List.length_cons] at hlen
  cases a with
  | leaf =>
    cases b with
    | leaf =>
      obtain ⟨s1, he, -⟩ := rbRemove_leaf (n := n + 1) h
      exact ⟨s1, he⟩
    | node l y r => exact rbRemove_one_safe (d := false) h (by simp) (by simpa [Guarded, NoFixup, fixupPlace] using hg) (by omega)
  | node l y r =>
    cases b with
    | leaf => exact rbRemove_one_safe (d := true) h (by simp) (by simpa [Guarded, NoFixup, fixupPlace] using hg) (by omega)
    | node l' z r' =>
      simp only [Shape.toList, List.length_append, List.length_cons] at hlen
      obtain ⟨s1, h1, he⟩ := rbRemove_two (n := n + 1) h (by omega)
      rw [he]
      cases r with
      | leaf =>
        -- the left child itself takes the place of the node, and is black there
        have h1 : Draws s1 (plug c (fork false l (y.1, .black) (.node l' z r'))) := h1
        rw [if_neg (by simp [h1.read.2.2.2])]
        exact removeLoop_safe h1 (key_fork ..) (by simpa [Guarded, NoFixup, fixupPlace, sub] using hg) (by omega)
      | node l2 y2 r2 =>
        have h1 : Draws s1 (plug (⟨false, ((takeLast l2 y2 r2).2.1, .black), .node l' z r'⟩ :: c)
            (fork false l (y.1, y.2) (takeLast l2 y2 r2).1)) := h1
        split
        · exact ⟨_, rfl⟩
        · rename_i hy
          rw [h1.read.2.2.2] at hy
          refine removeLoop_safe h1 (key_fork ..) (hg.resolve_left ?_) ?_
          · rw [NoFixup, show Shape.node l y (.node l2 y2 r2) = fork false l (y.1, y.2) (.node l2 y2 r2) from rfl, red_fork]
            simp [hy, fork]
          · simp only [nodes, Shape.toList, List.length_cons, List.length_append]
            omega

end RbTree

namespace VmSpace

open RbTree PtrTree

variable {s s' : VmSpace} {p : Nat}

/-- The removal of an area from the tree finds the children it needs. -/
def RemovalGuarded (s : VmSpace) (p : Nat) : Prop :=
  ∀ c k a b, s.taskRb.Draws (plug c (.node a (p, k) b)) → Guarded c (p, k) a b

/-- The areas after insertions and guarded removals, from none on. The areas that are inserted may be empty, or end before they
start: `insert_vma` does not look for that. -/
inductive TreeRun : VmSpace → Prop
  | empty : TreeRun empty
  | insert {s s' : VmSpace} {v : Vma} {inserted : Bool} (h : TreeRun s)
      (he : (s.newVma v).insertVma s.next = some (inserted, s')) : TreeRun s'
  | remove {s s' : VmSpace} {p fuel : Nat} (h : TreeRun s) (hp : p ∈ s.taskMmap) (hg : s.RemovalGuarded p)
      (he : s.removeVma fuel p = some s') : TreeRun s'

/-- The tree has the nodes of the list, in the same order, wherever the areas are. -/
structure Linked (s : VmSpace) : Prop where
  tree : s.taskRb.Holds s.taskMmap
  below : ∀ p ∈ s.taskMmap, p < s.next

/-- The search for the place of an area goes down the tree, so that it ends within as many turns as there are areas. It finds a
node without a child on the side it tells. -/
theorem insertLoop_ends {v : Vma} {n m root : Nat} {par : Option Nat} {t : Shape Nat}
    (h : PtrTree.Repr s.taskRb.links par (some root) t) (hn : t.toList.length ≤ n) (hm : t.toList.length ≤ m) :
    s.insertLoop v n root = s.insertLoop v m root ∧
      ∀ q dir, s.insertLoop v n root = some (q, dir) → q ∈ t.toList ∧ (s.taskRb.node q).child dir = none := by
  induction t generalizing par root n m with
  | leaf => cases h
  | node l q r ihl ihr =>
    obtain ⟨hq, -, hl, hr⟩ := h
    cases hq
    simp only [Shape.toList, List.length_append, List.length_cons] at hn hm
    obtain ⟨n, rfl⟩ : ∃ k, n = k + 1 := ⟨n - 1, by omega⟩
    obtain ⟨m, rfl⟩ : ∃ k, m = k + 1 := ⟨m - 1, by omega⟩
    -- the subtree that the search goes on with
    have hsub : ∀ dir child, (s.taskRb.node q).child dir = some child →
        s.insertLoop v n child = s.insertLoop v m child ∧
          ∀ x d, s.insertLoop v n child = some (x, d) →
            x ∈ (Shape.node l q r).toList ∧ (s.taskRb.node x).child d = none := by
      intro dir child hc
      cases dir with
      | false =>
        rw [show s.taskRb.links.child q false = some child from hc] at hl
        obtain ⟨heq, hfound⟩ := ihl hl (n := n) (m := m) (by omega) (by omega)
        exact ⟨heq, fun x d he => ⟨by simp [Shape.toList, (hfound x d he).1], (hfound x d he).2⟩⟩
      | true =>
        rw [show s.taskRb.links.child q true = some child from hc] at hr
        obtain ⟨heq, hfound⟩ := ihr hr (n := n) (m := m) (by omega) (by omega)
        exact ⟨heq, fun x d he => ⟨by simp [Shape.toList, (hfound x d he).1], (hfound x d he).2⟩⟩
    simp only [insertLoop]
    split
    · refine ⟨rfl, fun x d he => ?_⟩
      cases he
    · cases hc : (s.taskRb.node q).child (decide (v.vmBase ≥ (s.vma q).vmEnd)) with
      | none =>
        refine ⟨rfl, fun x d he => ?_⟩
        cases he
        exact ⟨by simp [Shape.toList], hc⟩
      | some child => exact hsub _ child hc

theorem insertVma_linked {v : Vma} (h : Linked s) :
    ∃ inserted s', (s.newVma v).insertVma s.next = some (inserted, s') ∧ Linked s' := by
  have hnot : s.next ∉ s.taskMmap := fun hn => lt_irrefl _ (h.below _ hn)
  have hholds : (s.newVma v).taskRb.Holds s.taskMmap := holds_setNode h.tree hnot _
  have hzero : (s.newVma v).taskRb.node s.next = .zero := if_pos rfl
  have hbelow : ∀ x ∈ s.next :: s.taskMmap, x < s.next + 1 := by
    intro x hx
    rcases List.mem_cons.1 hx with rfl | hx
    · exact Nat.lt_succ_self _
    · exact Nat.lt_succ_of_lt (h.below x hx)
  unfold insertVma
  cases hroot : (s.newVma v).taskRb.root with
  | none =>
    have hnil : s.taskMmap = [] := hholds.tree.root_none hroot
    obtain ⟨rb, he, hh⟩ := RbTree.insert_first (s.taskMmap.length + 2) hzero (by omega)
    refine ⟨true, { s.newVma v with taskRb := rb, taskMmap := s.next :: s.taskMmap }, ?_, ?_, hbelow⟩
    · simp only [show (s.newVma v).taskMmap = s.taskMmap from rfl, he, Option.bind_eq_bind, Option.bind_some, Option.pure_def]
    · simpa only [hnil] using hh
  | some root =>
    obtain ⟨-, t, ht, hlist⟩ := hholds.tree
    rw [show (s.newVma v).taskRb.links.root = some root from hroot] at ht
    have hfound := (insertLoop_ends (v := (s.newVma v).vma s.next) ht le_rfl le_rfl).2
    rw [hlist] at hfound
    cases hloop : (s.newVma v).insertLoop ((s.newVma v).vma s.next) s.taskMmap.length root with
    | none =>
      refine ⟨false, s.newVma v, ?_, hholds, fun x hx => hbelow x (List.mem_cons_of_mem _ hx)⟩
      simp only [show (s.newVma v).taskMmap = s.taskMmap from rfl, hloop, Option.pure_def]
    | some found =>
      obtain ⟨q, dir⟩ := found
      obtain ⟨hq, hnone⟩ := hfound q dir hloop
      obtain ⟨rb, he, hh⟩ := RbTree.insert_spec (s.taskMmap.length + 2) hholds hq hnone hnot hzero (by omega)
      refine ⟨true, { s.newVma v with taskRb := rb, taskMmap := Rooted.insertBeside dir q s.next s.taskMmap }, ?_, hh,
        fun x hx => hbelow x ((Rooted.insertBeside_perm dir s.next hq).mem_iff.1 hx)⟩
      simp only [show (s.newVma v).taskMmap = s.taskMmap from rfl, hloop, he, Option.bind_eq_bind, Option.bind_some,
        Option.pure_def]

theorem TreeRun.linked (h : TreeRun s) : Linked s := by
  induction h with
  | empty => exact ⟨empty_agrees.tree, empty_agrees.below⟩
  | insert _ he ih =>
    obtain ⟨_, _, he', hlinked⟩ := insertVma_linked ih
    cases he.symm.trans he'
    exact hlinked
  | remove _ hp _ he ih =>
    obtain ⟨ht, hl, -, hn⟩ := removeVma_spec ih.tree hp he
    refine ⟨ht, fun x hx => ?_⟩
    rw [hl] at hx
    rw [hn]
    exact ih.below x (List.mem_of_mem_erase hx)

theorem removeVma_safe (h : Linked s) (hp : p ∈ s.taskMmap) (hg : s.RemovalGuarded p) {fuel : Nat}
    (hf : s.taskMmap.length + 2 ≤ fuel) : ∃ s', s.removeVma fuel p = some s' := by
  obtain ⟨t, ht, hl⟩ := exists_draws h.tree.tree
  rw [← hl, List.mem_map] at hp
  obtain ⟨⟨q, k⟩, hx, rfl⟩ := hp
  obtain ⟨c, a, b, rfl⟩ := exists_plug hx
  have hlen : (plug c (.node a (q, k) b)).toList.length = s.taskMmap.length := by rw [← hl, List.length_map]
  obtain ⟨rb, hrb⟩ := rbRemove_safe ht (hg c k a b ht) (le_of_eq hlen)
  exact ⟨_, by rw [removeVma, rbRemove_mono hrb hf]; rfl⟩

/-- In every run of insertions and guarded removals, from the empty tree on, the next insertion and the next guarded removal come
to their end without following `NULL`:

1. An insertion returns, and its search for a place takes no more turns than there are areas.
2. A guarded removal returns. -/
theorem treeRun_safe (h : TreeRun s) :
    (∀ v : Vma, (∃ inserted s', (s.newVma v).insertVma s.next = some (inserted, s')) ∧
      ∀ root, s.taskRb.root = some root → ∀ n, s.taskMmap.length ≤ n →
        s.insertLoop v n root = s.insertLoop v s.taskMmap.length root) ∧
    ∀ p ∈ s.taskMmap, s.RemovalGuarded p → ∀ fuel, s.taskMmap.length + 2 ≤ fuel → ∃ s', s.removeVma fuel p = some s' := by
  refine ⟨fun v => ⟨?_, fun root hroot n hn => ?_⟩, fun p hp hg fuel hf => removeVma_safe h.linked hp hg hf⟩
  · obtain ⟨inserted, s', he, -⟩ := insertVma_linked h.linked (v := v)
    exact ⟨inserted, s', he⟩
  · obtain ⟨-, t, ht, hlist⟩ := h.linked.tree.tree
    rw [← hlist] at hn ⊢
    rw [show s.taskRb.links.root = some root from hroot] at ht
    exact (insertLoop_ends ht hn le_rfl).1

/-- Pages with gaps between them, inserted one after the other. -/
def insertPages : List Nat → VmSpace → Option VmSpace
  | [], s => some s
  | i :: l, s => do
    let (_, s) ← (s.newVma ⟨"user", i * 0x2000, i * 0x2000 + 0x1000, none, 0, 1⟩).insertVma s.next
    insertPages l s

theorem TreeRun.insertPages {l : List Nat} (h : TreeRun s) (he : VmSpace.insertPages l s = some s') : TreeRun s' := by
  induction l generalizing s with
  | nil =>
    cases he
    exact h
  | cons i l ih =>
    obtain ⟨⟨inserted, s1⟩, hs1, he⟩ := Option.bind_eq_some_iff.1 he
    exact ih (.insert h hs1) he

/-- Seven areas are inserted, and then the one at the root is removed. The sibling of the left child has only a near child, which
is red, and the uncle has no children. -/
theorem removeVma_follows_null : ∃ s, insertPages [1, 3, 5, 2, 6, 7, 4] empty = some s ∧ TreeRun s ∧ 1 ∈ s.taskMmap ∧
    ∀ fuel, s.removeVma fuel 1 = none := by
  have hrun : ∃ s, insertPages [1, 3, 5, 2, 6, 7, 4] empty = some s ∧ 1 ∈ s.taskMmap := by decide +kernel
  obtain ⟨s, hs, hmem⟩ := hrun
  refine ⟨s, hs, TreeRun.empty.insertPages hs, hmem, fun fuel => ?_⟩
  have hnone : ∀ n, ((insertPages [1, 3, 5, 2, 6, 7, 4] empty).bind fun s => s.taskRb.rbRemove (n + 8) 1).isNone = true :=
    fun n => rfl
  cases he : s.taskRb.rbRemove fuel 1 with
  | none => rw [removeVma, he]; rfl
  | some rb =>
    have := hnone fuel
    rw [hs, Option.bind_some, rbRemove_mono he (Nat.le_add_right fuel 8)] at this
    cases this

/-- Ten areas are inserted, and then the one on the left of the root is removed. It has two black children, and the loop of the
fix-up turns at its sibling, which has a red child on the far side: the sibling becomes the root. -/
theorem treeRun_safe_rotates : ∃ s s', insertPages [1, 2, 3, 4, 5, 6, 7, 8, 9, 10] empty = some s ∧ TreeRun s ∧
    s.taskRb.root = some 3 ∧ s.RemovalGuarded 1 ∧ s.removeVma 12 1 = some s' ∧ s'.taskRb.root = some 5 := by
  have hrun : ∃ s, insertPages [1, 2, 3, 4, 5, 6, 7, 8, 9, 10] empty = some s ∧ s.taskMmap = [0, 1, 2, 3, 4, 5, 6, 7, 8, 9] ∧
      s.taskRb.root = some 3 ∧ (s.taskRb.node 1).child false = some 0 ∧ (s.taskRb.node 0).child true = none ∧
      (s.taskRb.node 1).parent = some 3 ∧ (s.taskRb.node 3).child true = some 5 ∧
      (s.taskRb.node 3).parent = none ∧ (s.taskRb.node 5).color = .black ∧
      (s.removeVma 12 1).bind (fun s => s.taskRb.root) = some 5 := by
    decide +kernel
  obtain ⟨s, hs, hl, hroot, hleft, hinner, hpar, hsib, htop, hblack, hafter⟩ := hrun
  have hrun := TreeRun.empty.insertPages hs
  have hg : s.RemovalGuarded 1 := by
    intro c k a b h
    obtain ⟨-, ha, -⟩ := Draws.read (d := false) (a := a) (b := b) h
    rw [hleft] at ha
    -- The left child has no child on the right, so that the fix-up starts at the node itself.
    have hplace : fixupPlace c (1, k) a b = c := by
      obtain ⟨al, x, kx, ar, rfl⟩ := exists_fork_of_ne (fun hl : a = .leaf => by rw [hl] at ha; cases ha) false
      rw [key_fork, Option.some.injEq] at ha
      have hr := (Draws.read (c := ⟨false, (1, k), b⟩ :: c) (d := false) (a := al) (b := ar) h).2.2.1
      rw [show x = 0 from ha.symm, Bool.not_false, hinner] at hr
      rw [key_eq_none.1 hr.symm]
      cases b <;> rfl
    refine .inr ?_
    rw [hplace]
    rcases h.above (key_fork false ..) with ⟨rfl, _⟩ | ⟨d, p, kp, sib, c', rfl, hp, h1⟩
    · trivial
    rw [hpar] at hp
    cases hp
    obtain ⟨-, hd, -⟩ := h1.read
    cases d with
    | true =>
      rw [hsib] at hd
      cases hd
    | false =>
      have hred : red sib = s.taskRb.isRed (key sib) := (Draws.isRed (c := ⟨true, (3, kp), .node a (1, k) b⟩ :: c') h1).symm
      rw [← h1.read.2.2.1, Bool.not_false, hsib] at hred
      rcases h1.above (key_fork ..) with ⟨rfl, _⟩ | ⟨_, _, _, _, _, _, hp, _⟩
      · -- The sibling is black, and above the root there is no uncle that could miss a child.
        refine ⟨?_, trivial⟩
        cases sib with
        | leaf => trivial
        | node l x r =>
          obtain ⟨x, kx⟩ := x
          cases kx with
          | black => exact fun _ => trivial
          | red => simp [RbTree.isRed, red, hblack] at hred
      · rw [htop] at hp
        cases hp
  obtain ⟨s', he⟩ := (treeRun_safe hrun).2 1 (by simp [hl]) hg 12 (by simp [hl])
  rw [he] at hafter
  exact ⟨s, s', hs, hrun, hroot, hg, he, hafter⟩

end VmSpace

end OpenLsd
