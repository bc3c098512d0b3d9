import OpenLsd.Lemmas.RbHolds
import OpenLsd.Vma.Space

/-!
# The two indexes of memory areas agree

`Agrees s` says that the nodes of `task_rb` are the list `task_mmap`, from left to right, and that the areas of the list are
not empty, in order and apart. Adding, removing, merging and splitting areas keep it.
-/

namespace OpenLsd

variable {lhs x : Nat} {v : Vma} {cut cut' : Nat → Prop} {s'' : VmSpace}

namespace VmSpace

open PtrTree

structure Agrees (s : VmSpace) : Prop where
  tree : s.taskRb.Holds s.taskMmap
  sorted : s.taskMmap.Pairwise fun a b => (s.vma a).vmEnd ≤ (s.vma b).vmBase
  proper : ∀ p ∈ s.taskMmap, (s.vma p).vmBase < (s.vma p).vmEnd
  below : ∀ p ∈ s.taskMmap, p < s.next

variable {s s' : VmSpace} {p q : Nat} {fuel r addr flags size len : Nat} {l a : List Nat} {name : String} {k : Kind}

theorem empty_agrees : Agrees empty := by
  refine ⟨⟨⟨List.nodup_nil, .leaf, rfl, rfl⟩, fun r hr => by cases hr⟩, List.Pairwise.nil, fun p hp => ?_, fun p hp => ?_⟩
  · cases hp
  · cases hp

/-- The areas of a task that has one. -/
def single (v : Vma) : VmSpace where
  taskRb := { node := fun _ => .zero, root := some 0 }
  taskMmap := [0]
  vma := fun _ => v
  next := 1

theorem single_agrees (hv : v.vmBase < v.vmEnd) : Agrees (single v) where
  tree := ⟨⟨by simp [single], .node .leaf 0 .leaf, ⟨rfl, rfl, rfl, rfl⟩, rfl⟩, fun _ _ => rfl⟩
  sorted := by simp [single]
  proper := fun _ _ => hv
  below := by simp [single]

/-- Fewer areas, where they were. -/
theorem Agrees.fewer (h : Agrees s) (ht : s'.taskRb.Holds s'.taskMmap) (hl : s'.taskMmap.Sublist s.taskMmap) (hn : s.next ≤ s'.next)
    (hv : ∀ x ∈ s'.taskMmap, (s'.vma x).vmBase = (s.vma x).vmBase ∧ (s'.vma x).vmEnd = (s.vma x).vmEnd) : Agrees s' := by
  refine ⟨ht, ?_, fun x hx => ?_, fun x hx => lt_of_lt_of_le (h.below x (hl.subset hx)) hn⟩
  · refine List.Pairwise.imp_of_mem (fun {a b} ha hb hab => ?_) (h.sorted.sublist hl)
    rw [(hv a ha).2, (hv b hb).1]
    exact hab
  · rw [(hv x hx).1, (hv x hx).2]
    exact h.proper x (hl.subset hx)

/-- Records that are in no index do not matter. -/
theorem Agrees.congr (h : Agrees s) (hrb : s'.taskRb = s.taskRb) (hl : s'.taskMmap = s.taskMmap) (hn : s.next ≤ s'.next)
    (hv : ∀ x ∈ s.taskMmap, (s'.vma x).vmBase = (s.vma x).vmBase ∧ (s'.vma x).vmEnd = (s.vma x).vmEnd) : Agrees s' :=
  h.fewer (by rw [hrb, hl]; exact h.tree) (hl ▸ .refl _) hn (hl ▸ hv)

/-! ## Lists -/

theorem listNext_some (h : listNext p l = some q) : ∃ a b, l = a ++ p :: q :: b := by
  induction l with
  | nil => cases h
  | cons x l ih =>
    unfold listNext at h
    split at h
    · rename_i hx
      obtain ⟨b, rfl⟩ : ∃ b, l = q :: b := by
        cases l with
        | nil => cases h
        | cons y b =>
          cases h
          exact ⟨b, rfl⟩
      exact ⟨[], b, by rw [hx]; rfl⟩
    · obtain ⟨a, b, rfl⟩ := ih h
      exact ⟨x :: a, b, rfl⟩

theorem listNext_append (h : p ∉ a) : listNext p (a ++ p :: l) = l.head? := by
  induction a with
  | nil => exact if_pos rfl
  | cons x a ih =>
    rw [List.mem_cons, not_or] at h
    exact (if_neg (Ne.symm h.1)).trans (ih h.2)

theorem listPrev_some (h : listPrev p l = some q) : ∃ a b, l = a ++ q :: p :: b := by
  induction l with
  | nil => cases h
  | cons x l ih =>
    cases l with
    | nil => cases h
    | cons y l =>
      unfold listPrev at h
      split at h
      · rename_i hy
        cases h
        exact ⟨[], l, by rw [hy]; rfl⟩
      · obtain ⟨a, b, e⟩ := ih h
        exact ⟨x :: a, b, by rw [e]; rfl⟩

theorem listPrev_append (h : p ∉ a) (hne : q ≠ p) : listPrev p (a ++ q :: p :: l) = some q := by
  induction a with
  | nil => simp [listPrev]
  | cons x a ih =>
    have ha : p ∉ a := fun ha => h (List.mem_cons_of_mem _ ha)
    cases a with
    | nil => simp [listPrev, hne]
    | cons y a =>
      have hy : y ≠ p := fun e => ha (by simp [e])
      rw [← ih ha]
      simp [listPrev, hy]

/-! ## Order -/

/-- Two areas are apart. -/
def Apart (v w : Vma) : Prop := v.vmEnd ≤ w.vmBase ∨ w.vmEnd ≤ v.vmBase

/-- Different areas of a sorted list are apart. -/
theorem apart_of_sorted (hs : l.Pairwise fun a b => (s.vma a).vmEnd ≤ (s.vma b).vmBase) (hp : p ∈ l) (hq : q ∈ l)
    (hne : p ≠ q) : Apart (s.vma p) (s.vma q) := by
  obtain ⟨a, b, rfl⟩ := List.append_of_mem hp
  simp only [List.pairwise_append, List.pairwise_cons, List.mem_append, List.mem_cons] at hs hq
  rcases hq with hq | hq | hq
  · exact .inr (hs.2.2 q hq p (.inl rfl))
  · exact absurd hq.symm hne
  · exact .inl (hs.2.1.1 q hq)

theorem Agrees.apart (h : Agrees s) (hp : p ∈ s.taskMmap) (hq : q ∈ s.taskMmap) (hne : p ≠ q) : Apart (s.vma p) (s.vma q) :=
  apart_of_sorted h.sorted hp hq hne

/-! ## Neighbours -/

/-- What is before and behind an area of the list, and the one that is next. -/
theorem Agrees.around {b : List Nat} (h : Agrees s) (hl : s.taskMmap = a ++ p :: b) :
    (∀ x ∈ a, (s.vma x).vmEnd ≤ (s.vma p).vmBase) ∧ (∀ x ∈ b, (s.vma p).vmEnd ≤ (s.vma x).vmBase) ∧
    (∀ x ∈ p :: b, (s.vma x).vmBase < (s.vma x).vmEnd) ∧ listNext p s.taskMmap = b.head? := by
  have hsort := h.sorted
  have hnd := h.tree.tree.1
  simp only [hl, List.pairwise_append, List.pairwise_cons, List.mem_cons, List.nodup_append] at hsort hnd
  refine ⟨fun x hx => hsort.2.2 x hx p (.inl rfl), hsort.2.1.1, fun x hx => h.proper x ?_, ?_⟩
  · rw [hl]
    exact List.mem_append_right _ hx
  · rw [hl]
    exact listNext_append fun hp => hnd.2.2 p hp p (.inl rfl) rfl

section

variable (h : Agrees s) (hq : q ∈ s.taskMmap) (hp : p ∈ s.taskMmap) (hadj : (s.vma q).vmEnd = (s.vma p).vmBase)

include h hq hp hadj

/-- An area that begins where another one ends is the next one. -/
theorem Agrees.adjacent : ∃ a b, s.taskMmap = a ++ q :: p :: b := by
  obtain ⟨a, l, hl⟩ := List.append_of_mem hq
  obtain ⟨hbefore, hafter, hproper, _⟩ := h.around hl
  have hqq := h.proper q hq
  have hpp := h.proper p hp
  rw [hl, List.mem_append, List.mem_cons] at hp
  rcases hp with hp | rfl | hp
  · have := hbefore p hp
    omega
  · omega
  · cases l with
    | nil => cases hp
    | cons y l =>
      rcases List.mem_cons.1 hp with rfl | hp
      · exact ⟨a, l, hl⟩
      · have := hafter y (by simp)
        have := (h.around (a := a ++ [q]) (by simpa using hl)).2.1 p hp
        have := hproper y (by simp)
        omega

theorem Agrees.listNext_adjacent : listNext q s.taskMmap = some p := by
  obtain ⟨a, l, hl⟩ := h.adjacent hq hp hadj
  exact (h.around hl).2.2.2

theorem Agrees.listPrev_adjacent : listPrev p s.taskMmap = some q := by
  obtain ⟨a, l, hl⟩ := h.adjacent hq hp hadj
  have hnd := h.tree.tree.1
  rw [hl] at hnd ⊢
  exact listPrev_append (by grind) (by grind)

end

/-! ## Inserting -/

/-- What the search for the place of an area finds: a node where there is room for a child, between the areas that come
before and those that come after. When it finds nothing there is an area that overlaps. -/
theorem insertLoop_spec {n root : Nat} {par : Option Nat} {t : Shape Nat}
    (h : PtrTree.Repr s.taskRb.links par (some root) t) (hs : t.toList.Pairwise fun a b => (s.vma a).vmEnd ≤ (s.vma b).vmBase)
    (hp : ∀ p ∈ t.toList, (s.vma p).vmBase < (s.vma p).vmEnd) (hn : t.toList.length ≤ n) :
    (s.insertLoop v n root = none ∧ ∃ x ∈ t.toList, ¬Apart v (s.vma x)) ∨
    ∃ p dir a b, s.insertLoop v n root = some (p, dir) ∧ t.toList = a ++ p :: b ∧ (s.taskRb.node p).child dir = none ∧
      (∀ x ∈ a, (s.vma x).vmEnd ≤ v.vmBase) ∧ (∀ x ∈ b, v.vmEnd ≤ (s.vma x).vmBase) ∧
      if dir then (s.vma p).vmEnd ≤ v.vmBase else v.vmEnd ≤ (s.vma p).vmBase := by
  induction t generalizing par root n with
  | leaf => cases h
  | node l q r ihl ihr =>
    obtain ⟨hq, _, hl, hr⟩ := h
    cases hq
    cases n with
    | zero => simp [Shape.toList] at hn
    | succ n =>
      simp only [Shape.toList, List.pairwise_append, List.pairwise_cons, List.mem_append, List.mem_cons, List.length_append,
        List.length_cons] at hs hp hn ⊢
      obtain ⟨hsl, ⟨hqr, hsr⟩, hlr⟩ := hs
      have hlq : ∀ x ∈ l.toList, (s.vma x).vmEnd ≤ (s.vma q).vmBase := fun x hx => hlr x hx q (.inl rfl)
      have hq := hp q (.inr (.inl rfl))
      unfold insertLoop
      by_cases hdir : v.vmBase ≥ (s.vma q).vmEnd
      · -- To the right: all that is on the left is before the area.
        simp only [decide_eq_true hdir, Bool.not_true, Bool.false_eq_true, false_and, if_false]
        cases hc : (s.taskRb.node q).child true with
        | none =>
          have hr' : r = .leaf := Repr.ptr_none ((show s.taskRb.links.child q true = none from hc) ▸ hr)
          refine .inr ⟨q, true, l.toList, r.toList, rfl, rfl, hc, fun x hx => ?_, fun x hx => ?_, by simpa using hdir⟩
          · have := hlq x hx
            omega
          · simp [hr', Shape.toList] at hx
        | some c =>
          have hr' : PtrTree.Repr s.taskRb.links (some q) (some c) r := (show s.taskRb.links.child q true = some c from hc) ▸ hr
          rcases ihr hr' hsr (fun x hx => hp x (.inr (.inr hx))) (n := n) (by omega) with ⟨h1, x, hx, h2⟩ |
            ⟨p, dir, a, b, h1, h2, h3, h4, h5, h6⟩
          · exact .inl ⟨h1, x, .inr (.inr hx), h2⟩
          · refine .inr ⟨p, dir, l.toList ++ q :: a, b, h1, by simp [h2], h3, fun x hx => ?_, h5, h6⟩
            rcases List.mem_append.1 hx with hx | hx
            · have := hlq x hx
              omega
            · rcases List.mem_cons.1 hx with rfl | hx
              · exact hdir
              · exact h4 x hx
      · simp only [decide_eq_false hdir, Bool.not_false, true_and]
        by_cases hov : v.vmEnd > (s.vma q).vmBase
        · rw [if_pos hov]
          refine .inl ⟨rfl, q, .inr (.inl rfl), ?_⟩
          unfold Apart
          omega
        · rw [if_neg hov]
          cases hc : (s.taskRb.node q).child false with
          | none =>
            have hl' : l = .leaf := Repr.ptr_none ((show s.taskRb.links.child q false = none from hc) ▸ hl)
            refine .inr ⟨q, false, l.toList, r.toList, rfl, rfl, hc, fun x hx => ?_, fun x hx => ?_, by simpa using hov⟩
            · simp [hl', Shape.toList] at hx
            · have := hqr x hx
              omega
          | some c =>
            have hl' : PtrTree.Repr s.taskRb.links (some q) (some c) l :=
              (show s.taskRb.links.child q false = some c from hc) ▸ hl
            rcases ihl hl' hsl (fun x hx => hp x (.inl hx)) (n := n) (by omega) with ⟨h1, x, hx, h2⟩ |
              ⟨p, dir, a, b, h1, h2, h3, h4, h5, h6⟩
            · exact .inl ⟨h1, x, .inl hx, h2⟩
            · refine .inr ⟨p, dir, a, b ++ q :: r.toList, h1, by simp [h2], h3, h4, fun x hx => ?_, h6⟩
              rcases List.mem_append.1 hx with hx | hx
              · exact h5 x hx
              · rcases List.mem_cons.1 hx with rfl | hx
                · omega
                · have := hqr x hx
                  omega

/-- An area that is apart from the others goes in, between those before it and those after it, even if it is empty; another one is
refused. -/
theorem insertVma_place (h : Agrees s) (hp : p ∉ s.taskMmap) (hz : s.taskRb.node p = .zero) :
    (s.insertVma p = some (false, s) ∧ ∃ x ∈ s.taskMmap, ¬Apart (s.vma p) (s.vma x)) ∨
    ∃ s', s.insertVma p = some (true, s') ∧ s'.taskRb.Holds s'.taskMmap ∧
      (s'.taskMmap.Pairwise fun a b => (s.vma a).vmEnd ≤ (s.vma b).vmBase) ∧ s'.taskMmap.Perm (p :: s.taskMmap) ∧
      s'.vma = s.vma ∧ s'.next = s.next := by
  unfold insertVma
  cases hr : s.taskRb.root with
  | none =>
    have hnil := h.tree.tree.root_none hr
    obtain ⟨rb, he, hh⟩ := RbTree.insert_first (s.taskMmap.length + 2) hz (by omega)
    refine .inr ⟨{ s with taskRb := rb, taskMmap := p :: s.taskMmap }, ?_, ?_, ?_, List.Perm.refl _, rfl, rfl⟩
    · simp only [he, Option.bind_eq_bind, Option.bind_some, Option.pure_def]
    · simpa only [hnil] using hh
    · simp [hnil]
  | some root =>
    obtain ⟨hnd, t, ht, hlist⟩ := h.tree.tree
    rw [show s.taskRb.links.root = some root from hr] at ht
    have hs := h.sorted
    have hpr := h.proper
    rw [← hlist] at hs hpr
    rcases insertLoop_spec (v := s.vma p) ht hs hpr le_rfl with ⟨h1, x, hx, hov⟩ | ⟨q, dir, a, b, h1, h2, h3, h4, h5, h6⟩
    · rw [hlist] at h1 hx
      exact .inl ⟨by simp only [h1, Option.pure_def], x, hx, hov⟩
    · rw [hlist] at h1 h2
      have hq : q ∈ s.taskMmap := by simp [h2]
      obtain ⟨rb, he, hh⟩ := RbTree.insert_spec (s.taskMmap.length + 2) h.tree hq h3 hp hz (by omega)
      refine .inr ⟨{ s with taskRb := rb, taskMmap := Rooted.insertBeside dir q p s.taskMmap }, ?_, hh, ?_,
        Rooted.insertBeside_perm dir p hq, rfl, rfl⟩
      · simp only [h1, he, Option.bind_eq_bind, Option.bind_some, Option.pure_def]
      -- The area stands between those before it and those after it.
      have hqa : q ∉ a := by
        have := h.tree.tree.1
        rw [h2, List.nodup_append] at this
        grind
      have hs' := h.sorted
      show (Rooted.insertBeside dir q p s.taskMmap).Pairwise _
      rw [h2] at hs' ⊢
      rw [Rooted.insertBeside_append dir p hqa]
      simp only [List.pairwise_append, List.pairwise_cons, List.mem_cons] at hs' ⊢
      cases dir <;> simp only [Bool.false_eq_true, if_false, if_true, List.pairwise_cons, List.mem_cons] at h6 ⊢ <;> grind

/-- An area that is not empty and apart from the others goes in; another one is refused. -/
theorem insertVma_spec (h : Agrees s) (hp : p ∉ s.taskMmap) (hlt : p < s.next) (hz : s.taskRb.node p = .zero)
    (hv : (s.vma p).vmBase < (s.vma p).vmEnd) :
    (s.insertVma p = some (false, s) ∧ ∃ x ∈ s.taskMmap, ¬Apart (s.vma p) (s.vma x)) ∨
    ∃ s', s.insertVma p = some (true, s') ∧ Agrees s' ∧ s'.taskMmap.Perm (p :: s.taskMmap) ∧ s'.vma = s.vma ∧
      s'.next = s.next := by
  refine (insertVma_place h hp hz).imp_right fun ⟨s', he, ht, hs, hperm, hval, hn⟩ => ⟨s', he, ?_, hperm, hval, hn⟩
  refine ⟨ht, by rwa [hval], fun x hx => ?_, fun x hx => ?_⟩
  · rw [hval]
    rcases List.mem_cons.1 (hperm.mem_iff.1 hx) with rfl | hx
    · exact hv
    · exact h.proper x hx
  · rw [hn]
    rcases List.mem_cons.1 (hperm.mem_iff.1 hx) with rfl | hx
    · exact hlt
    · exact h.below x hx

theorem holds_setNode {rb : RbTree} (h : rb.Holds l) (hp : p ∉ l) (n : RbNode) : (rb.setNode p n).Holds l := by
  have hnode : ∀ x ∈ l, (rb.setNode p n).node x = rb.node x := fun x hx => if_neg (ne_of_mem_of_not_mem hx hp)
  refine ⟨h.tree.congr rfl (fun x hx => ?_), fun r hr => ?_⟩
  · simp only [RbTree.links, hnode x hx, implies_true, and_self]
  · have hr' : rb.root = some r := hr
    rw [hnode r (h.tree.root_mem hr').1]
    exact h.root r hr'

theorem newVma_agrees (h : Agrees s) (v : Vma) : Agrees (s.newVma v) ∧ s.next ∉ (s.newVma v).taskMmap ∧
    (s.newVma v).taskRb.node s.next = .zero ∧ (s.newVma v).vma s.next = v ∧ s.next < (s.newVma v).next ∧
    (∀ x ∈ s.taskMmap, (s.newVma v).vma x = s.vma x) := by
  have hnot : s.next ∉ s.taskMmap := fun hn => lt_irrefl _ (h.below _ hn)
  have hv : ∀ x ∈ s.taskMmap, (s.newVma v).vma x = s.vma x := fun x hx => if_neg (ne_of_mem_of_not_mem hx hnot)
  refine ⟨h.fewer (holds_setNode h.tree hnot _) (.refl _) (Nat.le_succ _) fun x hx => ?_, hnot, if_pos rfl, if_pos rfl,
    Nat.lt_succ_self _, hv⟩
  rw [hv x hx]
  exact ⟨rfl, rfl⟩

/-! ## Removing -/

theorem removeVma_spec (h : s.taskRb.Holds s.taskMmap) (hp : p ∈ s.taskMmap) (he : s.removeVma fuel p = some s') :
    s'.taskRb.Holds s'.taskMmap ∧ s'.taskMmap = s.taskMmap.erase p ∧ s'.vma = s.vma ∧ s'.next = s.next := by
  simp only [removeVma, Option.bind_eq_bind, Option.pure_def] at he
  obtain ⟨rb, hrb, he⟩ := Option.bind_eq_some_iff.1 he
  cases he
  -- The node is not in the tree any more, so clearing it changes nothing there.
  exact ⟨holds_setNode (RbTree.rbRemove_spec h hp hrb) h.tree.1.not_mem_erase _, rfl, rfl, rfl⟩

theorem removeVma_agrees (h : Agrees s) (hp : p ∈ s.taskMmap) (he : s.removeVma fuel p = some s') : Agrees s' := by
  obtain ⟨ht, hl, hv, hn⟩ := removeVma_spec h.tree hp he
  refine h.fewer ht ?_ (le_of_eq hn.symm) fun x _ => by rw [hv]; exact ⟨rfl, rfl⟩
  rw [hl]
  exact List.erase_sublist

/-- The area `p` has been taken out and freed. -/
structure TakenOut (s s' : VmSpace) (p : Nat) : Prop where
  agrees : Agrees s'
  mem : ∀ x, x ∈ s'.taskMmap ↔ x ≠ p ∧ x ∈ s.taskMmap
  vma : ∀ x, x ≠ p → s'.vma x = s.vma x
  next : s'.next = s.next

theorem removeVma_takenOut (h : Agrees s) (hp : p ∈ s.taskMmap) (he : s.removeVma fuel p = some s') : TakenOut s (s'.kfree p) p := by
  obtain ⟨-, hl, hv, hn⟩ := removeVma_spec h.tree hp he
  have hmem : ∀ x, x ∈ s'.taskMmap ↔ x ≠ p ∧ x ∈ s.taskMmap := fun x => by rw [hl, h.tree.tree.1.mem_erase_iff]
  have hval : ∀ x, x ≠ p → (s'.kfree p).vma x = s'.vma x := fun x hx => if_neg hx
  refine ⟨(removeVma_agrees h hp he).congr rfl rfl le_rfl fun x hx => ?_, hmem, fun x hx => by rw [hval x hx, hv], hn⟩
  rw [hval x ((hmem x).1 hx).1]
  exact ⟨rfl, rfl⟩

/-! ## What areas say -/

/-- What an area says about each of its addresses. -/
structure Kind where
  name : String
  flags : Nat
  src : Option Nat

def kind (v : Vma) : Kind := ⟨v.vmName, v.vmFlags, v.vmSrc⟩

/-- The address is in an area of this kind. -/
def At (s : VmSpace) (va : Nat) (k : Kind) : Prop :=
  ∃ p ∈ s.taskMmap, (s.vma p).vmBase ≤ va ∧ va < (s.vma p).vmEnd ∧ kind (s.vma p) = k

/-- An end of an area. -/
def IsBound (s : VmSpace) (a : Nat) : Prop := ∃ p ∈ s.taskMmap, a = (s.vma p).vmBase ∨ a = (s.vma p).vmEnd

/-- The area `w` is of the kind of `v` and has all of its addresses. -/
def Covers (v w : Vma) : Prop := w.vmBase ≤ v.vmBase ∧ v.vmEnd ≤ w.vmEnd ∧ kind w = kind v

theorem Covers.refl (v : Vma) : Covers v v := ⟨le_rfl, le_rfl, rfl⟩

theorem Covers.trans {u w : Vma} (h : Covers u v) (h' : Covers v w) : Covers u w :=
  ⟨le_trans h'.1 h.1, le_trans h.2.1 h'.2.1, h'.2.2.trans h.2.2⟩

/-- An address stays in an area when each area is covered. -/
theorem At.of_covers {va : Nat} (hc : ∀ x ∈ s.taskMmap, ∃ y ∈ s'.taskMmap, Covers (s.vma x) (s'.vma y))
    (h : At s va k) : At s' va k := by
  obtain ⟨x, hx, hb, he, hk⟩ := h
  obtain ⟨y, hy, hyb, hye, hyk⟩ := hc x hx
  exact ⟨y, hy, le_trans hyb hb, lt_of_lt_of_le he hye, hyk.trans hk⟩

/-- The areas have been cut and joined: every address is in the same kind of area as before, and the ends are old ones, or
among the cuts. -/
structure Rearranged (s s' : VmSpace) (cut : Nat → Prop) : Prop where
  agrees : Agrees s'
  at_iff : ∀ va k, At s' va k ↔ At s va k
  bound : ∀ a, IsBound s' a → IsBound s a ∨ cut a
  next : s.next ≤ s'.next

namespace Rearranged

theorem refl (h : Agrees s) : Rearranged s s cut := ⟨h, fun _ _ => Iff.rfl, fun _ ha => .inl ha, le_rfl⟩

theorem trans (h : Rearranged s s' cut) (h' : Rearranged s' s'' cut) : Rearranged s s'' cut := by
  refine ⟨h'.agrees, fun va k => (h'.at_iff va k).trans (h.at_iff va k), fun a ha => ?_,
    le_trans h.next h'.next⟩
  rcases h'.bound a ha with ha | ha
  · exact h.bound a ha
  · exact .inr ha

theorem mono (h : Rearranged s s' cut) (hc : ∀ a, cut a → cut' a) : Rearranged s s' cut' :=
  { h with bound := fun a ha => (h.bound a ha).imp_right (hc a) }

end Rearranged

/-! ## Merging -/

/-- The area is still there, with its base and its kind. -/
def Stays (s s' : VmSpace) (x : Nat) : Prop :=
  x ∈ s'.taskMmap ∧ (s'.vma x).vmBase = (s.vma x).vmBase ∧ kind (s'.vma x) = kind (s.vma x)

/-- The area has been freed. -/
def Freed (s : VmSpace) (x : Nat) : Prop := x ∉ s.taskMmap ∧ s.vma x = .zero

/-- What merging with a neighbour does to the areas: some are freed, and those are of the kind of the area. -/
structure Merged (s s' : VmSpace) (k : Kind) : Prop where
  rearranged : Rearranged s s' (fun _ => False)
  areas : ∀ x ∈ s.taskMmap, Stays s s' x ∨ (Freed s' x ∧ kind (s.vma x) = k)
  freed : ∀ x, Freed s x → Freed s' x

theorem Merged.refl (h : Agrees s) (k : Kind) : Merged s s k :=
  ⟨.refl h, fun _ hx => .inl ⟨hx, rfl, rfl⟩, fun _ hx => hx⟩

theorem Merged.trans (h : Merged s s' k) (h' : Merged s' s'' k) : Merged s s'' k := by
  refine ⟨h.rearranged.trans h'.rearranged, fun x hx => ?_, fun x hx => h'.freed x (h.freed x hx)⟩
  rcases h.areas x hx with ⟨hx1, hb1, hk1⟩ | ⟨hf, hk⟩
  · rcases h'.areas x hx1 with ⟨hx2, hb2, hk2⟩ | ⟨hf, hk⟩
    · exact .inl ⟨hx2, hb2.trans hb1, hk2.trans hk1⟩
    · exact .inr ⟨hf, hk1.symm.trans hk⟩
  · exact .inr ⟨h'.freed x hf, hk⟩

/-- The area `rhs` has become a part of the area `lhs` before it. -/
structure Joined (s s' : VmSpace) (lhs rhs : Nat) : Prop where
  left : lhs ∈ s.taskMmap
  right : rhs ∈ s.taskMmap
  mergeable : mergeable (s.vma lhs) (s.vma rhs)
  tree : s'.taskRb.Holds s'.taskMmap
  list : s'.taskMmap = s.taskMmap.erase rhs
  vmaLhs : s'.vma lhs = { s.vma lhs with vmEnd := (s.vma rhs).vmEnd }
  vmaRhs : s'.vma rhs = .zero
  other : ∀ x, x ≠ lhs → x ≠ rhs → s'.vma x = s.vma x
  next : s'.next = s.next

theorem mergeVma_joined {rhs : Nat} {merged : Bool} (h : Agrees s) (hl : lhs ∈ s.taskMmap) (hr : rhs ∈ s.taskMmap)
    (hne : lhs ≠ rhs) (hm : mergeable (s.vma lhs) (s.vma rhs)) (he : s.mergeVma fuel lhs rhs = some (merged, s')) :
    merged = true ∧ Joined s s' lhs rhs := by
  rw [mergeVma, if_pos hm] at he
  simp only [Option.bind_eq_bind, Option.pure_def] at he
  obtain ⟨s1, hs1, he⟩ := Option.bind_eq_some_iff.1 he
  cases he
  obtain ⟨ht, hlist, hv, hn⟩ := removeVma_spec (s := s.setVma lhs { s.vma lhs with vmEnd := (s.vma rhs).vmEnd }) h.tree hr hs1
  exact ⟨rfl, hl, hr, hm, ht, hlist, by simp [kfree, setVma, hne, hv], if_pos rfl,
    fun x hx hx' => by simp [kfree, setVma, hx, hx', hv], hn⟩

namespace Joined

variable {rhs : Nat} (hj : Joined s s' lhs rhs)

include hj

theorem kind_eq : kind (s.vma lhs) = kind (s.vma rhs) := by
  obtain ⟨-, -, -, -, -, hflags, hname, hsrc, -⟩ := hj.mergeable
  simp only [kind, hflags, hname, hsrc]

/-- All that is new of an area is where it ends. -/
theorem vma_eq (hx : x ≠ rhs) : s'.vma x = { s.vma x with vmEnd := if x = lhs then (s.vma rhs).vmEnd else (s.vma x).vmEnd } := by
  by_cases hxl : x = lhs
  · rw [hxl, hj.vmaLhs, if_pos rfl]
  · rw [hj.other x hxl hx, if_neg hxl]

variable (h : Agrees s)

include h

theorem ne : lhs ≠ rhs := by
  intro e
  have hadj := hj.mergeable.2.2.2.2.1
  have := h.proper lhs hj.left
  rw [← e] at hadj
  omega

theorem mem_iff : x ∈ s'.taskMmap ↔ x ≠ rhs ∧ x ∈ s.taskMmap := by
  rw [hj.list]
  exact h.tree.tree.1.mem_erase_iff

theorem left_mem : lhs ∈ s'.taskMmap := (hj.mem_iff h).2 ⟨hj.ne h, hj.left⟩

theorem agrees : Agrees s' := by
  have hadj := hj.mergeable.2.2.2.2.1
  have hrhs := h.proper rhs hj.right
  refine ⟨hj.tree, ?_, fun x hx => ?_, fun x hx => ?_⟩
  · refine List.Pairwise.imp_of_mem (fun {a b} ha hb hab => ?_) (hj.list ▸ h.sorted.sublist List.erase_sublist)
    obtain ⟨har, ha⟩ := (hj.mem_iff h).1 ha
    obtain ⟨hbr, hb⟩ := (hj.mem_iff h).1 hb
    rw [hj.vma_eq har, hj.vma_eq hbr]
    -- what is behind the one is behind the other
    have hbp := h.proper b hb
    have hapart := h.apart hj.right hb hbr.symm
    simp only [Apart] at hapart
    grind
  · obtain ⟨hxr, hx⟩ := (hj.mem_iff h).1 hx
    have := h.proper x hx
    rw [hj.vma_eq hxr]
    grind
  · rw [hj.next]
    exact h.below x ((hj.mem_iff h).1 hx).2

theorem covers_left : Covers (s.vma lhs) (s'.vma lhs) := by
  have hadj := hj.mergeable.2.2.2.2.1
  have := h.proper rhs hj.right
  rw [hj.vmaLhs]
  exact ⟨le_rfl, by simp only; omega, rfl⟩

theorem covers_right : Covers (s.vma rhs) (s'.vma lhs) := by
  have hadj := hj.mergeable.2.2.2.2.1
  have := h.proper lhs hj.left
  rw [hj.vmaLhs]
  exact ⟨by simp only; omega, le_rfl, hj.kind_eq⟩

theorem at_iff (va : Nat) (k : Kind) : At s' va k ↔ At s va k := by
  constructor
  · rintro ⟨x, hx, hb, he, hk⟩
    obtain ⟨hxr, hx⟩ := (hj.mem_iff h).1 hx
    rw [hj.vma_eq hxr] at hb he hk
    by_cases hin : va < (s.vma x).vmEnd
    · exact ⟨x, hx, hb, hin, hk⟩
    · -- the address is in what has been joined
      obtain rfl : x = lhs := by
        by_contra hxl
        rw [if_neg hxl] at he
        exact hin he
      have hadj := hj.mergeable.2.2.2.2.1
      rw [if_pos rfl] at he
      exact ⟨rhs, hj.right, by omega, he, hj.kind_eq.symm.trans hk⟩
  · refine At.of_covers fun x hx => ?_
    by_cases hxl : x = lhs
    · exact ⟨lhs, hj.left_mem h, hxl ▸ hj.covers_left h⟩
    by_cases hxr : x = rhs
    · exact ⟨lhs, hj.left_mem h, hxr ▸ hj.covers_right h⟩
    · exact ⟨x, (hj.mem_iff h).2 ⟨hxr, hx⟩, hj.other x hxl hxr ▸ .refl _⟩

theorem merged (hk : kind (s.vma rhs) = k) : Merged s s' k := by
  refine ⟨⟨hj.agrees h, hj.at_iff h, fun a ⟨x, hx, ha⟩ => .inl ?_, le_of_eq hj.next.symm⟩, fun x hx => ?_, fun x hx => ?_⟩
  · obtain ⟨hxr, hx⟩ := (hj.mem_iff h).1 hx
    rw [hj.vma_eq hxr] at ha
    by_cases hxl : x = lhs
    · rw [if_pos hxl] at ha
      exact ha.elim (fun ha => ⟨x, hx, .inl ha⟩) fun ha => ⟨rhs, hj.right, .inr ha⟩
    · rw [if_neg hxl] at ha
      exact ⟨x, hx, ha⟩
  · by_cases hxr : x = rhs
    · exact .inr ⟨⟨fun hx => ((hj.mem_iff h).1 hx).1 hxr, hxr ▸ hj.vmaRhs⟩, hxr ▸ hk⟩
    · refine .inl ⟨(hj.mem_iff h).2 ⟨hxr, hx⟩, ?_⟩
      rw [hj.vma_eq hxr]
      exact ⟨rfl, rfl⟩
  · refine ⟨fun hmem => hx.1 ((hj.mem_iff h).1 hmem).2, ?_⟩
    rw [hj.other x (ne_of_mem_of_not_mem hj.left hx.1).symm (ne_of_mem_of_not_mem hj.right hx.1).symm, hx.2]

end Joined

section

variable (h : Agrees s) (hp : p ∈ s.taskMmap)

include h hp

/-- Merging with the area before. -/
theorem mergePrev_cases (he : s.mergePrev fuel p = some (r, s')) :
    (r = p ∧ s' = s ∧ ∀ q ∈ s.taskMmap, ¬mergeable (s.vma q) (s.vma p)) ∨ Joined s s' r p := by
  have hprev : ∀ q ∈ s.taskMmap, mergeable (s.vma q) (s.vma p) → listPrev p s.taskMmap = some q := fun q hq hm =>
    h.listPrev_adjacent hq hp hm.2.2.2.2.1
  unfold mergePrev at he
  split at he
  · rename_i hnone
    cases he
    exact .inl ⟨rfl, rfl, fun q hq hm => nomatch hnone.symm.trans (hprev q hq hm)⟩
  · rename_i prev hsome
    obtain ⟨⟨merged, s1⟩, hm, he⟩ := Option.bind_eq_some_iff.1 he
    cases he
    by_cases hmerge : mergeable (s.vma prev) (s.vma p)
    · obtain ⟨l1, l2, hl⟩ := listPrev_some hsome
      have hne : prev ≠ p := by
        have hnd := h.tree.tree.1
        rw [hl] at hnd
        grind
      obtain ⟨rfl, hj⟩ := mergeVma_joined h (by simp [hl]) hp hne hmerge hm
      exact .inr hj
    · rw [mergeVma, if_neg hmerge] at hm
      cases hm
      refine .inl ⟨rfl, rfl, fun q hq hqm => ?_⟩
      cases hsome.symm.trans (hprev q hq hqm)
      exact hmerge hqm

/-- Merging with the area behind. -/
theorem mergeNext_cases (he : s.mergeNext fuel p = some (r, s')) :
    r = p ∧ ((s' = s ∧ ∀ q ∈ s.taskMmap, ¬mergeable (s.vma p) (s.vma q)) ∨ ∃ q, Joined s s' p q) := by
  have hnext : ∀ q ∈ s.taskMmap, mergeable (s.vma p) (s.vma q) → listNext p s.taskMmap = some q := fun q hq hm =>
    h.listNext_adjacent hp hq hm.2.2.2.2.1
  unfold mergeNext at he
  split at he
  · rename_i hnone
    cases he
    exact ⟨rfl, .inl ⟨rfl, fun q hq hm => nomatch hnone.symm.trans (hnext q hq hm)⟩⟩
  · rename_i next hsome
    obtain ⟨⟨merged, s1⟩, hm, he⟩ := Option.bind_eq_some_iff.1 he
    cases he
    refine ⟨rfl, ?_⟩
    by_cases hmerge : mergeable (s.vma p) (s.vma next)
    · obtain ⟨l1, l2, hl⟩ := listNext_some hsome
      have hne : p ≠ next := by
        have hnd := h.tree.tree.1
        rw [hl] at hnd
        grind
      exact .inr ⟨next, (mergeVma_joined h hp (by simp [hl]) hne hmerge hm).2⟩
    · rw [mergeVma, if_neg hmerge] at hm
      cases hm
      refine .inl ⟨rfl, fun q hq hqm => ?_⟩
      cases hsome.symm.trans (hnext q hq hqm)
      exact hmerge hqm

/-- `merge_vmas` joins the area with the one before if it can be, and then with the one behind. -/
theorem mergeVmas_cases (he : s.mergeVmas fuel p = some (r, s')) : ∃ s1, Agrees s1 ∧ r ∈ s1.taskMmap ∧
      ((r = p ∧ s1 = s ∧ ∀ q ∈ s.taskMmap, ¬mergeable (s.vma q) (s.vma p)) ∨ Joined s s1 r p) ∧
      ((s' = s1 ∧ ∀ q ∈ s1.taskMmap, ¬mergeable (s1.vma r) (s1.vma q)) ∨ ∃ q, Joined s1 s' r q) := by
  simp only [mergeVmas, Option.bind_eq_bind] at he
  obtain ⟨⟨q, s1⟩, hprev, hnext⟩ := Option.bind_eq_some_iff.1 he
  have hcase := mergePrev_cases h hp hprev
  obtain ⟨hag, hq⟩ : Agrees s1 ∧ q ∈ s1.taskMmap := by
    rcases hcase with ⟨rfl, rfl, -⟩ | hj
    · exact ⟨h, hp⟩
    · exact ⟨hj.agrees h, hj.left_mem h⟩
  obtain ⟨rfl, hcase'⟩ := mergeNext_cases hag hq hnext
  exact ⟨s1, hag, hq, hcase, hcase'⟩

theorem mergeVmas_spec (he : s.mergeVmas fuel p = some (r, s')) :
    Merged s s' (kind (s.vma p)) ∧ r ∈ s'.taskMmap ∧ Covers (s.vma p) (s'.vma r) := by
  obtain ⟨s1, hag, hr, hprev, hnext⟩ := mergeVmas_cases h hp he
  have h1 : Merged s s1 (kind (s.vma p)) ∧ Covers (s.vma p) (s1.vma r) := by
    rcases hprev with ⟨rfl, rfl, -⟩ | hj
    · exact ⟨.refl h _, .refl _⟩
    · exact ⟨hj.merged h rfl, hj.covers_right h⟩
  rcases hnext with ⟨rfl, -⟩ | ⟨q, hj⟩
  · exact ⟨h1.1, hr, h1.2⟩
  · have hk := hj.kind_eq.symm.trans h1.2.2.2
    exact ⟨h1.1.trans (hj.merged hag hk), hj.left_mem hag, h1.2.trans (hj.covers_left hag)⟩

end

/-! ## Adding -/

/-- The record `s.next` has become one of the areas, with the value `v`. -/
structure Inserted (s s' : VmSpace) (v : Vma) : Prop where
  tree : s'.taskRb.Holds s'.taskMmap
  sorted : s'.taskMmap.Pairwise fun a b => (s'.vma a).vmEnd ≤ (s'.vma b).vmBase
  perm : s'.taskMmap.Perm (s.next :: s.taskMmap)
  new : s'.vma s.next = v
  old : ∀ x ∈ s.taskMmap, s'.vma x = s.vma x
  next : s'.next = s.next + 1

namespace Inserted

theorem mem_iff (hi : Inserted s s' v) : x ∈ s'.taskMmap ↔ x = s.next ∨ x ∈ s.taskMmap := by
  rw [hi.perm.mem_iff, List.mem_cons]

theorem agrees (hi : Inserted s s' v) (h : Agrees s) (hv : v.vmBase < v.vmEnd) : Agrees s' := by
  refine ⟨hi.tree, hi.sorted, fun x hx => ?_, fun x hx => ?_⟩
  · rcases hi.mem_iff.1 hx with rfl | hx
    · rwa [hi.new]
    · rw [hi.old x hx]
      exact h.proper x hx
  · rw [hi.next]
    rcases hi.mem_iff.1 hx with rfl | hx
    · exact Nat.lt_succ_self _
    · exact Nat.lt_succ_of_lt (h.below x hx)

/-- The new area is apart from all others. -/
theorem apart (hi : Inserted s s' v) (h : Agrees s) (hx : x ∈ s.taskMmap) : Apart v (s.vma x) := by
  have hne : s.next ≠ x := fun e => lt_irrefl _ (e ▸ h.below x hx)
  have hapart := apart_of_sorted hi.sorted (hi.mem_iff.2 (.inl rfl)) (hi.mem_iff.2 (.inr hx)) hne
  rwa [hi.new, hi.old x hx] at hapart

theorem area_iff (hi : Inserted s s' v) (P : Vma → Prop) :
    (∃ x ∈ s'.taskMmap, P (s'.vma x)) ↔ (∃ x ∈ s.taskMmap, P (s.vma x)) ∨ P v := by
  constructor
  · rintro ⟨x, hx, h⟩
    rcases hi.mem_iff.1 hx with rfl | hx
    · exact .inr (hi.new ▸ h)
    · exact .inl ⟨x, hx, hi.old x hx ▸ h⟩
  · rintro (⟨x, hx, h⟩ | h)
    · exact ⟨x, hi.mem_iff.2 (.inr hx), (hi.old x hx).symm ▸ h⟩
    · exact ⟨s.next, hi.mem_iff.2 (.inl rfl), hi.new.symm ▸ h⟩

end Inserted

/-- What `add_executable_vma` does with a record: it is refused if it meets an area, and otherwise it is inserted and merged with
its neighbours. -/
theorem addExecutableVma_eq (fuel : Nat) (name : String) (addr size flags len : Nat) (src : Option Nat) (h : Agrees s) :
    ((∃ x ∈ s.taskMmap, ¬Apart ⟨name, addr, add64 addr size, src, len, flags⟩ (s.vma x)) ∧
      s.addExecutableVma fuel true name addr size flags src len =
        some (none, s.newVma ⟨name, addr, add64 addr size, src, len, flags⟩)) ∨
    ∃ s1, Inserted s s1 ⟨name, addr, add64 addr size, src, len, flags⟩ ∧
      s.addExecutableVma fuel true name addr size flags src len = (s1.mergeVmas fuel s.next).map fun r => (some r.1, r.2) := by
  simp only [addExecutableVma, if_true, Option.bind_eq_bind, Option.pure_def]
  obtain ⟨hag, hnot, hzero, hv, -, hold⟩ := newVma_agrees h ⟨name, addr, add64 addr size, src, len, flags⟩
  have hl : (s.newVma ⟨name, addr, add64 addr size, src, len, flags⟩).taskMmap = s.taskMmap := rfl
  have hn : (s.newVma ⟨name, addr, add64 addr size, src, len, flags⟩).next = s.next + 1 := rfl
  rcases insertVma_place hag hnot hzero with ⟨hfail, x, hx, hov⟩ | ⟨s1, hok, ht, hs, hperm, hval, hnext⟩
  · rw [hv, hold x hx] at hov
    refine .inl ⟨⟨x, hx, hov⟩, ?_⟩
    rw [hfail]
    rfl
  · refine .inr ⟨s1, ⟨ht, by rwa [hval], by rwa [hl] at hperm, by rw [hval, hv], fun x hx => ?_, hnext.trans hn⟩, ?_⟩
    · rw [hval, hold x hx]
    · rw [hok, Option.map_eq_bind]
      rfl

theorem addExecutableVma_cases {src r : Option Nat} (h : Agrees s)
    (he : s.addExecutableVma fuel true name addr size flags src len = some (r, s')) :
    (r = none ∧ s' = s.newVma ⟨name, addr, add64 addr size, src, len, flags⟩ ∧
      ∃ x ∈ s.taskMmap, ¬Apart ⟨name, addr, add64 addr size, src, len, flags⟩ (s.vma x)) ∨
    ∃ p s1, r = some p ∧ Inserted s s1 ⟨name, addr, add64 addr size, src, len, flags⟩ ∧
      s1.mergeVmas fuel s.next = some (p, s') := by
  rcases addExecutableVma_eq fuel name addr size flags len src h with ⟨hov, heq⟩ | ⟨s1, hi, heq⟩
  · cases heq.symm.trans he
    exact .inl ⟨rfl, rfl, hov⟩
  · rw [heq, Option.map_eq_some_iff] at he
    obtain ⟨⟨p, s2⟩, hm, hr⟩ := he
    cases hr
    exact .inr ⟨p, s1, rfl, hi, hm⟩

/-- What adding an area does: nothing, or the addresses of the range get the area. -/
theorem addExecutableVma_spec {enough : Bool} {src r : Option Nat} (h : Agrees s)
    (hsize : addr < add64 addr size) (he : s.addExecutableVma fuel enough name addr size flags src len = some (r, s')) :
    Agrees s' ∧ s.next ≤ s'.next ∧ (∀ a, IsBound s' a → IsBound s a ∨ (r.isSome ∧ (a = addr ∨ a = add64 addr size))) ∧
      (∀ p, r = some p → p ∈ s'.taskMmap ∧ Covers ⟨name, addr, add64 addr size, src, len, flags⟩ (s'.vma p)) ∧
      (enough = true → (r = none ↔ ∃ va k, addr ≤ va ∧ va < add64 addr size ∧ At s va k)) ∧
      ∀ va k, At s' va k ↔ At s va k ∨ (r.isSome ∧ addr ≤ va ∧ va < add64 addr size ∧ ⟨name, flags, src⟩ = k) := by
  cases enough with
  | false => cases he
  | true =>
    rcases addExecutableVma_cases h he with ⟨rfl, rfl, x, hx, hov⟩ | ⟨p, s1, rfl, hi, hm⟩
    · obtain ⟨hag, -, -, -, hlt, hold⟩ := newVma_agrees h ⟨name, addr, add64 addr size, src, len, flags⟩
      refine ⟨hag, le_of_lt hlt, fun a ha => .inl ?_, fun p hp => (by cases hp), fun _ => ⟨fun _ => ?_, fun _ => rfl⟩,
        fun va k => ?_⟩
      · obtain ⟨x, hx, hb⟩ := ha
        rw [hold x hx] at hb
        exact ⟨x, hx, hb⟩
      · have hxp := h.proper x hx
        simp only [Apart] at hov
        exact ⟨max addr (s.vma x).vmBase, kind (s.vma x), by omega, by omega, x, hx, by omega, by omega, rfl⟩
      · simp only [At, Option.isSome_none, Bool.false_eq_true, false_and, or_false]
        refine exists_congr fun x => and_congr_right fun hx => ?_
        rw [hold x hx]
    · obtain ⟨⟨hr, _, _⟩, hq, hcov⟩ := mergeVmas_spec (hi.agrees h hsize) (hi.mem_iff.2 (.inl rfl)) hm
      rw [hi.new] at hcov
      have hn : s.next ≤ s'.next := by
        have := hr.next
        have := hi.next
        omega
      refine ⟨hr.agrees, hn, fun a ha => ?_, fun q hq' => ?_, fun _ => ⟨fun e => (by cases e), ?_⟩, fun va k => ?_⟩
      · exact ((hi.area_iff fun v => a = v.vmBase ∨ a = v.vmEnd).1 ((hr.bound a ha).resolve_right id)).imp_right fun hb => ⟨rfl, hb⟩
      · cases hq'
        exact ⟨hq, hcov⟩
      · rintro ⟨va, k, h1, h2, x, hx, h3, h4, _⟩
        have := hi.apart h hx
        simp only [Apart] at this
        omega
      · rw [hr.at_iff]
        simp only [Option.isSome_some, true_and]
        exact hi.area_iff fun v => v.vmBase ≤ va ∧ va < v.vmEnd ∧ kind v = k

/-! ## Splitting -/

theorem shrink_agrees (h : Agrees s) (hb : v.vmBase = (s.vma p).vmBase)
    (he : v.vmEnd ≤ (s.vma p).vmEnd) (hv : v.vmBase < v.vmEnd) : Agrees (s.setVma p v) := by
  have hval : ∀ x, (s.setVma p v).vma x = if x = p then v else s.vma x := fun _ => rfl
  refine ⟨h.tree, ?_, fun x hx => ?_, h.below⟩
  · refine List.Pairwise.imp (fun {a b} hab => ?_) h.sorted
    rw [hval, hval]
    grind
  · have := h.proper x hx
    rw [hval]
    grind

/-- The area `w` is a piece of `v`, which was cut within. A piece has a length of its own. -/
structure Piece (cut : Nat → Prop) (v w : Vma) : Prop where
  len : w.vmLen ≠ 0
  covers : Covers w v
  within : ∃ a, cut a ∧ v.vmBase < a ∧ a < v.vmEnd

/-- What splitting the area `p` does. -/
structure Split (s s' : VmSpace) (p : Nat) (cut : Nat → Prop) : Prop where
  rearranged : Rearranged s s' cut
  keep : ∀ x ∈ s.taskMmap, x ∈ s'.taskMmap
  other : ∀ x ∈ s.taskMmap, x ≠ p → s'.vma x = s.vma x
  pieces : ∀ x ∈ s'.taskMmap, (x ∈ s.taskMmap ∧ s'.vma x = s.vma x) ∨ Piece cut (s.vma p) (s'.vma x)

namespace Split

theorem refl (h : Agrees s) : Split s s p cut := ⟨.refl h, fun _ hx => hx, fun _ _ _ => rfl, fun _ hx => .inl ⟨hx, rfl⟩⟩

theorem mono (h : Split s s' p cut) (hc : ∀ a, cut a → cut' a) : Split s s' p cut' :=
  ⟨h.rearranged.mono hc, h.keep, h.other, fun x hx => (h.pieces x hx).imp_right fun hw =>
    ⟨hw.len, hw.covers, hw.within.imp fun a ha => ⟨hc a ha.1, ha.2⟩⟩⟩

/-- Splitting the same area again, or the part that has just been made. -/
theorem trans (h : Split s s' p cut) (h' : Split s' s'' q cut) (hqm : q ∈ s'.taskMmap) (hq : q = p ∨ q ∉ s.taskMmap) :
    Split s s'' p cut := by
  refine ⟨h.rearranged.trans h'.rearranged, fun x hx => h'.keep x (h.keep x hx), fun x hx hxp => ?_, fun x hx => ?_⟩
  · have hxq : x ≠ q := by
      rcases hq with rfl | hq
      · exact hxp
      · exact ne_of_mem_of_not_mem hx hq
    rw [h'.other x (h.keep x hx) hxq, h.other x hx hxp]
  · rcases h'.pieces x hx with ⟨hx, hv⟩ | hw
    · rw [hv]
      exact h.pieces x hx
    · rcases h.pieces q hqm with ⟨hqs, hv⟩ | hw'
      · rw [hv, hq.resolve_right fun hnot => hnot hqs] at hw
        exact .inr hw
      · exact .inr ⟨hw.len, hw.covers.trans hw'.covers, hw'.within⟩

end Split

/-- An area is cut short to `w`, and the rest `v` of it is inserted behind. -/
theorem insertVma_rest {w : Vma} (h : Agrees s) (hp : p ∈ s.taskMmap) (hw : w.vmBase = (s.vma p).vmBase ∧ w.vmBase < w.vmEnd)
    (hadj : w.vmEnd = v.vmBase) (hv : v.vmEnd = (s.vma p).vmEnd ∧ v.vmBase < v.vmEnd) (hlen : w.vmLen ≠ 0 ∧ v.vmLen ≠ 0)
    (hk : kind w = kind (s.vma p) ∧ kind v = kind (s.vma p)) :
    ∃ s', ((s.newVma v).setVma p w).insertVma s.next = some (true, s') ∧ Split s s' p (· = v.vmBase) ∧
      s'.taskMmap.Perm (s.next :: s.taskMmap) ∧ s'.vma s.next = v ∧ s'.vma p = w := by
  obtain ⟨hag, hnot, hzero, hnew, hlt, hold⟩ := newVma_agrees h v
  have hne : s.next ≠ p := fun e => lt_irrefl _ (e ▸ h.below p hp)
  have hval : ∀ x, ((s.newVma v).setVma p w).vma x = if x = p then w else (s.newVma v).vma x := fun _ => rfl
  have hvp : ((s.newVma v).setVma p w).vma p = w := if_pos rfl
  have hvn : ((s.newVma v).setVma p w).vma s.next = v := by rw [hval, if_neg hne, hnew]
  have hother : ∀ x ∈ s.taskMmap, x ≠ p → ((s.newVma v).setVma p w).vma x = s.vma x := fun x hx hxp => by
    rw [hval, if_neg hxp, hold x hx]
  have hag2 : Agrees ((s.newVma v).setVma p w) := by
    refine shrink_agrees hag ?_ ?_ hw.2
    · rw [hold p hp, hw.1]
    · rw [hold p hp, hadj, ← hv.1]
      exact le_of_lt hv.2
  rcases insertVma_spec hag2 hnot hlt hzero (by rw [hvn]; exact hv.2) with ⟨-, x, hx, hov⟩ | ⟨s', hok, hag', hperm, hvma, hn⟩
  · refine absurd ?_ hov
    have hx : x ∈ s.taskMmap := hx
    rw [hvn]
    by_cases hxp : x = p
    · rw [hxp, hvp]
      exact .inr (le_of_eq hadj)
    · have hapart := h.apart hx hp hxp
      rw [hother x hx hxp]
      simp only [Apart] at hapart ⊢
      omega
  rw [← hvma] at hvp hvn hother
  have hmem : ∀ x, x ∈ s'.taskMmap ↔ x = s.next ∨ x ∈ s.taskMmap := fun x => by rw [hperm.mem_iff, List.mem_cons]; rfl
  have hkeep : ∀ x ∈ s.taskMmap, x ∈ s'.taskMmap := fun x hx => (hmem x).2 (.inr hx)
  have hwc : Covers w (s.vma p) := ⟨le_of_eq hw.1.symm, by omega, hk.1.symm⟩
  have hvc : Covers v (s.vma p) := ⟨by omega, le_of_eq hv.1, hk.2.symm⟩
  have hcov : ∀ x ∈ s'.taskMmap, (x ∈ s.taskMmap ∧ s'.vma x = s.vma x) ∨ (x = p ∧ s'.vma x = w) ∨ (x = s.next ∧ s'.vma x = v) := by
    intro x hx
    rcases (hmem x).1 hx with rfl | hx
    · exact .inr (.inr ⟨rfl, hvn⟩)
    · by_cases hxp : x = p
      · exact .inr (.inl ⟨hxp, hxp ▸ hvp⟩)
      · exact .inl ⟨hx, hother x hx hxp⟩
  refine ⟨s', hok, ⟨⟨hag', fun va k => ⟨At.of_covers fun x hx => ?_, ?_⟩, fun a ⟨x, hx, ha⟩ => ?_, ?_⟩, hkeep, hother,
    fun x hx => ?_⟩, hperm, hvn, hvp⟩
  · rcases hcov x hx with ⟨hx, e⟩ | ⟨-, e⟩ | ⟨-, e⟩
    · exact ⟨x, hx, e ▸ .refl _⟩
    · exact ⟨p, hp, e ▸ hwc⟩
    · exact ⟨p, hp, e ▸ hvc⟩
  · rintro ⟨x, hx, hb, he, hxk⟩
    by_cases hxp : x = p
    · subst hxp
      by_cases hva : va < w.vmEnd
      · refine ⟨x, hkeep x hx, ?_⟩
        rw [hvp]
        exact ⟨by omega, hva, hk.1.trans hxk⟩
      · refine ⟨s.next, (hmem _).2 (.inl rfl), ?_⟩
        rw [hvn]
        exact ⟨by omega, by omega, hk.2.trans hxk⟩
    · refine ⟨x, hkeep x hx, ?_⟩
      rw [hother x hx hxp]
      exact ⟨hb, he, hxk⟩
  · rcases hcov x hx with ⟨hx, e⟩ | ⟨-, e⟩ | ⟨-, e⟩
    · exact .inl ⟨x, hx, e ▸ ha⟩
    · rw [e, hw.1, hadj] at ha
      exact ha.imp_left fun ha => ⟨p, hp, .inl ha⟩
    · rw [e, hv.1] at ha
      exact ha.symm.imp_left fun ha => ⟨p, hp, .inr ha⟩
  · rw [hn]
    exact Nat.le_succ _
  · rcases hcov x hx with hx | ⟨-, e⟩ | ⟨-, e⟩
    · exact .inl hx
    · rw [e]
      exact .inr ⟨hlen.1, hwc, v.vmBase, rfl, by omega, by omega⟩
    · rw [e]
      exact .inr ⟨hlen.2, hvc, v.vmBase, rfl, by omega, by omega⟩

/-- The two areas that `split_vma` makes of one. -/
theorem splitVma_cut (h : Agrees s) (hp : lhs ∈ s.taskMmap) (h1 : (s.vma lhs).vmBase < addr)
    (h2 : addr < (s.vma lhs).vmEnd) : ∃ s', s.splitVma true lhs addr = some (some s.next, s') ∧ Split s s' lhs (· = addr) ∧
      s'.taskMmap.Perm (s.next :: s.taskMmap) ∧
      s'.vma s.next = { s.vma lhs with vmBase := addr, vmLen := (s.vma lhs).vmEnd - addr } ∧
      s'.vma lhs = { s.vma lhs with vmEnd := addr, vmLen := addr - (s.vma lhs).vmBase } := by
  have hout : ¬(addr ≤ (s.vma lhs).vmBase ∨ addr ≥ (s.vma lhs).vmEnd) := by omega
  obtain ⟨s', he, hs⟩ := insertVma_rest (v := { s.vma lhs with vmBase := addr, vmLen := (s.vma lhs).vmEnd - addr })
    (w := { s.vma lhs with vmEnd := addr, vmLen := addr - (s.vma lhs).vmBase }) h hp ⟨rfl, h1⟩ rfl ⟨rfl, h2⟩
    ⟨Nat.sub_ne_zero_of_lt h1, Nat.sub_ne_zero_of_lt h2⟩ ⟨rfl, rfl⟩
  refine ⟨s', ?_, hs⟩
  simp only [splitVma, if_neg hout, if_true, Option.bind_eq_bind, Option.pure_def, he, Option.bind_some]

/-- The part of an area from `base` on, as `split_vma` makes it. -/
def cutFront (v : Vma) (base : Nat) : Vma :=
  if v.vmBase < base ∧ base < v.vmEnd then { v with vmBase := base, vmLen := v.vmEnd - base } else v

/-- The part of an area up to `last`. -/
def cutBack (v : Vma) (last : Nat) : Vma :=
  if v.vmBase < last ∧ last < v.vmEnd then { v with vmEnd := last, vmLen := last - v.vmBase } else v

/-- What `split_vmas` makes of an area for the range from `base` to `last`. -/
def cutOut (v : Vma) (base last : Nat) : Vma := cutBack (cutFront v base) last

/-- What `split_vma` leaves and returns. It always returns, and fails only for want of memory. -/
theorem splitVma_spec (addr : Nat) (enough : Bool) (h : Agrees s) (hp : lhs ∈ s.taskMmap) :
    ∃ r s', s.splitVma enough lhs addr = some (r, s') ∧ Split s s' lhs (· = addr) ∧ (enough = true → r.isSome) ∧
      ∀ q, r = some q → q ∈ s'.taskMmap ∧ (q = lhs ∨ q ∉ s.taskMmap) ∧ s'.vma q = cutFront (s.vma lhs) addr ∧
        s'.vma lhs = cutBack (s.vma lhs) addr := by
  unfold cutFront cutBack
  by_cases hcut : (s.vma lhs).vmBase < addr ∧ addr < (s.vma lhs).vmEnd
  · rw [if_pos hcut, if_pos hcut]
    cases enough with
    | false =>
      refine ⟨none, s, ?_, .refl h, fun e => (by cases e), fun q hq => by cases hq⟩
      have hout : ¬(addr ≤ (s.vma lhs).vmBase ∨ addr ≥ (s.vma lhs).vmEnd) := by omega
      simp only [splitVma, if_neg hout, Bool.false_eq_true, if_false, Option.pure_def]
    | true =>
      obtain ⟨s', he, hs, hperm, hv⟩ := splitVma_cut h hp hcut.1 hcut.2
      refine ⟨some s.next, s', he, hs, fun _ => rfl, fun q hq => ?_⟩
      cases hq
      exact ⟨hperm.mem_iff.2 (by simp), .inr fun hn => lt_irrefl _ (h.below _ hn), hv⟩
  · have hout : addr ≤ (s.vma lhs).vmBase ∨ addr ≥ (s.vma lhs).vmEnd := by omega
    rw [if_neg hcut, if_neg hcut]
    refine ⟨some lhs, s, by simp only [splitVma, if_pos hout, Option.pure_def], .refl h, fun _ => rfl, fun q hq => ?_⟩
    cases hq
    exact ⟨hp, .inl rfl, rfl, rfl⟩

theorem splitEnd_spec {middle : Nat} (addr : Nat) (enough : Bool) (h : Agrees s) (hp : middle ∈ s.taskMmap) :
    ∃ r s', s.splitEnd enough middle addr = some (r, s') ∧ Split s s' middle (· = addr) ∧ (enough = true → r.isSome) ∧
      ∀ q, r = some q → q = middle ∧ s'.vma q = cutBack (s.vma middle) addr := by
  unfold splitEnd
  by_cases hgt : (s.vma middle).vmEnd > addr
  · obtain ⟨r, s', he, hs, hsome, hq⟩ := splitVma_spec addr enough h hp
    refine ⟨r.map fun _ => middle, s', ?_, hs, fun e => by simpa using hsome e, fun q hq' => ?_⟩
    · simp only [if_pos hgt, he, Option.bind_eq_bind, Option.bind_some, Option.pure_def]
    · obtain ⟨rhs, rfl, rfl⟩ := Option.map_eq_some_iff.1 hq'
      exact ⟨rfl, (hq rhs rfl).2.2.2⟩
  · refine ⟨some middle, s, by simp only [if_neg hgt, Option.pure_def], .refl h, fun _ => rfl, fun q hq => ?_⟩
    cases hq
    exact ⟨rfl, (if_neg fun hc => hgt hc.2).symm⟩

/-- The part of an area within a range. -/
structure IsPart (s : VmSpace) (p base last : Nat) (s' : VmSpace) (q : Nat) : Prop where
  mem : q ∈ s'.taskMmap
  fresh : q = p ∨ q ∉ s.taskMmap
  vma : s'.vma q = cutOut (s.vma p) base last

/-- `split_vmas` cuts at the ends of the range. -/
theorem splitVmas_spec (base size : Nat) (enough : Bool × Bool) (h : Agrees s) (hp : p ∈ s.taskMmap) :
    ∃ r s', s.splitVmas enough p base size = some (r, s') ∧ Split s s' p (fun a => a = base ∨ a = add64 base size) ∧
      (enough = (true, true) → r.isSome) ∧ ∀ q, r = some q → IsPart s p base (add64 base size) s' q := by
  unfold splitVmas
  by_cases hlt : (s.vma p).vmBase < base
  · obtain ⟨r, s1, he, hs, hsome, hq⟩ := splitVma_spec base enough.1 h hp
    cases r with
    | none =>
      refine ⟨none, s1, ?_, hs.mono fun a ha => .inl ha, fun e => ?_, fun q hq => by cases hq⟩
      · simp only [if_pos hlt, he, Option.bind_eq_bind, Option.bind_some, Option.pure_def]
      · exact hsome (by rw [e])
    | some middle =>
      obtain ⟨hm, hfresh, hfront, -⟩ := hq middle rfl
      obtain ⟨r, s', he', hs', hsome', hq'⟩ := splitEnd_spec (add64 base size) enough.2 hs.rearranged.agrees hm
      refine ⟨r, s', ?_, (hs.mono fun a ha => .inl ha).trans (hs'.mono fun a ha => .inr ha) hm hfresh,
        fun e => hsome' (by rw [e]), fun q hq => ?_⟩
      · simp only [if_pos hlt, he, he', Option.bind_eq_bind, Option.bind_some]
      · obtain ⟨rfl, hback⟩ := hq' q hq
        exact ⟨hs'.keep q hm, hfresh, by rw [hback, hfront, cutOut]⟩
  · obtain ⟨r, s', he', hs', hsome', hq'⟩ := splitEnd_spec (add64 base size) enough.2 h hp
    refine ⟨r, s', by simp only [if_neg hlt, he'], hs'.mono fun a ha => .inr ha, fun e => hsome' (by rw [e]), fun q hq => ?_⟩
    obtain ⟨rfl, hback⟩ := hq' q hq
    exact ⟨hs'.keep q hp, .inl rfl, by rw [hback, cutOut, cutFront, if_neg fun hc => hlt hc.1]⟩

/-- Where the part within a range begins. -/
theorem cutOut_vmBase (v : Vma) (base last : Nat) :
    (cutOut v base last).vmBase = if v.vmBase < base ∧ base < v.vmEnd then base else v.vmBase := by
  unfold cutOut cutBack cutFront
  split <;> split <;> rfl

theorem cutOut_vmEnd (v : Vma) (base last : Nat) : (cutOut v base last).vmEnd =
    if (cutOut v base last).vmBase < last ∧ last < v.vmEnd then last else v.vmEnd := by
  rw [cutOut_vmBase]
  unfold cutOut cutBack cutFront
  grind

theorem kind_cutOut (v : Vma) (base last : Nat) : kind (cutOut v base last) = kind v := by
  unfold cutOut cutBack cutFront
  split <;> split <;> rfl

end VmSpace

end OpenLsd
