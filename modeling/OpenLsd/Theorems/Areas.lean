import OpenLsd.Lemmas.AreaCalls

/-!
# The areas of a task over whole runs

Whatever is added, removed, split and merged, in whatever order, `task_rb` and `task_mmap` hold the same areas in the same
order. And what `find_vma` finds on any search tree of areas, whether it is balanced or not.
-/

namespace OpenLsd

namespace VmSpace

/-- One operation on the areas of a task. An operation that removes an area happens when `rb_remove` returns. -/
inductive AreaStep : VmSpace → VmSpace → Prop
  | addExecutable {s s' : VmSpace} {fuel addr size flags len : Nat} {enough : Bool} {name : String} {src r : Option Nat}
    (hsize : 0 < size) (hwrap : addr + size < 2 ^ 64)
    (he : s.addExecutableVma fuel enough name addr size flags src len = some (r, s')) : AreaStep s s'
  | addAnonymous {s s' : VmSpace} {fuel addr size flags : Nat} {enough : Bool} {name : String} {r : Option Nat}
    (hsize : 0 < size) (hwrap : addr + size < 2 ^ 64)
    (he : s.addAnonymousVma fuel enough name addr size flags = some (r, s')) : AreaStep s s'
  | remove {s s' : VmSpace} {fuel p : Nat} (hp : p ∈ s.taskMmap) (he : s.removeVma fuel p = some s') : AreaStep s s'
  | split {s s' : VmSpace} {p base size : Nat} {enough : Bool × Bool} {r : Option Nat} (hp : p ∈ s.taskMmap)
    (he : s.splitVmas enough p base size = some (r, s')) : AreaStep s s'
  | merge {s s' : VmSpace} {fuel p r : Nat} (hp : p ∈ s.taskMmap) (he : s.mergeVmas fuel p = some (r, s')) : AreaStep s s'

/-- What operations make of no areas. -/
inductive AreaReachable : VmSpace → Prop
  | empty : AreaReachable empty
  | step {s s' : VmSpace} (hr : AreaReachable s) (hs : AreaStep s s') : AreaReachable s'

variable {s s' : VmSpace}

theorem lt_add64 {addr size : Nat} (hsize : 0 < size) (hwrap : addr + size < 2 ^ 64) : addr < add64 addr size := by
  rw [add64, Nat.mod_eq_of_lt hwrap]
  omega

theorem Agrees.step (h : Agrees s) (hs : AreaStep s s') : Agrees s' := by
  cases hs with
  | addExecutable hsize hwrap he => exact (addExecutableVma_spec h (lt_add64 hsize hwrap) he).1
  | addAnonymous hsize hwrap he => exact (addExecutableVma_spec h (lt_add64 hsize hwrap) he).1
  | remove hp he => exact removeVma_agrees h hp he
  | @split _ _ _ enough _ hp he =>
    obtain ⟨r, s1, he', hr, _⟩ := splitVmas_spec _ _ enough h hp
    rw [he', Option.some.injEq, Prod.mk.injEq] at he
    exact he.2 ▸ hr.rearranged.agrees
  | merge hp he => exact (mergeVmas_spec h hp he).1.rearranged.agrees

theorem Agrees.run (h : AreaReachable s) : Agrees s := by
  induction h with
  | empty => exact empty_agrees
  | step _ hs ih => exact ih.step hs

/-- The nodes of a tree from left to right, as far as `n` levels go. -/
def inorder (t : RbTree) : Nat → Option Nat → List Nat
  | 0, _ => []
  | _ + 1, none => []
  | n + 1, some p => inorder t n ((t.node p).child false) ++ p :: inorder t n ((t.node p).child true)

theorem inorder_repr {t : RbTree} {u : PtrTree.Shape Nat} {par ptr : Option Nat} {n : Nat} (h : PtrTree.Repr t.links par ptr u)
    (hn : u.toList.length ≤ n) : inorder t n ptr = u.toList := by
  induction u generalizing par ptr n with
  | leaf =>
    rw [show ptr = none from h]
    cases n <;> rfl
  | node l p r ihl ihr =>
    obtain ⟨rfl, _, hl, hr⟩ := h
    simp only [PtrTree.Shape.toList, List.length_append, List.length_cons] at hn ⊢
    cases n with
    | zero => omega
    | succ n =>
      rw [inorder]
      have h1 := ihl hl (n := n) (by omega)
      have h2 := ihr hr (n := n) (by omega)
      exact congr (congrArg (· ++ ·) h1) (congrArg (p :: ·) h2)

/-- The tree and the list agree in every state that operations lead to.
1. The nodes of the tree from left to right are the list, however deep the traversal may go.
2. The list is ascending, and its areas are apart.
3. The children of a node are nodes of the tree and have the node as their parent, and the root has none.
4. Splitting and inserting never get stuck: only an operation that removes an area depends on `rb_remove`. -/
theorem vma_indexes_agree (h : AreaReachable s) :
    (∀ n, s.taskMmap.length ≤ n → inorder s.taskRb n s.taskRb.root = s.taskMmap) ∧
    (s.taskMmap.Pairwise (fun a b => (s.vma a).vmBase < (s.vma b).vmBase) ∧
      s.taskMmap.Pairwise (fun a b => (s.vma a).vmEnd ≤ (s.vma b).vmBase)) ∧
    ((∀ p ∈ s.taskMmap, ∀ dir c, (s.taskRb.node p).child dir = some c →
        c ∈ s.taskMmap ∧ (s.taskRb.node c).parent = some p) ∧
      ∀ r, s.taskRb.root = some r → r ∈ s.taskMmap ∧ (s.taskRb.node r).parent = none) ∧
    ((∀ p base size enough, p ∈ s.taskMmap → (s.splitVmas enough p base size).isSome) ∧
      ∀ v : Vma, v.vmBase < v.vmEnd → ((s.newVma v).insertVma s.next).isSome) := by
  have hi := Agrees.run h
  refine ⟨fun n hn => ?_, ⟨?_, hi.sorted⟩, ⟨fun p hp dir c hc => hi.tree.tree.child_mem hp hc, fun r hr => hi.tree.tree.root_mem hr⟩,
    fun p base size enough hp => ?_, fun v hv => ?_⟩
  · obtain ⟨_, t, ht, hl⟩ := hi.tree.tree
    exact (inorder_repr ht (by rw [hl]; exact hn)).trans hl
  · refine List.Pairwise.imp_of_mem (fun {a b} ha _ hab => ?_) hi.sorted
    exact lt_of_lt_of_le (hi.proper a ha) hab
  · obtain ⟨r, s', he, _⟩ := splitVmas_spec base size enough hi hp
    rw [he]
    rfl
  · obtain ⟨hag, hnot, hzero, hval, hlt, _⟩ := newVma_agrees hi v
    rcases insertVma_spec hag hnot hlt hzero (by rw [hval]; exact hv) with ⟨he, _⟩ | ⟨s', he, _⟩
    · rw [he]
      rfl
    · rw [he]
      rfl

/-- Two areas that do not touch, the higher one added first. -/
theorem vma_indexes_agree_two : ∃ s, AreaReachable s ∧ s.taskMmap = [1, 0] ∧
    ∀ n, s.taskMmap.length ≤ n → inorder s.taskRb n s.taskRb.root = [1, 0] := by
  have hrun : ∃ r1, empty.addAnonymousVma 8 true "user" 0x5000 0x1000 1 = some r1 ∧
      ∃ r, r1.2.addAnonymousVma 8 true "user" 0x1000 0x1000 1 = some r ∧ r.2.taskMmap = [1, 0] := by
    decide +kernel
  obtain ⟨⟨r1, s1⟩, hs1, ⟨r, s⟩, hs, hl⟩ := hrun
  have hr : AreaReachable s :=
    (AreaReachable.empty.step (.addAnonymous (by decide) (by decide) hs1)).step (.addAnonymous (by decide) (by decide) hs)
  refine ⟨s, hr, hl, fun n hn => ?_⟩
  rw [(vma_indexes_agree hr).1 n hn, hl]

/-! ## Lookups -/

/-- The lookups on a search tree of areas:
1. `find_vma` finds the area with the smallest end above the address;
2. it finds none exactly if no area ends above the address;
3. `task_find_vma` finds the area that the address is in, which is the only one;
4. it finds none exactly if the address is in no area. -/
theorem find_vma_lower_bound {t : PtrTree.Shape Nat} (h : Searchable s t) (addr : Nat) :
    (∀ p, s.findVma addr = some p ↔ p ∈ t.toList ∧ addr < (s.vma p).vmEnd ∧
      ∀ q ∈ t.toList, addr < (s.vma q).vmEnd → (s.vma p).vmEnd ≤ (s.vma q).vmEnd) ∧
    (s.findVma addr = none ↔ ¬∃ p ∈ t.toList, addr < (s.vma p).vmEnd) ∧
    (∀ p, s.taskFindVma addr = some p ↔ p ∈ t.toList ∧ (s.vma p).vmBase ≤ addr ∧ addr < (s.vma p).vmEnd) ∧
    (s.taskFindVma addr = none ↔ ¬∃ p ∈ t.toList, (s.vma p).vmBase ≤ addr ∧ addr < (s.vma p).vmEnd) := by
  refine ⟨fun p => ⟨fun hf => ?_, fun ⟨hp, hlt, hleast⟩ => ?_⟩, ?_, fun p => h.taskFindVma_eq_some, ?_⟩
  · obtain ⟨hp, hlt, hnext⟩ := h.findVma_some hf
    refine ⟨hp, hlt, fun q hq hlt => ?_⟩
    by_cases hqp : q = p
    · rw [hqp]
    · have := hnext q hq hqp hlt
      have := h.proper q hq
      omega
  · cases hf : s.findVma addr with
    | none =>
      have := h.findVma_none.1 hf p hp
      omega
    | some q =>
      obtain ⟨hq, hend, hnext⟩ := h.findVma_some hf
      by_cases hpq : p = q
      · rw [hpq]
      · have := hnext p hp hpq hlt
        have := hleast q hq hend
        have := h.proper p hp
        omega
  · simp [h.findVma_none]
  · rw [Option.eq_none_iff_forall_ne_some]
    simp [h.taskFindVma_eq_some]

/-- Two areas with a gap between them, the lower one at the root. -/
def twoAreas : VmSpace where
  taskRb := ⟨fun p => ⟨if p = 1 then some 0 else none, fun d => if p = 0 ∧ d = true then some 1 else none, .black⟩, some 0⟩
  taskMmap := [0, 1]
  vma := fun p => { Vma.zero with vmBase := 0x2000 * p + 0x1000, vmEnd := 0x2000 * p + 0x2000 }
  next := 2

theorem find_vma_lower_bound_two : twoAreas.findVma 0x2000 = some 1 ∧ twoAreas.taskFindVma 0x2000 = none := by
  have h : Searchable twoAreas (.node .leaf 0 (.node .leaf 1 .leaf)) := by
    refine ⟨?_, by decide, ?_, by decide, by decide⟩
    · simp [PtrTree.Repr, RbTree.links, twoAreas]
    · simp [PtrTree.Shape.toList, Apart, twoAreas]
  obtain ⟨h1, -, -, h4⟩ := find_vma_lower_bound h 0x2000
  exact ⟨(h1 1).2 (by decide), h4.2 (by decide)⟩

end VmSpace

end OpenLsd
