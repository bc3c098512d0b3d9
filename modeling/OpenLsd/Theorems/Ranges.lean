import OpenLsd.Theorems.AreaBounds
import OpenLsd.Theorems.Areas

/-!
# Areas and ranges of addresses

`insert_vma` looks for overlaps on one path of the tree, and `walk_vma_range` starts at an area that it finds in the tree and goes
on in the list. Both come to the areas that have an address of the range, and to no others.
-/

namespace OpenLsd

namespace VmSpace

open Outcome

variable {s : VmSpace} {p : Nat}

/-- Some address from `lo` to before `hi` is in the area. -/
def Intersects (lo hi : Nat) (v : Vma) : Prop := ∃ a, (lo ≤ a ∧ a < hi) ∧ v.vmBase ≤ a ∧ a < v.vmEnd

theorem intersects_iff {lo hi : Nat} {v : Vma} : Intersects lo hi v ↔ max lo v.vmBase < min hi v.vmEnd := by
  constructor
  · rintro ⟨a, h⟩
    omega
  · exact fun h => ⟨max lo v.vmBase, by omega⟩

instance (lo hi : Nat) (v : Vma) : Decidable (Intersects lo hi v) := decidable_of_iff _ intersects_iff.symm

/-! ## Inserting -/

theorem not_apart_iff {v w : Vma} (hv : v.vmBase < v.vmEnd) (hw : w.vmBase < w.vmEnd) :
    ¬Apart v w ↔ Intersects v.vmBase v.vmEnd w := by
  rw [intersects_iff, Apart]
  omega

/-- A sorted list with one more area is the list with the area put in somewhere. -/
theorem Agrees.put_in (h : Agrees s) {l : List Nat} (hs : l.Pairwise fun a b => (s.vma a).vmEnd ≤ (s.vma b).vmBase)
    (hl : l.Perm (p :: s.taskMmap)) : ∃ a b, s.taskMmap = a ++ b ∧ l = a ++ p :: b := by
  obtain ⟨a, b, rfl⟩ := List.append_of_mem (hl.mem_iff.2 List.mem_cons_self)
  have hperm : (a ++ b).Perm s.taskMmap := (List.perm_middle.symm.trans hl).cons_inv
  refine ⟨a, b, ?_, rfl⟩
  refine hperm.symm.eq_of_pairwise (fun x y hx hy hxy hyx => ?_) h.sorted (hs.sublist (by simp))
  have := h.proper x hx
  have := h.proper y (hperm.mem_iff.1 hy)
  omega

/-- `insert_vma` with a new area that is not empty.
1. The result is `-1` exactly if the area has an address in common with another one.
2. Then nothing is changed.
3. Otherwise the area comes into the list between those before it and those after it, which keep their order, and the nodes of the
tree from left to right are the list. -/
theorem insert_vma_exact (h : Agrees s) (hp : p ∉ s.taskMmap) (hz : s.taskRb.node p = .zero)
    (hv : (s.vma p).vmBase < (s.vma p).vmEnd) :
    ((∃ s', s.insertVma p = some (false, s')) ↔ ∃ x ∈ s.taskMmap, Intersects (s.vma p).vmBase (s.vma p).vmEnd (s.vma x)) ∧
    (∀ s', s.insertVma p = some (false, s') → s' = s) ∧
    ((¬∃ x ∈ s.taskMmap, Intersects (s.vma p).vmBase (s.vma p).vmEnd (s.vma x)) → ∃ s' a b, s.insertVma p = some (true, s') ∧
      s.taskMmap = a ++ b ∧ s'.taskMmap = a ++ p :: b ∧ (∀ x ∈ a, (s.vma x).vmEnd ≤ (s.vma p).vmBase) ∧
      (∀ x ∈ b, (s.vma p).vmEnd ≤ (s.vma x).vmBase) ∧ s'.vma = s.vma ∧
      ∀ n, s'.taskMmap.length ≤ n → inorder s'.taskRb n s'.taskRb.root = s'.taskMmap) := by
  rcases insertVma_place h hp hz with ⟨hfail, x, hx, hov⟩ | ⟨s', hok, htree, hs, hperm, hval, _⟩
  · have hmeet := (not_apart_iff hv (h.proper x hx)).1 hov
    refine ⟨iff_of_true ⟨s, hfail⟩ ⟨x, hx, hmeet⟩, fun s' he => ?_, fun hno => absurd ⟨x, hx, hmeet⟩ hno⟩
    rw [hfail] at he
    cases he
    rfl
  · obtain ⟨a, b, hab, hl⟩ := h.put_in hs hperm
    have hsort := hs
    simp only [hl, List.pairwise_append, List.pairwise_cons, List.mem_cons] at hsort
    have hbefore : ∀ x ∈ a, (s.vma x).vmEnd ≤ (s.vma p).vmBase := fun x hx => hsort.2.2 x hx p (.inl rfl)
    have hafter : ∀ x ∈ b, (s.vma p).vmEnd ≤ (s.vma x).vmBase := hsort.2.1.1
    have hno : ¬∃ x ∈ s.taskMmap, Intersects (s.vma p).vmBase (s.vma p).vmEnd (s.vma x) := by
      rintro ⟨x, hx, c, hc⟩
      rw [hab, List.mem_append] at hx
      rcases hx with hx | hx
      · have := hbefore x hx
        omega
      · have := hafter x hx
        omega
    refine ⟨iff_of_false (fun ⟨s1, he⟩ => ?_) hno, fun s1 he => ?_, fun _ =>
      ⟨s', a, b, hok, hab, hl, hbefore, hafter, hval, fun n hn => ?_⟩⟩
    · rw [hok] at he
      cases he
    · rw [hok] at he
      cases he
    · obtain ⟨_, t, ht, hlist⟩ := htree.tree
      exact (inorder_repr ht (by rwa [hlist])).trans hlist

theorem twoAreas_agrees : Agrees twoAreas := by
  refine ⟨⟨⟨by decide, .node .leaf 0 (.node .leaf 1 .leaf), ?_, rfl⟩, fun r hr => rfl⟩, by decide, by decide, by decide⟩
  simp [PtrTree.Repr, RbTree.links, twoAreas]

/-- An area that fits between two others, and one that does not. -/
theorem insert_vma_exact_two :
    (∃ s' a b, (twoAreas.newVma { Vma.zero with vmBase := 0x2000, vmEnd := 0x3000 }).insertVma 2 = some (true, s') ∧
      s'.taskMmap = a ++ 2 :: b ∧ a ++ b = [0, 1]) ∧
    ∃ s', (twoAreas.newVma { Vma.zero with vmBase := 0x2000, vmEnd := 0x3001 }).insertVma 2 = some (false, s') := by
  constructor
  · obtain ⟨hag, hnot, hzero, _⟩ := newVma_agrees twoAreas_agrees { Vma.zero with vmBase := 0x2000, vmEnd := 0x3000 }
    obtain ⟨s', a, b, he, hab, hl, _⟩ := (insert_vma_exact hag hnot hzero (by decide)).2.2 (by decide)
    exact ⟨s', a, b, he, hl, hab.symm⟩
  · obtain ⟨hag, hnot, hzero, _⟩ := newVma_agrees twoAreas_agrees { Vma.zero with vmBase := 0x2000, vmEnd := 0x3001 }
    exact (insert_vma_exact hag hnot hzero (by decide)).1.2 (by decide)

end VmSpace

/-! ## Walking -/

section Walking

open VmSpace

/-- What a caller sees of a result: whether it is negative. -/
def signOf (r : Int × TaskMem) : Bool × TaskMem := (decide (0 ≤ r.1), r.2)

theorem walkAreas_sign (f : TaskMem → Nat → Kernel (Int × TaskMem)) (last n : Nat) (next : Option Nat) (s : TaskMem) :
    walkAreas (fun s p => (f s p).map signOf) last n next s = (walkAreasRet f last n next s).map signOf := by
  induction n generalizing next s with
  | zero => rfl
  | succ n ih =>
    cases next with
    | none => rfl
    | some p =>
      unfold walkAreas walkAreasRet
      split
      · cases f s p with
        | error e => rfl
        | ok r =>
          show (if decide (0 ≤ r.1) = true then _ else _) = Except.map signOf (if r.1 < 0 then _ else _)
          by_cases hr : r.1 < 0
          · rw [if_pos hr, if_neg (by simpa using hr)]
            simp [Except.map, signOf, hr]
          · rw [if_neg hr, if_pos (by simpa using hr)]
            exact ih _ _
      · rfl

/-- The walk of the calls is the one with results, as far as they see it. -/
theorem walkVmaRange_sign (getVma : Nat → Nat → TaskMem → Nat → Kernel (Int × TaskMem)) (s : TaskMem) (base size : Nat) :
    walkVmaRange (fun base size s p => (getVma base size s p).map signOf) s base size =
      (walkVmaRangeRet getVma s base size).map signOf := by
  unfold walkVmaRange walkVmaRangeRet
  split
  · rfl
  · split
    · rfl
    · exact walkAreas_sign _ _ _ _ _

/-- Calls a function for the areas of a list, up to the first negative result. -/
def callEach (f : TaskMem → Nat → Kernel (Int × TaskMem)) : List Nat → TaskMem → Kernel (Int × TaskMem)
  | [], s => .ok (0, s)
  | p :: l, s => do
    let (ret, s) ← f s p
    if ret < 0 then .ok (ret, s) else callEach f l s

/-- The areas that have an address from `lo` to before `hi`, in the order of the list. -/
def areasIn (s : VmSpace) (lo hi : Nat) : List Nat := s.taskMmap.filter fun p => Intersects lo hi (s.vma p)

theorem areasIn_eq_nil {s : VmSpace} {lo hi : Nat} : areasIn s lo hi = [] ↔ ¬∃ p ∈ s.taskMmap, Intersects lo hi (s.vma p) := by
  simp [areasIn]

variable {s : TaskMem} {base last size p : Nat} {a b : List Nat}

/-- From an area that begins behind the range on there is none that has an address of it. -/
theorem filter_behind (h : Agrees s.vm) (hl : s.vm.taskMmap = a ++ p :: b) (hout : last ≤ (s.vm.vma p).vmBase) :
    (p :: b).filter (fun p => Intersects base last (s.vm.vma p)) = [] := by
  obtain ⟨_, hafter, hproper, _⟩ := h.around hl
  have hp := hproper p (by simp)
  simp only [List.filter_eq_nil_iff, List.mem_cons, decide_eq_true_eq, intersects_iff]
  rintro x (rfl | hx)
  · omega
  · have := hafter x hx
    omega

/-- The loop from the areas `b` on, which are those that end above the base. -/
theorem walkAreasRet_eq {f : TaskMem → Nat → Kernel (Int × TaskMem)} (hf : ∀ s p ret s', f s p = .ok (ret, s') → s'.vm = s.vm)
    (hlt : base < last) {n : Nat} (h : Agrees s.vm) (hl : s.vm.taskMmap = a ++ b) (hb : ∀ x ∈ b, base < (s.vm.vma x).vmEnd)
    (hn : b.length < n) :
    walkAreasRet f last n b.head? s = callEach f (b.filter fun p => Intersects base last (s.vm.vma p)) s := by
  induction b generalizing a n s with
  | nil =>
    obtain ⟨n, rfl⟩ := Nat.exists_eq_succ_of_ne_zero (Nat.ne_of_gt hn)
    rfl
  | cons p b ih =>
    obtain ⟨n, rfl⟩ := Nat.exists_eq_succ_of_ne_zero (Nat.ne_of_gt (Nat.zero_lt_of_lt hn))
    obtain ⟨_, _, hproper, hnext⟩ := h.around hl
    have hp := hproper p (by simp)
    have hend := hb p List.mem_cons_self
    by_cases hlast : (s.vm.vma p).vmBase < last
    · have hin : Intersects base last (s.vm.vma p) := intersects_iff.2 (by omega)
      rw [List.filter_cons_of_pos (by simpa using hin)]
      simp only [List.head?_cons, walkAreasRet, callEach, if_pos hlast, hnext]
      cases hr : f s p with
      | error e => rfl
      | ok r =>
        have hvm := hf s p r.1 r.2 hr
        show (if r.1 < 0 then _ else _) = if r.1 < 0 then _ else _
        rw [← hvm] at h hl hb ⊢
        rw [ih h (a := a ++ [p]) (by simpa using hl) (fun x hx => hb x (List.mem_cons_of_mem _ hx)) (by simpa using hn)]
    · rw [filter_behind h hl (by omega)]
      exact if_neg hlast

/-- Either no area has an address of the range, and nothing is called, or the areas that have one are. -/
theorem walkVmaRangeRet_cases (h : Agrees s.vm) (hsize : 0 < size) (hwrap : base + size < 2 ^ 64) :
    (areasIn s.vm base (base + size) = [] ∧ ∀ getVma, walkVmaRangeRet getVma s base size = .ok (-1, s)) ∨
    (areasIn s.vm base (base + size) ≠ [] ∧ ∀ getVma : Nat → Nat → TaskMem → Nat → Kernel (Int × TaskMem),
      (∀ s p ret s', getVma base size s p = .ok (ret, s') → s'.vm = s.vm) →
      walkVmaRangeRet getVma s base size = callEach (getVma base size) (areasIn s.vm base (base + size)) s) := by
  unfold walkVmaRangeRet
  rw [show add64 base size = base + size from Nat.mod_eq_of_lt hwrap]
  cases hfind : s.vm.findVma base with
  | none =>
    refine .inl ⟨areasIn_eq_nil.2 ?_, fun _ => rfl⟩
    rw [findVma_eq h] at hfind
    rintro ⟨p, hp, a, ha⟩
    have := List.find?_eq_none.1 hfind p hp
    simp only [decide_eq_true_eq] at this
    omega
  | some p =>
    obtain ⟨a, b, hl, ha, hb⟩ := findVma_split h hfind
    -- The areas before the one that was found do not end above the base.
    have hin : areasIn s.vm base (base + size) = (p :: b).filter fun p => Intersects base (base + size) (s.vm.vma p) := by
      have hnone : a.filter (fun p => Intersects base (base + size) (s.vm.vma p)) = [] := by
        simp only [List.filter_eq_nil_iff, decide_eq_true_eq, intersects_iff]
        intro x hx
        have := ha x hx
        omega
      rw [areasIn, hl, List.filter_append, hnone, List.nil_append]
    rw [hin]
    by_cases hout : base + size ≤ (s.vm.vma p).vmBase
    · exact .inl ⟨filter_behind h hl hout, fun _ => if_pos hout⟩
    · have hp := h.proper p (by simp [hl])
      have hend := hb p List.mem_cons_self
      have hmeet : Intersects base (base + size) (s.vm.vma p) := intersects_iff.2 (by omega)
      refine .inr ⟨by simp [List.filter_cons_of_pos, hmeet], fun getVma hf => ?_⟩
      exact (if_neg hout).trans (walkAreasRet_eq hf (by omega) h hl hb (by simp [hl]))

theorem callEach_zero (l : List Nat) (s : TaskMem) : callEach (fun s _ => .ok (0, s)) l s = .ok (0, s) := by
  induction l with
  | nil => rfl
  | cons p l ih => exact ih

/-- With a callback that leaves the areas as they are, `walk_vma_range` on a range that does not wrap
1. calls it for each area that has an address of the range, in ascending order, up to the first negative result, which it returns;
if there is no such area it returns `-1`;
2. returns `-1` without looking at the callback exactly if no area has an address of the range;
3. the areas are called in ascending order, each one once. -/
theorem walk_vma_range_exact (h : Agrees s.vm) (hsize : 0 < size) (hwrap : base + size < 2 ^ 64) :
    (∀ getVma : Nat → Nat → TaskMem → Nat → Kernel (Int × TaskMem),
      (∀ s p ret s', getVma base size s p = .ok (ret, s') → s'.vm = s.vm) →
      walkVmaRangeRet getVma s base size = if areasIn s.vm base (base + size) = [] then .ok (-1, s)
        else callEach (getVma base size) (areasIn s.vm base (base + size)) s) ∧
    ((∀ getVma, walkVmaRangeRet getVma s base size = .ok (-1, s)) ↔
      ¬∃ p ∈ s.vm.taskMmap, Intersects base (base + size) (s.vm.vma p)) ∧
    (areasIn s.vm base (base + size)).Pairwise (fun a b => (s.vm.vma a).vmEnd ≤ (s.vm.vma b).vmBase) ∧
    (areasIn s.vm base (base + size)).Nodup := by
  refine ⟨fun getVma hf => ?_, ?_, h.sorted.sublist List.filter_sublist, h.tree.tree.1.sublist List.filter_sublist⟩
  · rcases walkVmaRangeRet_cases h hsize hwrap with ⟨hnil, hwalk⟩ | ⟨hne, hwalk⟩
    · rw [if_pos hnil, hwalk]
    · rw [if_neg hne, hwalk getVma hf]
  · rw [← areasIn_eq_nil]
    rcases walkVmaRangeRet_cases h hsize hwrap with ⟨hnil, hwalk⟩ | ⟨hne, hwalk⟩
    · exact iff_of_true hwalk hnil
    · refine iff_of_false (fun hall => ?_) hne
      have hzero := hwalk (fun _ _ s _ => .ok (0, s)) fun s p ret s' he => by
        cases he
        rfl
      rw [hall, callEach_zero] at hzero
      cases hzero

/-- The range from the middle of the first area to the end of the gap behind it. -/
theorem walk_vma_range_exact_two : ∃ s : TaskMem, areasIn s.vm 0x1800 0x3000 = [0] ∧
    walkVmaRangeRet (fun _ _ s p => .ok (-(p : Int) - 2, s)) s 0x1800 0x1800 = .ok (-2, s) := by
  refine ⟨bareTask twoAreas, by decide, ?_⟩
  rw [(walk_vma_range_exact twoAreas_agrees (by decide) (by decide)).1 _ fun s p ret s' he => by cases he; rfl]
  rfl

end Walking

end OpenLsd
