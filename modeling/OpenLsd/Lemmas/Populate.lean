import OpenLsd.Lemmas.Backing
import OpenLsd.Lemmas.CallRules

/-!
# What populating a range puts into its pages

`do_populate_vma` is handed the whole range for each area that the range reaches into. For the first one it populates the 2M
block around the start of the range if the area is anonymous and covers the block, and the range otherwise. All areas that
follow find the range populated, and as the range starts before them nothing is copied for them. So what the pages hold in the
end is told by the first area alone.
-/

namespace OpenLsd

open Outcome Function VmSpace PageState

/-! ## Single operations -/

/-- The bytes of a page, if it is there. -/
def PageState.contents (s : Option PageState) : Option (Nat → UInt8) := s.map PageState.bytes

/-- The page is filled with zeros if it is not there. -/
def orZeros (c : Option (Nat → UInt8)) : Nat → UInt8 := c.getD fun _ => 0

section Contents

variable {flags : PageFlags} {a b g : Nat} {s s' : Option PageState}

theorem contents_same {lent : Set Nat} (h : SamePage lent s s') : contents s' = contents s := by
  cases h with
  | none => rfl
  | some h => exact congrArg some h.bytes

theorem contents_protect (hp : flags.present = true) (h : (protectRel flags).at a b g s s') :
    contents s' = contents s := by
  unfold PageRel.at at h
  split at h
  · have h : if flags.present = true then SamePage ∅ (s.map (protect flags)) s' else s' = none := h
    rw [if_pos hp] at h
    rw [contents_same h]
    cases s <;> rfl
  · exact contents_same h

theorem contents_populate (h : (populateRel flags).at a b g s s') : contents s' =
    if a ≤ g ∧ g < b then some (orZeros (contents s)) else contents s := by
  unfold PageRel.at at h
  by_cases hin : a ≤ g ∧ g < b
  · rw [if_pos hin] at h ⊢
    have h : Populated flags s s' := h
    cases h with
    | fresh _ hz _ => exact congrArg some hz
    | copied hc => exact congrArg some hc.bytes
    | same hs => exact congrArg some hs.bytes
  · rw [if_neg hin] at h ⊢
    have h : PopulatedBeside flags s s' := h
    cases h with
    | same hs => exact contents_same hs
    | copied hc => exact congrArg some hc.bytes

theorem contents_filled {image : Nat → UInt8} {src base n : Nat} (h : Filled image src base n g s s') :
    contents s' = (contents s).map (fillBytes image src base n g) := by
  cases h with
  | none => rfl
  | some h => exact congrArg some h.bytes

end Contents

/-- The byte that the page tables map at the address, whoever may access it. -/
def mappedByte (m : Phys) (t : Pml4) (va : Nat) : Option UInt8 :=
  (lookup t va).map fun x =>
    m.bytes (if x.1 then x.2.frame + signExtend va / PAGE_SIZE % PAGE_TABLE_ENTRIES else x.2.frame) (va % PAGE_SIZE)

theorem mappedByte_eq {m : Phys} {t : Pml4} {va : Nat} (hva : va < USER_LIM) :
    mappedByte m t va = (contents (Node.page m t (va / PAGE_SIZE))).map (· (va % PAGE_SIZE)) := by
  rw [mappedByte, page_lookup hva, signExtend_of_user hva, contents, Option.map_map, Option.map_map]
  rfl

/-! ## Areas -/

section Area

variable {image : Nat → UInt8} {v : Vma} {base size g a : Nat}

theorem Vma.fillLen_le (v : Vma) (base size : Nat) : v.fillLen base size ≤ size := by
  unfold Vma.fillLen
  split
  · exact Nat.zero_le _
  · exact Nat.min_le_left _ _

/-- The page with the number `g` is one of the range. -/
def InPages (base size g : Nat) : Prop := base / PAGE_SIZE ≤ g ∧ g < (base + size) / PAGE_SIZE

instance : Decidable (InPages base size g) := inferInstanceAs (Decidable (_ ∧ _))

/-- What a page of the range holds when `do_populate_vma` has filled it from the area. -/
def Vma.filled (v : Vma) (image : Nat → UInt8) (base size g : Nat) (c : Option (Nat → UInt8)) : Nat → UInt8 :=
  fillBytes image (v.fillSrc base) base (v.fillLen base size) g (orZeros c)

/-- What a page holds after `do_populate_vma` for the area. -/
def Vma.populate (v : Vma) (image : Nat → UInt8) (base size g : Nat) (c : Option (Nat → UInt8)) : Option (Nat → UInt8) :=
  if hugeShortcut v base then
    if InPages (blockStart HPAGE_SIZE base) HPAGE_SIZE g then some (orZeros c) else c
  else if InPages base size g then some (v.filled image base size g c) else c

/-- Nothing is copied to pages outside the range. -/
theorem fillBytes_outside (h : UserRange base (base + size)) (hout : ¬InPages base size g) (bytes : Nat → UInt8) :
    fillBytes image (v.fillSrc base) base (v.fillLen base size) g bytes = bytes := by
  funext o
  rw [fillBytes, if_neg]
  rintro ⟨ho, hlo, hhi⟩
  have hlen := v.fillLen_le base size
  have hb := h.alignedBase
  have hl := h.alignedLast
  simp only [InPages, pageAligned, PAGE_SIZE] at *
  omega

/-- What `do_populate_vma` does to the page tables, seen as what the pages hold. -/
theorem populatePages_contents {keep : Orders} {lossy : Prop} {ext : Nat → Nat} {alloc : Orders} {m : Phys}
    {pt : Pml4} {pml4 : Nat} (h : UserRange base (base + size)) (hv : v.vmEnd ≤ USER_LIM) (hacc : Acc keep ext alloc m pt) :
    Ends Panics (populatePages image pml4 v base size (m, pt)) (Moves keep lossy (fun g s s' =>
      contents s' = v.populate image base size g (contents s)) ext alloc m pt) := by
  refine populatePages_moves h hv hacc (fun hs g _ s s' s'' h1 h2 => ?_) fun hs g _ s s1 s2 s3 h1 h2 h3 => ?_
  · rw [contents_protect rfl h2, contents_populate h1, Vma.populate, if_pos hs]
    rfl
  · rw [contents_protect rfl h3, contents_filled h2, contents_populate h1, Vma.populate, if_neg hs]
    by_cases hin : InPages base size g
    · rw [if_pos hin, if_pos (show base / PAGE_SIZE ≤ g ∧ g < (base + size) / PAGE_SIZE from hin)]
      rfl
    · rw [if_neg hin, if_neg (show ¬(base / PAGE_SIZE ≤ g ∧ g < (base + size) / PAGE_SIZE) from hin)]
      cases contents s with
      | none => rfl
      | some c => exact congrArg some (fillBytes_outside h hin c)

/-- An address of the range in an area that has begun before: its byte is the one of the executable, or what was there. -/
theorem filled_byte (hv : v.vmBase ≤ base) (hb : base < 2 ^ 64) (ha : base ≤ a) (hl : a < base + size)
    (c : Option (Nat → UInt8)) : v.filled image base size (a / PAGE_SIZE) c (a % PAGE_SIZE) =
      match v.vmSrc with
      | some src => if a - v.vmBase < v.vmLen then image (src + (a - v.vmBase)) else orZeros c (a % PAGE_SIZE)
      | none => orZeros c (a % PAGE_SIZE) := by
  have hmod := Nat.mod_lt a (show 0 < PAGE_SIZE by decide)
  unfold Vma.filled fillBytes Vma.fillLen Vma.fillSrc
  rw [Nat.div_add_mod', sub64_of_le hv hb]
  cases v.vmSrc with
  | none =>
    simp only
    rw [if_neg (by omega)]
  | some src =>
    simp only [Option.getD_some]
    by_cases hlen : a - v.vmBase < v.vmLen
    · rw [if_pos hlen, if_pos (by omega), show src + (base - v.vmBase) + (a - base) = src + (a - v.vmBase) by omega]
    · rw [if_neg hlen, if_neg (by omega)]

/-- Where no page was, the area backs the byte. -/
theorem filled_backing (hv : v.vmBase ≤ base) (hb : base < 2 ^ 64) (ha : base ≤ a) (hl : a < base + size) :
    v.filled image base size (a / PAGE_SIZE) none (a % PAGE_SIZE) = (v.backing image a).2 := by
  rw [filled_byte hv hb ha hl]
  rfl

theorem fillLen_eq_zero (h : v.vmLen ≤ sub64 base v.vmBase) : v.fillLen base size = 0 := by
  unfold Vma.fillLen
  split
  · rfl
  · rw [Nat.sub_eq_zero_of_le h, Nat.min_zero]

theorem fillBytes_zero (src base g : Nat) (bytes : Nat → UInt8) : fillBytes image src base 0 g bytes = bytes := by
  funext o
  rw [fillBytes, if_neg (by omega)]

theorem not_hugeShortcut (h : base < v.vmBase) : ¬hugeShortcut v base := by
  rintro ⟨-, hle, -⟩
  have : blockStart HPAGE_SIZE base ≤ base := Nat.div_mul_le_self base HPAGE_SIZE
  omega

end Area

/-! ## Ranges -/

section Range

variable {image : Nat → UInt8} {t : TaskMem} {base size flags p va : Nat} {keep : Orders} {lossy : Prop} {ext : Nat → Nat}
  {alloc : Orders}

/-- Some area begins within the range, behind its start. -/
def VmSpace.Crosses (s : VmSpace) (base last : Nat) : Prop :=
  ∃ q ∈ s.taskMmap, base < (s.vma q).vmBase ∧ (s.vma q).vmBase < last

instance (s : VmSpace) (base last : Nat) : Decidable (s.Crosses base last) :=
  inferInstanceAs (Decidable (∃ q ∈ s.taskMmap, _))

/-- What a page holds after `populate_vma_range`, when the range starts in the area `p`. -/
def VmSpace.populate (s : VmSpace) (image : Nat → UInt8) (p base size g : Nat) (c : Option (Nat → UInt8)) : Option (Nat → UInt8) :=
  if s.Crosses base (base + size) ∧ InPages base size g then some ((s.vma p).filled image base size g c)
  else (s.vma p).populate image base size g c

/-- The areas behind the first one find its part of the work done. -/
theorem orZeros_populate (v : Vma) (c : Option (Nat → UInt8)) {g : Nat} (hin : InPages base size g) :
    orZeros (v.populate image base size g c) = v.filled image base size g c := by
  unfold Vma.populate
  split
  · rename_i hs
    have hlen : v.fillLen base size = 0 := by
      unfold Vma.fillLen
      rw [hs.1]
    rw [Vma.filled, hlen, fillBytes_zero]
    split <;> rfl
  · rfl

theorem doPopulateVma_allowed {bad : Stop → Prop} {s : TaskMem} {P : Phys × Pml4 → Prop} (hall : populateAllowed flags (s.vm.vma p).vmFlags)
    (h : Ends bad (populatePages image s.taskPml4 (s.vm.vma p) base size (s.phys, s.pml4)) P) :
    Ends bad (doPopulateVma image flags base size s p) fun r =>
      r.1 = true ∧ r.2.vm = s.vm ∧ r.2.root = s.root ∧ P (r.2.phys, r.2.pml4) := by
  rw [doPopulateVma_eq, if_neg (not_not.2 hall)]
  exact h.bind fun r hr => .ok ⟨rfl, rfl, rfl, hr⟩

/-- `populate_vma_range` on a range that starts in the area `p`, in areas that all allow the access. -/
theorem populateVmaRange_contents (h : AreasOk t.vm) (hacc : Acc keep ext alloc t.phys t.pml4) (hr : UserRange base (base + size))
    (hp : t.vm.findVma base = some p) (hpb : (t.vm.vma p).vmBase ≤ base)
    (hall : ∀ q ∈ t.vm.taskMmap, base < (t.vm.vma q).vmEnd → (t.vm.vma q).vmBase < base + size →
      populateAllowed flags (t.vm.vma q).vmFlags)
    (hlen : ∀ q ∈ t.vm.taskMmap, base < (t.vm.vma q).vmBase → (t.vm.vma q).vmBase < base + size →
      (t.vm.vma q).vmLen ≤ sub64 base (t.vm.vma q).vmBase) :
    Ends Panics (populateVmaRange image t base size flags) fun r => r.1 = true ∧ r.2.vm = t.vm ∧ r.2.root = t.root ∧
      Moves keep lossy (fun g s s' => contents s' = t.vm.populate image p base size g (contents s)) ext alloc
        t.phys t.pml4 (r.2.phys, r.2.pml4) := by
  obtain ⟨hpm, hpe, -⟩ := findVma_some h.agrees hp
  have hadd : add64 base size = base + size := add64_of_le hr.le
  let first : StateRel := fun g s s' =>
    contents s' = (t.vm.vma p).populate image base size g (contents s)
  let all : StateRel := fun g s s' => contents s' =
    if InPages base size g then some ((t.vm.vma p).filled image base size g (contents s))
    else (t.vm.vma p).populate image base size g (contents s)
  -- an area that begins within the range comes after the first one
  have hlater : ∀ s : TaskMem, ∀ q ∈ t.vm.taskMmap, s.vm = t.vm → base < (t.vm.vma q).vmBase → (t.vm.vma q).vmBase < base + size →
      Moves keep lossy first ext alloc t.phys t.pml4 (s.phys, s.pml4) ∨ Moves keep lossy all ext alloc t.phys t.pml4 (s.phys, s.pml4) →
      Ends Panics (doPopulateVma image flags base size s q) fun r => r.1 = true ∧ r.2.vm = s.vm ∧ r.2.root = s.root ∧
        Moves keep lossy all ext alloc t.phys t.pml4 (r.2.phys, r.2.pml4) := by
    intro s q hq hvm hqb hqs hmoves
    have hqe := h.agrees.proper q hq
    refine doPopulateVma_allowed (by rw [hvm]; exact hall q hq (by omega) hqs) ?_
    rw [hvm]
    have hpop : ∀ ext' alloc', Acc keep ext' alloc' s.phys s.pml4 → Ends Panics
        (populatePages image s.taskPml4 (t.vm.vma q) base size (s.phys, s.pml4)) (Moves keep lossy (fun g s s' =>
          contents s' = if InPages base size g then some (orZeros (contents s)) else contents s)
          ext' alloc' s.phys s.pml4) := by
      intro ext' alloc' hacc'
      refine (populatePages_contents hr (h.vmEnd hq).2.2 hacc').mono fun r hm => hm.mono fun g _ s s' hs => ?_
      rw [hs, Vma.populate, if_neg (not_hugeShortcut hqb), Vma.filled, fillLen_eq_zero (hlen q hq hqb hqs), fillBytes_zero]
    rcases hmoves with hmoves | hmoves
    · refine hmoves.then hpop fun g _ s s' s'' hs hs' => ?_
      show contents s'' = _
      rw [hs', hs]
      by_cases hin : InPages base size g
      · rw [if_pos hin, if_pos hin, orZeros_populate _ _ hin]
      · rw [if_neg hin, if_neg hin]
    · refine hmoves.then hpop fun g _ s s' s'' hs hs' => ?_
      show contents s'' = _
      rw [hs', hs]
      by_cases hin : InPages base size g
      · rw [if_pos hin, if_pos hin]
        rfl
      · rw [if_neg hin, if_neg hin]
  unfold populateVmaRange walkVmaRange
  rw [hp, hadd]
  refine .ite (fun hle => absurd hr.lt (by omega)) fun _ => ?_
  -- nothing is done yet; the first area is done; or the first area is done and another one that begins within the range
  refine walkAreas_rule (I := fun s next => s.vm = t.vm ∧ s.root = t.root ∧
    ((next = some p ∧ s.phys = t.phys ∧ s.pml4 = t.pml4) ∨
      (next = listNext p t.vm.taskMmap ∧ Moves keep lossy first ext alloc t.phys t.pml4 (s.phys, s.pml4)) ∨
      (t.vm.Crosses base (base + size) ∧ (∀ q, next = some q → q ∈ t.vm.taskMmap ∧ base < (t.vm.vma q).vmBase) ∧
        Moves keep lossy all ext alloc t.phys t.pml4 (s.phys, s.pml4)))) (by simp [Panics]) ?_ ?_ _ _ _
    ⟨rfl, rfl, .inl ⟨rfl, rfl, rfl⟩⟩
  · rintro s q ⟨hvm, hroot, ⟨hq, hm, hpt⟩ | ⟨hq, hmoves⟩ | ⟨hcross, hnext, hmoves⟩⟩ hlt
    · cases hq
      refine (doPopulateVma_allowed (by rw [hvm]; exact hall p hpm hpe (by rwa [hvm] at hlt)) (P := Moves keep lossy first ext alloc
        t.phys t.pml4) ?_).mono fun r hr' => ?_
      · rw [hvm, hm, hpt]
        exact populatePages_contents hr (h.vmEnd hpm).2.2 hacc
      · obtain ⟨hok, hvm', hroot', hmoves⟩ := hr'
        rw [if_pos hok, hvm]
        exact ⟨hvm'.trans hvm, hroot'.trans hroot, .inr (.inl ⟨rfl, hmoves⟩)⟩
    · obtain ⟨hqm, hle, -⟩ := h.agrees.listNext_first hpm hq.symm
      rw [hvm] at hlt
      have hqb : base < (t.vm.vma q).vmBase := by omega
      refine (hlater s q hqm hvm hqb hlt (.inl hmoves)).mono fun r hr' => ?_
      obtain ⟨hok, hvm', hroot', hmoves⟩ := hr'
      rw [if_pos hok, hvm]
      refine ⟨hvm'.trans hvm, hroot'.trans hroot, .inr (.inr ⟨⟨q, hqm, hqb, hlt⟩, fun x hx => ?_, hmoves⟩)⟩
      obtain ⟨hxm, hle', -⟩ := h.agrees.listNext_first hqm hx
      have := h.agrees.proper q hqm
      exact ⟨hxm, by omega⟩
    · obtain ⟨hqm, hqb⟩ := hnext q rfl
      rw [hvm] at hlt
      refine (hlater s q hqm hvm hqb hlt (.inr hmoves)).mono fun r hr' => ?_
      obtain ⟨hok, hvm', hroot', hmoves⟩ := hr'
      rw [if_pos hok, hvm]
      refine ⟨hvm'.trans hvm, hroot'.trans hroot, .inr (.inr ⟨hcross, fun x hx => ?_, hmoves⟩)⟩
      obtain ⟨hxm, hle', -⟩ := h.agrees.listNext_first hqm hx
      have := h.agrees.proper q hqm
      exact ⟨hxm, by omega⟩
  · rintro s next ⟨hvm, hroot, ⟨hq, -⟩ | ⟨hq, hmoves⟩ | ⟨hcross, -, hmoves⟩⟩ hdone
    · have := hdone p hq
      rw [hvm] at this
      omega
    · refine ⟨rfl, hvm, hroot, hmoves.mono fun g _ s s' hs => ?_⟩
      have hno : ¬t.vm.Crosses base (base + size) := by
        rintro ⟨x, hx, hxb, hxs⟩
        have hxe := h.agrees.proper x hx
        have hafter : (t.vm.vma p).vmEnd ≤ (t.vm.vma x).vmBase := by
          rcases h.agrees.apart hpm hx (fun e => by rw [e] at hpb; omega) with hap | hap
          · exact hap
          · omega
        cases hn : listNext p t.vm.taskMmap with
        | none =>
          have := h.agrees.listNext_none hpm hn hx
          omega
        | some q =>
          have hle := (h.agrees.listNext_first hpm hn).2.2 x hx hafter
          have := hdone q (hq.trans hn)
          rw [hvm] at this
          omega
      rw [VmSpace.populate, if_neg fun hc => hno hc.1]
      exact hs
    · refine ⟨rfl, hvm, hroot, hmoves.mono fun g _ s s' hs => ?_⟩
      rw [VmSpace.populate]
      simp only [hcross, true_and]
      exact hs

theorem VmSpace.findVma_of_mem {s : VmSpace} (h : Agrees s) (hp : p ∈ s.taskMmap) (hb : (s.vma p).vmBase ≤ va)
    (he : va < (s.vma p).vmEnd) : s.findVma va = some p := by
  cases hf : s.findVma va with
  | none =>
    rw [findVma_eq h, List.find?_eq_none] at hf
    exact absurd (decide_eq_true he) (hf p hp)
  | some q =>
    obtain ⟨hqm, hqe, hbefore⟩ := findVma_some h hf
    by_contra hne
    rcases h.apart hp hqm fun e => hne (congrArg some e.symm) with hap | hap
    · exact hbefore va _ le_rfl (by omega) ⟨p, hp, hb, he, rfl⟩
    · omega

/-- A page fault that is taken care of has populated one page of the area that it hits. -/
theorem fault_contents (h : AreasOk t.vm) (hacc : Acc keep ext alloc t.phys t.pml4) :
    Ends Panics (taskPageFaultHandler image t va flags) fun r => r.1 = 0 → ∃ p, t.vm.taskFindVma va = some p ∧ r.2.vm = t.vm ∧
      Moves keep lossy (fun g s s' => contents s' =
        (t.vm.vma p).populate image (roundDown va) PAGE_SIZE g (contents s)) ext alloc t.phys t.pml4 (r.2.phys, r.2.pml4) := by
  have hne : (-EFAULT : Int) ≠ 0 := by decide
  unfold taskPageFaultHandler
  split
  · exact .ok fun hno => absurd hno hne
  · rename_i p hf
    obtain ⟨hpm, hpb, hpe⟩ := taskFindVma_some h.agrees hf
    obtain ⟨hbase, hend⟩ := h.page_in hpm hpb hpe
    refine .ite (fun _ => .ok fun hno => absurd hno hne) fun hw => .ite (fun _ => .ok fun hno => absurd hno hne) fun hx =>
      .ite (fun _ => .ok fun hno => absurd hno hne) fun hread => ?_
    have hhigh := (h.vmEnd hpm).2.2
    have hal := pageAligned_roundDown va
    have hrange : UserRange (roundDown va) (roundDown va + PAGE_SIZE) := by
      refine ⟨hal, ?_, Nat.lt_add_of_pos_right (by decide), by omega⟩
      simp only [pageAligned, PAGE_SIZE] at *
      omega
    have hpos : 0 < PAGE_SIZE := by decide
    have honly : ∀ q ∈ t.vm.taskMmap, roundDown va < (t.vm.vma q).vmEnd → (t.vm.vma q).vmBase < roundDown va + PAGE_SIZE → q = p := by
      intro q hq hqe hqb
      by_contra hne
      rcases h.agrees.apart hq hpm hne with hap | hap <;> omega
    refine Ends.bind (populateVmaRange_contents h hacc hrange (findVma_of_mem h.agrees hpm hbase (by omega)) hbase
      (fun q hq hqe hqb => ?allowed) fun q hq hqb hqe => ?len)
      fun r hr => .ok fun _ => ⟨p, hf, hr.2.1, hr.2.2.2.mono fun g _ s s' hs => ?_⟩
    case allowed =>
      rw [honly q hq hqe hqb]
      refine ⟨fun _ => by simpa using hread, fun hf => ?_, fun hf => ?_⟩
      · simpa [hf] using hw
      · simpa [hf] using hx
    case len =>
      have := h.agrees.proper q hq
      rw [honly q hq (by omega) hqe] at hqb
      omega
    · rw [hs, VmSpace.populate, if_neg]
      rintro ⟨⟨q, hq, hqb, hqe⟩, -⟩
      have := h.agrees.proper q hq
      rw [honly q hq (by omega) hqe] at hqb
      omega

end Range

end OpenLsd
