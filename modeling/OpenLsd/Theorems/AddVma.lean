import OpenLsd.Lib.Stride
import OpenLsd.Theorems.AreaBounds
import OpenLsd.Theorems.Placement

/-!
# The search for a place

The loops of `add_vma` go downward in steps of the size of the area. The base is a 64-bit number: it passes below zero and goes
on from the top, and with a size of zero it stays where it is. Here is when the loops end, even if there is no place for the
area anywhere.

The loops try only the places that lie a multiple of the size below the end of the user half. Here is also when that is enough
to find a place.
-/

namespace OpenLsd

open Outcome VmSpace

/-! ## The search, whatever an attempt gives -/

/-- What comes of trying to put an area at a base. -/
abbrev Attempt := VmSpace → Nat → Kernel (Option Nat × VmSpace)

/-- A loop of `add_vma`. -/
def scanWith (attempt : Attempt) (size : Nat) (goOn : Nat → Prop) [DecidablePred goOn] :
    Nat → Nat → VmSpace → Kernel (Option Nat × VmSpace)
  | 0, _, _ => .error .loop
  | n + 1, base, s =>
    if goOn base then do
      match ← attempt s base with
      | (some p, s) => .ok (some p, s)
      | (none, s) => scanWith attempt size goOn n (sub64 base size) s
    else .ok (none, s)

/-- `add_vma` with `attempt` in the place of `add_executable_vma`. -/
def addVmaWith (attempt : Attempt) (fuel : Nat) (s : VmSpace) (addr size : Nat) : Kernel (Option Nat × VmSpace) := do
  let size := roundUp size
  if addr ≠ 0 then
    match ← attempt s addr with
    | (some p, s) => .ok (some p, s)
    | (none, s) =>
      match ← scanWith attempt size (· ≥ PAGE_SIZE) fuel addr s with
      | (some p, s) => .ok (some p, s)
      | (none, s) => scanWith attempt size (· > addr) fuel (sub64 USER_LIM size) s
  else scanWith attempt size (· ≥ PAGE_SIZE) fuel (sub64 USER_LIM size) s

theorem scanDown_eq_scanWith {fuel size flags : Nat} {name : String} {goOn : Nat → Prop} [DecidablePred goOn] (n base : Nat)
    (s : VmSpace) : scanDown fuel name size flags goOn n base s =
      scanWith (fun s base => ofTree (s.addExecutableVma fuel true name base size flags none 0)) size goOn n base s := by
  induction n generalizing base s with
  | zero => rfl
  | succ n ih =>
    unfold scanDown scanWith
    split
    · refine congrArg _ (funext fun x => ?_)
      split
      · rfl
      · exact ih _ _
    · rfl

/-- `add_vma` tries places with `add_executable_vma`. -/
theorem addVma_eq_addVmaWith (fuel : Nat) (s : VmSpace) (name : String) (addr size flags : Nat) : addVma fuel s name addr size flags =
    addVmaWith (fun s base => ofTree (s.addExecutableVma fuel true name base (roundUp size) flags none 0)) fuel s addr size := by
  unfold addVma
  simp only [scanDown_eq_scanWith]
  rfl

/-- The loops end after a number of turns that is the same for all areas, even if every attempt fails. -/
def SearchEnds (addr size : Nat) : Prop :=
  ∃ n, ∀ fuel ≥ n, ∀ (attempt : Attempt) s, (∀ s base, ∃ r, attempt s base = .ok r) →
    ∃ r, addVmaWith attempt fuel s addr size = .ok r

/-! ## One loop -/

section Loop

variable {attempt : Attempt} {size base : Nat} {goOn : Nat → Prop} [DecidablePred goOn]

/-- The base after a number of turns. -/
theorem sub64_eq_down (base size : Nat) : sub64 base size = Stride.down (2 ^ 64) size base := rfl

theorem scanWith_ends (htry : ∀ s base, ∃ r, attempt s base = .ok r) {k : Nat}
    (hk : ¬goOn ((Stride.down (2 ^ 64) size)^[k] base)) {n : Nat} (hn : k < n) (s : VmSpace) :
    ∃ r, scanWith attempt size goOn n base s = .ok r := by
  induction n generalizing k base s with
  | zero => omega
  | succ n ih =>
    unfold scanWith
    split
    · next hgo =>
      obtain ⟨⟨r, s'⟩, hr⟩ := htry s base
      rw [hr]
      cases r with
      | some p => exact ⟨_, rfl⟩
      | none =>
        cases k with
        | zero => exact absurd hgo hk
        | succ k => exact ih (k := k) hk (Nat.lt_of_succ_lt_succ hn) s'
    · exact ⟨_, rfl⟩

/-- With attempts that all fail the loop goes on for as long as the base lets it. -/
theorem scanWith_never (hgo : ∀ k, goOn ((Stride.down (2 ^ 64) size)^[k] base)) (n : Nat) (s : VmSpace) :
    scanWith (fun s _ => .ok (none, s)) size goOn n base s = .error .loop := by
  induction n generalizing base with
  | zero => rfl
  | succ n ih =>
    unfold scanWith
    rw [if_pos (show goOn base from hgo 0)]
    exact ih fun k => hgo (k + 1)

end Loop

/-! ## Where the loops end -/

section Ends

variable {addr size base : Nat}

theorem iterate_aligned (hs : pageAligned size) (hb : pageAligned base) (k : Nat) :
    pageAligned ((Stride.down (2 ^ 64) size)^[k] base) := by
  induction k with
  | zero => exact hb
  | succ k ih =>
    rw [Function.iterate_succ_apply']
    simp only [pageAligned, PAGE_SIZE, Stride.down] at *
    omega

/-- The first page of the address space is reached if and only if the common divisor of the size and `2 ^ 64` divides the base. -/
theorem reaches_low_iff (hs : pageAligned size) (hb : pageAligned base) (hlt : base < 2 ^ 64) :
    (∃ k, ¬(Stride.down (2 ^ 64) size)^[k] base ≥ PAGE_SIZE) ↔ Nat.gcd size (2 ^ 64) ∣ base := by
  have hzero : ∀ k, ¬(Stride.down (2 ^ 64) size)^[k] base ≥ PAGE_SIZE ↔ (Stride.down (2 ^ 64) size)^[k] base = 0 := by
    intro k
    have hal := iterate_aligned hs hb k
    simp only [pageAligned, PAGE_SIZE] at *
    omega
  simp only [hzero]
  rw [Stride.reaches_iff (by decide) hlt (by decide), Nat.modEq_zero_iff_dvd]

theorem gcd_dvd_sub64 : Nat.gcd size (2 ^ 64) ∣ sub64 base size ↔ Nat.gcd size (2 ^ 64) ∣ base := by
  rw [sub64_eq_down, ← Nat.modEq_zero_iff_dvd, ← Nat.modEq_zero_iff_dvd]
  exact ⟨Stride.down_modEq.symm.trans, Stride.down_modEq.trans⟩

/-- A loop that would come to the first page from the address comes to at most the address from anywhere. -/
theorem reaches_below (haddr : 0 < addr) (hdvd : Nat.gcd size (2 ^ 64) ∣ addr) (hlt : base < 2 ^ 64) :
    ∃ k, ¬(Stride.down (2 ^ 64) size)^[k] base > addr := by
  have hpos : 0 < Nat.gcd size (2 ^ 64) := Nat.gcd_pos_of_pos_right _ (by decide)
  have hmod : base % Nat.gcd size (2 ^ 64) < Nat.gcd size (2 ^ 64) := Nat.mod_lt _ hpos
  have hle := Nat.le_of_dvd haddr hdvd
  have hle' : base % Nat.gcd size (2 ^ 64) ≤ base := Nat.mod_le _ _
  obtain ⟨k, hk⟩ := (Stride.reaches_iff (d := size) (v := base % Nat.gcd size (2 ^ 64)) (by decide) hlt (by omega)).2
    (Nat.mod_modEq _ _).symm
  exact ⟨k, by omega⟩

/-- The loops of `add_vma` end, for an address and a size as `sys_mmap` passes them and even if every attempt fails, if and only
if the common divisor of the size and `2 ^ 64` divides the address, or `USER_LIM` when no address is given. -/
theorem add_vma_ends_iff (haddr : pageAligned addr) (haddr' : addr < 2 ^ 64) (hs : pageAligned size) (hs' : size < 2 ^ 64) :
    SearchEnds addr size ↔ Nat.gcd size (2 ^ 64) ∣ if addr = 0 then USER_LIM else addr := by
  have hal : pageAligned (sub64 USER_LIM size) := iterate_aligned hs (by decide) 1
  have htop : sub64 USER_LIM size < 2 ^ 64 := Stride.down_lt (by decide)
  unfold SearchEnds addVmaWith
  simp only [roundUp_of_aligned hs hs']
  by_cases hzero : addr = 0
  · rw [if_pos hzero, ← gcd_dvd_sub64, ← reaches_low_iff hs hal htop]
    simp only [hzero, ne_eq, not_true_eq_false, if_false]
    constructor
    · rintro ⟨n, hn⟩
      by_contra hno
      push Not at hno
      obtain ⟨r, hr⟩ := hn n le_rfl (fun s _ => .ok (none, s)) VmSpace.empty fun s _ => ⟨_, rfl⟩
      rw [scanWith_never hno] at hr
      cases hr
    · rintro ⟨k, hk⟩
      exact ⟨k + 1, fun fuel hfuel attempt s htry => scanWith_ends htry hk hfuel s⟩
  · rw [if_neg hzero, ← reaches_low_iff hs haddr haddr']
    simp only [ne_eq, hzero, not_false_eq_true, if_true]
    constructor
    · rintro ⟨n, hn⟩
      by_contra hno
      push Not at hno
      obtain ⟨r, hr⟩ := hn n le_rfl (fun s _ => .ok (none, s)) VmSpace.empty fun s _ => ⟨_, rfl⟩
      dsimp only [bind, Except.bind] at hr
      rw [scanWith_never hno] at hr
      cases hr
    · rintro ⟨k, hk⟩
      have hdvd := (reaches_low_iff hs haddr haddr').1 ⟨k, hk⟩
      obtain ⟨k', hk'⟩ := reaches_below (by omega) hdvd htop
      refine ⟨k + k' + 1, fun fuel hfuel attempt s htry => ?_⟩
      obtain ⟨⟨r, s1⟩, hr⟩ := htry s addr
      rw [hr]
      cases r with
      | some p => exact ⟨_, rfl⟩
      | none =>
        have hend : ∃ r, scanWith attempt size (· ≥ PAGE_SIZE) fuel addr s1 = .ok r := scanWith_ends htry hk (by omega) s1
        obtain ⟨⟨r, s2⟩, hr⟩ := hend
        dsimp only [bind, Except.bind]
        rw [hr]
        cases r with
        | some p => exact ⟨_, rfl⟩
        | none => exact scanWith_ends htry hk' (by omega) s2

end Ends

/-- For two pages the search ends. -/
theorem add_vma_ends_iff_twoPages : SearchEnds 0 0x2000 :=
  (add_vma_ends_iff (by decide) (by decide) (by decide) (by decide)).2 (by decide +kernel)

/-! ## A search that does not end -/

section Stuck

variable {s : VmSpace} {addr x : Nat} (fuel flags : Nat) (name : String)

section

variable (h : Agrees s) (hx : x ∈ s.taskMmap) (hb : (s.vma x).vmBase < addr) (he : addr < (s.vma x).vmEnd) (haddr : addr < 2 ^ 64)

include h hx hb he haddr

theorem addExecutableVma_stuck : ∃ s', s.addExecutableVma fuel true name addr 0 flags none 0 = some (none, s') ∧ SameAreas s s' := by
  have hzero : add64 addr 0 = addr := Nat.mod_eq_of_lt haddr
  obtain ⟨hag, -, -, -, -, hold⟩ := newVma_agrees h ⟨name, addr, add64 addr 0, none, 0, flags⟩
  rcases addExecutableVma_eq fuel name addr 0 flags 0 none h with ⟨-, heq⟩ | ⟨s1, hi, -⟩
  · exact ⟨_, heq, hag, rfl, hold⟩
  · have := hi.apart h hx
    simp only [Apart, hzero] at this
    omega

theorem scanDown_stuck (hlow : PAGE_SIZE ≤ addr) (n : Nat) :
    scanDown fuel name 0 flags (· ≥ PAGE_SIZE) n addr s = .error .loop := by
  have hstay : sub64 addr 0 = addr := by
    simp only [sub64]
    omega
  induction n generalizing s with
  | zero => rfl
  | succ n ih =>
    obtain ⟨s', hs', hsame⟩ := addExecutableVma_stuck fuel flags name h hx hb he haddr
    have hvma := hsame.vma x hx
    unfold scanDown
    rw [if_pos hlow, hs']
    show scanDown fuel name 0 flags (· ≥ PAGE_SIZE) n (sub64 addr 0) s' = _
    rw [hstay]
    exact ih hsame.agrees (by rw [hsame.list]; exact hx) (by rw [hvma]; exact hb) (by rw [hvma]; exact he)

end

end Stuck

/-- A task with one area of three pages. -/
def threePages : TaskMem := bareTask (single ⟨"user", 0x1000, 0x4000, none, 0, PROT_READ⟩)

/-- A mapping without length that is asked for in the middle of the area is searched for forever. -/
theorem mmap_never_returns : mmapAllowed 0x2000 0 PROT_READ (MAP_PRIVATE ||| MAP_ANONYMOUS) ∧ AreasOk threePages.vm ∧
    ∀ fuel, sysMmap fuel (fun _ => 0) threePages 0x2000 0 PROT_READ (MAP_PRIVATE ||| MAP_ANONYMOUS) = .error .loop := by
  have hok : AreasOk threePages.vm := by
    refine ⟨single_agrees (by decide), ?_⟩
    rintro a ⟨p, hp, ha⟩
    cases List.mem_singleton.1 hp
    rcases ha with rfl | rfl <;> exact ⟨by decide, by decide, by decide⟩
  refine ⟨by decide, hok, fun fuel => ?_⟩
  have hmem : 0 ∈ threePages.vm.taskMmap := List.mem_singleton.2 rfl
  obtain ⟨s', hs', hsame⟩ := addExecutableVma_stuck fuel PROT_READ "user" hok.agrees hmem (show (0x1000 : Nat) < 0x2000 by decide)
    (show (0x2000 : Nat) < 0x4000 by decide) (by decide)
  have hvma := hsame.vma 0 hmem
  have hscan : scanDown fuel "user" 0 PROT_READ (· ≥ PAGE_SIZE) fuel 0x2000 s' = .error .loop :=
    scanDown_stuck fuel PROT_READ "user" hsame.agrees (by rw [hsame.list]; exact hmem) (by rw [hvma]; decide)
          (by rw [hvma]; decide) (by decide)
      (by decide) fuel
  have hadd : addVma fuel threePages.vm "user" 0x2000 0 PROT_READ = .error .loop := by
    show (ofTree (threePages.vm.addExecutableVma fuel true "user" 0x2000 0 PROT_READ none 0) >>= _) = _
    rw [hs']
    show (scanDown fuel "user" 0 PROT_READ (· ≥ PAGE_SIZE) fuel 0x2000 s' >>= _) = _
    rw [hscan]
    rfl
  show (addVma fuel threePages.vm "user" 0x2000 0 PROT_READ >>= _) = _
  rw [hadd]
  rfl

/-! ## A search that finds a place if there is one -/

section Complete

variable {s s' : VmSpace} {fuel size flags b : Nat} {name : String}

/-- A place for an area of the size. -/
structure VmSpace.Place (s : VmSpace) (size b : Nat) : Prop where
  low : PAGE_SIZE ≤ b
  high : b + size ≤ USER_LIM
  aligned : pageAligned b
  free : s.Free b (b + size)

/-- A place that is free and that the search comes to. -/
def VmSpace.OnStride (s : VmSpace) (size : Nat) : Prop :=
  ∃ k, PAGE_SIZE + (k + 1) * size ≤ USER_LIM ∧ s.Free (USER_LIM - (k + 1) * size) (USER_LIM - (k + 1) * size + size)

/-- An area of the size has been put at `b`, and `p` is what it has become. -/
def PutAt (name : String) (size flags : Nat) (s' : VmSpace) (b p : Nat) : Prop :=
  p ∈ s'.taskMmap ∧ Covers ⟨name, b, b + size, none, 0, flags⟩ (s'.vma p)

/-- What `add_vma` returns: nothing only if there is no place, and otherwise an area at a place. -/
structure AddComplete (s s' : VmSpace) (name : String) (size flags : Nat) (r : Option Nat) : Prop where
  none_only : r = none → ¬∃ b, s.Place size b
  placed : ∀ p, r = some p → ∃ b, s.Place size b ∧ PutAt name size flags s' b p

theorem onStride_iff (hle : size ≤ USER_LIM) : s.OnStride size ↔ ∃ c, s.Scan (USER_LIM - size) size PAGE_SIZE c := by
  rw [scan_iff]
  refine exists_congr fun k => ?_
  have hsucc : (k + 1) * size = k * size + size := Nat.succ_mul k size
  have hmove : USER_LIM - size - k * size = USER_LIM - (k + 1) * size := by omega
  rw [hmove]
  exact and_congr_left fun _ => by omega

/-- An area that begins behind all places is not at one of them. -/
theorem not_addComplete {p : Nat} (hbase : USER_LIM < (s'.vma p).vmBase) : ¬AddComplete s s' name size flags (some p) := by
  intro h
  obtain ⟨b, hplace, -, hcov⟩ := h.placed p rfl
  have hle : (s'.vma p).vmBase ≤ b := hcov.1
  have := hplace.high
  omega

/-- What is returned, if the search returns. -/
theorem addVma_complete (fuel : Nat) (name : String) (flags : Nat) (h : AreasOk s)
    (hsize : 0 < size) (hal : pageAligned size) (hlt : size < 2 ^ 64) :
    Yields (addVma fuel s name 0 size flags) fun r => AddComplete s r.2 name size flags r.1 ↔
      s.OnStride size ∨ (size ∣ USER_LIM ∧ ¬∃ b, s.Place size b) := by
  have hlim : USER_LIM = 140737488355328 := by decide
  have htop : pageAligned USER_LIM := by decide
  have heq : addVma fuel s name 0 size flags = scanDown fuel name size flags (· ≥ PAGE_SIZE) fuel (sub64 USER_LIM size) s := by
    simp only [addVma, roundUp_of_aligned hal hlt, ne_eq, not_true_eq_false, if_false]
  rw [heq]
  by_cases hle : size ≤ USER_LIM
  · rw [sub64_of_le hle (by decide)]
    refine (scanDown_rule id id (fun c => Iff.rfl) hsize hal (placeRule_placed hsize) h (pageAligned_sub htop hal)
      (by omega)).mono fun r hr => ?_
    rw [onStride_iff hle]
    rcases hr with ⟨hr, -, hno, k, hk, hend⟩ | ⟨p, hr, ⟨c, hc, hch, hca, hm⟩ | ⟨hlost, hno, k, hk, hlow, hend⟩⟩
    · -- the search has come to the first page
      have hdvd : size ∣ USER_LIM := by
        rw [← Nat.sub_add_cancel hle]
        exact Nat.dvd_add (dvd_of_scan_end hal (pageAligned_sub htop hal) hk hend) (Nat.dvd_refl size)
      rw [hr]
      refine ⟨fun hcomp => .inr ⟨hdvd, hcomp.none_only rfl⟩, ?_⟩
      rintro (⟨c, hc⟩ | ⟨-, hnone⟩)
      · exact absurd hc (hno c)
      · refine ⟨fun _ => hnone, fun q hq => ?_⟩
        cases hq
    · have hlow : PAGE_SIZE ≤ c := by
        obtain ⟨_, _, _, hlow, _⟩ := hc
        exact hlow
      rw [hr]
      refine ⟨fun _ => .inl ⟨c, hc⟩, fun _ => ⟨by simp, fun q hq => ⟨c, ⟨hlow, hch, hca, hm.free⟩, ?_⟩⟩⟩
      cases hq
      exact ⟨hm.mem, hm.covers⟩
    · -- the search has passed below zero
      have hdvd : ¬size ∣ USER_LIM := by
        intro hdvd
        have hrest := Nat.dvd_sub (Nat.dvd_sub hdvd (Nat.dvd_refl size)) (Nat.dvd_mul_left size k)
        have hpos : 0 < PAGE_SIZE := by decide
        have := Nat.le_of_dvd (by omega) hrest
        omega
      rw [hr]
      refine ⟨fun hcomp => absurd hcomp (not_addComplete hlost.base), ?_⟩
      rintro (⟨c, hc⟩ | ⟨hyes, -⟩)
      · exact absurd hc (hno c)
      · exact absurd hyes hdvd
  · -- already the first place lies behind all areas
    have hwrap : sub64 USER_LIM size = 2 ^ 64 + USER_LIM - size := by
      simp only [sub64]
      omega
    have hend : add64 (sub64 USER_LIM size) size = USER_LIM := by
      simp only [add64, sub64]
      omega
    have hcond : ¬(s.OnStride size ∨ (size ∣ USER_LIM ∧ ¬∃ b, s.Place size b)) := by
      rintro (⟨k, hk, -⟩ | ⟨hdvd, -⟩)
      · have : size ≤ (k + 1) * size := Nat.le_mul_of_pos_left size (Nat.succ_pos k)
        omega
      · have := Nat.le_of_dvd (by decide) hdvd
        omega
    cases fuel with
    | zero => exact .error id
    | succ n =>
      refine .ite (fun _ => ?_) fun hstop => absurd (show PAGE_SIZE ≤ sub64 USER_LIM size by
        simp only [PAGE_SIZE]
        omega) hstop
      cases he : s.addExecutableVma (n + 1) true name (sub64 USER_LIM size) size flags none 0 with
      | none => exact .error id
      | some v =>
        obtain ⟨r, s1⟩ := v
        obtain ⟨p, rfl, hbase⟩ := addExecutableVma_wrapped h (.inl (by omega)) he
        have hlow : USER_LIM < (s1.vma p).vmBase := by
          rw [hbase (by omega) (by omega)]
          omega
        exact .ok (iff_of_false (not_addComplete hlow) hcond)

/-! The attempts that fail leave a record behind each, and the one that succeeds merges the area with its neighbours. `rb_remove`,
which takes the merged record out of the tree, may follow a `NULL` pointer there. -/

/-- The record of an area that `add_vma` tries to put at a base. -/
def triedVma (name : String) (size flags b : Nat) : Vma where
  vmName := name
  vmBase := b
  vmEnd := add64 b size
  vmSrc := none
  vmLen := 0
  vmFlags := flags

/-- The areas after `k` attempts from `b` downward that have failed. -/
def VmSpace.tried (s : VmSpace) (name : String) (size flags : Nat) : Nat → Nat → VmSpace
  | _, 0 => s
  | b, k + 1 => (s.newVma (triedVma name size flags b)).tried name size flags (b - size) k

/-- The place `k` of the stride is the first that is free. -/
structure VmSpace.FirstOnStride (s : VmSpace) (size k : Nat) : Prop where
  fits : PAGE_SIZE + (k + 1) * size ≤ USER_LIM
  free : s.Free (USER_LIM - (k + 1) * size) (USER_LIM - (k + 1) * size + size)
  full : ∀ j < k, ¬s.Free (USER_LIM - (j + 1) * size) (USER_LIM - (j + 1) * size + size)

/-- The area can be merged with its neighbours at the first place of the stride that is free. -/
def VmSpace.JoinsOnStride (s : VmSpace) (fuel : Nat) (name : String) (size flags : Nat) : Prop :=
  ∃ k, s.FirstOnStride size k ∧
    (s.tried name size flags (USER_LIM - size) k).addExecutableVma fuel true name (USER_LIM - (k + 1) * size) size flags none 0 ≠ none

/-- At a place that is not free nothing is put. -/
theorem addExecutableVma_taken (fuel : Nat) (name : String) (flags : Nat) (h : AreasOk s) (hhigh : b + size ≤ USER_LIM) (hfull : ¬s.Free b (b + size)) :
    s.addExecutableVma fuel true name b size flags none 0 = some (none, s.newVma (triedVma name size flags b)) ∧
      SameAreas s (s.newVma (triedVma name size flags b)) := by
  obtain ⟨hag, -, -, -, -, hold⟩ := newVma_agrees h.agrees (triedVma name size flags b)
  refine ⟨?_, hag, rfl, hold⟩
  rcases addExecutableVma_eq fuel name b size flags 0 none h.agrees with ⟨-, heq⟩ | ⟨s1, hi, -⟩
  · exact heq
  · refine absurd (fun va k h1 h2 hat => ?_) hfull
    obtain ⟨p, hp, hbase, hend, -⟩ := hat
    have hapart := hi.apart h.agrees hp
    simp only [Apart, add64_of_le hhigh] at hapart
    omega

/-- The loop passes over places that are not free. -/
theorem scanDown_tried (fuel n : Nat) (name : String) (flags : Nat) {k : Nat} (h : AreasOk s)
    (hhigh : b + size ≤ USER_LIM) (hk : k * size ≤ b) (hlow : ∀ j < k, PAGE_SIZE ≤ b - j * size)
    (hfull : ∀ j < k, ¬s.Free (b - j * size) (b - j * size + size)) :
    scanDown fuel name size flags (· ≥ PAGE_SIZE) (n + k) b s =
        scanDown fuel name size flags (· ≥ PAGE_SIZE) n (b - k * size) (s.tried name size flags b k) ∧
      SameAreas s (s.tried name size flags b k) := by
  induction k generalizing b s with
  | zero =>
    rw [Nat.zero_mul, Nat.sub_zero]
    exact ⟨rfl, .refl h.agrees⟩
  | succ k ih =>
    have hsucc : ∀ j, (j + 1) * size = j * size + size := fun j => Nat.succ_mul j size
    have h0 := hfull 0 (Nat.succ_pos k)
    rw [Nat.zero_mul, Nat.sub_zero] at h0
    obtain ⟨htaken, hsame⟩ := addExecutableVma_taken fuel name flags h hhigh h0
    have hle : size ≤ b := by
      have := hsucc k
      omega
    have hshift : ∀ j, b - (j + 1) * size = b - size - j * size := fun j => by
      have := hsucc j
      omega
    have hrest := ih (hsame.ok h) (show b - size + size ≤ USER_LIM by omega) (by have := hsucc k; omega)
      (fun j hj => by rw [← hshift]; exact hlow (j + 1) (Nat.succ_lt_succ hj)) fun j hj => by
        rw [← hshift, hsame.free_iff]
        exact hfull (j + 1) (Nat.succ_lt_succ hj)
    refine ⟨?_, hsame.trans hrest.2⟩
    rw [hshift, VmSpace.tried, ← hrest.1, ← Nat.add_assoc, scanDown, if_pos (show b ≥ PAGE_SIZE by simpa using hlow 0 (Nat.succ_pos k)),
      htaken]
    show scanDown fuel name size flags (· ≥ PAGE_SIZE) (n + k) (sub64 b size) _ = _
    rw [sub64_of_le hle (lt_of_le_of_lt (show b ≤ USER_LIM by omega) (by decide))]

theorem addVma_scanDown (hle : size ≤ USER_LIM) (hal : pageAligned size) (hlt : size < 2 ^ 64) : addVma fuel s name 0 size flags =
    scanDown fuel name size flags (· ≥ PAGE_SIZE) fuel (USER_LIM - size) s := by
  simp only [addVma, roundUp_of_aligned hal hlt, ne_eq, not_true_eq_false, if_false, sub64_of_le hle (by decide : USER_LIM < 2 ^ 64)]

/-- On the stride below the end of the user half. -/
theorem scanDown_stride (name : String) (flags : Nat) {k : Nat} (h : AreasOk s) (hk : s.FirstOnStride size k) :
    (∀ fuel n, scanDown fuel name size flags (· ≥ PAGE_SIZE) (n + k) (USER_LIM - size) s = scanDown fuel name size flags
      (· ≥ PAGE_SIZE) n (USER_LIM - (k + 1) * size) (s.tried name size flags (USER_LIM - size) k)) ∧
      SameAreas s (s.tried name size flags (USER_LIM - size) k) := by
  have hsucc : ∀ j, (j + 1) * size = j * size + size := fun j => Nat.succ_mul j size
  have hshift : ∀ j, USER_LIM - (j + 1) * size = USER_LIM - size - j * size := fun j => by
    have := hsucc j
    omega
  have hs := hsucc k
  have hfits := hk.fits
  have hlow : ∀ j < k, PAGE_SIZE ≤ USER_LIM - size - j * size := fun j hj => by
    have : (j + 1) * size ≤ k * size := Nat.mul_le_mul_right size hj
    have := hsucc j
    omega
  have hrun : ∀ fuel n, _ := fun fuel n => scanDown_tried fuel n name flags h (show USER_LIM - size + size ≤ USER_LIM by omega)
    (show k * size ≤ USER_LIM - size by omega) hlow fun j hj => by
      rw [← hshift]
      exact hk.full j hj
  rw [hshift]
  exact ⟨fun fuel n => (hrun fuel n).1, (hrun 0 0).2⟩

/-- The search at the first free place of the stride: it returns just if the area can be merged there. -/
theorem addVma_first {k : Nat} (h : AreasOk s) (hsize : 0 < size) (hal : pageAligned size) (hlt : size < 2 ^ 64)
    (hfuel : USER_LIM / size + 2 ≤ fuel) (hk : s.FirstOnStride size k) :
    (∃ r, addVma fuel s name 0 size flags = .ok r) ↔ (s.tried name size flags (USER_LIM - size) k).addExecutableVma fuel true name
      (USER_LIM - (k + 1) * size) size flags none 0 ≠ none := by
  have hsucc : (k + 1) * size = k * size + size := Nat.succ_mul k size
  have hfits := hk.fits
  obtain ⟨n, rfl⟩ : ∃ n, fuel = n + 1 + k := by
    have : k + 1 ≤ USER_LIM / size := (Nat.le_div_iff_mul_le hsize).2 (by omega)
    exact ⟨fuel - (k + 1), by omega⟩
  obtain ⟨hrun, hsame⟩ := scanDown_stride name flags h hk
  rw [addVma_scanDown (by omega) hal hlt, hrun, scanDown, if_pos (show USER_LIM - (k + 1) * size ≥ PAGE_SIZE by omega)]
  cases he : (s.tried name size flags (USER_LIM - size) k).addExecutableVma (n + 1 + k) true name (USER_LIM - (k + 1) * size) size
      flags none 0 with
  | none =>
    refine iff_of_false ?_ fun hne => hne rfl
    rintro ⟨r, hr⟩
    cases hr
  | some v =>
    obtain ⟨r, s'⟩ := v
    refine iff_of_true ?_ (by simp)
    rcases addExecutableVma_placed (hsame.ok h) hsize (by omega) he with ⟨-, -, hno⟩ | ⟨p, rfl, -⟩
    · exact absurd ((hsame.free_iff _ _).2 hk.free) hno
    · exact ⟨_, rfl⟩

/-- Without a place the search comes to the first page, and returns. -/
theorem addVma_none (name : String) (flags : Nat) (h : AreasOk s) (hsize : 0 < size) (hal : pageAligned size) (hlt : size < 2 ^ 64)
    (hfuel : USER_LIM / size + 2 ≤ fuel) (hdvd : size ∣ USER_LIM) (hno : ¬∃ b, s.Place size b) :
    ∃ r, addVma fuel s name 0 size flags = .ok r := by
  obtain ⟨m, hm⟩ := hdvd
  obtain ⟨k, rfl⟩ : ∃ k, m = k + 1 := by
    cases m with
    | zero => exact nomatch hm
    | succ k => exact ⟨k, rfl⟩
  have hend : USER_LIM = k * size + size := by rw [hm, Nat.mul_comm, Nat.succ_mul]
  have hpage : PAGE_SIZE ≤ size := Nat.le_of_dvd hsize (Nat.dvd_of_mod_eq_zero hal)
  have hlow : ∀ j < k, j * size + size ≤ k * size := fun j hj => by
    rw [← Nat.succ_mul]
    exact Nat.mul_le_mul_right size hj
  have halj : ∀ j, pageAligned (USER_LIM - size - j * size) := fun j => by
    refine pageAligned_sub (pageAligned_sub (by decide) hal) (Nat.mod_eq_zero_of_dvd ?_)
    exact Nat.dvd_mul_left_of_dvd (Nat.dvd_of_mod_eq_zero hal) j
  obtain ⟨n, rfl⟩ : ∃ n, fuel = n + 1 + k := by
    have : k ≤ USER_LIM / size := (Nat.le_div_iff_mul_le hsize).2 (by omega)
    exact ⟨fuel - (k + 1), by omega⟩
  have hrun := (scanDown_tried (n + 1 + k) (n + 1) name flags h (show USER_LIM - size + size ≤ USER_LIM by omega)
    (show k * size ≤ USER_LIM - size by omega) (fun j hj => by have := hlow j hj; omega) fun j hj hfree => hno
      ⟨_, by have := hlow j hj; omega, by have := hlow j hj; omega, halj j, hfree⟩).1
  rw [addVma_scanDown (by omega) hal hlt, hrun, show USER_LIM - size - k * size = 0 by omega, scanDown,
    if_neg (show ¬(0 : Nat) ≥ PAGE_SIZE by decide)]
  exact ⟨_, rfl⟩

/-- An area that is like none of the others is merged with none. -/
theorem mergeVmas_none {p : Nat} (hno : ∀ q ∈ s.taskMmap, ¬mergeable (s.vma q) (s.vma p) ∧ ¬mergeable (s.vma p) (s.vma q)) :
    s.mergeVmas fuel p = some (p, s) := by
  have hprev : s.mergePrev fuel p = some (p, s) := by
    unfold mergePrev
    split
    · rfl
    · next x hx =>
      obtain ⟨a, l, hl⟩ := listPrev_some hx
      rw [mergeVma, if_neg (hno x (by simp [hl])).1]
      rfl
  have hnext : s.mergeNext fuel p = some (p, s) := by
    unfold mergeNext
    split
    · rfl
    · next x hx =>
      obtain ⟨a, l, hl⟩ := listNext_some hx
      rw [mergeVma, if_neg (hno x (by simp [hl])).2]
      rfl
  rw [mergeVmas, hprev]
  exact hnext

/-- Where no area that is like the new one ends or begins, nothing is merged. -/
theorem VmSpace.JoinsOnStride.of_alone (fuel : Nat) {k : Nat} (h : AreasOk s) (hsize : 0 < size) (hk : s.FirstOnStride size k)
    (hno : ∀ q ∈ s.taskMmap, ¬mergeable (s.vma q) (triedVma name size flags (USER_LIM - (k + 1) * size)) ∧
      ¬mergeable (triedVma name size flags (USER_LIM - (k + 1) * size)) (s.vma q)) : s.JoinsOnStride fuel name size flags := by
  refine ⟨k, hk, ?_⟩
  have hsame := (scanDown_stride name flags h hk).2
  rcases addExecutableVma_eq fuel name (USER_LIM - (k + 1) * size) size flags 0 none hsame.agrees with ⟨-, heq⟩ | ⟨s1, hi, heq⟩
  · rw [heq]
    nofun
  · have hfits := hk.fits
    have hsucc : (k + 1) * size = k * size + size := Nat.succ_mul k size
    have hself : ¬mergeable (triedVma name size flags (USER_LIM - (k + 1) * size))
        (triedVma name size flags (USER_LIM - (k + 1) * size)) := by
      intro hm
      have hend := add64_of_le (show USER_LIM - (k + 1) * size + size ≤ USER_LIM by omega)
      have hloop : add64 (USER_LIM - (k + 1) * size) size = USER_LIM - (k + 1) * size := hm.2.2.2.2.1
      omega
    rw [heq, mergeVmas_none fun q hq => ?_]
    · nofun
    · rw [hi.new]
      rcases hi.mem_iff.1 hq with rfl | hq
      · rw [hi.new]
        exact ⟨hself, hself⟩
      · rw [hsame.list] at hq
        rw [hi.old q (hsame.list ▸ hq), hsame.vma q hq]
        exact hno q hq

/-- The search of `add_vma` for an area of some pages: it returns, with nothing only if there is no place and otherwise with an
area at a place, if and only if one of the places it comes to is free and the area can be merged with its neighbours at the
first such place, or it comes to the first page and there is no place at all. -/
theorem add_vma_complete_iff (h : AreasOk s) (hsize : 0 < size) (hal : pageAligned size) (hlt : size < 2 ^ 64)
    (hfuel : USER_LIM / size + 2 ≤ fuel) :
    (∃ r s', addVma fuel s name 0 size flags = .ok (r, s') ∧ AddComplete s s' name size flags r) ↔
      s.JoinsOnStride fuel name size flags ∨ (size ∣ USER_LIM ∧ ¬∃ b, s.Place size b) := by
  classical
  have honly := (addVma_complete fuel name flags h hsize hal hlt).1
  constructor
  · rintro ⟨r, s', hr, hcomp⟩
    refine ((honly _ hr).1 hcomp).imp_left fun hstride => ?_
    -- the first of the free places on the stride
    obtain ⟨k, ⟨hk, hfree⟩, hfirst⟩ := Nat.findX hstride
    have hk : s.FirstOnStride size k := ⟨hk, hfree, fun j hj hfree' => by
      have : (j + 1) * size ≤ (k + 1) * size := Nat.mul_le_mul_right size (by omega)
      exact hfirst j hj ⟨by omega, hfree'⟩⟩
    exact ⟨k, hk, (addVma_first h hsize hal hlt hfuel hk).1 ⟨_, hr⟩⟩
  · rintro (⟨k, hk, hjoin⟩ | hnone)
    · obtain ⟨⟨r, s'⟩, hr⟩ := (addVma_first h hsize hal hlt hfuel hk).2 hjoin
      exact ⟨r, s', hr, (honly _ hr).2 (.inl ⟨k, hk.fits, hk.free⟩)⟩
    · obtain ⟨⟨r, s'⟩, hr⟩ := addVma_none name flags h hsize hal hlt hfuel hnone.1 hnone.2
      exact ⟨r, s', hr, (honly _ hr).2 (.inr hnone)⟩

end Complete

/-- A task with an area in the last page of the user half. -/
def lastPage : VmSpace := single ⟨"user", USER_LIM - PAGE_SIZE, USER_LIM, none, 0, PROT_READ⟩

theorem lastPage_ok : AreasOk lastPage := by
  refine ⟨single_agrees (by decide), ?_⟩
  rintro a ⟨p, hp, ha⟩
  cases List.mem_singleton.1 hp
  rcases ha with rfl | rfl <;> exact ⟨by decide, by decide, by decide⟩

/-- All of the user half but its last page is free. -/
theorem lastPage_free {a b : Nat} (h : b ≤ USER_LIM - PAGE_SIZE) : lastPage.Free a b := by
  rintro va k h1 h2 ⟨p, hp, hb, he, -⟩
  cases List.mem_singleton.1 hp
  have hb : USER_LIM - PAGE_SIZE ≤ va := hb
  omega

/-- A quarter of the user half is found below the last quarter. -/
theorem add_vma_complete_iff_quarter : ∃ r s', addVma 6 lastPage "user" 0 (USER_LIM / 4) PROT_READ = .ok (r, s') ∧
    AddComplete lastPage s' "user" (USER_LIM / 4) PROT_READ r := by
  have hjoins : lastPage.JoinsOnStride 6 "user" (USER_LIM / 4) PROT_READ := by
    refine .of_alone 6 (k := 1) lastPage_ok (by decide) ⟨by decide, lastPage_free (by decide), fun j hj hfree => ?_⟩ fun q hq => ?_
    · obtain rfl : j = 0 := by omega
      exact hfree (USER_LIM - PAGE_SIZE) _ (by decide) (by decide) ⟨0, List.mem_singleton.2 rfl, by decide, by decide, rfl⟩
    · cases List.mem_singleton.1 hq
      exact ⟨by decide, by decide⟩
  exact (add_vma_complete_iff lastPage_ok (by decide) (by decide) (by decide) (by decide)).2 (.inl hjoins)

/-- Half of the user half is asked for. All of it but the last page is free, and nothing is found. -/
theorem add_vma_misses_place : AreasOk lastPage ∧ lastPage.Place (USER_LIM / 2) PAGE_SIZE ∧
    ∃ s', addVma 4 lastPage "user" 0 (USER_LIM / 2) PROT_READ = .ok (none, s') :=
  ⟨lastPage_ok, ⟨by decide, by decide, by decide, lastPage_free (by decide)⟩, _, rfl⟩

end OpenLsd
