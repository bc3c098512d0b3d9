import OpenLsd.Lemmas.AreaCalls
import OpenLsd.Sched.Memory

/-!
# Where areas lie

Areas that lie in the user half, on page boundaries, and what the memory calls make of them. Only `sys_mmap` chooses the ends
of an area on its own. The other calls cut areas at the ends of an aligned range, whatever the range is.
-/

namespace OpenLsd

open Outcome VmSpace

variable {fuel flags : Nat} {t : TaskMem} {bad : Stop → Prop}

/-- An address that an area may begin or end at. -/
def UserBound (a : Nat) : Prop := pageAligned a ∧ PAGE_SIZE ≤ a ∧ a ≤ USER_LIM

/-- The indexes agree, and the areas lie in the user half on page boundaries. -/
structure AreasOk (s : VmSpace) : Prop where
  agrees : Agrees s
  bounds : ∀ a, IsBound s a → UserBound a

theorem areasOk_empty : AreasOk VmSpace.empty := ⟨empty_agrees, fun a ⟨p, hp, _⟩ => by cases hp⟩

variable {s s' : VmSpace} {p base size last a : Nat}

namespace AreasOk

theorem vmBase (h : AreasOk s) (hp : p ∈ s.taskMmap) : UserBound (s.vma p).vmBase := h.bounds _ ⟨p, hp, .inl rfl⟩

theorem vmEnd (h : AreasOk s) (hp : p ∈ s.taskMmap) : UserBound (s.vma p).vmEnd := h.bounds _ ⟨p, hp, .inr rfl⟩

theorem at_range {va : Nat} {k : Kind} (h : AreasOk s) (hat : At s va k) : PAGE_SIZE ≤ va ∧ va < USER_LIM := by
  obtain ⟨p, hp, hb, he, _⟩ := hat
  exact ⟨le_trans (h.vmBase hp).2.1 hb, lt_of_lt_of_le he (h.vmEnd hp).2.2⟩

/-- Areas on the addresses of old ones, with old ends or aligned ones. -/
theorem of (h : AreasOk s) (hag : Agrees s') (hat : ∀ va k, At s' va k → ∃ k', At s va k')
    (hb : ∀ a, IsBound s' a → IsBound s a ∨ pageAligned a) : AreasOk s' := by
  refine ⟨hag, fun a ha => ?_⟩
  rcases hb a ha with hold | hal
  · exact h.bounds a hold
  · obtain ⟨p, hp, he⟩ := ha
    have hpp := hag.proper p hp
    rcases he with rfl | rfl
    · obtain ⟨k, hk⟩ := hat _ _ ⟨p, hp, le_rfl, hpp, rfl⟩
      obtain ⟨h1, h2⟩ := h.at_range hk
      exact ⟨hal, h1, le_of_lt h2⟩
    · obtain ⟨k, hk⟩ := hat ((s'.vma p).vmEnd - 1) _ ⟨p, hp, by omega, by omega, rfl⟩
      obtain ⟨h1, h2⟩ := h.at_range hk
      exact ⟨hal, by omega, by omega⟩

theorem rearranged {cut : Nat → Prop} (h : AreasOk s) (hr : Rearranged s s' cut) (hcut : ∀ a, cut a → pageAligned a) :
    AreasOk s' :=
  h.of hr.agrees (fun va k hat => ⟨k, (hr.at_iff va k).1 hat⟩) fun a ha => (hr.bound a ha).imp_right (hcut a)

end AreasOk

theorem EndOf.aligned (hbase : pageAligned base) (hlast : pageAligned last) (ha : EndOf base last a) : pageAligned a := by
  rcases ha with rfl | rfl
  · exact hbase
  · exact hlast

namespace AreasOk

theorem removed (h : AreasOk s) (hr : Removed s s' p base last) (hbase : pageAligned base) (hlast : pageAligned last) :
    AreasOk s' :=
  h.of hr.agrees (fun va k hat => ⟨k, ((hr.at_iff va k).1 hat).1⟩) fun a ha => (hr.bound a ha).imp_right (EndOf.aligned hbase hlast)

theorem protect {flags : Nat} (h : AreasOk s) (hr : Protected s s' p base last flags) (hbase : pageAligned base)
    (hlast : pageAligned last) : AreasOk s' := by
  refine h.of hr.agrees (fun va k hat => ?_) fun a ha => (hr.bound a ha).imp_right (EndOf.aligned hbase hlast)
  have := (hr.at_iff va k).1 hat
  split at this
  · exact ⟨_, this.choose_spec.1⟩
  · exact ⟨k, this⟩

theorem cleared (h : AreasOk s) (hr : Cleared s s' base last) (hbase : pageAligned base) (hlast : pageAligned last) :
    AreasOk s' :=
  h.of hr.agrees (fun va k hat => ⟨k, ((hr.at_iff va k).1 hat).1⟩) fun a ha => (hr.bound a ha).imp_right (EndOf.aligned hbase hlast)

theorem takenOut (h : AreasOk s) (ht : TakenOut s s' p) : AreasOk s' := by
  refine ⟨ht.agrees, fun a ⟨x, hx, hb⟩ => ?_⟩
  obtain ⟨hne, hx⟩ := (ht.mem x).1 hx
  rw [ht.vma x hne] at hb
  exact h.bounds a ⟨x, hx, hb⟩

end AreasOk

/-! ## Walks -/

theorem listNext_ne {l : List Nat} {q : Nat} (h : l.Nodup) (hn : listNext p l = some q) : q ∈ l ∧ q ≠ p := by
  obtain ⟨a, b, rfl⟩ := listNext_some hn
  refine ⟨by simp, ?_⟩
  rintro rfl
  simp [List.nodup_append] at h

section Populate

variable {image : Nat → UInt8}

theorem doPopulateVma_vm : Yields (doPopulateVma image flags base size t p) fun r => r.2.vm = t.vm := by
  refine .ite (fun _ => .ok rfl) fun _ => .ite (fun _ => ?_) fun _ => ?_
  · exact .skip fun _ => .skip fun _ => .ok rfl
  · exact .skip fun _ => .skip fun _ => .skip fun _ => .ok rfl

theorem populateVmaRange_vm : Yields (populateVmaRange image t base size flags) fun r => r.2.vm = t.vm := by
  refine walkVmaRange_rule (I := fun s _ => s.vm = t.vm) id rfl (fun _ _ _ => rfl) (fun s p hi _ => ?_) fun s _ hi _ => hi
  refine doPopulateVma_vm.mono fun r hr => ?_
  split
  · exact hr.trans hi
  · exact hr.trans hi

end Populate

/-! ## The calls -/

theorem pageAligned_roundDown (a : Nat) : pageAligned (roundDown a) := by
  simp only [pageAligned, roundDown, PAGE_SIZE]
  omega

theorem pageAligned_roundUp (a : Nat) : pageAligned (roundUp a) := pageAligned_roundDown _

theorem roundUp_lt (a : Nat) : roundUp a < 2 ^ 64 := by
  simp only [roundUp, roundDown, add64, PAGE_SIZE]
  omega

theorem roundDown_add64_lt (a b : Nat) : roundDown (add64 a b) < 2 ^ 64 := by
  simp only [roundDown, add64, PAGE_SIZE]
  omega

theorem add64_sub64 {e : Nat} (he : e < 2 ^ 64) : add64 a (sub64 e a) = e := by
  simp only [add64, sub64]
  omega

theorem range_end (addr len : Nat) :
    add64 (roundDown addr) (sub64 (roundUp (add64 addr len)) (roundDown addr)) = roundUp (add64 addr len) :=
  add64_sub64 (roundUp_lt _)

/-- The aligned range of a `sys_mmap` call begins below its end, and the place for the area is found: with `MAP_FIXED` the
range itself becomes free, and otherwise the search of `add_vma` does not pass below zero. -/
def MmapFits (s : VmSpace) (addr len flags : Nat) : Prop :=
  roundDown addr < roundUp (add64 addr len) ∧
    ((hasFlag flags MAP_FIXED = true ∧ roundDown addr ≠ 0) ∨
      s.ScanFits (scanStart (roundDown addr) (roundUp (add64 addr len) - roundDown addr))
        (roundUp (add64 addr len) - roundDown addr))

/-- What is known of the areas when `sys_mmap` has emptied its range. -/
structure MmapReady (s s' : VmSpace) (addr len flags : Nat) : Prop where
  ok : AreasOk s'
  at_iff : ∀ va k, At s' va k ↔ At s va k ∧
    ¬(hasFlag flags MAP_FIXED = true ∧ roundDown addr ≤ va ∧ va < roundUp (add64 addr len))
  fits : s'.ScanFits (scanStart (roundDown addr) (roundUp (add64 addr len) - roundDown addr))
    (roundUp (add64 addr len) - roundDown addr)

theorem MmapReady.mk' {addr len : Nat} (ok : AreasOk s')
    (hat : ∀ va k, At s' va k ↔ At s va k ∧
      ¬(hasFlag flags MAP_FIXED = true ∧ roundDown addr ≤ va ∧ va < roundUp (add64 addr len)))
    (hfit : MmapFits s addr len flags) : MmapReady s s' addr len flags := by
  refine ⟨ok, hat, ?_⟩
  obtain ⟨hlt, ⟨hfixed, hne⟩ | hscan⟩ := hfit
  · rw [scanStart, if_neg hne]
    have hal := pageAligned_roundDown addr
    refine .inr ⟨0, ?_, fun va k hva hvb hin => ((hat va k).1 hin).2 ⟨hfixed, by omega, by omega⟩⟩
    simp only [pageAligned, PAGE_SIZE] at hal ⊢
    omega
  · exact hscan.imp_right fun h => h.imp fun k hk => ⟨hk.1, fun va k hva hvb hin => hk.2 va k hva hvb ((hat va k).1 hin).1⟩

section Calls

variable {addr len : Nat}

/-- The first part of `sys_mmap`, given what unmapping the range does. -/
theorem mmapClear_spec {K K' : Phys × Pml4 → Prop} (hloop : ¬bad .loop) (htree : ¬bad .rbTree) (h : AreasOk t.vm)
    (hfit : MmapFits t.vm addr len flags) (hK : K (t.phys, t.pml4)) (hKK : ∀ m pt, K (m, pt) → ¬hasFlag flags MAP_FIXED = true ∨
      t.vm.Free (roundDown addr) (roundUp (add64 addr len)) → K' (m, pt))
    (hu : ∀ m pt, K (m, pt) ∨ K' (m, pt) →
      Ends bad (unmapPageRange t.taskPml4 m pt (roundDown addr) (sub64 (roundUp (add64 addr len)) (roundDown addr))) K') :
    Ends bad (mmapClear fuel t (roundDown addr) (sub64 (roundUp (add64 addr len)) (roundDown addr)) flags) fun r =>
      r.root = t.root ∧ K' (r.phys, r.pml4) ∧ MmapReady t.vm r.vm addr len flags := by
  have hend := range_end addr len
  refine .ite (fun hfixed => ?_) fun hnot => .ok ⟨rfl, hKK _ _ hK (.inl hnot), .mk' h (fun va k => by simp [hnot]) hfit⟩
  refine (removeVmaRange_spec hloop htree h.agrees (by rw [hend]; exact hfit.1) hK hu).bind fun r hr => .ok ?_
  rw [hend] at hr
  rcases hr with ⟨rfl, hfree⟩ | ⟨hroot, hk, hc⟩
  · refine ⟨rfl, hKK _ _ hK (.inr hfree), .mk' h (fun va k => ⟨fun hin => ⟨hin, fun ⟨_, h1, h2⟩ => ?_⟩, And.left⟩) hfit⟩
    exact hfree va k h1 h2 hin
  · refine ⟨hroot, hk, .mk' (h.cleared hc (pageAligned_roundDown _) (pageAligned_roundUp _)) (fun va k => ?_) hfit⟩
    rw [hc.at_iff]
    simp only [hfixed, true_and]

end Calls

/-- The call puts its area where areas may lie. -/
def MemCall.AreasFit (s : VmSpace) : MemCall → Prop
  | mmap addr len prot flags => mmapAllowed addr len prot flags → MmapFits s addr len flags
  | _ => True

/-! ## The areas of a program -/

/-- A segment that is loaded lies in the user half above the first page, and has some bytes. -/
def ProgHdr.InUser (h : ProgHdr) : Prop :=
  h.pLoad = true → PAGE_SIZE ≤ h.pVa ∧ 0 < h.pMemsz ∧ h.pVa + h.pMemsz ≤ USER_LIM

theorem AreasOk.addExecutable {l : Nat} {name : String} {src r : Option Nat} (h : AreasOk s)
    (he : s.addExecutableVma fuel true name base (sub64 last base) flags src l = some (r, s')) (hb : UserBound base)
    (hl : UserBound last) (hlt : base < last) : AreasOk s' := by
  have hadd : add64 base (sub64 last base) = last := add64_sub64 (lt_of_le_of_lt hl.2.2 (by decide))
  obtain ⟨hag, _, hbound, _⟩ := addExecutableVma_spec h.agrees (by rw [hadd]; exact hlt) he
  refine ⟨hag, fun a ha => ?_⟩
  rcases hbound a ha with hold | ⟨_, rfl | rfl⟩
  · exact h.bounds a hold
  · exact hb
  · rw [hadd]
    exact hl

theorem roundUp_user (h : a ≤ USER_LIM) : a ≤ roundUp a ∧ roundUp a ≤ USER_LIM := by
  simp only [roundUp, roundDown, add64, PAGE_SIZE, USER_LIM] at *
  omega

/-- Adding an area on bounds that areas may have keeps `T`. An area with no data behind it has length zero. -/
def AddKeeps (fuel : Nat) (T : VmSpace → Prop) : Prop :=
  ∀ s s' name base last flags src l r, T s → s.addExecutableVma fuel true name base (sub64 last base) flags src l = some (r, s') →
    UserBound base → UserBound last → base < last → (src = none → l = 0) → T s'

theorem AreasOk.addKeeps : AddKeeps fuel AreasOk :=
  fun _ _ _ _ _ _ _ _ _ h he hb hl hlt _ => h.addExecutable he hb hl hlt

section Load

variable {binary : Nat} {T : VmSpace → Prop} {hdrs : List ProgHdr}

section

variable (hassert : ¬bad .assertion) (htree : ¬bad .rbTree)

include hassert htree

theorem loadSegment_keeps {hdr : ProgHdr} (hT : AddKeeps fuel T) (h : T s)
    (hu : hdr.InUser) : Ends bad (loadSegment fuel binary s hdr) T := by
  refine .ite (fun _ => .ok h) fun hload => .ite (fun _ => .error hassert) fun _ => ?_
  obtain ⟨hlow, hpos, hhigh⟩ := hu (by simpa using hload)
  cases he : s.addExecutableVma fuel true hdr.areaName (roundDown hdr.pVa)
    (sub64 (roundUp (add64 hdr.pVa hdr.pMemsz)) (roundDown hdr.pVa)) hdr.protFlags
    (some (sub64 (add64 binary hdr.pOffset) (hdr.pVa - roundDown hdr.pVa)))
    (add64 hdr.pFilesz (hdr.pVa - roundDown hdr.pVa)) with
  | none =>
    simp only [he]
    exact .error htree
  | some r =>
    simp only [he]
    have hbase : PAGE_SIZE ≤ roundDown hdr.pVa ∧ roundDown hdr.pVa ≤ hdr.pVa := by
      simp only [roundDown, PAGE_SIZE] at *
      omega
    obtain ⟨h1, h2⟩ := roundUp_user hhigh
    rw [add64_of_le hhigh] at he
    exact .ok (hT _ _ _ _ _ _ _ _ _ h he ⟨pageAligned_roundDown _, hbase.1, by omega⟩ ⟨pageAligned_roundUp _, by omega, h2⟩
      (by omega) (by simp))

/-- The areas of a program whose segments lie in the user half, for what adding an area keeps. -/
theorem taskLoadElf_keeps (hT : AddKeeps fuel T)
    (hempty : T VmSpace.empty) (hu : ∀ h ∈ hdrs, h.InUser) : Ends bad (taskLoadElf fuel binary hdrs) T := by
  have hseg : ∀ (l : List ProgHdr) (s : VmSpace), (∀ h ∈ l, h.InUser) → T s →
      Ends bad (l.foldlM (loadSegment fuel binary) s) T := by
    intro l
    induction l with
    | nil => exact fun s _ h => .ok h
    | cons hdr l ih =>
      intro s hl h
      rw [List.foldlM_cons]
      exact (loadSegment_keeps hassert htree hT h (hl hdr List.mem_cons_self)).bind fun s' h' =>
        ih s' (fun x hx => hl x (List.mem_cons_of_mem _ hx)) h'
  refine (hseg hdrs _ hu hempty).bind fun s h => ?_
  cases he : s.addAnonymousVma fuel true "stack" (USTACK_TOP - PAGE_SIZE) PAGE_SIZE (PROT_READ ||| PROT_WRITE) with
  | none => exact .error htree
  | some r =>
    have hstack : UserBound USTACK_TOP ∧ UserBound (USTACK_TOP - PAGE_SIZE) := by
      refine ⟨⟨?_, ?_, ?_⟩, ⟨?_, ?_, ?_⟩⟩ <;> decide
    have hlt : USTACK_TOP - PAGE_SIZE < USTACK_TOP := by decide
    have hsize : sub64 USTACK_TOP (USTACK_TOP - PAGE_SIZE) = PAGE_SIZE := by decide
    have he' : s.addExecutableVma fuel true "stack" (USTACK_TOP - PAGE_SIZE) (sub64 USTACK_TOP (USTACK_TOP - PAGE_SIZE))
        (PROT_READ ||| PROT_WRITE) none 0 = some r := by
      rw [hsize]
      exact he
    exact .ok (hT _ _ _ _ _ _ _ _ _ h he' hstack.2 hstack.1 hlt fun _ => rfl)

theorem taskLoadElf_ok (hu : ∀ h ∈ hdrs, h.InUser) : Ends bad (taskLoadElf fuel binary hdrs) AreasOk :=
  taskLoadElf_keeps hassert htree AreasOk.addKeeps areasOk_empty hu

end

end Load

end OpenLsd
