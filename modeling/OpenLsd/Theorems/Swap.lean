import OpenLsd.Lib.Outcome
import OpenLsd.Mem.Swap

/-!
# What comes back from the swap disk

A page that goes out is written in full: eight sectors, to the place of its slot and nowhere else. A page that comes in is not:
`ata_read` transfers one sector and reports eight. So of the page that was stored the first 512 bytes come back, and the rest
of the frame stays what it was. The theorem says so for every run of calls that succeed, whatever else happens to the memory
in between and whenever the disk is ready.
-/

namespace OpenLsd

open Function

variable {buf data buf' : Nat → UInt8} {x x' : AtaDisk} {fuel : Nat} {ret : Int}

variable {stored : Nat → Option (Nat → UInt8)}

/-! ## The driver -/

/-- The disk is in a state of the driver, with the bytes it holds. -/
structure AtaDisk.In (x : AtaDisk) (state : AtaState) (data : Nat → UInt8) : Prop where
  state_eq : x.state = state
  sectSize_eq : x.sectSize = SECTOR_SIZE
  data_eq : x.dev.data = data

/-- The bytes `buf` with the words that `insl` reads at `pos`. -/
def received (data buf : Nat → UInt8) (pos len : Nat) : Nat → UInt8 := fun i => if i < len then data (pos + i) else buf i

/-- The bytes of a disk after `outsl` has written `len` bytes at `pos`. -/
def sent (data buf : Nat → UInt8) (pos len : Nat) : Nat → UInt8 :=
  fun x => if pos ≤ x ∧ x < pos + len then buf (x - pos) else data x

theorem AtaDev.waitReady_eq {n : Nat} {d d' : AtaDev} (h : d.waitReady n = some d') : ∃ t, d' = { d with now := t } := by
  induction n generalizing d with
  | zero => exact absurd h (by simp [waitReady])
  | succ n ih =>
    cases hr : d.ready d.now with
    | true =>
      simp only [waitReady, status, hr, Option.some.injEq] at h
      exact ⟨_, h.symm⟩
    | false =>
      simp only [waitReady, status, hr] at h
      have := ih h
      exact this

/-- The registers name the sector that the driver asks for. -/
theorem AtaDev.lba_request (d : AtaDev) (drive : Nat) {addr : Nat} (h : addr < 2 ^ 28) :
    AtaDev.lba { d with
      lbaLo := addr &&& 0xff
      lbaMid := addr >>> 8 &&& 0xff
      lbaHi := addr >>> 16 &&& 0xff
      driveReg := 0xe0 ||| drive <<< 4 ||| (addr >>> 24 &&& 0xf) } = addr := by
  have low : (0xe0 ||| drive <<< 4 ||| (addr >>> 24 &&& 0xf)) % 2 ^ 4 = addr >>> 24 % 2 ^ 4 := by
    rw [Nat.or_mod_two_pow, Nat.or_mod_two_pow, Nat.shiftLeft_eq, Nat.mul_mod_left,
      show 0xf = 2 ^ 4 - 1 from rfl, Nat.and_two_pow_sub_one_eq_mod, Nat.mod_mod]
    simp
  simp only [lba, low]
  simp only [show 0xff = 2 ^ 8 - 1 from rfl, Nat.and_two_pow_sub_one_eq_mod, Nat.shiftRight_eq_div_pow]
  omega

namespace AtaDisk

variable {st : AtaState} {count addr : Nat}

theorem In.selectDrive (h : x.In st data) : x.selectDrive.In st data := ⟨h.state_eq, h.sectSize_eq, h.data_eq⟩

theorem In.ataPoll (h : x.In st data) : x.ataPoll.2.In st data := ⟨h.state_eq, h.sectSize_eq, h.data_eq⟩

theorem request_spec {cmd : AtaCmd} {st' : AtaState} (hx : x.In st data) (hc : cmd ≠ .flush) (ha : addr < 2 ^ 28)
    (h : x.request fuel cmd st' count addr = some x') : x'.In st' data ∧ x'.dev.pos = addr * SECTOR_SIZE := by
  simp only [request, Option.bind_eq_bind, Option.bind_eq_some_iff, Option.pure_def, Option.some.injEq] at h
  obtain ⟨d, hd, rfl⟩ := h
  obtain ⟨t, rfl⟩ := AtaDev.waitReady_eq hd
  have hl := AtaDev.lba_request { x.dev with sectorCount := count % 2 ^ 8, now := t } x.drive ha
  cases cmd with
  | flush => exact absurd rfl hc
  | read => exact ⟨⟨rfl, hx.sectSize_eq, hx.data_eq⟩, congrArg (· * SECTOR_SIZE) hl⟩
  | write => exact ⟨⟨rfl, hx.sectSize_eq, hx.data_eq⟩, congrArg (· * SECTOR_SIZE) hl⟩

theorem ataRead_idle (hx : x.In .idle data) (ha : addr < 2 ^ 28) (h : x.ataRead fuel buf count addr = some (ret, buf', x')) :
    ret = -EAGAIN ∧ buf' = buf ∧ x'.In .read data ∧ x'.dev.pos = addr * SECTOR_SIZE := by
  simp only [ataRead, if_pos hx.selectDrive.state_eq, Option.bind_eq_bind, Option.bind_eq_some_iff, Option.pure_def,
    Option.some.injEq, Prod.mk.injEq] at h
  obtain ⟨y, hy, rfl, rfl, rfl⟩ := h
  exact ⟨rfl, rfl, request_spec hx.selectDrive (by simp) ha hy⟩

theorem ataRead_read (hx : x.In .read data) (h : x.ataRead fuel buf count addr = some (ret, buf', x')) :
    (ret = -EAGAIN ∧ buf' = buf ∧ x'.In .read data ∧ x'.dev.pos = x.dev.pos) ∨
    (ret = (count * SECTOR_SIZE : Nat) ∧ buf' = received data buf x.dev.pos SECTOR_SIZE ∧ x'.In .idle data) := by
  have hs := hx.selectDrive.state_eq
  simp only [ataRead, hs, reduceCtorEq, if_false, ne_eq, not_true_eq_false] at h
  cases hr : (x.selectDrive.ataPoll).1 with
  | false =>
    simp only [hr, if_true, Option.pure_def, Option.some.injEq, Prod.mk.injEq] at h
    obtain ⟨rfl, rfl, rfl⟩ := h
    exact .inl ⟨rfl, rfl, hx.selectDrive.ataPoll, rfl⟩
  | true =>
    simp only [hr, Bool.true_eq_false, if_false, Option.pure_def, Option.some.injEq, Prod.mk.injEq] at h
    obtain ⟨rfl, rfl, rfl⟩ := h
    have hz := hx.selectDrive.ataPoll
    refine .inr ⟨by rw [hz.sectSize_eq], ?_, rfl, hz.sectSize_eq, hz.data_eq⟩
    rw [← hx.data_eq]
    simp only [hz.sectSize_eq]
    rfl

theorem ataWrite_idle (hx : x.In .idle data) (ha : addr < 2 ^ 28) (h : x.ataWrite fuel buf count addr = some (ret, x')) :
    ret = -EAGAIN ∧ x'.In .write data ∧ x'.dev.pos = addr * SECTOR_SIZE := by
  simp only [ataWrite, if_pos hx.selectDrive.state_eq, Option.bind_eq_bind, Option.bind_eq_some_iff, Option.pure_def,
    Option.some.injEq, Prod.mk.injEq] at h
  obtain ⟨y, hy, rfl, rfl⟩ := h
  exact ⟨rfl, request_spec hx.selectDrive (by simp) ha hy⟩

theorem ataWrite_write (hx : x.In .write data) (h : x.ataWrite fuel buf count addr = some (ret, x')) :
    (ret = -EAGAIN ∧ x'.In .write data ∧ x'.dev.pos = x.dev.pos) ∨
    (ret = (count * SECTOR_SIZE : Nat) ∧ x'.In .idle (sent data buf x.dev.pos (count * SECTOR_SIZE))) := by
  have hs := hx.selectDrive.state_eq
  simp only [ataWrite, hs, reduceCtorEq, if_false, ne_eq, not_true_eq_false] at h
  cases hr : (x.selectDrive.ataPoll).1 with
  | false =>
    simp only [hr, if_true, Option.pure_def, Option.some.injEq, Prod.mk.injEq] at h
    obtain ⟨rfl, rfl⟩ := h
    exact .inl ⟨rfl, hx.selectDrive.ataPoll, rfl⟩
  | true =>
    simp only [hr, Bool.true_eq_false, if_false, Option.bind_eq_bind, Option.bind_eq_some_iff, Option.pure_def,
      Option.some.injEq, Prod.mk.injEq] at h
    obtain ⟨d1, h1, d2, h2, d3, h3, rfl, rfl⟩ := h
    obtain ⟨t1, rfl⟩ := AtaDev.waitReady_eq h1
    obtain ⟨t2, rfl⟩ := AtaDev.waitReady_eq h2
    obtain ⟨t3, rfl⟩ := AtaDev.waitReady_eq h3
    have hz := hx.selectDrive.ataPoll.selectDrive
    refine .inr ⟨by rw [hz.sectSize_eq], rfl, hz.sectSize_eq, ?_⟩
    have hw : 4 * (count * SECTOR_SIZE / 4) = count * SECTOR_SIZE := by rw [SECTOR_SIZE]; omega
    have hl : 4 * (count * x.selectDrive.ataPoll.2.selectDrive.sectSize / 4) = count * SECTOR_SIZE := by
      rw [hz.sectSize_eq, hw]
    rw [← hx.data_eq, ← hl]
    rfl

end AtaDisk

/-! ## Pages -/

namespace SwapState

variable {lba pos : Nat}

/-- `count * ata_disk->sect_size` is no error. -/
theorem not_again : ((SWAP_SECTORS_PER_PAGE * SECTOR_SIZE : Nat) : Int) ≠ -EAGAIN := by decide

theorem readLoop_read (hx : x.In .read data) (hp : x.dev.pos = pos) (h : readLoop x buf lba fuel = some (ret, buf', x')) :
    0 ≤ ret ∧ buf' = received data buf pos SECTOR_SIZE ∧ x'.In .idle data := by
  induction fuel generalizing x with
  | zero => exact absurd h (by simp [readLoop])
  | succ n ih =>
    simp only [readLoop, Option.bind_eq_bind, Option.bind_eq_some_iff, Option.pure_def] at h
    obtain ⟨⟨r, b, y⟩, hr, h⟩ := h
    obtain ⟨rfl, rfl, hy, hq⟩ | ⟨rfl, rfl, hy⟩ := AtaDisk.ataRead_read hx hr
    · rw [if_pos rfl] at h
      exact ih hy.ataPoll (hq.trans hp) h
    · rw [if_neg not_again] at h
      cases h
      exact ⟨Int.natCast_nonneg _, by rw [hp], hy⟩

theorem readLoop_idle (hx : x.In .idle data) (hl : lba < 2 ^ 28) (h : readLoop x buf lba fuel = some (ret, buf', x')) :
    0 ≤ ret ∧ buf' = received data buf (lba * SECTOR_SIZE) SECTOR_SIZE ∧ x'.In .idle data := by
  cases fuel with
  | zero => exact absurd h (by simp [readLoop])
  | succ n =>
    simp only [readLoop, Option.bind_eq_bind, Option.bind_eq_some_iff, Option.pure_def] at h
    obtain ⟨⟨r, b, y⟩, hr, h⟩ := h
    obtain ⟨rfl, rfl, hy, hq⟩ := AtaDisk.ataRead_idle hx hl hr
    rw [if_pos rfl] at h
    exact readLoop_read hy.ataPoll hq h

theorem writeLoop_write (hx : x.In .write data) (hp : x.dev.pos = pos) (h : writeLoop x buf lba fuel = some (ret, x')) :
    0 ≤ ret ∧ x'.In .idle (sent data buf pos PAGE_SIZE) := by
  induction fuel generalizing x with
  | zero => exact absurd h (by simp [writeLoop])
  | succ n ih =>
    simp only [writeLoop, Option.bind_eq_bind, Option.bind_eq_some_iff, Option.pure_def] at h
    obtain ⟨⟨r, y⟩, hr, h⟩ := h
    obtain ⟨rfl, hy, hq⟩ | ⟨rfl, hy⟩ := AtaDisk.ataWrite_write hx hr
    · rw [if_pos rfl] at h
      exact ih hy.ataPoll (hq.trans hp) h
    · rw [if_neg not_again] at h
      cases h
      rw [hp] at hy
      exact ⟨Int.natCast_nonneg _, hy⟩

theorem writeLoop_idle (hx : x.In .idle data) (hl : lba < 2 ^ 28) (h : writeLoop x buf lba fuel = some (ret, x')) :
    0 ≤ ret ∧ x'.In .idle (sent data buf (lba * SECTOR_SIZE) PAGE_SIZE) := by
  cases fuel with
  | zero => exact absurd h (by simp [writeLoop])
  | succ n =>
    simp only [writeLoop, Option.bind_eq_bind, Option.bind_eq_some_iff, Option.pure_def] at h
    obtain ⟨⟨r, y⟩, hr, h⟩ := h
    obtain ⟨rfl, hy, hq⟩ := AtaDisk.ataWrite_idle hx hl hr
    rw [if_pos rfl] at h
    exact writeLoop_write hy.ataPoll hq h

/-- The 28 bits of a sector number are enough for every slot. -/
theorem lba_lt {slot : Nat} (h : slot < SWAP_ENTRIES) : slot * SWAP_SECTORS_PER_PAGE < 2 ^ 28 := by
  have hs : SWAP_ENTRIES = 32768 := by decide
  have hp : SWAP_SECTORS_PER_PAGE = 8 := by decide
  rw [hp]
  omega

theorem lba_pos (slot : Nat) : slot * SWAP_SECTORS_PER_PAGE * SECTOR_SIZE = slot * PAGE_SIZE := by
  rw [Nat.mul_assoc]
  rfl

variable {s s' : SwapState AtaDisk} {pp slot : Nat}

theorem swapPageIn_spec (hx : s.sdisk = some x) (hi : x.In .idle data) (hs : slot < SWAP_ENTRIES)
    (h : s.swapPageIn fuel pp slot = some (ret, s')) :
    ret = 0 ∧ (∃ y, s'.sdisk = some y ∧ y.In .idle data) ∧
    s'.phys.bytes = update s.phys.bytes pp
      (received data (s.phys.bytes pp) (slot * PAGE_SIZE) SECTOR_SIZE) := by
  simp only [swapPageIn, hx, Option.bind_eq_bind, Option.bind_some, Option.bind_eq_some_iff, Option.pure_def,
    Option.some.injEq, Prod.mk.injEq] at h
  obtain ⟨⟨r, b, y⟩, hr, rfl, rfl⟩ := h
  obtain ⟨h0, rfl, hy⟩ := readLoop_idle hi (lba_lt hs) hr
  refine ⟨if_neg (Int.not_lt.2 h0), ⟨y, rfl, hy⟩, ?_⟩
  rw [← lba_pos]

theorem swapPageOut_spec (hx : s.sdisk = some x) (hi : x.In .idle data) (hs : slot < SWAP_ENTRIES)
    (h : s.swapPageOut fuel pp slot = some (0, s')) :
    ∃ y, s'.sdisk = some y ∧ y.In .idle (sent data (s.phys.bytes pp) (slot * PAGE_SIZE) PAGE_SIZE) := by
  simp only [swapPageOut, hx] at h
  split at h
  · simp [EINVAL] at h
  · simp only [Option.bind_eq_bind, Option.bind_eq_some_iff, Option.pure_def] at h
    obtain ⟨⟨r, y⟩, hr, h⟩ := h
    obtain ⟨h0, hy⟩ := writeLoop_idle hi (lba_lt hs) hr
    rw [if_neg (Int.not_lt.2 h0)] at h
    cases h
    rw [lba_pos] at hy
    exact ⟨y, rfl, hy⟩

end SwapState

/-- The states that `swap_page_out` and `swap_page_in` make with calls that return 0, from an idle disk, with any change of
the memory in between. The second argument is what each slot was last given. -/
inductive SwapRun : SwapState AtaDisk → (Nat → Option (Nat → UInt8)) → Prop where
  | boot {s : SwapState AtaDisk} (h : ∀ x ∈ s.sdisk, x.state = .idle ∧ x.sectSize = SECTOR_SIZE) : SwapRun s (fun _ => none)
  | memory {s : SwapState AtaDisk} {stored : Nat → Option (Nat → UInt8)} (m : Phys) (hr : SwapRun s stored) :
    SwapRun { s with phys := m } stored
  | pageOut {s s' : SwapState AtaDisk} {stored : Nat → Option (Nat → UInt8)} {fuel pp slot : Nat} (hr : SwapRun s stored)
    (hs : slot < SWAP_ENTRIES) (h : s.swapPageOut fuel pp slot = some (0, s')) :
    SwapRun s' (Function.update stored slot (some (s.phys.bytes pp)))
  | pageIn {s s' : SwapState AtaDisk} {stored : Nat → Option (Nat → UInt8)} {fuel pp slot : Nat} (hr : SwapRun s stored)
    (hs : slot < SWAP_ENTRIES) (h : s.swapPageIn fuel pp slot = some (0, s')) : SwapRun s' stored

/-- The bytes of the disk are those of the pages that went out. -/
def Keeps (data : Nat → UInt8) (stored : Nat → Option (Nat → UInt8)) : Prop :=
  ∀ slot page, stored slot = some page → ∀ i < PAGE_SIZE, data (slot * PAGE_SIZE + i) = page i

theorem Keeps.sent (h : Keeps data stored) (slot : Nat) :
    Keeps (sent data buf (slot * PAGE_SIZE) PAGE_SIZE) (update stored slot (some buf)) := by
  intro q page hq i hi
  by_cases e : q = slot
  · subst e
    rw [update_self, Option.some.injEq] at hq
    rw [OpenLsd.sent, if_pos ⟨Nat.le_add_right _ _, Nat.add_lt_add_left hi _⟩, Nat.add_sub_cancel_left, hq]
  · rw [update_of_ne e] at hq
    -- the bytes of another slot lie in another block of the disk
    have apart : ¬ (slot * PAGE_SIZE ≤ q * PAGE_SIZE + i ∧ q * PAGE_SIZE + i < slot * PAGE_SIZE + PAGE_SIZE) := by
      rw [PAGE_SIZE] at *
      omega
    rw [OpenLsd.sent, if_neg apart]
    exact h q page hq i hi

/-- Between calls the driver is idle. -/
theorem SwapRun.keeps {s : SwapState AtaDisk} (h : SwapRun s stored) : ∀ x ∈ s.sdisk, ∃ data, x.In .idle data ∧ Keeps data stored := by
  induction h with
  | boot h => exact fun x hx => ⟨x.dev.data, ⟨(h x hx).1, (h x hx).2, rfl⟩, fun _ _ e => nomatch e⟩
  | memory m hr ih => exact ih
  | @pageOut s s' stored fuel pp slot hr hs h ih =>
    intro y hy
    cases hx : s.sdisk with
    | none =>
      simp [SwapState.swapPageOut, hx] at h
    | some x =>
      obtain ⟨data, hi, hk⟩ := ih x hx
      obtain ⟨z, hz, hin⟩ := SwapState.swapPageOut_spec hx hi hs h
      rw [hz] at hy
      cases hy
      exact ⟨_, hin, hk.sent slot⟩
  | @pageIn s s' stored fuel pp slot hr hs h ih =>
    intro y hy
    cases hx : s.sdisk with
    | none => simp [SwapState.swapPageIn, hx] at h
    | some x =>
      obtain ⟨data, hi, hk⟩ := ih x hx
      obtain ⟨-, ⟨z, hz, hin⟩, -⟩ := SwapState.swapPageIn_spec hx hi hs h
      rw [hz] at hy
      cases hy
      exact ⟨data, hin, hk⟩

/-- After `swap_page_in` the frame holds the page that the last `swap_page_out` to the slot stored exactly when the frame held
the part of it past the first sector before. -/
theorem swap_round_trip_iff {s s' : SwapState AtaDisk} {stored : Nat → Option (Nat → UInt8)} {page : Nat → UInt8}
    {fuel pp slot : Nat} (hr : SwapRun s stored) (hs : slot < SWAP_ENTRIES) (hp : stored slot = some page)
    (h : s.swapPageIn fuel pp slot = some (0, s')) :
    (∀ i < PAGE_SIZE, s'.phys.bytes pp i = page i) ↔
      ∀ i, SECTOR_SIZE ≤ i → i < PAGE_SIZE → s.phys.bytes pp i = page i := by
  cases hx : s.sdisk with
  | none => simp [SwapState.swapPageIn, hx] at h
  | some x =>
    obtain ⟨data, hi, hk⟩ := hr.keeps x hx
    obtain ⟨-, -, hb⟩ := SwapState.swapPageIn_spec hx hi hs h
    have hf : s'.phys.bytes pp = received data (s.phys.bytes pp) (slot * PAGE_SIZE) SECTOR_SIZE := by
      rw [hb, Function.update_self]
    rw [hf]
    constructor
    · intro hall i h1 h2
      have := hall i h2
      rwa [received, if_neg (Nat.not_lt.2 h1)] at this
    · intro hrest i hi
      by_cases h1 : i < SECTOR_SIZE
      · rw [received, if_pos h1]
        exact hk slot page hp i hi
      · rw [received, if_neg h1]
        exact hrest i (Nat.not_lt.1 h1) hi

/-! ## Writes that fail -/

/-- An ATA disk takes every write. -/
theorem AtaDisk.ataWrite_ret {count addr : Nat} (h : x.ataWrite fuel buf count addr = some (ret, x')) : ret = -EAGAIN ∨ 0 ≤ ret := by
  simp only [ataWrite, Option.bind_eq_bind, Option.pure_def] at h
  split at h
  · simp only [Option.bind_eq_some_iff, Option.some.injEq, Prod.mk.injEq] at h
    obtain ⟨_, _, rfl, _⟩ := h
    exact .inl rfl
  · split at h
    · cases h
      exact .inl rfl
    · split at h
      · cases h
        exact .inl rfl
      · simp only [Option.bind_eq_some_iff, Option.some.injEq, Prod.mk.injEq] at h
        obtain ⟨_, _, _, _, _, _, rfl, _⟩ := h
        exact .inr (Int.natCast_nonneg _)

/-- An AHCI disk needs a slot for the command, which it looks for when it is idle. It is not idle when it is asked again. -/
theorem AhciDisk.ahciWrite_ret {x x' : AhciDisk} {count addr : Nat} (hc : count ≠ 0)
    (h : x.ahciWrite fuel count addr = some (ret, x')) :
    (x.state = .idle ∧ x.port.findCmdslot < 0) ∧ ret = -ENOMEM ∨
      ¬(x.state = .idle ∧ x.port.findCmdslot < 0) ∧ (ret = -EAGAIN ∧ x'.state ≠ .idle ∨ 0 ≤ ret) := by
  simp only [ahciWrite, Option.bind_eq_bind, Option.pure_def] at h
  by_cases hi : x.state = .idle
  · rw [if_pos hi] at h
    by_cases hs : x.port.findCmdslot < 0
    · rw [if_pos hs] at h
      cases h
      exact .inl ⟨⟨hi, hs⟩, rfl⟩
    · rw [if_neg hs, if_neg hc] at h
      simp only [Option.bind_eq_some_iff, Option.some.injEq, Prod.mk.injEq] at h
      obtain ⟨_, _, rfl, rfl⟩ := h
      exact .inr ⟨fun h => hs h.2, .inl ⟨rfl, nofun⟩⟩
  · rw [if_neg hi] at h
    refine .inr ⟨fun h => hi h.1, ?_⟩
    split at h
    · cases h
      exact .inl ⟨rfl, hi⟩
    · split at h
      · cases h
        exact .inl ⟨rfl, hi⟩
      · cases h
        refine .inr ?_
        split
        · exact le_rfl
        · exact Int.natCast_nonneg _

namespace Disk

/-- An idle AHCI disk that has a command in progress in every slot. -/
def NoSlot : Disk → Prop
  | .ata _ => False
  | .ahci x => x.state = .idle ∧ x.port.findCmdslot < 0

theorem diskWrite_ret {d d' : Disk} {count addr : Nat} (hc : count ≠ 0) (h : d.diskWrite fuel buf count addr = some (ret, d')) :
    d.NoSlot ∧ ret = -ENOMEM ∨ ¬d.NoSlot ∧ (ret = -EAGAIN ∧ ¬d'.diskPoll.2.NoSlot ∨ 0 ≤ ret) := by
  cases d with
  | ata x =>
    obtain ⟨⟨r, y⟩, hr, hy⟩ := Option.map_eq_some_iff.1 h
    cases hy
    exact .inr ⟨id, (AtaDisk.ataWrite_ret hr).imp_left fun h => ⟨h, id⟩⟩
  | ahci x =>
    obtain ⟨⟨r, y⟩, hr, hy⟩ := Option.map_eq_some_iff.1 h
    cases hy
    exact (AhciDisk.ahciWrite_ret hc hr).imp_right fun h => ⟨h.1, h.2.imp_left fun h => ⟨h.1, fun hn => h.2 hn.1⟩⟩

end Disk

/-- The loop of `swap_page_out` ends in an error just if its first write does. -/
theorem SwapState.writeLoop_ret {d d' : Disk} {lba : Nat} (h : writeLoop d buf lba fuel = some (ret, d')) : ret < 0 ↔ d.NoSlot := by
  induction fuel generalizing d with
  | zero => exact absurd h (by simp [writeLoop])
  | succ n ih =>
    simp only [writeLoop, Option.bind_eq_bind, Option.bind_eq_some_iff, Option.pure_def] at h
    obtain ⟨⟨r, e⟩, hr, h⟩ := h
    rcases Disk.diskWrite_ret (by decide) hr with ⟨hn, rfl⟩ | ⟨hn, ⟨rfl, hnext⟩ | hpos⟩
    · rw [if_neg (show -ENOMEM ≠ -EAGAIN by decide)] at h
      cases h
      exact iff_of_true (show -ENOMEM < 0 by decide) hn
    · rw [if_pos rfl] at h
      exact (ih h).trans (iff_of_false hnext hn)
    · have hne : r ≠ -EAGAIN := by
        rintro rfl
        exact absurd hpos (by decide)
      rw [if_neg hne] at h
      cases h
      exact iff_of_false (Int.not_lt.2 hpos) hn

/-! ## The mapping of a page that goes out -/

/-- An entry of the page table maps the frame. -/
def MapsFrame (t : Pml4) (p : Nat) : Prop := ∃ va x, lookup t va = some x ∧ x.2.frame = p

/-- The page is tracked, and its one reference is the mapping that it is tracked by. -/
structure Tracked {D : Type} (s : SwapState D) (t : SwapTables) (task pp : Nat) : Prop where
  owner : (s.phys.pages pp).owner = some task
  mapped : ∃ x, lookup (t.taskPml4 task) (s.phys.pages pp).virtAddr = some x ∧ x.2.frame = pp
  ppRef : (s.phys.pages pp).ppRef = 1

/-- The entries of the page tables stay: what is cleared is a bit of a `struct page_info`. -/
theorem SwapTables.clearPresent_taskPml4 {t t' : SwapTables} {npages task va : Nat} (h : t.clearPresent npages task va = .ok t') :
    t'.taskPml4 = t.taskPml4 := by
  obtain ⟨⟨pte, _⟩, _, h⟩ := Outcome.bind_ok h
  cases pte with
  | none =>
    cases h
    rfl
  | some pp =>
    simp only at h
    split at h <;> cases h <;> rfl

/-- A page that goes out stays mapped, and is freed with the reference of that mapping. So what `swap_page_out` is for holds only
where it does nothing: when there is no swap disk, or the disk has no slot for the write. -/
theorem swap_out_unmaps_iff {s s' : SwapState Disk} {t t' : SwapTables} {fuel task pp slot : Nat} {ret : Int}
    (hpp : Tracked s t task pp) (h : s.swapPageOutTables fuel t pp slot = .ok (some (ret, s', t'))) :
    (ret = 0 → ¬MapsFrame (t'.taskPml4 task) pp ∧ (s'.phys.pages pp).ppRef = 0) ↔ ∀ d ∈ s.sdisk, d.NoSlot := by
  cases hd : s.sdisk with
  | none =>
    simp only [SwapState.swapPageOutTables, SwapState.swapPageOut, hd, hpp.owner] at h
    cases h
    exact iff_of_true nofun nofun
  | some d =>
    cases hout : s.swapPageOut fuel pp slot with
    | none => simp [SwapState.swapPageOutTables, hout] at h
    | some r =>
      obtain ⟨ret', s1⟩ := r
      have hret := hout
      simp only [SwapState.swapPageOut, hd, hpp.owner, Option.isNone_some, Bool.false_eq_true, if_false, Option.bind_eq_bind,
        Option.bind_eq_some_iff, Option.pure_def] at hret
      obtain ⟨⟨n, y⟩, hw, hret⟩ := hret
      have hfails := SwapState.writeLoop_ret hw
      simp only [SwapState.swapPageOutTables, hout, hpp.owner] at h
      by_cases hneg : n < 0
      · rw [if_pos hneg] at hret
        cases hret
        rw [if_neg hneg.ne] at h
        cases h
        refine iff_of_true (fun h0 => absurd h0 hneg.ne) fun e he => ?_
        cases he
        exact hfails.1 hneg
      · rw [if_neg hneg] at hret
        cases hret
        rw [if_pos rfl] at h
        obtain ⟨t1, ht, h⟩ := Outcome.bind_ok h
        cases h
        refine iff_of_false (fun hall => (hall rfl).1 ?_) fun hall => hneg (hfails.2 (hall d rfl))
        rw [SwapTables.clearPresent_taskPml4 ht]
        exact ⟨_, hpp.mapped⟩

/-- Eight frames with the given bytes. Each is tracked by the task 1. -/
def swapFrames (bytes : Nat → Nat → UInt8) : Phys where
  npages := 8
  pages := fun _ => { ppRef := 1, ppOrder := 0, ppFree := false, ppAvail := true, virtAddr := 0x400000, owner := some 1 }
  buddyFreeList := fun _ => []
  activePages := []
  bytes := bytes

/-- A machine whose frames hold the given bytes, and an idle disk that is always ready. -/
def swapExample (bytes : Nat → Nat → UInt8) : SwapState AtaDisk where
  phys := swapFrames bytes
  sdisk := some
    { drive := 1, state := .idle, sectSize := 512,
      dev :=
        { data := fun _ => 0xff, sectorCount := 0, lbaLo := 0, lbaMid := 0, lbaHi := 0, driveReg := 0, pos := 0,
          ready := fun _ => true, now := 0 } }

theorem swapExample_boot (bytes : Nat → Nat → UInt8) : SwapRun (swapExample bytes) (fun _ => none) := by
  refine .boot fun x hx => ?_
  cases hx
  exact ⟨rfl, rfl⟩

/-- A page comes back into a frame that differs from it in the first sector. -/
theorem swap_round_trip_firstSector :
    ∃ s1 s2, (swapExample fun p i => if p = 3 ∨ 512 ≤ i then 7 else 1).swapPageOut 4 3 5 = some (0, s1) ∧
      s1.swapPageIn 4 4 5 = some (0, s2) ∧ s1.phys.bytes 4 0 = 1 ∧ ∀ i < PAGE_SIZE, s2.phys.bytes 4 i = 7 := by
  refine ⟨_, _, rfl, rfl, rfl, ?_⟩
  have hr := @SwapRun.pageOut _ _ _ 4 3 5 (swapExample_boot fun p i => if p = 3 ∨ 512 ≤ i then 7 else 1) (by decide) rfl
  refine (@swap_round_trip_iff _ _ _ _ 4 4 5 hr (by decide) (Function.update_self ..) rfl).2 fun i hi _ => ?_
  exact if_pos (.inr hi)

/-- A page of ones that comes back into a frame of zeros: byte 512 is still zero. -/
theorem swap_loses_bytes :
    ∃ s1 s2, (swapExample fun p _ => if p = 3 then 1 else 0).swapPageOut 4 3 5 = some (0, s1) ∧
      s1.swapPageIn 4 4 5 = some (0, s2) ∧ s2.phys.bytes 4 511 = 1 ∧ s2.phys.bytes 4 512 = 0 :=
  ⟨_, _, rfl, rfl, rfl, rfl⟩

/-- A page table that maps the frame 3 at `0x400000`, for every task. -/
def swapTables : SwapTables where
  taskPml4 := fun _ i => if i = 0 then ⟨tableEntry 4, fun i => if i = 0 then ⟨tableEntry 5, fun i => if i = 2 then ⟨tableEntry 6,
    fun i => if i = 0 then tableEntry 3 else 0⟩ else 0⟩ else 0⟩ else 0
  ppNodeNext := fun p => 64 * p

theorem swapTables_maps : ∃ x, lookup (swapTables.taskPml4 1) 0x400000 = some x ∧ x.2.frame = 3 := ⟨_, rfl, rfl⟩

/-- The same frames, and an idle AHCI disk with commands in progress in the given slots. -/
def ahciExample (slots : Nat) : SwapState Disk where
  phys := swapFrames fun p i => if p = 3 ∨ 512 ≤ i then 7 else 1
  sdisk := some (.ahci
    { port := { sataAct := fun _ => slots, cmdIssue := fun _ => 0, intStat := fun _ => 0, taskFileData := fun _ => 0, now := 0 },
      state := .idle, sectSize := 512, slot := -1, issued := none })

theorem ahciExample_tracked (slots : Nat) : Tracked (ahciExample slots) swapTables 1 3 := ⟨rfl, swapTables_maps, rfl⟩

/-- Without a slot for the write the page stays. -/
theorem swap_out_unmaps_noSlot : ∃ s', Tracked (ahciExample 0xffffffff) swapTables 1 3 ∧
    (ahciExample 0xffffffff).swapPageOutTables 4 swapTables 3 5 = .ok (some (-ENOMEM, s', swapTables)) ∧
      (-ENOMEM = 0 → ¬MapsFrame (swapTables.taskPml4 1) 3 ∧ (s'.phys.pages 3).ppRef = 0) := by
  have hs := ahciExample_tracked 0xffffffff
  have hrun : ∃ s', (ahciExample 0xffffffff).swapPageOutTables 4 swapTables 3 5 = .ok (some (-ENOMEM, s', swapTables)) := ⟨_, rfl⟩
  obtain ⟨s', hrun⟩ := hrun
  refine ⟨s', hs, hrun, (swap_out_unmaps_iff hs hrun).2 fun d hd => ?_⟩
  cases hd
  exact ⟨rfl, by decide⟩

/-- The page goes out, is free, and is mapped as before with its one reference. -/
theorem swap_out_keeps_mapping : ∃ s' t', (ahciExample 0).swapPageOutTables 4 swapTables 3 5 = .ok (some (0, s', t')) ∧
    MapsFrame (t'.taskPml4 1) 3 ∧ (s'.phys.pages 3).ppFree = true ∧ (s'.phys.pages 3).ppRef = 1 := by
  have hout : ∃ s', (ahciExample 0).swapPageOut 4 3 5 = some (0, s') ∧ (s'.phys.pages 3).ppFree = true ∧
      (s'.phys.pages 3).ppRef = 1 := ⟨_, rfl, rfl, rfl⟩
  have hrun : ∃ t', swapTables.clearPresent 8 1 0x400000 = .ok t' := by
    decide +kernel
  obtain ⟨s', hs', hfree⟩ := hout
  obtain ⟨t', ht'⟩ := hrun
  refine ⟨s', t', ?_, ⟨0x400000, ?_⟩, hfree⟩
  · simp only [SwapState.swapPageOutTables, hs', show ((ahciExample 0).phys.pages 3).owner = some 1 from rfl,
      show ((ahciExample 0).phys.pages 3).virtAddr = 0x400000 from rfl, show (ahciExample 0).phys.npages = 8 from rfl, if_true, ht']
    rfl
  · rw [SwapTables.clearPresent_taskPml4 ht']
    exact swapTables_maps

end OpenLsd
