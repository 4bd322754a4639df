import LosKernel.Device.Ide

/-!
# Transfers in groups of sectors

`ide_read` and `ide_write` of `device/ide.c` with the registers they write. A request is split
into groups of at most 256 sectors, whose number goes to the device in one byte, as 0 for 256. The
device transfers the sectors that its registers name, and it is ready when it is asked.
-/

namespace LosKernel.Device

open Prog

variable {lba secCnt n k : Nat}
open Bytes (blit blit_outside blit_inside)

/-- A disk with its number on the channel, the registers of the channel, and the buffer of the
caller. -/
structure Drive where
  devNo : Nat
  disk : Bytes
  sectCnt : Nat
  lbaL : Nat
  lbaM : Nat
  lbaH : Nat
  dev : Nat
  buf : Bytes

variable {move : Nat → Nat → Prog Stop Drive Unit} {I : Nat → Drive → Prop} {s : Drive}

namespace Drive

/-- The number of sectors that a byte stands for, on both sides. -/
def sectors (secCnt : Nat) : Nat := if secCnt = 0 then 256 else secCnt

/-- The sector at which the device starts: 28 bits in four registers. -/
def address (s : Drive) : Nat :=
  s.lbaL + 2 ^ 8 * s.lbaM + 2 ^ 16 * s.lbaH + 2 ^ 24 * (s.dev % 2 ^ 4)

/-- The fixed bits of the device register: `BIT_DEV_MBS`, `BIT_DEV_LBA` and `BIT_DEV_DEV`. -/
def devBits (devNo : Nat) : Nat := 0xa0 ||| 0x40 ||| (if devNo = 1 then 0x10 else 0)

/-- The registers after `select_sector`. Each has 8 bits. -/
def selected (s : Drive) (lba secCnt : Nat) : Drive :=
  { s with
    sectCnt := secCnt
    lbaL := lba % 2 ^ 8
    lbaM := lba / 2 ^ 8 % 2 ^ 8
    lbaH := lba / 2 ^ 16 % 2 ^ 8
    dev := (devBits s.devNo ||| lba / 2 ^ 24) % 2 ^ 8 }

/-- `select_sector`. -/
def selectSector (lba secCnt : Nat) : Prog Stop Drive Unit := do
  Prog.guard (lba ≤ maxLba) .assertFailed
  update fun s => s.selected lba secCnt

/-- `read_from_sector`, to offset `off` of the buffer. The device has as many sectors for the caller
as the register says. -/
def readFromSector (off secCnt : Nat) : Prog Stop Drive Unit :=
  update fun s =>
    { s with
      buf := blit s.buf off (sectorsAt s.disk s.address (sectors s.sectCnt))
        (512 * sectors secCnt) }

/-- `write2sector`, from offset `off` of the buffer. -/
def write2sector (off secCnt : Nat) : Prog Stop Drive Unit :=
  update fun s =>
    { s with
      disk := blit s.disk (512 * s.address) (s.buf.shift off)
        (512 * min (sectors secCnt) (sectors s.sectCnt)) }

/-- One group of sectors, whose number is passed on in 8 bits. -/
def group (move : Nat → Nat → Prog Stop Drive Unit) (lba secsDone secsOp : Nat) :
    Prog Stop Drive Unit := do
  selectSector ((lba + secsDone) % 2 ^ 32) (secsOp % 2 ^ 8)
  move (secsDone * 512 % 2 ^ 32) (secsOp % 2 ^ 8)

/-- The loop of `ide_read` and `ide_write`, which differ in how they move a group. -/
def transfer (move : Nat → Nat → Prog Stop Drive Unit) (lba secCnt : Nat) :
    Nat → Nat → Prog Stop Drive Unit
  | 0, _ => halt .hang
  | fuel + 1, secsDone =>
    if secsDone < secCnt then do
      let secsOp := if (secsDone + 256) % 2 ^ 32 ≤ secCnt then 256 else secCnt - secsDone
      group move lba secsDone secsOp
      transfer move lba secCnt fuel ((secsDone + secsOp) % 2 ^ 32)
    else pure ()

/-- The checks and the loop. A round moves at least one sector. -/
def ideTransfer (move : Nat → Nat → Prog Stop Drive Unit) (lba secCnt : Nat) :
    Prog Stop Drive Unit := do
  Prog.guard (lba ≤ maxLba) .assertFailed
  Prog.guard (0 < secCnt) .assertFailed
  transfer move lba secCnt (secCnt + 1) 0

/-- `ide_read`. -/
def ideRead : Nat → Nat → Prog Stop Drive Unit := ideTransfer readFromSector

/-- `ide_write`. -/
def ideWrite : Nat → Nat → Prog Stop Drive Unit := ideTransfer write2sector

/-! ## Groups -/

/-- The byte for a group is decoded to the size of the group. -/
theorem sectors_group (hpos : 0 < k) (hmax : k ≤ 256) : sectors (k % 2 ^ 8) = k := by
  unfold sectors
  split <;> omega

/-- The device gets the address that the driver means. -/
theorem address_selected (h : lba ≤ maxLba) (secCnt : Nat) :
    (s.selected lba secCnt).address = lba := by
  have hmax : maxLba = 163839 := by decide
  have hbits : devBits s.devNo % 2 ^ 4 = 0 := by
    unfold devBits
    split <;> rfl
  have hdev : (devBits s.devNo ||| lba / 2 ^ 24) % 2 ^ 8 % 2 ^ 4 = lba / 2 ^ 24 % 2 ^ 4 := by
    rw [Nat.mod_mod_of_dvd _ (by decide), Nat.or_mod_two_pow, hbits, Nat.zero_or]
  simp only [address, selected]
  omega

/-- A copy is extended by the copy of the next part. -/
theorem blit_extend {dst src part : Bytes} {off m count : Nat}
    (hpart : ∀ i < count, part i = src (m + i)) :
    blit (blit dst off src m) (off + m) part count =
      blit dst off src (m + count) := by
  funext i
  by_cases hnew : off + m ≤ i ∧ i < off + m + count
  · rw [blit_inside hnew.1 hnew.2, blit_inside (by omega) (by omega),
      hpart _ (by omega), show m + (i - (off + m)) = i - off by omega]
  · rw [blit_outside (by omega)]
    by_cases hold : off ≤ i ∧ i < off + m
    · rw [blit_inside hold.1 hold.2, blit_inside hold.1 (by omega)]
    · rw [blit_outside (by omega), blit_outside (by omega)]

section

variable (hrange : lba + n + k ≤ 163840) (hpos : 0 < k) (hmax : k ≤ 256)

include hrange hpos hmax

/-- What a group does, once the registers have been set. -/
theorem wp_group {Q : Unit → Drive → Prop}
    (h : ∀ mid, mid.disk = s.disk → mid.buf = s.buf → mid.address = lba + n →
      sectors mid.sectCnt = k → wp never (move (512 * n) (k % 2 ^ 8)) mid Q) :
    wp never (group move lba n k) s Q := by
  have hlba : (lba + n) % 2 ^ 32 = lba + n := Nat.mod_eq_of_lt (by omega)
  have hoff : n * 512 % 2 ^ 32 = 512 * n := by omega
  have hle : lba + n ≤ maxLba := by
    show _ ≤ 163839
    omega
  simp only [group, selectSector, hlba, hoff, hle]
  exact h _ rfl rfl (address_selected hle _) (sectors_group hpos hmax)

theorem read_group {buf : Bytes}
    (hbuf : s.buf = blit buf 0 (s.disk.shift (512 * lba)) (512 * n)) :
    wp never (group readFromSector lba n k) s fun _ last => last.disk = s.disk ∧
      last.buf = blit buf 0 (s.disk.shift (512 * lba)) (512 * (n + k)) := by
  refine wp_group hrange hpos hmax fun mid hdisk hmid haddr hcnt => wp_update.2 ⟨hdisk, ?_⟩
  simp only [hmid, hbuf, hdisk, hcnt, sectors_group hpos hmax]
  rw [Nat.mul_add, ← blit_extend, Nat.zero_add]
  intro i hi
  rw [sectorsAt, if_pos hi]
  congr 1
  omega

theorem write_group {disk : Bytes} (hdisk : s.disk = blit disk (512 * lba) s.buf (512 * n)) :
    wp never (group write2sector lba n k) s fun _ last => last.buf = s.buf ∧
      last.disk = blit disk (512 * lba) s.buf (512 * (n + k)) := by
  refine wp_group hrange hpos hmax fun mid hmid hbuf haddr hcnt => wp_update.2 ⟨hbuf, ?_⟩
  simp only [hmid, hbuf, hdisk, haddr, hcnt, sectors_group hpos hmax, Nat.min_self]
  rw [Nat.mul_add, Nat.mul_add]
  exact blit_extend fun i _ => rfl

end

/-! ## Whole transfers -/

/-- The rule of the loop: if a group takes `I n` to `I (n + k)`, then a transfer takes `I 0` to
`I secCnt`. -/
theorem transfer_spec (hsmall : secCnt ≤ 163840)
    (hgroup : ∀ n k s, 0 < k → k ≤ 256 → n + k ≤ secCnt → I n s →
      wp never (group move lba n k) s fun _ last => I (n + k) last) :
    ∀ fuel n s, secCnt < n + fuel → n ≤ secCnt → I n s →
      wp never (transfer move lba secCnt fuel n) s fun _ last => I secCnt last := by
  intro fuel
  induction fuel with
  | zero =>
    intro n s hfuel hn
    omega
  | succ fuel ih =>
    intro n s hfuel hn hI
    have hop : (if (n + 256) % 2 ^ 32 ≤ secCnt then 256 else secCnt - n) =
        min 256 (secCnt - n) := by
      split <;> omega
    simp only [transfer]
    split
    · refine wp_seq (hgroup n _ s (by omega) (by omega) (by omega) hI) fun _ mid hmid => ?_
      rw [Nat.mod_eq_of_lt (by omega)]
      exact ih _ mid (by omega) (by omega) hmid
    · obtain rfl : n = secCnt := by omega
      exact hI

section

variable (hpos : 1 ≤ secCnt) (hend : lba + secCnt ≤ 163840)

include hpos hend

/-- The rule for the loop over groups of at most 256 sectors. -/
theorem wp_ide_transfer (hgroup : ∀ n k s, 0 < k → k ≤ 256 → n + k ≤ secCnt → I n s →
      wp never (group move lba n k) s fun _ last => I (n + k) last) (hI : I 0 s) :
    wp never (ideTransfer move lba secCnt) s fun _ last => I secCnt last := by
  have hlba : lba ≤ maxLba := by
    show _ ≤ 163839
    omega
  have hsome : 0 < secCnt := hpos
  simp only [ideTransfer, hlba, hsome]
  exact transfer_spec (by omega) hgroup _ 0 s (by omega) (by omega) hI

/-- The sectors go into the buffer. -/
theorem ide_read_spec (s : Drive) : wp never (ideRead lba secCnt) s fun _ last =>
    last.disk = s.disk ∧
      last.buf = blit s.buf 0 (s.disk.shift (512 * lba)) (512 * secCnt) := by
  refine wp_ide_transfer (I := fun n last => last.disk = s.disk ∧
    last.buf = blit s.buf 0 (s.disk.shift (512 * lba)) (512 * n)) hpos hend
    (fun n k mid hk hmax hle hmid => ?_) ⟨rfl, ?_⟩
  · rw [← hmid.1]
    refine read_group (by omega) hk hmax ?_
    rw [hmid.1, hmid.2]
  · funext i
    rw [blit_outside (by omega)]

/-- The buffer goes to the sectors. -/
theorem ide_write_spec (s : Drive) : wp never (ideWrite lba secCnt) s fun _ last =>
    last.buf = s.buf ∧ last.disk = blit s.disk (512 * lba) s.buf (512 * secCnt) := by
  refine wp_ide_transfer (I := fun n last => last.buf = s.buf ∧
    last.disk = blit s.disk (512 * lba) s.buf (512 * n)) hpos hend
    (fun n k mid hk hmax hle hmid => ?_) ⟨rfl, ?_⟩
  · rw [← hmid.1]
    refine write_group (by omega) hk hmax ?_
    rw [hmid.1, hmid.2]
  · funext i
    rw [blit_outside (by omega)]

end

/-- The driver does what `ideRead` and `ideWrite` of the kernel's model do with the disk at once. -/
theorem transfers_refine {lba : UInt32} (hpos : 1 ≤ secCnt) (hend : lba.toNat + secCnt ≤ 163840)
    {kernel : Kernel} (hdisk : kernel.disk = s.disk) :
    (∃ b last, LosKernel.ideRead lba secCnt kernel = .done b kernel ∧
      ideRead lba.toNat secCnt s = .done () last ∧ last.disk = s.disk ∧
      last.buf = blit s.buf 0 b (512 * secCnt)) ∧
    ∃ last,
      LosKernel.ideWrite lba s.buf secCnt kernel = .done () { kernel with disk := last.disk } ∧
      ideWrite lba.toNat secCnt s = .done () last := by
  have hrange : sectorsInRange lba secCnt = true := by
    have hmax : maxLba = 163839 := by decide
    simp only [sectorsInRange, Bool.and_eq_true, decide_eq_true_eq]
    omega
  obtain ⟨_, last, hread, hsame, hbuf⟩ := wp_never_iff.1 (ide_read_spec hpos hend s)
  obtain ⟨_, written, hwrite, -, hwritten⟩ := wp_never_iff.1 (ide_write_spec hpos hend s)
  refine ⟨⟨_, last, ide_read_run hrange, hread, hsame, hbuf.trans ?_⟩, written, ?_, hwrite⟩
  · funext i
    unfold blit
    split
    · rw [hdisk, sectorsAt, if_pos (by omega)]
      rfl
    · rfl
  · rw [ide_write_run hrange, hwritten, hdisk]

theorem transfers_refine_start : ∃ last : Drive,
    LosKernel.ideWrite 7 (fun _ => 1) 300 Kernel.start =
      .done () { Kernel.start with disk := last.disk } ∧
    ideWrite 7 300 ⟨1, fun _ => 0, 0, 0, 0, 0, 0, fun _ => 1⟩ = .done () last := by
  obtain ⟨-, last, hkernel, hdrive⟩ := @transfers_refine 300
    ⟨1, fun _ => 0, 0, 0, 0, 0, 0, fun _ => 1⟩ 7 (by decide) (by decide) Kernel.start rfl
  exact ⟨last, hkernel, hdrive⟩

/-- For every request within the supported disk, `ide_read` fills the buffer with exactly the
sectors `lba, …, lba + secCnt - 1`, in order. After `ide_write` these sectors read back as what
was written, and the others are as before. -/
theorem transfers_exact (hpos : 1 ≤ secCnt) (hend : lba + secCnt ≤ 163840) (s : Drive) :
    (∃ last, ideRead lba secCnt s = .done () last ∧ last.disk = s.disk ∧
      last.buf = blit s.buf 0 (s.disk.shift (512 * lba)) (512 * secCnt)) ∧
    ∃ mid, ideWrite lba secCnt s = .done () mid ∧
      (∀ i, i < 512 * lba ∨ 512 * (lba + secCnt) ≤ i → mid.disk i = s.disk i) ∧
      ∀ buf, ∃ last, ideRead lba secCnt { mid with buf := buf } = .done () last ∧
        last.disk = mid.disk ∧ last.buf = blit buf 0 s.buf (512 * secCnt) := by
  obtain ⟨_, last, hread, hlast⟩ := wp_never_iff.1 (ide_read_spec hpos hend s)
  obtain ⟨_, mid, hwrite, -, hmid⟩ := wp_never_iff.1 (ide_write_spec hpos hend s)
  refine ⟨⟨last, hread, hlast⟩, mid, hwrite, fun i hi => ?_, fun buf => ?_⟩
  · rw [hmid, blit_outside (by omega)]
  · obtain ⟨_, again, hagain, hsame, hback⟩ :=
      wp_never_iff.1 (ide_read_spec hpos hend { mid with buf := buf })
    refine ⟨again, hagain, hsame, hback.trans ?_⟩
    funext i
    by_cases hi : i < 512 * secCnt
    · rw [blit_inside (by omega) (by omega), blit_inside (by omega) (by omega)]
      show mid.disk (512 * lba + (i - 0)) = s.buf (i - 0)
      rw [hmid, blit_inside (by omega) (by omega), Nat.add_sub_cancel_left]
    · rw [blit_outside (by omega), blit_outside (by omega)]

/-- 300 sectors are read in two groups. -/
theorem transfers_exact_long : ∃ last : Drive, ideRead 7 300
    ⟨1, fun i => UInt8.ofNat i, 0, 0, 0, 0, 0, fun _ => 0⟩ = .done () last ∧
      last.buf = blit (fun _ => 0) 0 (Bytes.shift (fun i => UInt8.ofNat i) 3584) 153600 := by
  obtain ⟨⟨last, hread, -, hbuf⟩, -⟩ := transfers_exact (show 1 ≤ 300 by decide)
    (show 7 + 300 ≤ 163840 by decide) ⟨1, fun i => UInt8.ofNat i, 0, 0, 0, 0, 0, fun _ => 0⟩
  exact ⟨last, hread, hbuf⟩

end Drive

end LosKernel.Device
