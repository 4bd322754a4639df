import LosKernel.Fs.FileBlocks

/-!
# Appending to a file

`file_write` on a well-formed file. `Copied` says what a number of iterations of the copy loop
did, `Copied.chunk` is one iteration, and `wp_write_loop` is the loop. In the end the content is
the old content followed by the buffer, and the file is well-formed again; or there were too few
free blocks.
-/

namespace LosKernel

open Prog hiding update
open Function (update update_of_ne update_self)
open Bytes (shift)
open Pages (byte chunk)

variable {lba bytesWritten : UInt32} {i idx total n m will : Nat} {disk disk' buf old : Bytes}
  {first : Bool} {part : Partition} {s mid last : Kernel} {p : Ptr} {inode inode' inode'' : INode}
  {ok : Stop → Prop} {put : UInt32 → Bytes → Call Unit} {allBlocks blocks blocks' : Nat → UInt32}
  {sync : INode → Call Unit} {records : Nat → Prop}

variable {count : UInt32}

/-! ## One chunk -/

/-- The size of a chunk, as both copy loops compute it. -/
theorem chunk_size_toNat (pos left : UInt32) :
    (if left < 512 - pos % 512 then left else 512 - pos % 512).toNat =
      chunk 512 pos.toNat left.toNat := by
  have hmod : (pos % 512).toNat = pos.toNat % 512 := by simp
  have hle : pos % 512 ≤ 512 := by
    rw [UInt32.le_iff_toNat_le]
    change _ ≤ 512
    omega
  have hleft : (512 - pos % 512).toNat = 512 - pos.toNat % 512 := by
    rw [UInt32.toNat_sub_of_le _ _ hle]
    rfl
  unfold chunk
  split
  · rename_i hlt
    rw [UInt32.lt_iff_toNat_lt] at hlt
    omega
  · rename_i hge
    rw [UInt32.lt_iff_toNat_lt] at hge
    omega

/-- The addresses of the blocks depend on the inode and on the sector of the table. -/
theorem blockOf_congr (inode : INode)
    (h : sectorAt disk' (inode.sector 12).toNat = sectorAt disk (inode.sector 12).toNat) (k : Nat) :
    blockOf disk' inode k = blockOf disk inode k := by
  unfold blockOf
  rw [tableAt_congr h]

/-- A file keeps its blocks when no block is released and its table is not written. -/
theorem FileBlocks.congr (hb : FileBlocks s inode n) (hmore : MoreTaken s last)
    (hsec : inode'.iSectors = inode.iSectors)
    (htable : sectorAt last.disk (inode.sector 12).toNat =
      sectorAt s.disk (inode.sector 12).toNat) : FileBlocks last inode' n := by
  have hsector : ∀ k, inode'.sector k = inode.sector k := by
    intro k
    simp only [INode.sector, hsec]
  have hblock : ∀ k, blockOf last.disk inode' k = blockOf s.disk inode k := by
    intro k
    rw [← blockOf_congr inode htable k]
    simp only [blockOf, hsector]
  refine ⟨hb.pos, hb.le, ?_, ?_, ?_, ?_, ?_, ?_, ?_⟩
  · intro k hk
    rw [hblock]
    exact hmore.taken (hb.taken k hk)
  · intro j hj k hk heq
    rw [hblock, hblock] at heq
    exact hb.inj j hj k hk heq
  · intro k hk hlt
    rw [hsector]
    exact hb.direct k hk hlt
  · intro hn
    rw [hsector]
    exact hb.noTable hn
  · intro hn
    rw [hsector]
    exact hmore.taken (hb.table hn)
  · intro hn k hk
    rw [hblock, hsector]
    exact hb.tableNe hn k hk
  · intro hn k hk hlt
    rw [hblock]
    exact hb.unused hn k hk hlt

/-- The position of an open file is set. -/
def setPos (table : Nat → File) (idx : Nat) (pos : UInt32) : Nat → File :=
  update table idx { table idx with fdPos := pos }

theorem setPos_self (table : Nat → File) (idx : Nat) :
    setPos table idx (table idx).fdPos = table := Function.update_eq_self ..

@[simp] theorem setPos_setPos (table : Nat → File) (idx : Nat) (pos pos' : UInt32) :
    setPos (setPos table idx pos) idx pos' = setPos table idx pos' := by
  simp [setPos]

@[simp] theorem setPos_fdPos (table : Nat → File) (idx : Nat) (pos : UInt32) :
    (setPos table idx pos idx).fdPos = pos := by
  simp [setPos]

@[simp] theorem setPos_fdInode (table : Nat → File) (idx : Nat) (pos : UInt32) (j : Nat) :
    (setPos table idx pos j).fdInode = (table j).fdInode := by
  unfold setPos
  by_cases hj : j = idx
  · rw [hj, update_self]
  · rw [update_of_ne hj]

/-- The byte is in sector `lba`. -/
def InSector (lba : UInt32) (i : Nat) : Prop := 512 * lba.toNat ≤ i ∧ i < 512 * lba.toNat + 512

/-- The first `n` bytes of `buf` were appended to a file of `total` blocks, in blocks it has. -/
structure Copied (s : Kernel) (idx : Nat) (p : Ptr) (inode : INode) (total : Nat) (buf : Bytes)
    (n : Nat) (last : Kernel) : Prop where
  rest : ∃ pos, last = { s with
    disk := last.disk
    inodes := update s.inodes p
      (some { inode with iSize := inode.iSize + UInt32.ofNat n })
    fileTable := setPos s.fileTable idx pos }
  before : ∀ i < inode.iSize.toNat,
    byte 512 (filePage last.disk inode) i = byte 512 (filePage s.disk inode) i
  written : ∀ i < n, byte 512 (filePage last.disk inode) (inode.iSize.toNat + i) = buf i
  table : sectorAt last.disk (inode.sector 12).toNat = sectorAt s.disk (inode.sector 12).toNat
  disk : ∀ i, (∀ k < total, ¬InSector (blockOf s.disk inode k) i) → last.disk i = s.disk i

namespace Copied

theorem refl (hinode : s.inodes p = some inode) : Copied s idx p inode total buf 0 s where
  rest := by
    refine ⟨(s.fileTable idx).fdPos, ?_⟩
    rw [setPos_self, Function.update_eq_self_iff.2]
    rw [hinode]
    simp
  before := fun _ _ => rfl
  written := by omega
  table := rfl
  disk := fun _ _ => rfl

section

variable (h : Copied s idx p inode total buf n last)

include h

theorem part_eq : last.part = s.part := by
  obtain ⟨pos, hlast⟩ := h.rest
  rw [hlast]

theorem inode_eq :
    last.inodes p = some { inode with iSize := inode.iSize + UInt32.ofNat n } := by
  obtain ⟨pos, hlast⟩ := h.rest
  rw [hlast]
  exact update_self ..

theorem more : MoreTaken s last :=
  .of_part_eq h.part_eq

theorem file_blocks (hb : FileBlocks s inode total) :
    FileBlocks last { inode with iSize := inode.iSize + UInt32.ofNat n } total :=
  hb.congr h.more rfl h.table

end

theorem trans (h : Copied s idx p inode total buf n mid)
    (h' : Copied mid idx p { inode with iSize := inode.iSize + UInt32.ofNat n } total
      (shift buf n) m last)
    (hsize : inode.iSize.toNat + n < 2 ^ 32) : Copied s idx p inode total buf (n + m) last := by
  have hlen : (inode.iSize + UInt32.ofNat n).toNat = inode.iSize.toNat + n := by
    rw [UInt32.toNat_add, UInt32.toNat_ofNat']
    omega
  have hbefore : ∀ i < inode.iSize.toNat + n,
      byte 512 (filePage last.disk inode) i = byte 512 (filePage mid.disk inode) i := by
    intro i hi
    exact h'.before i (hlen ▸ hi)
  exact
  { rest := by
      obtain ⟨pos, hmid⟩ := h.rest
      obtain ⟨pos', hlast⟩ := h'.rest
      refine ⟨pos', ?_⟩
      rw [hmid] at hlast
      simpa only [Function.update_idem, setPos_setPos, UInt32.add_assoc,
        ← UInt32.ofNat_add] using hlast
    before := fun i hi => (hbefore i (by omega)).trans (h.before i hi)
    written := by
      intro i hi
      by_cases hfirst : i < n
      · rw [hbefore _ (by omega)]
        exact h.written i hfirst
      · have hsecond := h'.written (i - n) (by omega)
        rw [show (INode.iSize { inode with iSize := inode.iSize + UInt32.ofNat n }).toNat =
          inode.iSize.toNat + n from hlen,
          show inode.iSize.toNat + n + (i - n) = inode.iSize.toNat + i by omega,
          Bytes.shift_apply, show n + (i - n) = i by omega] at hsecond
        exact hsecond
    table := h'.table.trans h.table
    disk := by
      intro i hi
      refine (h'.disk i fun k hk => ?_).trans (h.disk i hi)
      change ¬InSector (blockOf mid.disk inode k) i
      rw [blockOf_congr inode h.table]
      exact hi k hk }

end Copied

theorem FileBlocks.ne_table (hb : FileBlocks s inode total) (ha : Areas s.part) {k : Nat}
    (hk : k < total) : (inode.sector 12).toNat ≠ (blockOf s.disk inode k).toNat := by
  intro heq
  have heq := UInt32.toNat_inj.1 heq
  by_cases htable : 12 < total
  · exact hb.tableNe htable k hk heq.symm
  · rw [hb.noTable (by omega)] at heq
    exact (hb.taken k hk).ne_zero ha heq.symm

theorem FileBlocks.write_table (hb : FileBlocks s inode total) (ha : Areas s.part) {j : Nat}
    (hj : j < total) (b : Bytes) :
    sectorAt (s.write (blockOf s.disk inode j) b).disk (inode.sector 12).toNat =
      sectorAt s.disk (inode.sector 12).toNat := by
  rw [Kernel.write_disk, sectorAt_blit, if_neg (hb.ne_table ha hj)]

/-- The state after a chunk was written to sector `lba`. -/
def Kernel.putChunk (s : Kernel) (idx : Nat) (p : Ptr) (inode : INode) (lba : UInt32)
    (old buf : Bytes) (n : Nat) (pos : UInt32) : Kernel :=
  { (s.write lba (Bytes.blit old (inode.iSize.toNat % 512) buf n)).setInode p
      { inode with iSize := inode.iSize + UInt32.ofNat n } with
    fileTable := setPos s.fileTable idx pos }

/-- A chunk is appended to the block the file ends in. If the block holds data, it was
read before. -/
theorem Copied.chunk {left : Nat} (ha : Areas s.part) (hb : FileBlocks s inode total)
    (hlt : inode.iSize.toNat / 512 < total)
    (hold : inode.iSize.toNat % 512 ≠ 0 →
      old = filePage s.disk inode (inode.iSize.toNat / 512)) (pos : UInt32) :
    Copied s idx p inode total buf (chunk 512 inode.iSize.toNat left)
      (s.putChunk idx p inode (blockOf s.disk inode (inode.iSize.toNat / 512)) old buf
        (chunk 512 inode.iSize.toNat left) pos) := by
  obtain ⟨disk', hdisk⟩ : ∃ disk', disk' = (s.write (blockOf s.disk inode (inode.iSize.toNat / 512))
      (Bytes.blit old (inode.iSize.toNat % 512) buf
        (Pages.chunk 512 inode.iSize.toNat left))).disk := ⟨_, rfl⟩
  have hpage : ∀ k < total, filePage disk' inode k = if k = inode.iSize.toNat / 512 then
      clip (Bytes.blit old (inode.iSize.toNat % 512) buf (Pages.chunk 512 inode.iSize.toNat left))
      else filePage s.disk inode k := by
    intro k hk
    unfold filePage
    rw [hdisk, blockOf_congr inode (hb.write_table ha hlt _), Kernel.write_disk, sectorAt_blit]
    by_cases heq : k = inode.iSize.toNat / 512
    · rw [if_pos (by rw [heq]), if_pos heq]
    · rw [if_neg fun h => heq (hb.inj k hk _ hlt (UInt32.toNat_inj.1 h)), if_neg heq]
  have hother : ∀ k < inode.iSize.toNat / 512, filePage disk' inode k = filePage s.disk inode k :=
    fun k hk => (hpage k (by omega)).trans (if_neg (by omega))
  have hsame : ∀ j < 512, filePage disk' inode (inode.iSize.toNat / 512) j =
      Bytes.blit old (inode.iSize.toNat % 512) buf (Pages.chunk 512 inode.iSize.toNat left) j := by
    intro j hj
    rw [hpage _ hlt, if_pos rfl, clip, if_pos hj]
  have hdata : ∀ j < inode.iSize.toNat % 512,
      old j = filePage s.disk inode (inode.iSize.toNat / 512) j := by
    intro j hj
    rw [hold (by omega)]
  obtain ⟨hbefore, hwritten⟩ := Pages.byte_write_chunk (by decide) hother hsame hdata
  subst hdisk
  refine ⟨⟨pos, rfl⟩, hbefore, hwritten, hb.write_table ha hlt _, fun i hi => ?_⟩
  have hout := hi _ hlt
  unfold InSector at hout
  exact Bytes.blit_outside (by omega)

/-- One round of the loop of `file_write` stores a chunk of the buffer. -/
theorem wp_write_chunk {Q : UInt32 → Kernel → Prop} (hput : PutsOwn put p)
    (hinode : s.inodes p = some inode) (hidx : inode.iSize.toNat / 512 < 140)
    (hown : OwnsBlock s inode (allBlocks (inode.iSize.toNat / 512)))
    (hrange : (allBlocks (inode.iSize.toNat / 512)).toNat ≤ maxLba)
    (hQ : ∀ old pos n, (first = true →
      old = sectorAt s.disk (allBlocks (inode.iSize.toNat / 512)).toNat) →
      n = chunk 512 inode.iSize.toNat (count - bytesWritten).toNat →
      Q (UInt32.ofNat n) (s.putChunk idx p inode (allBlocks (inode.iSize.toNat / 512)) old
      (shift buf bytesWritten.toNat) n pos)) :
    wp ok (writeChunk put idx p buf allBlocks count first bytesWritten) s Q := by
  have hchunk := chunk_size_toNat inode.iSize (count - bytesWritten)
  simp only [writeChunk, wp_bind, wp_deref_inode, hinode, of_some, of_true,
    wp_access, hidx, decide_true]
  generalize hn : (if count - bytesWritten < 512 - inode.iSize % 512 then count - bytesWritten
    else 512 - inode.iSize % 512) = chunkSize at hchunk ⊢
  have hof : UInt32.ofNat chunkSize.toNat = chunkSize := UInt32.ofNat_toNat
  have hwrite : ∀ old, (first = true →
      old = sectorAt s.disk (allBlocks (inode.iSize.toNat / 512)).toNat) → wp ok (do
        put (allBlocks (inode.iSize.toNat / 512)) (Bytes.blit old (inode.iSize % 512).toNat
          (shift buf bytesWritten.toNat) chunkSize.toNat)
        storeInode p { inode with iSize := inode.iSize + chunkSize }
        let s ← state
        storeFile idx { s.fileTable idx with fdPos := (s.fileTable idx).fdPos + chunkSize }
        pure chunkSize) s Q := by
    intro old hold
    rw [wp_bind]
    refine hput.wp hinode hown hrange ?_
    have hlast := hQ old ((s.fileTable idx).fdPos + chunkSize) chunkSize.toNat hold hchunk
    rw [Kernel.putChunk, hof] at hlast
    exact hlast
  unfold blockBefore
  cases first with
  | true =>
    exact wp_read_sector (.inr hrange) (by simpa only [wp_bind] using hwrite _ fun _ => rfl)
  | false =>
    rw [if_neg (by decide)]
    simpa only [wp_bind, wp_pure] using hwrite (fun _ => 0) (by simp)

/-! ## The copy loop -/

/-- The copy loop appends the rest of the buffer. Only the first block it writes may hold data, and
that block is read before. -/
theorem wp_write_loop {fuel : Nat} (hput : PutsOwn put p) (ha : Areas s.part)
    (hinode : s.inodes p = some inode) (hb : FileBlocks s inode total)
    (hle : bytesWritten.toNat ≤ count.toNat)
    (hsize : inode.iSize.toNat + (count.toNat - bytesWritten.toNat) < 512 * total)
    (hall : ∀ k, inode.iSize.toNat / 512 ≤ k → k < total → allBlocks k = blockOf s.disk inode k)
    (hfirst : first = false → bytesWritten.toNat < count.toNat → inode.iSize.toNat % 512 = 0)
    (hfuel : count.toNat - bytesWritten.toNat < fuel) :
    wp ok (writeLoop put idx p buf allBlocks count fuel first bytesWritten) s fun r last =>
      r = count ∧ Copied s idx p inode total (shift buf bytesWritten.toNat)
        (count.toNat - bytesWritten.toNat) last := by
  induction fuel generalizing s inode bytesWritten first with
  | zero => omega
  | succ fuel ih =>
    have htotal := hb.le
    simp only [writeLoop, wp_ite, wp_bind]
    refine ⟨fun hmore => ?_, fun hdone => ?_⟩
    · rw [UInt32.lt_iff_toNat_lt] at hmore
      have hsub : (count - bytesWritten).toNat = count.toNat - bytesWritten.toNat :=
        UInt32.toNat_sub_of_le _ _ (UInt32.le_iff_toNat_le.2 hle)
      have hlba := hall (inode.iSize.toNat / 512) le_rfl (by omega)
      have hown := hb.owns ha (show inode.iSize.toNat / 512 < total by omega)
      have htaken := hb.taken (inode.iSize.toNat / 512) (by omega)
      refine wp_write_chunk hput hinode (by omega) (hlba ▸ hown) (hlba ▸ htaken.in_range) ?_
      intro old pos n hold hn
      rw [hsub] at hn
      rw [hlba] at hold ⊢
      -- the chunk ends the data or fills the block
      have hpos : 0 < n := hn ▸ Pages.chunk_pos (by decide) (by omega)
      have hend : n = count.toNat - bytesWritten.toNat ∨
          (inode.iSize.toNat + n) % 512 = 0 := by
        rw [hn, chunk]
        omega
      have hnle : n ≤ count.toNat - bytesWritten.toNat := hn ▸ Pages.chunk_le ..
      have hcount := count.toNat_lt
      have hof : (UInt32.ofNat n).toNat = n := by
        rw [UInt32.toNat_ofNat']
        omega
      have hwritten : (bytesWritten + UInt32.ofNat n).toNat = bytesWritten.toNat + n := by
        rw [UInt32.toNat_add]
        omega
      have hlen : (inode.iSize + UInt32.ofNat n).toNat = inode.iSize.toNat + n := by
        rw [UInt32.toNat_add]
        omega
      have hchunk : Copied s idx p inode total (shift buf bytesWritten.toNat) n
          (s.putChunk idx p inode (blockOf s.disk inode (inode.iSize.toNat / 512)) old
            (shift buf bytesWritten.toNat) n pos) := by
        rw [hn]
        refine .chunk ha hb (by omega) (fun hne => ?_) pos
        refine hold (Bool.eq_true_of_not_eq_false fun hfalse => ?_)
        exact hne (hfirst hfalse hmore)
      refine wp_mono (ih (hchunk.part_eq ▸ ha) hchunk.inode_eq (hchunk.file_blocks hb) ?_ ?_
        ?_ ?_ ?_) ?_
      · omega
      · change (inode.iSize + UInt32.ofNat n).toNat + _ < _
        omega
      · intro k hk hlt
        change (inode.iSize + UInt32.ofNat n).toNat / 512 ≤ k at hk
        rw [hall k (by omega) hlt]
        exact (blockOf_congr inode hchunk.table k).symm
      · intro _ hlt
        change (inode.iSize + UInt32.ofNat n).toNat % 512 = 0
        omega
      · omega
      · rintro r last ⟨rfl, hrest⟩
        refine ⟨rfl, ?_⟩
        rw [hwritten] at hrest
        have hshift : shift buf (bytesWritten.toNat + n) =
            shift (shift buf bytesWritten.toNat) n := by
          funext i
          simp [Nat.add_assoc]
        rw [hshift] at hrest
        have hall := hchunk.trans hrest (by omega)
        rwa [show n + (r.toNat - (bytesWritten.toNat + n)) =
          r.toNat - bytesWritten.toNat by omega] at hall
    · rw [UInt32.lt_iff_toNat_lt] at hdone
      obtain rfl : bytesWritten = count := UInt32.toNat_inj.1 (by omega)
      refine ⟨rfl, ?_⟩
      rw [Nat.sub_self]
      exact .refl hinode

/-! ## The blocks before the copy loop -/

/-- The blocks a file has taken. -/
def usedBlocks (inode : INode) : Nat :=
  if inode.sector 0 = 0 then 0 else blocksFor (inode.iSize.toNat / 512 + 1)

/-- The file has `will` blocks and is ready for the copy loop. Its content is as before, and the
blocks that belong to it now belonged to it before or were free. -/
structure Ready (s : Kernel) (p : Ptr) (inode : INode) (will : Nat) (allBlocks : Nat → UInt32)
    (inode' : INode) (last : Kernel) : Prop where
  rest : Rewritten s p inode' last
  same : inode' = { inode with iSectors := inode'.iSectors }
  more : MoreTaken s last
  blocks : FileBlocks last inode' will
  all : ∀ k, inode.iSize.toNat / 512 ≤ k → k < will → allBlocks k = blockOf last.disk inode' k
  bytes : ∀ i < inode.iSize.toNat,
    byte 512 (filePage last.disk inode') i = byte 512 (filePage s.disk inode) i
  own : ∀ lba, OwnsBlock last inode' lba → OwnsBlock s inode lba ∨ Fresh s last lba
  disk : ∀ i, ¬InBlockBits s.part.sb i → (∀ lba, OwnsBlock last inode' lba → ¬InSector lba i) →
    last.disk i = s.disk i
  free : last.part.blockBitmap.free + blocksFor will = s.part.blockBitmap.free + usedBlocks inode

theorem sectorAt_congr (h : ∀ i, InSector lba i → disk' i = disk i) :
    sectorAt disk' lba.toNat = sectorAt disk lba.toNat := by
  funext i
  unfold sectorAt sectorsAt
  by_cases hi : i < 512
  · rw [if_pos (by omega), if_pos (by omega)]
    exact h _ ⟨by omega, by omega⟩
  · rw [if_neg (by omega), if_neg (by omega)]

/-- A block of the data area lies after the block bitmap. -/
theorem Taken.not_in_block_bits (h : Taken part lba) (ha : Areas part) (hi : InSector lba i) :
    ¬InBlockBits part.sb i := by
  have h1 := h.data ha
  have h2 := ha.blockArea
  have h3 := ha.inodeArea
  have h4 := ha.tableArea
  unfold InSector at hi
  unfold InBlockBits
  omega

theorem InSector.inj {lba' : UInt32} (h : InSector lba i) (h' : InSector lba' i) : lba = lba' := by
  unfold InSector at h h'
  exact UInt32.toNat_inj.1 (by omega)

/-- The blocks that were collected for a file that had a block. -/
theorem Collected.ready
    (h : Collected s p inode (inode.iSize.toNat / 512 + 1) will allBlocks inode' last)
    (hok : BlocksOk s.part) (hb : FileBlocks s inode (inode.iSize.toNat / 512 + 1))
    (hle : inode.iSize.toNat / 512 + 1 ≤ will) (hmax : will ≤ 140) :
    Ready s p inode will allBlocks inode' last := by
  have hb' := h.file_blocks hok hb hle hmax
  have hne : inode.sector 0 ≠ 0 := by
    exact (hb.taken 0 (by omega)).ne_zero hok.areas
  have hpage : ∀ k < inode.iSize.toNat / 512 + 1,
      filePage last.disk inode' k = filePage s.disk inode k := by
    intro k hk
    unfold filePage
    rw [h.kept k hk]
    refine sectorAt_congr fun i hi => h.disk i ?_ ?_
    · exact (hb.taken k hk).not_in_block_bits hok.areas hi
    · intro ⟨hlt, htable⟩
      refine hb'.tableNe hlt k (by omega) ?_
      rw [h.kept k hk]
      exact hi.inj htable
  exact
  { rest := h.rest
    same := h.same
    more := h.more
    blocks := hb'
    all := fun k hk hlt => h.all k (by omega) hlt
    bytes := by
      intro i hi
      unfold byte
      rw [hpage _ (by omega)]
    own := by
      intro lba hown
      rcases hb'.owns_cases hown with ⟨k, hk, rfl⟩ | ⟨hlt, rfl⟩
      · by_cases hold : k < inode.iSize.toNat / 512 + 1
        · rw [h.kept k hold]
          exact .inl (hb.owns hok.areas hold)
        · exact .inr (h.fresh k (by omega) hk)
      · by_cases hold : 12 < inode.iSize.toNat / 512 + 1
        · rw [h.tableKept hold]
          exact .inl (hb.owns_table hok.areas hold)
        · exact .inr (h.tableFresh (by omega) hlt).1
    disk := by
      intro i hi hown
      refine h.disk i hi ?_
      intro ⟨hlt, htable⟩
      exact hown _ (hb'.owns_table (h.more.blocks_ok hok).areas hlt) htable
    free := by
      have := h.free
      rw [usedBlocks, if_neg hne]
      exact this }

/-- The same for a file that just got its first block. -/
theorem Ready.of_first (h : Ready mid p inode' will allBlocks inode'' last)
    (hok : BlocksOk s.part) (hgrew : Grew s p inode 0 1 blocks inode' blocks' mid)
    (hb : FileBlocks mid inode' 1) (hsize : inode.iSize = 0) (hzero : inode.sector 0 = 0) :
    Ready s p inode will allBlocks inode'' last := by
  have hsame : inode'.iSize = inode.iSize := by rw [hgrew.same]
  exact
  { rest := by
      have hsecond := h.rest
      rw [hgrew.rest] at hsecond
      simpa only [Rewritten, Function.update_idem] using hsecond
    same := by rw [h.same, hgrew.same]
    more := hgrew.more.trans h.more
    blocks := h.blocks
    all := fun k hk => h.all k (hsame ▸ hk)
    bytes := by
      intro i hi
      simp [hsize] at hi
    own := by
      intro lba hown
      rcases h.own lba hown with hmid | hfresh
      · rcases hb.owns_cases hmid with ⟨k, hk, rfl⟩ | ⟨hlt, -⟩
        · obtain rfl : k = 0 := by omega
          rw [blockOf_lt _ _ (by omega), hgrew.entered 0 (by omega) (by omega) (by omega)]
          exact .inr (h.more.fresh_left (hgrew.fresh 0 (by omega) (by omega)))
        · omega
      · exact .inr (hgrew.more.fresh_right hfresh)
    disk := fun i hi hown => (h.disk i (by rwa [hgrew.more.sb]) hown).trans (hgrew.disk i hi)
    free := by
      have h1 := h.free
      have h2 := hgrew.free
      have hne : inode'.sector 0 ≠ 0 := by
        exact (hb.taken 0 (by omega)).ne_zero (hgrew.more.blocks_ok hok).areas
      have hone : usedBlocks inode' = 1 := by
        rw [usedBlocks, if_neg hne, hsame, hsize]
        rfl
      have hnone : usedBlocks inode = 0 := by rw [usedBlocks, if_pos hzero]
      omega }

/-! ## The whole write -/

/-- The byte is in the inode table. -/
def InTable (sb : SuperBlock) (i : Nat) : Prop :=
  512 * sb.inodeTableLba.toNat ≤ i ∧ i < 512 * (sb.inodeTableLba.toNat + 608)

/-- If it returns, `sync` stores an inode with number `n` as one of the given records of the inode
table. -/
def StoresAt (ok : Stop → Prop) (sync : INode → Call Unit) (n : UInt32) (records : Nat → Prop) :
    Prop :=
  ∀ {s : Kernel} {inode : INode}, Areas s.part → inode.iNo = n →
    wp ok (sync inode) s fun _ last =>
      ∃ m < 4096, records m ∧ last = storeRecord s m inode.stored.bytes

/-- The first `count` bytes of `buf` were appended to the file at `p`. -/
structure Appended (s : Kernel) (idx : Nat) (p : Ptr) (inode : INode) (buf : Bytes) (count m : Nat)
    (inode' : INode) (last : Kernel) : Prop where
  rest : ∃ pos, last = { s with
    heap := last.heap
    disk := last.disk
    part := { s.part with blockBitmap := last.part.blockBitmap }
    inodes := update s.inodes p (some inode')
    fileTable := setPos s.fileTable idx pos }
  same : inode' = { inode with
    iSize := inode.iSize + UInt32.ofNat count
    iSectors := inode'.iSectors }
  more : MoreTaken s last
  blocks : FileBlocks last inode' ((inode.iSize.toNat + count) / 512 + 1)
  content : content last inode' = content s inode ++ (List.range count).map buf
  own : ∀ lba, OwnsBlock last inode' lba → OwnsBlock s inode lba ∨ Fresh s last lba
  disk : ∀ i, ¬InBlockBits s.part.sb i → ¬InTable s.part.sb i →
    (∀ lba, OwnsBlock last inode' lba → ¬InSector lba i) → last.disk i = s.disk i
  record : inodeRecord last m = inode'.stored
  free : last.part.blockBitmap.free + usedBlocks inode' =
    s.part.blockBitmap.free + usedBlocks inode

/-- A block of the data area lies after the inode table. -/
theorem Taken.not_in_table (h : Taken part lba) (ha : Areas part) (hi : InSector lba i) :
    ¬InTable part.sb i := by
  have h1 := h.data ha
  have h2 := ha.tableArea
  unfold InSector at hi
  unfold InTable
  omega

theorem store_record_disk {record : Bytes} (hm : m < 4096) (hi : ¬InTable s.part.sb i) :
    (storeRecord s m record).disk i = s.disk i := by
  unfold InTable at hi
  refine Bytes.blit_outside ?_
  unfold inodeOffset inodeSize
  omega

/-- The sector of the table of a file is not in the inode table; a file without one has address 0
there. -/
theorem FileBlocks.table_sector (hb : FileBlocks s inode will) (ha : Areas s.part)
    (hi : InSector (inode.sector 12) i) : ¬InTable s.part.sb i := by
  by_cases htable : 12 < will
  · exact (hb.table htable).not_in_table ha hi
  · have h1 := ha.bootSector
    have h2 := ha.blockArea
    have h3 := ha.inodeArea
    rw [hb.noTable (by omega), InSector, UInt32.toNat_zero] at hi
    unfold InTable
    omega

/-- The copy loop has run and the inode is stored. -/
theorem Copied.appended {count : Nat} {pos : UInt32} (ha : Areas mid.part) (hm : m < 4096)
    (hready : Ready s p inode will allBlocks inode' mid)
    (hwill : will = (inode.iSize.toNat + count) / 512 + 1)
    (hsize : inode.iSize.toNat + count < 2 ^ 32)
    (h : Copied { mid with fileTable := setPos mid.fileTable idx pos } idx p inode' will buf count
      last) :
    Appended s idx p inode buf count m { inode' with iSize := inode'.iSize + UInt32.ofNat count }
      (storeRecord last m
        (INode.stored { inode' with iSize := inode'.iSize + UInt32.ofNat count }).bytes) := by
  have hpart : last.part = mid.part := h.part_eq
  have hold : inode'.iSize = inode.iSize := by rw [hready.same]
  have hlen : (inode.iSize + UInt32.ofNat count).toNat = inode.iSize.toNat + count := by
    rw [UInt32.toNat_add, UInt32.toNat_ofNat']
    omega
  have hb := hready.blocks
  have hblast : FileBlocks last { inode' with iSize := inode'.iSize + UInt32.ofNat count } will :=
    h.file_blocks (hb.congr (.of_part_eq rfl) rfl rfl)
  obtain ⟨final, hfinal⟩ : ∃ final, final = storeRecord last m
      (INode.stored { inode' with iSize := inode'.iSize + UInt32.ofNat count }).bytes := ⟨_, rfl⟩
  rw [← hfinal]
  have hfpart : final.part = mid.part := by
    rw [hfinal]
    exact hpart
  have hdisk : ∀ i, ¬InTable mid.part.sb i → final.disk i = last.disk i := by
    intro i hi
    rw [hfinal]
    exact store_record_disk hm (hpart ▸ hi)
  have htable : sectorAt final.disk (inode'.sector 12).toNat =
      sectorAt last.disk (inode'.sector 12).toNat :=
    sectorAt_congr fun i hi => hdisk i (hb.table_sector ha hi)
  have hpage : ∀ k < will, filePage final.disk inode' k = filePage last.disk inode' k := by
    intro k hk
    unfold filePage
    rw [blockOf_congr inode' htable]
    refine sectorAt_congr fun i hi => hdisk i ?_
    have htaken : Taken last.part (blockOf last.disk inode' k) := hblast.taken k hk
    rw [hpart] at htaken
    exact htaken.not_in_table ha hi
  have hbyte : ∀ i < inode.iSize.toNat + count, byte 512 (filePage final.disk inode') i =
      byte 512 (filePage last.disk inode') i := by
    intro i hi
    unfold byte
    rw [hpage _ (by omega)]
  have hown : ∀ lba, OwnsBlock final
      { inode' with iSize := inode'.iSize + UInt32.ofNat count } lba ↔
        OwnsBlock mid inode' lba := by
    intro lba
    show OwnsBlock final inode' lba ↔ _
    simp only [OwnsBlock, tableAt_congr (htable.trans h.table)]
  exact
  { rest := by
      obtain ⟨pos', hlast⟩ := h.rest
      refine ⟨pos', ?_⟩
      have hmid := hready.rest
      rw [hfinal]
      unfold storeRecord
      rw [hlast, hmid]
      simp only [Function.update_idem, setPos_setPos]
    same := by rw [hready.same]
    more := hready.more.trans (.of_part_eq hfpart)
    blocks := hwill ▸ hblast.congr (.of_part_eq (hfpart.trans hpart.symm)) rfl htable
    content := by
      change Pages.slice 512 (filePage final.disk inode') 0
        (inode'.iSize + UInt32.ofNat count).toNat = _
      rw [hold, hlen, Pages.slice_add]
      congr 1
      · refine List.map_congr_left fun i hi => ?_
        rw [List.mem_range] at hi
        rw [Nat.zero_add, hbyte i (by omega), h.before i (hold ▸ hi)]
        exact hready.bytes i hi
      · refine Pages.slice_eq_map fun i hi => ?_
        rw [Nat.zero_add, hbyte _ (by omega), ← hold]
        exact h.written i hi
    own := by
      intro lba hlba
      refine (hready.own lba ((hown lba).1 hlba)).imp_right fun hfresh => ?_
      exact (MoreTaken.of_part_eq hfpart).fresh_left hfresh
    disk := by
      intro i hbits hrecords hother
      have hmid : ∀ lba, OwnsBlock mid inode' lba → ¬InSector lba i :=
        fun lba hlba => hother lba ((hown lba).2 hlba)
      rw [hdisk i (by rwa [hready.more.sb]), h.disk i fun k hk => hmid _ (hb.owns ha hk)]
      exact hready.disk i hbits hmid
    record := by
      rw [hfinal]
      exact inode_record_store_same last m _
    free := by
      have hne : inode'.sector 0 ≠ 0 := by
        exact (hb.taken 0 (by omega)).ne_zero ha
      have hused : usedBlocks { inode' with iSize := inode'.iSize + UInt32.ofNat count } =
          blocksFor will := by
        change (if inode'.sector 0 = 0 then 0 else
          blocksFor ((inode'.iSize + UInt32.ofNat count).toNat / 512 + 1)) = _
        rw [if_neg hne, hold, hlen, hwill]
      rw [hfpart, hused]
      exact hready.free }

/-- The last part of `file_write`. -/
theorem wp_append_data (hput : PutsOwn put p) (hsync : StoresAt ok sync inode.iNo records)
    (ha : Areas mid.part) (hready : Ready s p inode will allBlocks inode' mid)
    (hwill : will = (inode.iSize.toNat + count.toNat) / 512 + 1)
    (hsize : inode.iSize.toNat + count.toNat < 2 ^ 32) :
    wp ok (appendData put sync idx p buf count allBlocks) mid fun r last =>
      r = count ∧ ∃ m inode'', records m ∧
        Appended s idx p inode buf count.toNat m inode'' last := by
  have hinode : mid.inodes p = some inode' := by
    rw [hready.rest]
    exact update_self ..
  have hold : inode'.iSize = inode.iSize := by rw [hready.same]
  simp only [appendData, wp_bind, wp_deref_inode, hinode, of_some, wp_state, wp_store_file]
  have hblocks : FileBlocks { mid with
      fileTable := setPos mid.fileTable idx (inode'.iSize - 1) } inode' will :=
    hready.blocks.congr (.of_part_eq rfl) rfl rfl
  refine wp_mono (wp_write_loop hput ha hinode hblocks ?_ ?_ ?_ ?_ ?_) ?_
  · exact Nat.zero_le _
  · rw [hold]
    omega
  · rw [hold]
    exact hready.all
  · simp
  · omega
  rintro r last ⟨rfl, hcopied⟩
  change Copied _ idx p inode' will (shift buf 0) (r.toNat - 0) last at hcopied
  have hshift : shift buf 0 = buf := by
    funext i
    simp
  rw [hshift] at hcopied
  simp only [hcopied.inode_eq, of_some]
  refine wp_mono (hsync (hcopied.part_eq ▸ ha) ?_) ?_
  · rw [hready.same]
  · rintro _ final ⟨m, hm, hrecord, rfl⟩
    exact ⟨rfl, m, _, hrecord, hcopied.appended ha hm hready hwill hsize⟩

/-- There are free blocks for `count` more bytes. -/
abbrev EnoughBlocks (s : Kernel) (inode : INode) (count : Nat) : Prop :=
  blocksFor ((inode.iSize.toNat + count) / 512 + 1) ≤ s.part.blockBitmap.free + usedBlocks inode

/-- The result of `file_write` on a well-formed file, once its buffers are allocated. -/
def WriteResult (s : Kernel) (idx : Nat) (p : Ptr) (inode : INode) (buf : Bytes) (count : UInt32)
    (records : Nat → Prop) (r : Option UInt32) (last : Kernel) : Prop :=
  (r = some count ∧ EnoughBlocks s inode count.toNat ∧
    ∃ m inode', records m ∧ Appended s idx p inode buf count.toNat m inode' last) ∨
  (r = none ∧ ¬EnoughBlocks s inode count.toNat ∧
    last.part.blockBitmap.free = 0 ∧ (s.part.blockBitmap.free = 0 → last = s))

/-- The part of `file_write` after the file has its first block. The file may just have got it: the
result is stated relative to the state `s` before that. -/
theorem wp_write_blocks {has : Nat} (hput : PutsOwn put p)
    (hsync : EnoughBlocks s inode count.toNat → StoresAt ok sync inode.iNo records)
    (hok : BlocksOk mid.part) (hinode : mid.inodes p = some inode')
    (hb : FileBlocks mid inode' has) (hhas : has = inode'.iSize.toNat / 512 + 1)
    (hold : inode'.iSize = inode.iSize)
    (hwill : will = (inode.iSize.toNat + count.toNat) / 512 + 1)
    (hsize : inode.iSize.toNat + count.toNat < 71680)
    (hready : ∀ {allBlocks inode'' last}, Ready mid p inode' will allBlocks inode'' last →
      Ready s p inode will allBlocks inode'' last)
    (hfree : mid.part.blockBitmap.free + blocksFor has = s.part.blockBitmap.free +
      usedBlocks inode) (hnone : s.part.blockBitmap.free = 0 → mid = s) :
    wp ok (do
      match ← collectWrite put p inode' has will with
      | none => pure none
      | some allBlocks =>
        let bytesWritten ← appendData put sync idx p buf count allBlocks
        pure (some bytesWritten)) mid (WriteResult s idx p inode buf count records) := by
  have hle : has ≤ will := by
    rw [hhas, hold]
    omega
  refine wp_seq (wp_collect_write hput hok hinode hb hle (by omega)) ?_
  rintro r last (⟨allBlocks, inode'', rfl, hcollected⟩ | ⟨rfl, hfew, hfull, hsame⟩)
  · subst hhas
    have hmid := hcollected.ready hok hb hle (by omega)
    have hspent := (hready hmid).free
    have henough : EnoughBlocks s inode count.toNat := by
      rw [EnoughBlocks, ← hwill]
      omega
    simp only [wp_bind]
    refine wp_mono (wp_append_data hput (hsync henough) (hmid.more.blocks_ok hok).areas
      (hready hmid) hwill (by omega)) ?_
    rintro _ final ⟨rfl, happended⟩
    exact .inl ⟨rfl, henough, happended⟩
  · refine .inr ⟨rfl, by rw [EnoughBlocks, ← hwill]; omega, hfull, fun hzero => ?_⟩
    have hmid := hnone hzero
    rw [hsame (hmid ▸ hzero), hmid]

/-- `file_write` on a well-formed file that stays below the limit: it appends the buffer, or there
are too few free blocks. -/
theorem wp_write_body (hput : PutsOwn put p)
    (hsync : EnoughBlocks s inode count.toNat → StoresAt ok sync inode.iNo records)
    (hok : BlocksOk s.part) (hinode : s.inodes p = some inode) (hfile : FileOk s inode)
    (hsize : inode.iSize.toNat + count.toNat < 71680) :
    wp ok (writeBody put sync idx p buf count) s
      (WriteResult s idx p inode buf count records) := by
  have hsum : (inode.iSize + count).toNat = inode.iSize.toNat + count.toNat := by
    rw [UInt32.toNat_add]
    omega
  simp only [writeBody, wp_bind, wp_deref_inode, hinode, of_some]
  refine wp_mono (wp_first_block hok hinode) ?_
  rintro r mid (⟨hne, rfl, rfl⟩ | ⟨hzero, rfl, inode', blocks', hgrew⟩ | ⟨hzero, rfl, hfull, rfl⟩)
  · simp only [wp_bind, wp_deref_inode, hinode, of_some, hsum, wp_assert, decide_eq_false_iff_not]
    refine ⟨fun _ => ?_, by omega⟩
    have hused : usedBlocks inode = blocksFor (inode.iSize.toNat / 512 + 1) := by
      rw [usedBlocks, if_neg hne]
    exact wp_bind.1 (wp_write_blocks hput hsync hok hinode (hfile.file_blocks hne) rfl rfl
      rfl hsize (fun h => h) (by rw [hused]) fun _ => rfl)
  · obtain ⟨hempty, hall⟩ := hfile.empty hok.areas hzero
    have hfirst := hgrew.first hok hall
    have hold : inode'.iSize = inode.iSize := by rw [hgrew.same]
    have hblocks : FileBlocks mid inode' (inode.iSize.toNat / 512 + 1) := by
      rw [hempty]
      exact hfirst
    simp only [wp_bind, wp_deref_inode, hgrew.inode_eq, of_some, wp_assert,
      decide_eq_false_iff_not, hold, hsum]
    refine ⟨fun _ => ?_, by omega⟩
    have hspent := hgrew.free
    have hnone : usedBlocks inode = 0 := by rw [usedBlocks, if_pos hzero]
    have hone : blocksFor (inode.iSize.toNat / 512 + 1) = 1 := by
      rw [hempty]
      rfl
    exact wp_bind.1 (wp_write_blocks hput hsync (hgrew.more.blocks_ok hok) hgrew.inode_eq
      hblocks (by rw [hold]) hold rfl hsize
      (fun h => h.of_first hok hgrew hfirst hempty hzero) (by omega) (by omega))
  · have hnone : usedBlocks inode = 0 := by rw [usedBlocks, if_pos hzero]
    have hpos : 0 < blocksFor ((inode.iSize.toNat + count.toNat) / 512 + 1) := by
      unfold blocksFor
      split <;> omega
    exact .inr ⟨rfl, by omega, hfull, fun _ => rfl⟩

/-- Memory that is allocated before and freed after the write makes no difference. -/
theorem Appended.of_heap {count : Nat} {heap heap' : Heap}
    (h : Appended { s with heap := heap } idx p inode buf count m inode' last) :
    Appended s idx p inode buf count m inode' { last with heap := heap' } where
  rest := by
    obtain ⟨pos, hlast⟩ := h.rest
    exact ⟨pos, by conv_lhs => rw [hlast]⟩
  same := h.same
  more := ⟨h.more.part, h.more.len, h.more.bits⟩
  blocks := h.blocks.congr (.of_part_eq rfl) rfl rfl
  content := h.content
  own := h.own
  disk := h.disk
  record := h.record
  free := h.free

/-- Both requests for memory that `file_write` and `file_read` make are served. -/
def Granted (s : Kernel) : Prop :=
  s.grant s.heap.requests 512 = true ∧ s.grant (s.heap.requests + 1) (512 + 48) = true

/-- The result of `file_write` on a well-formed file that stays below the limit: memory is refused,
the buffer is appended, or there are too few free blocks. -/
inductive WriteOutcome (s : Kernel) (idx : Nat) (p : Ptr) (inode : INode) (buf : Bytes)
    (count : UInt32) (records : Nat → Prop) : Int → Kernel → Prop
  | refused (heap : Heap) (h : ¬Granted s) :
      WriteOutcome s idx p inode buf count records (-1) { s with heap := heap }
  | wrote {last : Kernel} {inode' : INode} {m : Nat} (h : Granted s)
      (henough : EnoughBlocks s inode count.toNat)
      (hrecord : records m) (happended : Appended s idx p inode buf count.toNat m inode' last) :
      WriteOutcome s idx p inode buf count records count.toNat last
  | full {last : Kernel} (h : Granted s) (hfew : ¬EnoughBlocks s inode count.toNat)
      (hfull : last.part.blockBitmap.free = 0)
      (hsame : s.part.blockBitmap.free = 0 → ∃ heap, last = { s with heap := heap }) :
      WriteOutcome s idx p inode buf count records (-1) last

theorem FileOk.of_heap (h : FileOk s inode) (heap : Heap) : FileOk { s with heap := heap } inode :=
  h.imp id fun hb => hb.congr (.of_part_eq rfl) rfl rfl

/-- Slot `idx` of `file_table` refers to the inode at `p`, and the file is well-formed. -/
structure OpenFile (s : Kernel) (idx : Nat) (p : Ptr) (inode : INode) : Prop where
  blocks : BlocksOk s.part
  fd : (s.fileTable idx).fdInode = some p
  memory : s.inodes p = some inode
  file : FileOk s inode

/-- `file_write` with a size that passes its check: it fails if a request for memory is refused, and
otherwise it is the part after the requests. -/
theorem wp_file_write_body {Q : Int → Kernel → Prop} (hopen : OpenFile s idx p inode)
    (hlimit : (inode.iSize + count).toNat ≤ 71680)
    (hrefused : ¬Granted s → ∀ heap, Q (-1) { s with heap := heap })
    (hbody : Granted s → wp ok (writeBody put sync idx p buf count)
      { s with heap := s.heap.served.served } fun r last =>
        (r = none → Q (-1) last) ∧ ∀ n, r = some n → ∀ heap, Q n.toNat { last with heap := heap }) :
    wp ok (fileWriteWith put sync idx buf count) s Q := by
  have hpass : ¬512 * 140 < inode.iSize + count := by
    rw [UInt32.lt_iff_toNat_lt]
    change ¬71680 < _
    omega
  simp only [fileWriteWith, fileInode, wp_bind, wp_state, wp_non_null, hopen.fd,
    of_some, wp_deref_inode, hopen.memory, wp_pure, hpass, if_false]
  rw [wp_sys_malloc]
  refine ⟨fun hfirst => ?_, fun hfirst => hrefused (fun h => by simp [h.1] at hfirst) _⟩
  simp only [wp_bind]
  rw [wp_sys_malloc]
  refine ⟨fun hsecond => ?_, fun hsecond => hrefused (fun h => by simp_all [Granted]) _⟩
  simp only [wp_bind]
  refine wp_mono (hbody ⟨hfirst, hsecond⟩) ?_
  rintro r last ⟨hnone, hsome⟩
  cases r with
  | none => exact hnone rfl
  | some n => exact hsome n rfl _

/-- `file_write` on a well-formed file that stays below the limit. -/
theorem wp_file_write (hopen : OpenFile s idx p inode) (hput : PutsOwn put p)
    (hsync : EnoughBlocks s inode count.toNat → StoresAt ok sync inode.iNo records)
    (hsize : inode.iSize.toNat + count.toNat < 71680) :
    wp ok (fileWriteWith put sync idx buf count) s
      (WriteOutcome s idx p inode buf count records) := by
  refine wp_file_write_body hopen ?_ (fun h heap => .refused heap h) fun hgranted => ?_
  · rw [UInt32.toNat_add]
    omega
  refine wp_mono (wp_write_body hput hsync hopen.blocks hopen.memory (hopen.file.of_heap _)
    hsize) ?_
  rintro r last (⟨rfl, henough, m, inode', hrecord, happended⟩ | ⟨rfl, hfew, hfull, hsame⟩)
  · refine ⟨fun h => absurd h (by simp), ?_⟩
    rintro _ ⟨⟩ heap
    exact .wrote hgranted henough hrecord happended.of_heap
  · refine ⟨fun _ => .full hgranted hfew hfull fun hzero => ⟨_, hsame hzero⟩, ?_⟩
    rintro _ ⟨⟩

/-! ## Storing the inode -/

/-- The record that `inode_sync` writes for inode `n` lies in one sector. -/
def OneSector (n : UInt32) : Prop := 76 * (n.toNat % 256) % 512 ≤ 436

instance (n : UInt32) : Decidable (OneSector n) := inferInstanceAs (Decidable (_ ≤ _))

theorem one_sector_iff (sb : SuperBlock) (n : UInt32) :
    OneSector n ↔ 512 * (inodePosition sb (n % 256)).secCnt ≤ 512 := by
  have hmod : (n % 256).toNat = n.toNat % 256 := by simp
  have htwo := two_sec_iff sb (n % 256)
  rw [hmod] at htwo
  unfold OneSector INodePosition.secCnt
  split
  · rename_i h
    rw [htwo] at h
    omega
  · rename_i h
    rw [htwo] at h
    omega

/-- `inode_sync` with a buffer of one sector writes past its end when the record straddles two. -/
theorem inode_sync_stop (ha : Areas s.part) (hone : ¬OneSector inode.iNo) :
    inodeSync inode 512 s = .stop .badAccess := by
  have hn : (inode.iNo % 256).toNat < 4096 := by
    have hmod : (inode.iNo % 256).toNat = inode.iNo.toNat % 256 := by simp
    omega
  have hlt : inode.iNo % 256 < 4096 := by simpa [UInt32.lt_iff_toNat_lt] using hn
  have hbuf := mt (one_sector_iff s.part.sb inode.iNo).2 hone
  simp only [inodeSync, inodeLocate, assert, access, bind_run, guard_run, state_run,
    pure_run, hlt, decide_true, if_true, inode_position_in_part ha.table hn, hbuf, decide_false,
    Bool.false_eq_true, if_false]

/-- `inode_sync` with a buffer of one sector stores the inode if the record lies in one sector, and
otherwise does not return. The local variable `inode_no` has eight bits. -/
theorem stores_at_inode_sync {n : UInt32} (hok : OneSector n ∨ ok .badAccess) :
    StoresAt ok (fun inode => inodeSync inode 512) n
      fun m => OneSector n ∧ m = n.toNat % 256 := by
  intro s inode ha hn
  subst hn
  by_cases hone : OneSector inode.iNo
  · rw [wp_of_done (inode_sync_run ha.table ((one_sector_iff s.part.sb _).1 hone))]
    exact ⟨_, by omega, ⟨hone, rfl⟩, rfl⟩
  · rw [wp_of_stop (inode_sync_stop ha hone)]
    exact hok.resolve_left hone

/-! ## Appending -/

theorem puts_own_ide_write (p : Ptr) : PutsOwn (fun lba buf => ideWrite lba buf 1) p :=
  fun _ _ _ => rfl

section

variable {count : Nat}

section

variable (h : Appended s idx p inode buf count m inode' last)

include h

theorem Appended.inode_eq : last.inodes p = some inode' := by
  obtain ⟨pos, hlast⟩ := h.rest
  rw [hlast]
  exact update_self ..

theorem Appended.size_eq (hsize : inode.iSize.toNat + count < 2 ^ 32) :
    inode'.iSize.toNat = inode.iSize.toNat + count := by
  rw [h.same]
  rw [UInt32.toNat_add, UInt32.toNat_ofNat']
  omega

theorem Appended.open_file (hopen : OpenFile s idx p inode)
    (hsize : inode.iSize.toNat + count < 2 ^ 32) : OpenFile last idx p inode' := by
  refine ⟨h.more.blocks_ok hopen.blocks, ?_, h.inode_eq, .inr ?_⟩
  · obtain ⟨pos, hlast⟩ := h.rest
    rw [hlast]
    exact (setPos_fdInode ..).trans hopen.fd
  · rw [h.size_eq hsize]
    exact h.blocks

/-- A block that was in use and does not belong to the file is not written. -/
theorem Appended.others (ha : Areas s.part) (htaken : Taken s.part lba)
    (hother : ¬OwnsBlock s inode lba) :
    sectorAt last.disk lba.toNat = sectorAt s.disk lba.toNat := by
  refine sectorAt_congr fun i hi => h.disk i ?_ ?_ fun lba' hown hin => ?_
  · exact htaken.not_in_block_bits ha hi
  · exact htaken.not_in_table ha hi
  · obtain rfl := hi.inj hin
    rcases h.own lba hown with hold | hfresh
    · exact hother hold
    · exact hfresh.ne_taken htaken ha rfl

end

end

/-- With `inode_sync` taken as storing the inode, and with enough memory and free blocks,
`file_write` on a well-formed file returns the number of bytes it was given and appends them. The
file is well-formed again, and no block that was in use outside the file is written. -/
theorem file_write_appends {sync : INode → Call Unit} {s : Kernel} {idx : Nat} {p : Ptr}
    {inode : INode} {buf : Bytes} {count : UInt32} (hopen : OpenFile s idx p inode)
    (hheap : HeapOk s) (hsync : StoresAt never sync inode.iNo (· = inode.iNo.toNat))
    (hsize : inode.iSize.toNat + count.toNat < 71680)
    (henough : blocksFor ((inode.iSize.toNat + count.toNat) / 512 + 1) ≤
      s.part.blockBitmap.free + usedBlocks inode) :
    ∃ last inode', fileWriteWith (fun lba buf => ideWrite lba buf 1) sync idx buf count s =
        .done count.toNat last ∧
      last.inodes p = some inode' ∧ FileOk last inode' ∧
      inode'.iSize.toNat = inode.iSize.toNat + count.toNat ∧
      content last inode' = content s inode ++ (List.range count.toNat).map buf ∧
      inodeRecord last inode.iNo.toNat = inode'.stored ∧
      ∀ lba, Taken s.part lba → ¬OwnsBlock s inode lba →
        sectorAt last.disk lba.toNat = sectorAt s.disk lba.toNat := by
  have hwrite : wp never (fileWriteWith (fun lba buf => ideWrite lba buf 1) sync idx buf
      count) s (WriteOutcome s idx p inode buf count (· = inode.iNo.toNat)) :=
    wp_file_write hopen (puts_own_ide_write p) (fun _ => hsync) hsize
  obtain ⟨r, last, hdone, hresult⟩ := wp_never_iff.1 hwrite
  cases hresult with
  | refused heap hrefused => exact absurd ⟨hheap _ _, hheap _ _⟩ hrefused
  | full _ hfew => exact absurd henough hfew
  | @wrote _ inode' _ _ _ hrecord happended =>
    subst hrecord
    have hlt : inode.iSize.toNat + count.toNat < 2 ^ 32 := by omega
    exact ⟨last, inode', hdone, happended.inode_eq, (happended.open_file hopen hlt).file,
      happended.size_eq hlt, happended.content, happended.record,
      fun lba => happended.others hopen.blocks.areas⟩

/-- A file of 500 bytes in one block. -/
def shortFile : INode := { (inodeInit 1).setSector 0 676 with iSize := 500, iOpenCnts := 1 }

theorem short_file_open : OpenFile (fileKernel shortFile) 3 2 shortFile := by
  refine ⟨bits_partition_blocks_ok 0 (by decide), rfl, rfl, .inr ?_⟩
  refine ⟨by decide, by decide, ?_, by decide, by decide, by decide,
    fun h => absurd h (by decide), by decide, by decide⟩
  intro k hk
  obtain rfl : k = 0 := by
    change k < 1 at hk
    omega
  exact ⟨1, by decide, by decide, by decide, by decide⟩

theorem short_file_stores : StoresAt never (fun inode => inodeSync inode 512) shortFile.iNo
    (· = shortFile.iNo.toNat) := by
  intro s inode ha hn
  refine wp_mono (stores_at_inode_sync (.inl (by decide)) ha hn) ?_
  intro _ last ⟨m, hm, ⟨_, hrecord⟩, hlast⟩
  exact ⟨m, hm, hrecord, hlast⟩

/-- Twenty bytes are appended to a file of 500 bytes, which needs a second block for them. -/
theorem file_write_appends_short : ∃ last inode', fileWriteWith (fun lba buf => ideWrite lba buf 1)
        (fun inode => inodeSync inode 512) 3 UInt8.ofNat 20 (fileKernel shortFile) =
        .done 20 last ∧
      last.inodes 2 = some inode' ∧ FileOk last inode' ∧ inode'.iSize.toNat = 520 ∧
      content last inode' =
        content (fileKernel shortFile) shortFile ++ (List.range 20).map UInt8.ofNat ∧
      inodeRecord last 1 = inode'.stored ∧
      ∀ lba, Taken filePartition lba → ¬OwnsBlock (fileKernel shortFile) shortFile lba →
        sectorAt last.disk lba.toNat = sectorAt (fileKernel shortFile).disk lba.toNat :=
  file_write_appends short_file_open (fun _ _ => rfl) short_file_stores (by decide)
    (Nat.le_trans (by decide : 2 ≤ 4088) (Nat.le_add_right_of_le file_partition_free))

end LosKernel
