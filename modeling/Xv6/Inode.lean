import Xv6.Balloc

/-!
# Inode content: `bmap`, `readi` and `writei`

A file's bytes live in the blocks its inode lists: block `bn` of the file is
`addrs[bn]` for the first `NDIRECT`, and word `bn - NDIRECT` of the indirect block
`addrs[NDIRECT]` for the next `NINDIRECT`; `0` is no block.  `bmap(ip, bn)` returns
that block, and allocates it (and the indirect block) with `balloc` where it is
`0`.  `readi` and `writei` move `n` bytes at offset `off` in turns of
`m = min(n - tot, BSIZE - off%BSIZE)` bytes, one block a turn.

The transfer's arguments are `uint`s: `off + n < off` is the test that their sum
wraps.  Past it, `off + n` and the sums in the loops fit in 32 bits.  The inode
is the in-memory `struct inode`; `writei`'s `iupdate`, which copies it to its
disk block, and the device branch of both functions are not modelled.

## Main definitions

* `InodeData`, `InodeData.blockOf` — the in-memory inode, and the block holding block
  `bn` of the file.
* `InodeData.byteAt`, `InodeData.content` — the file's bytes.
* `InodeData.Filled` — no holes: every byte below a bound lies in a block.
* `InodeData.Sound` — the file's blocks are handed-out blocks, each used once.
* `bmap`, `readLoop`, `readi`, `writeLoop`, `writei` — as in `fs.c`.

## Main results

* `bmap_of_mapped`, `bmap_spec` — what `bmap` returns and changes.
* `readi_eq` — `readi` of a file without holes copies its bytes `[off, off + m)`.
* `writei_spec` — `writei` writes `src[0, n)` at `off`, given free blocks for the
  blocks it allocates (`InodeData.writeAllocs`).
-/

namespace Xv6

/-- The fields of `struct inode` that `bmap`, `readi` and `writei` read and write:
the file's size in bytes and `addrs[NDIRECT+1]`. -/
structure InodeData where
  size : ℕ
  addrs : Fin (ndirect + 1) → ℕ

namespace Block

/-- `memmove(bp->data + o, src, m)`: the `m` bytes of `src` copied into the block
at byte offset `o`. -/
def moveIn (bp : Block) (o m : ℕ) (src : ℕ → UInt8) : Block :=
  fun i => if o ≤ (i : ℕ) ∧ (i : ℕ) < o + m then src (i - o) else bp i

theorem toMem_moveIn (bp : Block) (o m : ℕ) (src : ℕ → UInt8) {a : ℕ} (ha : a < bsize) :
    (bp.moveIn o m src).toMem a = if o ≤ a ∧ a < o + m then src (a - o) else bp.toMem a := by
  simp [toMem, moveIn, ha]

/-- A word past the end of a block reads as `0`. -/
theorem getU32_of_ge (b : Block) {off : ℕ} (h : bsize ≤ off) : b.getU32 off = 0 := by
  have hz : LittleEndian.read b.toMem off 4 = LittleEndian.read (fun _ => 0) off 4 :=
    LittleEndian.read_congr fun a ha _ => by simp [toMem, show ¬ a < bsize by omega]
  rw [getU32, hz]
  rfl

@[simp] theorem getU32_zero (off : ℕ) : Block.zero.getU32 off = 0 := by
  have hz : LittleEndian.read Block.zero.toMem off 4 = LittleEndian.read (fun _ => 0) off 4 :=
    LittleEndian.read_congr fun a _ _ => by unfold toMem zero; split_ifs <;> rfl
  rw [getU32, hz]
  rfl

/-- A store of one word leaves the others, in the block or past it. -/
theorem getU32_setU32_of_ne (b : Block) {j j' v : ℕ} (hne : j' ≠ j) :
    (b.setU32 (4 * j) v).getU32 (4 * j') = b.getU32 (4 * j') := by
  by_cases hj' : 4 * j' + 4 ≤ bsize
  · exact getU32_setU32_of_disjoint b hj' (by omega)
  · rw [getU32_of_ge _ (by unfold bsize at *; omega), getU32_of_ge _ (by unfold bsize at *; omega)]

end Block

namespace InodeData

/-- `addrs[NDIRECT]`, the slot of the indirect block. -/
def indSlot : Fin (ndirect + 1) := Fin.last ndirect

/-- `ip->addrs[k] = a`. -/
def setAddr (ip : InodeData) (k : Fin (ndirect + 1)) (a : ℕ) : InodeData :=
  { ip with addrs := Function.update ip.addrs k a }

@[simp] theorem setAddr_size (ip : InodeData) (k : Fin (ndirect + 1)) (a : ℕ) : (ip.setAddr k a).size = ip.size :=
  rfl

@[simp] theorem setAddr_addrs_self (ip : InodeData) (k : Fin (ndirect + 1)) (a : ℕ) :
    (ip.setAddr k a).addrs k = a := by
  simp [setAddr]

theorem setAddr_addrs_of_ne (ip : InodeData) {k k' : Fin (ndirect + 1)} (a : ℕ) (h : k' ≠ k) :
    (ip.setAddr k a).addrs k' = ip.addrs k' := by
  simp [setAddr, h]

/-- The block that holds block `bn` of the file, as `bmap` finds it when it
allocates nothing; `0` for none. -/
def blockOf (ip : InodeData) (d : Disk) (bn : ℕ) : ℕ :=
  if h : bn < ndirect then ip.addrs (Fin.castSucc ⟨bn, h⟩)
  else if ip.addrs indSlot = 0 then 0
  else (d (ip.addrs indSlot)).getU32 (4 * (bn - ndirect))

/-- Byte `i` of the file. -/
def byteAt (ip : InodeData) (d : Disk) (i : ℕ) : UInt8 := (d (ip.blockOf d (i / bsize))).toMem (i % bsize)

/-- The file's content: its first `size` bytes. -/
def content (ip : InodeData) (d : Disk) : List UInt8 := (List.range ip.size).map (ip.byteAt d)

/-- No holes below byte `L`: each of those bytes lies in a block. -/
def Filled (ip : InodeData) (d : Disk) (L : ℕ) : Prop := ∀ i < L, ip.blockOf d (i / bsize) ≠ 0

/-- The blocks of the file are blocks the allocator handed out, each in one place:
its data blocks are distinct, and none is its indirect block. -/
structure Sound (ip : InodeData) (sb : Superblock) (d : Disk) : Prop where
  valid : sb.Valid d
  data : ∀ bn, ip.blockOf d bn ≠ 0 → sb.Owned d (ip.blockOf d bn)
  ind : ip.addrs indSlot ≠ 0 → sb.Owned d (ip.addrs indSlot)
  inj : ∀ bn bn', ip.blockOf d bn ≠ 0 → ip.blockOf d bn = ip.blockOf d bn' → bn = bn'
  ind_ne : ∀ bn, ip.blockOf d bn ≠ 0 → ip.blockOf d bn ≠ ip.addrs indSlot

/-- The inode `ialloc` hands out: the on-disk inode zeroed, so no bytes and no blocks. -/
def empty : InodeData := ⟨0, fun _ => 0⟩

/-! ### The blocks of a file -/

variable {ip : InodeData} {d : Disk}

theorem blockOf_of_lt {bn : ℕ} (h : bn < ndirect) : ip.blockOf d bn = ip.addrs (Fin.castSucc ⟨bn, h⟩) := by
  rw [blockOf, dif_pos h]

theorem blockOf_of_ge {bn : ℕ} (h : ndirect ≤ bn) :
    ip.blockOf d bn = if ip.addrs indSlot = 0 then 0 else (d (ip.addrs indSlot)).getU32 (4 * (bn - ndirect)) := by
  rw [blockOf, dif_neg (by omega)]

/-- A file has no block past `MAXFILE`. -/
theorem blockOf_of_maxfile_le {bn : ℕ} (h : maxfile ≤ bn) : ip.blockOf d bn = 0 := by
  rw [blockOf_of_ge (by unfold maxfile at h; omega)]
  split_ifs
  · rfl
  · exact Block.getU32_of_ge _ (by unfold maxfile nindirect at h; unfold bsize at *; omega)

theorem lt_maxfile_of_blockOf {bn : ℕ} (h : ip.blockOf d bn ≠ 0) : bn < maxfile := by
  by_contra hge
  exact h (blockOf_of_maxfile_le (by omega))

/-- The blocks of a file depend on the disk through its indirect block only. -/
theorem blockOf_congr_disk {d' : Disk} (hind : ip.addrs indSlot ≠ 0 → d' (ip.addrs indSlot) = d (ip.addrs indSlot))
    (bn : ℕ) : ip.blockOf d' bn = ip.blockOf d bn := by
  unfold blockOf
  split_ifs with h₁ h₂
  · rfl
  · rfl
  · rw [hind h₂]

@[simp] theorem blockOf_empty (bn : ℕ) : empty.blockOf d bn = 0 := by
  unfold blockOf
  split_ifs with h₁ h₂
  · rfl
  · rfl
  · exact absurd rfl h₂

/-- The empty file is sound on any valid disk. -/
theorem Sound.empty {sb : Superblock} (hv : sb.Valid d) : empty.Sound sb d :=
  ⟨hv, fun bn h => absurd (blockOf_empty bn) h, fun h => absurd rfl h,
    fun bn _ h => absurd (blockOf_empty bn) h, fun bn h => absurd (blockOf_empty bn) h⟩

/-- The blocks `bmap` of block `bn` allocates: none for a block the file has, and
otherwise the data block, and the indirect block too where `bn` needs one and the
file has none. -/
def bmapAllocs (ip : InodeData) (d : Disk) (bn : ℕ) : ℕ :=
  if ip.blockOf d bn ≠ 0 then 0 else if ndirect ≤ bn ∧ ip.addrs indSlot = 0 then 2 else 1

/-- A file's blocks after an allocation: the allocator writes no block of the file. -/
theorem blockOf_alloc {sb : Superblock} (hs : ip.Sound sb d) {x : ℕ} (hx : x < sb.size)
    (hfree : sb.used d x = false) (bn : ℕ) : ip.blockOf (sb.alloc d x) bn = ip.blockOf d bn :=
  blockOf_congr_disk (fun h => Superblock.alloc_of_owned hx hfree (hs.ind h)) bn

/-- Setting a direct slot other than `bn`'s leaves block `bn` of the file where it was. -/
theorem blockOf_setAddr_of_ne {k : Fin (ndirect + 1)} (hk : k ≠ indSlot) {bn : ℕ} (hbn : bn ≠ k.val) (a : ℕ) :
    (ip.setAddr k a).blockOf d bn = ip.blockOf d bn := by
  have hind : (ip.setAddr k a).addrs indSlot = ip.addrs indSlot := setAddr_addrs_of_ne ip a (Ne.symm hk)
  by_cases h₁ : bn < ndirect
  · rw [blockOf_of_lt h₁, blockOf_of_lt h₁]
    exact setAddr_addrs_of_ne ip a fun he => hbn (congrArg Fin.val he)
  · rw [blockOf_of_ge (by omega), blockOf_of_ge (by omega), hind]

/-- The file after `bmap` gave block `bn`, which had none, the block `x = blockOf
bn`: free before and handed out now.  Its indirect block is the old one, or a block
handed out now where there was none; every other block of the file stayed. -/
theorem Sound.remap {sb : Superblock} {ip' : InodeData} {d' : Disk} {bn : ℕ} (hs : ip.Sound sb d)
    (hv : sb.Valid d') (hown : ∀ y, sb.Owned d y → sb.Owned d' y)
    (hx : ip'.blockOf d' bn ≠ 0) (hxo : sb.Owned d' (ip'.blockOf d' bn))
    (hxf : sb.used d (ip'.blockOf d' bn) = false)
    (hother : ∀ bn', bn' ≠ bn → ip'.blockOf d' bn' = ip.blockOf d bn')
    (hind : ip'.addrs indSlot = ip.addrs indSlot ∨
      ip.addrs indSlot = 0 ∧ sb.Owned d' (ip'.addrs indSlot) ∧ sb.used d (ip'.addrs indSlot) = false ∧
        ip'.addrs indSlot ≠ ip'.blockOf d' bn) :
    ip'.Sound sb d' := by
  -- the new block is no block the file had
  have hnew : ∀ b', b' ≠ bn → ip'.blockOf d' b' ≠ 0 → ip'.blockOf d' b' ≠ ip'.blockOf d' bn := by
    intro b' hb' h' he
    rw [hother b' hb'] at h' he
    exact (hs.data b' h').ne_of_free hxf he
  refine ⟨hv, fun b' h => ?_, fun h => ?_, fun b₁ b₂ h heq => ?_, fun b' h => ?_⟩
  · -- data
    by_cases hb : b' = bn
    · exact hb ▸ hxo
    · rw [hother b' hb] at h ⊢
      exact hown _ (hs.data b' h)
  · -- the indirect block
    rcases hind with he | ⟨-, ho, -, -⟩
    · rw [he] at h ⊢
      exact hown _ (hs.ind h)
    · exact ho
  · -- injectivity
    by_cases h₁ : b₁ = bn <;> by_cases h₂ : b₂ = bn
    · rw [h₁, h₂]
    · subst h₁
      exact absurd heq.symm (hnew b₂ h₂ (heq ▸ h))
    · subst h₂
      exact absurd heq (hnew b₁ h₁ h)
    · rw [hother b₁ h₁] at h heq
      rw [hother b₂ h₂] at heq
      exact hs.inj b₁ b₂ h heq
  · -- no data block is the indirect block
    rcases hind with he | ⟨h0, -, hf, hne⟩
    · rw [he]
      by_cases hb : b' = bn
      · subst hb
        by_cases hi : ip.addrs indSlot = 0
        · rw [hi]
          exact h
        · exact fun he' => (hs.ind hi).ne_of_free hxf he'.symm
      · rw [hother b' hb] at h ⊢
        exact hs.ind_ne b' h
    · by_cases hb : b' = bn
      · exact hb ▸ hne.symm
      · rw [hother b' hb] at h ⊢
        exact (hs.data b' h).ne_of_free hf

/-- What `bmap` of block `bn` leaves: block `bn` of the file is a block, zeroed if
the file had none there; no other block of the file moved and no data block of the
file changed; the file is still sound, and `bmapAllocs` blocks were taken. -/
structure BmapStep (sb : Superblock) (ip : InodeData) (d : Disk) (bn : ℕ) (ip' : InodeData) (d' : Disk) :
    Prop where
  mapped : ip'.blockOf d' bn ≠ 0
  keep : ip.blockOf d bn ≠ 0 → ip'.blockOf d' bn = ip.blockOf d bn
  fresh : ip.blockOf d bn = 0 → d' (ip'.blockOf d' bn) = Block.zero
  other : ∀ bn', bn' ≠ bn → ip'.blockOf d' bn' = ip.blockOf d bn'
  frame : ∀ bn', ip.blockOf d bn' ≠ 0 → d' (ip.blockOf d bn') = d (ip.blockOf d bn')
  size : ip'.size = ip.size
  sound : ip'.Sound sb d'
  free : sb.freeCount d' + ip.bmapAllocs d bn = sb.freeCount d
  ind : ip'.addrs indSlot = ip.addrs indSlot ∧ ip.bmapAllocs d bn ≤ 1 ∨
    ip.addrs indSlot = 0 ∧ ip'.addrs indSlot ≠ 0

/-- What `bmap` leaves outside the file: every block in use that is not the file's
indirect block keeps its bytes and stays in use, and a block it gives the file was
free. -/
structure BmapFrame (sb : Superblock) (ip : InodeData) (d : Disk) (bn : ℕ) (ip' : InodeData) (d' : Disk) :
    Prop where
  keep : ∀ y, sb.Owned d y → (ip.addrs indSlot ≠ 0 → y ≠ ip.addrs indSlot) → d' y = d y ∧ sb.Owned d' y
  fresh : ip.blockOf d bn = 0 → sb.used d (ip'.blockOf d' bn) = false
  ind : ip'.addrs indSlot ≠ ip.addrs indSlot → sb.used d (ip'.addrs indSlot) = false

/-- Block `y` is one of the file's: a data block or its indirect block. -/
def Holds (ip : InodeData) (d : Disk) (y : ℕ) : Prop :=
  y ≠ 0 ∧ ((∃ bn, ip.blockOf d bn = y) ∨ ip.addrs indSlot = y)

/-- Two files share no block. -/
def Apart (ip ip₂ : InodeData) (d : Disk) : Prop := ∀ y, ip.Holds d y → ip₂.Holds d y → False

theorem Apart.symm {ip ip₂ : InodeData} {d : Disk} (h : ip.Apart ip₂ d) : ip₂.Apart ip d :=
  fun y h₂ h₁ => h y h₁ h₂

/-- A change of the disk that leaves file `ip₂` alone: its blocks keep their bytes,
and it stays sound. -/
structure Leaves (sb : Superblock) (ip₂ : InodeData) (d d' : Disk) : Prop where
  bytes : ∀ y, ip₂.Holds d y → d' y = d y
  sound : ip₂.Sound sb d'

section Leaves

variable {sb : Superblock} {ip ip₂ : InodeData} {d d' d'' : Disk}

theorem Sound.owned (hs : ip.Sound sb d) {y : ℕ} (h : ip.Holds d y) : sb.Owned d y := by
  obtain ⟨hy0, ⟨bn, rfl⟩ | rfl⟩ := h
  · exact hs.data bn hy0
  · exact hs.ind hy0

/-- A sound file is left alone by a change to a valid disk that keeps its blocks'
bytes and keeps them in use. -/
theorem Sound.leaves (hs : ip.Sound sb d) (hv : sb.Valid d')
    (hk : ∀ y, ip.Holds d y → d' y = d y ∧ sb.Owned d' y) : ip.Leaves sb d d' := by
  have hb : ∀ bn, ip.blockOf d' bn = ip.blockOf d bn := blockOf_congr_disk fun h => (hk _ ⟨h, .inr rfl⟩).1
  refine ⟨fun y hy => (hk y hy).1, hv, fun bn h => ?_, fun h => (hk _ ⟨h, .inr rfl⟩).2, fun b₁ b₂ h he => ?_,
    fun bn h => ?_⟩
  · rw [hb] at h ⊢
    exact (hk _ ⟨h, .inl ⟨bn, rfl⟩⟩).2
  · rw [hb, hb] at he
    rw [hb] at h
    exact hs.inj b₁ b₂ h he
  · rw [hb] at h ⊢
    exact hs.ind_ne bn h

theorem Leaves.blockOf (hl : ip₂.Leaves sb d d') (bn : ℕ) : ip₂.blockOf d' bn = ip₂.blockOf d bn :=
  blockOf_congr_disk (fun h => hl.bytes _ ⟨h, .inr rfl⟩) bn

theorem Leaves.holds_iff (hl : ip₂.Leaves sb d d') (y : ℕ) : ip₂.Holds d' y ↔ ip₂.Holds d y := by
  unfold Holds
  simp only [hl.blockOf]

theorem Leaves.trans (h₁ : ip₂.Leaves sb d d') (h₂ : ip₂.Leaves sb d' d'') : ip₂.Leaves sb d d'' :=
  ⟨fun y hy => (h₂.bytes y ((h₁.holds_iff y).mpr hy)).trans (h₁.bytes y hy), h₂.sound⟩

theorem Leaves.filled (hl : ip₂.Leaves sb d d') {L : ℕ} (h : ip₂.Filled d L) : ip₂.Filled d' L :=
  fun i hi => by
    rw [hl.blockOf]
    exact h i hi

/-- A file left alone keeps its content. -/
theorem Leaves.content (hl : ip₂.Leaves sb d d') (hfill : ip₂.Filled d ip₂.size) :
    ip₂.content d' = ip₂.content d :=
  List.map_congr_left fun i hi => by
    have h := hfill i (List.mem_range.mp hi)
    unfold byteAt
    rw [hl.blockOf, hl.bytes _ ⟨h, .inl ⟨_, rfl⟩⟩]

end Leaves

end InodeData

open InodeData

/-! ### `bmap` -/

section Bmap

variable (sb : Superblock)

/-- `bmap(ip, bn)`: the block number of block `bn` of the file, with the disk and
the inode after; a block is allocated with `balloc` where there is none, and the
indirect block first where `bn` needs it.  `none` at a panic: `bmap` past
`MAXFILE` blocks, or `balloc` out of blocks. -/
def bmap (d : Disk) (ip : InodeData) (bn : ℕ) : Option (ℕ × Disk × InodeData) :=
  if h : bn < ndirect then
    if ip.addrs (Fin.castSucc ⟨bn, h⟩) = 0 then
      (sb.balloc d).map fun r => (r.1, r.2, ip.setAddr (Fin.castSucc ⟨bn, h⟩) r.1)
    else some (ip.addrs (Fin.castSucc ⟨bn, h⟩), d, ip)
  else if bn - ndirect < nindirect then
    -- load the indirect block, allocating if necessary; `bp` is read before `balloc`
    (if ip.addrs indSlot = 0 then (sb.balloc d).map fun r => (r.1, r.2, ip.setAddr indSlot r.1)
      else some (ip.addrs indSlot, d, ip)).bind fun r =>
      if (r.2.1 r.1).getU32 (4 * (bn - ndirect)) = 0 then
        (sb.balloc r.2.1).map fun r' =>
          (r'.1, Function.update r'.2 r.1 ((r.2.1 r.1).setU32 (4 * (bn - ndirect)) r'.1), r.2.2)
      else some ((r.2.1 r.1).getU32 (4 * (bn - ndirect)), r.2.1, r.2.2)
  else none

variable {sb} {ip : InodeData} {d : Disk} {bn : ℕ}

/-- `bmap` of a block the file has returns it and changes nothing. -/
theorem bmap_of_mapped (h : ip.blockOf d bn ≠ 0) : bmap sb d ip bn = some (ip.blockOf d bn, d, ip) := by
  have hbn := lt_maxfile_of_blockOf h
  by_cases hd : bn < ndirect
  · rw [blockOf_of_lt hd] at h ⊢
    rw [bmap, dif_pos hd, if_neg h]
  · rw [blockOf_of_ge (by omega)] at h ⊢
    by_cases hind : ip.addrs indSlot = 0
    · rw [if_pos hind] at h
      exact absurd rfl h
    rw [if_neg hind] at h ⊢
    rw [bmap, dif_neg hd, if_pos (by unfold maxfile at hbn; omega), if_neg hind, Option.bind_some,
      if_neg h]

/-- `bmap` of a direct block the file lacks: one block from `balloc`. -/
theorem bmap_direct (hs : ip.Sound sb d) (hd : bn < ndirect) (h0 : ip.blockOf d bn = 0)
    (hfree : 0 < sb.freeCount d) :
    ∃ ip' d', bmap sb d ip bn = some (ip'.blockOf d' bn, d', ip') ∧ BmapStep sb ip d bn ip' d' ∧
      BmapFrame sb ip d bn ip' d' := by
  obtain ⟨x, hb, hx, hxf⟩ := Superblock.balloc_of_free hfree
  have hk : (Fin.castSucc ⟨bn, hd⟩ : Fin (ndirect + 1)) ≠ indSlot := fun he => by
    have := congrArg Fin.val he
    simp [indSlot] at this
    omega
  have hbx : (ip.setAddr (Fin.castSucc ⟨bn, hd⟩) x).blockOf (sb.alloc d x) bn = x := by
    rw [blockOf_of_lt hd, setAddr_addrs_self]
  have hx0 : x ≠ 0 := fun he => by rw [he, hs.valid.zero] at hxf; simp at hxf
  have hother : ∀ bn', bn' ≠ bn →
      (ip.setAddr (Fin.castSucc ⟨bn, hd⟩) x).blockOf (sb.alloc d x) bn' = ip.blockOf d bn' := fun bn' hb' => by
    rw [blockOf_setAddr_of_ne hk hb', blockOf_alloc hs hx hxf]
  refine ⟨ip.setAddr (Fin.castSucc ⟨bn, hd⟩) x, sb.alloc d x, ?_, ?_, ?_⟩
  · rw [blockOf_of_lt hd] at h0
    rw [bmap, dif_pos hd, if_pos h0, hb, hbx]
    rfl
  have hallocs : ip.bmapAllocs d bn = 1 := by rw [bmapAllocs, if_neg (not_not.mpr h0), if_neg (by omega)]
  refine ⟨by rw [hbx]; exact hx0, fun h => absurd h0 h, fun _ => by rw [hbx, Superblock.alloc_self], hother,
    fun bn' h => Superblock.alloc_of_owned hx hxf (hs.data bn' h), rfl, ?_, ?_,
    .inl ⟨setAddr_addrs_of_ne ip x (Ne.symm hk), hallocs.le⟩⟩
  · refine hs.remap (Superblock.valid_alloc hs.valid hx hxf) (fun y hy => hy.alloc hs.valid hx hxf) ?_ ?_ ?_
      hother (.inl (setAddr_addrs_of_ne ip x (Ne.symm hk)))
    all_goals rw [hbx]
    · exact hx0
    · exact Superblock.owned_alloc_self hs.valid hx hxf
    · exact hxf
  · rw [hallocs]
    exact Superblock.freeCount_alloc hs.valid hx hxf
  · exact ⟨fun y hy _ => ⟨Superblock.alloc_of_owned hx hxf hy, hy.alloc hs.valid hx hxf⟩,
      fun _ => by rw [hbx]; exact hxf, fun h => absurd (setAddr_addrs_of_ne ip x (Ne.symm hk)) h⟩

/-- `bmap` of an indirect block the file lacks, when it has the indirect block: one
block from `balloc`, entered in the indirect block. -/
theorem bmap_entry (hs : ip.Sound sb d) (hd : ndirect ≤ bn) (hbn : bn < maxfile) (h0 : ip.blockOf d bn = 0)
    (hind : ip.addrs indSlot ≠ 0) (hfree : 0 < sb.freeCount d) :
    ∃ ip' d', bmap sb d ip bn = some (ip'.blockOf d' bn, d', ip') ∧ BmapStep sb ip d bn ip' d' ∧
      BmapFrame sb ip d bn ip' d' := by
  obtain ⟨x, hb, hx, hxf⟩ := Superblock.balloc_of_free hfree
  have hio := hs.ind hind
  have hj : 4 * (bn - ndirect) + 4 ≤ bsize := by unfold maxfile nindirect at hbn; unfold bsize at *; omega
  have hxi : ip.addrs indSlot ≠ x := hio.ne_of_free hxf
  -- the disk after: `x` allocated, and entered in the indirect block as read before
  set d' := Function.update (sb.alloc d x) (ip.addrs indSlot)
    ((d (ip.addrs indSlot)).setU32 (4 * (bn - ndirect)) x) with hdd
  have hio' : sb.Owned (sb.alloc d x) (ip.addrs indSlot) := hio.alloc hs.valid hx hxf
  have hbx : ip.blockOf d' bn = x := by
    rw [blockOf_of_ge hd, if_neg hind, hdd, Function.update_self,
      Block.getU32_setU32_self _ hj (lt_trans hx sb.size_lt)]
  have hother : ∀ bn', bn' ≠ bn → ip.blockOf d' bn' = ip.blockOf d bn' := by
    intro bn' hb'
    by_cases hd' : bn' < ndirect
    · rw [blockOf_of_lt hd', blockOf_of_lt hd']
    · rw [blockOf_of_ge (by omega), blockOf_of_ge (by omega), if_neg hind, if_neg hind, hdd, Function.update_self,
        Block.getU32_setU32_of_ne _ (by omega)]
  have hx0 : x ≠ 0 := fun he => by rw [he, hs.valid.zero] at hxf; simp at hxf
  refine ⟨ip, d', ?_, ?_, ?_⟩
  · rw [blockOf_of_ge hd, if_neg hind] at h0
    rw [bmap, dif_neg (by omega), if_pos (by unfold maxfile at hbn; omega), if_neg hind, Option.bind_some,
      if_pos h0, hb, hbx]
    rfl
  have hallocs : ip.bmapAllocs d bn = 1 := by rw [bmapAllocs, if_neg (not_not.mpr h0), if_neg (by omega)]
  refine ⟨by rw [hbx]; exact hx0, fun h => absurd h0 h, fun _ => ?_, hother, fun bn' h => ?_, rfl, ?_, ?_,
    .inl ⟨rfl, hallocs.le⟩⟩
  · -- the new block is zeroed
    rw [hbx, hdd, Function.update_of_ne hxi.symm, Superblock.alloc_self]
  · -- a data block is neither the indirect block nor `x`
    have hy := hs.data bn' h
    rw [hdd, Function.update_of_ne (hs.ind_ne bn' h), Superblock.alloc_of_owned hx hxf hy]
  · refine hs.remap ((Superblock.valid_alloc hs.valid hx hxf).update hio' _)
      (fun y hy => (hy.alloc hs.valid hx hxf).update hio' _) ?_ ?_ ?_ hother (.inl rfl)
    all_goals rw [hbx]
    · exact hx0
    · exact (Superblock.owned_alloc_self hs.valid hx hxf).update hio' _
    · exact hxf
  · rw [hallocs, Superblock.freeCount_update hio']
    exact Superblock.freeCount_alloc hs.valid hx hxf
  · refine ⟨fun y hy hne => ?_, fun _ => by rw [hbx]; exact hxf, fun h => absurd rfl h⟩
    rw [hdd, Function.update_of_ne (hne hind), Superblock.alloc_of_owned hx hxf hy]
    exact ⟨rfl, (hy.alloc hs.valid hx hxf).update hio' _⟩

/-- `bmap` of an indirect block when the file has no indirect block: two blocks from
`balloc`, the indirect block and then the data block, entered in the zeroed
indirect block. -/
theorem bmap_indirect (hs : ip.Sound sb d) (hd : ndirect ≤ bn) (hbn : bn < maxfile)
    (hind : ip.addrs indSlot = 0) (hfree : 2 ≤ sb.freeCount d) :
    ∃ ip' d', bmap sb d ip bn = some (ip'.blockOf d' bn, d', ip') ∧ BmapStep sb ip d bn ip' d' ∧
      BmapFrame sb ip d bn ip' d' := by
  obtain ⟨x₁, hb₁, hx₁, hf₁⟩ := Superblock.balloc_of_free (show 0 < sb.freeCount d by omega)
  have hv₁ := Superblock.valid_alloc hs.valid hx₁ hf₁
  have hc₁ := Superblock.freeCount_alloc hs.valid hx₁ hf₁
  obtain ⟨x₂, hb₂, hx₂, hf₂⟩ := Superblock.balloc_of_free (show 0 < sb.freeCount (sb.alloc d x₁) by omega)
  have hv₂ := Superblock.valid_alloc hv₁ hx₂ hf₂
  have hj : 4 * (bn - ndirect) + 4 ≤ bsize := by unfold maxfile nindirect at hbn; unfold bsize at *; omega
  -- `x₁` is in use once allocated, so `x₂` is another block, free from the start
  have ho₁ : sb.Owned (sb.alloc d x₁) x₁ := Superblock.owned_alloc_self hs.valid hx₁ hf₁
  have h12 : x₁ ≠ x₂ := ho₁.ne_of_free hf₂
  have hf₂' : sb.used d x₂ = false := by
    have := Superblock.used_alloc hs.valid hx₁ hf₁ hx₂
    rw [hf₂] at this
    exact (Bool.or_eq_false_iff.mp this.symm).1
  have ho₁' : sb.Owned (sb.alloc (sb.alloc d x₁) x₂) x₁ := ho₁.alloc hv₁ hx₂ hf₂
  -- the disk after, and the inode with its new indirect block
  set d' := Function.update (sb.alloc (sb.alloc d x₁) x₂) x₁ (Block.zero.setU32 (4 * (bn - ndirect)) x₂) with hdd
  set ip' := ip.setAddr indSlot x₁ with hipp
  have hind' : ip'.addrs indSlot = x₁ := by rw [hipp, setAddr_addrs_self]
  have hx₁0 : x₁ ≠ 0 := fun he => by rw [he, hs.valid.zero] at hf₁; simp at hf₁
  have hx₂0 : x₂ ≠ 0 := fun he => by rw [he, hs.valid.zero] at hf₂'; simp at hf₂'
  have hbx : ip'.blockOf d' bn = x₂ := by
    rw [blockOf_of_ge hd, hind', if_neg hx₁0, hdd, Function.update_self,
      Block.getU32_setU32_self _ hj (lt_trans hx₂ sb.size_lt)]
  have hother : ∀ bn', bn' ≠ bn → ip'.blockOf d' bn' = ip.blockOf d bn' := by
    intro bn' hb'
    by_cases hd' : bn' < ndirect
    · rw [blockOf_of_lt hd', blockOf_of_lt hd', hipp]
      exact setAddr_addrs_of_ne ip x₁ fun he => by
        have := congrArg Fin.val he
        simp [indSlot] at this
        omega
    · rw [blockOf_of_ge (by omega), blockOf_of_ge (by omega), hind', if_neg hx₁0, if_pos hind,
        hdd, Function.update_self, Block.getU32_setU32_of_ne _ (by omega), Block.getU32_zero]
  refine ⟨ip', d', ?_, ?_, ?_⟩
  · rw [bmap, dif_neg (by omega), if_pos (by unfold maxfile at hbn; omega), if_pos hind, hb₁, Option.map_some,
      Option.bind_some]
    simp only [Superblock.alloc_self, Block.getU32_zero, if_true, hb₂, Option.map_some]
    rw [hbx]
  have h0 : ip.blockOf d bn = 0 := by rw [blockOf_of_ge hd, if_pos hind]
  refine ⟨by rw [hbx]; exact hx₂0, fun h => absurd h0 h, fun _ => ?_, hother, fun bn' h => ?_, rfl, ?_, ?_,
    .inr ⟨hind, by rw [hind']; exact hx₁0⟩⟩
  · rw [hbx, hdd, Function.update_of_ne h12.symm, Superblock.alloc_self]
  · -- a data block of the file is a direct block, handed out before both
    have hy := hs.data bn' h
    rw [hdd, Function.update_of_ne (hy.ne_of_free hf₁), Superblock.alloc_of_owned hx₂ hf₂ (hy.alloc hs.valid hx₁ hf₁),
      Superblock.alloc_of_owned hx₁ hf₁ hy]
  · refine hs.remap (hv₂.update ho₁' _) (fun y hy => ((hy.alloc hs.valid hx₁ hf₁).alloc hv₁ hx₂ hf₂).update ho₁' _)
      (by rw [hbx]; exact hx₂0) (by rw [hbx]; exact (Superblock.owned_alloc_self hv₁ hx₂ hf₂).update ho₁' _)
      (by rw [hbx]; exact hf₂') hother
      (.inr ⟨hind, by rw [hind']; exact ho₁'.update ho₁' _, by rw [hind']; exact hf₁, by rw [hind', hbx]; exact h12⟩)
  · rw [bmapAllocs, if_neg (not_not.mpr h0), if_pos ⟨hd, hind⟩, Superblock.freeCount_update ho₁']
    have hc₂ := Superblock.freeCount_alloc hv₁ hx₂ hf₂
    omega
  · refine ⟨fun y hy _ => ?_, fun _ => by rw [hbx]; exact hf₂', fun _ => by rw [hind']; exact hf₁⟩
    -- a block in use is neither of the two handed out
    have hy₁ := hy.alloc hs.valid hx₁ hf₁
    rw [hdd, Function.update_of_ne (hy.ne_of_free hf₁), Superblock.alloc_of_owned hx₂ hf₂ hy₁,
      Superblock.alloc_of_owned hx₁ hf₁ hy]
    exact ⟨rfl, (hy₁.alloc hv₁ hx₂ hf₂).update ho₁' _⟩

/-- **`bmap`.**  For a block below `MAXFILE` of a sound file, and free blocks for
what it allocates, `bmap` returns block `bn` of the file after it, and leaves the
file as `BmapStep` says. -/
theorem bmap_spec (hs : ip.Sound sb d) (hbn : bn < maxfile) (hfree : ip.bmapAllocs d bn ≤ sb.freeCount d) :
    ∃ ip' d', bmap sb d ip bn = some (ip'.blockOf d' bn, d', ip') ∧ BmapStep sb ip d bn ip' d' ∧
      BmapFrame sb ip d bn ip' d' := by
  by_cases h0 : ip.blockOf d bn = 0
  · -- one case per way the block can be missing
    by_cases hd : bn < ndirect
    · exact bmap_direct hs hd h0 (by rw [bmapAllocs, if_neg (not_not.mpr h0), if_neg (by omega)] at hfree; omega)
    · by_cases hind : ip.addrs indSlot = 0
      · exact bmap_indirect hs (by omega) hbn hind
          (by rw [bmapAllocs, if_neg (not_not.mpr h0), if_pos ⟨by omega, hind⟩] at hfree; exact hfree)
      · exact bmap_entry hs (by omega) hbn h0 hind
          (by rw [bmapAllocs, if_neg (not_not.mpr h0), if_neg (by omega)] at hfree; omega)
  · have hallocs : ip.bmapAllocs d bn = 0 := by rw [bmapAllocs, if_pos h0]
    refine ⟨ip, d, bmap_of_mapped h0, ⟨h0, fun _ => rfl, fun h => absurd h h0, fun _ _ => rfl, fun _ _ => rfl, rfl,
      hs, by rw [hallocs, Nat.add_zero], .inl ⟨rfl, by omega⟩⟩, fun _ hy _ => ⟨rfl, hy⟩, fun h => absurd h h0,
      fun h => absurd rfl h⟩

/-- `bmap` returns only for a block below `MAXFILE`, and only when the disk had the
blocks it allocates. -/
theorem bmapAllocs_le_of_some (hs : ip.Sound sb d) {r : ℕ × Disk × InodeData} (h : bmap sb d ip bn = some r) :
    bn < maxfile ∧ ip.bmapAllocs d bn ≤ sb.freeCount d := by
  have hlt : ¬ ndirect ≤ bn ∨ bn - ndirect < nindirect := by
    by_contra hge
    rw [bmap, dif_neg (by omega), if_neg (by omega)] at h
    cases h
  refine ⟨by unfold maxfile; omega, ?_⟩
  by_cases h0 : ip.blockOf d bn = 0
  swap
  · rw [bmapAllocs, if_pos h0]
    omega
  by_cases hd : bn < ndirect
  · -- a direct block: one allocation
    rw [bmap, dif_pos hd, if_pos (by rwa [blockOf_of_lt hd] at h0)] at h
    obtain ⟨_, hb, -⟩ := Option.map_eq_some_iff.mp h
    rw [bmapAllocs, if_neg (not_not.mpr h0), if_neg (by omega)]
    exact Superblock.freeCount_pos_of_balloc hb
  rw [bmap, dif_neg hd, if_pos (by omega)] at h
  by_cases hind : ip.addrs indSlot = 0
  · -- no indirect block: two allocations, the second from the disk after the first
    rw [if_pos hind] at h
    obtain ⟨_, hx, hg⟩ := Option.bind_eq_some_iff.mp h
    obtain ⟨⟨x, d₁⟩, hb, rfl⟩ := Option.map_eq_some_iff.mp hx
    obtain ⟨hxs, hxf, rfl⟩ := Superblock.balloc_some hb
    simp only [Superblock.alloc_self, Block.getU32_zero, if_true] at hg
    obtain ⟨_, hb₂, -⟩ := Option.map_eq_some_iff.mp hg
    have hc := Superblock.freeCount_alloc hs.valid hxs hxf
    have hpos := Superblock.freeCount_pos_of_balloc hb₂
    rw [bmapAllocs, if_neg (not_not.mpr h0), if_pos ⟨by omega, hind⟩]
    omega
  · -- an entry of the indirect block: one allocation
    rw [blockOf_of_ge (by omega), if_neg hind] at h0
    rw [if_neg hind, Option.bind_some, if_pos h0] at h
    obtain ⟨_, hb, -⟩ := Option.map_eq_some_iff.mp h
    rw [bmapAllocs, if_neg (by rw [blockOf_of_ge (by omega), if_neg hind, h0]; exact not_not.mpr rfl),
      if_neg fun h' => hind h'.2]
    exact Superblock.freeCount_pos_of_balloc hb

/-- Whatever `bmap` returns is what `bmap_spec` describes. -/
theorem bmap_some (hs : ip.Sound sb d) {r : ℕ × Disk × InodeData} (h : bmap sb d ip bn = some r) :
    ∃ ip' d', r = (ip'.blockOf d' bn, d', ip') ∧ BmapStep sb ip d bn ip' d' ∧ BmapFrame sb ip d bn ip' d' := by
  obtain ⟨hbn, hfree⟩ := bmapAllocs_le_of_some hs h
  obtain ⟨ip', d', hbm, st, fr⟩ := bmap_spec hs hbn hfree
  exact ⟨ip', d', Option.some.inj (h.symm.trans hbm), st, fr⟩

/-- `bmap` on one file leaves alone every sound file apart from it, which stays
apart from it. -/
theorem InodeData.BmapFrame.leaves {ip₁ ip₂ : InodeData} {d₁ : Disk} (st : BmapStep sb ip d bn ip₁ d₁)
    (fr : BmapFrame sb ip d bn ip₁ d₁) (hs₂ : ip₂.Sound sb d) (hap : ip.Apart ip₂ d) :
    ip₂.Leaves sb d d₁ ∧ ip₁.Apart ip₂ d₁ := by
  have hl : ip₂.Leaves sb d d₁ := hs₂.leaves st.sound.valid fun y hy =>
    fr.keep y (hs₂.owned hy) fun _ he => hap y ⟨hy.1, .inr he.symm⟩ hy
  refine ⟨hl, fun y h₁ h₂ => ?_⟩
  rw [hl.holds_iff] at h₂
  have hused := (hs₂.owned h₂).used
  -- a block the file holds now is one it held, or one that was free
  obtain ⟨hy0, ⟨bn', hbn'⟩ | hind⟩ := h₁
  · by_cases hb : bn' = bn
    · subst hb
      by_cases h0 : ip.blockOf d bn' = 0
      · rw [← hbn', fr.fresh h0] at hused
        exact absurd hused Bool.false_ne_true
      · rw [st.keep h0] at hbn'
        exact hap y ⟨hy0, .inl ⟨bn', hbn'⟩⟩ h₂
    · rw [st.other bn' hb] at hbn'
      exact hap y ⟨hy0, .inl ⟨bn', hbn'⟩⟩ h₂
  · by_cases hi : ip₁.addrs indSlot = ip.addrs indSlot
    · rw [hi] at hind
      exact hap y ⟨hy0, .inr hind⟩ h₂
    · rw [← hind, fr.ind hi] at hused
      exact absurd hused Bool.false_ne_true

end Bmap

/-! ### The copy loops -/

/-- `m = min(n - tot, BSIZE - off%BSIZE)`: one turn of the copy loops, to the end
of the transfer or of the block. -/
def chunk (n tot off : ℕ) : ℕ := min (n - tot) (bsize - off % bsize)

/-- The blocks a transfer of `n` bytes at `off` touches. -/
def spanBlocks (off n : ℕ) : ℕ := if n = 0 then 0 else (off + n - 1) / bsize - off / bsize + 1

/-- The blocks a write of `n` bytes at `off` makes `bmap` allocate: a data block for
each block of the write the file has none for, and the indirect block when the
write reaches past the direct blocks of a file that has none. -/
def InodeData.writeAllocs (ip : InodeData) (d : Disk) (off n : ℕ) : ℕ :=
  ((List.range (spanBlocks off n)).countP fun k => ip.blockOf d (off / bsize + k) = 0) +
    if ip.addrs InodeData.indSlot = 0 ∧ 0 < n ∧ ndirect ≤ (off + n - 1) / bsize then 1 else 0

section Transfer

variable (sb : Superblock)

/-- The loop of `readi`: `for(tot=0; tot<n; tot+=m, off+=m, dst+=m)`, with the
bytes copied to `dst` so far; the disk and the inode after, as `bmap` may
allocate. -/
def readLoop (n : ℕ) : ℕ → Disk → InodeData → ℕ → ℕ → List UInt8 → Option (List UInt8 × Disk × InodeData)
  | 0, _, _, _, _, _ => none
  | fuel + 1, d, ip, tot, off, dst =>
    if tot < n then
      (bmap sb d ip (off / bsize)).bind fun r =>
        readLoop n fuel r.2.1 r.2.2 (tot + chunk n tot off) (off + chunk n tot off)
          (dst ++ (List.range (chunk n tot off)).map fun j => (r.2.1 r.1).toMem (off % bsize + j))
    else some (dst, d, ip)

/-- `readi(ip, dst, off, n)` for an inode that is no device: the count returned, the
bytes copied to `dst`, and the disk and the inode after.  Each turn of the loop
copies a byte at least, so `n + 1` tests of its condition are enough. -/
def readi (d : Disk) (ip : InodeData) (off n : ℕ) : Option (ℤ × List UInt8 × Disk × InodeData) :=
  if ip.size < off ∨ wrap32 (off + n) < off then some (-1, [], d, ip)
  else
    let n := if ip.size < off + n then ip.size - off else n
    (readLoop sb n (n + 1) d ip 0 off []).map fun r => ((n : ℤ), r.1, r.2.1, r.2.2)

/-- The loop of `writei`: `m` bytes of `src` copied into block `off/BSIZE` of the
file at `off%BSIZE`, and `log_write`; the disk, the inode and `off` after. -/
def writeLoop (src : ℕ → UInt8) (n : ℕ) : ℕ → Disk → InodeData → ℕ → ℕ → Option (Disk × InodeData × ℕ)
  | 0, _, _, _, _ => none
  | fuel + 1, d, ip, tot, off =>
    if tot < n then
      (bmap sb d ip (off / bsize)).bind fun r =>
        writeLoop src n fuel
          (Function.update r.2.1 r.1 ((r.2.1 r.1).moveIn (off % bsize) (chunk n tot off) fun j => src (tot + j)))
          r.2.2 (tot + chunk n tot off) (off + chunk n tot off)
    else some (d, ip, off)

/-- `writei(ip, src, off, n)` for an inode that is no device: the count returned,
and the disk and the inode after; `if(n > 0 && off > ip->size) ip->size = off;`
with `off` at the end of the write. -/
def writei (d : Disk) (ip : InodeData) (src : ℕ → UInt8) (off n : ℕ) : Option (ℤ × Disk × InodeData) :=
  if ip.size < off ∨ wrap32 (off + n) < off then some (-1, d, ip)
  else if maxfile * bsize < off + n then some (-1, d, ip)
  else (writeLoop sb src n (n + 1) d ip 0 off).map fun r =>
    ((n : ℤ), r.1, if 0 < n ∧ r.2.1.size < r.2.2 then { r.2.1 with size := r.2.2 } else r.2.1)

variable {sb}

/-! #### One turn -/

section Turn

variable {n tot off : ℕ}

theorem chunk_pos (h : tot < n) : 0 < chunk n tot off := by
  have := Nat.mod_lt off (show 0 < bsize by decide)
  unfold chunk
  omega

theorem chunk_le : chunk n tot off ≤ n - tot := min_le_left _ _

/-- The bytes a turn covers lie in one block, from `off % BSIZE` on. -/
theorem turn_iff {i : ℕ} :
    (i / bsize = off / bsize ∧ off % bsize ≤ i % bsize ∧ i % bsize < off % bsize + chunk n tot off) ↔
      off ≤ i ∧ i < off + chunk n tot off := by
  unfold chunk bsize
  omega

/-- A turn ends the transfer or its block: the blocks left drop by one. -/
theorem spanBlocks_turn (h : tot < n) :
    spanBlocks off (n - tot) = spanBlocks (off + chunk n tot off) (n - (tot + chunk n tot off)) + 1 := by
  unfold spanBlocks chunk bsize
  split_ifs <;> omega

/-- A turn that leaves bytes to write ends its block. -/
theorem div_turn (h : tot + chunk n tot off < n) : (off + chunk n tot off) / bsize = off / bsize + 1 := by
  unfold chunk bsize at *
  omega

/-- What `bmap` allocates for the first block of a write is counted by the write. -/
theorem bmapAllocs_le_writeAllocs (ip : InodeData) (d : Disk) (h : 0 < n) :
    ip.bmapAllocs d (off / bsize) ≤ ip.writeAllocs d off n := by
  have hspan : 0 < spanBlocks off n := by
    unfold spanBlocks
    split_ifs <;> omega
  have hend : off / bsize ≤ (off + n - 1) / bsize := Nat.div_le_div_right (by omega)
  unfold InodeData.bmapAllocs InodeData.writeAllocs
  by_cases h0 : ip.blockOf d (off / bsize) = 0
  · -- the write's first block is one it allocates
    have h1 : 1 ≤ (List.range (spanBlocks off n)).countP fun k => ip.blockOf d (off / bsize + k) = 0 :=
      List.countP_pos_iff.mpr ⟨0, List.mem_range.mpr hspan, by simpa using h0⟩
    rw [if_neg (not_not.mpr h0)]
    split_ifs <;> omega
  · rw [if_pos h0]
    omega

end Turn

/-! #### `readi` -/

section Read

variable {ip : InodeData} {d : Disk}

/-- The read loop over bytes that lie in blocks copies them and changes nothing. -/
theorem readLoop_eq {n : ℕ} :
    ∀ (fuel tot off : ℕ) (dst : List UInt8), n - tot < fuel →
      (∀ j < n - tot, ip.blockOf d ((off + j) / bsize) ≠ 0) →
      readLoop sb n fuel d ip tot off dst =
        some (dst ++ (List.range (n - tot)).map (fun j => ip.byteAt d (off + j)), d, ip) := by
  intro fuel
  -- induction on the turns left; each copies the bytes of one block
  induction fuel with
  | zero => intro _ _ _ h; omega
  | succ fuel ih =>
    intro tot off dst hfuel hfill
    by_cases htot : tot < n
    · have hm : 0 < chunk n tot off := chunk_pos htot
      have hmn : chunk n tot off ≤ n - tot := chunk_le
      have hb : ip.blockOf d (off / bsize) ≠ 0 := by simpa using hfill 0 (by omega)
      have hturn : ((List.range (chunk n tot off)).map fun j => (d (ip.blockOf d (off / bsize))).toMem (off % bsize + j)) =
          (List.range (chunk n tot off)).map fun j => ip.byteAt d (off + j) :=
        List.map_congr_left fun j hj => by
          have hj := List.mem_range.mp hj
          have hq : (off + j) / bsize = off / bsize := by unfold chunk bsize at *; omega
          have hr : (off + j) % bsize = off % bsize + j := by unfold chunk bsize at *; omega
          rw [InodeData.byteAt, hq, hr]
      rw [readLoop, if_pos htot, bmap_of_mapped hb, Option.bind_some,
        ih _ _ _ (by omega) fun j hj => by simpa [Nat.add_assoc] using hfill (chunk n tot off + j) (by omega),
        hturn, show n - tot = chunk n tot off + (n - (tot + chunk n tot off)) by omega, List.range_add,
        List.map_append, List.map_map, List.append_assoc]
      simp only [Function.comp_def, Nat.add_assoc]
    · rw [readLoop, if_neg htot, show n - tot = 0 by omega]
      simp

/-- The bytes `[off, off + k)` of the file. -/
theorem take_drop_content {off k : ℕ} (h : off + k ≤ ip.size) :
    ((ip.content d).drop off).take k = (List.range k).map fun j => ip.byteAt d (off + j) := by
  apply List.ext_getElem
  · simp [InodeData.content]
    omega
  · intro i _ _
    simp [InodeData.content]

/-- **`readi`.**  For a file without holes and `uint` arguments, `readi` fails for
an offset past the end or a sum `off + n` that wraps, and otherwise copies the
`min(n, size - off)` bytes of the file from `off` and changes nothing. -/
theorem readi_eq (hfill : ip.Filled d ip.size) {off n : ℕ} (hoff : off < 2 ^ 32) (hn : n < 2 ^ 32) :
    readi sb d ip off n =
      if ip.size < off ∨ 2 ^ 32 ≤ off + n then some (-1, [], d, ip)
      else some (((min n (ip.size - off) : ℕ) : ℤ), ((ip.content d).drop off).take (min n (ip.size - off)), d, ip) := by
  have hwrap : wrap32 (off + n) < off ↔ 2 ^ 32 ≤ off + n := by
    unfold wrap32
    omega
  rw [readi]
  by_cases hbad : ip.size < off ∨ 2 ^ 32 ≤ off + n
  · rw [if_pos (by rwa [hwrap]), if_pos hbad]
  · rw [if_neg (by rwa [hwrap]), if_neg hbad]
    -- the count is clipped at the end of the file
    have hm : (if ip.size < off + n then ip.size - off else n) = min n (ip.size - off) := by
      split_ifs <;> omega
    simp only [hm]
    rw [readLoop_eq _ 0 off [] (by omega) fun j hj => hfill (off + j) (by omega), Option.map_some,
      take_drop_content (by omega)]
    simp

end Read

/-! #### `writei` -/

section Write

variable {ip ip₁ : InodeData} {d d₁ : Disk} {bn : ℕ}

/-- A store to a data block of the file leaves the file's blocks where they were. -/
theorem blockOf_update_data (hs : ip.Sound sb d) (h : ip.blockOf d bn ≠ 0) (b : Block) (bn' : ℕ) :
    ip.blockOf (Function.update d (ip.blockOf d bn) b) bn' = ip.blockOf d bn' :=
  InodeData.blockOf_congr_disk (fun _ => Function.update_of_ne (hs.ind_ne bn h).symm _ _) bn'

/-- A store to a data block of the file leaves what a write would allocate. -/
theorem writeAllocs_update_data (hs : ip.Sound sb d) (h : ip.blockOf d bn ≠ 0) (b : Block) (off n : ℕ) :
    ip.writeAllocs (Function.update d (ip.blockOf d bn) b) off n = ip.writeAllocs d off n := by
  simp only [InodeData.writeAllocs, blockOf_update_data hs h]

/-- A store to a data block of the file keeps the file sound. -/
theorem InodeData.Sound.update_data (hs : ip.Sound sb d) (h : ip.blockOf d bn ≠ 0) (b : Block) :
    ip.Sound sb (Function.update d (ip.blockOf d bn) b) := by
  have ho := hs.data bn h
  have hb := blockOf_update_data hs h b
  refine ⟨hs.valid.update ho b, fun bn' h' => ?_, fun hi => (hs.ind hi).update ho b,
    fun b₁ b₂ h₁ he => ?_, fun bn' h' => ?_⟩
  · rw [hb] at h' ⊢
    exact (hs.data bn' h').update ho b
  · rw [hb, hb] at he
    rw [hb] at h₁
    exact hs.inj b₁ b₂ h₁ he
  · rw [hb] at h' ⊢
    exact hs.ind_ne bn' h'

/-- Soundness does not read the size. -/
theorem InodeData.Sound.resize (hs : ip.Sound sb d) (s : ℕ) : ({ ip with size := s } : InodeData).Sound sb d :=
  ⟨hs.valid, hs.data, hs.ind, hs.inj, hs.ind_ne⟩

/-- A byte of the file after `m` bytes of `f` were stored in block `bn` at `o`. -/
theorem byteAt_store (hs : ip.Sound sb d) (h : ip.blockOf d bn ≠ 0) (o m : ℕ) (f : ℕ → UInt8) (i : ℕ) :
    ip.byteAt (Function.update d (ip.blockOf d bn) ((d (ip.blockOf d bn)).moveIn o m f)) i =
      if i / bsize = bn ∧ o ≤ i % bsize ∧ i % bsize < o + m then f (i % bsize - o) else ip.byteAt d i := by
  unfold InodeData.byteAt
  rw [blockOf_update_data hs h]
  by_cases hb : i / bsize = bn
  · rw [hb, Function.update_self, Block.toMem_moveIn _ _ _ _ (Nat.mod_lt _ (by decide))]
    simp only [true_and]
  · rw [if_neg fun h' => hb h'.1]
    by_cases h0 : ip.blockOf d (i / bsize) = 0
    · -- a byte in no block reads block `0`, which is no data block
      rw [h0, Function.update_of_ne (Ne.symm h)]
    · rw [Function.update_of_ne fun he => hb (hs.inj _ _ h0 he)]

/-- A byte of the file in a block it had reads the same after `bmap`. -/
theorem InodeData.BmapStep.byteAt_eq (st : InodeData.BmapStep sb ip d bn ip₁ d₁) {i : ℕ}
    (hi : ip.blockOf d (i / bsize) ≠ 0) : ip₁.byteAt d₁ i = ip.byteAt d i := by
  unfold InodeData.byteAt
  have hblk : ip₁.blockOf d₁ (i / bsize) = ip.blockOf d (i / bsize) := by
    by_cases hb : i / bsize = bn
    · rw [hb] at hi ⊢
      exact st.keep hi
    · exact st.other _ hb
  rw [hblk, st.frame _ hi]

/-- A store to a data block of one file leaves alone every sound file apart from it,
which stays apart from it. -/
theorem leaves_store {ip₂ : InodeData} (hs : ip.Sound sb d) (h : ip.blockOf d bn ≠ 0) (hs₂ : ip₂.Sound sb d)
    (hap : ip.Apart ip₂ d) (b : Block) :
    ip₂.Leaves sb d (Function.update d (ip.blockOf d bn) b) ∧ ip.Apart ip₂ (Function.update d (ip.blockOf d bn) b) := by
  have ho := hs.data bn h
  have hl : ip₂.Leaves sb d (Function.update d (ip.blockOf d bn) b) := hs₂.leaves (hs.valid.update ho b) fun y hy => by
    have hne : y ≠ ip.blockOf d bn := fun he => hap y ⟨by rw [he]; exact h, .inl ⟨bn, he.symm⟩⟩ hy
    exact ⟨Function.update_of_ne hne _ _, (hs₂.owned hy).update ho b⟩
  refine ⟨hl, fun y h₁ h₂ => hap y ?_ ((hl.holds_iff y).mp h₂)⟩
  -- the file holds the same blocks after the store
  unfold InodeData.Holds at h₁ ⊢
  simpa only [blockOf_update_data hs h] using h₁

section Turn

variable {n tot off : ℕ}

/-- After a turn of the write loop the file has no holes up to the end of the chunk. -/
theorem InodeData.BmapStep.filled_chunk (st : InodeData.BmapStep sb ip d (off / bsize) ip₁ d₁)
    (hfill : ip.Filled d (max ip.size off)) (b : Block) :
    ip₁.Filled (Function.update d₁ (ip₁.blockOf d₁ (off / bsize)) b) (max ip₁.size (off + chunk n tot off)) := by
  intro i hi
  rw [blockOf_update_data st.sound st.mapped]
  by_cases hb : i / bsize = off / bsize
  · rw [hb]
    exact st.mapped
  · -- a byte past the old end is in the turn's block
    rw [st.other _ hb]
    rw [st.size] at hi
    refine hfill i (Nat.lt_of_not_le fun hge => hb ((@turn_iff n tot off i).mpr ⟨?_, ?_⟩).1)
    all_goals omega

/-- A byte of the file after a turn of the write loop stored the chunk `f[0, m)` at
`off`. -/
theorem InodeData.BmapStep.byteAt_chunk (st : InodeData.BmapStep sb ip d (off / bsize) ip₁ d₁)
    (hfill : ip.Filled d (max ip.size off)) (f : ℕ → UInt8) {i : ℕ} (hi : i < max ip.size (off + chunk n tot off)) :
    ip₁.byteAt (Function.update d₁ (ip₁.blockOf d₁ (off / bsize))
        ((d₁ (ip₁.blockOf d₁ (off / bsize))).moveIn (off % bsize) (chunk n tot off) f)) i =
      if off ≤ i ∧ i < off + chunk n tot off then f (i - off) else ip.byteAt d i := by
  rw [byteAt_store st.sound st.mapped]
  by_cases h₂ : off ≤ i ∧ i < off + chunk n tot off
  · obtain ⟨hq, hlo, hhi⟩ := (@turn_iff n tot off i).mpr h₂
    rw [if_pos ⟨hq, hlo, hhi⟩, if_pos h₂]
    congr 1
    unfold bsize at *
    omega
  · rw [if_neg fun h' => h₂ ((@turn_iff n tot off i).mp h'), if_neg h₂]
    exact st.byteAt_eq (hfill i (by omega))

/-- The blocks a write allocates: those `bmap` allocates for its first block, then
those of the rest of the write from the file `bmap` leaves. -/
theorem InodeData.BmapStep.writeAllocs_turn (st : InodeData.BmapStep sb ip d (off / bsize) ip₁ d₁) (h : tot < n) :
    ip.bmapAllocs d (off / bsize) + ip₁.writeAllocs d₁ (off + chunk n tot off) (n - (tot + chunk n tot off)) ≤
      ip.writeAllocs d off (n - tot) := by
  -- the data blocks: the turn's own, then those after it, which `bmap` left
  have hdata : ((List.range (spanBlocks off (n - tot))).countP fun k => ip.blockOf d (off / bsize + k) = 0) =
      ((List.range (spanBlocks (off + chunk n tot off) (n - (tot + chunk n tot off)))).countP
        fun k => ip₁.blockOf d₁ ((off + chunk n tot off) / bsize + k) = 0) +
      if ip.blockOf d (off / bsize) = 0 then 1 else 0 := by
    rw [spanBlocks_turn h, List.range_succ_eq_map, List.countP_cons, List.countP_map]
    congr 1
    · refine List.countP_congr fun k hk => ?_
      have hrest : tot + chunk n tot off < n := by
        have := List.mem_range.mp hk
        unfold spanBlocks at this
        split_ifs at this <;> omega
      rw [div_turn hrest, st.other _ (by omega), show off / bsize + 1 + k = off / bsize + (k + 1) by omega]
      rfl
    · simp
  have hend : off + chunk n tot off + (n - (tot + chunk n tot off)) - 1 = off + (n - tot) - 1 := by
    have := @chunk_le n tot off
    omega
  have hdiv : off / bsize ≤ (off + (n - tot) - 1) / bsize := Nat.div_le_div_right (by omega)
  unfold InodeData.writeAllocs
  rw [hdata, hend]
  -- the indirect block: kept by `bmap`, or allocated by it for the turn's block
  rcases st.ind with ⟨hi, hal⟩ | ⟨hi0, hi1⟩
  · unfold InodeData.bmapAllocs at hal ⊢
    rw [hi]
    split_ifs at hal ⊢ <;> omega
  · unfold InodeData.bmapAllocs
    simp only [hi1, false_and, if_false, Nat.add_zero]
    split_ifs <;> omega

/-- The free-block budget of the write loop carries over a turn: the blocks `bmap`
took are among those the write allocates. -/
theorem InodeData.BmapStep.budget (st : InodeData.BmapStep sb ip d (off / bsize) ip₁ d₁) (h : tot < n)
    (hfree : ip.writeAllocs d off (n - tot) ≤ sb.freeCount d) :
    ip₁.writeAllocs d₁ (off + chunk n tot off) (n - (tot + chunk n tot off)) ≤ sb.freeCount d₁ := by
  have hturn := st.writeAllocs_turn h
  have hf := st.free
  omega

end Turn

/-- The write loop from byte `tot` of the transfer, when it returns: it ends at
`off₀ + n`, having stored `src[tot, n)` at `[off₀ + tot, off₀ + n)` and kept every
other byte below the new end.  The file stays sound and without holes, and every
sound file apart from it is left alone and stays apart from it. -/
theorem writeLoop_some {src : ℕ → UInt8} {n off₀ : ℕ} :
    ∀ (fuel tot : ℕ) (d : Disk) (ip : InodeData) {d' : Disk} {ip' : InodeData} {off' : ℕ},
      writeLoop sb src n fuel d ip tot (off₀ + tot) = some (d', ip', off') → tot ≤ n → ip.Sound sb d →
      ip.Filled d (max ip.size (off₀ + tot)) →
      off' = off₀ + n ∧ ip'.size = ip.size ∧ ip'.Sound sb d' ∧ ip'.Filled d' (max ip.size (off₀ + n)) ∧
        (∀ i < max ip.size (off₀ + n),
          ip'.byteAt d' i = if off₀ + tot ≤ i ∧ i < off₀ + n then src (i - off₀) else ip.byteAt d i) ∧
        ∀ ip₂ : InodeData, ip₂.Sound sb d → ip.Apart ip₂ d → ip₂.Leaves sb d d' ∧ ip'.Apart ip₂ d' := by
  intro fuel
  -- induction on the turns left; the invariant is what the file holds below its end
  induction fuel with
  | zero => intro _ _ _ _ _ _ h; cases h
  | succ fuel ih =>
    intro tot d ip d' ip' off' h htot hs hfill
    by_cases hlt : tot < n
    · -- one turn: `bmap` of the block, then the store of the chunk
      rw [writeLoop, if_pos hlt] at h
      obtain ⟨r, hbm, h⟩ := Option.bind_eq_some_iff.mp h
      obtain ⟨ip₁, d₁, rfl, st, fr⟩ := bmap_some hs hbm
      dsimp only at h
      rw [Nat.add_assoc off₀ tot] at h
      have hmn : chunk n tot (off₀ + tot) ≤ n - tot := chunk_le
      obtain ⟨hoff, hsize, hs', hfill', hbytes, happ⟩ :=
        ih _ _ ip₁ h (by omega) (st.sound.update_data st.mapped _) (by rw [← Nat.add_assoc]; exact st.filled_chunk hfill _)
      refine ⟨hoff, by rw [hsize, st.size], hs', by rwa [st.size] at hfill', fun i hi => ?_, fun ip₂ hs₂ hap => ?_⟩
      · rw [hbytes i (by rwa [st.size])]
        -- the byte is past the turn, in it, or neither
        by_cases h₁ : off₀ + (tot + chunk n tot (off₀ + tot)) ≤ i ∧ i < off₀ + n
        · rw [if_pos h₁, if_pos ⟨by omega, h₁.2⟩]
        rw [if_neg h₁, st.byteAt_chunk hfill _ (by omega)]
        by_cases h₂ : off₀ + tot ≤ i ∧ i < off₀ + tot + chunk n tot (off₀ + tot)
        · rw [if_pos h₂, if_pos ⟨h₂.1, by omega⟩]
          congr 1
          omega
        · rw [if_neg h₂, if_neg (by omega)]
      · -- the other file is left alone by `bmap`, by the store and by the turns after
        obtain ⟨hl₁, hap₁⟩ := fr.leaves st hs₂ hap
        obtain ⟨hl₂, hap₂⟩ := leaves_store st.sound st.mapped hl₁.sound hap₁ _
        obtain ⟨hl₃, hap₃⟩ := happ ip₂ hl₂.sound hap₂
        exact ⟨(hl₁.trans hl₂).trans hl₃, hap₃⟩
    · rw [writeLoop, if_neg hlt] at h
      simp only [Option.some.injEq, Prod.mk.injEq] at h
      obtain ⟨rfl, rfl, rfl⟩ := h
      have htn : tot = n := by omega
      subst htn
      exact ⟨rfl, rfl, hs, hfill, fun i _ => by rw [if_neg (by omega)], fun ip₂ hs₂ hap => ⟨⟨fun _ _ => rfl, hs₂⟩, hap⟩⟩

/-- The write loop returns when the disk has a free block for each block the rest of
the write allocates. -/
theorem writeLoop_isSome {src : ℕ → UInt8} {n off₀ : ℕ} (hmax : off₀ + n ≤ maxfile * bsize) :
    ∀ (fuel tot : ℕ) (d : Disk) (ip : InodeData), n - tot < fuel → tot ≤ n → ip.Sound sb d →
      ip.writeAllocs d (off₀ + tot) (n - tot) ≤ sb.freeCount d →
      (writeLoop sb src n fuel d ip tot (off₀ + tot)).isSome := by
  intro fuel
  -- induction on the turns left; the budget of free blocks carries over each turn
  induction fuel with
  | zero => intro _ _ _ h; omega
  | succ fuel ih =>
    intro tot d ip hfuel htot hs hfree
    by_cases hlt : tot < n
    · have hm : 0 < chunk n tot (off₀ + tot) := chunk_pos hlt
      have hmn : chunk n tot (off₀ + tot) ≤ n - tot := chunk_le
      have hbn : (off₀ + tot) / bsize < maxfile := by unfold maxfile nindirect bsize at *; omega
      obtain ⟨ip₁, d₁, hbm, st, -⟩ :=
        bmap_spec hs hbn ((bmapAllocs_le_writeAllocs ip d (Nat.sub_pos_of_lt hlt)).trans hfree)
      rw [writeLoop, if_pos hlt, hbm, Option.bind_some, Nat.add_assoc off₀ tot]
      refine ih _ _ ip₁ (by omega) (by omega) (st.sound.update_data st.mapped _) ?_
      rw [Superblock.freeCount_update (st.sound.data _ st.mapped), writeAllocs_update_data st.sound st.mapped,
        ← Nat.add_assoc]
      exact st.budget hlt hfree
    · rw [writeLoop, if_neg hlt]
      rfl

/-- The list `(range L).map f` with `(range n).map g` written over it from `off`. -/
theorem map_range_splice {α : Type*} (f g : ℕ → α) {L off n : ℕ} (h : off ≤ L) :
    ((List.range L).map f).take off ++ (List.range n).map g ++ ((List.range L).map f).drop (off + n) =
      (List.range (max L (off + n))).map fun i => if off ≤ i ∧ i < off + n then g (i - off) else f i := by
  apply List.ext_getElem
  · simp only [List.length_append, List.length_take, List.length_map, List.length_range, List.length_drop]
    omega
  · intro i h₁ h₂
    simp only [List.getElem_append, List.getElem_take, List.getElem_drop, List.getElem_map, List.getElem_range,
      List.length_append, List.length_take, List.length_map, List.length_range]
    split_ifs <;> first | rfl | omega | (congr 1; omega)

/-- **What `writei` does when it returns.**  For a sound file without holes and `uint`
arguments: it failed and changed nothing, or `off` was at most the size and the write
ended within `MAXFILE` blocks, it returned `n`, the file holds its old bytes with
`src[0, n)` written over them from `off`, its size is `max(size, off + n)`, it stays
sound and without holes, and every sound file apart from it is left alone and stays
apart from it. -/
theorem writei_some (hs : ip.Sound sb d) (hfill : ip.Filled d ip.size) {src : ℕ → UInt8} {off n : ℕ} {r : ℤ}
    {d' : Disk} {ip' : InodeData} (h : writei sb d ip src off n = some (r, d', ip')) :
    r = -1 ∧ d' = d ∧ ip' = ip ∨
      r = n ∧ off ≤ ip.size ∧ off + n ≤ maxfile * bsize ∧
        ip'.content d' = (ip.content d).take off ++ (List.range n).map src ++ (ip.content d).drop (off + n) ∧
        ip'.size = max ip.size (off + n) ∧ ip'.Sound sb d' ∧ ip'.Filled d' ip'.size ∧
        ∀ ip₂ : InodeData, ip₂.Sound sb d → ip.Apart ip₂ d → ip₂.Leaves sb d d' ∧ ip'.Apart ip₂ d' := by
  rw [writei] at h
  by_cases hbad : ip.size < off ∨ wrap32 (off + n) < off ∨ maxfile * bsize < off + n
  · -- the checks: `-1` and nothing written
    left
    have hr : some ((-1 : ℤ), d, ip) = some (r, d', ip') := by
      rw [← h]
      by_cases h₁ : ip.size < off ∨ wrap32 (off + n) < off
      · rw [if_pos h₁]
      · rw [if_neg h₁, if_pos (by omega)]
    simp only [Option.some.injEq, Prod.mk.injEq] at hr
    exact ⟨hr.1.symm, hr.2.1.symm, hr.2.2.symm⟩
  right
  rw [if_neg (by omega), if_neg (by omega)] at h
  obtain ⟨⟨d₁, ip₁, off₁⟩, hloop, hr⟩ := Option.map_eq_some_iff.mp h
  simp only [Prod.mk.injEq] at hr
  obtain ⟨rfl, rfl, rfl⟩ := hr
  have hle : off ≤ ip.size := by omega
  obtain ⟨rfl, hsize₁, hs₁, hfill₁, hbytes, hleaves⟩ :=
    @writeLoop_some sb src n off (n + 1) 0 d ip d₁ ip₁ off₁ hloop (Nat.zero_le _) hs
      (by rwa [Nat.add_zero, max_eq_left hle])
  have hcontent : (List.range (max ip.size (off + n))).map (ip₁.byteAt d₁) =
      (ip.content d).take off ++ (List.range n).map src ++ (ip.content d).drop (off + n) := by
    rw [InodeData.content, map_range_splice _ _ hle]
    exact List.map_congr_left fun i hi => by
      rw [hbytes i (List.mem_range.mp hi), Nat.add_zero]
  refine ⟨rfl, hle, by omega, ?_⟩
  -- the size grows to the end of the write
  by_cases hgrow : 0 < n ∧ ip₁.size < off + n
  · rw [if_pos hgrow]
    have hmx : max ip.size (off + n) = off + n := by omega
    rw [hmx] at hcontent hfill₁
    exact ⟨hcontent, hmx.symm, hs₁.resize _, hfill₁, hleaves⟩
  · rw [if_neg hgrow]
    have hmx : max ip.size (off + n) = ip₁.size := by omega
    rw [hmx] at hcontent hfill₁
    exact ⟨hcontent, hmx.symm, hs₁, hfill₁, hleaves⟩

/-- **`writei`.**  For a sound file without holes and `uint` arguments, `writei`
fails for an offset past the end, a sum `off + n` that wraps or a write past
`MAXFILE` blocks.  Otherwise, with a free block for each block the write allocates
(`InodeData.writeAllocs`), it returns `n`, the file holds
its old bytes with `src[0, n)` written over them from `off`, its size is
`max(size, off + n)`, and it stays sound and without holes. -/
theorem writei_spec (hs : ip.Sound sb d) (hfill : ip.Filled d ip.size) (src : ℕ → UInt8) {off n : ℕ}
    (hoff : off < 2 ^ 32) (hn : n < 2 ^ 32) :
    (ip.size < off ∨ 2 ^ 32 ≤ off + n ∨ maxfile * bsize < off + n → writei sb d ip src off n = some (-1, d, ip)) ∧
    (off ≤ ip.size → off + n ≤ maxfile * bsize → ip.writeAllocs d off n ≤ sb.freeCount d →
      ∃ d' ip', writei sb d ip src off n = some ((n : ℤ), d', ip') ∧
        ip'.content d' = (ip.content d).take off ++ (List.range n).map src ++ (ip.content d).drop (off + n) ∧
        ip'.size = max ip.size (off + n) ∧ ip'.Sound sb d' ∧ ip'.Filled d' ip'.size) := by
  have hwrap : wrap32 (off + n) < off ↔ 2 ^ 32 ≤ off + n := by
    unfold wrap32
    omega
  constructor
  · intro hbad
    rw [writei]
    by_cases h₁ : ip.size < off ∨ 2 ^ 32 ≤ off + n
    · rw [if_pos (by rwa [hwrap])]
    · rw [if_neg (by rwa [hwrap]), if_pos (by omega)]
  · intro hle hmax hfree
    have hcap : maxfile * bsize < 2 ^ 32 := by unfold maxfile ndirect nindirect bsize; omega
    -- the loop returns, and then `writei_some` says what it did
    obtain ⟨⟨d₁, ip₁, off₁⟩, hloop⟩ := Option.isSome_iff_exists.mp
      (@writeLoop_isSome sb src n off hmax (n + 1) 0 d ip (by omega) (Nat.zero_le _) hs
        (by rwa [Nat.add_zero, Nat.sub_zero]))
    simp only [Nat.add_zero] at hloop
    have hw : writei sb d ip src off n =
        some ((n : ℤ), d₁, if 0 < n ∧ ip₁.size < off₁ then { ip₁ with size := off₁ } else ip₁) := by
      rw [writei, if_neg (by rw [hwrap]; omega), if_neg (by omega), hloop, Option.map_some]
    rcases writei_some hs hfill hw with ⟨habs, -⟩ | ⟨-, -, -, hc, hsz, hs', hf', -⟩
    · omega
    · exact ⟨_, _, hw, hc, hsz, hs', hf'⟩

/-- **`readi` and `writei` on the content of a file.**  For a sound file without
holes and `uint` arguments `off` and `n`: `readi` fails iff `off` is past the end
or `off + n` wraps, and otherwise copies the `min(n, size - off)` bytes of the
content from `off`.  `writei` fails if `off` is past the end, `off + n` wraps or
the write goes past `MAXFILE` blocks.  Otherwise, when the disk has a free block
for each block the write allocates (each block of the write the file has none for,
and the indirect block when the write needs one the file lacks), it returns `n`,
splices `src[0, n)` into the content at `off` and sets the size to
`max(size, off + n)`. -/
theorem readi_writei_content (hs : ip.Sound sb d) (hfill : ip.Filled d ip.size) (src : ℕ → UInt8) (off n : ℕ)
    (hoff : off < 2 ^ 32) (hn : n < 2 ^ 32) :
    readi sb d ip off n = (if ip.size < off ∨ 2 ^ 32 ≤ off + n then some (-1, [], d, ip)
        else some (((min n (ip.size - off) : ℕ) : ℤ), ((ip.content d).drop off).take (min n (ip.size - off)), d, ip)) ∧
      (ip.size < off ∨ 2 ^ 32 ≤ off + n ∨ maxfile * bsize < off + n → writei sb d ip src off n = some (-1, d, ip)) ∧
      (off ≤ ip.size → off + n ≤ maxfile * bsize → ip.writeAllocs d off n ≤ sb.freeCount d →
        ∃ d' ip', writei sb d ip src off n = some ((n : ℤ), d', ip') ∧
          ip'.content d' = (ip.content d).take off ++ (List.range n).map src ++ (ip.content d).drop (off + n) ∧
          ip'.size = max ip.size (off + n) ∧ ip'.Sound sb d' ∧ ip'.Filled d' ip'.size) :=
  ⟨readi_eq hfill hoff hn, writei_spec hs hfill src hoff hn⟩

/-- A disk of four blocks, all in use, its bitmap in block `1`. -/
def fullDisk : Disk := Function.update (fun _ => Block.zero) 1 ((((Block.zero.setBit 0).setBit 1).setBit 2).setBit 3)

/-- A file of three bytes, held in block `2`. -/
def threeBytes : InodeData := ⟨3, fun k => if k.val = 0 then 2 else 0⟩

theorem threeBytes_blockOf (bn : ℕ) : threeBytes.blockOf fullDisk bn = if bn = 0 then 2 else 0 := by
  by_cases hb : bn < ndirect
  · rw [InodeData.blockOf_of_lt hb]
    rfl
  · have h0 : threeBytes.addrs InodeData.indSlot = 0 := rfl
    rw [InodeData.blockOf_of_ge (by omega), if_pos h0, if_neg (by unfold ndirect at hb; omega)]

theorem threeBytes_sound : threeBytes.Sound ⟨4, 1, by decide⟩ fullDisk := by
  have h0 : threeBytes.addrs InodeData.indSlot = 0 := rfl
  refine ⟨⟨by decide, by decide⟩, fun bn h => ?_, fun h => absurd h0 h, fun bn bn' h he => ?_, fun bn h => ?_⟩
  · rw [threeBytes_blockOf] at h ⊢
    rw [if_pos (by by_contra hb; exact h (if_neg hb))]
    exact ⟨by decide, by decide, by decide⟩
  · rw [threeBytes_blockOf] at h
    rw [threeBytes_blockOf, threeBytes_blockOf] at he
    split_ifs at he h <;> omega
  · rw [h0]
    exact h

/-- `threeBytes` on the full disk: two bytes written over its first two allocate
nothing, and `writei` returns `2`. -/
theorem readi_writei_content_in_place :
    Superblock.freeCount ⟨4, 1, by decide⟩ fullDisk = 0 ∧
      ∃ d' ip', writei ⟨4, 1, by decide⟩ fullDisk threeBytes (fun i => UInt8.ofNat (i + 7)) 0 2 = some (2, d', ip') ∧
        ip'.content d' = [7, 8, 0] ∧ ip'.size = 3 := by
  have hfill : threeBytes.Filled fullDisk threeBytes.size := fun i (hi : i < 3) => by
    rw [threeBytes_blockOf, if_pos (by unfold bsize; omega)]
    decide
  have hfull : Superblock.freeCount ⟨4, 1, by decide⟩ fullDisk = 0 := by decide
  obtain ⟨-, -, hw⟩ := readi_writei_content threeBytes_sound hfill (fun i => UInt8.ofNat (i + 7)) 0 2
    (by decide) (by decide)
  -- the write's one block is the file's block `0`
  obtain ⟨d', ip', hwr, hc, hsize, -⟩ := hw (by decide) (by decide) (by
    rw [hfull, InodeData.writeAllocs]
    simp only [threeBytes_blockOf]
    decide)
  exact ⟨hfull, d', ip', hwr, by rw [hc]; rfl, by rw [hsize]; rfl⟩

/-- With every block in use, the first write to a fresh file reaches
`panic("balloc: out of blocks")` instead of returning `n`. -/
theorem writei_out_of_blocks :
    writei ⟨2, 1, by decide⟩ (Function.update (fun _ => Block.zero) 1 ((Block.zero.setBit 0).setBit 1))
      InodeData.empty (fun _ => 0) 0 1 = none := by
  rfl

end Write

end Transfer

end Xv6
