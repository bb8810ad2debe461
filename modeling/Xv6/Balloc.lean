import Xv6.Disk

/-!
# The block allocator

`balloc` in `fs.c` hands out disk blocks from the free-block bitmap: bit
`b % BPB` of the bitmap block `BBLOCK(b, sb) = b / BPB + sb.bmapstart` is set when
block `b` is in use.  It reads the bitmap blocks in order and the bits of each in
order, and for the first clear bit below `sb.size` it sets the bit, zeroes the
block with `bzero` and returns its number; when every block is in use it panics.
The buffer cache is coherent, so a block is seen as the cache holds it, and a
disk here is that view.

The bit test `(bp->data[bi/8] & m) == 0` with `m = 1 << (bi % 8)` is on the byte
promoted to `int`, and `bp->data[bi/8] |= m` stores the `int` back in the byte.

## Main definitions

* `Superblock` — the fields of `struct superblock` the allocator reads.
* `Superblock.used` — whether a block's bit is set.
* `ballocBits`, `ballocLoop`, `Superblock.balloc` — the two loops of `balloc`.
* `Superblock.alloc` — what `balloc` does to the disk for the block it returns.
* `Superblock.freeCount` — the number of free blocks.

## Main results

* `Superblock.balloc_eq_find` — `balloc` returns the first free block below
  `sb.size`, marked and zeroed, and panics when there is none.
* `Superblock.used_alloc` — marking a block leaves every other block's bit as it
  was, when the bitmap blocks are themselves in use.
* `Superblock.freeCount_alloc` — each allocation takes exactly one free block.
-/

namespace Xv6

/-- `BPB`: bitmap bits per block. -/
def bpb : ℕ := bsize * 8

/-! ### Bits of a bitmap block -/

namespace Block

/-- `(bp->data[bi/8] & m) == 0` with `m = 1 << (bi % 8)`. -/
def bitClear (bp : Block) (bi : ℕ) : Bool := (bp.toMem (bi / 8)).toNat &&& 1 <<< (bi % 8) == 0

/-- `bp->data[bi/8] |= m` with `m = 1 << (bi % 8)`. -/
def setBit (bp : Block) (bi : ℕ) : Block :=
  ofMem (Function.update bp.toMem (bi / 8) (UInt8.ofNat ((bp.toMem (bi / 8)).toNat ||| 1 <<< (bi % 8))))

/-- The zero block `memset(bp->data, 0, BSIZE)` leaves. -/
def zero : Block := fun _ => 0

end Block

/-- `bzero(dev, bno)`. -/
def bzero (d : Disk) (bno : ℕ) : Disk := Function.update d bno Block.zero

namespace Block

theorem bitClear_iff (bp : Block) (bi : ℕ) :
    bp.bitClear bi = !(bp.toMem (bi / 8)).toNat.testBit (bi % 8) := by
  rw [bitClear, Nat.one_shiftLeft, Nat.and_two_pow]
  cases (bp.toMem (bi / 8)).toNat.testBit (bi % 8) <;> simp

/-- Setting bit `bi` of a bitmap block clears no bit and sets no other one. -/
theorem bitClear_setBit (bp : Block) {bi bi' : ℕ} (h' : bi' < bpb) :
    (bp.setBit bi).bitClear bi' = (bp.bitClear bi' && bi' != bi) := by
  have hbyte : bi' / 8 < bsize := by unfold bpb at h'; omega
  rw [bitClear_iff, bitClear_iff, setBit, toMem_ofMem _ hbyte]
  by_cases hb : bi' / 8 = bi / 8
  · -- the same byte: its bits are the old ones and bit `bi % 8`
    have hlt : (bp.toMem (bi / 8)).toNat ||| 1 <<< (bi % 8) < 2 ^ 8 :=
      Nat.or_lt_two_pow (UInt8.toNat_lt _) (by rw [Nat.one_shiftLeft]; exact Nat.pow_lt_pow_right (by norm_num) (by omega))
    rw [hb, Function.update_self, UInt8.toNat_ofNat', Nat.mod_eq_of_lt hlt, Nat.testBit_or,
      Nat.one_shiftLeft, Nat.testBit_two_pow]
    by_cases hbit : bi' % 8 = bi % 8
    · have : bi' = bi := by omega
      simp [this]
    · have : bi' ≠ bi := fun h => hbit (h ▸ rfl)
      simp [this, Ne.symm hbit]
  · have : bi' ≠ bi := fun h => hb (h ▸ rfl)
    rw [Function.update_of_ne hb]
    simp [this]

end Block

/-! ### The superblock and the bitmap -/

/-- The fields of `struct superblock` that `balloc` reads: the number of blocks,
a `uint`, and the first bitmap block. -/
structure Superblock where
  size : ℕ
  bmapstart : ℕ
  size_lt : size < 2 ^ 32

namespace Superblock

variable (sb : Superblock)

/-- `BBLOCK(b, sb)`: the bitmap block that holds block `b`'s bit. -/
def bblock (b : ℕ) : ℕ := b / bpb + sb.bmapstart

/-- Block `b` is in use: its bit is set. -/
def used (d : Disk) (b : ℕ) : Bool := !(d (sb.bblock b)).bitClear (b % bpb)

/-- What `balloc` does to the disk when it returns block `x`: the bit of `x` set
in its bitmap block, and then `x` zeroed. -/
def alloc (d : Disk) (x : ℕ) : Disk :=
  bzero (Function.update d (sb.bblock x) ((d (sb.bblock x)).setBit (x % bpb))) x

/-- The inner loop of `balloc` over the bits of the bitmap block `bp` of the
blocks from `b` on: `for(bi = 0; bi < BPB && b + bi < sb.size; bi++)`, the first
`bi` whose bit is clear, within `fuel` turns. -/
def ballocBits (bp : Block) (b : ℕ) : ℕ → ℕ → Option ℕ
  | 0, _ => none
  | fuel + 1, bi =>
    if bi < bpb ∧ b + bi < sb.size then
      if bp.bitClear bi then some bi else ballocBits bp b fuel (bi + 1)
    else none

/-- The outer loop of `balloc`: `for(b = 0; b < sb.size; b += BPB)`, one bitmap
block a turn; the block handed out and the disk after, or `none` at the
`panic("balloc: out of blocks")`. -/
def ballocLoop (d : Disk) : ℕ → ℕ → Option (ℕ × Disk)
  | 0, _ => none
  | fuel + 1, b =>
    if b < sb.size then
      match sb.ballocBits (d (sb.bblock b)) b bpb 0 with
      | some bi => some (b + bi, sb.alloc d (b + bi))
      | none => ballocLoop d fuel (b + bpb)
    else none

/-- `balloc(dev)`: the outer loop runs at most `sb.size / BPB + 1` times. -/
def balloc (d : Disk) : Option (ℕ × Disk) := sb.ballocLoop d (sb.size / bpb + 1) 0

/-- The number of free blocks below `sb.size`. -/
def freeCount (d : Disk) : ℕ := (List.range sb.size).countP fun x => !sb.used d x

/-- The bitmap blocks that hold bits of the file system's blocks, where they lie
inside it, are marked in use, and so is block `0`, which `bmap` reads as "no
block". -/
structure Valid (d : Disk) : Prop where
  bitmap : ∀ y < sb.size, sb.bblock y < sb.size → sb.used d (sb.bblock y) = true
  zero : sb.used d 0 = true

/-- A block the allocator has handed out: inside the file system, in use, and no
bitmap block. -/
structure Owned (d : Disk) (x : ℕ) : Prop where
  lt : x < sb.size
  used : sb.used d x = true
  not_bitmap : ∀ y < sb.size, sb.bblock y ≠ x

/-! ### `balloc` is first fit -/

variable {sb}

/-- The bit the inner loop tests for `bi` is the bit of block `b + bi`. -/
theorem bitClear_eq_used {d : Disk} {b bi : ℕ} (hb : b % bpb = 0) (hbi : bi < bpb) :
    (d (sb.bblock b)).bitClear bi = !sb.used d (b + bi) := by
  have hdiv : (b + bi) / bpb = b / bpb := by
    have : 0 < bpb := by decide
    rw [Nat.add_div_of_dvd_right (Nat.dvd_of_mod_eq_zero hb), Nat.div_eq_of_lt hbi, Nat.add_zero]
  have hmod : (b + bi) % bpb = bi := by unfold bpb bsize at *; omega
  simp [used, bblock, hdiv, hmod]

/-- With enough turns, the inner loop finds the first free block among
`b + bi, …` in its bitmap block and below `sb.size`. -/
theorem ballocBits_eq_find {d : Disk} {b : ℕ} (hb : b % bpb = 0) :
    ∀ (fuel bi : ℕ), bpb ≤ bi + fuel →
      sb.ballocBits (d (sb.bblock b)) b fuel bi =
        ((List.range' (b + bi) (min (bpb - bi) (sb.size - (b + bi)))).find? fun x => !sb.used d x).map
          (· - b) := by
  intro fuel
  -- induction on the turns left, one bit a turn
  induction fuel with
  | zero =>
    intro bi hbi
    rw [show min (bpb - bi) (sb.size - (b + bi)) = 0 by omega]
    rfl
  | succ fuel ih =>
    intro bi hbi
    rw [ballocBits]
    split_ifs with hin hclear
    · -- the bit of `b + bi` is clear
      rw [bitClear_eq_used hb hin.1] at hclear
      rw [show min (bpb - bi) (sb.size - (b + bi)) = (min (bpb - bi) (sb.size - (b + bi)) - 1) + 1 by omega,
        List.range'_succ]
      simp [hclear]
    · rw [bitClear_eq_used hb hin.1] at hclear
      rw [ih (bi + 1) (by omega),
        show min (bpb - bi) (sb.size - (b + bi)) = min (bpb - (bi + 1)) (sb.size - (b + (bi + 1))) + 1 by omega,
        List.range'_succ, List.find?_cons_of_neg (by simpa using hclear), Nat.add_assoc]
    · rw [show min (bpb - bi) (sb.size - (b + bi)) = 0 by omega]
      rfl

/-- With enough turns, the outer loop hands out the first free block from `b` on. -/
theorem ballocLoop_eq_find {d : Disk} :
    ∀ (fuel b : ℕ), b % bpb = 0 → sb.size ≤ b + bpb * fuel →
      sb.ballocLoop d fuel b =
        ((List.range' b (sb.size - b)).find? fun x => !sb.used d x).map fun x => (x, sb.alloc d x) := by
  intro fuel
  -- induction on the bitmap blocks left
  induction fuel with
  | zero =>
    intro b _ hle
    rw [show sb.size - b = 0 by omega]
    rfl
  | succ fuel ih =>
    intro b hb hle
    rw [ballocLoop]
    split_ifs with hlt
    · -- this bitmap block's blocks first, then the rest
      have hsplit : List.range' b (sb.size - b) =
          List.range' b (min bpb (sb.size - b)) ++ List.range' (b + bpb) (sb.size - (b + bpb)) := by
        by_cases hfull : bpb ≤ sb.size - b
        · rw [show min bpb (sb.size - b) = bpb by omega, List.range'_append_1,
            show bpb + (sb.size - (b + bpb)) = sb.size - b by omega]
        · rw [show min bpb (sb.size - b) = sb.size - b by omega, show sb.size - (b + bpb) = 0 by omega,
            List.range'_zero, List.append_nil]
      have hbits := @ballocBits_eq_find sb d b hb bpb 0 (by omega)
      rw [Nat.add_zero, Nat.sub_zero] at hbits
      rw [hbits, hsplit, List.find?_append]
      cases hf : (List.range' b (min bpb (sb.size - b))).find? fun x => !sb.used d x with
      | some x =>
        have hx : b ≤ x := (List.mem_range'_1.mp (List.mem_of_find?_eq_some hf)).1
        simp [Nat.add_sub_cancel' hx]
      | none =>
        rw [Option.map_none, Option.none_or]
        exact ih (b + bpb) (by rw [Nat.add_mod_right]; exact hb) (by rw [Nat.mul_add_one] at hle; omega)
    · rw [show sb.size - b = 0 by omega]
      rfl

/-- **`balloc` is first fit.**  It hands out the first block below `sb.size`
whose bit is clear, with the bit set and the block zeroed, and panics when every
block is in use. -/
theorem balloc_eq_find (d : Disk) :
    sb.balloc d = ((List.range sb.size).find? fun x => !sb.used d x).map fun x => (x, sb.alloc d x) := by
  rw [balloc, ballocLoop_eq_find _ 0 (Nat.zero_mod _) ?_, List.range_eq_range', Nat.sub_zero]
  have := Nat.lt_div_mul_add (a := sb.size) (show 0 < bpb by decide)
  rw [Nat.mul_comm] at this
  rw [Nat.mul_add_one]
  omega

/-- What `balloc` returns is a free block, and the disk is as `alloc` leaves it. -/
theorem balloc_some {d d' : Disk} {x : ℕ} (h : sb.balloc d = some (x, d')) :
    x < sb.size ∧ sb.used d x = false ∧ d' = sb.alloc d x := by
  rw [balloc_eq_find] at h
  obtain ⟨x', hx', hxd⟩ := Option.map_eq_some_iff.mp h
  obtain ⟨rfl, rfl⟩ := Prod.mk.inj hxd
  have hfree := List.find?_some hx'
  exact ⟨List.mem_range.mp (List.mem_of_find?_eq_some hx'), by simpa using hfree, rfl⟩

/-- `balloc` panics exactly when no block below `sb.size` is free. -/
theorem balloc_eq_none_iff (d : Disk) : sb.balloc d = none ↔ sb.freeCount d = 0 := by
  rw [balloc_eq_find, Option.map_eq_none_iff, List.find?_eq_none, freeCount, List.countP_eq_zero]

theorem freeCount_pos_of_balloc {d : Disk} {r : ℕ × Disk} (h : sb.balloc d = some r) : 0 < sb.freeCount d :=
  Nat.pos_of_ne_zero fun h0 => by
    rw [(balloc_eq_none_iff d).mpr h0] at h
    cases h

/-! ### What an allocation changes -/

/-- An allocation writes the bitmap block of `x` and `x` itself, and nothing else. -/
theorem alloc_of_ne {d : Disk} {x y : ℕ} (hx : y ≠ x) (hb : y ≠ sb.bblock x) : sb.alloc d x y = d y := by
  rw [alloc, bzero, Function.update_of_ne hx, Function.update_of_ne hb]

@[simp] theorem alloc_self (d : Disk) (x : ℕ) : sb.alloc d x x = Block.zero := by
  rw [alloc, bzero, Function.update_self]

/-- A free block is no bitmap block that holds bits of the file system. -/
theorem ne_bblock_of_free {d : Disk} (hv : sb.Valid d) {x : ℕ} (hx : x < sb.size)
    (hfree : sb.used d x = false) {y : ℕ} (hy : y < sb.size) : sb.bblock y ≠ x := by
  intro h
  have := hv.bitmap y hy (h ▸ hx)
  rw [h, hfree] at this
  exact Bool.false_ne_true this

/-- Marking block `x` in use sets its bit and no other, when the bitmap blocks are
in use and `x` is free. -/
theorem used_alloc {d : Disk} (hv : sb.Valid d) {x : ℕ} (hx : x < sb.size) (hfree : sb.used d x = false)
    {y : ℕ} (hy : y < sb.size) : sb.used (sb.alloc d x) y = (sb.used d y || y == x) := by
  have hne : sb.bblock y ≠ x := ne_bblock_of_free hv hx hfree hy
  rw [used, used, alloc, bzero, Function.update_of_ne hne]
  by_cases hb : sb.bblock y = sb.bblock x
  · rw [hb, Function.update_self, Block.bitClear_setBit _ (Nat.mod_lt _ (by decide))]
    -- the same bitmap block: the same bit only for the same block
    have hiff : (y % bpb != x % bpb) = (y != x) := by
      unfold bblock at hb
      have : y % bpb = x % bpb ↔ y = x := ⟨fun h => by
        rw [← Nat.div_add_mod y bpb, ← Nat.div_add_mod x bpb, h, show y / bpb = x / bpb by omega], fun h => h ▸ rfl⟩
      rw [Bool.eq_iff_iff, bne_iff_ne, bne_iff_ne, ne_eq, ne_eq, this]
    rw [hiff, bne, Bool.not_and, Bool.not_not]
  · rw [Function.update_of_ne hb]
    have : y ≠ x := fun h => hb (h ▸ rfl)
    simp [this]

/-- An allocation keeps the bitmap blocks and block `0` in use. -/
theorem valid_alloc {d : Disk} (hv : sb.Valid d) {x : ℕ} (hx : x < sb.size) (hfree : sb.used d x = false) :
    sb.Valid (sb.alloc d x) where
  bitmap y hy hb := by rw [used_alloc hv hx hfree hb, hv.bitmap y hy hb, Bool.true_or]
  zero := by
    have h0 : 0 < sb.size := lt_of_le_of_lt (Nat.zero_le _) hx
    rw [used_alloc hv hx hfree h0, hv.zero, Bool.true_or]

/-- A block handed out earlier stays handed out, and so is the new one. -/
theorem Owned.alloc {d : Disk} (hv : sb.Valid d) {x y : ℕ} (hx : x < sb.size) (hfree : sb.used d x = false)
    (ho : sb.Owned d y) : sb.Owned (sb.alloc d x) y :=
  ⟨ho.lt, by rw [used_alloc hv hx hfree ho.lt, ho.used, Bool.true_or], ho.not_bitmap⟩

theorem owned_alloc_self {d : Disk} (hv : sb.Valid d) {x : ℕ} (hx : x < sb.size) (hfree : sb.used d x = false) :
    sb.Owned (sb.alloc d x) x :=
  ⟨hx, by rw [used_alloc hv hx hfree hx, beq_self_eq_true, Bool.or_true],
    fun _ hy => ne_bblock_of_free hv hx hfree hy⟩

/-- A block handed out is not free, so an allocation never returns it. -/
theorem Owned.ne_of_free {d : Disk} {x y : ℕ} (ho : sb.Owned d y) (hfree : sb.used d x = false) : y ≠ x := by
  rintro rfl
  rw [ho.used] at hfree
  exact absurd hfree.symm Bool.false_ne_true

/-- An allocation leaves every handed-out block's contents as they were. -/
theorem alloc_of_owned {d : Disk} {x y : ℕ} (hx : x < sb.size) (hfree : sb.used d x = false)
    (ho : sb.Owned d y) : sb.alloc d x y = d y :=
  alloc_of_ne (ho.ne_of_free hfree) (ho.not_bitmap x hx).symm

/-- Each allocation takes exactly one free block. -/
theorem freeCount_alloc {d : Disk} (hv : sb.Valid d) {x : ℕ} (hx : x < sb.size) (hfree : sb.used d x = false) :
    sb.freeCount (sb.alloc d x) + 1 = sb.freeCount d := by
  unfold freeCount
  have hcongr : (List.range sb.size).countP (fun y => !sb.used (sb.alloc d x) y) =
      (List.range sb.size).countP (fun y => !sb.used d y && y != x) :=
    List.countP_congr fun y hy => by
      rw [used_alloc hv hx hfree (List.mem_range.mp hy), Bool.not_or]
      rfl
  -- the free blocks are those that stay free, and `x`
  have hx1 : (List.range sb.size).countP (fun y => !sb.used d y && !(y != x)) = 1 := by
    rw [← List.count_eq_one_of_mem List.nodup_range (List.mem_range.mpr hx), List.count]
    apply List.countP_congr
    intro y _
    by_cases h : y = x <;> simp [h, hfree]
  have hsplit := List.countP_eq_countP_filter_add (List.range sb.size) (fun y => !sb.used d y) (fun y => y != x)
  rw [List.countP_filter, List.countP_filter, hx1] at hsplit
  rw [hcongr, hsplit]

/-- When some block is free, `balloc` hands one out. -/
theorem balloc_of_free {d : Disk} (h : 0 < sb.freeCount d) :
    ∃ x, sb.balloc d = some (x, sb.alloc d x) ∧ x < sb.size ∧ sb.used d x = false := by
  rcases hb : sb.balloc d with _ | ⟨x, d'⟩
  · rw [balloc_eq_none_iff] at hb
    omega
  · obtain ⟨hx, hf, rfl⟩ := balloc_some hb
    exact ⟨x, rfl, hx, hf⟩

/-! ### Stores to blocks the allocator handed out -/

/-- A store to a block that is no bitmap block leaves every bit. -/
theorem used_update {d : Disk} {y z : ℕ} (hy : sb.Owned d y) (hz : z < sb.size) (b : Block) :
    sb.used (Function.update d y b) z = sb.used d z := by
  rw [used, used, Function.update_of_ne (hy.not_bitmap z hz)]

theorem Valid.update {d : Disk} {y : ℕ} (hv : sb.Valid d) (hy : sb.Owned d y) (b : Block) :
    sb.Valid (Function.update d y b) where
  bitmap w hw hb := by rw [used_update hy hb]; exact hv.bitmap w hw hb
  zero := by rw [used_update hy (lt_of_le_of_lt (Nat.zero_le _) hy.lt)]; exact hv.zero

theorem Owned.update {d : Disk} {x y : ℕ} (hx : sb.Owned d x) (hy : sb.Owned d y) (b : Block) :
    sb.Owned (Function.update d y b) x :=
  ⟨hx.lt, by rw [used_update hy hx.lt]; exact hx.used, hx.not_bitmap⟩

theorem freeCount_update {d : Disk} {y : ℕ} (hy : sb.Owned d y) (b : Block) :
    sb.freeCount (Function.update d y b) = sb.freeCount d :=
  List.countP_congr fun z hz => by rw [used_update hy (List.mem_range.mp hz)]

end Superblock

end Xv6
