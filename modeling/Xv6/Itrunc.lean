import Xv6.Inode
import Xv6.Lib.Count

/-!
# Freeing a file's blocks: `bfree` and `itrunc`

`bfree(dev, b)` clears bit `b % BPB` of the bitmap block `BBLOCK(b, sb)`, and
panics with "freeing free block" when that bit is already clear.  `itrunc` frees
every block of a file: each non-zero direct address, then, when the file has an
indirect block, each non-zero entry of it and the indirect block itself.  It
leaves the inode with no blocks and size `0`.  As in `Xv6.Inode`, the disk is the
coherent view the buffer cache gives, and `itrunc`'s closing `iupdate` is not
modelled.

Freeing a sound file never panics.  It frees exactly the file's blocks, each once,
so the free count grows by their number.  It keeps the bitmap valid, and it leaves
every sound file that shares no block with it as it was.

## Main definitions

* `Block.clearBit`, `Superblock.dealloc`, `Superblock.bfree` — `bfree`.
* `Superblock.Freed` — the disk after freeing a list of blocks.
* `Superblock.bfreeSlots` — the two loops of `itrunc` over address slots.
* `InodeData.blocks` — the blocks of a file, in the order `itrunc` frees them.
* `Superblock.itrunc`.

## Main results

* `Superblock.used_dealloc`, `Superblock.freeCount_dealloc` — `bfree` clears one
  bit, and frees one block.
* `Superblock.bfreeSlots_spec` — a loop of `itrunc` frees the blocks its slots
  name, when they are handed-out blocks, each named once.
* `Superblock.itrunc_frees` — `itrunc` of a sound file.
-/

namespace Xv6

namespace Block

/-- `bp->data[bi/8] &= ~m` with `m = 1 << (bi % 8)`: the byte and the `int`
complement of the mask, stored back in the byte. -/
def clearBit (bp : Block) (bi : ℕ) : Block :=
  ofMem (Function.update bp.toMem (bi / 8) (bp.toMem (bi / 8) &&& ~~~UInt8.ofNat (1 <<< (bi % 8))))

/-- Clearing bit `bi` of a bitmap block sets no bit and clears no other one. -/
theorem bitClear_clearBit (bp : Block) {bi bi' : ℕ} (h' : bi' < bpb) :
    (bp.clearBit bi).bitClear bi' = (bp.bitClear bi' || bi' == bi) := by
  have hbyte : bi' / 8 < bsize := by unfold bpb at h'; omega
  rw [bitClear_iff, bitClear_iff, clearBit, toMem_ofMem _ hbyte]
  by_cases hb : bi' / 8 = bi / 8
  · -- the same byte: the mask's complement has every bit of it but `bi % 8`
    have hpow : 2 ^ (bi % 8) < 2 ^ 8 := Nat.pow_lt_pow_right (by norm_num) (Nat.mod_lt _ (by norm_num))
    have hmask : (~~~UInt8.ofNat (1 <<< (bi % 8))).toNat = 2 ^ 8 - (2 ^ (bi % 8) + 1) := by
      rw [UInt8.toNat_not, UInt8.toNat_ofNat', Nat.one_shiftLeft, Nat.mod_eq_of_lt hpow,
        show UInt8.size = 2 ^ 8 from rfl]
      omega
    rw [hb, Function.update_self, UInt8.toNat_and, hmask, Nat.testBit_and, Nat.testBit_two_pow_sub_succ hpow,
      Nat.testBit_two_pow]
    by_cases hbit : bi' % 8 = bi % 8
    · have : bi' = bi := by omega
      simp [this]
    · have : bi' ≠ bi := fun h => hbit (h ▸ rfl)
      simp [this, Ne.symm hbit, Nat.mod_lt]
  · have : bi' ≠ bi := fun h => hb (h ▸ rfl)
    rw [Function.update_of_ne hb]
    simp [this]

end Block

namespace Superblock

variable (sb : Superblock)

/-- What `bfree` does to the disk for block `x`: the bit of `x` cleared in its
bitmap block. -/
def dealloc (d : Disk) (x : ℕ) : Disk :=
  Function.update d (sb.bblock x) ((d (sb.bblock x)).clearBit (x % bpb))

/-- `bfree(dev, b)`; `none` at the `panic("freeing free block")`. -/
def bfree (d : Disk) (b : ℕ) : Option Disk :=
  if (d (sb.bblock b)).bitClear (b % bpb) then none else some (sb.dealloc d b)

/-- One loop of `itrunc`: `if(slot) bfree(ip->dev, slot)` for the slots `js` in
order, each slot read from the disk as it is at its turn. -/
def bfreeSlots (slot : Disk → ℕ → ℕ) : List ℕ → Disk → Option Disk
  | [], d => some d
  | j :: js, d =>
    if slot d j = 0 then bfreeSlots slot js d else (sb.bfree d (slot d j)).bind (bfreeSlots slot js)

/-- `itrunc(ip)`: the disk after, and the inode with no blocks and size `0`; `none`
where a `bfree` panics.  For `i < NDIRECT`, `ip.blockOf d i` is `ip->addrs[i]`,
and `a[j]` is word `j` of the indirect block. -/
def itrunc (d : Disk) (ip : InodeData) : Option (Disk × InodeData) :=
  (sb.bfreeSlots ip.blockOf (List.range ndirect) d).bind fun d =>
    if ip.addrs InodeData.indSlot = 0 then some (d, InodeData.empty)
    else
      (sb.bfreeSlots (fun d j => (d (ip.addrs InodeData.indSlot)).getU32 (4 * j)) (List.range nindirect) d).bind
        fun d => (sb.bfree d (ip.addrs InodeData.indSlot)).map fun d => (d, InodeData.empty)

/-- Blocks that hold no bit of the file system's blocks keep their bytes. -/
def OffBitmap (d d' : Disk) : Prop := ∀ y, (∀ w < sb.size, sb.bblock w ≠ y) → d' y = d y

/-- `d'` is `d` with the blocks of `l` freed: the bitmap stays valid, no block off
the bitmap changes, exactly the bits of `l` are cleared and the free count grows
by the length of `l`. -/
structure Freed (d : Disk) (l : List ℕ) (d' : Disk) : Prop where
  valid : sb.Valid d'
  off : sb.OffBitmap d d'
  used : ∀ y, sb.used d' y = true ↔ sb.used d y = true ∧ y ∉ l
  count : sb.freeCount d' = sb.freeCount d + l.length

variable {sb}

/-! ### One block -/

theorem bfree_eq_none_iff {d : Disk} {x : ℕ} : sb.bfree d x = none ↔ sb.used d x = false := by
  unfold bfree used
  split_ifs with h <;> simp [h]

theorem bfree_of_used {d : Disk} {x : ℕ} (h : sb.used d x = true) : sb.bfree d x = some (sb.dealloc d x) := by
  unfold bfree
  rw [if_neg]
  simpa [used] using h

/-- Two blocks of one bitmap block are the same block when their bits are. -/
theorem eq_of_bblock_eq {x y : ℕ} (hb : sb.bblock y = sb.bblock x) : y % bpb = x % bpb ↔ y = x := by
  unfold bblock at hb
  constructor
  · intro h
    rw [← Nat.div_add_mod y bpb, ← Nat.div_add_mod x bpb, h, show y / bpb = x / bpb by omega]
  · rintro rfl
    rfl

/-- Freeing block `x` clears its bit and no other. -/
theorem used_dealloc (d : Disk) (x y : ℕ) : sb.used (sb.dealloc d x) y = (sb.used d y && y != x) := by
  unfold used dealloc
  by_cases hb : sb.bblock y = sb.bblock x
  · rw [hb, Function.update_self, Block.bitClear_clearBit _ (Nat.mod_lt _ (by decide))]
    have hiff : (y % bpb == x % bpb) = (y == x) := by
      rw [Bool.eq_iff_iff, beq_iff_eq, beq_iff_eq, eq_of_bblock_eq hb]
    rw [hiff, Bool.not_or, bne]
  · rw [Function.update_of_ne hb]
    have : y ≠ x := fun h => hb (h ▸ rfl)
    simp [this]

theorem offBitmap_dealloc {d : Disk} {x : ℕ} (hx : x < sb.size) : sb.OffBitmap d (sb.dealloc d x) :=
  fun _ hy => Function.update_of_ne (hy x hx).symm _ _

theorem OffBitmap.refl (d : Disk) : sb.OffBitmap d d := fun _ _ => rfl

theorem OffBitmap.trans {d d' d'' : Disk} (h₁ : sb.OffBitmap d d') (h₂ : sb.OffBitmap d' d'') :
    sb.OffBitmap d d'' :=
  fun y hy => (h₂ y hy).trans (h₁ y hy)

/-- Each `bfree` of a block in use frees exactly that block. -/
theorem freeCount_dealloc {d : Disk} {x : ℕ} (hx : x < sb.size) (hused : sb.used d x = true) :
    sb.freeCount (sb.dealloc d x) = sb.freeCount d + 1 := by
  unfold freeCount
  -- the free blocks after are those free before, and `x`
  rw [← Count.countP_or_beq List.nodup_range (List.mem_range.mpr hx) (by rw [hused]; rfl)]
  apply List.countP_congr
  intro y _
  rw [used_dealloc, Bool.not_and, bne, Bool.not_not]

/-- Freeing a handed-out block keeps the bitmap blocks and block `0` in use. -/
theorem Valid.dealloc {d : Disk} (hv : sb.Valid d) {x : ℕ} (hx : sb.Owned d x) (hx0 : x ≠ 0) :
    sb.Valid (sb.dealloc d x) where
  bitmap y hy hb := by
    rw [used_dealloc, hv.bitmap y hy hb, Bool.true_and, bne_iff_ne]
    exact hx.not_bitmap y hy
  zero := by rw [used_dealloc, hv.zero, Bool.true_and, bne_iff_ne]; exact hx0.symm

/-! ### Freeing a list of blocks -/

section Freed

variable {d₀ d d' d'' : Disk} {l l' : List ℕ}

theorem Freed.nil (hv : sb.Valid d) : sb.Freed d [] d :=
  ⟨hv, OffBitmap.refl d, fun y => by simp, by simp⟩

theorem Freed.trans (h₁ : sb.Freed d l d') (h₂ : sb.Freed d' l' d'') : sb.Freed d (l ++ l') d'' where
  valid := h₂.valid
  off := h₁.off.trans h₂.off
  used y := by rw [h₂.used, h₁.used, List.mem_append, not_or, and_assoc]
  count := by rw [h₂.count, h₁.count, List.length_append, Nat.add_assoc]

/-- A handed-out block that is not freed stays handed out. -/
theorem Freed.owned (h : sb.Freed d l d') {y : ℕ} (ho : sb.Owned d y) (hy : y ∉ l) : sb.Owned d' y :=
  ⟨ho.lt, (h.used y).mpr ⟨ho.used, hy⟩, ho.not_bitmap⟩

theorem Freed.keep (h : sb.Freed d l d') {y : ℕ} (ho : sb.Owned d y) : d' y = d y :=
  h.off y ho.not_bitmap

theorem freed_dealloc (hv : sb.Valid d) {x : ℕ} (hx : sb.Owned d x) (hx0 : x ≠ 0) :
    sb.Freed d [x] (sb.dealloc d x) where
  valid := hv.dealloc hx hx0
  off := offBitmap_dealloc hx.lt
  used y := by rw [used_dealloc, Bool.and_eq_true, bne_iff_ne, List.mem_singleton]
  count := freeCount_dealloc hx.lt hx.used

/-- One more `bfree`, of a handed-out block not freed yet, frees it. -/
theorem Freed.bfree (h : sb.Freed d₀ l d) {x : ℕ} (ho : sb.Owned d₀ x) (hx0 : x ≠ 0) (hx : x ∉ l) :
    sb.bfree d x = some (sb.dealloc d x) ∧ sb.Freed d₀ (l ++ [x]) (sb.dealloc d x) :=
  have ho' := h.owned ho hx
  ⟨bfree_of_used ho'.used, h.trans (freed_dealloc h.valid ho' hx0)⟩

/-- A sound file none of whose blocks is freed is left alone. -/
theorem Freed.leaves {ip₂ : InodeData} (h : sb.Freed d l d') (hs₂ : ip₂.Sound sb d)
    (hl : ∀ y, ip₂.Holds d y → y ∉ l) : ip₂.Leaves sb d d' :=
  hs₂.leaves h.valid fun y hy => ⟨h.keep (hs₂.owned hy), h.owned (hs₂.owned hy) (hl y hy)⟩

/-- A loop of `itrunc`, run on `d₀` with the blocks `l` already freed, frees the
blocks its slots name, when they are handed-out blocks, none named twice or in
`l`, and the slots lie off the bitmap. -/
theorem bfreeSlots_spec (slot : Disk → ℕ → ℕ) (js : List ℕ) (hf : sb.Freed d₀ l d)
    (hslot : ∀ d', sb.OffBitmap d₀ d' → ∀ j ∈ js, slot d' j = slot d₀ j)
    (hown : ∀ j ∈ js, slot d₀ j ≠ 0 → sb.Owned d₀ (slot d₀ j))
    (hnd : (l ++ (js.map (slot d₀)).filter (· ≠ 0)).Nodup) :
    ∃ d', sb.bfreeSlots slot js d = some d' ∧ sb.Freed d₀ (l ++ (js.map (slot d₀)).filter (· ≠ 0)) d' := by
  -- the invariant: the disk is `d₀` with the slots so far freed
  induction js generalizing d l with
  | nil => exact ⟨d, rfl, by simpa using hf⟩
  | cons j js ih =>
    have hj : slot d j = slot d₀ j := hslot d hf.off j List.mem_cons_self
    have hslot' : ∀ d', sb.OffBitmap d₀ d' → ∀ j' ∈ js, slot d' j' = slot d₀ j' :=
      fun d' h j' hj' => hslot d' h j' (List.mem_cons_of_mem _ hj')
    have hown' : ∀ j' ∈ js, slot d₀ j' ≠ 0 → sb.Owned d₀ (slot d₀ j') :=
      fun j' hj' => hown j' (List.mem_cons_of_mem _ hj')
    by_cases h0 : slot d₀ j = 0
    · -- an empty slot: nothing freed
      have hfil : ((j :: js).map (slot d₀)).filter (· ≠ 0) = (js.map (slot d₀)).filter (· ≠ 0) := by
        simp [h0]
      rw [hfil] at hnd ⊢
      rw [bfreeSlots, if_pos (hj.trans h0)]
      exact ih hf hslot' hown' hnd
    · have hfil : ((j :: js).map (slot d₀)).filter (· ≠ 0) =
          slot d₀ j :: (js.map (slot d₀)).filter (· ≠ 0) := by
        simp [h0]
      rw [hfil] at hnd ⊢
      have hx : slot d₀ j ∉ l := fun hl =>
        List.disjoint_of_nodup_append hnd hl List.mem_cons_self
      obtain ⟨hb, hf₁⟩ := hf.bfree (hown j List.mem_cons_self h0) h0 hx
      rw [bfreeSlots, if_neg (hj ▸ h0), hj, hb, Option.bind_some]
      have hnd₁ : (l ++ [slot d₀ j] ++ (js.map (slot d₀)).filter (· ≠ 0)).Nodup := by
        simpa using hnd
      simpa using ih hf₁ hslot' hown' hnd₁

end Freed

end Superblock

/-! ### The blocks of a file -/

namespace InodeData

variable {ip : InodeData} {d : Disk}

/-- The blocks of the file, in the order `itrunc` frees them: the direct blocks,
the blocks the indirect block lists, and the indirect block. -/
def blocks (ip : InodeData) (d : Disk) : List ℕ :=
  ((List.range maxfile).map (ip.blockOf d) ++ [ip.addrs indSlot]).filter (· ≠ 0)

theorem mem_blocks {y : ℕ} : y ∈ ip.blocks d ↔ ip.Holds d y := by
  unfold blocks Holds
  simp only [List.mem_filter, List.mem_append, List.mem_map, List.mem_range, List.mem_singleton, ne_eq,
    decide_eq_true_eq]
  constructor
  · rintro ⟨⟨bn, -, rfl⟩ | rfl, h0⟩
    · exact ⟨h0, .inl ⟨bn, rfl⟩⟩
    · exact ⟨h0, .inr rfl⟩
  · rintro ⟨h0, ⟨bn, rfl⟩ | rfl⟩
    · exact ⟨.inl ⟨bn, lt_maxfile_of_blockOf h0, rfl⟩, h0⟩
    · exact ⟨.inr rfl, h0⟩

/-- The blocks of a file, split as `itrunc`'s loops free them. -/
theorem blocks_eq (ip : InodeData) (d : Disk) : ip.blocks d =
    ((List.range ndirect).map (ip.blockOf d)).filter (· ≠ 0) ++
      ((List.range nindirect).map fun j => ip.blockOf d (ndirect + j)).filter (· ≠ 0) ++
      [ip.addrs indSlot].filter (· ≠ 0) := by
  rw [blocks, maxfile, List.range_add, List.map_append, List.map_map, List.filter_append, List.filter_append]
  rfl

/-- A sound file holds each of its blocks once. -/
theorem Sound.nodup_blocks {sb : Superblock} (hs : ip.Sound sb d) : (ip.blocks d).Nodup := by
  unfold blocks
  rw [List.filter_append, List.nodup_append]
  refine ⟨?_, (List.nodup_singleton _).filter _, ?_⟩
  · -- the data blocks: `blockOf` is injective where it is not `0`
    rw [List.filter_map]
    refine (List.nodup_range.filter _).map_on fun a ha b _ he => hs.inj a b ?_ he
    simpa using (List.mem_filter.mp ha).2
  · intro a ha b hb
    obtain ⟨bn, -, rfl⟩ := List.mem_map.mp (List.mem_filter.mp ha).1
    rw [List.mem_singleton.mp (List.mem_filter.mp hb).1]
    exact hs.ind_ne bn (by simpa using (List.mem_filter.mp ha).2)

end InodeData

/-! ### `itrunc` -/

namespace Superblock

variable {sb : Superblock} {ip : InodeData} {d : Disk}

/-- `itrunc` of a sound file frees exactly its blocks and never panics. -/
theorem itrunc_freed (hs : ip.Sound sb d) :
    ∃ d', sb.itrunc d ip = some (d', InodeData.empty) ∧ sb.Freed d (ip.blocks d) d' := by
  have hnd := hs.nodup_blocks
  rw [InodeData.blocks_eq] at hnd ⊢
  have hind : ∀ d', sb.OffBitmap d d' → ip.addrs InodeData.indSlot ≠ 0 →
      d' (ip.addrs InodeData.indSlot) = d (ip.addrs InodeData.indSlot) :=
    fun d' h hi => h _ (hs.ind hi).not_bitmap
  -- the loop over the direct blocks
  obtain ⟨d₁, hrun₁, h₁⟩ := bfreeSlots_spec ip.blockOf (List.range ndirect) (Freed.nil hs.valid)
    (fun d' h j _ => InodeData.blockOf_congr_disk (hind d' h) j) (fun j _ h => hs.data j h)
    (by rw [List.nil_append]; exact hnd.sublist ((List.sublist_append_left _ _).trans (List.sublist_append_left _ _)))
  rw [List.nil_append] at h₁
  by_cases h0 : ip.addrs InodeData.indSlot = 0
  · -- no indirect block, so no block past the direct ones
    refine ⟨d₁, by rw [itrunc, hrun₁, Option.bind_some, if_pos h0], ?_⟩
    have hent : ((List.range nindirect).map fun j => ip.blockOf d (ndirect + j)).filter (· ≠ 0) = [] := by
      rw [List.filter_eq_nil_iff]
      intro y hy
      obtain ⟨j, -, rfl⟩ := List.mem_map.mp hy
      simp [InodeData.blockOf_of_ge, h0]
    have hind0 : [ip.addrs InodeData.indSlot].filter (· ≠ 0) = [] := by simp [h0]
    rw [hent, hind0, List.append_nil, List.append_nil]
    exact h₁
  · -- the entries of the indirect block are the file's blocks past the direct ones
    have hent : ∀ d', sb.OffBitmap d d' → ∀ j,
        (d' (ip.addrs InodeData.indSlot)).getU32 (4 * j) = ip.blockOf d (ndirect + j) := by
      intro d' h j
      rw [hind d' h h0, InodeData.blockOf_of_ge (by omega), if_neg h0, Nat.add_sub_cancel_left]
    have hent₀ := hent d (OffBitmap.refl d)
    obtain ⟨d₂, hrun₂, h₂⟩ := bfreeSlots_spec (fun d j => (d (ip.addrs InodeData.indSlot)).getU32 (4 * j))
      (List.range nindirect) h₁ (fun d' h j _ => (hent d' h j).trans (hent₀ j).symm)
      (fun j _ h => by rw [hent₀] at h ⊢; exact hs.data _ h)
      (by simpa [hent₀] using hnd.sublist (List.sublist_append_left _ _))
    -- and last the indirect block itself
    have hx : ip.addrs InodeData.indSlot ∉ ((List.range ndirect).map (ip.blockOf d)).filter (· ≠ 0) ++
        ((List.range nindirect).map fun j => (d (ip.addrs InodeData.indSlot)).getU32 (4 * j)).filter (· ≠ 0) := by
      intro hm
      simp only [hent₀] at hm
      exact List.disjoint_of_nodup_append hnd hm (by simp [h0])
    obtain ⟨hb, h₃⟩ := h₂.bfree (hs.ind h0) h0 hx
    refine ⟨_, by rw [itrunc, hrun₁, Option.bind_some, if_neg h0, hrun₂, Option.bind_some, hb, Option.map_some], ?_⟩
    simpa [h0, hent₀] using h₃

/-- **`itrunc`.**  Truncating a sound file never panics.  It frees exactly the
file's blocks, each once, so the free count grows by their number, keeps the
bitmap valid and leaves the inode empty; every sound file that shares no block
with it is left alone. -/
theorem itrunc_frees (hs : ip.Sound sb d) :
    ∃ d', sb.itrunc d ip = some (d', InodeData.empty) ∧ sb.Freed d (ip.blocks d) d' ∧
      ∀ ip₂ : InodeData, ip₂.Sound sb d → ip.Apart ip₂ d → ip₂.Leaves sb d d' := by
  obtain ⟨d', hrun, hf⟩ := itrunc_freed hs
  refine ⟨d', hrun, hf, fun ip₂ hs₂ hap => hf.leaves hs₂ fun y hy hyb => ?_⟩
  exact hap y (InodeData.mem_blocks.mp hyb) hy

/-- A fresh file given three bytes by `writei`, then truncated. -/
theorem itrunc_frees_written :
    ∃ d₁ ip₁, writei ⟨4, 1, by decide⟩ (Function.update (fun _ => Block.zero) 1 ((Block.zero.setBit 0).setBit 1))
        InodeData.empty (fun i => UInt8.ofNat (i + 7)) 0 3 = some (3, d₁, ip₁) ∧
      ∃ d₂, Superblock.itrunc ⟨4, 1, by decide⟩ d₁ ip₁ = some (d₂, InodeData.empty) ∧
        Superblock.Freed ⟨4, 1, by decide⟩ d₁ (ip₁.blocks d₁) d₂ := by
  have hv : Superblock.Valid ⟨4, 1, by decide⟩
      (Function.update (fun _ => Block.zero) 1 ((Block.zero.setBit 0).setBit 1)) := ⟨by decide, by decide⟩
  obtain ⟨-, hw⟩ := writei_spec (InodeData.Sound.empty hv) (fun i h => absurd h (Nat.not_lt_zero i))
    (fun i => UInt8.ofNat (i + 7)) (show (0 : ℕ) < 2 ^ 32 by decide) (show (3 : ℕ) < 2 ^ 32 by decide)
  obtain ⟨d₁, ip₁, hwr, -, -, hs₁, -⟩ := hw (Nat.le_refl 0) (by decide) (by decide)
  obtain ⟨d₂, hrun, hf, -⟩ := itrunc_frees hs₁
  exact ⟨d₁, ip₁, hwr, d₂, hrun, hf⟩

end Superblock

end Xv6
