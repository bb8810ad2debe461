import Xv6.Param
import Xv6.Lib.LittleEndian

/-!
# Disk blocks and the log header

A disk is an array of `BSIZE`-byte blocks.  The only block whose bytes the log
layer interprets is the log header, the image of `struct logheader` at the start
of its block: the `int` count `n`, then the block numbers `block[0..n)`.

## Main definitions

* `Block`, `Block.getU32`, `Block.setU32` — blocks and their little-endian words.
* `Disk`, `applyWrites` — the disk, and a sequence of block writes applied to it.
* `readHead`, `writeHead` — `read_head` and `write_head`'s view of the header block.

## Main results

* `readHead_writeHead` — the header reads back what was written, for at most
  `LOGSIZE` block numbers below `2 ^ 32`.
* `writeHead_nil_idem` — clearing the header twice is clearing it once.
-/

namespace Xv6

/-! ### Blocks -/

/-- The contents of a disk block. -/
def Block := Fin bsize → UInt8

namespace Block

/-- A block as a byte memory, zero past its end. -/
def toMem (b : Block) : ℕ → UInt8 := fun a => if h : a < bsize then b ⟨a, h⟩ else 0

/-- The block holding the first `BSIZE` bytes of a byte memory. -/
def ofMem (m : ℕ → UInt8) : Block := fun i => m i

theorem toMem_ofMem (m : ℕ → UInt8) {a : ℕ} (h : a < bsize) : (ofMem m).toMem a = m a := by
  simp [toMem, ofMem, h]

/-- The `uint` at byte offset `off`. -/
def getU32 (b : Block) (off : ℕ) : ℕ := LittleEndian.read b.toMem off 4

/-- Store the `uint` `v` at byte offset `off`. -/
def setU32 (b : Block) (off v : ℕ) : Block := ofMem (LittleEndian.write b.toMem off 4 v)

theorem getU32_setU32 (b : Block) (off off' v : ℕ) (h' : off' + 4 ≤ bsize) :
    (b.setU32 off v).getU32 off' = LittleEndian.read (LittleEndian.write b.toMem off 4 v) off' 4 :=
  LittleEndian.read_congr fun a _ ha => toMem_ofMem _ (by omega)

theorem getU32_setU32_self (b : Block) {off v : ℕ} (h : off + 4 ≤ bsize) (hv : v < 2 ^ 32) :
    (b.setU32 off v).getU32 off = v := by
  rw [getU32_setU32 b off off v h]
  exact LittleEndian.read_write_self _ _ _ (by simpa using hv)

theorem getU32_setU32_of_disjoint (b : Block) {off off' v : ℕ} (h' : off' + 4 ≤ bsize)
    (hd : off' + 4 ≤ off ∨ off + 4 ≤ off') : (b.setU32 off v).getU32 off' = b.getU32 off' := by
  rw [getU32_setU32 b off off' v h']
  exact LittleEndian.read_write_of_disjoint hd

theorem setU32_setU32_self (b : Block) (off v w : ℕ) :
    (b.setU32 off v).setU32 off w = b.setU32 off w := by
  funext i
  have hi : (i : ℕ) < bsize := i.isLt
  simp only [setU32, ofMem, LittleEndian.write]
  split_ifs
  · rfl
  · simp only [toMem, hi, dite_true, ofMem, LittleEndian.write]
    rw [if_neg (by omega)]

end Block

/-! ### Disks and writes -/

/-- The disk: a block for every block number. -/
abbrev Disk := ℕ → Block

/-- One block written to the disk. -/
abbrev Write := ℕ × Block

/-- The disk after the writes `ws`, in order. -/
def applyWrites (d : Disk) : List Write → Disk
  | [] => d
  | w :: ws => applyWrites (Function.update d w.1 w.2) ws

@[simp] theorem applyWrites_nil (d : Disk) : applyWrites d [] = d := rfl

@[simp] theorem applyWrites_cons (d : Disk) (w : Write) (ws : List Write) :
    applyWrites d (w :: ws) = applyWrites (Function.update d w.1 w.2) ws := rfl

theorem applyWrites_append (d : Disk) (ws ws' : List Write) :
    applyWrites d (ws ++ ws') = applyWrites (applyWrites d ws) ws' := by
  induction ws generalizing d with
  | nil => rfl
  | cons w ws ih => exact ih _

/-- A block that no write names keeps its contents. -/
theorem applyWrites_of_not_mem {d : Disk} {b : ℕ} :
    ∀ {ws : List Write}, (∀ w ∈ ws, w.1 ≠ b) → applyWrites d ws b = d b
  | [], _ => rfl
  | w :: ws, h => by
    rw [applyWrites_cons, applyWrites_of_not_mem fun w' hw' => h w' (List.mem_cons_of_mem _ hw')]
    exact Function.update_of_ne (h w List.mem_cons_self).symm _ _

/-- A block's contents after writes depend on its contents before them only. -/
theorem applyWrites_congr {d e : Disk} {b : ℕ} (h : d b = e b) :
    ∀ ws : List Write, applyWrites d ws b = applyWrites e ws b := by
  intro ws
  induction ws generalizing d e with
  | nil => exact h
  | cons w ws ih =>
    apply ih
    by_cases hb : b = w.1
    · subst hb; simp
    · simp [Function.update_of_ne hb, h]

/-- A block written exactly once holds what was written. -/
theorem applyWrites_of_mem {d : Disk} {b : ℕ} {v : Block} :
    ∀ {ws : List Write}, (ws.map Prod.fst).Nodup → (b, v) ∈ ws → applyWrites d ws b = v
  | [], _, h => by simp at h
  | w :: ws, hnd, h => by
    rw [List.map_cons, List.nodup_cons] at hnd
    rw [applyWrites_cons]
    rcases List.mem_cons.mp h with rfl | h
    · have hfresh : ∀ w' ∈ ws, w'.1 ≠ b := by
        intro w' hw' he
        apply hnd.1
        show b ∈ ws.map Prod.fst
        rw [← he]
        exact List.mem_map_of_mem hw'
      rw [applyWrites_of_not_mem hfresh]
      simp
    · exact applyWrites_of_mem hnd.2 h

/-- A block that the writes name ends up the same whatever it held before. -/
theorem applyWrites_congr_of_mem {b : ℕ} {ws : List Write} (hw : ∃ w ∈ ws, w.1 = b) (d e : Disk) :
    applyWrites d ws b = applyWrites e ws b := by
  obtain ⟨w, hw, hwb⟩ := hw
  obtain ⟨l₁, l₂, rfl⟩ := List.append_of_mem hw
  rw [applyWrites_append, applyWrites_append, applyWrites_cons, applyWrites_cons]
  apply applyWrites_congr
  rw [← hwb, Function.update_self, Function.update_self]

/-- Writes that are all written again afterwards leave no trace. -/
theorem applyWrites_take_absorb (d : Disk) (ws : List Write) (r : ℕ) :
    applyWrites (applyWrites d (ws.take r)) ws = applyWrites d ws := by
  funext b
  by_cases hw : ∃ w ∈ ws, w.1 = b
  · exact applyWrites_congr_of_mem hw _ _
  · simp only [not_exists, not_and] at hw
    have htake : ∀ w ∈ ws.take r, w.1 ≠ b := fun w h => hw w (List.mem_of_mem_take h)
    rw [applyWrites_of_not_mem hw, applyWrites_of_not_mem htake, applyWrites_of_not_mem hw]

/-! ### The log header -/

/-- The byte offset of `block[i]` in `struct logheader`. -/
def headSlot (i : ℕ) : ℕ := 4 + 4 * i

/-- The block numbers of `struct logheader` as `read_head` copies them out: the
count `n` is an `int`, and no entry is read when it is not positive. -/
def readHead (b : Block) : List ℕ :=
  (List.range (toInt (b.getU32 0)).toNat).map fun i => b.getU32 (headSlot i)

/-- Store `block[i], block[i+1], …` from the list. -/
def writeEntries (b : Block) (i : ℕ) : List ℕ → Block
  | [] => b
  | x :: xs => writeEntries (b.setU32 (headSlot i) x) (i + 1) xs

/-- `write_head`'s changes to the header block: `n`, then `block[0..n)`; the rest
of the block is left as it was. -/
def writeHead (lh : List ℕ) (b : Block) : Block := writeEntries (b.setU32 0 lh.length) 0 lh

theorem writeEntries_below {b : Block} {off : ℕ} (hoff : off + 4 ≤ bsize) :
    ∀ {i : ℕ} {xs : List ℕ}, off + 4 ≤ headSlot i → (writeEntries b i xs).getU32 off = b.getU32 off := by
  intro i xs
  induction xs generalizing b i with
  | nil => intro _; rfl
  | cons x xs ih =>
    intro h
    rw [writeEntries, ih (by unfold headSlot at *; omega), Block.getU32_setU32_of_disjoint _ hoff (.inl h)]

theorem writeEntries_at {b : Block} :
    ∀ {i k : ℕ} {xs : List ℕ}, headSlot (i + xs.length) ≤ bsize → (∀ x ∈ xs, x < 2 ^ 32) →
      k < xs.length → (writeEntries b i xs).getU32 (headSlot (i + k)) = xs.getD k 0 := by
  intro i k xs
  induction xs generalizing b i k with
  | nil => intro _ _ hk; simp at hk
  | cons x xs ih =>
    intro hfit hlt hk
    simp only [List.length_cons] at hfit hk
    rw [writeEntries]
    cases k with
    | zero =>
      rw [writeEntries_below (by unfold headSlot at *; omega) (by unfold headSlot; omega),
        Nat.add_zero, Block.getU32_setU32_self _ (by unfold headSlot at *; omega)
          (hlt x List.mem_cons_self)]
      rfl
    | succ k =>
      rw [show i + (k + 1) = (i + 1) + k by omega,
        ih (by rw [show i + 1 + xs.length = i + (xs.length + 1) by omega]; exact hfit)
          (fun y hy => hlt y (List.mem_cons_of_mem _ hy)) (by omega)]
      rfl

/-- The header reads back the block numbers written to it. -/
theorem readHead_writeHead (b : Block) {lh : List ℕ} (hlen : lh.length ≤ logsize)
    (hlt : ∀ x ∈ lh, x < 2 ^ 32) : readHead (writeHead lh b) = lh := by
  have hfit : headSlot (0 + lh.length) ≤ bsize := by
    unfold headSlot bsize; unfold logsize maxopblocks at hlen; omega
  have hn : (writeHead lh b).getU32 0 = lh.length := by
    rw [writeHead, writeEntries_below (by decide) (by unfold headSlot; omega),
      Block.getU32_setU32_self _ (by decide) (by unfold logsize maxopblocks at hlen; omega)]
  have hint : (toInt lh.length).toNat = lh.length := by
    unfold toInt logsize maxopblocks at *
    rw [if_pos (by omega)]
    omega
  unfold readHead
  rw [hn, hint]
  apply List.ext_getElem (by simp)
  intro k hk _
  simp only [List.getElem_map, List.getElem_range]
  have := writeEntries_at (b := b.setU32 0 lh.length) hfit hlt (by simpa using hk)
  rw [Nat.zero_add] at this
  rw [writeHead, this, List.getD_eq_getElem]

theorem readHead_writeHead_nil (b : Block) : readHead (writeHead [] b) = [] :=
  readHead_writeHead b (by decide) (by simp)

/-- Clearing the header twice leaves the block as clearing it once. -/
theorem writeHead_nil_idem (b : Block) : writeHead [] (writeHead [] b) = writeHead [] b := by
  simp only [writeHead, writeEntries, List.length_nil]
  exact Block.setU32_setU32_self _ _ _ _

end Xv6
