import Mathlib

/-!
# Little-endian numbers in a byte memory

A byte memory is a function `ℕ → UInt8` from addresses to bytes.  An `n`-byte
unsigned number is stored at an address least significant byte first, as the
x86 stores a C `int`, `uint` or `ushort`.  This file gives the reading and the
writing of such numbers and the laws that relate them: a read sees the last
write to the same place, and does not see writes that do not overlap it.

## Main definitions

* `LittleEndian.read m off n` — the `n`-byte number stored at `off`.
* `LittleEndian.write m off n v` — the memory after storing `v` in `n` bytes at `off`.

## Main results

* `read_write_self` — a read of what was just written returns it, below `256 ^ n`.
* `read_write_of_disjoint` — writes elsewhere are not seen.
* `read_congr` — a read depends only on the bytes it covers.
-/

namespace LittleEndian

/-- The `n`-byte little-endian number stored at `off` in the memory `m`. -/
def read (m : ℕ → UInt8) (off : ℕ) : ℕ → ℕ
  | 0 => 0
  | n + 1 => (m off).toNat + 256 * read m (off + 1) n

/-- The memory `m` after storing `v` in the `n` bytes at `off`, least significant
byte first; the bits of `v` beyond `8 * n` are dropped. -/
def write (m : ℕ → UInt8) (off n v : ℕ) : ℕ → UInt8 :=
  fun a => if off ≤ a ∧ a < off + n then UInt8.ofNat (v / 256 ^ (a - off)) else m a

@[simp] theorem read_zero (m : ℕ → UInt8) (off : ℕ) : read m off 0 = 0 := rfl

theorem read_succ (m : ℕ → UInt8) (off n : ℕ) :
    read m off (n + 1) = (m off).toNat + 256 * read m (off + 1) n := rfl

theorem read_lt (m : ℕ → UInt8) : ∀ (off n : ℕ), read m off n < 256 ^ n
  | _, 0 => by simp
  | off, n + 1 => by
    have hb := (m off).toNat_lt
    have ih := read_lt m (off + 1) n
    rw [read_succ, pow_succ]
    have : 256 * read m (off + 1) n ≤ 256 * (256 ^ n - 1) := by omega
    have : 256 * (256 ^ n - 1) + 256 = 256 ^ n * 256 := by
      have := Nat.one_le_pow n 256 (by norm_num)
      rw [Nat.mul_sub, mul_comm]; omega
    omega

/-- A read depends only on the `n` bytes it covers. -/
theorem read_congr {m m' : ℕ → UInt8} :
    ∀ {off n : ℕ}, (∀ a, off ≤ a → a < off + n → m a = m' a) → read m off n = read m' off n
  | _, 0, _ => rfl
  | off, n + 1, h => by
    rw [read_succ, read_succ, h off le_rfl (by omega),
      read_congr fun a h1 h2 => h a (by omega) (by omega)]

/-- A write is not seen by a read of bytes it does not cover. -/
theorem read_write_of_disjoint {m : ℕ → UInt8} {off n v off' n' : ℕ}
    (h : off' + n' ≤ off ∨ off + n ≤ off') :
    read (write m off n v) off' n' = read m off' n' := by
  apply read_congr
  intro a h1 h2
  simp only [write]
  rw [if_neg (by omega)]

theorem toNat_ofNat_div (v k : ℕ) :
    (UInt8.ofNat (v / 256 ^ k)).toNat = v / 256 ^ k % 256 := by
  simp

/-- The bytes of `v` from the `k`-th on, read back, are `v / 256 ^ k` cut to `n` bytes. -/
theorem read_write_shift (m : ℕ → UInt8) (off v : ℕ) :
    ∀ (n k : ℕ), read (write m off (k + n) v) (off + k) n = v / 256 ^ k % 256 ^ n
  | 0, _ => by simp [Nat.mod_one]
  | n + 1, k => by
    rw [read_succ]
    have hhead : write m off (k + (n + 1)) v (off + k) = UInt8.ofNat (v / 256 ^ k) := by
      simp only [write]
      rw [if_pos (by omega), Nat.add_sub_cancel_left]
    have htail : read (write m off (k + (n + 1)) v) (off + k + 1) n
        = read (write m off ((k + 1) + n) v) (off + (k + 1)) n := by
      rw [show k + (n + 1) = (k + 1) + n by omega, show off + k + 1 = off + (k + 1) by omega]
    rw [hhead, htail, read_write_shift m off v n (k + 1), toNat_ofNat_div]
    rw [pow_succ, ← Nat.div_div_eq_div_mul, pow_succ', Nat.mod_mul]

/-- A read of what was just written returns it, when it fits in the `n` bytes. -/
theorem read_write_self (m : ℕ → UInt8) (off n : ℕ) {v : ℕ} (hv : v < 256 ^ n) :
    read (write m off n v) off n = v := by
  have h := read_write_shift m off v n 0
  simp only [Nat.zero_add, Nat.add_zero, pow_zero, Nat.div_one] at h
  rw [h, Nat.mod_eq_of_lt hv]

end LittleEndian
