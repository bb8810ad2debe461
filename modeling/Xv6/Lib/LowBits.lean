import Mathlib

/-!
# Words with an aligned high part and low flag bits

A word that packs an address aligned to `2 ^ k` with flags below `2 ^ k` (a page
table entry, a tagged pointer) is built with `|||` and taken apart with masks.
When the two parts do not overlap, `|||` is addition, and every mask that keeps
only low bits sees only the flags.  These lemmas turn such bit operations into
arithmetic that `omega` and `decide` finish.

## Main results

* `or_eq_add` — an aligned address `|||` low flags is their sum.
* `add_div_mul`, `add_mod` — the sum splits back into the address and the flags.
* `and_low` — a mask below `2 ^ k` sees only the low `k` bits.
* `and_div` — a mask that keeps all the high bits of a `n`-bit word keeps its
  aligned part.
-/

namespace LowBits

variable {a f k : ℕ}

theorem or_eq_add (ha : a % 2 ^ k = 0) (hf : f < 2 ^ k) : a ||| f = a + f := by
  obtain ⟨q, rfl⟩ := Nat.dvd_of_mod_eq_zero ha
  exact (Nat.two_pow_add_eq_or_of_lt hf q).symm

theorem add_mod (ha : a % 2 ^ k = 0) (hf : f < 2 ^ k) : (a + f) % 2 ^ k = f := by
  rw [Nat.add_mod, ha, Nat.zero_add, Nat.mod_mod, Nat.mod_eq_of_lt hf]

theorem add_div_mul (ha : a % 2 ^ k = 0) (hf : f < 2 ^ k) : (a + f) / 2 ^ k * 2 ^ k = a := by
  have h := Nat.div_add_mod (a + f) (2 ^ k)
  rw [add_mod ha hf] at h
  rw [Nat.mul_comm]
  omega

/-- A mask below `2 ^ k` only sees the low `k` bits. -/
theorem and_low (x : ℕ) (hf : f < 2 ^ k) : x &&& f = (x % 2 ^ k) &&& f := by
  have hlt : x &&& f < 2 ^ k := Nat.and_lt_two_pow x hf
  rw [← Nat.mod_eq_of_lt hlt, Nat.and_mod_two_pow, Nat.mod_eq_of_lt hf]

/-- A mask whose bits from `k` to `n` are all set keeps the high part of an
`n`-bit word. -/
theorem and_div {x m n : ℕ} (hx : x < 2 ^ n) (hm : m / 2 ^ k = 2 ^ (n - k) - 1) (hkn : k ≤ n) :
    (x &&& m) / 2 ^ k = x / 2 ^ k := by
  rw [Nat.and_div_two_pow, hm, Nat.and_two_pow_sub_one_eq_mod]
  apply Nat.mod_eq_of_lt
  rw [Nat.div_lt_iff_lt_mul (Nat.two_pow_pos k), ← Nat.pow_add, Nat.sub_add_cancel hkn]
  exact hx

end LowBits
