import Mathlib

/-!
# memmove

`memmove(dst, src, n)` must leave `dst[0..n)` holding what `src[0..n)` held
before the call, whichever way the two regions overlap.  The kernel's copy in
`string.c` copies backwards, from the top, exactly when the destination starts
inside the source (`s < d && s + n > d`), and forwards otherwise.  The user
library's copy in `ulib.c` always copies forwards, which reads bytes it has
already overwritten when the destination starts inside the source.

Memory is a function from addresses to bytes; the regions lie inside the address
space, so pointer arithmetic does not wrap and addresses are natural numbers.

## Main definitions

* `Moved` — the contract of `memmove`: the destination reads the old source, and
  nothing else changes.
* `copyUp`, `copyDown` — the forward and the backward copy loop.
* `memmove`, `Ulib.memmove` — `string.c` and `ulib.c`.

## Main results

* `copyUp_moved`, `copyDown_moved` — each loop meets the contract when it does not
  read what it wrote: forwards unless the destination starts inside the source,
  backwards unless the source starts inside the destination.
* `copyUp_overlap` — forwards, with the destination `k` bytes above the source,
  byte `k` of the destination receives the first source byte again.
* `memmove_contracts` — the kernel's `memmove` meets the contract for all regions,
  and the user library's breaks it for every destination inside the source.
-/

namespace Xv6

/-- Byte-addressed memory. -/
abbrev Mem := ℕ → UInt8

/-- The contract of `memmove(dst, src, n)` from `m` to `m'`: the `n` bytes from `dst`
read the `n` bytes `m` held from `src`, and every other address keeps its byte. -/
def Moved (m m' : Mem) (dst src n : ℕ) : Prop :=
  (∀ i < n, m' (dst + i) = m (src + i)) ∧ ∀ a, a < dst ∨ dst + n ≤ a → m' a = m a

/-! ### The two loops -/

/-- The forward loop `while(n-- > 0) *d++ = *s++;`. -/
def copyUp (m : Mem) (d s : ℕ) : ℕ → Mem
  | 0 => m
  | n + 1 => copyUp (Function.update m d (m s)) (d + 1) (s + 1) n

/-- The backward loop `s += n; d += n; while(n-- > 0) *--d = *--s;`: the top byte
first. -/
def copyDown (m : Mem) (d s : ℕ) : ℕ → Mem
  | 0 => m
  | n + 1 => copyDown (Function.update m (d + n) (m (s + n))) d s n

/-- `memmove` of `string.c`. -/
def memmove (m : Mem) (dst src n : ℕ) : Mem :=
  if src < dst ∧ dst < src + n then copyDown m dst src n else copyUp m dst src n

namespace Ulib

/-- `memmove` of `ulib.c`: `n` is an `int`, and `while(n-- > 0)` copies nothing for
`n ≤ 0`. -/
def memmove (m : Mem) (dst src : ℕ) (n : ℤ) : Mem := copyUp m dst src n.toNat

end Ulib

/-! ### The forward loop -/

/-- The forward loop writes only `[d, d + n)`. -/
theorem copyUp_frame (m : Mem) (d s n : ℕ) {a : ℕ} (h : a < d ∨ d + n ≤ a) : copyUp m d s n a = m a := by
  induction n generalizing m d s with
  | zero => rfl
  | succ n ih =>
    rw [copyUp, ih _ _ _ (by omega), Function.update_of_ne (by omega)]

/-- Forwards, unless the destination starts inside the source, each byte is read
before the loop writes over it. -/
theorem copyUp_moved {m : Mem} {d s n : ℕ} (h : d ≤ s ∨ s + n ≤ d) : Moved m (copyUp m d s n) d s n := by
  induction n generalizing m d s with
  | zero => exact ⟨nofun, fun _ _ => rfl⟩
  | succ n ih =>
    -- the first byte goes to `d`, the rest is the loop from `d + 1` over the updated memory
    obtain ⟨hcopy, hframe⟩ := @ih (Function.update m d (m s)) (d + 1) (s + 1) (by omega)
    refine ⟨fun i hi => ?_, fun a ha => ?_⟩
    · rcases i with _ | i
      · rw [copyUp, hframe _ (.inl (by omega)), Nat.add_zero, Nat.add_zero, Function.update_self]
      · rw [copyUp, show d + (i + 1) = d + 1 + i by omega, hcopy i (by omega),
          Function.update_of_ne (by omega), show s + 1 + i = s + (i + 1) by omega]
    · rw [copyUp, hframe a (by omega), Function.update_of_ne (by omega)]

/-- `k + n` turns of the forward loop are `k` turns and then `n` more. -/
theorem copyUp_add (m : Mem) (d s k n : ℕ) :
    copyUp m d s (k + n) = copyUp (copyUp m d s k) (d + k) (s + k) n := by
  induction k generalizing m d s with
  | zero => rw [Nat.zero_add]; rfl
  | succ k ih =>
    rw [Nat.add_right_comm, copyUp, ih, show d + 1 + k = d + (k + 1) by omega,
      show s + 1 + k = s + (k + 1) by omega]
    rfl

/-- Forwards, with the destination `d - s` bytes above the source and less than `n`
bytes above it, the loop reads the source byte at `d` after it has written the
first source byte there: byte `d - s` of the destination is the first source byte. -/
theorem copyUp_overlap (m : Mem) {d s n : ℕ} (hsd : s < d) (hk : d - s < n) :
    copyUp m d s n (d + (d - s)) = m s := by
  obtain ⟨k, hkd⟩ : ∃ k, k = d - s := ⟨_, rfl⟩
  rw [← hkd] at hk ⊢
  obtain ⟨r, rfl⟩ : ∃ r, n = k + 1 + r := ⟨n - (k + 1), by omega⟩
  -- after the first `k` turns `d` still holds the first source byte, which turn
  -- `k` reads from `s + k = d`; the turns after it write above `d + k`
  have hturn : copyUp m d s (k + 1) (d + k) = m s := by
    obtain ⟨j, rfl⟩ : ∃ j, k = j + 1 := ⟨k - 1, by omega⟩
    rw [copyUp_add m d s (j + 1) 1, copyUp, copyUp, Function.update_self, show s + (j + 1) = d by omega,
      copyUp, copyUp_frame _ _ _ _ (.inl (by omega)), Function.update_self]
  rw [copyUp_add, copyUp_frame _ _ _ _ (.inl (by omega)), hturn]

/-! ### The backward loop -/

/-- Backwards, unless the source starts inside the destination, each byte is read
before the loop writes over it. -/
theorem copyDown_moved {m : Mem} {d s n : ℕ} (h : s ≤ d ∨ d + n ≤ s) :
    Moved m (copyDown m d s n) d s n := by
  induction n generalizing m with
  | zero => exact ⟨nofun, fun _ _ => rfl⟩
  | succ n ih =>
    -- the top byte goes to `d + n`, the rest is the loop below it over the updated memory
    obtain ⟨hcopy, hframe⟩ := @ih (Function.update m (d + n) (m (s + n))) (by omega)
    refine ⟨fun i hi => ?_, fun a ha => ?_⟩
    · rw [copyDown]
      by_cases hin : i = n
      · rw [hin, hframe _ (.inr le_rfl), Function.update_self]
      · rw [hcopy i (by omega), Function.update_of_ne (by omega)]
    · rw [copyDown, hframe a (by omega), Function.update_of_ne (by omega)]

/-! ### Both `memmove`s -/

/-- **`memmove`.**  The kernel's `memmove` meets the contract for every pair of
regions, overlapping either way; the user library's breaks it for every
destination that starts inside the source, on some contents of memory. -/
theorem memmove_contracts :
    (∀ m dst src n, Moved m (memmove m dst src n) dst src n) ∧
      ∀ dst src n : ℕ, src < dst → dst < src + n →
        ∃ m, ¬Moved m (Ulib.memmove m dst src n) dst src n := by
  refine ⟨fun m dst src n => ?_, fun dst src n hsd hd => ?_⟩
  · unfold memmove
    split_ifs with h
    · exact copyDown_moved (.inl h.1.le)
    · exact copyUp_moved (by omega)
  · -- a first source byte that differs from the byte at `dst` is copied twice
    refine ⟨fun a => if a = src then 1 else 0, fun ⟨hcopy, _⟩ => ?_⟩
    have h := hcopy (dst - src) (by omega)
    rw [Ulib.memmove, Int.toNat_natCast, copyUp_overlap _ hsd (by omega),
      show src + (dst - src) = dst by omega] at h
    simp [show dst ≠ src by omega] at h

theorem memmove_contracts_ulib_one_up :
    (0 : ℕ) < 1 ∧ (1 : ℕ) < 0 + 2 ∧ ∃ m, ¬Moved m (Ulib.memmove m 1 0 2) 1 0 2 :=
  ⟨by decide, by decide, memmove_contracts.2 1 0 2 (by decide) (by decide)⟩

end Xv6
