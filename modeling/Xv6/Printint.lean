import Xv6.Param

/-!
# printint

`cprintf` in `console.c` and `printf` in `printf.c` print `%d` with
`printint(xx, 10, 1)` and `%x`, `%p` with `printint(xx, 16, 0)`.  Each copy of
`printint` takes the magnitude as a `uint` (`x = -xx` for a negative `xx` when the
sign flag is set, `x = xx` otherwise), fills `buf[16]` with the digits least
significant first in a `do … while` loop, appends a `'-'`, and prints the buffer
backwards.  The kernel's copy reuses its `sign` argument to remember the minus
sign; the user's keeps a separate `neg`.

`-xx` of `INT_MIN` overflows the `int`; the value is then converted to `uint`, and
both conversions are reductions modulo `2 ^ 32`, so `x` is `2 ^ 31`, the magnitude.

## Main definitions

* `digitLoop` — the `do … while` loop both copies share.
* `Console.printbuf`, `Console.printint` — `console.c`.
* `Printf.printbuf`, `Printf.printint` — `printf.c`.
* `numDigits` — the digits of the base-`b` numeral of `v`, most significant first.
* `magnitude` — the number whose numeral `printint` prints.

## Main results

* `digitLoop_eq` — with enough turns, the loop writes the base-`b` digits of `x`.
* `printint_numeral` — both copies print the numeral of `xx`, signed or unsigned,
  with at most 11 of the 16 buffer slots used.
-/

namespace Xv6

/-- The digits of the numeral of `v` in base `b`, most significant first: `[0]` for
`0`, and no leading zero otherwise. -/
def numDigits (b v : ℕ) : List ℕ := if v = 0 then [0] else (Nat.digits b v).reverse

/-- `do{ buf[i++] = digits[x % base]; }while((x /= base) != 0);`: the digits of `x`,
least significant first, within `fuel` turns. -/
def digitLoop (digits : List Char) (base : ℕ) : ℕ → ℕ → List Char
  | 0, _ => []
  | fuel + 1, x =>
    digits.getD (x % base) '0' :: if x / base = 0 then [] else digitLoop digits base fuel (x / base)

namespace Console

/-- `digits[]` of `console.c`. -/
def digits : List Char := "0123456789abcdef".toList

/-- `buf[0..i)` of `console.c`'s `printint` before the printing loop: the
`sign && (sign = xx < 0)` test keeps the minus sign in `sign`.  A `uint` has at
most 32 digits in a base of at least 2. -/
def printbuf (xx : ℤ) (base : ℕ) (sign : ℤ) : List Char :=
  let sign := decide (sign ≠ 0) && decide (xx < 0)
  let x := if sign then toUint (-xx) else toUint xx
  digitLoop digits base 32 x ++ if sign then ['-'] else []

/-- `printint` of `console.c`: `while(--i >= 0) consputc(buf[i]);`. -/
def printint (xx : ℤ) (base : ℕ) (sign : ℤ) : List Char := (printbuf xx base sign).reverse

end Console

namespace Printf

/-- `digits[]` of `printf.c`. -/
def digits : List Char := "0123456789ABCDEF".toList

/-- `buf[0..i)` of `printf.c`'s `printint` before the printing loop, with the minus
sign in `neg`. -/
def printbuf (xx : ℤ) (base : ℕ) (sgn : ℤ) : List Char :=
  let neg := decide (sgn ≠ 0) && decide (xx < 0)
  let x := if neg then toUint (-xx) else toUint xx
  digitLoop digits base 32 x ++ if neg then ['-'] else []

/-- `printint` of `printf.c`: the characters it writes to `fd` with `putc`. -/
def printint (xx : ℤ) (base : ℕ) (sgn : ℤ) : List Char := (printbuf xx base sgn).reverse

end Printf

/-! ### The digit loop -/

section DigitLoop

variable {digits : List Char} {b : ℕ}

/-- With more turns than `x` has digits, the loop writes the base-`b` digits of `x`,
least significant first, and one `0` for `x = 0`. -/
theorem digitLoop_eq (hb : 2 ≤ b) :
    ∀ (fuel x : ℕ), (Nat.digits b x).length < fuel →
      digitLoop digits b fuel x = ((numDigits b x).reverse).map (digits.getD · '0') := by
  intro fuel
  -- induction on the turns left; each turn writes the lowest digit and divides by `b`
  induction fuel with
  | zero => exact fun x h => absurd h (Nat.not_lt_zero _)
  | succ fuel ih =>
    intro x hlen
    rcases Nat.eq_zero_or_pos x with rfl | hx
    · simp [digitLoop, numDigits]
    have hdig : Nat.digits b x = x % b :: Nat.digits b (x / b) := Nat.digits_def' hb hx
    rw [hdig, List.length_cons] at hlen
    rw [digitLoop, numDigits, if_neg hx.ne', List.reverse_reverse, hdig, List.map_cons]
    congr 1
    split_ifs with hq
    · rw [hq, Nat.digits_zero, List.map_nil]
    · rw [ih (x / b) (by omega), numDigits, if_neg hq, List.reverse_reverse]

/-- A value below `b ^ k` has at most `k` digits. -/
theorem length_numDigits_le {v k : ℕ} (hb : 2 ≤ b) (hk : 1 ≤ k) (hv : v < b ^ k) :
    (numDigits b v).length ≤ k := by
  unfold numDigits
  split_ifs with h
  · exact hk
  · rw [List.length_reverse]
    exact (Nat.digits_length_le_iff (by omega) v).mpr hv

end DigitLoop

/-! ### Both copies of `printint` -/

/-- The number whose numeral `printint(xx, base, sign)` prints: the magnitude of a
negative `xx` when the sign flag is set, and `xx` as a `uint` otherwise. -/
def magnitude (xx sign : ℤ) : ℕ := if sign ≠ 0 ∧ xx < 0 then (-xx).toNat else toUint xx

/-- **`printint`.**  For every `int` `xx`, base `10` or `16` and sign flag, both
copies print the numeral of `xx`: of its magnitude after a `'-'` when the flag is
set and `xx` is negative, `INT_MIN` included, and of `xx` as a `uint` otherwise.
The numeral is `numDigits`, in the copy's own digit characters, and the buffer
holds at most 11 characters. -/
theorem printint_numeral {xx : ℤ} (hlo : -2 ^ 31 ≤ xx) (hhi : xx < 2 ^ 31) {base : ℕ}
    (hbase : base = 10 ∨ base = 16) (sign : ℤ) :
    Console.printint xx base sign =
        (if sign ≠ 0 ∧ xx < 0 then ['-'] else []) ++
          (numDigits base (magnitude xx sign)).map (Console.digits.getD · '0') ∧
      Printf.printint xx base sign =
        (if sign ≠ 0 ∧ xx < 0 then ['-'] else []) ++
          (numDigits base (magnitude xx sign)).map (Printf.digits.getD · '0') ∧
      (Console.printbuf xx base sign).length ≤ 11 ∧ (Printf.printbuf xx base sign).length ≤ 11 := by
  have hb : 2 ≤ base := by omega
  have h10 : 10 ^ 10 ≤ base ^ 10 := Nat.pow_le_pow_left (by omega) 10
  -- the magnitude the `uint` holds, and its size
  have hx : (if decide (sign ≠ 0) && decide (xx < 0) then toUint (-xx) else toUint xx) = magnitude xx sign := by
    by_cases hn : sign ≠ 0 ∧ xx < 0
    · rw [if_pos (by simpa using hn), toUint_of_nonneg (by omega) (by omega), magnitude, if_pos hn]
    · rw [if_neg (by simpa using hn), magnitude, if_neg hn]
  have hv : magnitude xx sign < 2 ^ 32 := by
    by_cases hn : sign ≠ 0 ∧ xx < 0
    · rw [magnitude, if_pos hn]
      omega
    · rw [magnitude, if_neg hn]
      exact toUint_lt xx
  have hlen : (Nat.digits base (magnitude xx sign)).length < 32 := by
    refine lt_of_le_of_lt ((Nat.digits_length_le_iff (by omega) _).mpr (lt_of_lt_of_le hv ?_)) (by norm_num : 31 < 32)
    calc 2 ^ 32 ≤ 2 ^ 31 * 2 ^ 31 := by norm_num
      _ ≤ base ^ 31 := by rw [← mul_pow]; exact Nat.pow_le_pow_left (by omega) 31
  -- at most ten digits, and the minus sign
  have hdig : (numDigits base (magnitude xx sign)).length + (if sign ≠ 0 ∧ xx < 0 then 1 else 0) ≤ 11 := by
    have := length_numDigits_le hb (by norm_num : 1 ≤ 10) (by omega : magnitude xx sign < base ^ 10)
    split_ifs <;> omega
  have hsign : ∀ {α : Type} (a b : α), (if decide (sign ≠ 0) && decide (xx < 0) then a else b) =
      if sign ≠ 0 ∧ xx < 0 then a else b := fun a b => by
    by_cases hn : sign ≠ 0 ∧ xx < 0
    · rw [if_pos (by simpa using hn), if_pos hn]
    · rw [if_neg (by simpa using hn), if_neg hn]
  refine ⟨?_, ?_, ?_, ?_⟩
  · rw [Console.printint, Console.printbuf]
    rw [hx, digitLoop_eq hb 32 _ hlen, hsign, List.reverse_append, List.map_reverse, List.reverse_reverse]
    split_ifs <;> rfl
  · rw [Printf.printint, Printf.printbuf]
    rw [hx, digitLoop_eq hb 32 _ hlen, hsign, List.reverse_append, List.map_reverse, List.reverse_reverse]
    split_ifs <;> rfl
  · rw [Console.printbuf]
    rw [hx, digitLoop_eq hb 32 _ hlen, hsign, List.length_append, List.length_map, List.length_reverse]
    split_ifs <;> simp_all
  · rw [Printf.printbuf]
    rw [hx, digitLoop_eq hb 32 _ hlen, hsign, List.length_append, List.length_map, List.length_reverse]
    split_ifs <;> simp_all

theorem printint_numeral_int_min :
    -2 ^ 31 ≤ (-2 ^ 31 : ℤ) ∧ (-2 ^ 31 : ℤ) < 2 ^ 31 ∧ Console.printint (-2 ^ 31) 10 1 = "-2147483648".toList :=
  ⟨by decide, by decide, by
    obtain ⟨h, -⟩ := @printint_numeral (-2 ^ 31) (by decide) (by decide) 10 (.inl rfl) 1
    rw [h]
    decide⟩

end Xv6
