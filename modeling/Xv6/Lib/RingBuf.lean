import Mathlib

/-!
# Rings indexed by free-running counters

A ring of `n` slots is read and written through counters that only ever grow, modulo
`m`, with `n` dividing `m`: a `uint` counter over a ring whose size is a power of two.
Counter value `k` names slot `k % n` whatever the wrap, and the items from counter
`a` to counter `b` are the `dist m a b` slots from `a`, where `dist m a b` is `b - a`
computed modulo `m`.  This file proves, once, how the distance and the items between
two counters change when a counter moves by one.

## Main definitions

* `RingBuf.dist m a b` — `b - a` for counters modulo `m`.
* `RingBuf.slot n k` — the slot counter value `k` names.
* `RingBuf.window data a d` — the items of the `d` slots from counter `a`, oldest first.

## Main results

* `RingBuf.add_dist`, `RingBuf.dist_eq_of_add` — `dist` is the one `d < m` with `a + d = b`
  modulo `m`.
* `RingBuf.dist_succ_right`, `RingBuf.dist_succ_left`, `RingBuf.dist_pred_right`,
  `RingBuf.dist_sub` — moving one counter, and three counters in order.
* `RingBuf.window_push`, `RingBuf.window_pop`, `RingBuf.window_update` — writing after a window,
  reading from its front, writing a slot outside it.
-/

namespace RingBuf

/-! ### Distance between counters -/

section Dist

variable {m a b c d : ℕ}

/-- `b - a` for counters modulo `m`. -/
def dist (m a b : ℕ) : ℕ := (b + m - a) % m

theorem dist_lt (hm : 0 < m) (a b : ℕ) : dist m a b < m := Nat.mod_lt _ hm

/-- Going `dist m a b` on from `a` reaches `b`. -/
theorem add_dist (ha : a < m) (hb : b < m) : (a + dist m a b) % m = b := by
  unfold dist
  rw [Nat.add_mod_mod, show a + (b + m - a) = b + m by omega, Nat.add_mod_right, Nat.mod_eq_of_lt hb]

/-- `dist m a b` is the one `d < m` that goes from `a` to `b`. -/
theorem dist_eq_of_add (ha : a < m) (hd : d < m) (h : (a + d) % m = b) : dist m a b = d := by
  unfold dist
  subst h
  by_cases hlt : a + d < m
  · rw [Nat.mod_eq_of_lt hlt, show a + d + m - a = d + m by omega, Nat.add_mod_right, Nat.mod_eq_of_lt hd]
  · -- `a + d` wraps once
    have hsub : (a + d) % m = a + d - m := by
      rw [Nat.mod_eq_sub_mod (by omega), Nat.mod_eq_of_lt (by omega)]
    rw [hsub, show a + d - m + m - a = d by omega, Nat.mod_eq_of_lt hd]

@[simp] theorem dist_self (a : ℕ) : dist m a a = 0 := by
  unfold dist
  rw [Nat.add_sub_cancel_left, Nat.mod_self]

theorem dist_eq_zero_iff (ha : a < m) (hb : b < m) : dist m a b = 0 ↔ a = b := by
  constructor
  · intro h
    have hab := add_dist ha hb
    rwa [h, Nat.add_zero, Nat.mod_eq_of_lt ha] at hab
  · rintro rfl
    exact dist_self a

/-- Moving the far counter on by one. -/
theorem dist_succ_right (ha : a < m) (hb : b < m) (h : dist m a b + 1 < m) :
    dist m a ((b + 1) % m) = dist m a b + 1 := by
  refine dist_eq_of_add ha h ?_
  rw [← Nat.add_assoc, ← Nat.mod_add_mod, add_dist ha hb]

/-- Moving the near counter on by one. -/
theorem dist_succ_left (ha : a < m) (hb : b < m) (h : 0 < dist m a b) :
    dist m ((a + 1) % m) b = dist m a b - 1 := by
  have hm : 0 < m := by omega
  refine dist_eq_of_add (Nat.mod_lt _ hm) (by have := dist_lt hm a b; omega) ?_
  rw [Nat.mod_add_mod, show a + 1 + (dist m a b - 1) = a + dist m a b by omega, add_dist ha hb]

/-- Moving the far counter back by one: `b - 1` is `b + (m - 1)` modulo `m`. -/
theorem dist_pred_right (ha : a < m) (hb : b < m) (h : 0 < dist m a b) :
    dist m a ((b + m - 1) % m) = dist m a b - 1 := by
  have hab := add_dist ha hb
  have hlt : dist m a b < m := dist_lt (by omega) a b
  generalize dist m a b = d at h hab hlt ⊢
  refine dist_eq_of_add ha (by omega) ?_
  subst hab
  rw [show (a + d) % m + m - 1 = (a + d) % m + (m - 1) by omega, Nat.mod_add_mod,
    show a + d + (m - 1) = a + (d - 1) + m by omega, Nat.add_mod_right]

/-- Three counters in order: `c - b` is `(c - a) - (b - a)`. -/
theorem dist_sub (ha : a < m) (hb : b < m) (hc : c < m) (h : dist m a b ≤ dist m a c) :
    dist m b c = dist m a c - dist m a b := by
  have hab := add_dist ha hb
  have hac := add_dist ha hc
  have hlt : dist m a c < m := dist_lt (by omega) a c
  generalize dist m a b = d₁ at h hab ⊢
  generalize dist m a c = d₂ at h hac hlt ⊢
  refine dist_eq_of_add hb (by omega) ?_
  rw [← hab, Nat.mod_add_mod, Nat.add_assoc, Nat.add_sub_cancel' h, hac]

end Dist

/-! ### Slots and windows -/

section Window

variable {α : Type*} {n m : ℕ} [NeZero n]

/-- The slot counter value `k` names: `k % n`. -/
def slot (n : ℕ) [NeZero n] (k : ℕ) : Fin n := ⟨k % n, Nat.mod_lt _ (Nat.pos_of_neZero n)⟩

/-- A counter taken modulo `m` names the same slot. -/
theorem slot_mod (hn : n ∣ m) (k : ℕ) : slot n (k % m) = slot n k :=
  Fin.ext (Nat.mod_mod_of_dvd k hn)

theorem slot_add_mod (hn : n ∣ m) (a k : ℕ) : slot n (a % m + k) = slot n (a + k) := by
  apply Fin.ext
  show (a % m + k) % n = (a + k) % n
  rw [← Nat.mod_add_mod, Nat.mod_mod_of_dvd a hn, Nat.mod_add_mod]

/-- Fewer than `n` slots from one counter are distinct. -/
theorem slot_add_inj {a i j : ℕ} (hi : i < n) (hj : j < n) : slot n (a + i) = slot n (a + j) ↔ i = j := by
  constructor
  · intro h
    have hmod : i ≡ j [MOD n] := Nat.ModEq.add_left_cancel' a (Fin.mk.inj_iff.mp h)
    rwa [Nat.ModEq, Nat.mod_eq_of_lt hi, Nat.mod_eq_of_lt hj] at hmod
  · rintro rfl
    rfl

/-- The items of the `d` slots from counter `a`, oldest first. -/
def window (data : Fin n → α) (a : ℕ) : ℕ → List α
  | 0 => []
  | d + 1 => window data a d ++ [data (slot n (a + d))]

variable (data : Fin n → α) (a : ℕ)

@[simp] theorem window_zero : window data a 0 = [] := rfl

theorem window_succ (d : ℕ) : window data a (d + 1) = window data a d ++ [data (slot n (a + d))] := rfl

@[simp] theorem length_window (d : ℕ) : (window data a d).length = d := by
  induction d with
  | zero => rfl
  | succ d ih => simp [window_succ, ih]

theorem window_add (d k : ℕ) : window data a (d + k) = window data a d ++ window data (a + d) k := by
  induction k with
  | zero => simp
  | succ k ih => rw [← Nat.add_assoc, window_succ, ih, window_succ, List.append_assoc, Nat.add_assoc]

/-- The oldest item comes off the front. -/
theorem window_pop (d : ℕ) : window data a (d + 1) = data (slot n a) :: window data (a + 1) d := by
  rw [Nat.add_comm, window_add]
  simp [window_succ]

/-- The window from a counter taken modulo `m`. -/
theorem window_mod (hn : n ∣ m) (d : ℕ) : window data (a % m) d = window data a d := by
  induction d with
  | zero => rfl
  | succ d ih => rw [window_succ, window_succ, ih, slot_add_mod hn]

variable {data a}

/-- Writing a slot outside the window leaves it alone. -/
theorem window_update {d : ℕ} {i : Fin n} (x : α) (hi : ∀ k < d, slot n (a + k) ≠ i) :
    window (Function.update data i x) a d = window data a d := by
  induction d with
  | zero => rfl
  | succ d ih =>
    rw [window_succ, window_succ, ih fun k hk => hi k (by omega),
      Function.update_of_ne (hi d (by omega))]

/-- Writing the slot after a window that is not full appends to it. -/
theorem window_push {d : ℕ} (hd : d < n) (x : α) :
    window (Function.update data (slot n (a + d)) x) a (d + 1) = window data a d ++ [x] := by
  rw [window_succ, Function.update_self,
    window_update x fun k hk => (slot_add_inj (by omega) hd).not.mpr (by omega)]

end Window

end RingBuf
