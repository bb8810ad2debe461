import Mathlib

/-!
# Counting the points of a function with a given value

A reference count is correct when it equals the number of places that hold the
reference.  Over a finite domain the places are the points where a function takes
a given value, and every update of one place changes that number by what the
place held before and holds after.  This file proves that once, for any finite
type, so that each reference-count proof is arithmetic on the update.

## Main definitions

* `Count.count g v` — the number of points where `g` takes the value `v`.

## Main results

* `Count.count_update`, `Count.count_comp_update` — the count after changing one point.
* `Count.count_pos_iff` — a positive count has a witness.
* `Count.countP_le_of_getD` — along two lists that differ at one index, the count of
  the second exceeds that of the first by at most one.
* `Count.countP_or_beq` — one more point satisfying a predicate counts one more.
-/

namespace Count

variable {α β : Type*} [Fintype α] [DecidableEq α] [DecidableEq β]

/-- The number of points where `g` takes the value `v`. -/
def count (g : α → β) (v : β) : ℕ := (Finset.univ.filter fun a => g a = v).card

/-- A count splits into the point `a` and the others. -/
theorem count_eq_add (g : α → β) (a : α) (v : β) :
    count g v = (if g a = v then 1 else 0) + ∑ x ∈ Finset.univ.erase a, if g x = v then 1 else 0 := by
  rw [count, Finset.card_filter, ← Finset.add_sum_erase _ _ (Finset.mem_univ a)]

/-- Changing the value at one point changes the count by what it held and holds. -/
theorem count_update (g : α → β) (a : α) (b v : β) :
    count (Function.update g a b) v + (if g a = v then 1 else 0) =
      count g v + (if b = v then 1 else 0) := by
  have hrest : ∑ x ∈ Finset.univ.erase a, (if Function.update g a b x = v then 1 else 0) =
      ∑ x ∈ Finset.univ.erase a, if g x = v then 1 else 0 :=
    Finset.sum_congr rfl fun x hx => by rw [Function.update_of_ne (Finset.ne_of_mem_erase hx)]
  rw [count_eq_add _ a, count_eq_add g a, hrest, Function.update_self]
  omega

omit [DecidableEq β] in
/-- `count_update` through a function of the values: only what `φ` makes of the
old and the new value at `a` matters. -/
theorem count_comp_update {γ : Type*} [DecidableEq γ] (φ : β → γ) (g : α → β) (a : α) (b : β) (v : γ) :
    count (φ ∘ Function.update g a b) v + (if φ (g a) = v then 1 else 0) =
      count (φ ∘ g) v + (if φ b = v then 1 else 0) := by
  rw [Function.comp_update]
  exact count_update (φ ∘ g) a (φ b) v

omit [DecidableEq β] in
theorem count_comp_update_of_eq {γ : Type*} [DecidableEq γ] {φ : β → γ} {g : α → β} {a : α} {b : β}
    (h : φ b = φ (g a)) (v : γ) : count (φ ∘ Function.update g a b) v = count (φ ∘ g) v := by
  have := count_comp_update φ g a b v
  rw [h] at this
  omega

omit [DecidableEq α] in
theorem count_pos_iff {g : α → β} {v : β} : 0 < count g v ↔ ∃ a, g a = v := by
  simp [count, Finset.card_pos, Finset.filter_nonempty_iff]

/-! ### Along two lists -/

/-- Two lists of one length where, away from index `i`, an entry of the second
satisfies `p` only where the first does: the second has at most one more. -/
theorem countP_le_of_getD {γ : Type*} [Inhabited γ] {p : γ → Bool} (l : List γ) {l' : List γ} (i : ℕ)
    (hlen : l'.length = l.length) (h : ∀ j, j ≠ i → p (l'.getD j default) → p (l.getD j default)) :
    l'.countP p ≤ l.countP p + if i < l.length then 1 else 0 := by
  induction l generalizing l' i with
  | nil => simp_all
  | cons a l ih =>
    obtain ⟨a', l', rfl⟩ : ∃ a' l'', l' = a' :: l'' := List.exists_cons_of_length_eq_add_one hlen
    rw [List.countP_cons, List.countP_cons]
    cases i with
    | zero =>
      -- the extra entry is the head; the tails compare with no extra
      have := ih l.length (by simpa using hlen) fun j _ => by simpa using h (j + 1) (by omega)
      simp only [lt_irrefl, if_false, List.length_cons, Nat.zero_lt_succ, if_true] at this ⊢
      split <;> split <;> omega
    | succ k =>
      have htail := ih k (by simpa using hlen) fun j hj => by simpa using h (j + 1) (by omega)
      have hhead : p a' → p a := by simpa using h 0 (by omega)
      simp only [List.length_cons, Nat.add_lt_add_iff_right] at htail ⊢
      -- the heads compare as the tails do
      have hle : (if p a' then 1 else 0) ≤ if p a then 1 else 0 := by
        by_cases ha' : p a' <;> simp [ha', hhead]
      omega

/-- On a list without duplicates, a predicate widened by one point of the list
where it does not hold counts one more. -/
theorem countP_or_beq {γ : Type*} [DecidableEq γ] {p : γ → Bool} {x : γ} {l : List γ} (hl : l.Nodup)
    (hx : x ∈ l) (hp : p x = false) : l.countP (fun y => p y || y == x) = l.countP p + 1 := by
  induction l with
  | nil => exact absurd hx List.not_mem_nil
  | cons a l ih =>
    rw [List.nodup_cons] at hl
    rw [List.countP_cons, List.countP_cons]
    by_cases ha : a = x
    · subst ha
      -- the head is the point; no other entry is
      have hrest : l.countP (fun y => p y || y == a) = l.countP p :=
        List.countP_congr fun y hy => by
          have : y ≠ a := fun h => hl.1 (h ▸ hy)
          simp [this]
      simp [hrest, hp]
    · have hx' : x ∈ l := (List.mem_cons.mp hx).resolve_left (Ne.symm ha)
      rw [ih hl.2 hx']
      simp [ha]
      omega

end Count
