import Mathlib

/-!
# While loops with fuel

`while (cond s) s = body s;` tested at most `fuel` times: `some` of the state it
stops in, `none` when the fuel runs out first.  A loop terminates from `s` when
some fuel is enough, and diverges when every fuel runs out.

## Main definitions

* `whileFuel cond body fuel s` — the loop with `fuel` tests of its condition.

## Main results

* `whileFuel_invariant` — an invariant the body keeps while the condition holds
  holds of the state the loop stops in, where the condition is false.
* `whileFuel_iterate` — `n` turns of the loop are `n` applications of the body.
* `whileFuel_trap` — from a set of states where the condition holds and which the
  body does not leave, the loop diverges.
* `whileFuel_of_measure` — a measure the body lowers while the condition holds and an
  invariant holds: more fuel than the measure is enough.
-/

namespace Loop

variable {σ : Type*} (cond : σ → Bool) (body : σ → σ)

/-- `while (cond s) s = body s;` with `fuel` tests of the condition. -/
def whileFuel : ℕ → σ → Option σ
  | 0, _ => none
  | fuel + 1, s => if cond s then whileFuel fuel (body s) else some s

variable {cond body}

@[simp] theorem whileFuel_zero (s : σ) : whileFuel cond body 0 s = none := rfl

theorem whileFuel_succ_of_cond {fuel : ℕ} {s : σ} (h : cond s = true) :
    whileFuel cond body (fuel + 1) s = whileFuel cond body fuel (body s) := by
  rw [whileFuel, if_pos h]

theorem whileFuel_succ_of_not {fuel : ℕ} {s : σ} (h : cond s = false) :
    whileFuel cond body (fuel + 1) s = some s := by
  rw [whileFuel, if_neg (by simp [h])]

/-- The state a loop stops in satisfies every invariant of its body, and not the
condition. -/
theorem whileFuel_invariant {inv : σ → Prop} (hbody : ∀ s, inv s → cond s = true → inv (body s)) :
    ∀ (fuel : ℕ) (s t : σ), inv s → whileFuel cond body fuel s = some t → inv t ∧ cond t = false := by
  intro fuel
  induction fuel with
  | zero => exact fun s t _ h => nomatch h
  | succ fuel ih =>
    intro s t hs h
    cases hc : cond s with
    | true => exact ih (body s) t (hbody s hs hc) (by rwa [whileFuel_succ_of_cond hc] at h)
    | false =>
      rw [whileFuel_succ_of_not hc, Option.some.injEq] at h
      exact h ▸ ⟨hs, hc⟩

/-- While the condition holds, `n` more tests of it are `n` turns of the body. -/
theorem whileFuel_iterate (fuel : ℕ) :
    ∀ (n : ℕ) (s : σ), (∀ k < n, cond (body^[k] s) = true) →
      whileFuel cond body (fuel + n) s = whileFuel cond body fuel (body^[n] s) := by
  intro n
  induction n with
  | zero => exact fun s _ => rfl
  | succ n ih =>
    intro s hk
    -- the first turn, then `n` more from `body s`
    have hcond : cond s = true := hk 0 (Nat.zero_lt_succ n)
    rw [← Nat.add_assoc, whileFuel_succ_of_cond hcond, ih (body s) fun k hk' => hk (k + 1) (by omega)]
    rfl

/-- A set of states where the condition holds and which the body keeps traps the
loop: from it, every fuel runs out. -/
theorem whileFuel_trap {trap : σ → Prop} (htrap : ∀ s, trap s → cond s = true ∧ trap (body s)) :
    ∀ (fuel : ℕ) (s : σ), trap s → whileFuel cond body fuel s = none := by
  intro fuel
  induction fuel with
  | zero => exact fun _ _ => rfl
  | succ fuel ih =>
    intro s hs
    obtain ⟨hc, hnext⟩ := htrap s hs
    rw [whileFuel_succ_of_cond hc]
    exact ih (body s) hnext

/-- A loop that reaches a trap after `n` turns diverges. -/
theorem whileFuel_diverges_of_reaches {trap : σ → Prop}
    (htrap : ∀ s, trap s → cond s = true ∧ trap (body s)) {n : ℕ} {s : σ}
    (hcond : ∀ k < n, cond (body^[k] s) = true) (hn : trap (body^[n] s)) (fuel : ℕ) :
    whileFuel cond body fuel s = none := by
  by_cases hf : n ≤ fuel
  · obtain ⟨m, rfl⟩ : ∃ m, fuel = m + n := ⟨fuel - n, by omega⟩
    rw [whileFuel_iterate m n s hcond]
    exact whileFuel_trap htrap m _ hn
  · -- too little fuel even to reach the trap
    have hlt : ∀ k < fuel, cond (body^[k] s) = true := fun k hk => hcond k (by omega)
    simpa using whileFuel_iterate 0 fuel s hlt

/-- A measure that the body lowers while the condition and an invariant hold: more
fuel than the measure is enough for the loop to stop. -/
theorem whileFuel_of_measure {inv : σ → Prop} (μ : σ → ℕ)
    (hbody : ∀ s, inv s → cond s = true → inv (body s) ∧ μ (body s) < μ s) :
    ∀ (fuel : ℕ) (s : σ), inv s → μ s < fuel → ∃ t, whileFuel cond body fuel s = some t := by
  intro fuel
  induction fuel with
  | zero => exact fun s _ h => absurd h (Nat.not_lt_zero _)
  | succ fuel ih =>
    intro s hs hμ
    cases hc : cond s with
    | true =>
      obtain ⟨hinv, hlt⟩ := hbody s hs hc
      rw [whileFuel_succ_of_cond hc]
      exact ih (body s) hinv (by omega)
    | false => exact ⟨s, whileFuel_succ_of_not hc⟩

end Loop
