import Mathlib

/-!
# Runs of a labelled transition system

A system is a step relation `step s e t`: from the state `s` the event `e`
leads to the state `t`.  A run is a sequence of steps, and a state is reachable
when some run leads to it from an initial state.  Invariants are proved once
per step and lifted to runs by `Run.invariant`.

## Main definitions

* `Run step s es t` — the events `es` lead from `s` to `t`.
* `Reachable step init t` — some run from a state satisfying `init` leads to `t`.
* `runFn f s es` — a partial step function run over the events `es`, stopping at the
  first that cannot happen.
* `runOut f s es` — the same for a step function that also emits outputs, collected in
  order.

## Main results

* `Run.invariant`, `Reachable.invariant` — the induction rule for invariants.
* `Run.append` — runs compose.
* `Run.of_runFn` — what `runFn` computes is a run of the relation the function decides.
* `runOut_refines` — a run whose every step an abstraction maps to the abstract steps of
  its outputs is mapped to the abstract run of all its outputs.
* `runOut_conserve` — a queue that each step changes only by the items its outputs
  add and remove keeps, over a run, every item added either removed, in order, or still
  in it.
-/

namespace Transition

variable {σ ε : Type*} {step : σ → ε → σ → Prop}

/-- `Run step s es t`: from `s` the events `es`, in order, lead to `t`. -/
inductive Run (step : σ → ε → σ → Prop) : σ → List ε → σ → Prop
  /-- The empty run stays put. -/
  | nil (s : σ) : Run step s [] s
  /-- A step followed by a run. -/
  | cons {s t u : σ} {e : ε} {es : List ε} : step s e t → Run step t es u → Run step s (e :: es) u

/-- Some run from an initial state leads to `t`. -/
def Reachable (step : σ → ε → σ → Prop) (init : σ → Prop) (t : σ) : Prop :=
  ∃ s es, init s ∧ Run step s es t

theorem Run.append {s t u : σ} {es fs : List ε} (h₁ : Run step s es t) (h₂ : Run step t fs u) :
    Run step s (es ++ fs) u := by
  induction h₁ with
  | nil => exact h₂
  | cons hs _ ih => exact .cons hs (ih h₂)

theorem Run.single {s t : σ} {e : ε} (h : step s e t) : Run step s [e] t := .cons h (.nil t)

/-- An invariant preserved by every step holds along every run. -/
theorem Run.invariant {inv : σ → Prop} (hstep : ∀ s e t, inv s → step s e t → inv t)
    {s t : σ} {es : List ε} (h : Run step s es t) (hs : inv s) : inv t := by
  induction h with
  | nil => exact hs
  | cons hst _ ih => exact ih (hstep _ _ _ hs hst)

/-- An invariant that holds initially and is preserved by every step holds in
every reachable state. -/
theorem Reachable.invariant {init inv : σ → Prop} (hinit : ∀ s, init s → inv s)
    (hstep : ∀ s e t, inv s → step s e t → inv t) {t : σ} (h : Reachable step init t) :
    inv t := by
  obtain ⟨s, es, hs, hr⟩ := h
  exact hr.invariant hstep (hinit s hs)

/-- A partial step function run over events in order, `none` at the first event that
cannot happen. -/
def runFn (f : σ → ε → Option σ) : σ → List ε → Option σ
  | s, [] => some s
  | s, e :: es => (f s e).bind fun t => runFn f t es

/-- What `runFn` computes is a run of the step relation the function decides. -/
theorem Run.of_runFn {f : σ → ε → Option σ} :
    ∀ {s t : σ} {es : List ε}, runFn f s es = some t → Run (fun s e t => f s e = some t) s es t
  | s, _, [], h => by cases h; exact .nil s
  | s, _, e :: es, h => by
    simp only [runFn, Option.bind_eq_some_iff] at h
    obtain ⟨s₁, h₁, h₂⟩ := h
    exact .cons h₁ (Run.of_runFn h₂)

theorem runFn_append (f : σ → ε → Option σ) :
    ∀ (s : σ) (es fs : List ε), runFn f s (es ++ fs) = (runFn f s es).bind fun t => runFn f t fs
  | s, [], fs => rfl
  | s, e :: es, fs => by
    simp only [List.cons_append, runFn]
    cases f s e with
    | none => rfl
    | some t => exact runFn_append f t es fs

/-- Outputs without an abstract counterpart are skipped. -/
theorem runFn_filterMap {ω α : Type*} (g : σ → α → Option σ) (φ : ω → Option α) :
    ∀ (s : σ) (os : List ω),
      runFn (fun s o => (φ o).elim (some s) (g s)) s os = runFn g s (os.filterMap φ)
  | s, [] => rfl
  | s, o :: os => by
    cases h : φ o with
    | none =>
      simp only [runFn, h, Option.elim_none, Option.bind_some, List.filterMap_cons_none h]
      exact runFn_filterMap g φ s os
    | some a =>
      simp only [runFn, h, Option.elim_some, List.filterMap_cons_some h]
      cases g s a with
      | none => rfl
      | some t => exact runFn_filterMap g φ t os

theorem Reachable.tail {init : σ → Prop} {t u : σ} {e : ε} (ht : Reachable step init t)
    (h : step t e u) : Reachable step init u := by
  obtain ⟨s, es, hs, hr⟩ := ht
  exact ⟨s, es ++ [e], hs, hr.append (.single h)⟩

/-! ### Runs with outputs -/

section Out

variable {ω : Type*}

/-- A partial step function that emits outputs, run over events in order: the final
state and all outputs, `none` at the first event that cannot happen. -/
def runOut (f : σ → ε → Option (σ × List ω)) : σ → List ε → Option (σ × List ω)
  | s, [] => some (s, [])
  | s, e :: es => (f s e).bind fun (t, os) => (runOut f t es).map fun (u, os') => (u, os ++ os')

theorem runOut_cons {f : σ → ε → Option (σ × List ω)} {s u : σ} {e : ε} {es : List ε} {os : List ω}
    (h : runOut f s (e :: es) = some (u, os)) :
    ∃ t os₁ os₂, f s e = some (t, os₁) ∧ runOut f t es = some (u, os₂) ∧ os = os₁ ++ os₂ := by
  simp only [runOut, Option.bind_eq_some_iff, Option.map_eq_some_iff, Prod.mk.injEq] at h
  obtain ⟨⟨t, os₁⟩, h₁, ⟨u', os₂⟩, h₂, rfl, rfl⟩ := h
  exact ⟨t, os₁, os₂, h₁, h₂, rfl⟩

variable {f : σ → ε → Option (σ × List ω)} {inv : σ → Prop}

theorem runOut_invariant (hinv : ∀ s e t os, inv s → f s e = some (t, os) → inv t) :
    ∀ {s u : σ} {es : List ε} {os : List ω}, inv s → runOut f s es = some (u, os) → inv u
  | _, _, [], _, hs, h => by
    simp only [runOut, Option.some.injEq, Prod.mk.injEq] at h
    exact h.1 ▸ hs
  | _, _, _ :: _, _, hs, h => by
    obtain ⟨t, _, _, h₁, h₂, -⟩ := runOut_cons h
    exact runOut_invariant hinv (hinv _ _ _ _ hs h₁) h₂

/-- An invariant kept by each admissible step holds after a run of admissible events. -/
theorem runOut_invariant_of {ok : ε → Prop} (hinv : ∀ s e t os, ok e → inv s → f s e = some (t, os) → inv t) :
    ∀ {s u : σ} {es : List ε} {os : List ω}, (∀ e ∈ es, ok e) → inv s → runOut f s es = some (u, os) → inv u
  | _, _, [], _, _, hs, h => by
    simp only [runOut, Option.some.injEq, Prod.mk.injEq] at h
    exact h.1 ▸ hs
  | _, _, e :: _, _, hes, hs, h => by
    obtain ⟨t, _, _, h₁, h₂, -⟩ := runOut_cons h
    exact runOut_invariant_of hinv (fun e' he' => hes e' (List.mem_cons_of_mem _ he'))
      (hinv _ _ _ _ (hes e List.mem_cons_self) hs h₁) h₂

/-- A run of a step function that does less is a run of one that does more. -/
theorem runOut_of_le {g : σ → ε → Option (σ × List ω)} (hfg : ∀ s e r, f s e = some r → g s e = some r) :
    ∀ {s : σ} {es : List ε} {r : σ × List ω}, runOut f s es = some r → runOut g s es = some r
  | _, [], _, h => h
  | _, _ :: _, (_, _), h => by
    obtain ⟨t, os₁, os₂, h₁, h₂, rfl⟩ := runOut_cons h
    simp only [runOut, hfg _ _ _ h₁, Option.bind_some, runOut_of_le hfg h₂, Option.map_some]

/-- Refinement by an abstraction function: when each admissible step, from a state
satisfying an invariant those steps keep, is matched by the abstract steps of its
outputs, a run of admissible events is matched by the abstract run of all its outputs. -/
theorem runOut_refines {τ : Type*} {g : τ → ω → Option τ} {abs : σ → τ} {ok : ε → Prop}
    (hinv : ∀ s e t os, ok e → inv s → f s e = some (t, os) → inv t)
    (hsim : ∀ s e t os, ok e → inv s → f s e = some (t, os) → runFn g (abs s) os = some (abs t)) :
    ∀ {s u : σ} {es : List ε} {os : List ω}, (∀ e ∈ es, ok e) → inv s → runOut f s es = some (u, os) →
      runFn g (abs s) os = some (abs u)
  | _, _, [], _, _, _, h => by
    simp only [runOut, Option.some.injEq, Prod.mk.injEq] at h
    obtain ⟨rfl, rfl⟩ := h
    rfl
  | _, _, e :: _, _, hes, hs, h => by
    obtain ⟨t, os₁, os₂, h₁, h₂, rfl⟩ := runOut_cons h
    have he : ok e := hes e List.mem_cons_self
    rw [runFn_append, hsim _ _ _ _ he hs h₁]
    exact runOut_refines hinv hsim (fun e' he' => hes e' (List.mem_cons_of_mem _ he'))
      (hinv _ _ _ _ he hs h₁) h₂

/-- Conservation of a queue: when each step turns `q s ++ added` into `removed ++ q t`,
with what its outputs add and remove, a run does the same with all its outputs. -/
theorem runOut_conserve {α : Type*} {q : σ → List α} {added removed : ω → List α}
    (hinv : ∀ s e t os, inv s → f s e = some (t, os) → inv t)
    (hstep : ∀ s e t os, inv s → f s e = some (t, os) →
      q s ++ os.flatMap added = os.flatMap removed ++ q t) :
    ∀ {s u : σ} {es : List ε} {os : List ω}, inv s → runOut f s es = some (u, os) →
      q s ++ os.flatMap added = os.flatMap removed ++ q u
  | _, _, [], _, _, h => by
    simp only [runOut, Option.some.injEq, Prod.mk.injEq] at h
    obtain ⟨rfl, rfl⟩ := h
    simp
  | _, _, _ :: _, _, hs, h => by
    obtain ⟨t, os₁, os₂, h₁, h₂, rfl⟩ := runOut_cons h
    have ih := runOut_conserve hinv hstep (hinv _ _ _ _ hs h₁) h₂
    rw [List.flatMap_append, List.flatMap_append, ← List.append_assoc, hstep _ _ _ _ hs h₁,
      List.append_assoc, ih, List.append_assoc]

end Out

end Transition
