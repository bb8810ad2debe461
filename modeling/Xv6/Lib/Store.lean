import Xv6.Lib.Run

/-!
# Memories observed through reads and writes

A memory maps addresses to values.  What its users observe is a trace of reads,
each with the value it returned, and of writes.  A trace is legal from a memory
when `Transition.runFn step` accepts it: each read returns what the memory holds at
that point.  A cache in front of a memory is correct when every run of the cache
emits a legal trace from the memory behind it, which `Transition.runOut_refines`
reduces to one step of the cache at a time.

## Main definitions

* `Store.Obs` — a read with the value it returned, or a write.
* `Store.step` — the memory on one observation.
* `Store.written` — the memory after the writes of a trace.

## Main results

* `Store.runFn_step_eq` — a legal trace ends in the memory its writes make.
* `Store.read_eq_written` — each read of a legal trace returns the value of the last
  write to its address before it, or the initial value.
-/

namespace Store

/-- An observation of a memory: a read with the value it returned, or a write. -/
inductive Obs (α β : Type*)
  | read (a : α) (v : β)
  | write (a : α) (v : β)
  deriving DecidableEq

variable {α β : Type*} [DecidableEq α] [DecidableEq β]

/-- The memory `m` on one observation: a read must return what `m` holds. -/
def step (m : α → β) : Obs α β → Option (α → β)
  | .read a v => if m a = v then some m else none
  | .write a v => some (Function.update m a v)

/-- The memory after the writes of a trace. -/
def written (m : α → β) : List (Obs α β) → α → β
  | [] => m
  | .read _ _ :: os => written m os
  | .write a v :: os => written (Function.update m a v) os

theorem runFn_read {m : α → β} {a : α} {v : β} (h : m a = v) : Transition.runFn step m [.read a v] = some m := by
  simp [Transition.runFn, step, h]

theorem runFn_write (m : α → β) (a : α) (v : β) :
    Transition.runFn step m [.write a v] = some (Function.update m a v) := rfl

/-- A legal trace ends in the memory its writes make. -/
theorem runFn_step_eq {m m' : α → β} {os : List (Obs α β)} (h : Transition.runFn step m os = some m') :
    m' = written m os := by
  induction os generalizing m with
  | nil => exact (Option.some.inj h).symm
  | cons o os ih =>
    cases o with
    | read a v =>
      simp only [Transition.runFn, step, Option.bind_eq_some_iff, Option.ite_none_right_eq_some,
        Option.some.injEq] at h
      obtain ⟨m₁, ⟨-, rfl⟩, h⟩ := h
      exact ih h
    | write a v => exact ih h

/-- **Reads return the last write.**  In a legal trace, each read returns the value
of the last write to its address before it, or the initial value when there is
none. -/
theorem read_eq_written {m m' : α → β} {pre post : List (Obs α β)} {a : α} {v : β}
    (h : Transition.runFn step m (pre ++ .read a v :: post) = some m') : v = written m pre a := by
  rw [Transition.runFn_append, Option.bind_eq_some_iff] at h
  obtain ⟨m₁, hpre, hrest⟩ := h
  simp only [Transition.runFn, step, Option.bind_eq_some_iff, Option.ite_none_right_eq_some] at hrest
  obtain ⟨_, ⟨hread, -⟩, -⟩ := hrest
  rw [← hread, runFn_step_eq hpre]

end Store
