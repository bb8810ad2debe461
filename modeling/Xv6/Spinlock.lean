import Xv6.Lib.Count
import Xv6.Lib.Run

/-!
# Spin-locks: `acquire`, `release`, `pushcli` and `popcli`

`acquire(lk)` turns interrupts off with `pushcli`, panics when the CPU already
holds `lk`, and spins on `xchg(&lk->locked, 1)` until it returns `0`; then it
records `lk->cpu = mycpu()`.  `release(lk)` panics unless the CPU holds `lk`,
clears `lk->cpu` and `lk->locked`, and undoes one `pushcli` with `popcli`.  The
two nest: the first `pushcli` saves `FL_IF` in `intena`, and the `popcli` that
brings `ncli` back to `0` turns interrupts on again when they were on.  `holding`
makes its own `pushcli`/`popcli` pair around its test.

This file models CPUs calling `acquire` and `release` on any locks as a
transition system: a step is one call up to the loop of `acquire`, one turn of
that loop, the store of `lk->cpu` after it, or one `release`, of one CPU, in any
interleaving.  Only `xchg` and the stores of `release` touch a lock another CPU
can see.  The two stores of `release` are one step: between them the lock reads
as locked by no CPU, which no step of another CPU tells apart from locked by
this one.  `FL_IF` changes only through `pushcli` and `popcli` here.

## Main definitions

* `Spin.Pc`, `Spin.Lock`, `Spin.Cpu`, `Spin.State` — where each CPU stands, the
  locks and the CPUs.
* `Spin.pushcli`, `Spin.popcli`, `Spin.holding` — as in `spinlock.c`.
* `Spin.Event`, `Spin.step`, `Spin.init` — the steps, and the state at boot.
* `Spin.Holds`, `Spin.held` — a CPU in its critical section for a lock, and the
  number of locks whose `cpu` is it.
* `Spin.Inv` — the invariant.

## Main results

* `Spin.step_acquire`, `Spin.step_release` — what a call does from a state with
  the invariant.
* `Spin.Inv.step` — every step keeps the invariant.
* `Spin.spin_safety` — **mutual exclusion**, and `ncli` counting the nesting, over
  every run.
* `Spin.acquire_release_panics` — a call panics exactly on misuse: `popcli`
  never does.
-/

namespace Xv6

namespace Spin

/-- Where a CPU stands in `acquire`. -/
inductive Pc (L : Type)
  /-- Outside `acquire`. -/
  | idle
  /-- In the loop `while(xchg(&lk->locked, 1) != 0)`. -/
  | spinning (lk : L)
  /-- Past the loop, before `lk->cpu = mycpu()`. -/
  | locking (lk : L)
  deriving DecidableEq

/-- The fields of `struct spinlock` that `acquire`, `release` and `holding` use;
`cpu` is `none` for `0`. -/
structure Lock (C : Type) where
  locked : Bool
  cpu : Option C
  deriving DecidableEq

/-- The fields of `struct cpu` that `pushcli` and `popcli` use, with the `FL_IF`
bit of the CPU's `%eflags` as `intr`. -/
structure Cpu (L : Type) where
  ncli : ℤ
  intena : Bool
  intr : Bool
  pc : Pc L
  deriving DecidableEq

/-- The locks and the CPUs. -/
structure State (C L : Type) where
  locks : L → Lock C
  cpus : C → Cpu L

variable {C L : Type}

/-- `pushcli()`: `cli()`, with `intena = eflags & FL_IF` when `ncli` was `0`. -/
def pushcli (k : Cpu L) : Cpu L :=
  { k with ncli := k.ncli + 1, intena := if k.ncli = 0 then k.intr else k.intena, intr := false }

/-- `popcli()`; `none` at `panic("popcli - interruptible")` and at `panic("popcli")`. -/
def popcli (k : Cpu L) : Option (Cpu L) :=
  if k.intr then none
  else if k.ncli - 1 < 0 then none
  else some { k with ncli := k.ncli - 1, intr := if k.ncli - 1 = 0 ∧ k.intena then true else k.intr }

@[simp] theorem pushcli_ncli (k : Cpu L) : (pushcli k).ncli = k.ncli + 1 := rfl

@[simp] theorem pushcli_intr (k : Cpu L) : (pushcli k).intr = false := rfl

@[simp] theorem pushcli_pc (k : Cpu L) : (pushcli k).pc = k.pc := rfl

/-- `pushcli` then `popcli` on a CPU with interrupts off inside a critical section
changes nothing. -/
theorem popcli_pushcli {k : Cpu L} (hn : 0 < k.ncli) (hi : k.intr = false) : popcli (pushcli k) = some k := by
  obtain ⟨n, e, i, pc⟩ := k
  dsimp only at hn hi
  subst hi
  simp [popcli, pushcli, show n ≠ 0 by omega, show ¬ n < 0 by omega]

/-- `popcli` inside a critical section with interrupts off: one level less, and
interrupts back to `intena` at the last. -/
theorem popcli_eq {k : Cpu L} (hn : 0 < k.ncli) (hi : k.intr = false) :
    popcli k = some { k with ncli := k.ncli - 1, intr := decide (k.ncli = 1) && k.intena } := by
  unfold popcli
  rw [hi, if_neg Bool.false_ne_true, if_neg (by omega)]
  by_cases h1 : k.ncli = 1
  · cases k.intena <;> simp [h1]
  · have : k.ncli - 1 ≠ 0 := by omega
    simp [h1, this]

section SetCpu

variable [DecidableEq C]

/-- CPU `c` changed to `k`. -/
def State.setCpu (s : State C L) (c : C) (k : Cpu L) : State C L := { s with cpus := Function.update s.cpus c k }

@[simp] theorem setCpu_locks (s : State C L) (c : C) (k : Cpu L) : (s.setCpu c k).locks = s.locks := rfl

@[simp] theorem setCpu_cpus (s : State C L) (c : C) (k : Cpu L) : (s.setCpu c k).cpus = Function.update s.cpus c k :=
  rfl

@[simp] theorem setCpu_setCpu (s : State C L) (c : C) (k k' : Cpu L) : (s.setCpu c k).setCpu c k' = s.setCpu c k' := by
  simp [State.setCpu]

/-- `holding(lk)` on CPU `c`, between its own `pushcli()` and `popcli()`: the
answer, and the CPU after. -/
def holding (s : State C L) (c : C) (lk : L) : Option (Bool × Cpu L) :=
  (popcli (pushcli (s.cpus c))).map fun k => ((s.locks lk).locked && (s.locks lk).cpu == some c, k)

end SetCpu

section SetLock

variable [DecidableEq L]

/-- Lock `lk` changed to `l`. -/
def State.setLock (s : State C L) (lk : L) (l : Lock C) : State C L :=
  { s with locks := Function.update s.locks lk l }

@[simp] theorem setLock_cpus (s : State C L) (lk : L) (l : Lock C) : (s.setLock lk l).cpus = s.cpus := rfl

@[simp] theorem setLock_locks (s : State C L) (lk : L) (l : Lock C) :
    (s.setLock lk l).locks = Function.update s.locks lk l :=
  rfl

end SetLock

/-- A step of one CPU. -/
inductive Event (C L : Type)
  /-- `acquire(lk)` up to its loop: `pushcli()` and the `holding` test. -/
  | acquire (c : C) (lk : L)
  /-- One `xchg(&lk->locked, 1)` of the loop. -/
  | spin (c : C)
  /-- `lk->cpu = mycpu()`, after the loop. -/
  | setCpu (c : C)
  /-- `release(lk)`. -/
  | release (c : C) (lk : L)

/-- The state at boot: every lock free, and every CPU out of `acquire` with
`ncli = 0` and its `FL_IF` bit `IF₀ c`. -/
def init (IF₀ : C → Bool) : State C L := ⟨fun _ => ⟨false, none⟩, fun c => ⟨0, false, IF₀ c, .idle⟩⟩

/-- CPU `c` is in its critical section for `lk`: `lk->cpu` is `c`, or `c` is past
the loop of `acquire(lk)`. -/
def Holds (s : State C L) (c : C) (lk : L) : Prop := (s.locks lk).cpu = some c ∨ (s.cpus c).pc = .locking lk

/-- The number of locks whose `cpu` is `c`. -/
def held [Fintype L] [DecidableEq C] (s : State C L) (c : C) : ℕ := Count.count (Lock.cpu ∘ s.locks) (some c)

variable [DecidableEq C] [DecidableEq L]

/-- One step; `none` at a panic, or for a step the CPU is not at. -/
def step (s : State C L) : Event C L → Option (State C L)
  | .acquire c lk =>
    if (s.cpus c).pc = .idle then
      let s₁ := s.setCpu c (pushcli (s.cpus c))
      (holding s₁ c lk).bind fun r => if r.1 then none else some (s₁.setCpu c { r.2 with pc := .spinning lk })
    else none
  | .spin c =>
    match (s.cpus c).pc with
    | .spinning lk =>
      -- `xchg` stores `1` and returns what the lock held
      let s₁ := s.setLock lk { s.locks lk with locked := true }
      if (s.locks lk).locked then some s₁ else some (s₁.setCpu c { s.cpus c with pc := .locking lk })
    | _ => none
  | .setCpu c =>
    match (s.cpus c).pc with
    | .locking lk => some ((s.setLock lk { s.locks lk with cpu := some c }).setCpu c { s.cpus c with pc := .idle })
    | _ => none
  | .release c lk =>
    if (s.cpus c).pc = .idle then
      (holding s c lk).bind fun r =>
        if r.1 then (popcli r.2).map fun k => (s.setLock lk ⟨false, none⟩).setCpu c k else none
    else none

/-! ### The invariant -/

/-- What `pushcli` and `popcli` keep on one CPU that holds `n` locks, `if₀` being
its `FL_IF` bit at boot: `ncli` counts the locks and a call of `acquire` in
progress, interrupts are off while it is positive and `intena` keeps `if₀`, and
interrupts are as at boot when it is `0`. -/
structure CpuInv (if₀ : Bool) (n : ℕ) (k : Cpu L) : Prop where
  ncli : k.ncli = n + if k.pc = .idle then 0 else 1
  intr : 0 < k.ncli → k.intr = false
  intena : 0 < k.ncli → k.intena = if₀
  restore : k.ncli = 0 → k.intr = if₀

theorem CpuInv.ncli_nonneg {if₀ : Bool} {n : ℕ} {k : Cpu L} (h : CpuInv if₀ n k) : 0 ≤ k.ncli := by
  rw [h.ncli]
  split <;> omega

/-- Moving within `acquire` changes no level. -/
theorem CpuInv.setPc {if₀ : Bool} {n : ℕ} {k : Cpu L} (h : CpuInv if₀ n k) (hk : k.pc ≠ .idle) {p : Pc L}
    (hp : p ≠ .idle) : CpuInv if₀ n { k with pc := p } :=
  ⟨by rw [h.ncli, if_neg hk, if_neg hp], h.intr, h.intena, h.restore⟩

/-- Leaving `acquire` with one lock more keeps the level. -/
theorem CpuInv.finish {if₀ : Bool} {n : ℕ} {k : Cpu L} (h : CpuInv if₀ n k) (hk : k.pc ≠ .idle) :
    CpuInv if₀ (n + 1) ({ k with pc := .idle } : Cpu L) :=
  ⟨by rw [h.ncli, if_neg hk]; simp, h.intr, h.intena, h.restore⟩

variable [Fintype L]

/-- The invariant: a lock is locked exactly when a CPU is in its critical section,
at most one is, a CPU past the loop finds `lk->cpu` clear, and `CpuInv` on every
CPU. -/
structure Inv (IF₀ : C → Bool) (s : State C L) : Prop where
  locked : ∀ lk, (s.locks lk).locked = true ↔ ∃ c, Holds s c lk
  excl : ∀ lk c c', Holds s c lk → Holds s c' lk → c = c'
  fresh : ∀ c lk, (s.cpus c).pc = .locking lk → (s.locks lk).cpu = none
  cpu : ∀ c, CpuInv (IF₀ c) (held s c) (s.cpus c)

section Inv

variable {IF₀ : C → Bool} {s : State C L}

theorem inv_init : Inv IF₀ (init IF₀ : State C L) where
  locked lk := by simp [init, Holds]
  excl lk c c' h := by simp [init, Holds] at h
  fresh c lk h := by simp [init] at h
  cpu c := by
    have h0 : held (init IF₀ : State C L) c = 0 := by
      rw [held, ← Nat.le_zero, ← not_lt, Count.count_pos_iff]
      rintro ⟨lk, h⟩
      simp [init] at h
    exact ⟨by rw [h0]; simp [init], fun h => by simp [init] at h, fun h => by simp [init] at h, fun _ => rfl⟩

/-- A CPU whose `cpu` field some lock records holds a level of `pushcli`. -/
theorem Inv.ncli_pos_of_cpu (hi : Inv IF₀ s) {c : C} {lk : L} (h : (s.locks lk).cpu = some c) :
    0 < (s.cpus c).ncli := by
  have hpos : 0 < held s c := Count.count_pos_iff.mpr ⟨lk, h⟩
  rw [(hi.cpu c).ncli]
  split <;> omega

/-- Under the invariant, `holding` answers whether `lk->cpu` is the CPU. -/
theorem Inv.holding_iff (hi : Inv IF₀ s) (c : C) (lk : L) :
    ((s.locks lk).locked && (s.locks lk).cpu == some c) = decide ((s.locks lk).cpu = some c) := by
  by_cases h : (s.locks lk).cpu = some c
  · have hl := (hi.locked lk).mpr ⟨c, .inl h⟩
    simp [h, hl]
  · simp [h]

end Inv

/-! ### What each call does -/

section Calls

variable {IF₀ : C → Bool} {s : State C L}

/-- `acquire(lk)` panics only on a lock the CPU holds; otherwise it leaves the CPU
in the loop one level of `pushcli` deeper. -/
theorem step_acquire (hi : Inv IF₀ s) (c : C) (lk : L) :
    step s (.acquire c lk) =
      if (s.cpus c).pc = .idle ∧ (s.locks lk).cpu ≠ some c then
        some (s.setCpu c { pushcli (s.cpus c) with pc := .spinning lk })
      else none := by
  simp only [step]
  by_cases hpc : (s.cpus c).pc = .idle
  swap
  · rw [if_neg hpc, if_neg fun h => hpc h.1]
  rw [if_pos hpc]
  -- inside `acquire`, `holding` runs with interrupts off and `ncli` positive
  have hn : 0 < (pushcli (s.cpus c)).ncli := by
    rw [pushcli_ncli]
    have := (hi.cpu c).ncli_nonneg
    omega
  have hh : holding (s.setCpu c (pushcli (s.cpus c))) c lk =
      some (decide ((s.locks lk).cpu = some c), pushcli (s.cpus c)) := by
    unfold holding
    rw [setCpu_cpus, Function.update_self, popcli_pushcli hn (pushcli_intr _), Option.map_some, setCpu_locks,
      hi.holding_iff]
  rw [hh, Option.bind_some]
  by_cases hc : (s.locks lk).cpu = some c
  · simp [hc]
  · simp [hc, hpc]

/-- `release(lk)` panics only on a lock the CPU does not hold; otherwise it clears
the lock and pops one level. -/
theorem step_release (hi : Inv IF₀ s) (c : C) (lk : L) :
    step s (.release c lk) =
      if (s.cpus c).pc = .idle ∧ (s.locks lk).cpu = some c then
        some ((s.setLock lk ⟨false, none⟩).setCpu c
          { s.cpus c with ncli := (s.cpus c).ncli - 1,
                          intr := decide ((s.cpus c).ncli = 1) && (s.cpus c).intena })
      else none := by
  simp only [step]
  by_cases hpc : (s.cpus c).pc = .idle
  swap
  · rw [if_neg hpc, if_neg fun h => hpc h.1]
  rw [if_pos hpc]
  by_cases hc : (s.locks lk).cpu = some c
  · -- the holder has interrupts off and `ncli` positive: neither `popcli` panics
    have hn := hi.ncli_pos_of_cpu hc
    have hoff := (hi.cpu c).intr hn
    have hh : holding s c lk = some (true, s.cpus c) := by
      unfold holding
      rw [popcli_pushcli hn hoff, Option.map_some, hi.holding_iff, decide_eq_true hc]
    rw [hh, Option.bind_some, if_pos rfl, popcli_eq hn hoff, Option.map_some, if_pos ⟨hpc, hc⟩]
  · rw [if_neg fun h => hc h.2]
    -- `holding` says no, whatever its `popcli` leaves
    rcases hh : popcli (pushcli (s.cpus c)) with _ | k
    · simp [holding, hh]
    · simp [holding, hh, hi.holding_iff, hc]

end Calls

/-! ### Every step keeps the invariant -/

section Steps

variable {IF₀ : C → Bool} {s : State C L}

omit [DecidableEq C] [Fintype L] in
theorem setLock_self (s : State C L) (lk : L) : s.setLock lk (s.locks lk) = s := by
  simp [State.setLock]

omit [DecidableEq L] in
theorem held_setCpu (s : State C L) (c : C) (k : Cpu L) : held (s.setCpu c k) = held s := rfl

/-- A change of one lock's `cpu` changes each CPU's count by what the lock recorded
and records. -/
theorem held_setLock (s : State C L) (lk : L) (l : Lock C) (c : C) :
    held (s.setLock lk l) c + (if (s.locks lk).cpu = some c then 1 else 0) =
      held s c + if l.cpu = some c then 1 else 0 :=
  Count.count_comp_update Lock.cpu s.locks lk l (some c)

/-- `acquire` up to its loop: the CPU one level deeper, no lock changed. -/
theorem Inv.acquire (hi : Inv IF₀ s) {c : C} {lk : L} (hpc : (s.cpus c).pc = .idle) :
    Inv IF₀ (s.setCpu c { pushcli (s.cpus c) with pc := .spinning lk }) := by
  -- no CPU enters or leaves a critical section
  have hholds : ∀ c' lk', Holds (s.setCpu c { pushcli (s.cpus c) with pc := .spinning lk }) c' lk' ↔ Holds s c' lk' := by
    intro c' lk'
    unfold Holds
    by_cases hc : c' = c
    · subst hc
      simp [hpc]
    · simp [hc]
  refine ⟨fun lk' => ?_, fun lk' c₁ c₂ h₁ h₂ => ?_, fun c' lk' h => ?_, fun c' => ?_⟩
  · simp only [hholds, setCpu_locks]
    exact hi.locked lk'
  · exact hi.excl lk' c₁ c₂ ((hholds c₁ lk').mp h₁) ((hholds c₂ lk').mp h₂)
  · by_cases hc : c' = c
    · subst hc
      simp at h
    · rw [setCpu_cpus, Function.update_of_ne hc] at h
      exact hi.fresh c' lk' h
  · rw [held_setCpu]
    by_cases hc : c' = c
    · -- `pushcli` from a level that `CpuInv` describes
      subst hc
      have hk := hi.cpu c'
      have h0 := hk.ncli_nonneg
      rw [setCpu_cpus, Function.update_self]
      refine ⟨?_, fun _ => rfl, fun _ => ?_, fun h => ?_⟩
      · simp only [pushcli_ncli]
        rw [hk.ncli, hpc]
        simp
      · simp only [pushcli]
        split_ifs with hz
        · exact hk.restore hz
        · exact hk.intena (by omega)
      · simp only [pushcli_ncli] at h
        omega
    · rw [setCpu_cpus, Function.update_of_ne hc]
      exact hi.cpu c'

/-- A turn of the loop that finds the lock free takes it. -/
theorem Inv.spin_free (hi : Inv IF₀ s) {c : C} {lk : L} (hpc : (s.cpus c).pc = .spinning lk)
    (hl : (s.locks lk).locked = false) :
    Inv IF₀ ((s.setLock lk { s.locks lk with locked := true }).setCpu c { s.cpus c with pc := .locking lk }) := by
  set t := (s.setLock lk { s.locks lk with locked := true }).setCpu c { s.cpus c with pc := .locking lk } with ht
  -- nobody held the free lock, so its `cpu` is clear
  have hfree : ∀ c', ¬ Holds s c' lk := fun c' h => by
    rw [(hi.locked lk).mpr ⟨c', h⟩] at hl
    cases hl
  have hcpu : ∀ lk', (t.locks lk').cpu = (s.locks lk').cpu := by
    intro lk'
    by_cases hk : lk' = lk
    · subst hk
      simp [ht]
    · simp [ht, hk]
  have hholds : ∀ c' lk', Holds t c' lk' ↔ Holds s c' lk' ∨ c' = c ∧ lk' = lk := by
    intro c' lk'
    unfold Holds
    rw [hcpu]
    by_cases hc : c' = c
    · subst hc
      simp [ht, hpc, eq_comm]
    · simp [ht, hc]
  refine ⟨fun lk' => ?_, fun lk' c₁ c₂ h₁ h₂ => ?_, fun c' lk' h => ?_, fun c' => ?_⟩
  · simp only [hholds]
    by_cases hk : lk' = lk
    · subst hk
      simp [ht]
    · simp only [ht, setCpu_locks, setLock_locks, Function.update_of_ne hk, hk, and_false, or_false]
      exact hi.locked lk'
  · rw [hholds] at h₁ h₂
    rcases h₁ with h₁ | ⟨rfl, rfl⟩ <;> rcases h₂ with h₂ | ⟨rfl, hk⟩
    · exact hi.excl lk' c₁ c₂ h₁ h₂
    · exact absurd (hk ▸ h₁) (hfree c₁)
    · exact absurd h₂ (hfree c₂)
    · rfl
  · rw [hcpu]
    by_cases hc : c' = c
    · subst hc
      have hk : lk' = lk := by simpa [ht, eq_comm] using h
      subst hk
      rcases hcl : (s.locks lk').cpu with _ | c₁
      · rfl
      · exact absurd (show Holds s c₁ _ from .inl hcl) (hfree c₁)
    · simp only [ht, setCpu_cpus, Function.update_of_ne hc] at h
      exact hi.fresh c' lk' h
  · have hheld : held t c' = held s c' := by
      unfold held
      simp only [ht, setCpu_locks, setLock_locks]
      exact Count.count_comp_update_of_eq (φ := Lock.cpu) (g := s.locks) (a := lk)
        (b := { s.locks lk with locked := true }) rfl _
    rw [hheld]
    by_cases hc : c' = c
    · subst hc
      simp only [ht, setCpu_cpus, Function.update_self]
      exact (hi.cpu c').setPc (by simp [hpc]) (by simp)
    · simp only [ht, setCpu_cpus, Function.update_of_ne hc]
      exact hi.cpu c'

/-- `lk->cpu = mycpu()`: the lock taken in the loop is recorded, and `acquire`
returns. -/
theorem Inv.setCpu (hi : Inv IF₀ s) {c : C} {lk : L} (hpc : (s.cpus c).pc = .locking lk) :
    Inv IF₀ ((s.setLock lk { s.locks lk with cpu := some c }).setCpu c { s.cpus c with pc := .idle }) := by
  set t := (s.setLock lk { s.locks lk with cpu := some c }).setCpu c { s.cpus c with pc := .idle } with ht
  have hnone := hi.fresh c lk hpc
  -- only `c` was in its critical section for `lk`
  have hother : ∀ c', c' ≠ c → ¬ Holds s c' lk := fun c' hc h => hc (hi.excl lk c' c h (.inr hpc))
  have hholds : ∀ c' lk', Holds t c' lk' ↔ Holds s c' lk' := by
    intro c' lk'
    unfold Holds
    by_cases hk : lk' = lk
    · subst hk
      by_cases hc : c' = c
      · subst hc
        simp [ht, hpc]
      · have := hother c' hc
        unfold Holds at this
        simp only [ht, setCpu_locks, setLock_locks, Function.update_self, setCpu_cpus,
          Function.update_of_ne hc]
        simp only [not_or] at this
        simp [this.2, hnone, Ne.symm hc]
    · by_cases hc : c' = c
      · subst hc
        simp [ht, hpc, hk, Ne.symm hk]
      · simp [ht, hk, hc]
  refine ⟨fun lk' => ?_, fun lk' c₁ c₂ h₁ h₂ => ?_, fun c' lk' h => ?_, fun c' => ?_⟩
  · simp only [hholds]
    by_cases hk : lk' = lk
    · subst hk
      simpa [ht] using hi.locked lk'
    · simp only [ht, setCpu_locks, setLock_locks, Function.update_of_ne hk]
      exact hi.locked lk'
  · exact hi.excl lk' c₁ c₂ ((hholds c₁ lk').mp h₁) ((hholds c₂ lk').mp h₂)
  · by_cases hc : c' = c
    · subst hc
      simp [ht] at h
    · simp only [ht, setCpu_cpus, Function.update_of_ne hc] at h
      have hk : lk' ≠ lk := fun hk => hother c' hc (.inr (hk ▸ h))
      simp only [ht, setCpu_locks, setLock_locks, Function.update_of_ne hk]
      exact hi.fresh c' lk' h
  · -- the count of `c` grows by the lock, the others stay
    have hcount := held_setLock s lk { s.locks lk with cpu := some c } c'
    rw [hnone] at hcount
    simp only [reduceCtorEq, if_false, Nat.add_zero] at hcount
    by_cases hc : c' = c
    · subst hc
      simp only at hcount
      simp only [ht, held_setCpu, hcount, setCpu_cpus, Function.update_self]
      exact (hi.cpu c').finish (by simp [hpc])
    · simp only [Option.some.injEq, Ne.symm hc, if_false, Nat.add_zero] at hcount
      simp only [ht, held_setCpu, hcount, setCpu_cpus, Function.update_of_ne hc]
      exact hi.cpu c'

/-- `release(lk)` by its holder: the lock cleared, and one level of `pushcli`
undone. -/
theorem Inv.release (hi : Inv IF₀ s) {c : C} {lk : L} (hpc : (s.cpus c).pc = .idle)
    (hc : (s.locks lk).cpu = some c) :
    Inv IF₀ ((s.setLock lk ⟨false, none⟩).setCpu c
      { s.cpus c with ncli := (s.cpus c).ncli - 1, intr := decide ((s.cpus c).ncli = 1) && (s.cpus c).intena }) := by
  set t := (s.setLock lk ⟨false, none⟩).setCpu c
    { s.cpus c with ncli := (s.cpus c).ncli - 1, intr := decide ((s.cpus c).ncli = 1) && (s.cpus c).intena } with ht
  -- only `c` was in its critical section for `lk`, and it is not in `acquire`
  have hother : ∀ c', ¬ (s.cpus c').pc = .locking lk := fun c' h => by
    have := hi.excl lk c' c (.inr h) (.inl hc)
    subst this
    rw [hpc] at h
    cases h
  have hholds : ∀ c' lk', Holds t c' lk' ↔ Holds s c' lk' ∧ lk' ≠ lk := by
    intro c' lk'
    unfold Holds
    by_cases hk : lk' = lk
    · subst hk
      by_cases hc' : c' = c
      · subst hc'
        simp [ht, hpc]
      · simp [ht, hc', hother c']
    · by_cases hc' : c' = c
      · subst hc'
        simp [ht, hpc, hk]
      · simp [ht, hc', hk]
  have hpos := hi.ncli_pos_of_cpu hc
  refine ⟨fun lk' => ?_, fun lk' c₁ c₂ h₁ h₂ => ?_, fun c' lk' h => ?_, fun c' => ?_⟩
  · simp only [hholds]
    by_cases hk : lk' = lk
    · subst hk
      simp [ht]
    · simp only [ht, setCpu_locks, setLock_locks, Function.update_of_ne hk, ne_eq, hk, not_false_eq_true,
        and_true]
      exact hi.locked lk'
  · exact hi.excl lk' c₁ c₂ ((hholds c₁ lk').mp h₁).1 ((hholds c₂ lk').mp h₂).1
  · have hc' : c' ≠ c := by
      rintro rfl
      simp [ht, hpc] at h
    simp only [ht, setCpu_cpus, Function.update_of_ne hc'] at h
    have hk : lk' ≠ lk := fun hk => hother c' (hk ▸ h)
    simp only [ht, setCpu_locks, setLock_locks, Function.update_of_ne hk]
    exact hi.fresh c' lk' h
  · -- the count of `c` drops by the lock, the others stay
    by_cases hcc : c' = c
    · subst hcc
      have hk := hi.cpu c'
      have hcount : held t c' + 1 = held s c' := by
        rw [ht, held_setCpu]
        simpa [hc] using held_setLock s lk ⟨false, none⟩ c'
      have hn : (s.cpus c').ncli = held s c' := by
        rw [hk.ncli, hpc]
        simp
      have hcpu : t.cpus c' =
          { s.cpus c' with ncli := (s.cpus c').ncli - 1, intr := decide ((s.cpus c').ncli = 1) && (s.cpus c').intena } := by
        simp [ht]
      rw [hcpu]
      refine ⟨?_, fun h => ?_, fun h => hk.intena (by dsimp only at h; omega), fun h => ?_⟩
      · dsimp only
        rw [hpc]
        simp only [if_true, Int.add_zero]
        omega
      · have : (s.cpus c').ncli ≠ 1 := by dsimp only at h; omega
        simp [this]
      · have h1 : (s.cpus c').ncli = 1 := by dsimp only at h; omega
        simp only [h1, decide_true, Bool.true_and]
        exact hk.intena (by omega)
    · have hcount : held t c' = held s c' := by
        rw [ht, held_setCpu]
        simpa [hc, Ne.symm hcc] using held_setLock s lk ⟨false, none⟩ c'
      simp only [ht, setCpu_cpus, Function.update_of_ne hcc]
      rw [hcount]
      exact hi.cpu c'

/-- **Every step keeps the invariant.** -/
theorem Inv.step (hi : Inv IF₀ s) {e : Event C L} {t : State C L} (h : step s e = some t) : Inv IF₀ t := by
  cases e with
  | acquire c lk =>
    rw [step_acquire hi] at h
    split_ifs at h with hok
    cases h
    exact hi.acquire hok.1
  | spin c =>
    simp only [Spin.step] at h
    split at h
    next lk hpc =>
      by_cases hl : (s.locks lk).locked = true
      · -- the lock was taken: `xchg` stores the `1` it read
        rw [if_pos hl] at h
        cases h
        have hsame : { s.locks lk with locked := true } = s.locks lk := by rw [← hl]
        rwa [hsame, setLock_self]
      · rw [if_neg hl] at h
        cases h
        exact hi.spin_free hpc (Bool.eq_false_iff.mpr hl)
    next => cases h
  | setCpu c =>
    simp only [Spin.step] at h
    split at h
    next lk hpc =>
      cases h
      exact hi.setCpu hpc
    next => cases h
  | release c lk =>
    rw [step_release hi] at h
    split_ifs at h with hok
    cases h
    exact hi.release hok.1 hok.2

end Steps

/-! ### Over every run -/

section Runs

variable {IF₀ : C → Bool} {es : List (Event C L)} {s : State C L}

theorem inv_of_run (h : Transition.runFn step (init IF₀) es = some s) : Inv IF₀ s :=
  (Transition.Run.of_runFn h).invariant (fun _ _ _ hi hst => hi.step hst) inv_init

/-- **Spin-locks.**  Over every run of `acquire` and `release` calls on any CPUs
and locks, in any interleaving: no two CPUs are in a critical section for one lock
at once; `ncli` is the number of locks a CPU holds, and one more inside `acquire`;
a CPU inside a critical section or in `acquire` has interrupts off; and a CPU that
holds no lock, out of `acquire`, has interrupts as they were at boot. -/
theorem spin_safety (h : Transition.runFn step (init IF₀) es = some s) :
    (∀ lk c c', Holds s c lk → Holds s c' lk → c = c') ∧
      (∀ c, (s.cpus c).ncli = held s c + if (s.cpus c).pc = .idle then 0 else 1) ∧
      (∀ c, ((∃ lk, Holds s c lk) ∨ (s.cpus c).pc ≠ .idle) → (s.cpus c).intr = false) ∧
      (∀ c, held s c = 0 → (s.cpus c).pc = .idle → (s.cpus c).intr = IF₀ c) := by
  have hi := inv_of_run h
  refine ⟨hi.excl, fun c => (hi.cpu c).ncli, fun c hin => (hi.cpu c).intr ?_, fun c h0 hpc => ?_⟩
  · -- inside a critical section or `acquire`, `ncli` is positive
    rcases hin with ⟨lk, hh | hh⟩ | hpc
    · exact hi.ncli_pos_of_cpu hh
    · rw [(hi.cpu c).ncli, hh]
      simp
    · rw [(hi.cpu c).ncli, if_neg hpc]
      omega
  · apply (hi.cpu c).restore
    rw [(hi.cpu c).ncli, h0, hpc]
    simp

/-- CPU `0` takes the lock, CPU `1` spins on it until CPU `0` releases it, then
takes it. -/
theorem spin_safety_handoff :
    ∃ s, Transition.runFn (step (C := Fin 2) (L := Fin 1)) (init fun _ => true)
        [.acquire 0 0, .acquire 1 0, .spin 0, .spin 1, .setCpu 0, .spin 1, .release 0 0, .spin 1, .setCpu 1] =
          some s ∧
      ∀ lk c c', Holds s c lk → Holds s c' lk → c = c' := by
  obtain ⟨s, hs⟩ := Option.isSome_iff_exists.mp (show (Transition.runFn (step (C := Fin 2) (L := Fin 1))
      (init fun _ => true)
      [.acquire 0 0, .acquire 1 0, .spin 0, .spin 1, .setCpu 0, .spin 1, .release 0 0, .spin 1, .setCpu 1]).isSome =
        true by decide)
  exact ⟨s, hs, (spin_safety hs).1⟩

/-- **No `popcli` panic.**  In every state of every run, `acquire(lk)` panics
exactly when the CPU holds `lk` already, and `release(lk)` exactly when it does
not hold `lk` (or is inside `acquire`): the panics of `popcli` are never reached. -/
theorem acquire_release_panics (h : Transition.runFn step (init IF₀) es = some s) (c : C) (lk : L) :
    (step s (.acquire c lk) = none ↔ (s.cpus c).pc ≠ .idle ∨ (s.locks lk).cpu = some c) ∧
      (step s (.release c lk) = none ↔ (s.cpus c).pc ≠ .idle ∨ (s.locks lk).cpu ≠ some c) := by
  have hi := inv_of_run h
  rw [step_acquire hi, step_release hi]
  constructor
  · by_cases hok : (s.cpus c).pc = .idle ∧ (s.locks lk).cpu ≠ some c
    · rw [if_pos hok]
      simp only [reduceCtorEq, false_iff, not_or, not_not]
      exact hok
    · rw [if_neg hok]
      simp only [true_iff]
      by_contra hne
      exact hok (not_or.mp hne |>.imp not_not.mp id)
  · by_cases hok : (s.cpus c).pc = .idle ∧ (s.locks lk).cpu = some c
    · rw [if_pos hok]
      simp only [reduceCtorEq, false_iff, not_or, not_not]
      exact hok
    · rw [if_neg hok]
      simp only [true_iff]
      by_contra hne
      exact hok (not_or.mp hne |>.imp not_not.mp not_not.mp)

/-- The same run: at its end CPU `1` holds the lock, so a second `acquire` of it by
CPU `1` panics, a `release` of it by CPU `0` panics, and one by CPU `1` does not. -/
theorem acquire_release_panics_handoff :
    ∃ s, Transition.runFn (step (C := Fin 2) (L := Fin 1)) (init fun _ => true)
        [.acquire 0 0, .acquire 1 0, .spin 0, .spin 1, .setCpu 0, .spin 1, .release 0 0, .spin 1, .setCpu 1] =
          some s ∧
      (step s (.acquire 1 0) = none ↔ (s.cpus 1).pc ≠ .idle ∨ (s.locks 0).cpu = some 1) := by
  obtain ⟨s, hs⟩ := Option.isSome_iff_exists.mp (show (Transition.runFn (step (C := Fin 2) (L := Fin 1))
      (init fun _ => true)
      [.acquire 0 0, .acquire 1 0, .spin 0, .spin 1, .setCpu 0, .spin 1, .release 0 0, .spin 1, .setCpu 1]).isSome =
        true by decide)
  exact ⟨s, hs, (acquire_release_panics hs 1 0).1⟩

end Runs

end Spin

end Xv6
