import Xv6.Atomicity

/-!
# Reserving space in the log

`begin_op` admits an operation only when the blocks already in the header and
`MAXOPBLOCKS` blocks for every operation in progress, its own included, fit in
`LOGSIZE`.  `log_write` then refuses to add to a header of `LOGSIZE` blocks, and
also to one of `log.size - 1` blocks, since the header block is one of the `nlog`
blocks of the log area.  `mkfs` writes `nlog = LOGSIZE = 30`: the reservation
admits thirty logged blocks, the capacity check only twenty-nine.

## Main definitions

* `writesBy p bs v` — process `p` logs the blocks `bs`.
* `threeOps v` — three operations begun together, logging ten, ten and nine
  distinct blocks; `blocksBy p es`, the blocks process `p` logs in `es`.

## Main results

* `beginOp_admits`, `logWrite_eq_none_of_full` — when `begin_op` admits, and that
  `log_write` panics on a full header whatever the block, absorbed or new.
* `log_write_panics_within_reservation` — after `threeOps`, each operation within
  its reservation, the next `log_write` of the third operation panics.
-/

namespace Xv6

namespace LogSys

variable {s : LogSys}

/-- `begin_op` admits an operation when no commit runs and the reservation fits. -/
theorem beginOp_admits (hc : s.log.committing = false)
    (h : (s.log.lh.length : ℤ) + (s.log.outstanding + 1) * maxopblocks ≤ logsize) :
    s.beginOp = some { s with log := { s.log with outstanding := s.log.outstanding + 1 } } := by
  rw [beginOp, if_neg (by simp [hc]), if_neg (not_lt.mpr h)]

/-- `log_write` panics with "too big a transaction" once the header holds
`log.size - 1` blocks, before it looks for the block in the header: an absorbed
block is refused as well as a new one. -/
theorem logWrite_eq_none_of_full (h : (s.log.size : ℤ) - 1 ≤ s.log.lh.length) (b : ℕ) (v : Block) :
    s.logWrite b v = none := by
  rw [logWrite, if_pos (.inr h)]

end LogSys

/-! ### Steps of the history -/

/-- Process `p` logs each block of `bs`, with contents `v`. -/
def writesBy (p : ℕ) (bs : List ℕ) (v : Block) : List LogEvent := bs.map fun b => .logWrite p b v


namespace LogHist

variable {h : LogHist}

theorem init_log (start size : ℕ) (d : Disk) :
    (init start size d).sys.log = ⟨start, size, 0, false, []⟩ := rfl

theorem init_inOp (start size : ℕ) (d : Disk) : (init start size d).sys.inOp = fun _ => false := rfl

/-- A process outside an operation begins one when `begin_op` admits it. -/
theorem step_beginOp {p : ℕ} (hp : h.sys.inOp p = false) (hc : h.sys.log.committing = false)
    (hr : (h.sys.log.lh.length : ℤ) + (h.sys.log.outstanding + 1) * maxopblocks ≤ logsize) :
    ∃ h', h.step (.beginOp p) = some h' ∧
      h'.sys.log = { h.sys.log with outstanding := h.sys.log.outstanding + 1 } ∧
      h'.sys.inOp = Function.update h.sys.inOp p true := by
  refine ⟨{ h with
    sys := { h.sys with
      log := { h.sys.log with outstanding := h.sys.log.outstanding + 1 }
      inOp := Function.update h.sys.inOp p true } }, ?_, rfl, rfl⟩
  rw [step, logStep, if_neg (by simp [hp]), LogSys.beginOp_admits hc hr]
  rfl

/-- A process inside an operation logs a block outside the log area, while the
header has room. -/
theorem step_logWrite {p b : ℕ} {v : Block} (hp : h.sys.inOp p = true) (hb : h.sys.log.home b)
    (hn : h.sys.log.lh.length < logsize) (hsize : h.sys.log.lh.length + 1 < h.sys.log.size)
    (ho : 1 ≤ h.sys.log.outstanding) :
    ∃ h', h.step (.logWrite p b v) = some h' ∧
      h'.sys.log = { h.sys.log with lh := LogSys.absorb h.sys.log.lh b } ∧ h'.sys.inOp = h.sys.inOp := by
  have hfit : ¬((logsize : ℤ) ≤ h.sys.log.lh.length ∨ (h.sys.log.size : ℤ) - 1 ≤ h.sys.log.lh.length) := by
    omega
  refine ⟨{ h with
    sys := { h.sys with
      cache := Function.update h.sys.cache b v
      log := { h.sys.log with lh := LogSys.absorb h.sys.log.lh b } }
    pending := h.pending ++ [(b, v)] }, ?_, rfl, rfl⟩
  rw [step, logStep, if_pos ⟨hp, hb⟩, LogSys.logWrite, if_neg hfit, if_neg (by omega)]
  rfl

/-- A process inside an operation logs the distinct new blocks `bs`, which the
header has room for: they join the header in order. -/
theorem runFn_writesBy {p : ℕ} {v : Block} :
    ∀ (bs : List ℕ) (h : LogHist), h.sys.inOp p = true → 1 ≤ h.sys.log.outstanding →
      (∀ b ∈ bs, h.sys.log.home b ∧ b ∉ h.sys.log.lh) → bs.Nodup →
      h.sys.log.lh.length + bs.length ≤ logsize → h.sys.log.lh.length + bs.length < h.sys.log.size →
      ∃ h', Transition.runFn step h (writesBy p bs v) = some h' ∧
        h'.sys.log = { h.sys.log with lh := h.sys.log.lh ++ bs } ∧ h'.sys.inOp = h.sys.inOp
  | [], h, _, _, _, _, _, _ => ⟨h, rfl, by simp, rfl⟩
  | b :: bs, h, hp, ho, hnew, hnd, hn, hsize => by
    obtain ⟨hb, hbn⟩ := hnew b (.head _)
    simp only [List.length_cons] at hn hsize
    obtain ⟨h₁, hstep, hlog₁, hin₁⟩ := step_logWrite (v := v) hp hb (by omega) (by omega) ho
    have hlh₁ : h₁.sys.log.lh = h.sys.log.lh ++ [b] := by
      rw [hlog₁]
      simp [LogSys.absorb, hbn]
    -- the rest of the blocks, from the header that now holds `b`
    obtain ⟨h', hrun, hlog', hin'⟩ := runFn_writesBy bs h₁ (by rw [hin₁]; exact hp) (by rw [hlog₁]; exact ho)
      (fun b' hb' => by
        obtain ⟨hh, hn'⟩ := hnew b' (.tail _ hb')
        refine ⟨by rw [hlog₁]; exact hh, ?_⟩
        rw [hlh₁, List.mem_append, List.mem_singleton]
        exact fun h => h.elim hn' fun he => (List.nodup_cons.mp hnd).1 (he ▸ hb'))
      (List.nodup_cons.mp hnd).2 (by rw [hlh₁, List.length_append]; simp; omega)
      (by rw [hlh₁, hlog₁, List.length_append]; simp; omega)
    refine ⟨h', by simp only [writesBy, List.map_cons, Transition.runFn, hstep, Option.bind_some]; exact hrun,
      ?_, by rw [hin', hin₁]⟩
    rw [hlog', hlh₁, hlog₁]
    simp

end LogHist

/-! ### Three operations that fill the reservation -/
/-! ### Three operations that fill the reservation -/

/-- Processes `0`, `1` and `2` begin an operation each, and log the distinct data
blocks `32..41`, `42..51` and `52..60`: ten, ten and nine blocks, each within its
`MAXOPBLOCKS`. -/
def threeOps (v : Block) : List LogEvent :=
  [.beginOp 0, .beginOp 1, .beginOp 2] ++ writesBy 0 (List.range' 32 10) v ++
    writesBy 1 (List.range' 42 10) v ++ writesBy 2 (List.range' 52 9) v

/-- The blocks process `p` logs in the events `es`, in order. -/
def blocksBy (p : ℕ) (es : List LogEvent) : List ℕ :=
  es.filterMap fun e => match e with
    | .logWrite q b _ => if q = p then some b else none
    | _ => none

/-- **`log_write` panics inside the reservation.**  On the log `mkfs` lays out
(`start = 2`, `nlog = 30`), whatever the disk: the three operations of `threeOps`
are all admitted and all their writes accepted; the header then holds 29 blocks
with three operations in progress, more than `begin_op`'s bound of `LOGSIZE`.
The third operation, which has logged nine blocks, then makes the `log_write`
panic, both for a tenth block and for one it logged already. -/
theorem log_write_panics_within_reservation (d : Disk) (v : Block) :
    (∀ p < 3, (blocksBy p (threeOps v)).Nodup ∧ (blocksBy p (threeOps v)).length ≤ maxopblocks) ∧
    ∃ h, Transition.Run LogHist.Step (LogHist.init 2 30 d) (threeOps v) h ∧
      h.sys.log.outstanding = 3 ∧ h.sys.log.lh.length = 29 ∧ h.sys.inOp 2 = true ∧
      (logsize : ℤ) < h.sys.log.lh.length + h.sys.log.outstanding * maxopblocks ∧
      h.sys.logWrite 61 v = none ∧ h.sys.logWrite 52 v = none ∧ 52 ∈ h.sys.log.lh := by
  -- the blocks each operation logs do not depend on their contents
  have hby : ∀ p, blocksBy p (threeOps v) = blocksBy p (threeOps fun _ => 0) := fun _ => rfl
  refine ⟨fun p hp => by rw [hby]; interval_cases p <;> decide, ?_⟩
  -- three admissions
  obtain ⟨h₁, hs₁, hl₁, hi₁⟩ := LogHist.step_beginOp (h := LogHist.init 2 30 d) (p := 0) rfl rfl
    (by rw [LogHist.init_log]; decide)
  rw [LogHist.init_log] at hl₁
  rw [LogHist.init_inOp] at hi₁
  obtain ⟨h₂, hs₂, hl₂, hi₂⟩ := LogHist.step_beginOp (h := h₁) (p := 1)
    (by rw [hi₁]; rfl) (by rw [hl₁]) (by rw [hl₁]; decide)
  rw [hl₁] at hl₂
  obtain ⟨h₃, hs₃, hl₃, hi₃⟩ := LogHist.step_beginOp (h := h₂) (p := 2)
    (by rw [hi₂, hi₁]; rfl) (by rw [hl₂]) (by rw [hl₂]; decide)
  have hlog₃ : h₃.sys.log = ⟨2, 30, 3, false, []⟩ := by rw [hl₃, hl₂]; rfl
  have hin₃ : ∀ p < 3, h₃.sys.inOp p = true := fun p hp => by
    rw [hi₃, hi₂, hi₁]
    interval_cases p <;> simp
  -- thirty writes would fit the reservation; these twenty-nine fit the log
  obtain ⟨h₄, hr₄, hl₄, hi₄⟩ := LogHist.runFn_writesBy (v := v) (List.range' 32 10) h₃ (hin₃ 0 (by decide))
    (by rw [hlog₃]; decide) (by rw [hlog₃]; decide) (by decide) (by rw [hlog₃]; decide) (by rw [hlog₃]; decide)
  rw [hlog₃] at hl₄
  obtain ⟨h₅, hr₅, hl₅, hi₅⟩ := LogHist.runFn_writesBy (v := v) (List.range' 42 10) h₄
    (by rw [hi₄]; exact hin₃ 1 (by decide)) (by rw [hl₄]; decide) (by rw [hl₄]; decide) (by decide)
    (by rw [hl₄]; decide) (by rw [hl₄]; decide)
  rw [hl₄] at hl₅
  obtain ⟨h, hr₆, hl₆, hi₆⟩ := LogHist.runFn_writesBy (v := v) (List.range' 52 9) h₅
    (by rw [hi₅, hi₄]; exact hin₃ 2 (by decide)) (by rw [hl₅]; decide) (by rw [hl₅]; decide) (by decide)
    (by rw [hl₅]; decide) (by rw [hl₅]; decide)
  rw [hl₅] at hl₆
  have hrun : Transition.runFn LogHist.step (LogHist.init 2 30 d) (threeOps v) = some h := by
    simp only [threeOps, Transition.runFn_append, Transition.runFn, hs₁, hs₂, hs₃, Option.bind_some, hr₄, hr₅,
      hr₆]
  have hfull : (h.sys.log.size : ℤ) - 1 ≤ h.sys.log.lh.length := by
    rw [hl₆]
    decide
  refine ⟨h, Transition.Run.of_runFn hrun, by rw [hl₆], by rw [hl₆]; decide,
    by rw [hi₆, hi₅, hi₄]; exact hin₃ 2 (by decide), by rw [hl₆]; decide,
    LogSys.logWrite_eq_none_of_full hfull 61 v, LogSys.logWrite_eq_none_of_full hfull 52 v,
    by rw [hl₆]; decide⟩

end Xv6
