import Xv6.Ide
import Xv6.Lib.Count
import Xv6.Lib.Store

/-!
# The buffer cache

`bio.c` keeps `NBUF` buffers on a list in order of last use, most recent first.
`bread` takes a block through `bget`: under `bcache.lock`, the first buffer from the
front that carries the block's identity gets one more reference; failing that, the
last buffer with no reference and nothing to write (`B_DIRTY` clear) is given the
identity with its flags cleared.  `bget` then takes the buffer's sleep-lock, and
`bread` reads the block if the buffer is not valid.  `bwrite` sends the holder's
data to the disk through `iderw`; `log_write` only marks the buffer dirty;
`brelse` drops the lock and the reference and, at the last reference, moves the
buffer to the front.

This file models those steps for processes in any interleaving, each
`bcache.lock` section atomic, over the in-memory disk of `memide.c`.  Over every
run the list holds each buffer once, the reference counts count the processes
using each buffer, a locked buffer has one holder, no two buffers are valid for one
block, and a valid buffer with nothing to write holds what the disk does.  The cache
then presents a block store (`Bcache.view`), and the reads and writes of every run
are a legal trace of that store from the disk the run started on: `bread` returns
the data of the last `bwrite` or `log_write` of the block.

## Main definitions

* `Bio.Bcache`, `Bio.binit` — the cache with the disk behind it, and `binit`.
* `Bio.Bcache.bget`, `Bio.Bcache.step` — `bget`, and one step of a process.
* `Bio.Bcache.view` — the block store the cache presents.
* `Bio.Inv` — what every step keeps.

## Main results

* `Bio.Inv.step`, `Bio.bcache_inv` — every step keeps `Inv`, so every run does.
* `Bio.Inv.step_view` — every step moves the view as the store moves on what it shows.
* `Bio.bread_returns_last_write` — `bread` returns the last data written to the block.
* `Bio.disk_lags_only_dirty` — the disk holds the last data written to every block
  that no dirty buffer holds.
-/

namespace Xv6

instance : DecidableEq Block := inferInstanceAs (DecidableEq (Fin bsize → UInt8))

namespace Memide

/-- `iderw` returns only on a buffer it accepts. -/
theorem iderw_accepts {disksize : ℕ} {s s' : State} {b : Fin nbuf} (h : iderw disksize s b true = some s') :
    (s.buf b).flags.synced = false ∧ (s.buf b).dev = 1 ∧ (s.buf b).blockno < disksize := by
  by_cases h₁ : (s.buf b).flags.synced = true
  · simp [iderw, h₁] at h
  by_cases h₂ : (s.buf b).dev = 1
  swap
  · simp [iderw, h₁, h₂] at h
  by_cases h₃ : disksize ≤ (s.buf b).blockno
  · simp [iderw, h₁, h₂, h₃] at h
  exact ⟨Bool.eq_false_iff.mpr h₁, h₂, by omega⟩

end Memide

namespace Bio

/-- Where a process is between `bread` and `brelse`: `bget` has chosen a buffer and
the sleep-lock is to come, or the process holds the buffer's sleep-lock. -/
inductive Pc
  | idle
  | waiting (b : Fin nbuf)
  | holding (b : Fin nbuf)
  deriving DecidableEq

/-- The buffer a process has a reference to. -/
def Pc.buf : Pc → Option (Fin nbuf)
  | .idle => none
  | .waiting b => some b
  | .holding b => some b

/-- `bcache` with the disk behind it: `ide` holds the disk and each buffer's flags,
identity and data, and `lru` is the list from `bcache.head.next` on. -/
structure Bcache where
  ide : Memide.State
  refcnt : Fin nbuf → ℕ
  lru : List (Fin nbuf)
  locked : Fin nbuf → Bool
  pc : Fin nproc → Pc

/-- `binit` over a disk: the buffers zeroed, as the static `bcache` is, and each
pushed at the front in index order, so the list runs from the last to the first. -/
def binit (d : Disk) : Bcache where
  ide := ⟨d, fun _ => ⟨⟨false, false⟩, 0, 0, fun _ => 0⟩⟩
  refcnt := fun _ => 0
  lru := (List.finRange nbuf).reverse
  locked := fun _ => false
  pc := fun _ => .idle

namespace Bcache

variable (s : Bcache)

/-- The test of `bget`'s first loop: the buffer carries the identity. -/
def caches (dev blockno : ℕ) (b : Fin nbuf) : Bool :=
  (s.ide.buf b).dev = dev ∧ (s.ide.buf b).blockno = blockno

/-- The test of `bget`'s second loop: no reference and nothing to write. -/
def recyclable (b : Fin nbuf) : Bool := s.refcnt b = 0 ∧ (s.ide.buf b).flags.dirty = false

/-- `bget`'s `bcache.lock` section: the buffer found and the state with its new
reference; `none` for the panic "bget: no buffers". -/
def bget (dev blockno : ℕ) : Option (Bcache × Fin nbuf) :=
  match s.lru.find? (s.caches dev blockno) with
  | some b => some ({ s with refcnt := Function.update s.refcnt b (s.refcnt b + 1) }, b)
  | none =>
    match s.lru.reverse.find? s.recyclable with
    | some b =>
      some ({ s with
        ide := { s.ide with
          buf := Function.update s.ide.buf b { s.ide.buf b with dev := dev, blockno := blockno, flags := ⟨false, false⟩ } }
        refcnt := Function.update s.refcnt b 1 }, b)
    | none => none

end Bcache

/-- A step of one process. -/
inductive Event
  /-- `bread`'s call of `bget`, up to `acquiresleep` -/
  | bget (p : Fin nproc) (dev blockno : ℕ)
  /-- the rest of `bread`: the sleep-lock taken, then `iderw` if the buffer is not valid -/
  | bread (p : Fin nproc)
  /-- the holder stores `v` in the buffer and calls `bwrite` -/
  | bwrite (p : Fin nproc) (v : Block)
  /-- the holder stores `v` in the buffer and calls `log_write`, which marks it dirty -/
  | logWrite (p : Fin nproc) (v : Block)
  | brelse (p : Fin nproc)

/-- What the file system sees of a step: block reads and writes on disk 1. -/
abbrev Obs := Store.Obs ℕ Block

/-- The holder's data stored in a buffer, marked dirty: the buffer as `bwrite` passes
it to `iderw` and as `log_write` leaves it. -/
def store (bf : Buf) (v : Block) : Buf := { bf with data := v, flags := { bf.flags with dirty := true } }

namespace Bcache

/-- One step and what it shows; `none` when the step cannot be taken (another phase,
or the sleep-lock held) or panics. -/
def step (s : Bcache) : Event → Option (Bcache × List Obs)
  | .bget p dev blockno =>
    if s.pc p ≠ .idle then none
    else (s.bget dev blockno).map fun r => ({ r.1 with pc := Function.update r.1.pc p (.waiting r.2) }, [])
  | .bread p =>
    match s.pc p with
    | .waiting b =>
      if s.locked b then none
      else
        let ide := if (s.ide.buf b).flags.valid then some s.ide else Memide.iderw fssize s.ide b true
        ide.map fun ide =>
          ({ s with
              ide := ide
              locked := Function.update s.locked b true
              pc := Function.update s.pc p (.holding b) },
            [.read (ide.buf b).blockno (ide.buf b).data])
    | _ => none
  | .bwrite p v =>
    match s.pc p with
    | .holding b =>
      (Memide.iderw fssize { s.ide with buf := Function.update s.ide.buf b (store (s.ide.buf b) v) } b true).map
        fun ide => ({ s with ide := ide }, [.write (s.ide.buf b).blockno v])
    | _ => none
  | .logWrite p v =>
    match s.pc p with
    | .holding b =>
      some ({ s with ide := { s.ide with buf := Function.update s.ide.buf b (store (s.ide.buf b) v) } },
        [.write (s.ide.buf b).blockno v])
    | _ => none
  | .brelse p =>
    match s.pc p with
    | .holding b =>
      let s' := { s with
        locked := Function.update s.locked b false
        refcnt := Function.update s.refcnt b (s.refcnt b - 1)
        pc := Function.update s.pc p .idle }
      some (if s.refcnt b - 1 = 0 then { s' with lru := b :: s.lru.erase b } else s', [])
    | _ => none

end Bcache

namespace Bcache

/-! ### What a step can do -/

section Steps

variable {s t s₁ : Bcache} {p : Fin nproc} {b : Fin nbuf} {dev blockno : ℕ} {v : Block} {os : List Obs}

/-- `bget` finds the buffer carrying the identity, or recycles one: the block is then
carried by no buffer of the list, and the buffer had no reference and nothing to
write. -/
theorem bget_cases (h : s.bget dev blockno = some (s₁, b)) :
    (s.caches dev blockno b = true ∧ s₁ = { s with refcnt := Function.update s.refcnt b (s.refcnt b + 1) }) ∨
    ((∀ b' ∈ s.lru, s.caches dev blockno b' = false) ∧ s.recyclable b = true ∧
      s₁ = { s with
        ide := { s.ide with
          buf := Function.update s.ide.buf b { s.ide.buf b with dev := dev, blockno := blockno, flags := ⟨false, false⟩ } }
        refcnt := Function.update s.refcnt b 1 }) := by
  unfold bget at h
  cases h₁ : s.lru.find? (s.caches dev blockno) with
  | some b₁ =>
    rw [h₁] at h
    simp only [Option.some.injEq, Prod.mk.injEq] at h
    obtain ⟨rfl, rfl⟩ := h
    exact .inl ⟨List.find?_some h₁, rfl⟩
  | none =>
    rw [h₁] at h
    cases h₂ : s.lru.reverse.find? s.recyclable with
    | none => rw [h₂] at h; cases h
    | some b₂ =>
      rw [h₂] at h
      simp only [Option.some.injEq, Prod.mk.injEq] at h
      obtain ⟨rfl, rfl⟩ := h
      exact .inr ⟨fun b' hb' => by simpa using List.find?_eq_none.mp h₁ b' hb', List.find?_some h₂, rfl⟩

theorem step_bget (h : s.step (.bget p dev blockno) = some (t, os)) :
    s.pc p = .idle ∧ os = [] ∧
      ∃ s₁ b, s.bget dev blockno = some (s₁, b) ∧ t = { s₁ with pc := Function.update s₁.pc p (.waiting b) } := by
  simp only [step] at h
  by_cases hp : s.pc p = .idle
  · rw [if_neg (not_not.mpr hp)] at h
    obtain ⟨⟨s₁, b⟩, hb, heq⟩ := Option.map_eq_some_iff.mp h
    simp only [Prod.mk.injEq] at heq
    exact ⟨hp, heq.2.symm, s₁, b, hb, heq.1.symm⟩
  · rw [if_pos hp] at h
    cases h

/-- `bread` after `bget`: the sleep-lock taken, and the buffer read from the disk
when it is not valid. -/
theorem step_bread (h : s.step (.bread p) = some (t, os)) :
    ∃ b, s.pc p = .waiting b ∧ s.locked b = false ∧ ∃ ide,
      ((s.ide.buf b).flags.valid = true ∧ ide = s.ide ∨
        (s.ide.buf b).flags.valid = false ∧ Memide.iderw fssize s.ide b true = some ide) ∧
      t = { s with
        ide := ide
        locked := Function.update s.locked b true
        pc := Function.update s.pc p (.holding b) } ∧
      os = [.read (ide.buf b).blockno (ide.buf b).data] := by
  simp only [step] at h
  split at h
  · rename_i b hpc
    by_cases hl : s.locked b = true
    · rw [if_pos hl] at h
      cases h
    rw [if_neg hl] at h
    obtain ⟨ide, hide, heq⟩ := Option.map_eq_some_iff.mp h
    simp only [Prod.mk.injEq] at heq
    refine ⟨b, hpc, Bool.eq_false_iff.mpr hl, ide, ?_, heq.1.symm, heq.2.symm⟩
    cases hv : (s.ide.buf b).flags.valid
    · rw [hv] at hide
      exact .inr ⟨rfl, hide⟩
    · rw [hv, if_pos rfl, Option.some.injEq] at hide
      exact .inl ⟨rfl, hide.symm⟩
  · cases h

theorem step_bwrite (h : s.step (.bwrite p v) = some (t, os)) :
    ∃ b, s.pc p = .holding b ∧ ∃ ide,
      Memide.iderw fssize { s.ide with buf := Function.update s.ide.buf b (store (s.ide.buf b) v) } b true = some ide ∧
      t = { s with ide := ide } ∧ os = [.write (s.ide.buf b).blockno v] := by
  simp only [step] at h
  split at h
  · rename_i b hpc
    obtain ⟨ide, hide, heq⟩ := Option.map_eq_some_iff.mp h
    simp only [Prod.mk.injEq] at heq
    exact ⟨b, hpc, ide, hide, heq.1.symm, heq.2.symm⟩
  · cases h

theorem step_logWrite (h : s.step (.logWrite p v) = some (t, os)) :
    ∃ b, s.pc p = .holding b ∧
      t = { s with ide := { s.ide with buf := Function.update s.ide.buf b (store (s.ide.buf b) v) } } ∧
      os = [.write (s.ide.buf b).blockno v] := by
  simp only [step] at h
  split at h
  · rename_i b hpc
    simp only [Option.some.injEq, Prod.mk.injEq] at h
    exact ⟨b, hpc, h.1.symm, h.2.symm⟩
  · cases h

/-- `brelse`: the lock and the reference dropped, and the buffer at the front when
that was the last reference. -/
theorem step_brelse (h : s.step (.brelse p) = some (t, os)) :
    ∃ b, s.pc p = .holding b ∧ os = [] ∧ ∃ lru, (lru = s.lru ∨ lru = b :: s.lru.erase b) ∧
      t = { s with
        locked := Function.update s.locked b false
        refcnt := Function.update s.refcnt b (s.refcnt b - 1)
        pc := Function.update s.pc p .idle
        lru := lru } := by
  simp only [step] at h
  split at h
  · rename_i b hpc
    simp only [Option.some.injEq, Prod.mk.injEq] at h
    obtain ⟨rfl, rfl⟩ := h
    refine ⟨b, hpc, rfl, ?_⟩
    split_ifs
    · exact ⟨_, .inr rfl, rfl⟩
    · exact ⟨_, .inl rfl, rfl⟩
  · cases h

end Steps

end Bcache

/-! ### What every step keeps -/

@[simp] theorem Pc.buf_idle : Pc.idle.buf = none := rfl
@[simp] theorem Pc.buf_waiting (b : Fin nbuf) : (Pc.waiting b).buf = some b := rfl
@[simp] theorem Pc.buf_holding (b : Fin nbuf) : (Pc.holding b).buf = some b := rfl

/-- The cache's invariant. -/
structure Inv (s : Bcache) : Prop where
  /-- the list holds every buffer once -/
  nodup : s.lru.Nodup
  mem : ∀ b, b ∈ s.lru
  /-- `refcnt` counts the processes between `bget` and `brelse` on the buffer -/
  refcnt : ∀ b, s.refcnt b = Count.count (Pc.buf ∘ s.pc) (some b)
  /-- the sleep-lock is held exactly when a process holds the buffer, and by one -/
  locked : ∀ b, s.locked b = true ↔ ∃ p, s.pc p = .holding b
  holder : ∀ p q b, s.pc p = .holding b → s.pc q = .holding b → p = q
  /-- no two buffers carry one block of disk 1 -/
  unique : ∀ b b', (s.ide.buf b).dev = 1 → (s.ide.buf b').dev = 1 →
    (s.ide.buf b).blockno = (s.ide.buf b').blockno → b = b'
  /-- a valid buffer was read through `memide`, and a dirty one is valid -/
  valid : ∀ b, (s.ide.buf b).flags.valid = true → (s.ide.buf b).dev = 1 ∧ (s.ide.buf b).blockno < fssize
  dirty : ∀ b, (s.ide.buf b).flags.dirty = true → (s.ide.buf b).flags.valid = true
  /-- a valid buffer with nothing to write holds what the disk does -/
  clean : ∀ b, (s.ide.buf b).flags.valid = true → (s.ide.buf b).flags.dirty = false →
    (s.ide.buf b).data = s.ide.memdisk (s.ide.buf b).blockno
  /-- a held buffer is valid -/
  held : ∀ p b, s.pc p = .holding b → (s.ide.buf b).flags.valid = true

section Inv

variable {s t : Bcache} {p : Fin nproc} {os : List Obs}

theorem Inv.binit (d : Disk) : Inv (binit d) where
  nodup := List.nodup_reverse.mpr (List.nodup_finRange nbuf)
  mem b := List.mem_reverse.mpr (List.mem_finRange b)
  refcnt b := by simp [Bio.binit, Count.count]
  locked b := by simp [Bio.binit]
  holder p _ b h := by simp [Bio.binit] at h
  unique b _ h := by simp [Bio.binit] at h
  valid b h := by simp [Bio.binit] at h
  dirty b h := by simp [Bio.binit] at h
  clean b h := by simp [Bio.binit] at h
  held p b h := by simp [Bio.binit] at h

/-- A buffer with no reference is used by no process. -/
theorem Inv.buf_ne_of_refcnt (hi : Inv s) {b : Fin nbuf} (h : s.refcnt b = 0) (q : Fin nproc) :
    (s.pc q).buf ≠ some b := by
  intro hq
  have := (Count.count_pos_iff (g := Pc.buf ∘ s.pc)).mpr ⟨q, hq⟩
  rw [← hi.refcnt b, h] at this
  exact absurd this (lt_irrefl 0)

theorem Inv.bget (hi : Inv s) {dev blockno : ℕ} (h : s.step (.bget p dev blockno) = some (t, os)) : Inv t := by
  obtain ⟨hidle, -, s₁, b, hb, rfl⟩ := Bcache.step_bget h
  -- `p` goes from idle to waiting: the holders stay, the count of `b` grows by one
  have hhold : ∀ q b', Function.update s.pc p (.waiting b) q = .holding b' ↔ s.pc q = .holding b' := by
    intro q b'
    by_cases hq : q = p
    · subst hq
      simp [hidle]
    · simp [hq]
  have hcount : ∀ b', Count.count (Pc.buf ∘ Function.update s.pc p (.waiting b)) (some b') =
      Count.count (Pc.buf ∘ s.pc) (some b') + if b = b' then 1 else 0 := by
    intro b'
    have := Count.count_comp_update Pc.buf s.pc p (.waiting b) (some b')
    simpa [hidle] using this
  rcases Bcache.bget_cases hb with ⟨-, rfl⟩ | ⟨hnot, hrec, rfl⟩
  · -- the block was cached: one more reference
    refine ⟨hi.nodup, hi.mem, fun b' => ?_, fun b' => ?_, fun q q' b' hq hq' => ?_, hi.unique, hi.valid, hi.dirty,
      hi.clean, fun q b' hq => hi.held q b' ((hhold q b').mp hq)⟩
    · simp only [hcount, ← hi.refcnt b']
      by_cases hb' : b' = b
      · subst hb'
        simp
      · simp [hb', Ne.symm hb']
    · simp only [hhold]
      exact hi.locked b'
    · exact hi.holder q q' b' ((hhold q b').mp hq) ((hhold q' b').mp hq')
  · -- recycled: `b` had no reference, nothing to write, and no buffer carried the block
    simp only [Bcache.recyclable, decide_eq_true_eq] at hrec
    have hfree := hi.buf_ne_of_refcnt hrec.1
    refine ⟨hi.nodup, hi.mem, fun b' => ?_, fun b' => ?_, fun q q' b' hq hq' => ?_, fun b₁ b₂ h₁ h₂ h₁₂ => ?_,
      fun b' hv => ?_, fun b' hd => ?_, fun b' hv hd => ?_, fun q b' hq => ?_⟩
    · simp only [hcount, ← hi.refcnt b']
      by_cases hb' : b' = b
      · subst hb'
        simp [hrec.1]
      · simp [hb', Ne.symm hb']
    · simp only [hhold]
      exact hi.locked b'
    · exact hi.holder q q' b' ((hhold q b').mp hq) ((hhold q' b').mp hq')
    · -- a block carried by `b` now is carried by no other buffer
      have hc : ∀ b', b' ≠ b → (s.ide.buf b').dev = dev → (s.ide.buf b').blockno = blockno → False :=
        fun b' _ hd hn => by simpa [Bcache.caches, hd, hn] using hnot b' (hi.mem b')
      by_cases e₁ : b₁ = b <;> by_cases e₂ : b₂ = b
      · exact e₁.trans e₂.symm
      · subst e₁
        simp [e₂] at h₁ h₂ h₁₂
        exact (hc b₂ e₂ (h₂.trans h₁.symm) h₁₂.symm).elim
      · subst e₂
        simp [e₁] at h₁ h₂ h₁₂
        exact (hc b₁ e₁ (h₁.trans h₂.symm) h₁₂).elim
      · simp [e₁, e₂] at h₁ h₂ h₁₂
        exact hi.unique b₁ b₂ h₁ h₂ h₁₂
    · by_cases hb' : b' = b
      · subst hb'
        simp at hv
      · simp [hb'] at hv ⊢
        exact hi.valid b' hv
    · by_cases hb' : b' = b
      · subst hb'
        simp at hd
      · simp [hb'] at hd ⊢
        exact hi.dirty b' hd
    · by_cases hb' : b' = b
      · subst hb'
        simp at hv
      · simp [hb'] at hv hd ⊢
        exact hi.clean b' hv hd
    · have hq' := (hhold q b').mp hq
      have hb' : b' ≠ b := fun e => hfree q (by rw [hq', e]; rfl)
      simp only [Function.update_of_ne hb']
      exact hi.held q b' hq'

/-- A change of the disk and of one buffer's data and flags keeps the invariant when
the buffer keeps its identity, ends valid for a block of the disk, holds the disk's
data unless it is dirty, and the disk changes at most at that block. -/
theorem Inv.setIde (hi : Inv s) {b : Fin nbuf} {ide : Memide.State}
    (hbuf : ∀ b', b' ≠ b → ide.buf b' = s.ide.buf b')
    (hdev : (ide.buf b).dev = (s.ide.buf b).dev) (hblk : (ide.buf b).blockno = (s.ide.buf b).blockno)
    (hv : (ide.buf b).flags.valid = true) (h1 : (ide.buf b).dev = 1) (hlt : (ide.buf b).blockno < fssize)
    (hclean : (ide.buf b).flags.dirty = false → (ide.buf b).data = ide.memdisk (ide.buf b).blockno)
    (hdisk : ∀ n, n ≠ (ide.buf b).blockno → ide.memdisk n = s.ide.memdisk n) :
    Inv { s with ide := ide } := by
  -- the identities are those of `s`
  have hid : ∀ b', (ide.buf b').dev = (s.ide.buf b').dev ∧ (ide.buf b').blockno = (s.ide.buf b').blockno := by
    intro b'
    by_cases hb' : b' = b
    · subst hb'
      exact ⟨hdev, hblk⟩
    · rw [hbuf b' hb']
      exact ⟨rfl, rfl⟩
  refine ⟨hi.nodup, hi.mem, hi.refcnt, hi.locked, hi.holder, fun b₁ b₂ e₁ e₂ e₁₂ => ?_, fun b' hv' => ?_,
    fun b' hd => ?_, fun b' hv' hd => ?_, fun q b' hq => ?_⟩
  · simp only [(hid b₁).1, (hid b₂).1, (hid b₁).2, (hid b₂).2] at e₁ e₂ e₁₂
    exact hi.unique b₁ b₂ e₁ e₂ e₁₂
  · by_cases hb' : b' = b
    · subst hb'
      exact ⟨h1, hlt⟩
    · simp only [hbuf b' hb'] at hv' ⊢
      exact hi.valid b' hv'
  · by_cases hb' : b' = b
    · subst hb'
      exact hv
    · simp only [hbuf b' hb'] at hd ⊢
      exact hi.dirty b' hd
  · by_cases hb' : b' = b
    · subst hb'
      exact hclean hd
    · simp only [hbuf b' hb'] at hv' hd ⊢
      -- another valid buffer carries another block, where the disk is unchanged
      have hne : (s.ide.buf b').blockno ≠ (ide.buf b).blockno := by
        intro e
        rw [hblk] at e
        exact hb' (hi.unique b' b (hi.valid b' hv').1 (hdev ▸ h1) e)
      rw [hdisk _ hne]
      exact hi.clean b' hv' hd
  · by_cases hb' : b' = b
    · subst hb'
      exact hv
    · simp only [hbuf b' hb']
      exact hi.held q b' hq

/-- Taking the sleep-lock of a valid buffer the process waits on keeps the invariant. -/
theorem Inv.lock (hi : Inv s) {b : Fin nbuf} (hpc : s.pc p = .waiting b) (hl : s.locked b = false)
    (hv : (s.ide.buf b).flags.valid = true) :
    Inv { s with locked := Function.update s.locked b true, pc := Function.update s.pc p (.holding b) } := by
  have hnohold : ∀ q, s.pc q ≠ .holding b := fun q hq => by
    have := (hi.locked b).mpr ⟨q, hq⟩
    rw [hl] at this
    cases this
  have hhold : ∀ q b', Function.update s.pc p (.holding b) q = .holding b' ↔ (q = p ∧ b' = b) ∨ s.pc q = .holding b' := by
    intro q b'
    by_cases hq : q = p
    · subst hq
      simp [hpc, eq_comm]
    · simp [hq]
  refine ⟨hi.nodup, hi.mem, fun b' => ?_, fun b' => ?_, fun q q' b' hq hq' => ?_, hi.unique, hi.valid, hi.dirty,
    hi.clean, fun q b' hq => ?_⟩
  · rw [hi.refcnt b']
    exact (Count.count_comp_update_of_eq (by simp [hpc]) (some b')).symm
  · by_cases hb' : b' = b
    · subst hb'
      simp only [Function.update_self, true_iff]
      exact ⟨p, by simp⟩
    · dsimp only
      rw [Function.update_of_ne hb', hi.locked b']
      exact exists_congr fun q => by rw [hhold]; simp [hb']
  · rw [hhold] at hq hq'
    rcases hq with ⟨rfl, rfl⟩ | hq <;> rcases hq' with ⟨rfl, e⟩ | hq'
    · rfl
    · exact absurd hq' (hnohold q')
    · exact absurd hq (e ▸ hnohold q)
    · exact hi.holder q q' b' hq hq'
  · rcases (hhold q b').mp hq with ⟨-, rfl⟩ | hq
    · exact hv
    · exact hi.held q b' hq

/-- `bread`'s `iderw` on a buffer that is not valid reads its block from the disk. -/
theorem Inv.iderw_read (hi : Inv s) {b : Fin nbuf} {ide : Memide.State} (hv : (s.ide.buf b).flags.valid = false)
    (h : Memide.iderw fssize s.ide b true = some ide) :
    (s.ide.buf b).dev = 1 ∧ (s.ide.buf b).blockno < fssize ∧
      ide = ⟨s.ide.memdisk, Function.update s.ide.buf b
        { s.ide.buf b with data := s.ide.memdisk (s.ide.buf b).blockno, flags := ⟨true, false⟩ }⟩ := by
  obtain ⟨hsync, h1, hlt⟩ := Memide.iderw_accepts h
  -- a buffer that is not valid has nothing to write
  have hd : (s.ide.buf b).flags.dirty = false := by
    cases hd : (s.ide.buf b).flags.dirty
    · rfl
    · exact absurd (hi.dirty b hd) (by simp [hv])
  rw [Memide.iderw_eq hsync h1 hlt, Option.some.injEq] at h
  refine ⟨h1, hlt, ?_⟩
  rw [← h]
  simp [hd]

theorem Inv.bread (hi : Inv s) (h : s.step (.bread p) = some (t, os)) : Inv t := by
  obtain ⟨b, hpc, hl, ide, hide, rfl, -⟩ := Bcache.step_bread h
  -- after `bread`'s `iderw`, if any, the buffer is valid with its identity
  have hs : Inv { s with ide := ide } ∧ (ide.buf b).flags.valid = true := by
    rcases hide with ⟨hv, rfl⟩ | ⟨hv, hrw⟩
    · exact ⟨hi, hv⟩
    · obtain ⟨h1, hlt, rfl⟩ := hi.iderw_read hv hrw
      refine ⟨hi.setIde (b := b) (fun b' hb' => by simp [hb']) (by simp) (by simp) (by simp) (by simpa using h1)
        (by simpa using hlt) (by simp) (fun _ _ => rfl), by simp⟩
  exact hs.1.lock (s := { s with ide := ide }) hpc hl hs.2

/-- `bwrite`'s `iderw` on the holder's buffer writes its data to the disk. -/
theorem Inv.iderw_write (hi : Inv s) {b : Fin nbuf} (hpc : s.pc p = .holding b) {v : Block} {ide : Memide.State}
    (h : Memide.iderw fssize { s.ide with buf := Function.update s.ide.buf b (store (s.ide.buf b) v) } b true = some ide) :
    ide = ⟨Function.update s.ide.memdisk (s.ide.buf b).blockno v,
      Function.update s.ide.buf b { s.ide.buf b with data := v, flags := ⟨true, false⟩ }⟩ := by
  obtain ⟨h1, hlt⟩ := hi.valid b (hi.held p b hpc)
  rw [Memide.iderw_eq (by simp [store, BufFlags.synced]) (by simpa [store] using h1) (by simpa [store] using hlt),
    Option.some.injEq] at h
  rw [← h]
  simp [store]

theorem Inv.bwrite (hi : Inv s) {v : Block} (h : s.step (.bwrite p v) = some (t, os)) : Inv t := by
  obtain ⟨b, hpc, ide, hrw, rfl, -⟩ := Bcache.step_bwrite h
  obtain ⟨h1, hlt⟩ := hi.valid b (hi.held p b hpc)
  rw [hi.iderw_write hpc hrw]
  exact hi.setIde (b := b) (fun b' hb' => by simp [hb']) (by simp) (by simp) (by simp) (by simpa using h1)
    (by simpa using hlt) (by simp) (fun n hn => by simp only [Function.update_self] at hn; simp [hn])

theorem Inv.logWrite (hi : Inv s) {v : Block} (h : s.step (.logWrite p v) = some (t, os)) : Inv t := by
  obtain ⟨b, hpc, rfl, -⟩ := Bcache.step_logWrite h
  have hv := hi.held p b hpc
  obtain ⟨h1, hlt⟩ := hi.valid b hv
  exact hi.setIde (b := b) (fun b' hb' => by simp [hb']) (by simp [store]) (by simp [store]) (by simpa [store] using hv)
    (by simpa [store] using h1) (by simpa [store] using hlt) (by simp [store]) (fun _ _ => rfl)

theorem Inv.brelse (hi : Inv s) (h : s.step (.brelse p) = some (t, os)) : Inv t := by
  obtain ⟨b, hpc, -, lru, hlru, rfl⟩ := Bcache.step_brelse h
  -- `p` goes from holding `b` to idle; it was the only holder of `b`
  have hhold : ∀ q b', Function.update s.pc p .idle q = .holding b' ↔ q ≠ p ∧ s.pc q = .holding b' := by
    intro q b'
    by_cases hq : q = p
    · subst hq
      simp
    · simp [hq]
  have hcount : ∀ b', Count.count (Pc.buf ∘ Function.update s.pc p .idle) (some b') + (if b = b' then 1 else 0) =
      Count.count (Pc.buf ∘ s.pc) (some b') := by
    intro b'
    have := Count.count_comp_update Pc.buf s.pc p .idle (some b')
    simpa [hpc] using this
  refine ⟨?_, fun b' => ?_, fun b' => ?_, fun b' => ?_, fun q q' b' hq hq' => ?_, hi.unique, hi.valid, hi.dirty,
    hi.clean, fun q b' hq => hi.held q b' ((hhold q b').mp hq).2⟩
  · rcases hlru with rfl | rfl
    · exact hi.nodup
    · exact List.nodup_cons.mpr ⟨hi.nodup.not_mem_erase, hi.nodup.erase b⟩
  · rcases hlru with rfl | rfl
    · exact hi.mem b'
    · by_cases hb' : b' = b
      · subst hb'
        exact List.mem_cons_self
      · exact List.mem_cons_of_mem _ ((List.mem_erase_of_ne hb').mpr (hi.mem b'))
  · have hc := hcount b'
    have hr := hi.refcnt b'
    dsimp only
    by_cases hb' : b' = b
    · subst hb'
      simp only [if_true, Function.update_self] at hc ⊢
      omega
    · simp only [Ne.symm hb', if_false, Nat.add_zero, Function.update_of_ne hb'] at hc ⊢
      omega
  · dsimp only
    by_cases hb' : b' = b
    · subst hb'
      simp only [Function.update_self, Bool.false_eq_true, false_iff, not_exists]
      intro q hq
      rw [hhold] at hq
      exact hq.1 (hi.holder q p b' hq.2 hpc)
    · rw [Function.update_of_ne hb', hi.locked b']
      refine exists_congr fun q => ⟨fun hq => (hhold q b').mpr ⟨fun e => ?_, hq⟩, fun hq => ((hhold q b').mp hq).2⟩
      subst e
      rw [hpc] at hq
      exact hb' (Pc.holding.inj hq).symm
  · exact hi.holder q q' b' ((hhold q b').mp hq).2 ((hhold q' b').mp hq').2

/-- **Every step keeps the invariant.** -/
theorem Inv.step (hi : Inv s) {e : Event} (h : s.step e = some (t, os)) : Inv t := by
  cases e with
  | bget p dev blockno => exact hi.bget h
  | bread p => exact hi.bread h
  | bwrite p v => exact hi.bwrite h
  | logWrite p v => exact hi.logWrite h
  | brelse p => exact hi.brelse h

end Inv

/-! ### The block store the cache presents -/

namespace Bcache

/-- Buffer `b` holds block `n` of disk 1 with valid data. -/
def Cached (s : Bcache) (b : Fin nbuf) (n : ℕ) : Prop :=
  (s.ide.buf b).flags.valid = true ∧ (s.ide.buf b).dev = 1 ∧ (s.ide.buf b).blockno = n

instance (s : Bcache) (b : Fin nbuf) (n : ℕ) : Decidable (s.Cached b n) :=
  inferInstanceAs (Decidable (_ ∧ _ ∧ _))

/-- The block store the cache presents: block `n` of disk 1 is the data of a valid
buffer holding it, if there is one, and the disk's otherwise. -/
def view (s : Bcache) (n : ℕ) : Block :=
  match (List.finRange nbuf).find? fun b => s.Cached b n with
  | some b => (s.ide.buf b).data
  | none => s.ide.memdisk n

end Bcache

section View

open Bcache

variable {s t : Bcache} {p : Fin nproc} {os : List Obs} {b : Fin nbuf} {n : ℕ}

theorem view_of_ide_eq (h : t.ide = s.ide) : t.view = s.view := by
  obtain ⟨_, _, _, _, _⟩ := t
  obtain ⟨_, _, _, _, _⟩ := s
  dsimp only at h
  subst h
  rfl

theorem Inv.view_of_cached (hi : Inv s) (h : s.Cached b n) : s.view n = (s.ide.buf b).data := by
  unfold view
  cases hf : (List.finRange nbuf).find? (fun b => decide (s.Cached b n)) with
  | none => exact absurd (List.find?_eq_none.mp hf b (List.mem_finRange b)) (by simpa using h)
  | some b' =>
    have h' : s.Cached b' n := by simpa using List.find?_some hf
    rw [hi.unique b' b h'.2.1 h.2.1 (h'.2.2.trans h.2.2.symm)]

theorem view_of_not_cached (h : ∀ b, ¬ s.Cached b n) : s.view n = s.ide.memdisk n := by
  unfold view
  rw [List.find?_eq_none.mpr fun b _ => by simpa using h b]

/-- Where no dirty buffer holds a block, the store shows the disk's. -/
theorem Inv.view_eq_disk (hi : Inv s) (h : ∀ b, s.Cached b n → (s.ide.buf b).flags.dirty = false) :
    s.view n = s.ide.memdisk n := by
  by_cases hc : ∃ b, s.Cached b n
  · obtain ⟨b, hb⟩ := hc
    rw [hi.view_of_cached hb, hi.clean b hb.1 (h b hb), hb.2.2]
  · exact view_of_not_cached fun b hb => hc ⟨b, hb⟩

/-- A change of one buffer leaves the store at the blocks that buffer holds in neither
state, where the disk is unchanged. -/
theorem Inv.view_of_other (hs : Inv s) (ht : Inv t) (hbuf : ∀ b', b' ≠ b → t.ide.buf b' = s.ide.buf b')
    (hbt : ¬ t.Cached b n) (hbs : ¬ s.Cached b n) (hdisk : t.ide.memdisk n = s.ide.memdisk n) :
    t.view n = s.view n := by
  -- the other buffers hold the block in both states or in neither
  have hsame : ∀ b', t.Cached b' n ↔ s.Cached b' n := by
    intro b'
    by_cases hb' : b' = b
    · subst hb'
      exact iff_of_false hbt hbs
    · simp only [Cached, hbuf b' hb']
  by_cases hc : ∃ b', s.Cached b' n
  · obtain ⟨b', hb'⟩ := hc
    have hne : b' ≠ b := fun e => hbs (e ▸ hb')
    rw [ht.view_of_cached ((hsame b').mpr hb'), hs.view_of_cached hb', hbuf b' hne]
  · rw [view_of_not_cached fun b' hb' => hc ⟨b', (hsame b').mp hb'⟩, view_of_not_cached fun b' hb' => hc ⟨b', hb'⟩,
      hdisk]

theorem Inv.view_bget (hi : Inv s) {dev blockno : ℕ} (h : s.step (.bget p dev blockno) = some (t, os)) :
    Transition.runFn Store.step s.view os = some t.view := by
  have ht := hi.bget h
  obtain ⟨-, rfl, s₁, b, hb, hteq⟩ := step_bget h
  rcases bget_cases hb with ⟨-, rfl⟩ | ⟨-, hrec, rfl⟩
  · exact congrArg some (view_of_ide_eq (by rw [hteq])).symm
  · -- the recycled buffer held nothing dirty, and now holds nothing valid
    simp only [recyclable, decide_eq_true_eq] at hrec
    have hbuf : ∀ b', b' ≠ b → t.ide.buf b' = s.ide.buf b' := fun b' hb' => by
      rw [hteq]
      simp [hb']
    have hbt : ∀ m, ¬ t.Cached b m := fun m => by
      rw [hteq]
      simp [Cached]
    have hdisk : t.ide.memdisk = s.ide.memdisk := by rw [hteq]
    refine congrArg some (funext fun n => ?_)
    by_cases hbs : s.Cached b n
    · -- `b` held the block, clean; no buffer holds it now
      have hclean : ∀ b', s.Cached b' n → (s.ide.buf b').flags.dirty = false := fun b' hb' => by
        rw [hi.unique b' b hb'.2.1 hbs.2.1 (hb'.2.2.trans hbs.2.2.symm)]
        exact hrec.2
      have hnone : ∀ b', ¬ t.Cached b' n := by
        intro b' hb'
        by_cases e : b' = b
        · exact hbt n (e ▸ hb')
        · have hs' : s.Cached b' n := by simpa [Cached, hbuf b' e] using hb'
          exact e (hi.unique b' b hs'.2.1 hbs.2.1 (hs'.2.2.trans hbs.2.2.symm))
      rw [hi.view_eq_disk hclean, view_of_not_cached hnone, hdisk]
    · exact (hi.view_of_other ht hbuf (hbt n) hbs (by rw [hdisk])).symm

/-- A change of one buffer that leaves it holding block `n` with data `v`, the disk
unchanged away from `n`, sets the store to `v` at `n`. -/
theorem Inv.view_set (hs : Inv s) (ht : Inv t) {v : Block} (hbuf : ∀ b', b' ≠ b → t.ide.buf b' = s.ide.buf b')
    (hb : t.Cached b n) (hv : (t.ide.buf b).data = v) (hbs : ∀ m, m ≠ n → ¬ s.Cached b m)
    (hdisk : ∀ m, m ≠ n → t.ide.memdisk m = s.ide.memdisk m) :
    t.view = Function.update s.view n v := by
  funext m
  by_cases hm : m = n
  · subst hm
    rw [Function.update_self, ht.view_of_cached hb, hv]
  · rw [Function.update_of_ne hm]
    exact hs.view_of_other ht hbuf (fun hc => hm (hc.2.2.symm.trans hb.2.2)) (hbs m hm) (hdisk m hm)

theorem Inv.view_bread (hi : Inv s) (h : s.step (.bread p) = some (t, os)) :
    Transition.runFn Store.step s.view os = some t.view := by
  have ht := hi.bread h
  obtain ⟨b, -, -, ide, hide, hteq, rfl⟩ := step_bread h
  have htide : t.ide = ide := by rw [hteq]
  rcases hide with ⟨hv, rfl⟩ | ⟨hv, hrw⟩
  · -- a valid buffer shows the store's block
    rw [Store.runFn_read (hi.view_of_cached ⟨hv, (hi.valid b hv).1, rfl⟩), view_of_ide_eq htide]
  · -- no buffer held the block, and `b` now holds the disk's
    obtain ⟨h1, -, rfl⟩ := hi.iderw_read hv hrw
    have hsn : s.view (s.ide.buf b).blockno = s.ide.memdisk (s.ide.buf b).blockno :=
      view_of_not_cached fun b' hb' => by
        by_cases e : b' = b
        · subst e
          simp [Cached, hv] at hb'
        · exact e (hi.unique b' b hb'.2.1 h1 hb'.2.2)
    have htv : t.view = s.view := by
      rw [hi.view_set ht (b := b) (n := (s.ide.buf b).blockno) (v := s.ide.memdisk (s.ide.buf b).blockno)
        (fun b' hb' => by simp [htide, hb']) (by simp [Cached, htide, h1]) (by simp [htide])
        (fun m _ hc => by simp [Cached, hv] at hc) (fun m _ => by simp [htide]), ← hsn, Function.update_eq_self]
    simp only [Function.update_self]
    rw [Store.runFn_read hsn, htv]

theorem Inv.view_bwrite (hi : Inv s) {v : Block} (h : s.step (.bwrite p v) = some (t, os)) :
    Transition.runFn Store.step s.view os = some t.view := by
  have ht := hi.bwrite h
  obtain ⟨b, hpc, ide, hrw, hteq, rfl⟩ := step_bwrite h
  have htide : t.ide = ide := by rw [hteq]
  rw [hi.iderw_write hpc hrw] at htide
  have hv := hi.held p b hpc
  obtain ⟨h1, -⟩ := hi.valid b hv
  rw [Store.runFn_write, hi.view_set ht (b := b) (v := v) (fun b' hb' => by simp [htide, hb'])
    (by simp [Cached, htide, h1]) (by simp [htide]) (fun m hm hc => hm hc.2.2.symm)
    (fun m hm => by simp [htide, Function.update_of_ne hm])]

theorem Inv.view_logWrite (hi : Inv s) {v : Block} (h : s.step (.logWrite p v) = some (t, os)) :
    Transition.runFn Store.step s.view os = some t.view := by
  have ht := hi.logWrite h
  obtain ⟨b, hpc, hteq, rfl⟩ := step_logWrite h
  have hv := hi.held p b hpc
  obtain ⟨h1, -⟩ := hi.valid b hv
  rw [Store.runFn_write, hi.view_set ht (b := b) (v := v) (fun b' hb' => by simp [hteq, hb'])
    (by simpa [Cached, hteq, store] using ⟨hv, h1⟩) (by simp [hteq, store]) (fun m hm hc => hm hc.2.2.symm)
    (fun m _ => by simp [hteq])]

theorem view_brelse (h : s.step (.brelse p) = some (t, os)) :
    Transition.runFn Store.step s.view os = some t.view := by
  obtain ⟨b, -, rfl, lru, -, hteq⟩ := step_brelse h
  exact congrArg some (view_of_ide_eq (by rw [hteq])).symm

/-- **Every step moves the store as its observations do.** -/
theorem Inv.step_view (hi : Inv s) {e : Event} (h : s.step e = some (t, os)) :
    Transition.runFn Store.step s.view os = some t.view := by
  cases e with
  | bget p dev blockno => exact hi.view_bget h
  | bread p => exact hi.view_bread h
  | bwrite p v => exact hi.view_bwrite h
  | logWrite p v => exact hi.view_logWrite h
  | brelse p => exact view_brelse h

end View

/-! ### Runs -/

section Runs

open Bcache

variable {d : Disk} {es : List Event} {s : Bcache} {os : List Obs}

theorem view_binit (d : Disk) : (binit d).view = d :=
  funext fun _ => view_of_not_cached fun b hb => by simp [Cached, binit] at hb

/-- **The cache's invariant holds along every run.**  Whatever the interleaving of the
processes' `bread`, `bwrite`, `log_write` and `brelse`, the list holds every buffer
once, `refcnt` counts the processes using each buffer, a locked buffer has one
holder, no two buffers carry one block, and a valid buffer with nothing to write
holds the disk's data. -/
theorem bcache_inv (h : Transition.runOut step (binit d) es = some (s, os)) : Inv s :=
  Transition.runOut_invariant (fun _ _ _ _ hi h => hi.step h) (Inv.binit d) h

/-- Process `p` reads block 5 and logs new data into it while process `q` waits for the
buffer; `q` then reads the logged data, which the disk does not hold yet. -/
def dirtyReread (p q : Fin nproc) : List Event :=
  [.bget p 1 5, .bread p, .bget q 1 5, .logWrite p fun _ => 7, .brelse p, .bread q]

theorem dirtyReread_run : ∃ s, Transition.runOut step (binit fun _ _ => 0) (dirtyReread ⟨0, by decide⟩ ⟨1, by decide⟩) =
    some (s, [.read 5 fun _ => 0, .write 5 fun _ => 7, .read 5 fun _ => 7]) := by
  have h : (Transition.runOut step (binit fun _ _ => 0) (dirtyReread ⟨0, by decide⟩ ⟨1, by decide⟩)).map Prod.snd =
      some [.read 5 fun _ => 0, .write 5 fun _ => 7, .read 5 fun _ => 7] := by
    decide +kernel
  obtain ⟨⟨s, os⟩, hrun, hos⟩ := Option.map_eq_some_iff.mp h
  subst hos
  exact ⟨s, hrun⟩

theorem bcache_inv_dirtyReread :
    ∃ s os, Transition.runOut step (binit fun _ _ => 0) (dirtyReread ⟨0, by decide⟩ ⟨1, by decide⟩) = some (s, os) ∧
      Inv s := by
  obtain ⟨s, h⟩ := dirtyReread_run
  exact ⟨s, _, h, bcache_inv h⟩

/-- The reads and writes of a run are a legal trace of the disk it started on, ending
in the store the cache then shows. -/
theorem bcache_refines_store (h : Transition.runOut step (binit d) es = some (s, os)) :
    Transition.runFn Store.step d os = some s.view := by
  have := Transition.runOut_refines (g := Store.step) (fun _ _ _ _ (_ : True) (hi : Inv _) h => hi.step h)
    (fun _ _ _ _ (_ : True) (hi : Inv _) h => hi.step_view h) (fun _ _ => trivial) (Inv.binit d) h
  rwa [view_binit] at this

/-- **`bread` returns the last write.**  In every run from `binit`, with the processes
interleaved in any order, the data `bread` returns for a block is that of the last
`bwrite` or `log_write` of the block before it in the run, or the disk's when there is
none. -/
theorem bread_returns_last_write {pre post : List Obs} {n : ℕ} {v : Block}
    (h : Transition.runOut step (binit d) es = some (s, pre ++ .read n v :: post)) :
    v = Store.written d pre n :=
  Store.read_eq_written (bcache_refines_store h)

theorem bread_returns_last_write_dirtyReread :
    ∃ s, Transition.runOut step (binit fun _ _ => 0) (dirtyReread ⟨0, by decide⟩ ⟨1, by decide⟩) =
        some (s, [.read 5 (fun _ => 0), .write 5 fun _ => 7] ++ .read 5 (fun _ => 7) :: []) ∧
      (fun _ => 7 : Block) = Store.written (fun _ _ => 0) [.read 5 (fun _ => 0), .write 5 fun _ => 7] 5 := by
  obtain ⟨s, h⟩ := dirtyReread_run
  exact ⟨s, h, bread_returns_last_write h⟩

/-- **The disk lags only in dirty blocks.**  At the end of every run, each block of
the disk holds the last data written to it in the run, unless a dirty buffer holds
the block. -/
theorem disk_lags_only_dirty (h : Transition.runOut step (binit d) es = some (s, os)) (n : ℕ) :
    s.ide.memdisk n = Store.written d os n ∨
      ∃ b, (s.ide.buf b).flags.dirty = true ∧ (s.ide.buf b).dev = 1 ∧ (s.ide.buf b).blockno = n := by
  have hi := bcache_inv h
  by_cases hd : ∃ b, (s.ide.buf b).flags.dirty = true ∧ (s.ide.buf b).dev = 1 ∧ (s.ide.buf b).blockno = n
  · exact .inr hd
  · left
    have hclean : ∀ b, s.Cached b n → (s.ide.buf b).flags.dirty = false := fun b hb =>
      Bool.eq_false_iff.mpr fun hdb => hd ⟨b, hdb, hb.2⟩
    rw [← hi.view_eq_disk hclean, Store.runFn_step_eq (bcache_refines_store h)]

theorem disk_lags_only_dirty_reread :
    ∃ s os, Transition.runOut step (binit fun _ _ => 0) (dirtyReread ⟨0, by decide⟩ ⟨1, by decide⟩) = some (s, os) ∧
      (s.ide.memdisk 5 = Store.written (fun _ _ => 0) os 5 ∨
        ∃ b, (s.ide.buf b).flags.dirty = true ∧ (s.ide.buf b).dev = 1 ∧ (s.ide.buf b).blockno = 5) := by
  obtain ⟨s, h⟩ := dirtyReread_run
  exact ⟨s, _, h, disk_lags_only_dirty h 5⟩

end Runs

end Bio

end Xv6
