import Xv6.Disk
import Xv6.Lib.Run

/-!
# The write-ahead log

`log.c` makes the block writes of file-system system calls atomic with respect
to crashes.  A system call brackets its updates with `begin_op` and `end_op` and
hands each modified buffer to `log_write`, which only records the block number
in the in-memory header and pins the buffer in the cache.  The last `end_op` of
a group commits: `write_log` copies the modified blocks into the log area,
`write_head` writes the header (the commit point), `install_trans` copies them
home, and a second `write_head` clears the header.  After a crash,
`recover_from_log` does the last three steps again from what is on disk.

The buffer cache is modelled by its view: `cache b` is what `bread` returns for
block `b`, that is the disk's contents except for blocks modified in the cache
and pinned there by `B_DIRTY`.  `bwrite` writes a buffer through to the disk.

## Main definitions

* `Log`, `LogSys` — `struct log`, and the log with its disk and buffer cache.
* `copyLoop` — the loop shared by `write_log` and `install_trans`.
* `commit`, `recoverFromLog`, `LogSys.beginOp`, `LogSys.logWrite`, `LogSys.endOp`.
* `LogEvent`, `logStep` — begin, write and end events of any number of processes.
-/

namespace Xv6

/-! ### The log and its world -/

/-- `struct log`: the log area `[start, start + size)` read from the superblock,
the operations in progress, the commit flag, and `lh.block[0..lh.n)`. -/
structure Log where
  start : ℕ
  size : ℕ
  outstanding : ℤ
  committing : Bool
  lh : List ℕ

/-- The log with the disk and the buffer cache's view of every block.  `inOp p`
says that process `p` is between its `begin_op` and its `end_op`. -/
@[ext]
structure LogSys where
  log : Log
  disk : Disk
  cache : Disk
  inOp : ℕ → Bool

/-- A block of the file system outside the log area: the blocks system calls
modify. -/
def Log.home (l : Log) (b : ℕ) : Prop := (b < l.start ∨ l.start + l.size ≤ b) ∧ b < fssize

instance (l : Log) (b : ℕ) : Decidable (l.home b) := inferInstanceAs (Decidable (_ ∧ _))

namespace LogSys

/-- A buffer holding `w.2` for block `w.1` written through to the disk by `bwrite`. -/
def bwrite (s : LogSys) (w : Write) : LogSys :=
  { s with cache := Function.update s.cache w.1 w.2, disk := Function.update s.disk w.1 w.2 }

/-- The state after `bwrite`s of the writes `ws`, in order. -/
def bwriteAll (s : LogSys) (ws : List Write) : LogSys := ws.foldl bwrite s

end LogSys

/-! ### Commit and recovery -/

/-- The loop `for (tail = 0; tail < n; tail++)` of `write_log` and `install_trans`:
each iteration reads block `src tail` through the cache, copies it into the buffer
of block `dst tail` and writes that buffer to disk.  Returns the state and the
disk writes, in order. -/
def copyLoop (dst src : ℕ → ℕ) : ℕ → ℕ → LogSys → LogSys × List Write
  | 0, _, s => (s, [])
  | k + 1, tail, s =>
    let w := (dst tail, s.cache (src tail))
    let r := copyLoop dst src k (tail + 1) (s.bwrite w)
    (r.1, w :: r.2)

/-- The log block that holds the `tail`-th logged block. -/
def logBlock (l : Log) (tail : ℕ) : ℕ := l.start + tail + 1

/-- `write_log`: the modified blocks, read from the cache, into the log area. -/
def writeLog (s : LogSys) : LogSys × List Write :=
  copyLoop (logBlock s.log) (fun tail => s.log.lh.getD tail 0) s.log.lh.length 0 s

/-- `install_trans`: the logged blocks from the log area to their home locations. -/
def installTrans (s : LogSys) : LogSys × List Write :=
  copyLoop (fun tail => s.log.lh.getD tail 0) (logBlock s.log) s.log.lh.length 0 s

/-- The write of `write_head`: the in-memory header into the header block. -/
def headWrite (s : LogSys) : Write := (s.log.start, writeHead s.log.lh (s.cache s.log.start))

/-- `commit`: `write_log`, `write_head` (the commit point), `install_trans`, then
the header cleared by a second `write_head`; nothing when no block is logged. -/
def commit (s : LogSys) : LogSys × List Write :=
  if 0 < s.log.lh.length then
    let r₁ := writeLog s
    let s₂ := r₁.1.bwrite (headWrite r₁.1)
    let r₃ := installTrans s₂
    let s₄ : LogSys := { r₃.1 with log := { r₃.1.log with lh := [] } }
    (s₄.bwrite (headWrite s₄), r₁.2 ++ [headWrite r₁.1] ++ r₃.2 ++ [headWrite s₄])
  else (s, [])

/-- The log layer after `initlog` has read the superblock from the disk `d`: an
empty cache, so that `bread` returns the disk. -/
def LogSys.boot (start size : ℕ) (d : Disk) : LogSys :=
  ⟨⟨start, size, 0, false, []⟩, d, d, fun _ => false⟩

/-- `read_head`: the header block, read through the cache, into the in-memory header. -/
def LogSys.readHead (s : LogSys) : LogSys :=
  { s with log := { s.log with lh := Xv6.readHead (s.cache s.log.start) } }

/-- `recover_from_log`: `read_head`, `install_trans`, then the header cleared. -/
def recoverFromLog (s : LogSys) : LogSys × List Write :=
  let r₂ := installTrans s.readHead
  let s₃ : LogSys := { r₂.1 with log := { r₂.1.log with lh := [] } }
  (s₃.bwrite (headWrite s₃), r₂.2 ++ [headWrite s₃])

/-- The disk `initlog` leaves after recovering the disk `d`. -/
def recovered (start size : ℕ) (d : Disk) : Disk :=
  (recoverFromLog (LogSys.boot start size d)).1.disk

/-- The disk writes `recover_from_log` makes on the disk `d`. -/
def recoveryWrites (start size : ℕ) (d : Disk) : List Write :=
  (recoverFromLog (LogSys.boot start size d)).2

/-! ### Operations -/

namespace LogSys

/-- `begin_op`: admitted unless a commit is running or the reservation of
`MAXOPBLOCKS` more blocks could overflow the log; `none` when the caller sleeps. -/
def beginOp (s : LogSys) : Option LogSys :=
  if s.log.committing then none
  else if (logsize : ℤ) < s.log.lh.length + (s.log.outstanding + 1) * maxopblocks then none
  else some { s with log := { s.log with outstanding := s.log.outstanding + 1 } }

/-- Log absorption: a block already in the header keeps its slot. -/
def absorb (lh : List ℕ) (b : ℕ) : List ℕ := if b ∈ lh then lh else lh ++ [b]

/-- A caller modifies block `b` to `v` in its buffer and calls `log_write`; `none`
for the panics "too big a transaction" and "log_write outside of trans". -/
def logWrite (s : LogSys) (b : ℕ) (v : Block) : Option LogSys :=
  if (logsize : ℤ) ≤ s.log.lh.length ∨ (s.log.size : ℤ) - 1 ≤ s.log.lh.length then none
  else if s.log.outstanding < 1 then none
  else some { s with cache := Function.update s.cache b v,
                     log := { s.log with lh := absorb s.log.lh b } }

/-- `end_op`, with the disk writes of the commit it runs when it ends the last
operation in progress; `none` for the panic "log.committing". -/
def endOp (s : LogSys) : Option (LogSys × List Write) :=
  if s.log.committing then none
  else if s.log.outstanding - 1 = 0 then
    let r := commit { s with log := { s.log with outstanding := 0, committing := true } }
    some ({ r.1 with log := { r.1.log with committing := false } }, r.2)
  else some ({ s with log := { s.log with outstanding := s.log.outstanding - 1 } }, [])

end LogSys

/-- What the processes of the file system do with the log: start an operation,
modify a block through `log_write`, end the operation. -/
inductive LogEvent
  | beginOp (p : ℕ)
  | logWrite (p b : ℕ) (v : Block)
  | endOp (p : ℕ)

/-- One event, with the disk writes it makes.  A process begins an operation only
outside one, and modifies blocks of the file system outside the log area only
inside one; `none` when the event cannot happen (the process sleeps, or the
kernel panics). -/
def logStep (s : LogSys) : LogEvent → Option (LogSys × List Write)
  | .beginOp p =>
    if s.inOp p then none
    else (s.beginOp).map fun s' => ({ s' with inOp := Function.update s'.inOp p true }, [])
  | .logWrite p b v =>
    if s.inOp p ∧ s.log.home b then (s.logWrite b v).map fun s' => (s', []) else none
  | .endOp p =>
    if s.inOp p then
      (s.endOp).map fun r => ({ r.1 with inOp := Function.update r.1.inOp p false }, r.2)
    else none

/-! ### Writing through the cache -/

namespace LogSys

@[simp] theorem bwrite_disk (s : LogSys) (w : Write) :
    (s.bwrite w).disk = Function.update s.disk w.1 w.2 := rfl

@[simp] theorem bwrite_cache (s : LogSys) (w : Write) :
    (s.bwrite w).cache = Function.update s.cache w.1 w.2 := rfl

@[simp] theorem bwrite_log (s : LogSys) (w : Write) : (s.bwrite w).log = s.log := rfl

@[simp] theorem bwrite_inOp (s : LogSys) (w : Write) : (s.bwrite w).inOp = s.inOp := rfl

@[simp] theorem bwriteAll_nil (s : LogSys) : s.bwriteAll [] = s := rfl

@[simp] theorem bwriteAll_cons (s : LogSys) (w : Write) (ws : List Write) :
    s.bwriteAll (w :: ws) = (s.bwrite w).bwriteAll ws := rfl

theorem bwriteAll_append (s : LogSys) (ws ws' : List Write) :
    s.bwriteAll (ws ++ ws') = (s.bwriteAll ws).bwriteAll ws' := List.foldl_append

@[simp] theorem bwriteAll_disk (s : LogSys) (ws : List Write) :
    (s.bwriteAll ws).disk = applyWrites s.disk ws := by
  induction ws generalizing s with
  | nil => rfl
  | cons w ws ih => exact ih _

@[simp] theorem bwriteAll_cache (s : LogSys) (ws : List Write) :
    (s.bwriteAll ws).cache = applyWrites s.cache ws := by
  induction ws generalizing s with
  | nil => rfl
  | cons w ws ih => exact ih _

@[simp] theorem bwriteAll_log (s : LogSys) (ws : List Write) : (s.bwriteAll ws).log = s.log := by
  induction ws generalizing s with
  | nil => rfl
  | cons w ws ih => exact (ih _).trans rfl

@[simp] theorem bwriteAll_inOp (s : LogSys) (ws : List Write) :
    (s.bwriteAll ws).inOp = s.inOp := by
  induction ws generalizing s with
  | nil => rfl
  | cons w ws ih => exact (ih _).trans rfl

end LogSys

/-- The writes of the loop `copyLoop dst src k tail` from the cache `c`, when no
iteration reads a block that an iteration writes. -/
def copyWrites (dst src : ℕ → ℕ) (k tail : ℕ) (c : Disk) : List Write :=
  (List.range' tail k).map fun i => (dst i, c (src i))

/-- When the blocks the loop writes are not the blocks it reads, every iteration
reads what the cache held before the loop. -/
theorem copyLoop_spec {dst src : ℕ → ℕ} : ∀ (k tail : ℕ) (s : LogSys),
    (∀ i j, tail ≤ i → i < tail + k → tail ≤ j → j < tail + k → dst i ≠ src j) →
    copyLoop dst src k tail s =
      (s.bwriteAll (copyWrites dst src k tail s.cache), copyWrites dst src k tail s.cache)
  | 0, _, _, _ => rfl
  | k + 1, tail, s, h => by
    have ih := copyLoop_spec k (tail + 1) (s.bwrite (dst tail, s.cache (src tail)))
      fun i j hi hi' hj hj' => h i j (by omega) (by omega) (by omega) (by omega)
    -- the first iteration's write is not among the blocks the rest of the loop reads
    have hrest : copyWrites dst src k (tail + 1) (s.bwrite (dst tail, s.cache (src tail))).cache =
        copyWrites dst src k (tail + 1) s.cache := by
      unfold copyWrites
      apply List.map_congr_left
      intro i hi
      rw [List.mem_range'_1] at hi
      have hne : src i ≠ dst tail := (h tail i le_rfl (by omega) (by omega) (by omega)).symm
      simp [Function.update_of_ne hne]
    rw [copyLoop, ih, hrest]
    simp [copyWrites, List.range'_succ]

/-! ### Logs that fit -/

/-- A well-formed in-memory header: distinct blocks of the file system outside the
log area, no more than `LOGSIZE`, whose log blocks fit in the log area. -/
structure Log.Wf (l : Log) : Prop where
  home : ∀ b ∈ l.lh, l.home b
  nodup : l.lh.Nodup
  fits : l.lh = [] ∨ l.lh.length < l.size
  len : l.lh.length ≤ logsize

theorem Log.Wf.logBlock_ne {l : Log} (hl : l.Wf) {i : ℕ} (hi : i < l.lh.length) {b : ℕ}
    (hb : b ∈ l.lh) : logBlock l i ≠ b := by
  have hfit : l.lh.length < l.size := by
    rcases hl.fits with h | h
    · simp [h] at hi
    · exact h
  have := (hl.home b hb).1
  unfold logBlock
  omega

theorem Log.Wf.start_ne {l : Log} (hl : l.Wf) {b : ℕ} (hb : b ∈ l.lh) : l.start ≠ b := by
  have := (hl.home b hb).1
  have hpos := List.length_pos_of_mem hb
  rcases hl.fits with h | h
  · simp [h] at hb
  · omega

theorem logBlock_ne_start (l : Log) (i : ℕ) : logBlock l i ≠ l.start := by
  unfold logBlock; omega

theorem getD_mem_of_lt {L : List ℕ} {i : ℕ} (hi : i < L.length) : L.getD i 0 ∈ L := by
  rw [List.getD_eq_getElem _ _ hi]
  exact List.getElem_mem hi

/-- The writes of `write_log`: the `i`-th logged block's cached contents to the
`i`-th log block. -/
def logWrites (s : LogSys) : List Write :=
  copyWrites (logBlock s.log) (fun t => s.log.lh.getD t 0) s.log.lh.length 0 s.cache

/-- The transaction a commit of `s` installs: each logged block with its cached
contents. -/
def txnOf (s : LogSys) : List Write := s.log.lh.map fun b => (b, s.cache b)

theorem writeLog_spec {s : LogSys} (hl : s.log.Wf) :
    writeLog s = (s.bwriteAll (logWrites s), logWrites s) := by
  apply copyLoop_spec
  intro i j _ hi _ hj
  exact hl.logBlock_ne (by omega) (getD_mem_of_lt (by omega))

/-- A map over the positions of a list is a map over the list. -/
theorem map_range'_getD {α : Type*} (L : List ℕ) (f : ℕ → α) :
    (List.range' 0 L.length).map (fun i => f (L.getD i 0)) = L.map f := by
  apply List.ext_getElem (by simp)
  intro i h₁ h₂
  simp only [List.getElem_map, List.getElem_range'_1, Nat.zero_add]
  rw [List.getD_eq_getElem _ _ (by simpa using h₂)]

theorem logWrites_fst_nodup (s : LogSys) : ((logWrites s).map Prod.fst).Nodup := by
  unfold logWrites copyWrites
  rw [List.map_map]
  refine (List.nodup_range' ..).map ?_
  intro i j h
  simpa [logBlock] using h

theorem mem_logWrites {s : LogSys} {i : ℕ} (hi : i < s.log.lh.length) :
    (logBlock s.log i, s.cache (s.log.lh.getD i 0)) ∈ logWrites s := by
  unfold logWrites copyWrites
  exact List.mem_map.mpr ⟨i, List.mem_range'_1.mpr ⟨by omega, by omega⟩, rfl⟩

theorem logWrites_target {s : LogSys} {w : Write} (hw : w ∈ logWrites s) :
    ∃ i < s.log.lh.length, w.1 = logBlock s.log i := by
  unfold logWrites copyWrites at hw
  obtain ⟨i, hi, rfl⟩ := List.mem_map.mp hw
  exact ⟨i, by simpa using hi, rfl⟩

theorem txnOf_target {s : LogSys} {w : Write} (hw : w ∈ txnOf s) : w.1 ∈ s.log.lh := by
  unfold txnOf at hw
  obtain ⟨b, hb, rfl⟩ := List.mem_map.mp hw
  exact hb

/-- All the disk writes of a commit. -/
def commitWrites (s : LogSys) : List Write :=
  logWrites s ++ [(s.log.start, writeHead s.log.lh (s.cache s.log.start))] ++ txnOf s ++
    [(s.log.start, writeHead [] (writeHead s.log.lh (s.cache s.log.start)))]

/-- What `commit` does to a well-formed log with blocks to commit. -/
theorem commit_eq {s : LogSys} (hl : s.log.Wf) (hne : s.log.lh ≠ []) :
    commit s = ({ s.bwriteAll (commitWrites s) with log := { s.log with lh := [] } },
      commitWrites s) := by
  have hlen : 0 < s.log.lh.length := List.length_pos_of_ne_nil hne
  set L := s.log.lh with hL
  set s₁ := s.bwriteAll (logWrites s) with hs₁
  -- `write_log` writes log blocks only, so the header block is still the cached one
  have hstart₁ : s₁.cache s.log.start = s.cache s.log.start := by
    rw [hs₁, LogSys.bwriteAll_cache]
    apply applyWrites_of_not_mem
    intro w hw
    obtain ⟨i, -, hi⟩ := logWrites_target hw
    rw [hi]; exact logBlock_ne_start _ _
  set H₁ : Write := (s.log.start, writeHead L (s.cache s.log.start)) with hH₁
  set s₂ := s₁.bwrite H₁ with hs₂
  have hlog₂ : s₂.log = s.log := by simp [hs₂, hs₁]
  -- after `write_log`, the `i`-th log block holds the `i`-th logged block
  have hread : ∀ i < L.length, s₂.cache (logBlock s.log i) = s.cache (L.getD i 0) := by
    intro i hi
    rw [hs₂, LogSys.bwrite_cache, Function.update_of_ne (logBlock_ne_start _ _), hs₁,
      LogSys.bwriteAll_cache]
    exact applyWrites_of_mem (logWrites_fst_nodup s) (mem_logWrites hi)
  have hinstall : installTrans s₂ = (s₂.bwriteAll (txnOf s), txnOf s) := by
    unfold installTrans
    rw [hlog₂, copyLoop_spec]
    · have : copyWrites (fun tail => L.getD tail 0) (logBlock s.log) L.length 0 s₂.cache = txnOf s := by
        unfold copyWrites txnOf
        rw [← map_range'_getD L (fun b => (b, s.cache b))]
        apply List.map_congr_left
        intro i hi
        rw [List.mem_range'_1] at hi
        rw [hread i (by omega)]
      rw [this]
    · intro i j _ hi _ hj
      exact (hl.logBlock_ne (by omega) (getD_mem_of_lt (by omega))).symm
  -- `install_trans` writes home blocks only, so the header block is still `H₁`'s
  have hstart₃ : (s₂.bwriteAll (txnOf s)).cache s.log.start = writeHead L (s.cache s.log.start) := by
    rw [LogSys.bwriteAll_cache]
    rw [applyWrites_of_not_mem fun w hw he => hl.start_ne (txnOf_target hw) he.symm]
    simp [hs₂, hH₁]
  have hwl : writeLog s = (s₁, logWrites s) := writeLog_spec hl
  have hlog₁ : s₁.log = s.log := by rw [hs₁]; exact LogSys.bwriteAll_log _ _
  have hhead₁ : headWrite s₁ = H₁ := by
    unfold headWrite
    rw [hlog₁, hstart₁]
  set s₃ := s₂.bwriteAll (txnOf s) with hs₃
  have hlog₃ : s₃.log = s.log := by simp [hs₃, hlog₂]
  set H₂ : Write := (s.log.start, writeHead [] (writeHead L (s.cache s.log.start))) with hH₂
  have hall : s.bwriteAll (commitWrites s) = s₃.bwrite H₂ := by
    simp only [commitWrites, LogSys.bwriteAll_append, ← hs₁, LogSys.bwriteAll_cons,
      LogSys.bwriteAll_nil, ← hL, ← hH₁, ← hs₂, ← hs₃, ← hH₂]
  unfold commit
  rw [if_pos hlen]
  simp only [hwl, hhead₁, ← hs₂, hinstall]
  have hhead₂ : headWrite { s₃ with log := { s₃.log with lh := [] } } = H₂ := by
    simp only [headWrite, hlog₃, hstart₃, hH₂]
  rw [hhead₂, hall]
  refine Prod.ext ?_ rfl
  ext <;> simp [hlog₃]

/-! ### Recovery -/

theorem copyLoop_disk (dst src : ℕ → ℕ) : ∀ (k tail : ℕ) (s : LogSys),
    (copyLoop dst src k tail s).1.disk = applyWrites s.disk (copyLoop dst src k tail s).2
  | 0, _, _ => rfl
  | k + 1, tail, _ => copyLoop_disk dst src k (tail + 1) _

/-- The disk after recovery is the disk with recovery's writes applied. -/
theorem recovered_eq (start size : ℕ) (d : Disk) :
    recovered start size d = applyWrites d (recoveryWrites start size d) := by
  simp only [recovered, recoveryWrites, recoverFromLog, installTrans, LogSys.bwrite_disk,
    applyWrites_append, applyWrites_cons, applyWrites_nil]
  rw [copyLoop_disk]
  rfl

/-- The log `read_head` loads from the disk `d`. -/
def headLog (start size : ℕ) (d : Disk) : Log := ⟨start, size, 0, false, readHead (d start)⟩

@[simp] theorem headLog_start (start size : ℕ) (d : Disk) : (headLog start size d).start = start :=
  rfl

@[simp] theorem headLog_lh (start size : ℕ) (d : Disk) :
    (headLog start size d).lh = readHead (d start) := rfl

@[simp] theorem boot_readHead (start size : ℕ) (d : Disk) :
    (LogSys.boot start size d).readHead = ⟨headLog start size d, d, d, fun _ => false⟩ := rfl

/-- A disk whose header is one a commit could have written: its block numbers are
distinct blocks of the file system outside the log area, with log blocks that fit. -/
def Sane (start size : ℕ) (d : Disk) : Prop := (headLog start size d).Wf

/-- The writes of `install_trans` during recovery of `d`. -/
def recoveryInstall (start size : ℕ) (d : Disk) : List Write :=
  copyWrites (fun t => (readHead (d start)).getD t 0) (logBlock (headLog start size d))
    (readHead (d start)).length 0 d

theorem recoveryInstall_target {start size : ℕ} {d : Disk} {w : Write}
    (hw : w ∈ recoveryInstall start size d) : w.1 ∈ readHead (d start) := by
  unfold recoveryInstall copyWrites at hw
  obtain ⟨i, hi, rfl⟩ := List.mem_map.mp hw
  exact getD_mem_of_lt (by simpa using (List.mem_range'_1.mp hi).2)

/-- On a sane disk, recovery installs each logged block from its log block, then
clears the header. -/
theorem recoveryWrites_eq {start size : ℕ} {d : Disk} (hs : Sane start size d) :
    recoveryWrites start size d =
      recoveryInstall start size d ++ [(start, writeHead [] (d start))] := by
  have hinst : installTrans ⟨headLog start size d, d, d, fun _ => false⟩ =
      ((⟨headLog start size d, d, d, fun _ => false⟩ : LogSys).bwriteAll
        (recoveryInstall start size d), recoveryInstall start size d) := by
    apply copyLoop_spec
    intro i j _ hi _ hj
    exact (hs.logBlock_ne (by simpa using hj) (getD_mem_of_lt (by simpa using hi))).symm
  have hstart : applyWrites d (recoveryInstall start size d) start = d start :=
    applyWrites_of_not_mem fun w hw he => hs.start_ne (recoveryInstall_target hw) he.symm
  simp only [recoveryWrites, recoverFromLog, boot_readHead, hinst]
  simp [headWrite, hstart]

/-! ### What an event does -/

section Events

variable {s s' : LogSys} {ws : List Write}

theorem logStep_beginOp {p : ℕ} (h : logStep s (.beginOp p) = some (s', ws)) :
    ws = [] ∧ s'.disk = s.disk ∧ s'.cache = s.cache ∧
      s'.log = { s.log with outstanding := s.log.outstanding + 1 } := by
  simp only [logStep] at h
  split_ifs at h
  obtain ⟨s₁, he, hr⟩ := Option.map_eq_some_iff.mp h
  simp only [Prod.mk.injEq] at hr
  obtain ⟨rfl, rfl⟩ := hr
  unfold LogSys.beginOp at he
  split_ifs at he
  cases he
  exact ⟨rfl, rfl, rfl, rfl⟩

theorem logStep_logWrite {p b : ℕ} {v : Block} (h : logStep s (.logWrite p b v) = some (s', ws)) :
    ws = [] ∧ s.log.home b ∧ s.log.lh.length < logsize ∧ s.log.lh.length + 1 < s.log.size ∧
      s'.disk = s.disk ∧ s'.cache = Function.update s.cache b v ∧
      s'.log = { s.log with lh := LogSys.absorb s.log.lh b } := by
  simp only [logStep] at h
  split_ifs at h with hp
  obtain ⟨s₁, he, hr⟩ := Option.map_eq_some_iff.mp h
  simp only [Prod.mk.injEq] at hr
  obtain ⟨rfl, rfl⟩ := hr
  unfold LogSys.logWrite at he
  split_ifs at he with hfull
  cases he
  -- the panic "too big a transaction" did not fire
  simp only [not_or, not_le] at hfull
  exact ⟨rfl, hp.2, by exact_mod_cast hfull.1, by omega, rfl, rfl, rfl⟩

/-- `end_op` either only releases the operation, or ends the last one and
commits a non-empty log. -/
theorem logStep_endOp {p : ℕ} (hl : s.log.Wf) (hc : s.log.committing = false)
    (h : logStep s (.endOp p) = some (s', ws)) :
    (ws = [] ∧ s'.disk = s.disk ∧ s'.cache = s.cache ∧
        ∃ o, s'.log = { s.log with outstanding := o }) ∨
      (s.log.lh ≠ [] ∧ ws = commitWrites s ∧ s'.disk = applyWrites s.disk ws ∧
        s'.cache = applyWrites s.cache ws ∧
        s'.log = { s.log with outstanding := 0, lh := [] }) := by
  simp only [logStep] at h
  split_ifs at h with hp
  obtain ⟨r, he, hr⟩ := Option.map_eq_some_iff.mp h
  simp only [Prod.mk.injEq] at hr
  obtain ⟨rfl, rfl⟩ := hr
  unfold LogSys.endOp at he
  rw [if_neg (by simp [hc])] at he
  split_ifs at he with ho
  · -- the last operation ends and commits
    cases he
    by_cases hne : s.log.lh = []
    · left
      have hcommit : commit { s with log := { s.log with outstanding := 0, committing := true } } =
          ({ s with log := { s.log with outstanding := 0, committing := true } }, []) := by
        simp [commit, hne]
      simp [hcommit, hc]
    · right
      have hl₁ : ({ s.log with outstanding := 0, committing := true } : Log).Wf :=
        ⟨hl.home, hl.nodup, hl.fits, hl.len⟩
      rw [commit_eq (s := { s with log := { s.log with outstanding := 0, committing := true } })
        hl₁ hne]
      exact ⟨hne, rfl, by simp [commitWrites], by simp [commitWrites], by simp [hc]⟩
  · cases he
    exact .inl ⟨rfl, rfl, rfl, _, rfl⟩

end Events

/-! ### Log absorption -/

namespace LogSys

theorem mem_absorb {lh : List ℕ} {b x : ℕ} : x ∈ absorb lh b ↔ x ∈ lh ∨ x = b := by
  unfold absorb
  split_ifs with h
  · constructor
    · exact .inl
    · rintro (hx | rfl)
      · exact hx
      · exact h
  · simp

theorem nodup_absorb {lh : List ℕ} (h : lh.Nodup) (b : ℕ) : (absorb lh b).Nodup := by
  unfold absorb
  split_ifs with hb
  · exact h
  · exact h.append (List.nodup_singleton b) (by simpa using hb)

theorem length_absorb_le (lh : List ℕ) (b : ℕ) : (absorb lh b).length ≤ lh.length + 1 := by
  unfold absorb
  split_ifs <;> simp

end LogSys

end Xv6
