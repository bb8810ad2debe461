import Xv6.Inode
import Xv6.Lib.Run

/-!
# Writes through a shared open file

`filewrite` (`file.c`) writes an inode file a few blocks at a time, so that no
transaction of the log outgrows `MAXOPBLOCKS`.  Each turn of its loop is one section
`begin_op(); ilock(f->ip); r = writei(f->ip, addr + i, f->off, n1); if(r > 0)
f->off += r; iunlock(f->ip); end_op();` of at most `((MAXOPBLOCKS-1-1-2)/2)*512`
bytes.  Processes that share a `struct file` after `fork` or `dup` share `f->off`,
which is read and advanced inside the section, under the inode's lock.

This file models processes running `write()` calls as a transition system whose
steps are those sections, one of one process at a time and in any order, over open
files on any inodes of one disk.  A section on another inode holds another lock;
`writei_some` shows that what it does to the disk stays within that file's blocks
and blocks that were free, so that it leaves every other file alone.  `log` records
every chunk written, in order.

Over every run the shared file holds its old bytes up to the offset it started at,
then the chunks written through it in the order of the run, then its old bytes past
them; its offset is at the end of those chunks; the chunks of each process come in
the order of its calls; and a call that returned `n` wrote its `n` bytes, while one
that returned `-1` wrote a prefix of them.

## Main definitions

* `OpenInode`, `Chunk`, `WState`, `WEvent` — open files, the chunks written, the
  state and the steps.
* `filewriteChunk`, `filewriteRet`, `WState.step` — a turn of the loop of
  `filewrite`, and its return.
* `FsSound` — every inode sound and without holes, and no two sharing a block.
* `SharedFile` — what the shared file holds and what the calls wrote.

## Main results

* `FsSound.writei` — `writei` on one inode keeps the file system sound and every
  other inode's content.
* `filewrite_interleaving` — `SharedFile` holds in every state of every run.
-/

namespace Xv6

/-! ### The state -/

/-- `((MAXOPBLOCKS-1-1-2) / 2) * 512`: the most bytes one section of `filewrite`
writes. -/
def maxWrite : ℕ := (maxopblocks - 1 - 1 - 2) / 2 * 512

/-- The fields of a `struct file` of type `FD_INODE` that `filewrite` reads: whether
it was opened for writing, its inode (by number) and its offset. -/
structure OpenInode where
  writable : Bool
  ip : ℕ
  off : ℕ

/-- A chunk one section of `filewrite` wrote: the process, the index of its
`write()` call, the open file written through, and the bytes. -/
structure Chunk where
  proc : ℕ
  call : ℕ
  file : ℕ
  bytes : List UInt8

/-- The processes' `write()` calls over one disk: the disk and the in-memory inodes
by number, and the open files; for each process, `i` of its call in progress and
the values its finished calls returned, whose number is the index of the call in
progress; and the chunks written, in order. -/
structure WState where
  disk : Disk
  inodes : ℕ → InodeData
  files : ℕ → OpenInode
  done : ℕ → ℕ
  rets : ℕ → List ℤ
  log : List Chunk

/-- A turn of the loop of `filewrite` in a process, or its return. -/
inductive WEvent
  | chunk (p : ℕ)
  | ret (p : ℕ)

/-- Process `p` returns `r` from its call in progress and moves to its next. -/
def WState.finish (s : WState) (p : ℕ) (r : ℤ) : WState :=
  { s with done := Function.update s.done p 0, rets := Function.update s.rets p (s.rets p ++ [r]) }

/-- The buffer of call `k` of process `p`, for the programs `prog` that list each
process's `write()` calls by open file and buffer; empty past the last call. -/
def callBuf (prog : ℕ → List (ℕ × List UInt8)) (p k : ℕ) : List UInt8 := ((prog p)[k]?.map Prod.snd).getD []

/-- The bytes of the chunks of `log` written through open file `F`, in order. -/
def writtenThrough (log : List Chunk) (F : ℕ) : List UInt8 :=
  ((log.filter fun c => c.file = F).map Chunk.bytes).flatten

/-- The bytes of the chunks of `log` that call `k` of process `p` wrote, in order. -/
def callBytes (log : List Chunk) (p k : ℕ) : List UInt8 :=
  ((log.filter fun c => c.proc = p ∧ c.call = k).map Chunk.bytes).flatten

/-! ### `filewrite` -/

section Filewrite

variable (sb : Superblock) (prog : ℕ → List (ℕ × List UInt8))

/-- A turn of the loop of `filewrite(f, addr, n)` in process `p`, on its call in
progress with `i` bytes written: `writei` of `n1 = min(n - i, max)` bytes at
`f->off`, and `f->off += r` if `r > 0`; then `break`, and `return -1` as `i < n`, if
`r < 0`, and `panic("short filewrite")` if `r != n1`. -/
def filewriteChunk (s : WState) (p : ℕ) : Option WState :=
  match (prog p)[(s.rets p).length]? with
  | none => none
  | some (f, buf) =>
    if (s.files f).writable ∧ s.done p < buf.length then
      (writei sb s.disk (s.inodes (s.files f).ip) (fun j => buf.getD (s.done p + j) 0) (s.files f).off
          (min (buf.length - s.done p) maxWrite)).bind fun w =>
        let s' := { s with
          disk := w.2.1
          inodes := Function.update s.inodes (s.files f).ip w.2.2
          files := if 0 < w.1 then
              Function.update s.files f { (s.files f) with off := wrap32 ((s.files f).off + w.1.toNat) }
            else s.files }
        if w.1 < 0 then some (s'.finish p (-1))
        else if w.1 ≠ (min (buf.length - s.done p) maxWrite : ℕ) then none
        else some { s' with
          done := Function.update s.done p (s.done p + min (buf.length - s.done p) maxWrite)
          log := s.log ++ [⟨p, (s.rets p).length, f,
            (buf.drop (s.done p)).take (min (buf.length - s.done p) maxWrite)⟩] }
    else none

/-- The return of `filewrite` in process `p`: `-1` at once for a file not open for
writing, and `i == n ? n : -1` once the loop has run out. -/
def filewriteRet (s : WState) (p : ℕ) : Option WState :=
  match (prog p)[(s.rets p).length]? with
  | none => none
  | some (f, buf) =>
    if (s.files f).writable then
      if s.done p < buf.length then none
      else some (s.finish p (if s.done p = buf.length then (buf.length : ℤ) else -1))
    else some (s.finish p (-1))

/-- A step of the system: a section of one process, or its return. -/
def WState.step (s : WState) : WEvent → Option WState
  | .chunk p => filewriteChunk sb prog s p
  | .ret p => filewriteRet prog s p

end Filewrite

/-! ### The file system -/

/-- Every inode is sound and without holes below its size, and no two share a
block. -/
structure FsSound (sb : Superblock) (d : Disk) (inodes : ℕ → InodeData) : Prop where
  sound : ∀ a, (inodes a).Sound sb d
  filled : ∀ a, (inodes a).Filled d (inodes a).size
  apart : ∀ a b, a ≠ b → (inodes a).Apart (inodes b) d

section Fs

variable {sb : Superblock} {d d' : Disk} {inodes : ℕ → InodeData}

theorem InodeData.not_holds_empty {y : ℕ} : ¬ InodeData.empty.Holds d y := by
  rintro ⟨hy0, ⟨bn, hb⟩ | hi⟩
  · rw [InodeData.blockOf_empty] at hb
    exact hy0 hb.symm
  · exact hy0 hi.symm

/-- A disk whose inodes are all empty, as `mkfs` leaves those it does not use. -/
theorem FsSound.empty (hv : sb.Valid d) : FsSound sb d fun _ => InodeData.empty :=
  ⟨fun _ => InodeData.Sound.empty hv, fun _ i hi => absurd hi (Nat.not_lt_zero i),
    fun _ _ _ _ h _ => InodeData.not_holds_empty h⟩

/-- `writei` on inode `a` keeps the file system sound, and every other inode's
content. -/
theorem FsSound.writei {a : ℕ} {src : ℕ → UInt8} {off n : ℕ} {r : ℤ} {ip' : InodeData}
    (hfs : FsSound sb d inodes) (h : writei sb d (inodes a) src off n = some (r, d', ip')) :
    FsSound sb d' (Function.update inodes a ip') ∧ ∀ b, b ≠ a → (inodes b).content d' = (inodes b).content d := by
  rcases writei_some (hfs.sound a) (hfs.filled a) h with ⟨-, rfl, rfl⟩ | ⟨-, -, -, -, -, hs', hf', hleaves⟩
  · rw [Function.update_eq_self]
    exact ⟨hfs, fun _ _ => rfl⟩
  -- every other inode is left alone, and stays apart from `a`
  have hl : ∀ b, b ≠ a → (inodes b).Leaves sb d d' ∧ ip'.Apart (inodes b) d' :=
    fun b hb => hleaves _ (hfs.sound b) (hfs.apart a b (Ne.symm hb))
  refine ⟨⟨fun b => ?_, fun b => ?_, fun b c hbc => ?_⟩, fun b hb => (hl b hb).1.content (hfs.filled b)⟩
  · by_cases hb : b = a
    · rw [hb, Function.update_self]
      exact hs'
    · rw [Function.update_of_ne hb]
      exact (hl b hb).1.sound
  · by_cases hb : b = a
    · rw [hb, Function.update_self]
      exact hf'
    · rw [Function.update_of_ne hb]
      exact (hl b hb).1.filled (hfs.filled b)
  · by_cases hb : b = a
    · subst hb
      rw [Function.update_self, Function.update_of_ne (Ne.symm hbc)]
      exact (hl c (Ne.symm hbc)).2
    by_cases hc : c = a
    · subst hc
      rw [Function.update_self, Function.update_of_ne hb]
      exact (hl b hb).2.symm
    -- two other inodes hold the blocks they held
    rw [Function.update_of_ne hb, Function.update_of_ne hc]
    intro y h₁ h₂
    exact hfs.apart b c hbc y (((hl b hb).1.holds_iff y).mp h₁) (((hl c hc).1.holds_iff y).mp h₂)

end Fs

/-! ### Logs of chunks -/

section Log

variable {log : List Chunk}

theorem writtenThrough_concat (log : List Chunk) (c : Chunk) (F : ℕ) :
    writtenThrough (log ++ [c]) F = writtenThrough log F ++ if c.file = F then c.bytes else [] := by
  unfold writtenThrough
  by_cases h : c.file = F
  · simp [List.filter_append, h]
  · simp [List.filter_append, h]

theorem callBytes_concat (log : List Chunk) (c : Chunk) (p k : ℕ) :
    callBytes (log ++ [c]) p k = callBytes log p k ++ if c.proc = p ∧ c.call = k then c.bytes else [] := by
  unfold callBytes
  by_cases h : c.proc = p ∧ c.call = k
  · simp [List.filter_append, h]
  · simp only [List.filter_append, List.filter_singleton, decide_eq_false h, cond_false, if_neg h,
      List.map_append, List.map_nil, List.flatten_append, List.flatten_nil]

/-- A call no chunk belongs to has written nothing. -/
theorem callBytes_eq_nil {p K : ℕ} (h : ∀ c ∈ log, c.proc = p → c.call ≤ K) {k : ℕ} (hk : K < k) :
    callBytes log p k = [] := by
  unfold callBytes
  rw [List.filter_eq_nil_iff.mpr fun c hc hck => by
    simp only [decide_eq_true_eq] at hck
    have := h c hc hck.1
    omega]
  rfl

/-- The chunk `buf[i, i + n)` as `writei` reads it from `addr + i`. -/
theorem map_range_getD {α : Type*} (l : List α) (a : α) {i n : ℕ} (h : i + n ≤ l.length) :
    (List.range n).map (fun j => l.getD (i + j) a) = (l.drop i).take n := by
  apply List.ext_getElem
  · simp only [List.length_map, List.length_range, List.length_take, List.length_drop]
    omega
  · intro j h₁ h₂
    simp only [List.getElem_map, List.getElem_range, List.getElem_take, List.getElem_drop]
    rw [List.getD_eq_getElem]

/-- Bytes `x` written at the end of those written so far, over a file that held `c`
and was written from `o`. -/
theorem splice_at_end {α : Type*} (c W x : List α) {o m : ℕ} (h : o ≤ c.length) (hx : x.length = m) :
    (c.take o ++ W ++ c.drop (o + W.length)).take (o + W.length) ++ x ++
        (c.take o ++ W ++ c.drop (o + W.length)).drop (o + W.length + m) =
      c.take o ++ (W ++ x) ++ c.drop (o + (W ++ x).length) := by
  subst hx
  have hl : (c.take o ++ W).length = o + W.length := by
    rw [List.length_append, List.length_take, min_eq_left h]
  have hd : (c.take o ++ W ++ c.drop (o + W.length)).drop (o + W.length + x.length) =
      c.drop (o + W.length + x.length) := by
    rw [← List.drop_drop, List.drop_left' hl, List.drop_drop]
  rw [List.take_left' hl, hd, List.length_append, ← Nat.add_assoc]
  simp only [List.append_assoc]

end Log

/-! ### What the calls wrote -/

/-- The chunks of `log` against the processes' calls, with `rets` and `done` as in
`WState`. -/
structure CallLog (prog : ℕ → List (ℕ × List UInt8)) (rets : ℕ → List ℤ) (done : ℕ → ℕ) (log : List Chunk) :
    Prop where
  /-- each chunk is a whole turn of the loop of `filewrite`: the `min(n - i, max)`
  bytes of its call's buffer from some `i < n` -/
  chunk : ∀ c ∈ log, ∃ i < (callBuf prog c.proc c.call).length,
    c.bytes = ((callBuf prog c.proc c.call).drop i).take (min ((callBuf prog c.proc c.call).length - i) maxWrite)
  /-- the chunks of each process come in the order of its calls -/
  order : ∀ p, (log.filter fun c => c.proc = p).Pairwise fun c c' => c.call ≤ c'.call
  /-- a finished call returned `n` having written its buffer, or `-1` having written
  a prefix of it -/
  returned : ∀ p k (hk : k < (rets p).length),
    (rets p)[k] = ((callBuf prog p k).length : ℤ) ∧ callBytes log p k = callBuf prog p k ∨
      (rets p)[k] = -1 ∧ callBytes log p k <+: callBuf prog p k
  /-- the call in progress has written the first `i` bytes of its buffer -/
  current : ∀ p, callBytes log p (rets p).length = (callBuf prog p (rets p).length).take (done p)
  done_le : ∀ p, done p ≤ (callBuf prog p (rets p).length).length
  /-- no chunk belongs to a call not yet begun -/
  call_le : ∀ c ∈ log, c.call ≤ (rets c.proc).length

section CallLog

variable {prog : ℕ → List (ℕ × List UInt8)} {rets : ℕ → List ℤ} {done : ℕ → ℕ} {log : List Chunk}

theorem CallLog.init (hrets : ∀ p, rets p = []) (hdone : ∀ p, done p = 0) : CallLog prog rets done [] where
  chunk _ h := absurd h List.not_mem_nil
  order _ := List.Pairwise.nil
  returned p k hk := absurd hk (by rw [hrets]; exact Nat.not_lt_zero k)
  current p := by
    rw [hdone, List.take_zero]
    rfl
  done_le p := by
    rw [hdone]
    exact Nat.zero_le _
  call_le _ h := absurd h List.not_mem_nil

/-- The call in progress of process `p` returns `r`: `-1`, or `n` once it has written
its buffer. -/
theorem CallLog.finish (hc : CallLog prog rets done log) {p : ℕ} {r : ℤ}
    (hr : r = -1 ∨ r = (callBuf prog p (rets p).length).length ∧
      done p = (callBuf prog p (rets p).length).length) :
    CallLog prog (Function.update rets p (rets p ++ [r])) (Function.update done p 0) log where
  chunk := hc.chunk
  order := hc.order
  returned p' k hk := by
    by_cases hp : p' = p
    · subst hp
      simp only [Function.update_self, List.length_append, List.length_singleton] at hk ⊢
      rcases Nat.lt_succ_iff_lt_or_eq.mp hk with hk | rfl
      · rw [List.getElem_append_left hk]
        exact hc.returned p' k hk
      · -- the call that returns now
        rw [List.getElem_append_right (le_refl _), List.getElem_singleton, hc.current p']
        rcases hr with rfl | ⟨rfl, hd⟩
        · exact .inr ⟨rfl, List.take_prefix _ _⟩
        · rw [hd, List.take_length]
          exact .inl ⟨rfl, rfl⟩
    · simp only [Function.update_of_ne hp] at hk ⊢
      exact hc.returned p' k hk
  current p' := by
    by_cases hp : p' = p
    · subst hp
      rw [Function.update_self, Function.update_self, List.take_zero, List.length_append, List.length_singleton]
      -- no chunk belongs to the next call yet
      refine callBytes_eq_nil (fun c hc' hcp => ?_) (Nat.lt_succ_self _)
      rw [← hcp]
      exact hc.call_le c hc'
    · rw [Function.update_of_ne hp, Function.update_of_ne hp]
      exact hc.current p'
  done_le p' := by
    by_cases hp : p' = p
    · subst hp
      rw [Function.update_self]
      exact Nat.zero_le _
    · rw [Function.update_of_ne hp, Function.update_of_ne hp]
      exact hc.done_le p'
  call_le c h := by
    by_cases hp : c.proc = p
    · rw [hp, Function.update_self, List.length_append]
      have := hc.call_le c h
      rw [hp] at this
      omega
    · rw [Function.update_of_ne hp]
      exact hc.call_le c h

/-- A turn of the loop of the call in progress of process `p`, with `i` bytes
written: the chunk of `m = min(n - i, max)` bytes of its buffer from `i`. -/
theorem CallLog.write (hc : CallLog prog rets done log) {p f m : ℕ} {buf : List UInt8}
    (hbuf : callBuf prog p (rets p).length = buf) (hlt : done p < buf.length)
    (hm : m = min (buf.length - done p) maxWrite) :
    CallLog prog rets (Function.update done p (done p + m))
      (log ++ [⟨p, (rets p).length, f, (buf.drop (done p)).take m⟩]) where
  chunk c h := by
    rcases List.mem_append.mp h with h | h
    · exact hc.chunk c h
    · rw [List.mem_singleton] at h
      subst h
      exact ⟨done p, by rw [hbuf]; exact hlt, by rw [hbuf, hm]⟩
  order p' := by
    rw [List.filter_append, List.pairwise_append]
    refine ⟨hc.order p', (List.pairwise_singleton _ _).sublist List.filter_sublist, fun a ha b hb => ?_⟩
    -- the new chunk is of the call in progress, after every chunk of the process
    rw [List.mem_filter] at ha hb
    obtain ⟨hb, hbp⟩ := hb
    rw [List.mem_singleton] at hb
    subst hb
    simp only [decide_eq_true_eq] at ha hbp
    have := hc.call_le a ha.1
    rw [ha.2, ← hbp] at this
    exact this
  returned p' k hk := by
    rw [callBytes_concat, if_neg fun h => by simp only at h; obtain ⟨rfl, rfl⟩ := h; omega, List.append_nil]
    exact hc.returned p' k hk
  current p' := by
    by_cases hp : p' = p
    · subst hp
      rw [callBytes_concat, if_pos ⟨rfl, rfl⟩, hc.current, Function.update_self, hbuf, ← List.take_add]
    · rw [callBytes_concat, if_neg fun h => hp h.1.symm, List.append_nil, Function.update_of_ne hp]
      exact hc.current p'
  done_le p' := by
    by_cases hp : p' = p
    · subst hp
      rw [Function.update_self, hbuf]
      omega
    · rw [Function.update_of_ne hp]
      exact hc.done_le p'
  call_le c h := by
    rcases List.mem_append.mp h with h | h
    · exact hc.call_le c h
    · rw [List.mem_singleton] at h
      subst h
      exact le_refl _

end CallLog

/-! ### The shared file over a run -/

/-- What the processes' calls have done to the file open as `F`, which held `c₀` and
was at offset `off₀` at the start. -/
structure SharedFile (prog : ℕ → List (ℕ × List UInt8)) (F : ℕ) (c₀ : List UInt8) (off₀ : ℕ) (s : WState) :
    Prop where
  /-- the file holds its old bytes up to `off₀`, the chunks written through `F` in the
  order of the run, and its old bytes past them -/
  content : (s.inodes (s.files F).ip).content s.disk =
    c₀.take off₀ ++ writtenThrough s.log F ++ c₀.drop (off₀ + (writtenThrough s.log F).length)
  /-- `f->off` is at the end of those chunks -/
  off : (s.files F).off = off₀ + (writtenThrough s.log F).length
  calls : CallLog prog s.rets s.done s.log

/-- The invariant of the runs: `SharedFile`, a sound file system, and open files that
keep their inode and their access. -/
structure WInv (sb : Superblock) (prog : ℕ → List (ℕ × List UInt8)) (F : ℕ) (files₀ : ℕ → OpenInode)
    (c₀ : List UInt8) (off₀ : ℕ) (s : WState) : Prop where
  shared : SharedFile prog F c₀ off₀ s
  fs : FsSound sb s.disk s.inodes
  ip : ∀ g, (s.files g).ip = (files₀ g).ip
  writable : ∀ g, (s.files g).writable = (files₀ g).writable

section Steps

variable {sb : Superblock} {prog : ℕ → List (ℕ × List UInt8)} {F : ℕ} {files₀ : ℕ → OpenInode}
  {c₀ : List UInt8} {off₀ : ℕ} {s t : WState}

theorem callBuf_of_getElem? {p k f : ℕ} {buf : List UInt8} (h : (prog p)[k]? = some (f, buf)) :
    callBuf prog p k = buf := by
  rw [callBuf, h]
  rfl

theorem WInv.init {s₀ : WState} (hfs : FsSound sb s₀.disk s₀.inodes) (hlog : s₀.log = [])
    (hrets : ∀ p, s₀.rets p = []) (hdone : ∀ p, s₀.done p = 0) :
    WInv sb prog F s₀.files ((s₀.inodes (s₀.files F).ip).content s₀.disk) (s₀.files F).off s₀ where
  shared := ⟨by simp [hlog, writtenThrough], by simp [hlog, writtenThrough], hlog ▸ CallLog.init hrets hdone⟩
  fs := hfs
  ip _ := rfl
  writable _ := rfl

theorem WInv.finish (hi : WInv sb prog F files₀ c₀ off₀ s) {p : ℕ} {r : ℤ}
    (hr : r = -1 ∨ r = (callBuf prog p (s.rets p).length).length ∧
      s.done p = (callBuf prog p (s.rets p).length).length) :
    WInv sb prog F files₀ c₀ off₀ (s.finish p r) :=
  ⟨⟨hi.shared.content, hi.shared.off, hi.shared.calls.finish hr⟩, hi.fs, hi.ip, hi.writable⟩

/-- The return of `filewrite`. -/
theorem WInv.ret (hi : WInv sb prog F files₀ c₀ off₀ s) {p : ℕ} (h : filewriteRet prog s p = some t) :
    WInv sb prog F files₀ c₀ off₀ t := by
  unfold filewriteRet at h
  split at h
  · cases h
  next f buf hcur =>
  have hbuf := callBuf_of_getElem? hcur
  have hd := hi.shared.calls.done_le p
  rw [hbuf] at hd
  by_cases hw : (s.files f).writable
  · rw [if_pos hw] at h
    by_cases hlt : s.done p < buf.length
    · rw [if_pos hlt] at h
      cases h
    -- the loop has run out: `i == n`, and the call returns `n`
    rw [if_neg hlt, if_pos (by omega)] at h
    rw [← Option.some.inj h]
    exact hi.finish (.inr ⟨by rw [hbuf], by rw [hbuf]; omega⟩)
  · rw [if_neg hw] at h
    rw [← Option.some.inj h]
    exact hi.finish (.inl rfl)

variable (hother : ∀ p, ∀ x ∈ prog p, x.1 = F ∨ (files₀ x.1).ip ≠ (files₀ F).ip)
include hother

/-- A turn of the loop of `filewrite`: one section, on the shared file or on another
inode. -/
theorem WInv.chunk (hi : WInv sb prog F files₀ c₀ off₀ s) {p : ℕ} (h : filewriteChunk sb prog s p = some t) :
    WInv sb prog F files₀ c₀ off₀ t := by
  unfold filewriteChunk at h
  split at h
  · cases h
  next f buf hcur =>
  by_cases hw : (s.files f).writable ∧ s.done p < buf.length
  swap
  · rw [if_neg hw] at h
    cases h
  rw [if_pos hw] at h
  obtain ⟨⟨r, d', ip'⟩, hwr, h⟩ := Option.bind_eq_some_iff.mp h
  have hbuf := callBuf_of_getElem? hcur
  obtain ⟨hfs', hkeep⟩ := hi.fs.writei hwr
  rcases writei_some (hi.fs.sound _) (hi.fs.filled _) hwr with ⟨rfl, rfl, rfl⟩ | ⟨rfl, hle, hmax, hcont, -, -, -, -⟩
  · -- `r < 0`: `break`, and nothing was written
    dsimp only at h
    rw [if_pos (by decide)] at h
    have ht : t = s.finish p (-1) := by
      rw [← Option.some.inj h, Function.update_eq_self, if_neg (by decide)]
    rw [ht]
    exact hi.finish (.inl rfl)
  -- `r = n1`: the chunk is written and `f->off` advanced
  have hm0 : 0 < maxWrite := by decide
  have hn1 : 0 < min (buf.length - s.done p) maxWrite := by omega
  dsimp only at h
  rw [if_neg (by omega), if_neg (not_not.mpr rfl), if_pos (by omega)] at h
  obtain rfl := Option.some.inj h
  have hx : ((buf.drop (s.done p)).take (min (buf.length - s.done p) maxWrite)).length =
      min (buf.length - s.done p) maxWrite := by
    rw [List.length_take, List.length_drop]
    omega
  refine ⟨⟨?_, ?_, hi.shared.calls.write hbuf hw.2 rfl⟩, hfs', fun g => ?_, fun g => ?_⟩
  · -- the content of the shared file
    dsimp only
    by_cases hF : f = F
    · subst hF
      have hoff₀ : off₀ ≤ c₀.length := by
        have hlen := congrArg List.length hi.shared.content
        rw [hi.shared.off] at hle
        simp only [InodeData.content, List.length_map, List.length_range, List.length_append, List.length_take,
          List.length_drop] at hlen
        omega
      rw [Function.update_self]
      dsimp only
      rw [Function.update_self, hcont, map_range_getD _ _ (by omega), hi.shared.content, hi.shared.off,
        writtenThrough_concat, if_pos rfl]
      exact splice_at_end _ _ _ hoff₀ hx
    · -- a section on another inode leaves the shared file alone
      have hne : (s.files f).ip ≠ (s.files F).ip := by
        rw [hi.ip, hi.ip]
        exact (hother p (f, buf) (List.mem_of_getElem? hcur)).resolve_left hF
      rw [Function.update_of_ne (Ne.symm hF), Function.update_of_ne (Ne.symm hne), hkeep _ (Ne.symm hne),
        writtenThrough_concat, if_neg hF, List.append_nil]
      exact hi.shared.content
  · -- `f->off += r`
    dsimp only
    by_cases hF : f = F
    · subst hF
      have hcap : maxfile * bsize < 2 ^ 32 := by unfold maxfile ndirect nindirect bsize; omega
      rw [Function.update_self]
      dsimp only
      rw [writtenThrough_concat, if_pos rfl, List.length_append, ← Nat.add_assoc, ← hi.shared.off,
        Int.toNat_natCast]
      dsimp only
      rw [hx, wrap32, Nat.mod_eq_of_lt (by omega)]
    · rw [Function.update_of_ne (Ne.symm hF), writtenThrough_concat, if_neg hF, List.append_nil]
      exact hi.shared.off
  · dsimp only
    by_cases hg : g = f
    · rw [hg, Function.update_self]
      exact hi.ip f
    · rw [Function.update_of_ne hg]
      exact hi.ip g
  · dsimp only
    by_cases hg : g = f
    · rw [hg, Function.update_self]
      exact hi.writable f
    · rw [Function.update_of_ne hg]
      exact hi.writable g

theorem WInv.step (hi : WInv sb prog F files₀ c₀ off₀ s) {e : WEvent} (h : s.step sb prog e = some t) :
    WInv sb prog F files₀ c₀ off₀ t := by
  cases e with
  | chunk p => exact hi.chunk hother h
  | ret p => exact hi.ret h

end Steps

/-- **Writes through a shared open file.**  Take processes running `write()` calls
through open files of type `FD_INODE`, each on the shared file `F` or on another
inode, from a state with a sound file system and no call begun, and interleave the
sections of `filewrite` in any order.  In every state of the run the file `F` holds
its old bytes up to the offset it started at, the chunks written through it in the
order of the run, and its old bytes past them; `f->off` is at the end of those
chunks; each chunk is a whole turn of `filewrite`'s loop; the chunks of each process
come in the order of its calls; and a call that returned `n` wrote its `n` bytes,
one that returned `-1` a prefix of them. -/
theorem filewrite_interleaving {sb : Superblock} {prog : ℕ → List (ℕ × List UInt8)} {s₀ s : WState}
    {es : List WEvent} (F : ℕ) (hfs : FsSound sb s₀.disk s₀.inodes) (hlog : s₀.log = [])
    (hrets : ∀ p, s₀.rets p = []) (hdone : ∀ p, s₀.done p = 0)
    (hother : ∀ p, ∀ x ∈ prog p, x.1 = F ∨ (s₀.files x.1).ip ≠ (s₀.files F).ip)
    (hrun : Transition.Run (fun s e t => s.step sb prog e = some t) s₀ es s) :
    SharedFile prog F ((s₀.inodes (s₀.files F).ip).content s₀.disk) (s₀.files F).off s :=
  (hrun.invariant (fun _ _ _ hi h => hi.step hother h) (WInv.init hfs hlog hrets hdone)).shared

/-- Two processes sharing open file `0` on a fresh file: the first writes two bytes,
the second one byte, each call in one section, and both return. -/
theorem filewrite_interleaving_sharedfd :
    ∃ s, Transition.runFn (WState.step ⟨4, 1, by decide⟩
        fun p => if p = 0 then [(0, [1, 2])] else if p = 1 then [(0, [3])] else [])
      ⟨Function.update (fun _ => Block.zero) 1 ((Block.zero.setBit 0).setBit 1), fun _ => InodeData.empty,
        fun _ => ⟨true, 1, 0⟩, fun _ => 0, fun _ => [], []⟩
      [.chunk 0, .chunk 1, .ret 1, .ret 0] = some s ∧
    SharedFile (fun p => if p = 0 then [(0, [1, 2])] else if p = 1 then [(0, [3])] else []) 0 [] 0 s := by
  obtain ⟨s, hs⟩ := Option.isSome_iff_exists.mp (show (Transition.runFn (WState.step ⟨4, 1, by decide⟩
      fun p => if p = 0 then [(0, [1, 2])] else if p = 1 then [(0, [3])] else [])
    ⟨Function.update (fun _ => Block.zero) 1 ((Block.zero.setBit 0).setBit 1), fun _ => InodeData.empty,
      fun _ => ⟨true, 1, 0⟩, fun _ => 0, fun _ => [], []⟩
    [.chunk 0, .chunk 1, .ret 1, .ret 0]).isSome = true by decide)
  refine ⟨s, hs, filewrite_interleaving 0 (FsSound.empty ⟨by decide, by decide⟩) rfl (fun _ => rfl) (fun _ => rfl)
    (fun p x hx => .inl ?_) (Transition.Run.of_runFn hs)⟩
  -- every call writes through the shared file
  by_cases h0 : p = 0
  · rw [if_pos h0, List.mem_singleton] at hx
    rw [hx]
  · by_cases h1 : p = 1
    · rw [if_neg h0, if_pos h1, List.mem_singleton] at hx
      rw [hx]
    · rw [if_neg h0, if_neg h1] at hx
      cases hx

end Xv6
