import Xv6.Param
import Xv6.Lib.Run

/-!
# Pipes

`pipe.c`: a pipe is a ring of `PIPESIZE` bytes with two free-running `uint`
counters, `nread` and `nwrite`; byte `k` of the stream lives at `data[k % PIPESIZE]`.
`pipewrite` and `piperead` hold `p->lock` except while they sleep, so each runs
as a sequence of atomic segments: from acquiring the lock (or waking in
`sleep`) to the next `sleep` or the return.

The system here is one writer and one reader on a pipe.  An event is one such
segment, a `kill` of either process, or `pipeclose` of either end.  A process
asleep in the pipe may resume at any moment: `wakeup` and `kill` are what resume
it in the kernel, and since both loops test their condition again on waking, a
resume that nothing caused is also covered.

Beside the pipe, the state keeps two ghost histories: every byte written into the
ring and every byte `piperead` returned, in order.

## Main definitions

* `Pipe`, `Pipe.put`, `Pipe.get` — `struct pipe` and the two ring operations.
* `writeLoop`, `readLoop` — the loops of `pipewrite` and `piperead` under the lock.
* `PipeSys`, `PipeSys.step` — the writer, the reader and the pipe.
* `count`, `contents` — `nwrite - nread` in `uint`, and the bytes in the ring.

## Main results

* `writeLoop_spec`, `readLoop_spec` — what one pass of each loop does to the ring.
* `PipeSys.Inv.step`, `PipeSys.Reachable.inv` — the invariant, from a new pipe on.
* `pipe_safety` — bounded counters, no byte lost or duplicated, and what each call
  returns, in every reachable state.
-/

namespace Xv6

namespace PipeRing

/-! ### The ring -/

/-- `PIPESIZE`. -/
def pipesize : ℕ := 512

/-- The slot of `data` that counter value `k` indexes: `k % PIPESIZE`. -/
def slot (k : ℕ) : Fin pipesize := ⟨k % pipesize, Nat.mod_lt _ (by decide)⟩

/-- `struct pipe`, without its lock. -/
structure Pipe (α : Type) where
  data : Fin pipesize → α
  nread : ℕ
  nwrite : ℕ
  readopen : Bool
  writeopen : Bool

namespace Pipe

variable {α : Type}

/-- `p->data[p->nwrite++ % PIPESIZE] = x`. -/
def put (p : Pipe α) (x : α) : Pipe α :=
  { p with data := Function.update p.data (slot p.nwrite) x, nwrite := wrap32 (p.nwrite + 1) }

/-- `p->data[p->nread++ % PIPESIZE]`: the byte, and the pipe after. -/
def get (p : Pipe α) : α × Pipe α := (p.data (slot p.nread), { p with nread := wrap32 (p.nread + 1) })

/-- `p->nwrite - p->nread` in `uint`: the bytes in the ring. -/
def count (p : Pipe α) : ℕ := wrap32 (p.nwrite + 2 ^ 32 - p.nread)

/-- The bytes in the ring, oldest first. -/
def contents (p : Pipe α) : List α := (List.range (count p)).map fun k => p.data (slot (p.nread + k))

/-- How a segment of `pipewrite` ends: the call returns `n`, returns `-1`, or
sleeps. -/
inductive WEnd
  | done
  | fail
  | sleep
  deriving DecidableEq, Repr

/-- The loop of `pipewrite` over the bytes `rest` still to write, holding the
lock: the bytes it wrote, the pipe, and how it ends.  A full ring
(`p->nwrite == p->nread + PIPESIZE`) ends the segment: `-1` when the read end is
closed or the writer killed, a sleep otherwise. -/
def writeLoop (killed : Bool) : Pipe α → List α → List α × Pipe α × WEnd
  | p, [] => ([], p, .done)
  | p, x :: rest =>
    if p.nwrite = wrap32 (p.nread + pipesize) then
      ([], p, if !p.readopen || killed then .fail else .sleep)
    else
      let r := writeLoop killed (p.put x) rest
      (x :: r.1, r.2)

/-- The copy loop of `piperead`: up to `n` bytes, fewer when the ring empties. -/
def readLoop : ℕ → Pipe α → List α × Pipe α
  | 0, p => ([], p)
  | n + 1, p =>
    if p.nread = p.nwrite then ([], p)
    else
      let r := readLoop n p.get.2
      (p.get.1 :: r.1, r.2)

/-! ### The ring's arithmetic

Both counters run modulo `2 ^ 32`, and `PIPESIZE` divides `2 ^ 32`, so the slot
of a counter value and the count of bytes between the counters survive the wrap. -/

/-- A pipe whose counters are `uint`s at most `PIPESIZE` apart. -/
structure Wf (p : Pipe α) : Prop where
  nread_lt : p.nread < 2 ^ 32
  nwrite_lt : p.nwrite < 2 ^ 32
  count_le : count p ≤ pipesize

@[simp] theorem put_nread (p : Pipe α) (x : α) : (p.put x).nread = p.nread := rfl
@[simp] theorem put_readopen (p : Pipe α) (x : α) : (p.put x).readopen = p.readopen := rfl
@[simp] theorem put_writeopen (p : Pipe α) (x : α) : (p.put x).writeopen = p.writeopen := rfl
@[simp] theorem get_nwrite (p : Pipe α) : p.get.2.nwrite = p.nwrite := rfl
@[simp] theorem get_readopen (p : Pipe α) : p.get.2.readopen = p.readopen := rfl
@[simp] theorem get_writeopen (p : Pipe α) : p.get.2.writeopen = p.writeopen := rfl

/-- `p->nwrite == p->nread + PIPESIZE` tests for a full ring. -/
theorem full_iff {p : Pipe α} (hw : p.Wf) : p.nwrite = wrap32 (p.nread + pipesize) ↔ count p = pipesize := by
  have h₁ := hw.nread_lt
  have h₂ := hw.nwrite_lt
  have h₃ := hw.count_le
  unfold count wrap32 pipesize at *
  omega

/-- `p->nread == p->nwrite` tests for an empty ring. -/
theorem empty_iff {p : Pipe α} (hw : p.Wf) : p.nread = p.nwrite ↔ count p = 0 := by
  have h₁ := hw.nread_lt
  have h₂ := hw.nwrite_lt
  unfold count wrap32 at *
  omega

/-- Writing a byte into a ring that is not full. -/
theorem put_wf {p : Pipe α} (hw : p.Wf) (hlt : count p < pipesize) (x : α) :
    (p.put x).Wf ∧ count (p.put x) = count p + 1 := by
  have h₁ := hw.nread_lt
  have h₂ := hw.nwrite_lt
  have hc : count (p.put x) = count p + 1 := by
    unfold count put wrap32 pipesize at *
    simp only at *
    omega
  exact ⟨⟨h₁, wrap32_lt _, by omega⟩, hc⟩

/-- The byte written goes after the bytes in the ring: its slot is that of
counter `nread + count`, and the slots of the bytes in the ring differ from it. -/
theorem contents_put {p : Pipe α} (hw : p.Wf) (hlt : count p < pipesize) (x : α) :
    contents (p.put x) = contents p ++ [x] := by
  have h₁ := hw.nread_lt
  have h₂ := hw.nwrite_lt
  have hslot : ∀ k ≤ count p, (slot (p.nread + k) = slot p.nwrite ↔ k = count p) := by
    intro k hk
    simp only [slot, Fin.mk.injEq]
    unfold count wrap32 pipesize at *
    omega
  rw [contents, (put_wf hw hlt x).2, List.range_succ, List.map_append, contents]
  simp only [List.map_cons, List.map_nil, put, Function.update_apply,
    (hslot _ le_rfl).mpr rfl, if_true]
  congr 1
  refine List.map_congr_left fun k hk => ?_
  have hk' : k < count p := List.mem_range.mp hk
  rw [if_neg fun h => absurd ((hslot k hk'.le).mp h) hk'.ne]

/-- Reading a byte from a ring that is not empty. -/
theorem get_wf {p : Pipe α} (hw : p.Wf) (hpos : 0 < count p) :
    p.get.2.Wf ∧ count p.get.2 = count p - 1 := by
  have h₁ := hw.nread_lt
  have h₂ := hw.nwrite_lt
  have h₃ := hw.count_le
  have hc : count p.get.2 = count p - 1 := by
    unfold count get wrap32 at *
    simp only at *
    omega
  exact ⟨⟨wrap32_lt _, h₂, by omega⟩, hc⟩

/-- The byte read is the oldest in the ring. -/
theorem contents_get {p : Pipe α} (hw : p.Wf) (hpos : 0 < count p) :
    contents p = p.get.1 :: contents p.get.2 := by
  have h₁ := hw.nread_lt
  obtain ⟨c, hc⟩ : ∃ c, count p = c + 1 := ⟨count p - 1, by omega⟩
  have hc' : count p.get.2 = c := by rw [(get_wf hw hpos).2, hc]; rfl
  rw [contents, hc, List.range_succ_eq_map, contents, hc']
  simp only [List.map_cons, List.map_map, Nat.add_zero]
  refine congrArg₂ _ rfl (List.map_congr_left fun k _ => ?_)
  show p.data (slot (p.nread + (k + 1))) = p.data (slot (wrap32 (p.nread + 1) + k))
  congr 1
  simp only [slot, Fin.mk.injEq]
  unfold wrap32 pipesize
  omega

/-! ### The loops -/

/-- The writing loop writes a prefix of its bytes after the ring's contents, and
all of them when it ends with `.done`. -/
theorem writeLoop_spec (killed : Bool) :
    ∀ {p : Pipe α} (rest : List α), p.Wf →
      ∃ rest', rest = (writeLoop killed p rest).1 ++ rest' ∧ (writeLoop killed p rest).2.1.Wf ∧
        contents (writeLoop killed p rest).2.1 = contents p ++ (writeLoop killed p rest).1 ∧
        (writeLoop killed p rest).2.1.readopen = p.readopen ∧
        (writeLoop killed p rest).2.1.writeopen = p.writeopen ∧
        ((writeLoop killed p rest).2.2 = .done → rest' = [])
  | p, [], hw => ⟨[], rfl, hw, by simp [writeLoop], rfl, rfl, fun _ => rfl⟩
  | p, x :: rest, hw => by
    by_cases hfull : p.nwrite = wrap32 (p.nread + pipesize)
    · -- a full ring ends the segment before `x`
      refine ⟨x :: rest, by simp [writeLoop, hfull], by simpa [writeLoop, hfull] using hw,
        by simp [writeLoop, hfull], by simp [writeLoop, hfull], by simp [writeLoop, hfull], ?_⟩
      simp only [writeLoop, hfull, if_true]
      split <;> simp
    · have hlt : count p < pipesize := lt_of_le_of_ne hw.count_le (mt (full_iff hw).mpr hfull)
      obtain ⟨hw', -⟩ := put_wf hw hlt x
      obtain ⟨rest', hsplit, hwf, hcont, hro, hwo, hdone⟩ := writeLoop_spec killed rest hw'
      simp only [writeLoop, hfull, if_false]
      refine ⟨rest', by rw [List.cons_append, ← hsplit], hwf, ?_, by simpa using hro, by simpa using hwo, hdone⟩
      rw [hcont, contents_put hw hlt]
      simp

/-- The copying loop takes the oldest bytes of the ring, `n` of them or all. -/
theorem readLoop_spec (n : ℕ) {p : Pipe α} (hw : p.Wf) :
    contents p = (readLoop n p).1 ++ contents (readLoop n p).2 ∧ (readLoop n p).2.Wf ∧
      (readLoop n p).2.writeopen = p.writeopen ∧ (readLoop n p).2.readopen = p.readopen ∧
      ((readLoop n p).1 = [] → n = 0 ∨ count p = 0) := by
  induction n generalizing p with
  | zero => exact ⟨(List.nil_append _).symm, hw, rfl, rfl, fun _ => .inl rfl⟩
  | succ n ih =>
    by_cases hempty : p.nread = p.nwrite
    · rw [readLoop, if_pos hempty]
      exact ⟨(List.nil_append _).symm, hw, rfl, rfl, fun _ => .inr ((empty_iff hw).mp hempty)⟩
    · have hpos : 0 < count p := Nat.pos_of_ne_zero (mt (empty_iff hw).mpr hempty)
      obtain ⟨hw', -⟩ := get_wf hw hpos
      obtain ⟨hcont, hwf, hwo, hro, -⟩ := ih hw'
      rw [readLoop, if_neg hempty]
      refine ⟨?_, hwf, hwo, hro, fun h => absurd h (List.cons_ne_nil _ _)⟩
      rw [contents_get hw hpos, hcont, List.cons_append]

/-! ### One writer and one reader -/

/-- Where the writer stands: outside `pipewrite`, or asleep in `pipewrite(buf)`
with the first `i` bytes written; `base` is a ghost, the bytes the ring had been
given when the call began. -/
inductive WPc (α : Type)
  | idle
  | asleep (buf : List α) (i : ℕ) (base : List α)

/-- Where the reader stands: outside `piperead`, or asleep in `piperead(n)`. -/
inductive RPc
  | idle
  | asleep (n : ℕ)

/-- The pipe, its writer and reader, whether each was killed, and the ghost
histories `puts` (every byte written into the ring) and `gets` (every byte
`piperead` returned). -/
structure PipeSys (α : Type) where
  pipe : Pipe α
  wpc : WPc α
  rpc : RPc
  wkilled : Bool
  rkilled : Bool
  puts : List α
  gets : List α

/-- What a segment returns to user space: `pipewrite(buf)` returned `r`, or
`piperead(n)` returned `r`. -/
inductive Ret (α : Type)
  | wrote (buf : List α) (r : ℤ)
  | read (n : ℕ) (r : ℤ)

/-- The events: a call or a resumed sleep of either party, a `kill`, a `pipeclose`. -/
inductive PipeEv (α : Type)
  | write (buf : List α)
  | read (n : ℕ)
  | wakeWriter
  | wakeReader
  | killWriter
  | killReader
  | closeWrite
  | closeRead

namespace PipeSys

/-- A segment of `pipewrite(buf)` from byte `i`. -/
def writeSeg (s : PipeSys α) (buf : List α) (i : ℕ) (base : List α) : PipeSys α × Option (Ret α) :=
  let r := writeLoop s.wkilled s.pipe (buf.drop i)
  let s := { s with pipe := r.2.1, puts := s.puts ++ r.1 }
  match r.2.2 with
  | .done => ({ s with wpc := .idle }, some (.wrote buf buf.length))
  | .fail => ({ s with wpc := .idle }, some (.wrote buf (-1)))
  | .sleep => ({ s with wpc := .asleep buf (i + r.1.length) base }, none)

/-- A segment of `piperead(n)`: an empty ring with its write end open puts the
reader to sleep, or fails the call of a killed reader; otherwise the bytes are
copied and counted. -/
def readSeg (s : PipeSys α) (n : ℕ) : PipeSys α × Option (Ret α) :=
  if s.pipe.nread = s.pipe.nwrite ∧ s.pipe.writeopen then
    if s.rkilled then ({ s with rpc := .idle }, some (.read n (-1)))
    else ({ s with rpc := .asleep n }, none)
  else
    let r := readLoop n s.pipe
    ({ s with pipe := r.2, gets := s.gets ++ r.1, rpc := .idle }, some (.read n r.1.length))

/-- One event, `none` when it cannot happen: a call needs its party outside the
pipe, a resume needs it asleep. -/
def step (s : PipeSys α) : PipeEv α → Option (PipeSys α × Option (Ret α))
  | .write buf => match s.wpc with
    | .idle => some (s.writeSeg buf 0 s.puts)
    | .asleep .. => none
  | .wakeWriter => match s.wpc with
    | .asleep buf i base => some (s.writeSeg buf i base)
    | .idle => none
  | .read n => match s.rpc with
    | .idle => some (s.readSeg n)
    | .asleep _ => none
  | .wakeReader => match s.rpc with
    | .asleep n => some (s.readSeg n)
    | .idle => none
  | .killWriter => some ({ s with wkilled := true }, none)
  | .killReader => some ({ s with rkilled := true }, none)
  | .closeWrite => some ({ s with pipe := { s.pipe with writeopen := false } }, none)
  | .closeRead => some ({ s with pipe := { s.pipe with readopen := false } }, none)

/-- The pipe `pipealloc` made, whatever its page held, with neither party in it. -/
def init (d : Fin pipesize → α) : PipeSys α :=
  ⟨⟨d, 0, 0, true, true⟩, .idle, .idle, false, false, [], []⟩

/-- The bytes the ring had been given when the writer's current call began. -/
def writerBase (s : PipeSys α) : List α :=
  match s.wpc with
  | .idle => s.puts
  | .asleep _ _ base => base

/-- The states some interleaving of events reaches from a new pipe. -/
def Reachable (s : PipeSys α) : Prop :=
  Transition.Reachable (fun s e t => ∃ o, step s e = some (t, o)) (fun s => ∃ d, s = init d) s

end PipeSys

/-! ### The invariant -/

theorem contents_congr {p q : Pipe α} (hd : p.data = q.data) (hr : p.nread = q.nread) (hw : p.nwrite = q.nwrite) :
    contents p = contents q := by
  unfold contents count
  rw [hd, hr, hw]

@[simp] theorem contents_writeopen (p : Pipe α) (b : Bool) : contents { p with writeopen := b } = contents p :=
  contents_congr rfl rfl rfl

@[simp] theorem contents_readopen (p : Pipe α) (b : Bool) : contents { p with readopen := b } = contents p :=
  contents_congr rfl rfl rfl

/-- Equal counters: an empty ring. -/
theorem count_of_eq {p : Pipe α} (h : p.nread = p.nwrite) : count p = 0 := by
  unfold count wrap32
  rw [h]
  omega

theorem wf_congr {p q : Pipe α} (hp : p.Wf) (hr : p.nread = q.nread) (hw : p.nwrite = q.nwrite) : q.Wf := by
  have hc : count q = count p := by unfold count; rw [hr, hw]
  exact ⟨hr ▸ hp.nread_lt, hw ▸ hp.nwrite_lt, hc ▸ hp.count_le⟩

namespace PipeSys

/-- What holds whenever neither party is in a segment: the counters are
`PIPESIZE` apart at most, the bytes returned and those still in the ring are
the bytes written, and an asleep writer has written the first `i` bytes of its
call after the bytes of the calls before. -/
structure Inv (s : PipeSys α) : Prop where
  wf : s.pipe.Wf
  stream : s.gets ++ contents s.pipe = s.puts
  writer : ∀ buf i base, s.wpc = .asleep buf i base → i ≤ buf.length ∧ s.puts = base ++ buf.take i

theorem Inv.init (d : Fin pipesize → α) : (init d).Inv where
  wf := ⟨show 0 < 2 ^ 32 by norm_num, show 0 < 2 ^ 32 by norm_num, by rw [count_of_eq rfl]; norm_num⟩
  stream := by
    show [] ++ contents (PipeSys.init d).pipe = []
    rw [contents, count_of_eq rfl]
    rfl
  writer _ _ _ h := by cases h

/-- A segment of `pipewrite(buf)` from byte `i`, when the ring holds the bytes of
the calls before and the first `i` of this one. -/
theorem Inv.writeSeg {s : PipeSys α} (hs : s.Inv) {buf base : List α} {i : ℕ}
    (hi : i ≤ buf.length) (hput : s.puts = base ++ buf.take i) : (s.writeSeg buf i base).1.Inv := by
  obtain ⟨rest', hsplit, hwf, hcont, -, -, -⟩ := writeLoop_spec s.wkilled (buf.drop i) hs.wf
  unfold PipeSys.writeSeg
  generalize writeLoop s.wkilled s.pipe (buf.drop i) = r at hsplit hwf hcont ⊢
  obtain ⟨ws, p', e⟩ := r
  have hstream : s.gets ++ contents p' = s.puts ++ ws := by rw [hcont, ← List.append_assoc, hs.stream]
  -- the bytes written so far by the call are a prefix of `buf`
  have hlen : i + ws.length ≤ buf.length := by
    have := congrArg List.length hsplit
    simp only [List.length_drop, List.length_append] at this
    omega
  have htake : buf.take (i + ws.length) = buf.take i ++ ws := by
    rw [List.take_add, hsplit, List.take_left' rfl]
  cases e with
  | done => exact ⟨hwf, hstream, fun _ _ _ h => by cases h⟩
  | fail => exact ⟨hwf, hstream, fun _ _ _ h => by cases h⟩
  | sleep =>
    refine ⟨hwf, hstream, fun b j bs h => ?_⟩
    cases h
    refine ⟨hlen, ?_⟩
    show s.puts ++ ws = base ++ buf.take (i + ws.length)
    rw [htake, hput, List.append_assoc]

/-- A segment of `piperead(n)`. -/
theorem Inv.readSeg {s : PipeSys α} (hs : s.Inv) (n : ℕ) : (s.readSeg n).1.Inv := by
  unfold PipeSys.readSeg
  split_ifs with hsleep hkill
  · exact ⟨hs.wf, hs.stream, hs.writer⟩
  · exact ⟨hs.wf, hs.stream, hs.writer⟩
  · obtain ⟨hcont, hwf, -, -, -⟩ := readLoop_spec n hs.wf
    refine ⟨hwf, ?_, hs.writer⟩
    rw [List.append_assoc, ← hcont, hs.stream]

/-- Every event keeps the invariant. -/
theorem Inv.step {s t : PipeSys α} {e : PipeEv α} {o : Option (Ret α)} (hs : s.Inv)
    (h : s.step e = some (t, o)) : t.Inv := by
  cases e with
  | write buf =>
    cases hw : s.wpc with
    | idle =>
      simp only [PipeSys.step, hw, Option.some.injEq] at h
      rw [show t = _ from (congrArg Prod.fst h).symm]
      exact hs.writeSeg (Nat.zero_le _) (by simp)
    | asleep => simp [PipeSys.step, hw] at h
  | wakeWriter =>
    cases hw : s.wpc with
    | idle => simp [PipeSys.step, hw] at h
    | asleep buf i base =>
      simp only [PipeSys.step, hw, Option.some.injEq] at h
      rw [show t = _ from (congrArg Prod.fst h).symm]
      obtain ⟨hi, hput⟩ := hs.writer buf i base hw
      exact hs.writeSeg hi hput
  | read n =>
    cases hr : s.rpc with
    | idle =>
      simp only [PipeSys.step, hr, Option.some.injEq] at h
      rw [show t = _ from (congrArg Prod.fst h).symm]
      exact hs.readSeg n
    | asleep => simp [PipeSys.step, hr] at h
  | wakeReader =>
    cases hr : s.rpc with
    | idle => simp [PipeSys.step, hr] at h
    | asleep n =>
      simp only [PipeSys.step, hr, Option.some.injEq] at h
      rw [show t = _ from (congrArg Prod.fst h).symm]
      exact hs.readSeg n
  | killWriter =>
    simp only [PipeSys.step, Option.some.injEq] at h
    obtain ⟨rfl, -⟩ := Prod.mk.inj h
    exact ⟨hs.wf, hs.stream, hs.writer⟩
  | killReader =>
    simp only [PipeSys.step, Option.some.injEq] at h
    obtain ⟨rfl, -⟩ := Prod.mk.inj h
    exact ⟨hs.wf, hs.stream, hs.writer⟩
  | closeWrite =>
    simp only [PipeSys.step, Option.some.injEq] at h
    obtain ⟨rfl, -⟩ := Prod.mk.inj h
    refine ⟨wf_congr hs.wf rfl rfl, ?_, hs.writer⟩
    show s.gets ++ contents { s.pipe with writeopen := false } = s.puts
    rw [contents_writeopen, hs.stream]
  | closeRead =>
    simp only [PipeSys.step, Option.some.injEq] at h
    obtain ⟨rfl, -⟩ := Prod.mk.inj h
    refine ⟨wf_congr hs.wf rfl rfl, ?_, hs.writer⟩
    show s.gets ++ contents { s.pipe with readopen := false } = s.puts
    rw [contents_readopen, hs.stream]

theorem Reachable.inv {s : PipeSys α} (h : s.Reachable) : s.Inv :=
  Transition.Reachable.invariant (fun _ ⟨d, hd⟩ => hd ▸ Inv.init d)
    (fun _ _ _ hs ⟨_, hst⟩ => hs.step hst) h

end PipeSys

/-! ### What the calls return -/

namespace PipeSys

theorem writeSeg_not_read (s : PipeSys α) (buf base : List α) (i n : ℕ) (r : ℤ) :
    (s.writeSeg buf i base).2 ≠ some (.read n r) := by
  unfold PipeSys.writeSeg
  generalize writeLoop s.wkilled s.pipe (buf.drop i) = w
  obtain ⟨ws, p', e⟩ := w
  cases e <;> simp

theorem readSeg_not_wrote (s : PipeSys α) (n : ℕ) (b : List α) (r : ℤ) :
    (s.readSeg n).2 ≠ some (.wrote b r) := by
  unfold PipeSys.readSeg
  split_ifs <;> simp

/-- A read is returned only by a segment of `piperead`. -/
theorem step_read_of {s t : PipeSys α} {e : PipeEv α} {n : ℕ} {r : ℤ}
    (h : s.step e = some (t, some (.read n r))) : ∃ m, s.readSeg m = (t, some (.read n r)) := by
  cases e with
  | read m =>
    cases hr : s.rpc with
    | idle => exact ⟨m, by simpa [PipeSys.step, hr] using h⟩
    | asleep => simp [PipeSys.step, hr] at h
  | wakeReader =>
    cases hr : s.rpc with
    | idle => simp [PipeSys.step, hr] at h
    | asleep m => exact ⟨m, by simpa [PipeSys.step, hr] using h⟩
  | write buf =>
    cases hw : s.wpc with
    | idle =>
      simp only [PipeSys.step, hw, Option.some.injEq] at h
      exact (writeSeg_not_read _ _ _ _ _ _ (congrArg Prod.snd h)).elim
    | asleep => simp [PipeSys.step, hw] at h
  | wakeWriter =>
    cases hw : s.wpc with
    | idle => simp [PipeSys.step, hw] at h
    | asleep buf i base =>
      simp only [PipeSys.step, hw, Option.some.injEq] at h
      exact (writeSeg_not_read _ _ _ _ _ _ (congrArg Prod.snd h)).elim
  | killWriter | killReader | closeWrite | closeRead => simp [PipeSys.step] at h

/-- A write is returned only by a segment of `pipewrite`, resumed where the
writer stands. -/
theorem step_wrote_of {s t : PipeSys α} (hs : s.Inv) {e : PipeEv α} {b : List α} {r : ℤ}
    (h : s.step e = some (t, some (.wrote b r))) :
    ∃ buf i, s.puts = s.writerBase ++ buf.take i ∧ s.writeSeg buf i s.writerBase = (t, some (.wrote b r)) := by
  cases e with
  | write buf =>
    cases hw : s.wpc with
    | idle =>
      refine ⟨buf, 0, by simp [writerBase, hw], ?_⟩
      simpa [PipeSys.step, writerBase, hw] using h
    | asleep => simp [PipeSys.step, hw] at h
  | wakeWriter =>
    cases hw : s.wpc with
    | idle => simp [PipeSys.step, hw] at h
    | asleep buf i base =>
      refine ⟨buf, i, by simpa [writerBase, hw] using (hs.writer buf i base hw).2, ?_⟩
      simpa [PipeSys.step, writerBase, hw] using h
  | read m =>
    cases hr : s.rpc with
    | idle =>
      simp only [PipeSys.step, hr, Option.some.injEq] at h
      exact (readSeg_not_wrote _ _ _ _ (congrArg Prod.snd h)).elim
    | asleep => simp [PipeSys.step, hr] at h
  | wakeReader =>
    cases hr : s.rpc with
    | idle => simp [PipeSys.step, hr] at h
    | asleep m =>
      simp only [PipeSys.step, hr, Option.some.injEq] at h
      exact (readSeg_not_wrote _ _ _ _ (congrArg Prod.snd h)).elim
  | killWriter | killReader | closeWrite | closeRead => simp [PipeSys.step] at h

/-- `piperead(n)` with `n > 0` returns `0` only from an empty ring whose write
end is closed. -/
theorem readSeg_zero {s t : PipeSys α} (hw : s.pipe.Wf) {m n : ℕ}
    (h : s.readSeg m = (t, some (.read n 0))) (hn : 0 < n) :
    s.pipe.nread = s.pipe.nwrite ∧ s.pipe.writeopen = false := by
  unfold PipeSys.readSeg at h
  split_ifs at h with hsleep hkill
  · simp at h
  · simp at h
  · obtain ⟨-, hret⟩ := Prod.mk.inj h
    obtain ⟨rfl, hlen⟩ : m = n ∧ (readLoop m s.pipe).1.length = 0 := by simpa using hret
    obtain ⟨-, -, -, -, hnil⟩ := readLoop_spec m hw
    -- no byte was copied although one was asked for: the ring was empty
    have hempty : s.pipe.nread = s.pipe.nwrite :=
      (empty_iff hw).mpr ((hnil (List.eq_nil_of_length_eq_zero hlen)).resolve_left hn.ne')
    exact ⟨hempty, by simpa [hempty] using hsleep⟩

/-- A segment of `pipewrite(buf)` that returns `r ≥ 0` has written the rest of
`buf`. -/
theorem writeSeg_ret {s t : PipeSys α} (hs : s.Inv) {buf base b : List α} {i : ℕ} {r : ℤ}
    (hput : s.puts = base ++ buf.take i) (h : s.writeSeg buf i base = (t, some (.wrote b r)))
    (hr : 0 ≤ r) : b = buf ∧ r = buf.length ∧ t.puts = base ++ buf := by
  obtain ⟨rest', hsplit, -, -, -, -, hdone⟩ := writeLoop_spec s.wkilled (buf.drop i) hs.wf
  unfold PipeSys.writeSeg at h
  generalize writeLoop s.wkilled s.pipe (buf.drop i) = w at hsplit hdone h
  obtain ⟨ws, p', e⟩ := w
  cases e with
  | done =>
    obtain ⟨rfl, hret⟩ := Prod.mk.inj h
    obtain ⟨rfl, rfl⟩ : buf = b ∧ (buf.length : ℤ) = r := by simpa using hret
    have hws : buf.drop i = ws := by simpa [hdone rfl] using hsplit
    refine ⟨rfl, rfl, ?_⟩
    show s.puts ++ ws = base ++ buf
    rw [hput, ← hws, List.append_assoc, List.take_append_drop]
  | fail =>
    obtain ⟨-, hret⟩ := Prod.mk.inj h
    obtain ⟨-, hr'⟩ : buf = b ∧ (-1 : ℤ) = r := by simpa using hret
    omega
  | sleep => simp at h

end PipeSys

/-- **A pipe under every interleaving of one writer and one reader**, with kills,
closes and the counters wrapping past `2 ^ 32`, in every reachable state:

1. `nwrite - nread`, in `uint`, is at most `PIPESIZE`;
2. the bytes `piperead` returned, followed by the bytes in the ring, are the
   bytes written, in order: none lost or duplicated;
3. `piperead(n)` with `n > 0` returns `0` only when the ring is empty and the
   write end closed;
4. `pipewrite(buf)` returning `r ≥ 0` returns `buf.length`, having written all of
   `buf` after what the ring had been given when the call began. -/
theorem pipe_safety {s : PipeSys α} (hs : s.Reachable) :
    count s.pipe ≤ pipesize ∧ s.gets ++ contents s.pipe = s.puts ∧
      (∀ e t n, s.step e = some (t, some (.read n 0)) → 0 < n →
        s.pipe.nread = s.pipe.nwrite ∧ s.pipe.writeopen = false) ∧
      (∀ e t buf r, s.step e = some (t, some (.wrote buf r)) → 0 ≤ r →
        r = buf.length ∧ t.puts = s.writerBase ++ buf) := by
  have hi := PipeSys.Reachable.inv hs
  refine ⟨hi.wf.count_le, hi.stream, fun e t n h hn => ?_, fun e t buf r h hr => ?_⟩
  · obtain ⟨m, hm⟩ := PipeSys.step_read_of h
    exact PipeSys.readSeg_zero hi.wf hm hn
  · obtain ⟨buf', i, hput, hw⟩ := PipeSys.step_wrote_of hi h
    obtain ⟨rfl, hret, hputs⟩ := PipeSys.writeSeg_ret hi hput hw hr
    exact ⟨hret, hputs⟩

/-- A writer puts `ab` into a new pipe and the reader's `piperead(5)` takes both;
after the write end is closed, `piperead(3)` returns `0` on the empty ring. -/
theorem pipe_safety_roundtrip :
    ∃ s₁ s₂ s₃ s₄,
      (PipeSys.init fun _ : Fin pipesize => 'x').step (.write ['a', 'b']) = some (s₁, some (.wrote ['a', 'b'] 2)) ∧
      s₁.step (.read 5) = some (s₂, some (.read 5 2)) ∧ s₂.gets = ['a', 'b'] ∧
      s₂.step .closeWrite = some (s₃, none) ∧ s₃.step (.read 3) = some (s₄, some (.read 3 0)) ∧
      s₁.puts = (PipeSys.init fun _ : Fin pipesize => 'x').writerBase ++ ['a', 'b'] ∧
      s₃.pipe.nread = s₃.pipe.nwrite ∧ s₃.pipe.writeopen = false := by
  have hs₀ : (PipeSys.init fun _ : Fin pipesize => 'x').Reachable := ⟨_, [], ⟨_, rfl⟩, .nil _⟩
  refine ⟨_, _, _, _, rfl, rfl, rfl, rfl, rfl, ?_, ?_⟩
  · -- the wrote conjunct, at the first call
    exact ((pipe_safety hs₀).2.2.2 (.write ['a', 'b']) _ ['a', 'b'] 2 rfl (by decide)).2
  · -- the read-0 conjunct, three events later
    have hs₃ : PipeSys.Reachable _ :=
      ((hs₀.tail (e := .write ['a', 'b']) ⟨_, rfl⟩).tail (e := .read 5) ⟨_, rfl⟩).tail (e := .closeWrite) ⟨_, rfl⟩
    exact (pipe_safety hs₃).2.2.1 (.read 3) _ 3 rfl (by decide)

end Pipe

end PipeRing

end Xv6
