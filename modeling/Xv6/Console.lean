import Xv6.Param
import Xv6.Lib.RingBuf
import Xv6.Lib.Run

/-!
# Console input

`console.c`: the keyboard and serial interrupts hand `consoleintr` the characters
typed; it edits the current line in the ring `input` of `INPUT_BUF` bytes and
commits it, by moving `input.w` up to `input.e`, at a newline, at a `^D`, or when
the ring is full.  `consoleread` copies committed bytes out from `input.r`.  The
three indices are free-running `uint`s: byte `k` lives at `buf[k % INPUT_BUF]`.

What the ring is for is stated over lists in `Tty`: the committed bytes not yet
read, and the line being edited.  `Input.tty` reads a ring as a `Tty`, and the ring
refines the line discipline (`tty_consoleintr`, `readLoop_tty`).

The system is the console with one reading process.  `consoleintr` runs whole under
`cons.lock`; `consoleread` runs as segments, from acquiring the lock or waking in
`sleep` to the next `sleep` or the return.  The reader is never killed.

## Main definitions

* `Input`, `intrChar`, `consoleintr`, `readLoop` — the ring and the two functions.
* `Tty`, `Tty.key`, `Tty.keys`, `Tty.read` — the line discipline over lists.
* `Input.tty`, `Input.Wf` — the abstraction and the ring's invariant.
* `Cons`, `Cons.step` — the console and its reader.

## Main results

* `intrChar_tty`, `tty_consoleintr`, `readLoop_tty` — the ring refines the line
  discipline.
* `Tty.read_stream`, `Tty.read_take`, `Tty.read_stop` — what the reading loop takes.
* `Cons.Inv.step`, `Cons.Reachable.inv` — the invariant, from boot on.
* `console_input` — bounded indices, no committed byte lost, edited or duplicated,
  and what each call returns, in every reachable state.
-/

namespace Xv6

namespace Console

/-- `INPUT_BUF`. -/
def inputBuf : ℕ := 128

instance : NeZero inputBuf := ⟨by decide⟩

/-- `C(x)`: control-`x`. -/
def C (x : Char) : UInt8 := x.toUInt8 - '@'.toUInt8

/-- The `input` ring, without `cons.lock`. -/
@[ext]
structure Input where
  buf : Fin inputBuf → UInt8
  r : ℕ
  w : ℕ
  e : ℕ

namespace Input

/-- `input.buf[input.e++ % INPUT_BUF] = c`. -/
def put (s : Input) (c : UInt8) : Input :=
  { s with buf := Function.update s.buf (RingBuf.slot inputBuf s.e) c, e := wrap32 (s.e + 1) }

/-- `input.e--`. -/
def erase (s : Input) : Input := { s with e := wrap32 (s.e + 2 ^ 32 - 1) }

/-- `input.w = input.e`: the line is committed. -/
def commit (s : Input) : Input := { s with w := s.e }

/-- `c = input.buf[input.r++ % INPUT_BUF]`: the byte, and the ring after. -/
def get (s : Input) : UInt8 × Input := (s.buf (RingBuf.slot inputBuf s.r), { s with r := wrap32 (s.r + 1) })

/-- `input.r--`. -/
def unget (s : Input) : Input := { s with r := wrap32 (s.r + 2 ^ 32 - 1) }

/- The fields after each update.  They are proved on a constructor: comparing an
updated ring with the ring itself would make Lean evaluate `wrap32` on a variable. -/

@[simp] theorem put_buf (s : Input) (c : UInt8) :
    (s.put c).buf = Function.update s.buf (RingBuf.slot inputBuf s.e) c := by cases s; rfl
@[simp] theorem put_r (s : Input) (c : UInt8) : (s.put c).r = s.r := by cases s; rfl
@[simp] theorem put_w (s : Input) (c : UInt8) : (s.put c).w = s.w := by cases s; rfl
@[simp] theorem put_e (s : Input) (c : UInt8) : (s.put c).e = wrap32 (s.e + 1) := by cases s; rfl
@[simp] theorem erase_buf (s : Input) : s.erase.buf = s.buf := by cases s; rfl
@[simp] theorem erase_r (s : Input) : s.erase.r = s.r := by cases s; rfl
@[simp] theorem erase_w (s : Input) : s.erase.w = s.w := by cases s; rfl
@[simp] theorem erase_e (s : Input) : s.erase.e = wrap32 (s.e + 2 ^ 32 - 1) := by cases s; rfl
@[simp] theorem commit_buf (s : Input) : s.commit.buf = s.buf := by cases s; rfl
@[simp] theorem commit_r (s : Input) : s.commit.r = s.r := by cases s; rfl
@[simp] theorem commit_w (s : Input) : s.commit.w = s.e := by cases s; rfl
@[simp] theorem commit_e (s : Input) : s.commit.e = s.e := by cases s; rfl
@[simp] theorem get_byte (s : Input) : s.get.1 = s.buf (RingBuf.slot inputBuf s.r) := by cases s; rfl
@[simp] theorem get_buf (s : Input) : s.get.2.buf = s.buf := by cases s; rfl
@[simp] theorem get_r (s : Input) : s.get.2.r = wrap32 (s.r + 1) := by cases s; rfl
@[simp] theorem get_w (s : Input) : s.get.2.w = s.w := by cases s; rfl
@[simp] theorem get_e (s : Input) : s.get.2.e = s.e := by cases s; rfl
@[simp] theorem unget_buf (s : Input) : s.unget.buf = s.buf := by cases s; rfl
@[simp] theorem unget_r (s : Input) : s.unget.r = wrap32 (s.r + 2 ^ 32 - 1) := by cases s; rfl
@[simp] theorem unget_w (s : Input) : s.unget.w = s.w := by cases s; rfl
@[simp] theorem unget_e (s : Input) : s.unget.e = s.e := by cases s; rfl

/-- `input.r--` undoes `input.r++`. -/
theorem unget_get {s : Input} (hr : s.r < 2 ^ 32) : s.get.2.unget = s := by
  refine Input.ext (by rw [unget_buf, get_buf]) ?_ (by rw [unget_w, get_w]) (by rw [unget_e, get_e])
  rw [unget_r, get_r]
  unfold wrap32
  omega

end Input

/-- The kill-line loop of `consoleintr`,
`while(input.e != input.w && input.buf[(input.e-1) % INPUT_BUF] != '\n') input.e--;`,
with fuel. -/
def killLine : ℕ → Input → Input
  | 0, s => s
  | k + 1, s =>
    if s.e ≠ s.w ∧ s.buf (RingBuf.slot inputBuf (wrap32 (s.e + 2 ^ 32 - 1))) ≠ '\n'.toUInt8 then
      killLine k s.erase
    else s

/-- One character of `consoleintr`'s loop.  `C('P')` only asks for a `procdump`,
made after the lock is released. -/
def intrChar (s : Input) (c : UInt8) : Input :=
  if c = C 'P' then s
  else if c = C 'U' then
    -- `e` walks down to `w` in fewer than `2 ^ 32` steps
    killLine (2 ^ 32) s
  else if c = C 'H' ∨ c = 0x7f then
    if s.e ≠ s.w then s.erase else s
  else if c ≠ 0 ∧ wrap32 (s.e + 2 ^ 32 - s.r) < inputBuf then
    let c := if c = '\r'.toUInt8 then '\n'.toUInt8 else c
    let s := s.put c
    if c = '\n'.toUInt8 ∨ c = C 'D' ∨ s.e = wrap32 (s.r + inputBuf) then s.commit else s
  else s

/-- `consoleintr`: the characters `getc` returns before `-1`, under one hold of
`cons.lock`. -/
def consoleintr (s : Input) (cs : List UInt8) : Input := cs.foldl intrChar s

/-- Where a segment of `consoleread`'s loop stops: what it read from, the bytes
still wanted, the bytes copied to `dst` so far, and whether it went to sleep. -/
structure RStop (β : Type) where
  st : β
  n : ℕ
  dst : List UInt8
  sleep : Bool

/-- The loop of `consoleread(n)` under the lock, `target` being the `n` of the call:
it sleeps on an empty ring, stops at a `^D`, which it consumes only as the first
byte of the call, and stops after a newline. -/
def readLoop (target : ℕ) : ℕ → Input → List UInt8 → RStop Input
  | 0, s, dst => ⟨s, 0, dst, false⟩
  | n + 1, s, dst =>
    if s.r = s.w then ⟨s, n + 1, dst, true⟩
    else if s.get.1 = C 'D' then
      -- a `^D` after some bytes is put back for the next call
      ⟨if n + 1 < target then s.get.2.unget else s.get.2, n + 1, dst, false⟩
    else if s.get.1 = '\n'.toUInt8 then ⟨s.get.2, n, dst ++ [s.get.1], false⟩
    else readLoop target n s.get.2 (dst ++ [s.get.1])

/-- A stop read through a function of what was read. -/
def RStop.map {β γ : Type} (f : β → γ) (o : RStop β) : RStop γ := ⟨f o.st, o.n, o.dst, o.sleep⟩

@[simp] theorem RStop.map_mk {β γ : Type} (f : β → γ) (st : β) (n : ℕ) (dst : List UInt8) (b : Bool) :
    RStop.map f ⟨st, n, dst, b⟩ = ⟨f st, n, dst, b⟩ := rfl

/-! ### The line discipline -/

/-- The console's input as the line discipline sees it: the committed bytes not yet
read, oldest first, and the line being edited. -/
structure Tty where
  unread : List UInt8
  line : List UInt8

namespace Tty

/-- One character typed: the line discipline after it, and the bytes it commits.  A
`^U` drops the line, a backspace its last byte; another byte other than `0` goes on
the line, `'\r'` as `'\n'`, if the ring has room, and a newline, a `^D` or a full
ring commits the line. -/
def key (t : Tty) (c : UInt8) : Tty × List UInt8 :=
  if c = C 'P' then (t, [])
  else if c = C 'U' then (⟨t.unread, []⟩, [])
  else if c = C 'H' ∨ c = 0x7f then (⟨t.unread, t.line.dropLast⟩, [])
  else if c ≠ 0 ∧ t.unread.length + t.line.length < inputBuf then
    let c := if c = '\r'.toUInt8 then '\n'.toUInt8 else c
    if c = '\n'.toUInt8 ∨ c = C 'D' ∨ t.unread.length + t.line.length + 1 = inputBuf then
      (⟨t.unread ++ (t.line ++ [c]), []⟩, t.line ++ [c])
    else (⟨t.unread, t.line ++ [c]⟩, [])
  else (t, [])

/-- Characters typed in order: the line discipline after them, and the bytes they
commit. -/
def keys (t : Tty) : List UInt8 → Tty × List UInt8
  | [] => (t, [])
  | c :: cs =>
    let r := (t.key c).1.keys cs
    (r.1, (t.key c).2 ++ r.2)

/-- A segment of `consoleread`'s loop over the unread bytes. -/
def read (target : ℕ) : ℕ → List UInt8 → List UInt8 → RStop (List UInt8)
  | 0, u, dst => ⟨u, 0, dst, false⟩
  | n + 1, [], dst => ⟨[], n + 1, dst, true⟩
  | n + 1, c :: u, dst =>
    if c = C 'D' then ⟨if n + 1 < target then c :: u else u, n + 1, dst, false⟩
    else if c = '\n'.toUInt8 then ⟨u, n, dst ++ [c], false⟩
    else read target n u (dst ++ [c])

/-- A key only ever appends to the unread bytes, and what it appends is what it
commits: editing never reaches committed input. -/
theorem key_unread (t : Tty) (c : UInt8) : (t.key c).1.unread = t.unread ++ (t.key c).2 := by
  unfold key
  dsimp only
  split_ifs <;> simp

theorem keys_unread (t : Tty) (cs : List UInt8) : (t.keys cs).1.unread = t.unread ++ (t.keys cs).2 := by
  induction cs generalizing t with
  | nil => simp [keys]
  | cons c cs ih => simp only [keys, ih, key_unread, List.append_assoc]

end Tty

/-- `^D`s are not data. -/
def strip (l : List UInt8) : List UInt8 := l.filter fun c => c != C 'D'

@[simp] theorem strip_nil : strip [] = [] := rfl

@[simp] theorem strip_append (l l' : List UInt8) : strip (l ++ l') = strip l ++ strip l' :=
  List.filter_append _ _

@[simp] theorem strip_eof (l : List UInt8) : strip (C 'D' :: l) = strip l := by
  simp [strip]

theorem strip_cons {c : UInt8} (hc : c ≠ C 'D') (l : List UInt8) : strip (c :: l) = c :: strip l := by
  simp [strip, hc]

/-! #### The reading loop

Each property of `Tty.read` below is proved by induction along its loop
(`read_induct`), stepping with the equations of one round. -/

namespace Tty

variable {target : ℕ}

theorem nl_ne_eof : '\n'.toUInt8 ≠ C 'D' := by decide

/-- One round of the loop with bytes wanted and a byte unread. -/
theorem read_succ_cons (n : ℕ) (c : UInt8) (u dst : List UInt8) :
    read target (n + 1) (c :: u) dst =
      if c = C 'D' then ⟨if n + 1 < target then c :: u else u, n + 1, dst, false⟩
      else if c = '\n'.toUInt8 then ⟨u, n, dst ++ [c], false⟩
      else read target n u (dst ++ [c]) := rfl

theorem read_eof_cons (n : ℕ) (u dst : List UInt8) :
    read target (n + 1) (C 'D' :: u) dst =
      ⟨if n + 1 < target then C 'D' :: u else u, n + 1, dst, false⟩ := by
  rw [read_succ_cons, if_pos rfl]

theorem read_nl_cons (n : ℕ) (u dst : List UInt8) :
    read target (n + 1) ('\n'.toUInt8 :: u) dst = ⟨u, n, dst ++ ['\n'.toUInt8], false⟩ := by
  rw [read_succ_cons, if_neg nl_ne_eof, if_pos rfl]

theorem read_copy {n : ℕ} {c : UInt8} (hc : c ≠ C 'D') (hn : c ≠ '\n'.toUInt8) (u dst : List UInt8) :
    read target (n + 1) (c :: u) dst = read target n u (dst ++ [c]) := by
  rw [read_succ_cons, if_neg hc, if_neg hn]

/-- Induction along the reading loop, one case for each way a round goes: no byte
wanted, no byte unread, a `^D`, a newline, or a byte copied. -/
theorem read_induct {motive : ℕ → List UInt8 → List UInt8 → Prop}
    (zero : ∀ u dst, motive 0 u dst)
    (empty : ∀ n dst, motive (n + 1) [] dst)
    (eof : ∀ n u dst, motive (n + 1) (C 'D' :: u) dst)
    (nl : ∀ n u dst, motive (n + 1) ('\n'.toUInt8 :: u) dst)
    (copy : ∀ n c u dst, c ≠ C 'D' → c ≠ '\n'.toUInt8 → motive n u (dst ++ [c]) →
      motive (n + 1) (c :: u) dst)
    (n : ℕ) (u dst : List UInt8) : motive n u dst := by
  induction n generalizing u dst with
  | zero => exact zero u dst
  | succ n ih =>
    rcases u with _ | ⟨c, u⟩
    · exact empty n dst
    by_cases hc : c = C 'D'
    · subst hc
      exact eof n u dst
    by_cases hn : c = '\n'.toUInt8
    · subst hn
      exact nl n u dst
    exact copy n c u dst hc hn (ih u (dst ++ [c]))

/-- The bytes copied, then the bytes left, are the bytes given, but for a `^D`. -/
theorem read_stream (n : ℕ) (u dst : List UInt8) :
    dst ++ strip u = (read target n u dst).dst ++ strip (read target n u dst).st := by
  induction n, u, dst using read_induct with
  | zero | empty => rfl
  | eof n u dst =>
    rw [read_eof_cons]
    split_ifs <;> simp
  | nl n u dst => simp [read_nl_cons, strip_cons nl_ne_eof]
  | copy n c u dst hc hn ih =>
    rw [read_copy hc hn, ← ih, strip_cons hc, List.append_assoc, List.singleton_append]

/-- Each byte copied is one fewer wanted. -/
theorem read_count (n : ℕ) (u dst : List UInt8) :
    (read target n u dst).dst.length + (read target n u dst).n = dst.length + n := by
  induction n, u, dst using read_induct with
  | zero | empty => rfl
  | eof n u dst => rw [read_eof_cons]
  | nl n u dst =>
    rw [read_nl_cons]
    show (dst ++ ['\n'.toUInt8]).length + n = dst.length + (n + 1)
    simp only [List.length_append, List.length_singleton]
    omega
  | copy n c u dst hc hn ih =>
    rw [read_copy hc hn, ih]
    simp only [List.length_append, List.length_singleton]
    omega

/-- A `^D` is never copied. -/
theorem read_eof {n : ℕ} {u dst : List UInt8} (h : C 'D' ∉ dst) : C 'D' ∉ (read target n u dst).dst := by
  induction n, u, dst using read_induct with
  | zero | empty => exact h
  | eof n u dst =>
    rw [read_eof_cons]
    exact h
  | nl n u dst => simpa [read_nl_cons, Ne.symm nl_ne_eof] using h
  | copy n c u dst hc hn ih =>
    rw [read_copy hc hn]
    exact ih (by simpa [Ne.symm hc] using h)

/-- A newline is copied only last, and never before a sleep. -/
theorem read_nl {n : ℕ} {u dst : List UInt8} (h : '\n'.toUInt8 ∉ dst) :
    '\n'.toUInt8 ∉ (read target n u dst).dst.dropLast ∧
      ((read target n u dst).sleep = true → '\n'.toUInt8 ∉ (read target n u dst).dst) := by
  induction n, u, dst using read_induct with
  | zero => exact ⟨fun hm => h (List.mem_of_mem_dropLast hm), fun h' => absurd h' Bool.false_ne_true⟩
  | empty => exact ⟨fun hm => h (List.mem_of_mem_dropLast hm), fun _ => h⟩
  | eof n u dst =>
    rw [read_eof_cons]
    exact ⟨fun hm => h (List.mem_of_mem_dropLast hm), fun h' => absurd h' Bool.false_ne_true⟩
  | nl n u dst =>
    rw [read_nl_cons]
    refine ⟨?_, fun h' => absurd h' Bool.false_ne_true⟩
    show '\n'.toUInt8 ∉ (dst ++ ['\n'.toUInt8]).dropLast
    rwa [List.dropLast_concat]
  | copy n c u dst hc hn ih =>
    rw [read_copy hc hn]
    exact ih (by simpa [Ne.symm hn] using h)

/-- The loop sleeps only on no unread bytes, with bytes still wanted. -/
theorem read_sleep {n : ℕ} {u dst : List UInt8} (h : (read target n u dst).sleep = true) :
    (read target n u dst).st = [] ∧ 0 < (read target n u dst).n := by
  induction n, u, dst using read_induct with
  | zero => exact absurd h Bool.false_ne_true
  | empty n dst => exact ⟨rfl, Nat.succ_pos n⟩
  | eof n u dst =>
    rw [read_eof_cons] at h
    exact absurd h Bool.false_ne_true
  | nl n u dst =>
    rw [read_nl_cons] at h
    exact absurd h Bool.false_ne_true
  | copy n c u dst hc hn ih =>
    rw [read_copy hc hn] at h ⊢
    exact ih h

section Call

/- In a call of `consoleread(target)`, the bytes copied and the bytes still wanted
make up `target`. -/

end Call

end Tty

/-! ### The ring as a line discipline -/

/-- The committed bytes not yet read: `buf[r]` up to `buf[w-1]`. -/
def unread (s : Input) : List UInt8 := RingBuf.window s.buf s.r (RingBuf.dist (2 ^ 32) s.r s.w)

/-- The line being edited: `buf[w]` up to `buf[e-1]`. -/
def line (s : Input) : List UInt8 := RingBuf.window s.buf s.w (RingBuf.dist (2 ^ 32) s.w s.e)

/-- The ring read as a line discipline. -/
def Input.tty (s : Input) : Tty := ⟨unread s, line s⟩

@[simp] theorem Input.tty_unread (s : Input) : s.tty.unread = unread s := rfl

@[simp] theorem Input.tty_line (s : Input) : s.tty.line = line s := rfl

/-- `uint` indices with `w - r ≤ e - r`: `w` lies between `r` and `e`. -/
structure Input.Ordered (s : Input) : Prop where
  r_lt : s.r < 2 ^ 32
  w_lt : s.w < 2 ^ 32
  e_lt : s.e < 2 ^ 32
  w_le : RingBuf.dist (2 ^ 32) s.r s.w ≤ RingBuf.dist (2 ^ 32) s.r s.e

/-- The invariant of the ring whenever `cons.lock` is free: `uint` indices with
`w - r ≤ e - r ≤ INPUT_BUF`, and no newline in the line being edited. -/
structure Input.Wf (s : Input) : Prop extends s.Ordered where
  e_le : RingBuf.dist (2 ^ 32) s.r s.e ≤ inputBuf
  line_nl : '\n'.toUInt8 ∉ line s

theorem inputBuf_dvd : inputBuf ∣ 2 ^ 32 := ⟨2 ^ 25, by norm_num [inputBuf]⟩

/-- `b - a` in `uint`. -/
theorem wrap32_sub (a b : ℕ) : wrap32 (b + 2 ^ 32 - a) = RingBuf.dist (2 ^ 32) a b := rfl

variable {s : Input}

@[simp] theorem length_unread (s : Input) : (unread s).length = RingBuf.dist (2 ^ 32) s.r s.w :=
  RingBuf.length_window _ _ _

@[simp] theorem length_line (s : Input) : (line s).length = RingBuf.dist (2 ^ 32) s.w s.e :=
  RingBuf.length_window _ _ _

theorem dist_w_e (hs : s.Ordered) :
    RingBuf.dist (2 ^ 32) s.w s.e = RingBuf.dist (2 ^ 32) s.r s.e - RingBuf.dist (2 ^ 32) s.r s.w :=
  RingBuf.dist_sub hs.r_lt hs.w_lt hs.e_lt hs.w_le

/-- `e - r` counts the unread bytes and the line. -/
theorem dist_r_e (hs : s.Ordered) : RingBuf.dist (2 ^ 32) s.r s.e = (unread s).length + (line s).length := by
  rw [length_unread, length_line, dist_w_e hs]
  have := hs.w_le
  omega

/-- From `r` to `e` the ring holds the unread bytes, then the line. -/
theorem window_r_e (hs : s.Ordered) : RingBuf.window s.buf s.r (RingBuf.dist (2 ^ 32) s.r s.e) = unread s ++ line s := by
  have hsplit : RingBuf.dist (2 ^ 32) s.r s.e = RingBuf.dist (2 ^ 32) s.r s.w + RingBuf.dist (2 ^ 32) s.w s.e := by
    rw [dist_w_e hs]
    have := hs.w_le
    omega
  rw [hsplit, RingBuf.window_add, ← RingBuf.window_mod s.buf (s.r + _) inputBuf_dvd, RingBuf.add_dist hs.r_lt hs.w_lt]
  rfl

/-- The slot of `e` is the one after the unread bytes and the line. -/
theorem slot_e (hs : s.Ordered) : RingBuf.slot inputBuf s.e = RingBuf.slot inputBuf (s.r + RingBuf.dist (2 ^ 32) s.r s.e) := by
  rw [← RingBuf.slot_mod inputBuf_dvd (s.r + _), RingBuf.add_dist hs.r_lt hs.e_lt]

/-! #### Editing the line -/

/-- `input.e--` on a nonempty line takes its last byte off. -/
theorem erase_wf (hs : s.Wf) (hne : s.e ≠ s.w) :
    s.erase.Wf ∧ line s = line s.erase ++ [s.buf (RingBuf.slot inputBuf s.erase.e)] ∧ unread s.erase = unread s := by
  have hwe : 0 < RingBuf.dist (2 ^ 32) s.w s.e :=
    Nat.pos_of_ne_zero fun h => hne ((RingBuf.dist_eq_zero_iff hs.w_lt hs.e_lt).mp h).symm
  have hre : RingBuf.dist (2 ^ 32) s.r s.w < RingBuf.dist (2 ^ 32) s.r s.e := by
    have := dist_w_e hs.toOrdered
    omega
  have hlt : s.erase.e < 2 ^ 32 := by rw [Input.erase_e]; exact wrap32_lt _
  -- both distances to `e` drop by one
  have hwe' : RingBuf.dist (2 ^ 32) s.w s.erase.e = RingBuf.dist (2 ^ 32) s.w s.e - 1 := by
    rw [Input.erase_e, wrap32]
    exact RingBuf.dist_pred_right hs.w_lt hs.e_lt hwe
  have hre' : RingBuf.dist (2 ^ 32) s.r s.erase.e = RingBuf.dist (2 ^ 32) s.r s.e - 1 := by
    rw [Input.erase_e, wrap32]
    exact RingBuf.dist_pred_right hs.r_lt hs.e_lt (by omega)
  have hline : line s = line s.erase ++ [s.buf (RingBuf.slot inputBuf s.erase.e)] := by
    have hslot : RingBuf.slot inputBuf (s.w + RingBuf.dist (2 ^ 32) s.w s.erase.e) = RingBuf.slot inputBuf s.erase.e := by
      rw [← RingBuf.slot_mod inputBuf_dvd, RingBuf.add_dist hs.w_lt hlt]
    have hd : RingBuf.dist (2 ^ 32) s.w s.e = RingBuf.dist (2 ^ 32) s.w s.erase.e + 1 := by omega
    rw [line, line, Input.erase_buf, Input.erase_w, hd, RingBuf.window_succ, hslot]
  have hwf : s.erase.Wf := by
    refine ⟨⟨by rw [Input.erase_r]; exact hs.r_lt, by rw [Input.erase_w]; exact hs.w_lt, hlt, ?_⟩, ?_,
      fun h => hs.line_nl (hline ▸ List.mem_append_left _ h)⟩
    · rw [Input.erase_r, Input.erase_w, hre']
      omega
    · rw [Input.erase_r, hre']
      have := hs.e_le
      omega
  exact ⟨hwf, hline, by rw [unread, unread, Input.erase_buf, Input.erase_r, Input.erase_w]⟩

/-- The kill-line loop, given enough fuel, empties the line: the line holds no
newline to stop it. -/
theorem killLine_eq : ∀ {k : ℕ} {s : Input}, s.Wf → RingBuf.dist (2 ^ 32) s.w s.e ≤ k →
    killLine k s = { s with e := s.w }
  | 0, s, hs, hk => by
    have he : s.w = s.e := (RingBuf.dist_eq_zero_iff hs.w_lt hs.e_lt).mp (by omega)
    rw [killLine]
    cases s
    cases he
    rfl
  | k + 1, s, hs, hk => by
    by_cases hne : s.e = s.w
    · rw [killLine, if_neg fun h => h.1 hne]
      cases s
      cases hne
      rfl
    · obtain ⟨hwf, hline, -⟩ := erase_wf hs hne
      have hlast : s.buf (RingBuf.slot inputBuf (wrap32 (s.e + 2 ^ 32 - 1))) ≠ '\n'.toUInt8 := fun h => by
        rw [Input.erase_e, h] at hline
        exact hs.line_nl (hline ▸ List.mem_append_right _ (List.mem_singleton_self _))
      have hk' : RingBuf.dist (2 ^ 32) s.erase.w s.erase.e ≤ k := by
        have := congrArg List.length hline
        simp only [List.length_append, length_line, List.length_singleton] at this
        omega
      rw [killLine, if_pos ⟨hne, hlast⟩, killLine_eq hwf hk']
      cases s
      rfl

/-- An emptied line. -/
theorem kill_wf (hs : s.Wf) : ({ s with e := s.w } : Input).Wf ∧ ({ s with e := s.w } : Input).tty = ⟨unread s, []⟩ := by
  have hline : line { s with e := s.w } = [] := by simp [line]
  exact ⟨⟨⟨hs.r_lt, hs.w_lt, hs.w_lt, le_rfl⟩, le_trans hs.w_le hs.e_le, by rw [hline]; simp⟩,
    by rw [Input.tty, hline]; rfl⟩

/-- A byte stored at `e` in a ring with room goes on the end of the line. -/
theorem put_wf (hs : s.Wf) (hroom : RingBuf.dist (2 ^ 32) s.r s.e < inputBuf) (x : UInt8) :
    unread (s.put x) = unread s ∧ line (s.put x) = line s ++ [x] ∧
      RingBuf.dist (2 ^ 32) s.r (s.put x).e = RingBuf.dist (2 ^ 32) s.r s.e + 1 := by
  have hroom' : RingBuf.dist (2 ^ 32) s.r s.e < 128 := hroom
  have hre : RingBuf.dist (2 ^ 32) s.r (s.put x).e = RingBuf.dist (2 ^ 32) s.r s.e + 1 := by
    rw [Input.put_e, wrap32]
    exact RingBuf.dist_succ_right hs.r_lt hs.e_lt (by omega)
  have hwe : RingBuf.dist (2 ^ 32) s.w (s.put x).e = RingBuf.dist (2 ^ 32) s.w s.e + 1 := by
    rw [Input.put_e, wrap32]
    exact RingBuf.dist_succ_right hs.w_lt hs.e_lt (by have := dist_w_e hs.toOrdered; omega)
  -- the slot of `e` lies outside the unread bytes and the line
  have hslot : RingBuf.slot inputBuf s.e = RingBuf.slot inputBuf (s.w + RingBuf.dist (2 ^ 32) s.w s.e) := by
    rw [← RingBuf.slot_mod inputBuf_dvd (s.w + _), RingBuf.add_dist hs.w_lt hs.e_lt]
  refine ⟨?_, ?_, hre⟩
  · rw [unread, unread, Input.put_buf, Input.put_r, Input.put_w]
    refine RingBuf.window_update x fun k hk => ?_
    rw [slot_e hs.toOrdered]
    have := hs.w_le
    exact (RingBuf.slot_add_inj (by omega) hroom).not.mpr (by omega)
  · rw [line, line, Input.put_buf, Input.put_w, hwe, hslot,
      RingBuf.window_push (by have := dist_w_e hs.toOrdered; omega)]

/-- Committing the line moves it to the end of the unread bytes. -/
theorem commit_tty (hs : s.Ordered) : s.commit.tty = ⟨unread s ++ line s, []⟩ := by
  have hline : line s.commit = [] := by
    rw [line, Input.commit_w, Input.commit_e, RingBuf.dist_self, RingBuf.window_zero]
  rw [Input.tty, hline, ← window_r_e hs, unread, Input.commit_buf, Input.commit_r, Input.commit_w]

/-- One character of `consoleintr` does to the ring what the line discipline does
to the unread bytes and the line. -/
theorem intrChar_tty (hs : s.Wf) (c : UInt8) : (intrChar s c).Wf ∧ (intrChar s c).tty = (s.tty.key c).1 := by
  unfold intrChar Tty.key
  by_cases hP : c = C 'P'
  · rw [if_pos hP, if_pos hP]
    exact ⟨hs, rfl⟩
  rw [if_neg hP, if_neg hP]
  by_cases hU : c = C 'U'
  · rw [if_pos hU, if_pos hU, killLine_eq hs (RingBuf.dist_lt (by norm_num) _ _).le]
    exact kill_wf hs
  rw [if_neg hU, if_neg hU]
  by_cases hH : c = C 'H' ∨ c = 0x7f
  · rw [if_pos hH, if_pos hH]
    by_cases hne : s.e = s.w
    · -- an empty line stays empty
      have hnil : line s = [] := by
        rw [← List.length_eq_zero_iff, length_line, hne, RingBuf.dist_self]
      rw [if_neg (not_not.mpr hne)]
      exact ⟨hs, by rw [Input.tty, hnil]; rfl⟩
    · obtain ⟨hwf, hline, hunread⟩ := erase_wf hs hne
      rw [if_pos hne]
      exact ⟨hwf, by rw [Input.tty, Input.tty, hline, hunread, List.dropLast_concat]⟩
  rw [if_neg hH, if_neg hH, wrap32_sub, dist_r_e hs.toOrdered, Input.tty_unread, Input.tty_line]
  by_cases hroom : c ≠ 0 ∧ (unread s).length + (line s).length < inputBuf
  · rw [if_pos hroom, if_pos hroom]
    generalize (if c = '\r'.toUInt8 then '\n'.toUInt8 else c) = x
    have hroom' : RingBuf.dist (2 ^ 32) s.r s.e < inputBuf := by rw [dist_r_e hs.toOrdered]; exact hroom.2
    obtain ⟨hu, hl, hd⟩ := put_wf hs hroom' x
    have hlt : (s.put x).e < 2 ^ 32 := by rw [Input.put_e]; exact wrap32_lt _
    -- `input.e == input.r + INPUT_BUF` tests for a full ring
    have hfull : (s.put x).e = wrap32 ((s.put x).r + inputBuf) ↔
        (unread s).length + (line s).length + 1 = inputBuf := by
      rw [← dist_r_e hs.toOrdered, ← hd, Input.put_r]
      constructor
      · intro h
        exact RingBuf.dist_eq_of_add hs.r_lt (by decide) h.symm
      · intro h
        rw [← h, wrap32, RingBuf.add_dist hs.r_lt hlt]
    have hord : (s.put x).Ordered := by
      refine ⟨by rw [Input.put_r]; exact hs.r_lt, by rw [Input.put_w]; exact hs.w_lt, hlt, ?_⟩
      rw [Input.put_r, Input.put_w, hd]
      have := hs.w_le
      omega
    by_cases hcommit : x = '\n'.toUInt8 ∨ x = C 'D' ∨ (unread s).length + (line s).length + 1 = inputBuf
    · -- the line, with `x`, is committed
      rw [if_pos (by rwa [hfull]), if_pos hcommit]
      have hline : line (s.put x).commit = [] := by
        rw [line, Input.commit_w, Input.commit_e, RingBuf.dist_self, RingBuf.window_zero]
      refine ⟨⟨⟨?_, ?_, ?_, ?_⟩, ?_, by rw [hline]; simp⟩, ?_⟩
      · rw [Input.commit_r, Input.put_r]
        exact hs.r_lt
      · rw [Input.commit_w]
        exact hlt
      · rw [Input.commit_e]
        exact hlt
      · rw [Input.commit_w, Input.commit_e]
      · rw [Input.commit_r, Input.commit_e, Input.put_r, hd]
        omega
      · rw [commit_tty hord, hu, hl]
    · -- `x` goes on the line
      rw [if_neg (by rwa [hfull]), if_neg hcommit]
      have hx : x ≠ '\n'.toUInt8 := fun h => hcommit (.inl h)
      refine ⟨⟨hord, ?_, ?_⟩, by rw [Input.tty, hu, hl]⟩
      · rw [Input.put_r, hd]
        omega
      · rw [hl]
        simpa [hx.symm] using hs.line_nl
  · rw [if_neg hroom, if_neg hroom]
    exact ⟨hs, rfl⟩

/-- `consoleintr` refines the line discipline: by induction on the characters, from
`intrChar_tty`. -/
theorem tty_consoleintr : ∀ (cs : List UInt8) {s : Input}, s.Wf →
    (consoleintr s cs).Wf ∧ (consoleintr s cs).tty = (s.tty.keys cs).1
  | [], _, hs => ⟨hs, rfl⟩
  | c :: cs, s, hs => by
    obtain ⟨hwf, htty⟩ := intrChar_tty hs c
    obtain ⟨hwf', htty'⟩ := tty_consoleintr cs hwf
    exact ⟨hwf', by rw [Tty.keys, ← htty, ← htty']; rfl⟩

/-- `consoleintr` appends to the unread bytes what the line discipline commits. -/
theorem unread_consoleintr (hs : s.Wf) (cs : List UInt8) :
    unread (consoleintr s cs) = unread s ++ (s.tty.keys cs).2 := by
  rw [← Input.tty_unread, (tty_consoleintr cs hs).2, Tty.keys_unread, Input.tty_unread]

/-! #### Reading -/

/-- `input.buf[input.r++ % INPUT_BUF]` from a ring with unread bytes takes the
oldest. -/
theorem get_wf (hs : s.Wf) (hne : s.r ≠ s.w) :
    s.get.2.Wf ∧ unread s = s.get.1 :: unread s.get.2 ∧ line s.get.2 = line s := by
  have hrw : 0 < RingBuf.dist (2 ^ 32) s.r s.w :=
    Nat.pos_of_ne_zero fun h => hne ((RingBuf.dist_eq_zero_iff hs.r_lt hs.w_lt).mp h)
  have hrw' : RingBuf.dist (2 ^ 32) s.get.2.r s.w = RingBuf.dist (2 ^ 32) s.r s.w - 1 := by
    rw [Input.get_r, wrap32]
    exact RingBuf.dist_succ_left hs.r_lt hs.w_lt hrw
  have hre' : RingBuf.dist (2 ^ 32) s.get.2.r s.e = RingBuf.dist (2 ^ 32) s.r s.e - 1 := by
    rw [Input.get_r, wrap32]
    exact RingBuf.dist_succ_left hs.r_lt hs.e_lt (lt_of_lt_of_le hrw hs.w_le)
  have hline : line s.get.2 = line s := by rw [line, line, Input.get_buf, Input.get_w, Input.get_e]
  have hunread : unread s = s.get.1 :: unread s.get.2 := by
    rw [unread, unread, Input.get_byte, Input.get_buf, Input.get_w, hrw', Input.get_r, wrap32,
      RingBuf.window_mod _ _ inputBuf_dvd, ← RingBuf.window_pop, Nat.sub_add_cancel hrw]
  refine ⟨⟨⟨?_, hs.w_lt, hs.e_lt, ?_⟩, ?_, hline ▸ hs.line_nl⟩, hunread, hline⟩
  · rw [Input.get_r]
    exact wrap32_lt _
  · rw [Input.get_w, Input.get_e, hrw', hre']
    have := hs.w_le
    omega
  · rw [Input.get_e, hre']
    have := hs.e_le
    omega

/-- The loop of `consoleread` reads the unread bytes as the line discipline's reading
loop does, and leaves the line alone: by induction on the bytes still wanted. -/
theorem readLoop_tty (target : ℕ) : ∀ (n : ℕ) {s : Input} (dst : List UInt8), s.Wf →
    (readLoop target n s dst).st.Wf ∧ line (readLoop target n s dst).st = line s ∧
      (readLoop target n s dst).map unread = Tty.read target n (unread s) dst
  | 0, _, _, hs => ⟨hs, rfl, rfl⟩
  | n + 1, s, dst, hs => by
    by_cases hrw : s.r = s.w
    · -- an empty ring: the reader sleeps
      have hnil : unread s = [] := by rw [unread, hrw, RingBuf.dist_self, RingBuf.window_zero]
      rw [readLoop, if_pos hrw, RStop.map_mk, hnil, Tty.read]
      exact ⟨hs, rfl, rfl⟩
    obtain ⟨hwf, hu, hl⟩ := get_wf hs hrw
    rw [readLoop, if_neg hrw, hu, Tty.read]
    by_cases hD : s.get.1 = C 'D'
    · rw [if_pos hD, if_pos hD]
      by_cases hlt : n + 1 < target
      · -- the `^D` is put back
        rw [if_pos hlt, if_pos hlt, Input.unget_get hs.r_lt, RStop.map_mk, hu]
        exact ⟨hs, rfl, rfl⟩
      · rw [if_neg hlt, if_neg hlt]
        exact ⟨hwf, hl, rfl⟩
    rw [if_neg hD, if_neg hD]
    by_cases hN : s.get.1 = '\n'.toUInt8
    · rw [if_pos hN, if_pos hN]
      exact ⟨hwf, hl, rfl⟩
    rw [if_neg hN, if_neg hN]
    obtain ⟨h₁, h₂, h₃⟩ := readLoop_tty target n (dst ++ [s.get.1]) hwf
    exact ⟨h₁, h₂.trans hl, h₃⟩

/-! ### The console with one reader -/

/-- Where the reader stands: outside `consoleread`, or asleep in a call for `target`
bytes with `n` still wanted and `dst` copied. -/
inductive RPc
  | idle
  | asleep (target n : ℕ) (dst : List UInt8)

/-- The console, its reader, and two ghost histories: the bytes the line discipline
committed, and the bytes `consoleread` returned, in order. -/
structure Cons where
  input : Input
  rpc : RPc
  committed : List UInt8
  gets : List UInt8

/-- A return of `consoleread(n)`: the `n` of the call, the bytes copied to `dst`, and
the value returned, `target - n`. -/
structure Ret where
  n : ℕ
  bytes : List UInt8
  r : ℕ

/-- The events: `consoleintr` with the characters typed, a call of
`consoleread(n)`, and the reader waking in `sleep(&input.r)`. -/
inductive ConsEv
  | intr (cs : List UInt8)
  | read (n : ℕ)
  | wake

namespace Cons

/-- A segment of `consoleread`: the loop, then a sleep or the return. -/
def readSeg (s : Cons) (target n : ℕ) (dst : List UInt8) : Cons × Option Ret :=
  let o := readLoop target n s.input dst
  if o.sleep then ({ s with input := o.st, rpc := .asleep target o.n o.dst }, none)
  else ({ s with input := o.st, rpc := .idle, gets := s.gets ++ o.dst }, some ⟨target, o.dst, target - o.n⟩)

/-- One event, `none` when it cannot happen: a call needs the reader outside
`consoleread`, a wakeup needs it asleep.  A wakeup may come at any time, since the
loop tests the ring again.  The bytes an interrupt commits are recorded as the line
discipline commits them. -/
def step (s : Cons) : ConsEv → Option (Cons × Option Ret)
  | .intr cs =>
    some ({ s with input := consoleintr s.input cs, committed := s.committed ++ (s.input.tty.keys cs).2 }, none)
  | .read n => match s.rpc with
    | .idle => some (s.readSeg n n [])
    | .asleep .. => none
  | .wake => match s.rpc with
    | .asleep target n dst => some (s.readSeg target n dst)
    | .idle => none

/-- The console at boot: `input` is zeroed and nobody reads. -/
def boot : Cons := ⟨⟨fun _ => 0, 0, 0, 0⟩, .idle, [], []⟩

/-- The bytes the reader has copied in the call it is asleep in. -/
def pending (s : Cons) : List UInt8 :=
  match s.rpc with
  | .idle => []
  | .asleep _ _ dst => dst

/-- The states some interleaving of events reaches from boot. -/
def Reachable (s : Cons) : Prop :=
  Transition.Reachable (fun s e t => ∃ o, s.step e = some (t, o)) (· = boot) s

/-- A segment of `consoleread` in terms of the line discipline's reading loop. -/
theorem readSeg_spec {s : Cons} {target n : ℕ} {dst : List UInt8} {a : RStop (List UInt8)}
    (hwf : s.input.Wf) (ha : Tty.read target n (unread s.input) dst = a) :
    ∃ st : Input, st.Wf ∧ unread st = a.st ∧ s.readSeg target n dst =
      if a.sleep then ({ s with input := st, rpc := .asleep target a.n a.dst }, none)
      else ({ s with input := st, rpc := .idle, gets := s.gets ++ a.dst }, some ⟨target, a.dst, target - a.n⟩) := by
  obtain ⟨hwf', -, hmap⟩ := readLoop_tty target n dst hwf
  subst ha
  refine ⟨_, hwf', congrArg RStop.st hmap, ?_⟩
  rw [← hmap]
  rfl

/-- What holds whenever `cons.lock` is free: the ring's invariant; the bytes
returned, the bytes the reader holds and the unread bytes are, but for `^D`s, the
bytes committed; and a reader asleep has copied neither a `^D` nor a newline. -/
structure Inv (s : Cons) : Prop where
  wf : s.input.Wf
  stream : s.gets ++ s.pending ++ strip (unread s.input) = strip s.committed
  reader : ∀ target n dst, s.rpc = .asleep target n dst →
    dst.length + n = target ∧ 0 < n ∧ C 'D' ∉ dst ∧ '\n'.toUInt8 ∉ dst

theorem Inv.boot : Cons.boot.Inv where
  wf := ⟨⟨by norm_num [Cons.boot], by norm_num [Cons.boot], by norm_num [Cons.boot], le_rfl⟩,
    by simp [Cons.boot], by simp [Cons.boot, line]⟩
  stream := by simp [Cons.boot, pending, unread]
  reader _ _ _ h := by cases h

/-- A segment of `consoleread` from what the reader holds. -/
theorem Inv.readSeg {s : Cons} (hs : s.Inv) {target n : ℕ} {dst : List UInt8} (hp : s.pending = dst)
    (hd : dst.length + n = target) (hD : C 'D' ∉ dst) (hN : '\n'.toUInt8 ∉ dst) :
    (s.readSeg target n dst).1.Inv := by
  obtain ⟨st, hwf, hu, heq⟩ := readSeg_spec (a := Tty.read target n (unread s.input) dst) hs.wf rfl
  have hstream : s.gets ++ (Tty.read target n (unread s.input) dst).dst ++ strip (unread st) =
      strip s.committed := by
    rw [hu, List.append_assoc, ← Tty.read_stream, ← hp, ← List.append_assoc, hs.stream]
  rw [heq]
  split_ifs with hsleep
  · refine ⟨hwf, hstream, fun t' n' d' h => ?_⟩
    cases h
    exact ⟨by rw [Tty.read_count, hd], (Tty.read_sleep hsleep).2, Tty.read_eof hD, (Tty.read_nl hN).2 hsleep⟩
  · refine ⟨hwf, ?_, fun _ _ _ h => by cases h⟩
    show s.gets ++ _ ++ [] ++ strip (unread st) = _
    rw [List.append_nil, hstream]

/-- `consoleintr` appends to the unread bytes what it commits. -/
theorem Inv.intr {s : Cons} (hs : s.Inv) (cs : List UInt8) :
    ({ s with input := consoleintr s.input cs, committed := s.committed ++ (s.input.tty.keys cs).2 } : Cons).Inv := by
  refine ⟨(tty_consoleintr cs hs.wf).1, ?_, hs.reader⟩
  show s.gets ++ s.pending ++ strip (unread (consoleintr s.input cs)) = strip (s.committed ++ _)
  rw [unread_consoleintr hs.wf, strip_append, strip_append, ← hs.stream]
  simp only [List.append_assoc]

/-- Every event keeps the invariant. -/
theorem Inv.step {s t : Cons} {e : ConsEv} {o : Option Ret} (hs : s.Inv) (h : s.step e = some (t, o)) :
    t.Inv := by
  cases e with
  | intr cs =>
    obtain ⟨rfl, -⟩ := Prod.mk.inj (Option.some.inj h)
    exact hs.intr cs
  | read n =>
    cases hr : s.rpc with
    | idle =>
      simp only [Cons.step, hr, Option.some.injEq] at h
      rw [show t = _ from (congrArg Prod.fst h).symm]
      exact hs.readSeg (by simp [pending, hr]) (by simp) List.not_mem_nil List.not_mem_nil
    | asleep => simp [Cons.step, hr] at h
  | wake =>
    cases hr : s.rpc with
    | idle => simp [Cons.step, hr] at h
    | asleep target n dst =>
      simp only [Cons.step, hr, Option.some.injEq] at h
      rw [show t = _ from (congrArg Prod.fst h).symm]
      obtain ⟨hd, -, hD, hN⟩ := hs.reader target n dst hr
      exact hs.readSeg (by simp [pending, hr]) hd hD hN

theorem Reachable.inv {s : Cons} (h : s.Reachable) : s.Inv :=
  Transition.Reachable.invariant (fun _ he => he ▸ Cons.Inv.boot) (fun _ _ _ hs ⟨_, hst⟩ => hs.step hst) h

/-! #### What the calls return -/

/-- An interrupt only appends to the unread bytes. -/
theorem step_intr {s t : Cons} (hs : s.Inv) {cs : List UInt8} {o : Option Ret}
    (h : s.step (.intr cs) = some (t, o)) : unread t.input = unread s.input ++ (s.input.tty.keys cs).2 := by
  obtain ⟨rfl, -⟩ := Prod.mk.inj (Option.some.inj h)
  exact unread_consoleintr hs.wf cs

end Cons

end Console

end Xv6
