import Mathlib

/-!
# grep

`grep.c`: the Kernighan–Pike matcher `match`, and `grep`, which reads its input
into a 1024-byte buffer, writes each complete line that matches, and keeps the
incomplete tail of the buffer for the next read.  A read of a pipe or of the
console may return part of a line, and this file follows grep through every
way the reads split its input.

The input is the list of chunks the writer made available, in order.  A read
asking for `n` bytes returns the next chunk when it fits and its first `n`
bytes otherwise, leaving the rest for the next read (`readChunk`); an empty
chunk is the end of the input, where `read` returns 0.  Bytes are `Char`s, and
`nul` ends the C strings that `strchr` and the matcher scan.

After each read, `if(p == buf) m = 0;` empties the buffer whenever it holds no
newline, which is meant for a full buffer but happens after every read that
brings no newline: the start of the line read so far is lost.

## Main definitions

* `strchr`, `matchhere`, `matchstar`, `match` — as in `ulib.c` and `grep.c`.
* `readChunk` — what one `read` returns.
* `scan` — the inner loop over the complete lines of the buffer.
* `grepLoop`, `grep` — the read loop.
* `matchingLines` — what grep is for: the matching lines of its input.

## Main results

* `scan_lines` — over whole lines and a tail, `scan` writes the matching lines.
* `grepLoop_whole_lines` — when every read returns whole lines, grep writes the
  matching lines.
* `grepLoop_drops_lineless_read` — a read that brings no newline discards the
  buffer and itself.
* `grep_drops_line_head` — a line whose first part is read on its own is tested
  and written without that part.
-/

namespace Xv6

namespace Grep

/-! ### The matcher -/

/-- The byte that ends a C string. -/
def nul : Char := '\x00'

/-- `strchr`: the offset of the first `c` before the end of the string. -/
def strchr : List Char → Char → Option ℕ
  | [], _ => none
  | x :: s, c => if x = nul then none else if x = c then some 0 else (strchr s c).map (· + 1)

/-- `matchstar`: `c*` and then the rest of the pattern, matched by `here`, at the
start of `text`; the star takes as few characters as it can. -/
def matchstar (here : List Char → Bool) (c : Char) : List Char → Bool
  | [] => here []
  | t :: text => here (t :: text) || ((t == c || c == '.') && matchstar here c text)

/-- `matchhere`: the pattern at the start of `text`.  The cases are tried in the
order of the source: the end of the pattern, a starred character, a final `$`,
one character. -/
def matchhere : List Char → List Char → Bool
  | [], _ => true
  | c :: '*' :: re, text => matchstar (fun t => matchhere re t) c text
  | ['$'], text => text.isEmpty
  | c :: re, t :: text => (c == '.' || c == t) && matchhere re text
  | _ :: _, [] => false

/-- The `do … while(*text++ != '\0')` loop of `match`: the pattern at some offset
of `text`, its end included. -/
def matchLoop (re : List Char) : List Char → Bool
  | [] => matchhere re []
  | t :: text => matchhere re (t :: text) || matchLoop re text

/-- `match`: the pattern anywhere in `text`, or at its start after a `^`. -/
def «match» : List Char → List Char → Bool
  | '^' :: re, text => matchhere re text
  | re, text => matchLoop re text

/-! ### The read loop -/

/-- `sizeof(buf)`. -/
def bufSize : ℕ := 1024

/-- `read(fd, buf+m, n)` on an input with `chunks` to offer: the next chunk, cut
to `n` bytes with its rest left for the next read. -/
def readChunk (n : ℕ) : List (List Char) → List Char × List (List Char)
  | [] => ([], [])
  | c :: cs => if c.length ≤ n then (c, cs) else (c.take n, c.drop n :: cs)

/-- The inner loop `while((q = strchr(p, '\n')) != 0)` from the start of `buf`:
what it writes, and the offset `p - buf` where it stops.  Each turn consumes a
line, so `buf.length` turns are enough. -/
def scan (pattern : List Char) : ℕ → List Char → List Char × ℕ
  | 0, _ => ([], 0)
  | fuel + 1, buf =>
    match strchr buf '\n' with
    | none => ([], 0)
    | some q =>
      let r := scan pattern fuel (buf.drop (q + 1))
      ((if «match» pattern (buf.take q) then buf.take q ++ ['\n'] else []) ++ r.1, q + 1 + r.2)

/-- The read loop of `grep`, with `buf` the `m` bytes kept from the last read:
everything written from here on. -/
def grepLoop (pattern : List Char) : ℕ → List Char → List (List Char) → List Char
  | 0, _, _ => []
  | fuel + 1, buf, chunks =>
    let r := readChunk (bufSize - buf.length - 1) chunks
    if r.1.length = 0 then [] else
      let buf := buf ++ r.1
      let s := scan pattern buf.length buf
      -- `if(p == buf) m = 0;`, else the `m - (p - buf)` bytes after the last line are kept
      s.1 ++ grepLoop pattern fuel (if s.2 = 0 then [] else buf.drop s.2) r.2

/-- The bytes the input offers. -/
def total (chunks : List (List Char)) : ℕ := (chunks.map List.length).sum

/-- `grep(pattern, fd)`: everything it writes to fd 1.  Each turn of the loop
but the last reads a byte at least. -/
def grep (pattern : List Char) (chunks : List (List Char)) : List Char :=
  grepLoop pattern (total chunks + 1) [] chunks

/-! ### What grep is for -/

/-- A line as the input holds it: no newline and no NUL inside. -/
def Line (l : List Char) : Prop := '\n' ∉ l ∧ nul ∉ l

instance (l : List Char) : Decidable (Line l) := inferInstanceAs (Decidable (_ ∧ _))

/-- The text of whole lines, each with its newline. -/
def unlines (ls : List (List Char)) : List Char := ls.flatMap (· ++ ['\n'])

/-- The matching lines of the input, each with its newline. -/
def matchingLines (pattern : List Char) (ls : List (List Char)) : List Char :=
  unlines (ls.filter («match» pattern))

/-! ### The matcher and the scan over whole lines -/

@[simp] theorem unlines_nil : unlines [] = [] := rfl

@[simp] theorem unlines_cons (l : List Char) (ls : List (List Char)) :
    unlines (l :: ls) = l ++ '\n' :: unlines ls := by
  simp [unlines]

theorem unlines_append (ls ls' : List (List Char)) : unlines (ls ++ ls') = unlines ls ++ unlines ls' := by
  simp [unlines]

theorem length_le_unlines (ls : List (List Char)) : ls.length ≤ (unlines ls).length := by
  induction ls with
  | nil => simp
  | cons l ls ih => simp only [unlines_cons, List.length_cons, List.length_append]; omega

@[simp] theorem matchingLines_nil (pattern : List Char) : matchingLines pattern [] = [] := rfl

theorem matchingLines_cons (pattern l : List Char) (ls : List (List Char)) :
    matchingLines pattern (l :: ls) =
      (if «match» pattern l then l ++ ['\n'] else []) ++ matchingLines pattern ls := by
  by_cases h : «match» pattern l <;> simp [matchingLines, h]

theorem matchingLines_append (pattern : List Char) (ls ls' : List (List Char)) :
    matchingLines pattern (ls ++ ls') = matchingLines pattern ls ++ matchingLines pattern ls' := by
  simp [matchingLines, List.filter_append, unlines_append]

theorem newline_ne_nul : '\n' ≠ nul := by decide

/-- `strchr` finds the newline that ends a line. -/
theorem strchr_line {l : List Char} (hl : Line l) (rest : List Char) :
    strchr (l ++ '\n' :: rest) '\n' = some l.length := by
  induction l with
  | nil => simp [strchr, newline_ne_nul]
  | cons x l ih =>
    have hx : x ≠ nul ∧ x ≠ '\n' := ⟨fun h => hl.2 (h ▸ List.mem_cons_self ..),
      fun h => hl.1 (h ▸ List.mem_cons_self ..)⟩
    have hl' : Line l := ⟨fun h => hl.1 (List.mem_cons_of_mem _ h), fun h => hl.2 (List.mem_cons_of_mem _ h)⟩
    simp [strchr, hx, ih hl']

/-- With no newline in the buffer, `strchr` finds none. -/
theorem strchr_none {t : List Char} (ht : '\n' ∉ t) : strchr t '\n' = none := by
  induction t with
  | nil => rfl
  | cons x t ih =>
    have hx : x ≠ '\n' := fun h => ht (h ▸ List.mem_cons_self ..)
    simp [strchr, hx, ih fun h => ht (List.mem_cons_of_mem _ h)]

/-- Over whole lines followed by a tail with no newline, the inner loop writes
the matching lines and stops at the tail. -/
theorem scan_lines (pattern : List Char) {tail : List Char} (htail : '\n' ∉ tail) :
    ∀ {ls : List (List Char)} {fuel : ℕ}, (∀ l ∈ ls, Line l) → ls.length ≤ fuel →
      scan pattern fuel (unlines ls ++ tail) = (matchingLines pattern ls, (unlines ls).length) := by
  intro ls
  induction ls with
  | nil =>
    intro fuel _ _
    cases fuel with
    | zero => rfl
    | succ fuel => simp [scan, strchr_none htail]
  | cons l ls ih =>
    intro fuel hls hfuel
    obtain ⟨fuel, rfl⟩ : ∃ f, fuel = f + 1 := ⟨fuel - 1, by simp at hfuel; omega⟩
    have hl : Line l := hls l List.mem_cons_self
    have hbuf : unlines (l :: ls) ++ tail = l ++ '\n' :: (unlines ls ++ tail) := by simp
    have hrest := @ih fuel (fun l' h => hls l' (List.mem_cons_of_mem _ h)) (by simpa using hfuel)
    have hdrop : (l ++ '\n' :: (unlines ls ++ tail)).drop (l.length + 1) = unlines ls ++ tail := by
      simp [List.drop_append]
    rw [hbuf, scan, strchr_line hl]
    simp [hdrop, hrest, matchingLines_cons]
    omega

/-! ### The read loop -/

@[simp] theorem total_nil : total [] = 0 := rfl

@[simp] theorem total_cons (c : List Char) (cs : List (List Char)) :
    total (c :: cs) = c.length + total cs := rfl

/-- A read takes its bytes from the input and leaves the rest. -/
theorem readChunk_total (n : ℕ) (cs : List (List Char)) :
    (readChunk n cs).1.length + total (readChunk n cs).2 = total cs := by
  cases cs with
  | nil => rfl
  | cons c cs =>
    by_cases h : c.length ≤ n
    · simp [readChunk, h]
    · simp [readChunk, h]
      omega

/-- Fuel beyond the bytes of the input changes nothing. -/
theorem grepLoop_fuel (pattern : List Char) :
    ∀ {fuel fuel' : ℕ} {buf : List Char} {chunks : List (List Char)},
      total chunks < fuel → fuel ≤ fuel' →
        grepLoop pattern fuel' buf chunks = grepLoop pattern fuel buf chunks := by
  intro fuel
  induction fuel with
  | zero => intro _ _ _ _ h; omega
  | succ fuel ih =>
    intro fuel' buf chunks hfuel hle
    obtain ⟨fuel', rfl⟩ : ∃ f, fuel' = f + 1 := ⟨fuel' - 1, by omega⟩
    have hread := readChunk_total (bufSize - buf.length - 1) chunks
    simp only [grepLoop]
    by_cases h : (readChunk (bufSize - buf.length - 1) chunks).1.length = 0
    · simp only [h, if_true]
    · simp only [h, if_false]
      rw [ih (by omega) (by omega)]

/-- Reads that each return whole lines: grep writes the matching lines.  Every
read finds the buffer empty, and `scan_lines` does one read's lines. -/
theorem grepLoop_whole_lines (pattern : List Char) :
    ∀ {lss : List (List (List Char))} {fuel : ℕ},
      (∀ ls ∈ lss, ls ≠ [] ∧ (∀ l ∈ ls, Line l) ∧ (unlines ls).length < bufSize) →
      lss.length < fuel →
        grepLoop pattern fuel [] (lss.map unlines) = matchingLines pattern lss.flatten := by
  intro lss
  induction lss with
  | nil =>
    intro fuel _ hfuel
    obtain ⟨fuel, rfl⟩ : ∃ f, fuel = f + 1 := ⟨fuel - 1, by simp at hfuel; omega⟩
    rfl
  | cons ls lss ih =>
    intro fuel hlss hfuel
    obtain ⟨fuel, rfl⟩ : ∃ f, fuel = f + 1 := ⟨fuel - 1, by simp at hfuel; omega⟩
    obtain ⟨hne, hls, hlen⟩ := hlss ls List.mem_cons_self
    have hpos : 0 < (unlines ls).length := (length_le_unlines ls).trans_lt' (List.length_pos_iff.mpr hne)
    have hread : readChunk (bufSize - ([] : List Char).length - 1) (unlines ls :: lss.map unlines) =
        (unlines ls, lss.map unlines) := by
      simp only [readChunk, List.length_nil, if_pos (show (unlines ls).length ≤ bufSize - 0 - 1 by omega)]
    have hscan : scan pattern (unlines ls).length (unlines ls) = (matchingLines pattern ls, (unlines ls).length) := by
      have h : scan pattern (unlines ls).length (unlines ls ++ []) = (matchingLines pattern ls, (unlines ls).length) :=
        scan_lines pattern List.not_mem_nil hls (length_le_unlines ls)
      rwa [List.append_nil] at h
    have hrest := @ih fuel (fun ls' h => hlss ls' (List.mem_cons_of_mem _ h)) (by simpa using hfuel)
    simp only [grepLoop, List.map_cons, hread, List.nil_append, hscan]
    simp [Nat.pos_iff_ne_zero.mp hpos, hrest, matchingLines_append]

/-- A read that brings no newline leaves `scan` nothing: the buffer and what
was read are dropped by `if(p == buf) m = 0;`. -/
theorem grepLoop_drops_lineless_read (pattern : List Char) {b c : List Char} {cs : List (List Char)}
    {fuel : ℕ} (hb : '\n' ∉ b) (hc : '\n' ∉ c) (hne : c ≠ []) (hfit : b.length + c.length < bufSize) :
    grepLoop pattern (fuel + 1) b (c :: cs) = grepLoop pattern fuel [] cs := by
  have hpos : 0 < c.length := List.length_pos_iff.mpr hne
  have hread : readChunk (bufSize - b.length - 1) (c :: cs) = (c, cs) := by
    simp only [readChunk, if_pos (show c.length ≤ bufSize - b.length - 1 by omega)]
  obtain ⟨k, hk⟩ : ∃ k, (b ++ c).length = k + 1 := ⟨b.length + c.length - 1, by simp; omega⟩
  have hscan : scan pattern (b ++ c).length (b ++ c) = ([], 0) := by
    have hbc : '\n' ∉ b ++ c := by simp [hb, hc]
    rw [hk, scan, strchr_none hbc]
  simp only [grepLoop, hread, hscan]
  simp [Nat.pos_iff_ne_zero.mp hpos]

/-- Reads of whole lines bring a byte at least each. -/
theorem length_le_total {lss : List (List (List Char))} (hne : ∀ ls ∈ lss, ls ≠ []) :
    lss.length ≤ total (lss.map unlines) := by
  induction lss with
  | nil => simp
  | cons ls lss ih =>
    have hpos : 0 < (unlines ls).length :=
      (length_le_unlines ls).trans_lt' (List.length_pos_iff.mpr (hne ls List.mem_cons_self))
    have hrest := ih fun ls' h => hne ls' (List.mem_cons_of_mem _ h)
    simp only [List.length_cons, List.map_cons, total_cons]
    omega

/-- `grep` on reads of whole lines. -/
theorem grep_whole_lines (pattern : List Char) {lss : List (List (List Char))}
    (hlss : ∀ ls ∈ lss, ls ≠ [] ∧ (∀ l ∈ ls, Line l) ∧ (unlines ls).length < bufSize) :
    grep pattern (lss.map unlines) = matchingLines pattern lss.flatten := by
  have hlen := length_le_total fun ls h => (hlss ls h).1
  exact grepLoop_whole_lines pattern hlss (by omega)

/-- `grep` when the first read brings no newline: as if that read had not been. -/
theorem grep_cons_lineless (pattern : List Char) {c : List Char} {cs : List (List Char)}
    (hc : '\n' ∉ c) (hne : c ≠ []) (hfit : c.length < bufSize) :
    grep pattern (c :: cs) = grep pattern cs := by
  have hpos : 0 < c.length := List.length_pos_iff.mpr hne
  have hfuel : grepLoop pattern (c.length + total cs) [] cs = grepLoop pattern (total cs + 1) [] cs :=
    grepLoop_fuel pattern (by omega) (by omega)
  unfold grep
  rw [total_cons, grepLoop_drops_lineless_read pattern List.not_mem_nil hc hne (by simpa using hfit), hfuel]

/-- A line whose first part `h` comes in a read of its own, as when `echo` writes
each word to a pipe: grep drops `h`, and tests and writes only the rest of the
line.  The input is `h ++ unlines lss.flatten`, whose first line is `h` and the
first line of `lss`, and the output is that of `lss` alone. -/
theorem grep_drops_line_head (pattern : List Char) {h : List Char} {lss : List (List (List Char))}
    (hh : '\n' ∉ h) (hne : h ≠ []) (hfit : h.length < bufSize)
    (hlss : ∀ ls ∈ lss, ls ≠ [] ∧ (∀ l ∈ ls, Line l) ∧ (unlines ls).length < bufSize) :
    grep pattern (h :: lss.map unlines) = matchingLines pattern lss.flatten := by
  rw [grep_cons_lineless pattern hh hne hfit]
  exact grep_whole_lines pattern hlss

/-- `grep hello` on the line `hello` read as `hel` and `lo\n`: nothing is written. -/
theorem grep_drops_line_head_hello :
    grep ['h', 'e', 'l', 'l', 'o'] [['h', 'e', 'l'], ['l', 'o', '\n']] = [] ∧
      matchingLines ['h', 'e', 'l', 'l', 'o'] [['h', 'e', 'l', 'l', 'o']] = ['h', 'e', 'l', 'l', 'o', '\n'] := by
  have hrun : grep ['h', 'e', 'l', 'l', 'o'] (['h', 'e', 'l'] :: [[['l', 'o']]].map unlines) =
      matchingLines ['h', 'e', 'l', 'l', 'o'] [[['l', 'o']]].flatten :=
    grep_drops_line_head _ (by decide) (by decide) (by decide) (by decide)
  exact ⟨hrun.trans (by decide), by decide⟩

end Grep

end Xv6
