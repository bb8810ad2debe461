import Xv6.Files
import Xv6.Grep

/-!
# The shell's command parser

`sh.c` parses a command line by recursive descent into a tree of `execcmd`,
`redircmd`, `pipecmd`, `listcmd` and `backcmd` nodes.  One cursor `*ps` runs over
the line: `gettoken` reads the token at it and `peek` looks at the next one, and
the parse functions `parseline`, `parsepipe`, `parseexec`, `parseblock` and
`parseredirs` call each other and move the cursor on.  A line the grammar does
not accept ends in `panic`.

The cursor is the list of the characters from `*ps` to the end `es` of the line;
the string's NUL at `es` is the empty list.  A parse function returns `none` where
the source panics, and otherwise the tree and a cursor that is a suffix of the one
it was given, so that the mutual recursion terminates on the length of the cursor.
A word of the tree is the text from `*q` to `*eq`, the string that `nulterminate`
makes of it.

## Main definitions

* `gettoken`, `peek` — the tokenizer.
* `parseredirs`, `parseexec`, `parseblock`, `parsepipe`, `parseline`, `parsecmd` —
  the parser, with `parseexecLoop` and `parselineLoop` for the source's loops.
* `Cmd.Wf` — the trees the parser can build.
* `Cmd.print` — a text for a tree, with as few parentheses and blanks as the
  grammar allows.
* `tokens` — the tokens of a line, as `gettoken` reads them one after another.

## Main results

* `parsecmd_print` — the parser reads every well-formed tree back from its text.
* `parsecmd_wf` — every tree it returns is well formed.
* **`parsecmd_range`** — the two together: the trees the parser builds are exactly
  the well-formed ones.
* `parsecmd_tokens` — the parser reads a line only through its tokens, so the
  blanks between them do not matter.
-/

namespace Xv6

namespace Sh

open Grep (strchr nul)

/-! ### The tokenizer -/

/-- `whitespace[]` and `symbols[]`. -/
def whitespace : List Char := [' ', '\t', '\r', '\n', '\x0b']
def symbols : List Char := ['<', '|', '>', '&', ';', '(', ')']

/-- `MAXARGS`: an exec node holds fewer words. -/
def maxargs : ℕ := 10

/-- The loop `while(s < es && strchr(whitespace, *s)) s++`. -/
def skipws (s : List Char) : List Char := s.dropWhile fun c => (strchr whitespace c).isSome

/-- The `switch(*s)` of `gettoken`: what it returns and where the token ends. -/
def scan : List Char → Char × List Char
  | [] => (nul, [])
  | c :: s =>
    if c = nul then (nul, c :: s)
    else if c ∈ ['|', '(', ')', ';', '&', '<'] then (c, s)
    -- `>>` is one token, returned as `'+'`
    else if c = '>' then (if s.head? = some '>' then ('+', s.tail) else ('>', s))
    else ('a', (c :: s).dropWhile fun x => !(strchr whitespace x).isSome && !(strchr symbols x).isSome)

/-- What `gettoken` returns, and what it leaves in `*q`, `*eq` and `*ps`. -/
structure Token where
  /-- The symbol read, `'+'` for `>>`, `'a'` for a word and NUL at the end. -/
  ret : Char
  /-- `*q`: where the token starts. -/
  q : List Char
  /-- `*eq`: just past it. -/
  eq : List Char
  /-- `*ps`: past the whitespace after it. -/
  ps : List Char

/-- `gettoken`. -/
def gettoken (ps : List Char) : Token :=
  let s := skipws ps
  ⟨(scan s).1, s, (scan s).2, skipws (scan s).2⟩

/-- `peek`: whether the next token starts with one of `toks`.  It leaves `*ps` at
`skipws ps`. -/
def peek (ps toks : List Char) : Bool :=
  match skipws ps with
  | [] => false
  | c :: _ => c != nul && (strchr toks c).isSome

/-- The text from `q` up to `eq`: what `nulterminate` makes of a word. -/
def span (q eq : List Char) : List Char := q.take (q.length - eq.length)

theorem isSome_strchr {s : List Char} (hs : nul ∉ s) (c : Char) :
    (strchr s c).isSome = decide (c ∈ s) := by
  induction s with
  | nil => rfl
  | cons x s ih =>
    have hx : x ≠ nul := fun h => hs (h ▸ List.mem_cons_self)
    by_cases hc : x = c
    · subst hc
      simp [strchr, hx]
    · simp [strchr, hx, hc, ih (fun h => hs (List.mem_cons_of_mem _ h)), Ne.symm hc]

@[simp] theorem strchr_whitespace (c : Char) :
    (strchr whitespace c).isSome = decide (c ∈ whitespace) :=
  isSome_strchr (by decide) c

@[simp] theorem strchr_symbols (c : Char) : (strchr symbols c).isSome = decide (c ∈ symbols) :=
  isSome_strchr (by decide) c

theorem skipws_suffix (s : List Char) : skipws s <:+ s := List.dropWhile_suffix _

/-- `skipws` stops at a character that is not whitespace. -/
theorem skipws_head {ps t : List Char} {x : Char} (h : skipws ps = x :: t) : x ∉ whitespace := by
  have := List.head?_dropWhile_not (fun c => (strchr whitespace c).isSome) ps
  rw [← skipws, h] at this
  simpa using this

theorem scan_suffix (s : List Char) : (scan s).2 <:+ s := by
  cases s with
  | nil => exact List.suffix_refl _
  | cons c s =>
    simp only [scan]
    split_ifs
    all_goals first
      | exact List.suffix_refl _
      | exact List.suffix_cons _ _
      | exact List.dropWhile_suffix _
      | exact (List.tail_suffix s).trans (List.suffix_cons _ _)

theorem gettoken_suffix (ps : List Char) : (gettoken ps).ps <:+ ps :=
  ((skipws_suffix _).trans (scan_suffix _)).trans (skipws_suffix ps)

/-- A token read at a character other than whitespace takes at least that character. -/
theorem scan_lt {c : Char} {s : List Char} (hc : c ∉ whitespace) (hr : (scan (c :: s)).1 ≠ nul) :
    (scan (c :: s)).2.length < (c :: s).length := by
  simp only [scan] at hr ⊢
  split_ifs at hr ⊢ with h₁ h₂ h₃ h₄
  · exact absurd rfl hr
  · simp
  · simp
  · simp
  · -- a word: its first character is neither whitespace nor a symbol
    have hsym : c ∉ symbols := by simp_all [symbols]
    simp only [List.dropWhile_cons, strchr_whitespace, strchr_symbols, hc, hsym,
      decide_false, Bool.not_false, Bool.and_self, ↓reduceIte, List.length_cons]
    exact Nat.lt_succ_of_le (List.dropWhile_suffix _).length_le

/-- A token other than the end moves the cursor on. -/
theorem gettoken_lt {ps : List Char} (h : (gettoken ps).ret ≠ nul) :
    (gettoken ps).ps.length < ps.length := by
  cases hs : skipws ps with
  | nil => simp [gettoken, hs, scan] at h
  | cons c t =>
    rw [gettoken, hs] at h ⊢
    calc (skipws (scan (c :: t)).2).length ≤ (scan (c :: t)).2.length :=
          (skipws_suffix _).length_le
      _ < (c :: t).length := scan_lt (skipws_head hs) h
      _ = (skipws ps).length := by rw [hs]
      _ ≤ ps.length := (skipws_suffix ps).length_le

/-- A `peek` that succeeds sees a token other than the end. -/
theorem gettoken_ret_of_peek {ps toks : List Char} (h : peek ps toks = true) :
    (gettoken ps).ret ≠ nul := by
  simp only [peek] at h
  split at h
  · exact absurd h (by simp)
  · next c t hs =>
    have hc : c ≠ nul := by simp_all
    simp only [gettoken, hs, scan, hc, ↓reduceIte]
    split_ifs <;> simp_all [nul]

/-! ### The parser -/

/-- The command tree.  A word, a file name among them, is the text `nulterminate`
cuts out of the line. -/
inductive Cmd
  | exec (argv : List (List Char))
  | redir (cmd : Cmd) (file : List Char) (mode fd : ℕ)
  | pipe (left right : Cmd)
  | list (left right : Cmd)
  | back (cmd : Cmd)
  deriving DecidableEq, Repr

/-- `*ps` after a parse function: a suffix of where it started. -/
abbrev Cursor (ps : List Char) := {t : List Char // t <:+ ps}

/-- `*ps` where a parse function stops after a `peek` that failed. -/
def Cursor.skip (ps : List Char) : Cursor ps := ⟨skipws ps, skipws_suffix ps⟩

/-- A cursor into a later position of the line is one into an earlier. -/
def Cursor.widen {ps ps' : List Char} (h : ps' <:+ ps) (t : Cursor ps') : Cursor ps :=
  ⟨t.1, t.2.trans h⟩

/-- The `switch(tok)` of `parseredirs`: `>` and `>>` both open for writing. -/
def redirect (tok : Char) (cmd : Cmd) (file : List Char) : Cmd :=
  match tok with
  | '<' => .redir cmd file oRdonly 0
  | '>' => .redir cmd file (oWronly ||| oCreate) 1
  | '+' => .redir cmd file (oWronly ||| oCreate) 1
  | _ => cmd

/-- `parseredirs`: the redirections at the cursor, each around what comes before. -/
def parseredirs (cmd : Cmd) (ps : List Char) : Option (Cmd × Cursor ps) :=
  if _h : peek ps ['<', '>'] = true then
    let tok := gettoken ps
    let file := gettoken tok.ps
    -- `panic("missing file for redirection")`
    if file.ret ≠ 'a' then none
    else (parseredirs (redirect tok.ret cmd (span file.q file.eq)) file.ps).map
      fun r => (r.1, r.2.widen ((gettoken_suffix _).trans (gettoken_suffix ps)))
  else some (cmd, .skip ps)
termination_by ps.length
decreasing_by
  exact lt_of_le_of_lt (gettoken_suffix _).length_le (gettoken_lt (gettoken_ret_of_peek _h))

/-- The stores `cmd->argv[argc]` of `parseexec`: they go through the pointer `cmd` to
the exec node, under the redirections that `ret` has put around it. -/
def Cmd.setArgv (argv : List (List Char)) : Cmd → Cmd
  | .exec _ => .exec argv
  | .redir c f m fd => .redir (c.setArgv argv) f m fd
  | c => c

/-- The loop of `parseexec`: `argv` holds the words read so far, `ret` the exec node
inside the redirections read so far. -/
def parseexecLoop (argv : List (List Char)) (ret : Cmd) (ps : List Char) :
    Option (Cmd × Cursor ps) :=
  if peek ps ['|', ')', '&', ';'] = true then some (ret.setArgv argv, .skip ps)
  else
    let tok := gettoken ps
    if _h : tok.ret = nul then some (ret.setArgv argv, ⟨tok.ps, gettoken_suffix ps⟩)
    -- `panic("syntax")`
    else if tok.ret ≠ 'a' then none
    -- `panic("too many args")`
    else if maxargs ≤ (argv ++ [span tok.q tok.eq]).length then none
    else
      match parseredirs ret tok.ps with
      | none => none
      | some (ret', ps₁) =>
        (parseexecLoop (argv ++ [span tok.q tok.eq]) ret' ps₁.1).map
          fun r => (r.1, r.2.widen (ps₁.2.trans (gettoken_suffix ps)))
termination_by ps.length
decreasing_by exact lt_of_le_of_lt ps₁.2.length_le (gettoken_lt _h)

/-- The loop `while(peek(ps, es, "&"))` of `parseline`. -/
def parselineLoop (cmd : Cmd) (ps : List Char) : Cmd × Cursor ps :=
  if _h : peek ps ['&'] = true then
    let r := parselineLoop (.back cmd) (gettoken ps).ps
    (r.1, r.2.widen (gettoken_suffix ps))
  else (cmd, .skip ps)
termination_by ps.length
decreasing_by exact gettoken_lt (gettoken_ret_of_peek _h)

mutual

/-- `parseline`. -/
def parseline (ps : List Char) : Option (Cmd × Cursor ps) :=
  match parsepipe ps with
  | none => none
  | some (cmd, ps₁) =>
    let r := parselineLoop cmd ps₁.1
    if _h : peek r.2.1 [';'] = true then
      (parseline (gettoken r.2.1).ps).map
        fun l => (.list r.1 l.1, l.2.widen (((gettoken_suffix _).trans r.2.2).trans ps₁.2))
    else some (r.1, (Cursor.skip r.2.1).widen (r.2.2.trans ps₁.2))
termination_by (ps.length, 3)
decreasing_by
  · exact Prod.Lex.right _ (by decide)
  · exact Prod.Lex.left _ _ (lt_of_lt_of_le (gettoken_lt (gettoken_ret_of_peek _h))
      (r.2.2.trans ps₁.2).length_le)

/-- `parsepipe`. -/
def parsepipe (ps : List Char) : Option (Cmd × Cursor ps) :=
  match parseexec ps with
  | none => none
  | some (cmd, ps₁) =>
    if _h : peek ps₁.1 ['|'] = true then
      (parsepipe (gettoken ps₁.1).ps).map
        fun p => (.pipe cmd p.1, p.2.widen ((gettoken_suffix _).trans ps₁.2))
    else some (cmd, (Cursor.skip ps₁.1).widen ps₁.2)
termination_by (ps.length, 2)
decreasing_by
  · exact Prod.Lex.right _ (by decide)
  · exact Prod.Lex.left _ _ (lt_of_lt_of_le (gettoken_lt (gettoken_ret_of_peek _h))
      ps₁.2.length_le)

/-- `parseexec`. -/
def parseexec (ps : List Char) : Option (Cmd × Cursor ps) :=
  if peek ps ['('] = true then parseblock ps
  else
    match parseredirs (.exec []) ps with
    | none => none
    | some (ret, ps₁) => (parseexecLoop [] ret ps₁.1).map fun r => (r.1, r.2.widen ps₁.2)
termination_by (ps.length, 1)
decreasing_by exact Prod.Lex.right _ (by decide)

/-- `parseblock`. -/
def parseblock (ps : List Char) : Option (Cmd × Cursor ps) :=
  if _h : peek ps ['('] = true then
    match parseline (gettoken ps).ps with
    | none => none
    | some (cmd, ps₁) =>
      if peek ps₁.1 [')'] = true then
        (parseredirs cmd (gettoken ps₁.1).ps).map
          fun r => (r.1, r.2.widen (((gettoken_suffix _).trans ps₁.2).trans (gettoken_suffix ps)))
      -- `panic("syntax - missing )")`
      else none
  -- `panic("parseblock")`
  else none
termination_by (ps.length, 0)
decreasing_by exact Prod.Lex.left _ _ (gettoken_lt (gettoken_ret_of_peek _h))

end

/-- `parsecmd`: the line is the string up to its NUL; what is left after the line
is whitespace, or the parse fails with `"leftovers"`. -/
def parsecmd (s : List Char) : Option Cmd :=
  match parseline (s.takeWhile (· ≠ nul)) with
  | none => none
  | some (cmd, ps) => if skipws ps.1 = [] then some cmd else none

/-! ### One equation for each parse function

The parse functions carry the bound on their cursor for their termination.  These
equations state them on plain lists; the proofs below use only them. -/

/-- A parse result, with its cursor as a plain list. -/
def out {ps : List Char} (r : Option (Cmd × Cursor ps)) : Option (Cmd × List Char) :=
  r.map fun p => (p.1, p.2.1)

@[simp] theorem out_some {ps : List Char} (c : Cmd) (t : Cursor ps) : out (some (c, t)) = some (c, t.1) :=
  rfl

@[simp] theorem out_map {ps ps' : List Char} (r : Option (Cmd × Cursor ps')) (g : Cmd → Cmd)
    (h : ps' <:+ ps) : out (r.map fun p => (g p.1, p.2.widen h)) = (out r).map fun p => (g p.1, p.2) := by
  cases r <;> rfl

@[simp] theorem out_map_id {ps ps' : List Char} (r : Option (Cmd × Cursor ps')) (h : ps' <:+ ps) :
    out (r.map fun p => (p.1, p.2.widen h)) = out r := by
  rcases r with _ | ⟨c, t⟩ <;> rfl

theorem out_parseredirs (cmd : Cmd) (ps : List Char) :
    out (parseredirs cmd ps) =
      if peek ps ['<', '>'] = true then
        if (gettoken (gettoken ps).ps).ret ≠ 'a' then none
        else out (parseredirs (redirect (gettoken ps).ret cmd
          (span (gettoken (gettoken ps).ps).q (gettoken (gettoken ps).ps).eq))
          (gettoken (gettoken ps).ps).ps)
      else some (cmd, skipws ps) := by
  rw [parseredirs]
  dsimp only
  split_ifs
  · rfl
  · exact out_map_id _ _
  · rfl

theorem out_parseexecLoop (argv : List (List Char)) (ret : Cmd) (ps : List Char) :
    out (parseexecLoop argv ret ps) =
      if peek ps ['|', ')', '&', ';'] = true then some (ret.setArgv argv, skipws ps)
      else if (gettoken ps).ret = nul then some (ret.setArgv argv, (gettoken ps).ps)
      else if (gettoken ps).ret ≠ 'a' then none
      else if maxargs ≤ (argv ++ [span (gettoken ps).q (gettoken ps).eq]).length then none
      else (out (parseredirs ret (gettoken ps).ps)).bind fun r =>
        out (parseexecLoop (argv ++ [span (gettoken ps).q (gettoken ps).eq]) r.1 r.2) := by
  rw [parseexecLoop]
  dsimp only
  split_ifs
  · rfl
  · rfl
  · rfl
  · rfl
  · rcases parseredirs ret (gettoken ps).ps with _ | ⟨ret', t⟩
    · rfl
    · exact out_map_id _ _

/-- `parselineLoop` puts one `back` node around the command for each `&`. -/
theorem parselineLoop_eq (cmd : Cmd) (ps : List Char) :
    ((parselineLoop cmd ps).1, (parselineLoop cmd ps).2.1) =
      if peek ps ['&'] = true then
        ((parselineLoop (.back cmd) (gettoken ps).ps).1, (parselineLoop (.back cmd) (gettoken ps).ps).2.1)
      else (cmd, skipws ps) := by
  rw [parselineLoop]
  split_ifs <;> rfl

/-- The start of `parseline`: a pipeline and the `&`s after it. -/
def parseback (ps : List Char) : Option (Cmd × List Char) :=
  (out (parsepipe ps)).map fun p => ((parselineLoop p.1 p.2).1, (parselineLoop p.1 p.2).2.1)

theorem out_parseline (ps : List Char) :
    out (parseline ps) = (parseback ps).bind fun p =>
      if peek p.2 [';'] = true then (out (parseline (gettoken p.2).ps)).map fun l => (.list p.1 l.1, l.2)
      else some (p.1, skipws p.2) := by
  rw [parseline, parseback]
  rcases parsepipe ps with _ | ⟨cmd, t⟩
  · rfl
  · simp only [out_some, Option.map_some, Option.bind_some]
    split_ifs
    · exact out_map _ _ _
    · rfl

theorem out_parsepipe (ps : List Char) :
    out (parsepipe ps) = (out (parseexec ps)).bind fun p =>
      if peek p.2 ['|'] = true then (out (parsepipe (gettoken p.2).ps)).map fun q => (.pipe p.1 q.1, q.2)
      else some (p.1, skipws p.2) := by
  rw [parsepipe]
  rcases parseexec ps with _ | ⟨cmd, t⟩
  · rfl
  · simp only [out_some, Option.bind_some]
    split_ifs
    · exact out_map _ _ _
    · rfl

theorem out_parseexec (ps : List Char) :
    out (parseexec ps) =
      if peek ps ['('] = true then out (parseblock ps)
      else (out (parseredirs (.exec []) ps)).bind fun p => out (parseexecLoop [] p.1 p.2) := by
  rw [parseexec]
  split_ifs
  · rfl
  · rcases parseredirs (.exec []) ps with _ | ⟨ret, t⟩
    · rfl
    · exact out_map_id _ _

theorem out_parseblock (ps : List Char) :
    out (parseblock ps) =
      if peek ps ['('] = true then
        (out (parseline (gettoken ps).ps)).bind fun p =>
          if peek p.2 [')'] = true then out (parseredirs p.1 (gettoken p.2).ps) else none
      else none := by
  rw [parseblock]
  split_ifs
  · rcases parseline (gettoken ps).ps with _ | ⟨cmd, t⟩
    · rfl
    · simp only [out_some, Option.bind_some]
      split_ifs
      · exact out_map_id _ _
      · rfl
  · rfl

theorem parsecmd_eq (s : List Char) :
    parsecmd s = (out (parseline (s.takeWhile (· ≠ nul)))).bind fun p =>
      if skipws p.2 = [] then some p.1 else none := by
  rw [parsecmd]
  rcases parseline (s.takeWhile (· ≠ nul)) with _ | ⟨cmd, t⟩ <;> rfl

/-! ### Well-formed trees and their text -/

/-- A word `gettoken` reads whole: a nonempty run of characters that are neither
whitespace, nor symbols, nor the NUL that ends the line. -/
def IsWord (w : List Char) : Prop := w ≠ [] ∧ ∀ x ∈ w, x ∉ whitespace ∧ x ∉ symbols ∧ x ≠ nul

instance : DecidablePred IsWord := fun _ => inferInstanceAs (Decidable (_ ∧ _))

/-- A redirection `parseredirs` builds: of a file for reading (`<`), or for
writing (`>` and `>>`). -/
def RedirWf (file : List Char) (mode fd : ℕ) : Prop :=
  IsWord file ∧ (mode = oRdonly ∧ fd = 0 ∨ mode = oWronly ||| oCreate ∧ fd = 1)

instance (file : List Char) (mode fd : ℕ) : Decidable (RedirWf file mode fd) :=
  inferInstanceAs (Decidable (_ ∧ _))

/-- The trees the parser builds: exec nodes of fewer than `MAXARGS` words, and
redirections `RedirWf`. -/
def Cmd.Wf : Cmd → Prop
  | .exec argv => argv.length < maxargs ∧ ∀ w ∈ argv, IsWord w
  | .redir c f m fd => c.Wf ∧ RedirWf f m fd
  | .pipe l r => l.Wf ∧ r.Wf
  | .list l r => l.Wf ∧ r.Wf
  | .back c => c.Wf

instance Cmd.decWf : (c : Cmd) → Decidable c.Wf
  | .exec _ => inferInstanceAs (Decidable (_ ∧ _))
  | .redir c _ _ _ => have := Cmd.decWf c; inferInstanceAs (Decidable (_ ∧ _))
  | .pipe l r => have := Cmd.decWf l; have := Cmd.decWf r; inferInstanceAs (Decidable (_ ∧ _))
  | .list l r => have := Cmd.decWf l; have := Cmd.decWf r; inferInstanceAs (Decidable (_ ∧ _))
  | .back c => Cmd.decWf c

/-- `t` in parentheses, when `b`. -/
def paren (b : Bool) (t : List Char) : List Char := if b then '(' :: t ++ [')'] else t

/-- The token of a redirection: `<` to read a file, `>` to write one. -/
def redirTok (mode fd : ℕ) : Char := if mode = oRdonly ∧ fd = 0 then '<' else '>'

/-- A text for a tree, at a level of the grammar: 0 for an exec or a block, 1 for a
pipeline, 2 for a pipeline and its `&`s, 3 for a line.  A tree of a looser level than
its place is put in parentheses; words are separated by one blank, and nothing
else is. -/
def Cmd.print : ℕ → Cmd → List Char
  | _, .exec argv => [' '].intercalate argv
  | _, .redir c f m fd => c.print 0 ++ redirTok m fd :: f
  | k, .pipe l r => paren (k < 1) (l.print 0 ++ '|' :: r.print 1)
  | k, .back c => paren (k < 2) (c.print 2 ++ ['&'])
  | k, .list l r => paren (k < 3) (l.print 2 ++ ';' :: r.print 3)

/-- The level of the grammar a tree belongs to, as in `Cmd.print`. -/
def Cmd.level : Cmd → ℕ
  | .exec _ | .redir .. => 0
  | .pipe .. => 1
  | .back _ => 2
  | .list .. => 3

theorem print_of_level_le {c : Cmd} {k : ℕ} (h : c.level ≤ k) : c.print k = c.print 3 := by
  cases c with
  | exec argv => rfl
  | redir c f m fd => rfl
  | pipe l r =>
    have : ¬k < 1 := by simp only [Cmd.level] at h; omega
    simp [Cmd.print, paren, this]
  | back c =>
    have : ¬k < 2 := by simp only [Cmd.level] at h; omega
    simp [Cmd.print, paren, this]
  | list l r =>
    have : ¬k < 3 := by simp only [Cmd.level] at h; omega
    simp [Cmd.print, paren, this]

theorem print_of_lt_level {c : Cmd} {k : ℕ} (h : k < c.level) :
    c.print k = '(' :: c.print 3 ++ [')'] := by
  cases c with
  | exec argv => simp [Cmd.level] at h
  | redir c f m fd => simp [Cmd.level] at h
  | pipe l r =>
    have : k < 1 := by simpa only [Cmd.level] using h
    simp [Cmd.print, paren, this]
  | back c =>
    have : k < 2 := by simpa only [Cmd.level] using h
    simp [Cmd.print, paren, this]
  | list l r =>
    have : k < 3 := by simpa only [Cmd.level] using h
    simp [Cmd.print, paren, this]

/-- The text that follows: the end of the line, or one of `toks`. -/
def Before (toks rest : List Char) : Prop := ∀ x ∈ rest.head?, x ∈ toks

@[simp] theorem before_nil (toks : List Char) : Before toks [] := by simp [Before]

@[simp] theorem before_cons {toks rest : List Char} {x : Char} : Before toks (x :: rest) ↔ x ∈ toks := by
  simp [Before]

theorem Before.mono {toks toks' rest : List Char} (h : Before toks rest) (ht : ∀ x ∈ toks, x ∈ toks') :
    Before toks' rest := fun x hx => ht x (h x hx)

theorem not_whitespace_of_symbol {x : Char} (h : x ∈ symbols) : x ∉ whitespace := by
  simp only [symbols, List.mem_cons, List.not_mem_nil, or_false] at h
  rcases h with rfl | rfl | rfl | rfl | rfl | rfl | rfl <;> decide

theorem nul_of_symbol {x : Char} (h : x ∈ symbols) : x ≠ nul := by
  simp only [symbols, List.mem_cons, List.not_mem_nil, or_false] at h
  rcases h with rfl | rfl | rfl | rfl | rfl | rfl | rfl <;> decide

/-! ### The tokenizer on the text of a tree -/

theorem skipws_of_head {s : List Char} (h : ∀ x ∈ s.head?, x ∉ whitespace) : skipws s = s := by
  cases s with
  | nil => rfl
  | cons c s => simp_all [skipws]

theorem Before.skipws {toks rest : List Char} (h : Before toks rest) (ht : ∀ x ∈ toks, x ∈ symbols) :
    skipws rest = rest :=
  skipws_of_head fun x hx => not_whitespace_of_symbol (ht x (h x hx))

/-- `peek` at a character that is not whitespace: whether it is one of `toks`. -/
theorem peek_cons {c : Char} {s toks : List Char} (hc : c ∉ whitespace) (hn : c ≠ nul)
    (ht : nul ∉ toks) : peek (c :: s) toks = decide (c ∈ toks) := by
  simp [peek, skipws, hc, hn, isSome_strchr ht]

/-- `peek` at a symbol. -/
theorem peek_symbol {c : Char} {s toks : List Char} (hc : c ∈ symbols) (ht : nul ∉ toks) :
    peek (c :: s) toks = decide (c ∈ toks) :=
  peek_cons (not_whitespace_of_symbol hc) (nul_of_symbol hc) ht

/-- `peek` where a text stops: it sees none of `toks` if the text is followed by
none of them. -/
theorem Before.peek {toks toks' rest : List Char} (h : Before toks' rest)
    (ht : ∀ x ∈ toks', x ∈ symbols ∧ x ∉ toks) (hn : nul ∉ toks) : Sh.peek rest toks = false := by
  cases rest with
  | nil => rfl
  | cons x rest =>
    have hx := ht x (before_cons.mp h)
    simp [peek_symbol hx.1 hn, hx.2]

/-- `gettoken` at one of the symbols it returns as they are. -/
theorem gettoken_symbol {c : Char} {s : List Char} (hc : c ∈ ['|', '(', ')', ';', '&', '<'])
    (hs : ∀ x ∈ s.head?, x ∉ whitespace) : gettoken (c :: s) = ⟨c, c :: s, s, s⟩ := by
  have hsym : c ∈ symbols := by
    simp only [List.mem_cons, List.not_mem_nil, or_false] at hc
    rcases hc with rfl | rfl | rfl | rfl | rfl | rfl <;> decide
  simp [gettoken, skipws_of_head (s := c :: s) (by simpa using not_whitespace_of_symbol hsym),
    scan, nul_of_symbol hsym, hc, skipws_of_head hs]

/-- `gettoken` at a redirection of a file. -/
theorem gettoken_redir {m fd : ℕ} {f s : List Char} (hf : IsWord f) :
    gettoken (redirTok m fd :: (f ++ s)) = ⟨redirTok m fd, redirTok m fd :: (f ++ s), f ++ s, f ++ s⟩ := by
  obtain ⟨c, f, rfl⟩ := List.exists_cons_of_ne_nil hf.1
  obtain ⟨hws, hsym, -⟩ := hf.2 c List.mem_cons_self
  have hgt : c ≠ '>' := fun h => hsym (h ▸ by decide)
  have hhead : ∀ x ∈ ((c :: f) ++ s).head?, x ∉ whitespace := by simpa using hws
  unfold redirTok
  split_ifs
  · exact gettoken_symbol (by decide) hhead
  · -- `>` followed by a word is not `>>`
    have hgtws : '>' ∉ whitespace := not_whitespace_of_symbol (by decide)
    have h₁ : skipws ('>' :: ((c :: f) ++ s)) = '>' :: ((c :: f) ++ s) :=
      skipws_of_head (by simpa using hgtws)
    have h₂ : scan ('>' :: ((c :: f) ++ s)) = ('>', (c :: f) ++ s) := by
      simp [scan, hgt, nul]
    simp only [gettoken, h₁, h₂, skipws_of_head hhead]

/-- `gettoken` at a word that ends before whitespace, a symbol or the end. -/
theorem gettoken_word {w s : List Char} (hw : IsWord w)
    (hs : ∀ x ∈ s.head?, x ∈ whitespace ∨ x ∈ symbols) :
    gettoken (w ++ s) = ⟨'a', w ++ s, s, skipws s⟩ := by
  obtain ⟨c, w', rfl⟩ := List.exists_cons_of_ne_nil hw.1
  obtain ⟨hws, hsym, hn⟩ := hw.2 c List.mem_cons_self
  have hnot : c ∉ ['|', '(', ')', ';', '&', '<'] ∧ c ≠ '>' := by
    constructor <;> intro h <;> apply hsym
    · simp only [List.mem_cons, List.not_mem_nil, or_false] at h
      rcases h with rfl | rfl | rfl | rfl | rfl | rfl <;> decide
    · exact h ▸ by decide
  -- the word runs to `s`, where `gettoken`'s loop stops
  have hdrop : ((c :: w') ++ s).dropWhile
      (fun x => !(strchr whitespace x).isSome && !(strchr symbols x).isSome) = s := by
    rw [List.dropWhile_append_of_pos (fun a ha => by simp [(hw.2 a ha).1, (hw.2 a ha).2.1])]
    cases s with
    | nil => rfl
    | cons x s =>
      have := hs x rfl
      simp only [List.dropWhile_cons, strchr_whitespace, strchr_symbols]
      rcases this with h | h <;> simp [h]
  have hskip : skipws ((c :: w') ++ s) = (c :: w') ++ s := skipws_of_head (by simpa using hws)
  simp only [gettoken, hskip]
  simp only [List.cons_append, scan, hn, hnot, ↓reduceIte] at hdrop ⊢
  rw [hdrop]

theorem span_append (w s : List Char) : span (w ++ s) s = w := by
  simp [span]

/-! ### Redirections and words -/

/-- A text that starts with a character of a word. -/
def StartsWord (s : List Char) : Prop :=
  ∃ c t, s = c :: t ∧ c ∉ whitespace ∧ c ∉ symbols ∧ c ≠ nul

/-- Words separated by blanks start with the first word. -/
theorem startsWord_words {w : List Char} (hw : IsWord w) (ws : List (List Char)) (s : List Char) :
    StartsWord ([' '].intercalate (w :: ws) ++ s) := by
  obtain ⟨c, v, rfl⟩ := List.exists_cons_of_ne_nil hw.1
  exact ⟨c, _, by rw [List.intercalate_cons_cons_left, List.cons_append], hw.2 c List.mem_cons_self⟩

theorem StartsWord.skipws {s : List Char} (h : StartsWord s) : Sh.skipws s = s := by
  obtain ⟨c, t, rfl, hc, -⟩ := h
  exact skipws_of_head (by simpa using hc)

theorem StartsWord.peek {s toks : List Char} (h : StartsWord s) (ht : ∀ x ∈ toks, x ∈ symbols) :
    Sh.peek s toks = false := by
  obtain ⟨c, t, rfl, hc, hsym, hn⟩ := h
  rw [peek_cons hc hn fun h => nul_of_symbol (ht _ h) rfl]
  simpa using fun h => hsym (ht c h)

/-- Redirections around a command, the last outermost, as `parseredirs` builds them. -/
def wrap (c : Cmd) : List (List Char × ℕ × ℕ) → Cmd
  | [] => c
  | (f, m, fd) :: rs => wrap (.redir c f m fd) rs

/-- The text of redirections. -/
def redirsText (rs : List (List Char × ℕ × ℕ)) : List Char :=
  rs.flatMap fun r => redirTok r.2.1 r.2.2 :: r.1

theorem setArgv_wrap (argv : List (List Char)) (c : Cmd) (rs : List (List Char × ℕ × ℕ)) :
    (wrap c rs).setArgv argv = wrap (c.setArgv argv) rs := by
  induction rs generalizing c with
  | nil => rfl
  | cons r rs ih => exact ih _

theorem redirTok_mem (m fd : ℕ) : redirTok m fd ∈ ['<', '>'] := by
  unfold redirTok
  split_ifs <;> decide

theorem redirTok_symbol (m fd : ℕ) : redirTok m fd ∈ symbols := by
  unfold redirTok
  split_ifs <;> decide

theorem redirect_redirTok {m fd : ℕ} (h : m = oRdonly ∧ fd = 0 ∨ m = oWronly ||| oCreate ∧ fd = 1)
    (cmd : Cmd) (f : List Char) : redirect (redirTok m fd) cmd f = .redir cmd f m fd := by
  rcases h with ⟨rfl, rfl⟩ | ⟨rfl, rfl⟩ <;> rfl

/-- Redirections start with `<` or `>`. -/
theorem Before.redirsText {toks rest : List Char} (h : Before toks rest) (rs : List (List Char × ℕ × ℕ)) :
    Before ('<' :: '>' :: toks) (Sh.redirsText rs ++ rest) := by
  cases rs with
  | nil => exact h.mono fun x hx => by simp [hx]
  | cons r rs =>
    have := redirTok_mem r.2.1 r.2.2
    simp only [List.mem_cons, List.not_mem_nil, or_false] at this
    simp only [Sh.redirsText, List.flatMap_cons, List.cons_append, before_cons, List.mem_cons]
    tauto

/-- `parseredirs` reads nothing where no redirection starts. -/
theorem parseredirs_of_peek {cmd : Cmd} {ps : List Char} (h : peek ps ['<', '>'] = false) :
    out (parseredirs cmd ps) = some (cmd, skipws ps) := by
  rw [out_parseredirs, if_neg (by simp [h])]

/-- `parseredirs` reads the redirections of a text, up to where the exec or block
ends. -/
theorem parseredirs_text (cmd : Cmd) {rs : List (List Char × ℕ × ℕ)}
    (hrs : ∀ r ∈ rs, RedirWf r.1 r.2.1 r.2.2) {rest : List Char}
    (hrest : Before ['|', ')', '&', ';'] rest) :
    out (parseredirs cmd (redirsText rs ++ rest)) = some (wrap cmd rs, rest) := by
  induction rs generalizing cmd with
  | nil =>
    have hp : peek rest ['<', '>'] = false := hrest.peek (by simp [symbols]) (by decide)
    have hs : skipws rest = rest := hrest.skipws (by simp [symbols])
    rw [redirsText, List.flatMap_nil, List.nil_append, parseredirs_of_peek hp, hs]
    rfl
  | cons r rs ih =>
    obtain ⟨f, m, fd⟩ := r
    obtain ⟨hf, hm⟩ := hrs _ List.mem_cons_self
    have hnext : Before symbols (redirsText rs ++ rest) :=
      (hrest.redirsText rs).mono (by simp [symbols])
    have hpeek : peek (redirTok m fd :: (f ++ (redirsText rs ++ rest))) ['<', '>'] = true := by
      rw [peek_symbol (redirTok_symbol m fd) (by decide)]
      simpa using redirTok_mem m fd
    have htext : redirsText ((f, m, fd) :: rs) ++ rest =
        redirTok m fd :: (f ++ (redirsText rs ++ rest)) := by
      simp [redirsText]
    have hfile := gettoken_word hf (s := redirsText rs ++ rest) fun x hx => .inr (hnext x hx)
    have hs : skipws (redirsText rs ++ rest) = redirsText rs ++ rest := hnext.skipws fun _ h => h
    rw [htext, out_parseredirs, if_pos hpeek, gettoken_redir hf, hfile]
    simp only [ne_eq, not_true_eq_false, ↓reduceIte, span_append, redirect_redirTok hm]
    rw [hs]
    exact ih _ fun r hr => hrs r (List.mem_cons_of_mem _ hr)

/-- The loop of `parseexec` stops where the exec ends. -/
theorem parseexecLoop_stop (argv : List (List Char)) (ret : Cmd) {rest : List Char}
    (hrest : Before ['|', ')', '&', ';'] rest) :
    out (parseexecLoop argv ret rest) = some (ret.setArgv argv, rest) := by
  rw [out_parseexecLoop]
  cases rest with
  | nil => rfl
  | cons x rest =>
    have hx : x ∈ ['|', ')', '&', ';'] := before_cons.mp hrest
    have hsym : x ∈ symbols := (by simp [symbols] : ∀ y ∈ ['|', ')', '&', ';'], y ∈ symbols) x hx
    rw [if_pos (by rw [peek_symbol hsym (by decide)]; simpa using hx),
      hrest.skipws (by simp [symbols])]

/-- One turn of the loop of `parseexec`, at a word. -/
theorem parseexecLoop_word {acc : List (List Char)} {ret : Cmd} {w s : List Char} (hw : IsWord w)
    (hs : ∀ x ∈ s.head?, x ∈ whitespace ∨ x ∈ symbols) (hlen : (acc ++ [w]).length < maxargs) :
    out (parseexecLoop acc ret (w ++ s)) =
      (out (parseredirs ret (skipws s))).bind fun p => out (parseexecLoop (acc ++ [w]) p.1 p.2) := by
  have hpeek : peek (w ++ s) ['|', ')', '&', ';'] = false := by
    simpa using (startsWord_words hw [] s).peek (by simp [symbols])
  rw [out_parseexecLoop, if_neg (by simp [hpeek]), gettoken_word hw hs]
  simp only [span_append]
  rw [if_neg (by decide), if_neg (by decide), if_neg (by simpa using hlen)]

/-- The loop of `parseexec` reads the words of an exec, each maybe followed by
redirections: here all of them follow the last word, in the text `tail`. -/
theorem parseexecLoop_words {tail rest : List Char} {g : Cmd → Cmd}
    (htail : Before symbols tail) (hred : ∀ ret, out (parseredirs ret tail) = some (g ret, rest))
    (hrest : Before ['|', ')', '&', ';'] rest) (ws : List (List Char)) :
    ∀ (acc : List (List Char)) (w : List Char) (ret : Cmd), (acc ++ w :: ws).length < maxargs →
      (∀ v ∈ w :: ws, IsWord v) →
      out (parseexecLoop acc ret ([' '].intercalate (w :: ws) ++ tail)) =
        some ((g ret).setArgv (acc ++ w :: ws), rest) := by
  have hs : skipws tail = tail := htail.skipws fun _ h => h
  induction ws with
  | nil =>
    intro acc w ret hlen hw
    rw [List.intercalate_singleton, parseexecLoop_word (hw w List.mem_cons_self)
      (fun x hx => .inr (htail x hx)) hlen, hs, hred, Option.bind_some, parseexecLoop_stop _ _ hrest]
  | cons w' ws ih =>
    intro acc w ret hlen hw
    have hw₁ := hw w' (List.mem_cons_of_mem _ List.mem_cons_self)
    have hnext := startsWord_words hw₁ ws tail
    -- after a word and its blank comes the next word, with no redirection between them
    have hblank : skipws (' ' :: ([' '].intercalate (w' :: ws) ++ tail)) =
        [' '].intercalate (w' :: ws) ++ tail := by
      rw [skipws, List.dropWhile_cons_of_pos (by decide), ← skipws, hnext.skipws]
    have hlen' : (acc ++ [w]).length < maxargs := by
      simp only [List.length_append, List.length_cons, List.length_nil] at hlen ⊢
      omega
    rw [List.intercalate_cons_cons, List.append_assoc, List.append_assoc,
      parseexecLoop_word (hw w List.mem_cons_self) (fun x hx => .inl (by simp at hx; subst hx; decide)) hlen',
      List.singleton_append, hblank, parseredirs_of_peek (hnext.peek (by simp [symbols])),
      hnext.skipws, Option.bind_some, ih (acc ++ [w]) w' ret (by simpa using hlen)
        (fun v hv => hw v (List.mem_cons_of_mem _ hv))]
    simp

/-! ### Reading a tree back from its text -/

/-- A character of words separated by blanks is a blank or one of a word. -/
theorem mem_words {x : Char} : ∀ {ws : List (List Char)}, x ∈ [' '].intercalate ws →
    x = ' ' ∨ ∃ w ∈ ws, x ∈ w
  | [], h => by simp at h
  | [w], h => .inr ⟨w, List.mem_singleton_self w, by simpa using h⟩
  | w :: w' :: ws, h => by
    rw [List.intercalate_cons_cons] at h
    simp only [List.mem_append, List.mem_singleton] at h
    rcases h with (h | h) | h
    · exact .inr ⟨w, List.mem_cons_self, h⟩
    · exact .inl h
    · rcases mem_words h with h | ⟨v, hv, hx⟩
      · exact .inl h
      · exact .inr ⟨v, List.mem_cons_of_mem _ hv, hx⟩

/-- The text of a tree holds no NUL. -/
theorem nul_not_mem_print {c : Cmd} (hc : c.Wf) (k : ℕ) : nul ∉ c.print k := by
  induction c generalizing k with
  | exec argv =>
    intro h
    rcases mem_words h with h | ⟨w, hw, hx⟩
    · exact absurd h (by decide)
    · exact (hc.2 w hw).2 nul hx |>.2.2 rfl
  | redir c f m fd ih =>
    simp only [Cmd.print, List.mem_append, List.mem_cons, not_or]
    exact ⟨ih hc.1 0, fun h => nul_of_symbol (redirTok_symbol m fd) h.symm,
      fun h => (hc.2.1.2 nul h).2.2 rfl⟩
  | pipe l r ihl ihr =>
    have h₁ := ihl hc.1 0
    have h₂ := ihr hc.2 1
    simp only [nul] at h₁ h₂
    simp only [Cmd.print, paren, nul]
    split_ifs <;> simp [h₁, h₂]
  | list l r ihl ihr =>
    have h₁ := ihl hc.1 2
    have h₂ := ihr hc.2 3
    simp only [nul] at h₁ h₂
    simp only [Cmd.print, paren, nul]
    split_ifs <;> simp [h₁, h₂]
  | back c ih =>
    have h₁ := ih hc 2
    simp only [nul] at h₁
    simp only [Cmd.print, paren, nul]
    split_ifs <;> simp [h₁]

/-- A text that starts with a symbol starts with no whitespace. -/
theorem head_symbol {c : Char} (hc : c ∈ symbols) (s : List Char) :
    ∀ x ∈ (c :: s).head?, x ∉ whitespace := by
  simpa using not_whitespace_of_symbol hc

/-- The text of a tree starts with no whitespace. -/
theorem head_print {c : Cmd} (hc : c.Wf) (k : ℕ) {s : List Char}
    (hs : ∀ x ∈ s.head?, x ∉ whitespace) : ∀ x ∈ (c.print k ++ s).head?, x ∉ whitespace := by
  induction c generalizing k s with
  | exec argv =>
    cases argv with
    | nil => simpa [Cmd.print] using hs
    | cons w ws =>
      obtain ⟨x, t, h, hx, -⟩ := startsWord_words (hc.2 w List.mem_cons_self) ws s
      simp only [Cmd.print]
      rw [h]
      simpa using hx
  | redir c f m fd ih =>
    simp only [Cmd.print, List.append_assoc, List.cons_append]
    exact ih hc.1 0 (head_symbol (redirTok_symbol m fd) _)
  | pipe l r ihl ihr =>
    simp only [Cmd.print, paren]
    split_ifs
    · exact head_symbol (by decide) _
    · rw [List.append_assoc, List.cons_append]
      exact ihl hc.1 0 (head_symbol (by decide) _)
  | list l r ihl ihr =>
    simp only [Cmd.print, paren]
    split_ifs
    · exact head_symbol (by decide) _
    · rw [List.append_assoc, List.cons_append]
      exact ihl hc.1 2 (head_symbol (by decide) _)
  | back c ih =>
    simp only [Cmd.print, paren]
    split_ifs
    · exact head_symbol (by decide) _
    · rw [List.append_assoc, List.singleton_append]
      exact ih hc 2 (head_symbol (by decide) _)

/-- Between two levels a tree does not change level, its text is the same. -/
theorem print_congr {c : Cmd} {j k : ℕ} (h : c.level ≤ j ∨ k < c.level) (hjk : j ≤ k) :
    c.print j = c.print k := by
  rcases h with h | h
  · rw [print_of_level_le h, print_of_level_le (h.trans hjk)]
  · rw [print_of_lt_level (lt_of_le_of_lt hjk h), print_of_lt_level h]

/-- `peek` at the one symbol it looks for. -/
theorem peek_self {c : Char} {s : List Char} (hc : c ∈ symbols) : peek (c :: s) [c] = true := by
  rw [peek_symbol hc (by simpa using (nul_of_symbol hc).symm)]
  simp

/-- The `&`s after a pipeline each put a `back` node around it. -/
theorem parselineLoop_amps (cmd : Cmd) (n : ℕ) {rest : List Char} (hrest : Before [')', ';'] rest) :
    ((parselineLoop cmd (List.replicate n '&' ++ rest)).1,
      (parselineLoop cmd (List.replicate n '&' ++ rest)).2.1) = (Cmd.back^[n] cmd, rest) := by
  induction n generalizing cmd with
  | zero =>
    have hp : peek rest ['&'] = false := hrest.peek (by simp [symbols]) (by decide)
    rw [List.replicate_zero, List.nil_append, parselineLoop_eq, if_neg (by simp [hp]),
      hrest.skipws (by simp [symbols])]
    rfl
  | succ n ih =>
    have hnext : ∀ x ∈ (List.replicate n '&' ++ rest).head?, x ∉ whitespace := by
      have : Before symbols (List.replicate n '&' ++ rest) := by
        cases n with
        | zero => simpa using hrest.mono (by simp [symbols])
        | succ n => simp [List.replicate_succ, symbols]
      exact fun x hx => not_whitespace_of_symbol (this x hx)
    rw [List.replicate_succ, List.cons_append, parselineLoop_eq, if_pos (peek_self (by decide)),
      gettoken_symbol (by decide) hnext, Function.iterate_succ_apply]
    exact ih _

/-- What `parseexec` reads from the text of a tree at level 0 followed by
redirections. -/
def ReadsExec (c : Cmd) : Prop :=
  ∀ rs rest, (∀ r ∈ rs, RedirWf r.1 r.2.1 r.2.2) → Before ['|', ')', '&', ';'] rest →
    out (parseexec (c.print 0 ++ (redirsText rs ++ rest))) = some (wrap c rs, rest)

/-- What `parsepipe` reads from the text of a tree at level 1. -/
def ReadsPipe (c : Cmd) : Prop :=
  ∀ rest, Before [')', '&', ';'] rest → out (parsepipe (c.print 1 ++ rest)) = some (c, rest)

/-- What the start of `parseline` reads from the text of a tree at level 2 followed
by `&`s. -/
def ReadsBack (c : Cmd) : Prop :=
  ∀ n rest, Before [')', ';'] rest →
    parseback (c.print 2 ++ (List.replicate n '&' ++ rest)) = some (Cmd.back^[n] c, rest)

/-- What `parseline` reads from the text of a tree at level 3. -/
def ReadsLine (c : Cmd) : Prop :=
  ∀ rest, Before [')'] rest → out (parseline (c.print 3 ++ rest)) = some (c, rest)

theorem readsExec_exec {argv : List (List Char)} (h : (Cmd.exec argv).Wf) :
    ReadsExec (.exec argv) := by
  intro rs rest hrs hrest
  have hT := hrest.redirsText rs
  cases argv with
  | nil =>
    have hp : peek (redirsText rs ++ rest) ['('] = false := hT.peek (by simp [symbols]) (by decide)
    rw [Cmd.print, List.intercalate_nil, List.nil_append, out_parseexec, if_neg (by simp [hp]),
      parseredirs_text _ hrs hrest, Option.bind_some, parseexecLoop_stop _ _ hrest, setArgv_wrap]
    rfl
  | cons w ws =>
    have hs := startsWord_words (h.2 w List.mem_cons_self) ws (redirsText rs ++ rest)
    have hp₁ : peek ([' '].intercalate (w :: ws) ++ (redirsText rs ++ rest)) ['('] = false :=
      hs.peek (by simp [symbols])
    have hp₂ : peek ([' '].intercalate (w :: ws) ++ (redirsText rs ++ rest)) ['<', '>'] = false :=
      hs.peek (by simp [symbols])
    rw [Cmd.print, out_parseexec, if_neg (by simp [hp₁]), parseredirs_of_peek hp₂, hs.skipws,
      Option.bind_some,
      parseexecLoop_words (hT.mono (by simp [symbols])) (fun ret => parseredirs_text ret hrs hrest)
        hrest ws [] w (.exec []) h.1 h.2, List.nil_append, setArgv_wrap]
    rfl

theorem readsExec_redir {c : Cmd} {f : List Char} {m fd : ℕ} (hE : ReadsExec c)
    (hf : RedirWf f m fd) : ReadsExec (.redir c f m fd) := by
  intro rs rest hrs hrest
  have htext : (Cmd.redir c f m fd).print 0 ++ (redirsText rs ++ rest) =
      c.print 0 ++ (redirsText ((f, m, fd) :: rs) ++ rest) := by
    simp [Cmd.print, redirsText]
  rw [htext]
  exact hE _ rest (List.forall_mem_cons.mpr ⟨hf, hrs⟩) hrest

/-- A tree of a looser level is read as a block, in parentheses. -/
theorem readsExec_of_line {c : Cmd} (hlev : 0 < c.level) (hc : c.Wf) (hL : ReadsLine c) :
    ReadsExec c := by
  intro rs rest hrs hrest
  have hT : Before symbols (redirsText rs ++ rest) := (hrest.redirsText rs).mono (by simp [symbols])
  have htext : c.print 0 ++ (redirsText rs ++ rest) =
      '(' :: (c.print 3 ++ ')' :: (redirsText rs ++ rest)) := by
    rw [print_of_lt_level hlev]
    simp
  have hin : ∀ x ∈ (c.print 3 ++ ')' :: (redirsText rs ++ rest)).head?, x ∉ whitespace :=
    head_print hc 3 (head_symbol (by decide) _)
  rw [htext, out_parseexec, if_pos (peek_self (by decide)), out_parseblock,
    if_pos (peek_self (by decide)), gettoken_symbol (by decide) hin]
  rw [hL _ (by simp), Option.bind_some, if_pos (peek_self (by decide)),
    gettoken_symbol (by decide) fun x hx => not_whitespace_of_symbol (hT x hx),
    parseredirs_text c hrs hrest]

theorem readsPipe_pipe {l r : Cmd} (hr : r.Wf) (hl : ReadsExec l) (hP : ReadsPipe r) :
    ReadsPipe (.pipe l r) := by
  intro rest hrest
  have htext : (Cmd.pipe l r).print 1 ++ rest =
      l.print 0 ++ (redirsText [] ++ '|' :: (r.print 1 ++ rest)) := by
    simp [Cmd.print, paren, redirsText]
  have hin : ∀ x ∈ (r.print 1 ++ rest).head?, x ∉ whitespace :=
    head_print hr 1 fun x hx => not_whitespace_of_symbol ((hrest.mono (by simp [symbols])) x hx)
  rw [htext, out_parsepipe, hl [] _ (by simp) (by simp), Option.bind_some,
    if_pos (peek_self (by decide)), gettoken_symbol (by decide) hin, hP rest hrest]
  rfl

theorem readsBack_back {c : Cmd} (hB : ReadsBack c) : ReadsBack (.back c) := by
  intro n rest hrest
  have htext : (Cmd.back c).print 2 ++ (List.replicate n '&' ++ rest) =
      c.print 2 ++ (List.replicate (n + 1) '&' ++ rest) := by
    simp [Cmd.print, paren, List.replicate_succ]
  rw [htext, hB (n + 1) rest hrest, Function.iterate_succ_apply]

theorem readsLine_list {l r : Cmd} (hr : r.Wf) (hl : ReadsBack l) (hL : ReadsLine r) :
    ReadsLine (.list l r) := by
  intro rest hrest
  have htext : (Cmd.list l r).print 3 ++ rest =
      l.print 2 ++ (List.replicate 0 '&' ++ ';' :: (r.print 3 ++ rest)) := by
    simp [Cmd.print, paren]
  have hin : ∀ x ∈ (r.print 3 ++ rest).head?, x ∉ whitespace :=
    head_print hr 3 fun x hx => not_whitespace_of_symbol ((hrest.mono (by simp [symbols])) x hx)
  rw [htext, out_parseline, hl 0 _ (by simp), Option.bind_some, Function.iterate_zero_apply]
  dsimp only
  rw [if_pos (peek_self (by decide)), gettoken_symbol (by decide) hin, hL rest hrest]
  rfl

theorem readsPipe_of_exec {c : Cmd} (hlev : c.level ≠ 1) (hE : ReadsExec c) : ReadsPipe c := by
  intro rest hrest
  have h : c.print 0 = c.print 1 := print_congr (by omega) (by decide)
  have hp : peek rest ['|'] = false := hrest.peek (by simp [symbols]) (by decide)
  have := hE [] rest (by simp) (hrest.mono (by simp))
  rw [redirsText, List.flatMap_nil, List.nil_append, h] at this
  rw [out_parsepipe, this, Option.bind_some, if_neg (by simp [hp]), hrest.skipws (by simp [symbols])]
  rfl

theorem readsBack_of_pipe {c : Cmd} (hlev : c.level ≠ 2) (hP : ReadsPipe c) : ReadsBack c := by
  intro n rest hrest
  have h : c.print 1 = c.print 2 := print_congr (by omega) (by decide)
  have hamps : Before [')', '&', ';'] (List.replicate n '&' ++ rest) := by
    cases n with
    | zero => simpa using hrest.mono (by simp)
    | succ n => simp [List.replicate_succ]
  rw [← h, parseback, hP _ hamps, Option.map_some, parselineLoop_amps c n hrest]

theorem readsLine_of_back {c : Cmd} (hlev : c.level ≠ 3) (hB : ReadsBack c) : ReadsLine c := by
  intro rest hrest
  have h : c.print 2 = c.print 3 := print_congr (by omega) (by decide)
  have hp : peek rest [';'] = false := hrest.peek (by simp [symbols]) (by decide)
  have := hB 0 rest (hrest.mono (by simp))
  rw [List.replicate_zero, List.nil_append, h] at this
  rw [out_parseline, this, Option.bind_some, Function.iterate_zero_apply]
  dsimp only
  rw [if_neg (by simp [hp]), hrest.skipws (by simp [symbols])]

/-- What the parse functions read back from the text of a tree, at each level. -/
structure Reads (c : Cmd) : Prop where
  exec : ReadsExec c
  pipe : ReadsPipe c
  back : ReadsBack c
  line : ReadsLine c

/-- An exec node, or redirections around one, read at its own level is read at
every level. -/
theorem reads_of_exec {c : Cmd} (hlev : c.level = 0) (hE : ReadsExec c) : Reads c :=
  have hP := readsPipe_of_exec (by omega) hE
  have hB := readsBack_of_pipe (by omega) hP
  ⟨hE, hP, hB, readsLine_of_back (by omega) hB⟩

/-- The parse functions read every well-formed tree back from its text; the
induction is on the tree, and each case goes from the tree's own level to the others. -/
theorem reads {c : Cmd} (hc : c.Wf) : Reads c := by
  induction c with
  | exec argv => exact reads_of_exec rfl (readsExec_exec hc)
  | redir c f m fd ih => exact reads_of_exec rfl (readsExec_redir (ih hc.1).exec hc.2)
  | pipe l r ihl ihr =>
    have hP := readsPipe_pipe hc.2 (ihl hc.1).exec (ihr hc.2).pipe
    have hB := readsBack_of_pipe (by simp [Cmd.level]) hP
    have hL := readsLine_of_back (by simp [Cmd.level]) hB
    exact ⟨readsExec_of_line (by simp [Cmd.level]) hc hL, hP, hB, hL⟩
  | back c ih =>
    have hB := readsBack_back (ih hc).back
    have hL := readsLine_of_back (by simp [Cmd.level]) hB
    have hE := readsExec_of_line (by simp [Cmd.level]) hc hL
    exact ⟨hE, readsPipe_of_exec (by simp [Cmd.level]) hE, hB, hL⟩
  | list l r ihl ihr =>
    have hL := readsLine_list hc.2 (ihl hc.1).back (ihr hc.2).line
    have hE := readsExec_of_line (by simp [Cmd.level]) hc hL
    have hP := readsPipe_of_exec (by simp [Cmd.level]) hE
    exact ⟨hE, hP, readsBack_of_pipe (by simp [Cmd.level]) hP, hL⟩

/-- **`parsecmd`** reads every well-formed tree back from its text. -/
theorem parsecmd_print {c : Cmd} (hc : c.Wf) : parsecmd (c.print 3) = some c := by
  have htake : (c.print 3).takeWhile (· ≠ nul) = c.print 3 :=
    List.takeWhile_eq_self_iff.mpr fun x hx => by
      have : x ≠ nul := fun h => nul_not_mem_print hc 3 (h ▸ hx)
      simpa using this
  have hline := (reads hc).line [] (by simp)
  rw [List.append_nil] at hline
  rw [parsecmd_eq, htake, hline, Option.bind_some]
  rfl

/-! ### What the parser builds is well formed -/

theorem out_suffix {ps : List Char} {r : Option (Cmd × Cursor ps)} {c : Cmd} {t : List Char}
    (h : out r = some (c, t)) : t <:+ ps := by
  obtain ⟨⟨c', t', ht'⟩, -, he⟩ := Option.map_eq_some_iff.mp h
  cases he
  exact ht'

theorem parseback_suffix {ps t : List Char} {c : Cmd} (h : parseback ps = some (c, t)) : t <:+ ps := by
  obtain ⟨⟨c₀, t₀⟩, h₀, he⟩ := Option.map_eq_some_iff.mp h
  cases he
  exact (parselineLoop c₀ t₀).2.2.trans (out_suffix h₀)

/-- `scan` returns `'a'` only at a character that is neither a symbol nor NUL, and
then runs over the word. -/
theorem scan_word {c : Char} {t : List Char} (h : (scan (c :: t)).1 = 'a') :
    c ∉ symbols ∧ c ≠ nul ∧ (scan (c :: t)).2 =
      (c :: t).dropWhile fun x => !(strchr whitespace x).isSome && !(strchr symbols x).isSome := by
  by_cases h₁ : c = nul
  · simp [scan, h₁, nul] at h
  by_cases h₂ : c ∈ ['|', '(', ')', ';', '&', '<']
  · simp only [scan, h₁, h₂, if_false, if_true] at h
    subst h
    simp at h₂
  by_cases h₃ : c = '>'
  · subst h₃
    by_cases h₄ : t.head? = some '>' <;> simp [scan, h₄, nul] at h
  have hsym : c ∉ symbols := by
    simp only [List.mem_cons, List.not_mem_nil, or_false, not_or] at h₂
    simp [symbols, h₂, h₃]
  refine ⟨hsym, h₁, ?_⟩
  simp [scan, h₁, h₂, h₃]

/-- A word `gettoken` reads is a word. -/
theorem gettoken_isWord {ps : List Char} (h : (gettoken ps).ret = 'a') (hn : nul ∉ ps) :
    IsWord (span (gettoken ps).q (gettoken ps).eq) := by
  cases hs : skipws ps with
  | nil => simp [gettoken, hs, scan, nul] at h
  | cons c t =>
    have hc : c ∉ whitespace := skipws_head hs
    have hsub : c :: t ⊆ ps := hs ▸ (skipws_suffix ps).subset
    simp only [gettoken, hs] at h ⊢
    obtain ⟨hsym, -, heq⟩ := scan_word h
    rw [heq]
    set p : Char → Bool := fun x => !(strchr whitespace x).isSome && !(strchr symbols x).isSome
    -- `span` keeps what the loop went over
    have hspan : span (c :: t) ((c :: t).dropWhile p) = (c :: t).takeWhile p := by
      have := span_append ((c :: t).takeWhile p) ((c :: t).dropWhile p)
      rwa [List.takeWhile_append_dropWhile] at this
    rw [hspan]
    refine ⟨by simp [p, hc, hsym], fun x hx => ?_⟩
    have hpx := List.mem_takeWhile_imp hx
    simp only [p, strchr_whitespace, strchr_symbols, Bool.and_eq_true, Bool.not_eq_eq_eq_not,
      Bool.not_true, decide_eq_false_iff_not] at hpx
    exact ⟨hpx.1, hpx.2, fun he => hn (he ▸ hsub ((List.takeWhile_sublist _).subset hx))⟩

theorem Cmd.wf_setArgv {argv : List (List Char)} (hlen : argv.length < maxargs)
    (hargv : ∀ w ∈ argv, IsWord w) : ∀ {c : Cmd}, c.Wf → (c.setArgv argv).Wf
  | .exec _, _ => ⟨hlen, hargv⟩
  | .redir _ _ _ _, h => ⟨Cmd.wf_setArgv hlen hargv h.1, h.2⟩
  | .pipe _ _, h => h
  | .list _ _, h => h
  | .back _, h => h

theorem wf_redirect {cmd : Cmd} (hcmd : cmd.Wf) {f : List Char} (hf : IsWord f) (tok : Char) :
    (redirect tok cmd f).Wf := by
  unfold redirect
  split
  · exact ⟨hcmd, hf, .inl ⟨rfl, rfl⟩⟩
  · exact ⟨hcmd, hf, .inr ⟨rfl, rfl⟩⟩
  · exact ⟨hcmd, hf, .inr ⟨rfl, rfl⟩⟩
  · exact hcmd

theorem wf_parselineLoop {cmd : Cmd} (hcmd : cmd.Wf) (ps : List Char) :
    (parselineLoop cmd ps).1.Wf := by
  have h := congrArg Prod.fst (parselineLoop_eq cmd ps)
  dsimp only at h
  rw [h]
  split_ifs with hp
  · exact wf_parselineLoop (show (Cmd.back cmd).Wf from hcmd) _
  · exact hcmd
termination_by ps.length
decreasing_by exact gettoken_lt (gettoken_ret_of_peek hp)

theorem nul_not_mem_of_suffix {t ps : List Char} (h : t <:+ ps) (hn : nul ∉ ps) : nul ∉ t :=
  fun ht => hn (h.subset ht)

theorem parseredirs_wf {cmd : Cmd} {ps : List Char} (hcmd : cmd.Wf) (hn : nul ∉ ps) {c : Cmd}
    {t : List Char} (h : out (parseredirs cmd ps) = some (c, t)) : c.Wf := by
  rw [out_parseredirs] at h
  by_cases hp : peek ps ['<', '>'] = true
  · by_cases hfile : (gettoken (gettoken ps).ps).ret = 'a'
    · rw [if_pos hp, if_neg (not_not.mpr hfile)] at h
      have hsuf : (gettoken (gettoken ps).ps).ps <:+ ps :=
        (gettoken_suffix _).trans (gettoken_suffix ps)
      have hlt : (gettoken (gettoken ps).ps).ps.length < ps.length :=
        lt_of_le_of_lt (gettoken_suffix _).length_le (gettoken_lt (gettoken_ret_of_peek hp))
      have hw := gettoken_isWord hfile (nul_not_mem_of_suffix (gettoken_suffix ps) hn)
      exact parseredirs_wf (wf_redirect hcmd hw _) (nul_not_mem_of_suffix hsuf hn) h
    · rw [if_pos hp, if_pos hfile] at h
      cases h
  · rw [if_neg hp, Option.some.injEq, Prod.mk.injEq] at h
    exact h.1 ▸ hcmd
termination_by ps.length
decreasing_by exact hlt

theorem parseexecLoop_wf {argv : List (List Char)} {ret : Cmd} {ps : List Char} (hret : ret.Wf)
    (hlen : argv.length < maxargs) (hargv : ∀ w ∈ argv, IsWord w) (hn : nul ∉ ps) {c : Cmd}
    {t : List Char} (h : out (parseexecLoop argv ret ps) = some (c, t)) : c.Wf := by
  have hset := Cmd.wf_setArgv hlen hargv hret
  rw [out_parseexecLoop] at h
  by_cases h₁ : peek ps ['|', ')', '&', ';'] = true
  · rw [if_pos h₁, Option.some.injEq, Prod.mk.injEq] at h
    exact h.1 ▸ hset
  rw [if_neg h₁] at h
  by_cases h₂ : (gettoken ps).ret = nul
  · rw [if_pos h₂, Option.some.injEq, Prod.mk.injEq] at h
    exact h.1 ▸ hset
  by_cases h₃ : (gettoken ps).ret = 'a'
  · by_cases h₄ : maxargs ≤ (argv ++ [span (gettoken ps).q (gettoken ps).eq]).length
    · rw [if_neg h₂, if_neg (not_not.mpr h₃), if_pos h₄] at h
      cases h
    rw [if_neg h₂, if_neg (not_not.mpr h₃), if_neg h₄] at h
    obtain ⟨⟨ret', t'⟩, hr, h⟩ := Option.bind_eq_some_iff.mp h
    have hn' := nul_not_mem_of_suffix (gettoken_suffix ps) hn
    have hw := gettoken_isWord h₃ hn
    have hlt : t'.length < ps.length := lt_of_le_of_lt (out_suffix hr).length_le (gettoken_lt h₂)
    exact parseexecLoop_wf (parseredirs_wf hret hn' hr) (not_le.mp h₄)
      (List.forall_mem_append.mpr ⟨hargv, List.forall_mem_singleton.mpr hw⟩)
      (nul_not_mem_of_suffix (out_suffix hr) hn') h
  · rw [if_neg h₂, if_pos h₃] at h
    cases h
termination_by ps.length
decreasing_by exact hlt

mutual

theorem parseline_wf {ps : List Char} (hn : nul ∉ ps) {c : Cmd} {t : List Char}
    (h : out (parseline ps) = some (c, t)) : c.Wf := by
  rw [out_parseline] at h
  obtain ⟨⟨c₁, t₁⟩, hb, h⟩ := Option.bind_eq_some_iff.mp h
  -- the pipeline and its `&`s
  obtain ⟨⟨c₀, t₀⟩, h₀, he⟩ := Option.map_eq_some_iff.mp hb
  have hc₀ : c₀.Wf := parsepipe_wf hn h₀
  have hc₁ : c₁.Wf := by
    rw [Prod.mk.injEq] at he
    exact he.1 ▸ wf_parselineLoop hc₀ t₀
  have hsuf := parseback_suffix hb
  dsimp only at h
  by_cases hp : peek t₁ [';'] = true
  · rw [if_pos hp] at h
    obtain ⟨⟨c₂, t₂⟩, h₂, he₂⟩ := Option.map_eq_some_iff.mp h
    have hlt : (gettoken t₁).ps.length < ps.length :=
      lt_of_lt_of_le (gettoken_lt (gettoken_ret_of_peek hp)) hsuf.length_le
    have hc₂ : c₂.Wf := parseline_wf (nul_not_mem_of_suffix ((gettoken_suffix _).trans hsuf) hn) h₂
    rw [Prod.mk.injEq] at he₂
    rw [← he₂.1]
    exact ⟨hc₁, hc₂⟩
  · rw [if_neg hp, Option.some.injEq, Prod.mk.injEq] at h
    exact h.1 ▸ hc₁
termination_by (ps.length, 3)
decreasing_by
  all_goals first
    | exact Prod.Lex.right _ (by decide)
    | exact Prod.Lex.left _ _ hlt

theorem parsepipe_wf {ps : List Char} (hn : nul ∉ ps) {c : Cmd} {t : List Char}
    (h : out (parsepipe ps) = some (c, t)) : c.Wf := by
  rw [out_parsepipe] at h
  obtain ⟨⟨c₁, t₁⟩, h₁, h⟩ := Option.bind_eq_some_iff.mp h
  have hc₁ : c₁.Wf := parseexec_wf hn h₁
  have hsuf := out_suffix h₁
  dsimp only at h
  by_cases hp : peek t₁ ['|'] = true
  · rw [if_pos hp] at h
    obtain ⟨⟨c₂, t₂⟩, h₂, he₂⟩ := Option.map_eq_some_iff.mp h
    have hlt : (gettoken t₁).ps.length < ps.length :=
      lt_of_lt_of_le (gettoken_lt (gettoken_ret_of_peek hp)) hsuf.length_le
    have hc₂ : c₂.Wf := parsepipe_wf (nul_not_mem_of_suffix ((gettoken_suffix _).trans hsuf) hn) h₂
    rw [Prod.mk.injEq] at he₂
    rw [← he₂.1]
    exact ⟨hc₁, hc₂⟩
  · rw [if_neg hp, Option.some.injEq, Prod.mk.injEq] at h
    exact h.1 ▸ hc₁
termination_by (ps.length, 2)
decreasing_by
  all_goals first
    | exact Prod.Lex.right _ (by decide)
    | exact Prod.Lex.left _ _ hlt

theorem parseexec_wf {ps : List Char} (hn : nul ∉ ps) {c : Cmd} {t : List Char}
    (h : out (parseexec ps) = some (c, t)) : c.Wf := by
  rw [out_parseexec] at h
  by_cases hp : peek ps ['('] = true
  · rw [if_pos hp] at h
    exact parseblock_wf hn h
  · rw [if_neg hp] at h
    obtain ⟨⟨ret, t₁⟩, h₁, h⟩ := Option.bind_eq_some_iff.mp h
    have hret : ret.Wf := parseredirs_wf (show (Cmd.exec []).Wf from ⟨by decide, by simp⟩) hn h₁
    exact parseexecLoop_wf hret (by decide) (by simp) (nul_not_mem_of_suffix (out_suffix h₁) hn) h
termination_by (ps.length, 1)
decreasing_by exact Prod.Lex.right _ (by decide)

theorem parseblock_wf {ps : List Char} (hn : nul ∉ ps) {c : Cmd} {t : List Char}
    (h : out (parseblock ps) = some (c, t)) : c.Wf := by
  rw [out_parseblock] at h
  by_cases hp : peek ps ['('] = true
  · rw [if_pos hp] at h
    obtain ⟨⟨c₁, t₁⟩, h₁, h⟩ := Option.bind_eq_some_iff.mp h
    have hlt : (gettoken ps).ps.length < ps.length := gettoken_lt (gettoken_ret_of_peek hp)
    have hn₁ := nul_not_mem_of_suffix (gettoken_suffix ps) hn
    have hc₁ : c₁.Wf := parseline_wf hn₁ h₁
    dsimp only at h
    by_cases hq : peek t₁ [')'] = true
    · rw [if_pos hq] at h
      exact parseredirs_wf hc₁
        (nul_not_mem_of_suffix ((gettoken_suffix _).trans (out_suffix h₁)) hn₁) h
    · rw [if_neg hq] at h
      cases h
  · rw [if_neg hp] at h
    cases h
termination_by (ps.length, 0)
decreasing_by exact Prod.Lex.left _ _ hlt

end

/-- **`parsecmd`** builds well-formed trees only. -/
theorem parsecmd_wf {s : List Char} {c : Cmd} (h : parsecmd s = some c) : c.Wf := by
  rw [parsecmd_eq] at h
  obtain ⟨⟨c₁, t₁⟩, h₁, h⟩ := Option.bind_eq_some_iff.mp h
  have hn : nul ∉ s.takeWhile (· ≠ nul) := fun hm => by
    simpa using List.mem_takeWhile_imp hm
  dsimp only at h
  by_cases ht : skipws t₁ = []
  · rw [if_pos ht, Option.some.injEq] at h
    exact h ▸ parseline_wf hn h₁
  · rw [if_neg ht] at h
    cases h

/-- **The trees `parsecmd` builds** are the well-formed ones, and it reads each of
them back from its text. -/
theorem parsecmd_range (c : Cmd) :
    ((∃ s, parsecmd s = some c) ↔ c.Wf) ∧ (c.Wf → parsecmd (c.print 3) = some c) :=
  ⟨⟨fun ⟨_, h⟩ => parsecmd_wf h, fun hc => ⟨_, parsecmd_print hc⟩⟩, fun hc => parsecmd_print hc⟩

/-- `ls | wc > o` is read back from its text. -/
theorem parsecmd_range_pipe :
    (Cmd.pipe (.exec [['l', 's']]) (.redir (.exec [['w', 'c']]) ['o'] (oWronly ||| oCreate) 1)).Wf ∧
      parsecmd ((Cmd.pipe (.exec [['l', 's']])
        (.redir (.exec [['w', 'c']]) ['o'] (oWronly ||| oCreate) 1)).print 3) =
        some (.pipe (.exec [['l', 's']]) (.redir (.exec [['w', 'c']]) ['o'] (oWronly ||| oCreate) 1)) :=
  have hwf : (Cmd.pipe (.exec [['l', 's']])
      (.redir (.exec [['w', 'c']]) ['o'] (oWronly ||| oCreate) 1)).Wf := by
    simp [Cmd.Wf, IsWord, RedirWf, whitespace, symbols, maxargs, nul]
  ⟨hwf, (parsecmd_range _).2 hwf⟩

/-! ### The parser reads only the tokens

`parsecmd` looks at the line only through `peek` and `gettoken`, so two lines with
the same tokens parse alike, however they are spaced. -/

/-- The tokens of a line, as `gettoken` reads them one after another: what it
returns and the text of the token. -/
def tokens (ps : List Char) : List (Char × List Char) :=
  if _h : (gettoken ps).ret = nul then []
  else ((gettoken ps).ret, span (gettoken ps).q (gettoken ps).eq) :: tokens (gettoken ps).ps
termination_by ps.length
decreasing_by exact gettoken_lt _h

/-- The character a token starts with: `'+'` stands for `>>`. -/
def tokChar (r : Char) : Char := if r = '+' then '>' else r

theorem tokens_eq (ps : List Char) :
    tokens ps = if (gettoken ps).ret = nul then []
      else ((gettoken ps).ret, span (gettoken ps).q (gettoken ps).eq) :: tokens (gettoken ps).ps := by
  rw [tokens]
  split_ifs <;> rfl

theorem skipws_skipws (ps : List Char) : skipws (skipws ps) = skipws ps := by
  cases hs : skipws ps with
  | nil => rfl
  | cons c t => exact skipws_of_head (by simpa using skipws_head hs)

theorem gettoken_skipws (ps : List Char) : gettoken (skipws ps) = gettoken ps := by
  simp only [gettoken, skipws_skipws]

theorem tokens_skipws (ps : List Char) : tokens (skipws ps) = tokens ps := by
  rw [tokens_eq, tokens_eq ps, gettoken_skipws]

/-- What `scan` returns at a character other than NUL: a symbol, standing for the
character, or a word. -/
theorem scan_ret {c : Char} (t : List Char) (hc : c ≠ nul) :
    c ∈ symbols ∧ tokChar (scan (c :: t)).1 = c ∨ c ∉ symbols ∧ (scan (c :: t)).1 = 'a' := by
  by_cases h₂ : c ∈ ['|', '(', ')', ';', '&', '<']
  · have hsym : c ∈ symbols := by
      simp only [List.mem_cons, List.not_mem_nil, or_false] at h₂
      rcases h₂ with rfl | rfl | rfl | rfl | rfl | rfl <;> decide
    refine .inl ⟨hsym, ?_⟩
    have hplus : c ≠ '+' := fun h => by subst h; simp at h₂
    simp [scan, hc, h₂, tokChar, hplus]
  by_cases h₃ : c = '>'
  · subst h₃
    refine .inl ⟨by decide, ?_⟩
    by_cases h₄ : t.head? = some '>' <;> simp [scan, h₄, tokChar, nul]
  · right
    constructor
    · simp only [List.mem_cons, List.not_mem_nil, or_false, not_or] at h₂
      simp [symbols, h₂, h₃]
    · simp [scan, hc, h₂, h₃]

/-- `scan` does not move at the end. -/
theorem scan_of_nul {s : List Char} (h : (scan s).1 = nul) : (scan s).2 = s := by
  cases s with
  | nil => rfl
  | cons c t =>
    by_cases hc : c = nul
    · simp [scan, hc]
    · rcases scan_ret t hc with ⟨-, h'⟩ | ⟨-, h'⟩
      · rw [h] at h'
        exact absurd h'.symm (by simpa [tokChar, nul] using hc)
      · rw [h] at h'
        exact absurd h' (by decide)

/-- After the end, the end again. -/
theorem tokens_gettoken_of_nul {ps : List Char} (h : (gettoken ps).ret = nul) :
    tokens (gettoken ps).ps = [] := by
  have hps : (gettoken ps).ps = skipws ps := by
    simp only [gettoken] at h ⊢
    rw [scan_of_nul h, skipws_skipws]
  rw [hps, tokens_skipws, tokens_eq, if_pos h]

/-- `peek` sees the character of the first token. -/
theorem peek_tokens {toks : List Char} (ht : ∀ x ∈ toks, x ∈ symbols) (ps : List Char) :
    peek ps toks = match tokens ps with
      | [] => false
      | r :: _ => decide (tokChar r.1 ∈ toks) := by
  have hn : nul ∉ toks := fun h => nul_of_symbol (ht _ h) rfl
  have hnil : (gettoken ps).ret = nul → tokens ps = [] := fun h => by rw [tokens_eq, if_pos h]
  cases hs : skipws ps with
  | nil =>
    have : (gettoken ps).ret = nul := by simp [gettoken, hs, scan]
    rw [hnil this]
    simp [peek, hs]
  | cons c t =>
    by_cases hc : c = nul
    · have : (gettoken ps).ret = nul := by simp [gettoken, hs, scan, hc]
      rw [hnil this]
      simp [peek, hs, hc]
    · have hret : (gettoken ps).ret = (scan (c :: t)).1 := by simp [gettoken, hs]
      have hpeek : peek ps toks = decide (c ∈ toks) := by
        simp [peek, hs, hc, isSome_strchr hn]
      rw [tokens_eq, hpeek]
      rcases scan_ret t hc with ⟨-, h⟩ | ⟨hsym, h⟩
      · have hne : (gettoken ps).ret ≠ nul := fun he => hc (by rw [← h, ← hret, he]; rfl)
        rw [if_neg hne]
        dsimp only
        rw [hret, h]
      · have hne : (gettoken ps).ret ≠ nul := by rw [hret, h]; decide
        rw [if_neg hne]
        dsimp only
        rw [hret, h]
        have ha : tokChar 'a' ∉ toks := fun h => absurd (ht _ h) (by decide)
        simpa [ha] using fun h => hsym (ht c h)

theorem peek_congr {ps ps' toks : List Char} (h : tokens ps = tokens ps')
    (ht : ∀ x ∈ toks, x ∈ symbols) : peek ps toks = peek ps' toks := by
  rw [peek_tokens ht, peek_tokens ht, h]

/-- `gettoken` returns the first token, and leaves the others. -/
theorem gettoken_congr {ps ps' : List Char} (h : tokens ps = tokens ps') :
    (gettoken ps).ret = (gettoken ps').ret ∧
      span (gettoken ps).q (gettoken ps).eq = span (gettoken ps').q (gettoken ps').eq ∧
      tokens (gettoken ps).ps = tokens (gettoken ps').ps := by
  have hspan : ∀ ps, (gettoken ps).ret = nul → span (gettoken ps).q (gettoken ps).eq = [] := by
    intro ps hr
    simp only [gettoken] at hr ⊢
    simp [span, scan_of_nul hr]
  rw [tokens_eq ps, tokens_eq ps'] at h
  by_cases h₁ : (gettoken ps).ret = nul <;> by_cases h₂ : (gettoken ps').ret = nul
  · exact ⟨h₁.trans h₂.symm, (hspan ps h₁).trans (hspan ps' h₂).symm,
      (tokens_gettoken_of_nul h₁).trans (tokens_gettoken_of_nul h₂).symm⟩
  · simp [h₁, h₂] at h
  · simp [h₁, h₂] at h
  · simp only [h₁, h₂, if_false, List.cons.injEq, Prod.mk.injEq] at h
    exact ⟨h.1.1, h.1.2, h.2⟩

/-- Two parse results agree: the same tree, and the same tokens left. -/
def Agree (o o' : Option (Cmd × List Char)) : Prop :=
  o.map (fun p => (p.1, tokens p.2)) = o'.map fun p => (p.1, tokens p.2)

theorem agree_none : Agree none none := rfl

theorem agree_some {c : Cmd} {t t' : List Char} (h : tokens t = tokens t') :
    Agree (some (c, t)) (some (c, t')) := by
  simp [Agree, h]

theorem Agree.bind {o o' : Option (Cmd × List Char)} {f f' : Cmd × List Char → Option (Cmd × List Char)}
    (h : Agree o o')
    (hf : ∀ c t t', o = some (c, t) → tokens t = tokens t' → Agree (f (c, t)) (f' (c, t'))) :
    Agree (o.bind f) (o'.bind f') := by
  rcases o with _ | ⟨c, t⟩ <;> rcases o' with _ | ⟨c', t'⟩
  · exact agree_none
  · simp [Agree] at h
  · simp [Agree] at h
  · simp only [Agree, Option.map_some, Option.some.injEq, Prod.mk.injEq] at h
    obtain ⟨rfl, ht⟩ := h
    exact hf c t t' rfl ht

theorem Agree.map {o o' : Option (Cmd × List Char)} (g : Cmd → Cmd) (h : Agree o o') :
    Agree (o.map fun q => (g q.1, q.2)) (o'.map fun q => (g q.1, q.2)) := by
  rcases o with _ | ⟨c, t⟩ <;> rcases o' with _ | ⟨c', t'⟩
  · exact agree_none
  · simp [Agree] at h
  · simp [Agree] at h
  · simp only [Agree, Option.map_some, Option.some.injEq, Prod.mk.injEq] at h
    obtain ⟨rfl, ht⟩ := h
    exact agree_some ht

theorem parseredirs_agree (cmd : Cmd) {ps ps' : List Char} (h : tokens ps = tokens ps') :
    Agree (out (parseredirs cmd ps)) (out (parseredirs cmd ps')) := by
  rw [out_parseredirs cmd ps, out_parseredirs cmd ps', peek_congr h (by simp [symbols])]
  by_cases hp : peek ps' ['<', '>'] = true
  · have hlt : (gettoken (gettoken ps).ps).ps.length < ps.length :=
      lt_of_le_of_lt (gettoken_suffix _).length_le
        (gettoken_lt (gettoken_ret_of_peek ((peek_congr h (by simp [symbols])).trans hp)))
    obtain ⟨hr₁, -, ht₁⟩ := gettoken_congr h
    obtain ⟨hr₂, hs₂, ht₂⟩ := gettoken_congr ht₁
    rw [if_pos hp, if_pos hp, hr₁, hr₂, hs₂]
    by_cases ha : (gettoken (gettoken ps').ps).ret ≠ 'a'
    · rw [if_pos ha, if_pos ha]
      exact agree_none
    · rw [if_neg ha, if_neg ha]
      exact parseredirs_agree _ ht₂
  · rw [if_neg hp, if_neg hp]
    exact agree_some (by rw [tokens_skipws, tokens_skipws, h])
termination_by ps.length
decreasing_by exact hlt

theorem parseexecLoop_agree (argv : List (List Char)) (ret : Cmd) {ps ps' : List Char}
    (h : tokens ps = tokens ps') :
    Agree (out (parseexecLoop argv ret ps)) (out (parseexecLoop argv ret ps')) := by
  obtain ⟨hr, hs, ht⟩ := gettoken_congr h
  rw [out_parseexecLoop argv ret ps, out_parseexecLoop argv ret ps', peek_congr h (by simp [symbols]),
    hr, hs]
  by_cases h₁ : peek ps' ['|', ')', '&', ';'] = true
  · rw [if_pos h₁, if_pos h₁]
    exact agree_some (by rw [tokens_skipws, tokens_skipws, h])
  rw [if_neg h₁, if_neg h₁]
  by_cases h₂ : (gettoken ps').ret = nul
  · rw [if_pos h₂, if_pos h₂]
    exact agree_some ht
  rw [if_neg h₂, if_neg h₂]
  split_ifs
  · exact agree_none
  · exact agree_none
  · refine Agree.bind (parseredirs_agree ret ht) fun c t t' hres htt => ?_
    have hlt : t.length < ps.length :=
      lt_of_le_of_lt (out_suffix hres).length_le (gettoken_lt (hr ▸ h₂))
    exact parseexecLoop_agree _ c htt
termination_by ps.length
decreasing_by exact hlt

theorem parselineLoop_agree (cmd : Cmd) {ps ps' : List Char} (h : tokens ps = tokens ps') :
    Agree (some ((parselineLoop cmd ps).1, (parselineLoop cmd ps).2.1))
      (some ((parselineLoop cmd ps').1, (parselineLoop cmd ps').2.1)) := by
  rw [parselineLoop_eq cmd ps, parselineLoop_eq cmd ps', peek_congr h (by simp [symbols])]
  by_cases hp : peek ps' ['&'] = true
  · have hlt : (gettoken ps).ps.length < ps.length :=
      gettoken_lt (gettoken_ret_of_peek ((peek_congr h (by simp [symbols])).trans hp))
    rw [if_pos hp, if_pos hp]
    exact parselineLoop_agree _ (gettoken_congr h).2.2
  · rw [if_neg hp, if_neg hp]
    exact agree_some (by rw [tokens_skipws, tokens_skipws, h])
termination_by ps.length
decreasing_by exact hlt

mutual

theorem parseline_agree {ps ps' : List Char} (h : tokens ps = tokens ps') :
    Agree (out (parseline ps)) (out (parseline ps')) := by
  rw [out_parseline ps, out_parseline ps']
  -- the pipeline and its `&`s
  have hback : Agree (parseback ps) (parseback ps') := by
    rw [parseback, parseback, Option.map_eq_bind, Option.map_eq_bind]
    exact Agree.bind (parsepipe_agree h) fun c t t' _ htt => parselineLoop_agree c htt
  refine Agree.bind hback fun c t t' hres htt => ?_
  dsimp only
  rw [peek_congr htt (by simp [symbols])]
  by_cases hp : peek t' [';'] = true
  · have hlt : (gettoken t).ps.length < ps.length :=
      lt_of_lt_of_le (gettoken_lt (gettoken_ret_of_peek ((peek_congr htt (by simp [symbols])).trans hp)))
        (parseback_suffix hres).length_le
    rw [if_pos hp, if_pos hp]
    exact Agree.map (Cmd.list c) (parseline_agree (gettoken_congr htt).2.2)
  · rw [if_neg hp, if_neg hp]
    exact agree_some (by rw [tokens_skipws, tokens_skipws, htt])
termination_by (ps.length, 3)
decreasing_by
  all_goals first
    | exact Prod.Lex.right _ (by decide)
    | exact Prod.Lex.left _ _ hlt

theorem parsepipe_agree {ps ps' : List Char} (h : tokens ps = tokens ps') :
    Agree (out (parsepipe ps)) (out (parsepipe ps')) := by
  rw [out_parsepipe ps, out_parsepipe ps']
  refine Agree.bind (parseexec_agree h) fun c t t' hres htt => ?_
  dsimp only
  rw [peek_congr htt (by simp [symbols])]
  by_cases hp : peek t' ['|'] = true
  · have hlt : (gettoken t).ps.length < ps.length :=
      lt_of_lt_of_le (gettoken_lt (gettoken_ret_of_peek ((peek_congr htt (by simp [symbols])).trans hp)))
        (out_suffix hres).length_le
    rw [if_pos hp, if_pos hp]
    exact Agree.map (Cmd.pipe c) (parsepipe_agree (gettoken_congr htt).2.2)
  · rw [if_neg hp, if_neg hp]
    exact agree_some (by rw [tokens_skipws, tokens_skipws, htt])
termination_by (ps.length, 2)
decreasing_by
  all_goals first
    | exact Prod.Lex.right _ (by decide)
    | exact Prod.Lex.left _ _ hlt

theorem parseexec_agree {ps ps' : List Char} (h : tokens ps = tokens ps') :
    Agree (out (parseexec ps)) (out (parseexec ps')) := by
  rw [out_parseexec ps, out_parseexec ps', peek_congr h (by simp [symbols])]
  by_cases hp : peek ps' ['('] = true
  · rw [if_pos hp, if_pos hp]
    exact parseblock_agree h
  · rw [if_neg hp, if_neg hp]
    exact Agree.bind (parseredirs_agree _ h) fun c t t' _ htt => parseexecLoop_agree [] c htt
termination_by (ps.length, 1)
decreasing_by exact Prod.Lex.right _ (by decide)

theorem parseblock_agree {ps ps' : List Char} (h : tokens ps = tokens ps') :
    Agree (out (parseblock ps)) (out (parseblock ps')) := by
  rw [out_parseblock ps, out_parseblock ps', peek_congr h (by simp [symbols])]
  by_cases hp : peek ps' ['('] = true
  · have hlt : (gettoken ps).ps.length < ps.length :=
      gettoken_lt (gettoken_ret_of_peek ((peek_congr h (by simp [symbols])).trans hp))
    rw [if_pos hp, if_pos hp]
    refine Agree.bind (parseline_agree (gettoken_congr h).2.2) fun c t t' _ htt => ?_
    dsimp only
    rw [peek_congr htt (by simp [symbols])]
    by_cases hq : peek t' [')'] = true
    · rw [if_pos hq, if_pos hq]
      exact parseredirs_agree c (gettoken_congr htt).2.2
    · rw [if_neg hq, if_neg hq]
      exact agree_none
  · rw [if_neg hp, if_neg hp]
    exact agree_none
termination_by (ps.length, 0)
decreasing_by exact Prod.Lex.left _ _ hlt

end

/-- On a line without NUL, nothing is left exactly when no token is. -/
theorem skipws_eq_nil_iff {t : List Char} (hn : nul ∉ t) : skipws t = [] ↔ tokens t = [] := by
  constructor
  · intro hs
    rw [tokens_eq, if_pos (by simp [gettoken, hs, scan])]
  · intro ht
    cases hs : skipws t with
    | nil => rfl
    | cons c u =>
      have hc : c ≠ nul := fun he => hn (he ▸ (skipws_suffix t).subset (hs ▸ List.mem_cons_self))
      have hret : (gettoken t).ret ≠ nul := by
        simp only [gettoken, hs]
        rcases scan_ret u hc with ⟨-, h⟩ | ⟨-, h⟩
        · exact fun he => hc (by rw [← h, he]; rfl)
        · rw [h]
          decide
      rw [tokens_eq, if_neg hret] at ht
      cases ht

/-- **`parsecmd`** reads a line only through its tokens: two lines with the same
tokens give the same result, however they are spaced. -/
theorem parsecmd_tokens {s s' : List Char}
    (h : tokens (s.takeWhile (· ≠ nul)) = tokens (s'.takeWhile (· ≠ nul))) :
    parsecmd s = parsecmd s' := by
  have hline := parseline_agree h
  have hn : ∀ s : List Char, nul ∉ s.takeWhile (· ≠ nul) := fun s hm => by
    simpa using List.mem_takeWhile_imp hm
  rw [parsecmd_eq, parsecmd_eq]
  cases hr : out (parseline (s.takeWhile (· ≠ nul))) with
  | none =>
    cases hr' : out (parseline (s'.takeWhile (· ≠ nul))) with
    | none => rfl
    | some r' =>
      rw [hr, hr'] at hline
      simp [Agree] at hline
  | some r =>
    obtain ⟨c, t⟩ := r
    cases hr' : out (parseline (s'.takeWhile (· ≠ nul))) with
    | none =>
      rw [hr, hr'] at hline
      simp [Agree] at hline
    | some r' =>
      obtain ⟨c', t'⟩ := r'
      rw [hr, hr'] at hline
      simp only [Agree, Option.map_some, Option.some.injEq, Prod.mk.injEq] at hline
      obtain ⟨rfl, htt⟩ := hline
      -- the check for leftovers: no token is left after the line
      have hend : skipws t = [] ↔ skipws t' = [] := by
        rw [skipws_eq_nil_iff (nul_not_mem_of_suffix (out_suffix hr) (hn s)),
          skipws_eq_nil_iff (nul_not_mem_of_suffix (out_suffix hr') (hn s')), htt]
      simp only [Option.bind_some, hend]

/-- A blank before the line changes nothing. -/
theorem parsecmd_tokens_blank : parsecmd [' ', 'l', 's'] = parsecmd ['l', 's'] :=
  parsecmd_tokens (by
    have h₁ : ([' ', 'l', 's'] : List Char).takeWhile (· ≠ nul) = [' ', 'l', 's'] := by decide
    have h₂ : (['l', 's'] : List Char).takeWhile (· ≠ nul) = ['l', 's'] := by decide
    have h₃ : skipws [' ', 'l', 's'] = ['l', 's'] := by decide
    rw [h₁, h₂, ← tokens_skipws [' ', 'l', 's'], h₃])

end Sh

end Xv6
