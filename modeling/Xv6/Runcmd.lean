import Xv6.Shell

/-!
# Running a command tree

`runcmd` of `sh.c` runs the tree `parsecmd` built, in a child of the shell.  An
exec node `exec`s its program.  A redirection closes the descriptor it redirects
and opens the file, which `open` puts in the lowest free descriptor, the one just
closed.  A pipe creates a pipe and forks a child for each side; each child moves
its end of the pipe to descriptor 1 or 0 with `close` and `dup`, and closes both
ends it got from `pipe`.  A list runs its sides one after the other, and `&` runs
its command in a child the shell does not wait for.

This file follows the descriptor table of each process `runcmd` creates, down to
the `exec` of each program.  The table has `NOFILE` descriptors; `open`, `dup` and
`pipe` take the lowest free one, as `fdalloc` in `sysfile.c` does
(`Files.fdalloc_lowestFree`).  Whether the file system lets `open` open a file is
an argument.  When the processes run, `wait`, and the open files behind the
descriptors are left out.

The shell keeps descriptors 0, 1 and 2 open (its `main` opens the console until
they are), and runs a tree with two more descriptors free.

## Main definitions

* `Desc` — what a descriptor refers to.
* `lowestFree`, `fdalloc`, `close`, `dup`, `pipe` — the descriptor operations.
* `runcmd` — the programs a tree `exec`s, each with its descriptor table.
* `wiring` — what a tree means: each program with what it reads and writes.

## Main results

* `Files.fdalloc_lowestFree` — the kernel's `fdalloc` takes `lowestFree`.
* **`runcmd_wiring`** — every program starts with descriptors 0 and 1 as the tree
  says, and every other descriptor as the shell had it: no end of a pipe leaks.
-/

namespace Xv6

namespace Sh

/-! ### Descriptor tables -/

/-- What a descriptor refers to: a file open before `runcmd` started, a file a
redirection opened, or one end of a pipe, named by the place of its node in the
tree. -/
inductive Desc (α : Type)
  | old (a : α)
  | file (name : List Char) (mode : ℕ)
  | pipeR (node : List Bool)
  | pipeW (node : List Bool)
  deriving DecidableEq

/-- A process's descriptors. -/
abbrev Fds (α : Type) := Fin nofile → Option (Desc α)

instance : NeZero nofile := ⟨by decide⟩

/-- The scan of `fdalloc`: the lowest free descriptor. -/
def lowestFree {β : Type} (ofile : Fin nofile → Option β) : Option (Fin nofile) :=
  (List.finRange nofile).find? fun fd => (ofile fd).isNone

/-- The kernel's `fdalloc` takes the lowest free descriptor. -/
theorem Files.fdalloc_lowestFree (t : Files) (p : Fin nproc) (f : Fin nfile) :
    (t.fdalloc p f).1 = lowestFree (t.ofile p) := by
  have hp : (fun fd => decide (t.ofile p fd = none)) = fun fd => (t.ofile p fd).isNone := by
    funext fd
    cases t.ofile p fd <;> rfl
  rw [Files.fdalloc, lowestFree, hp]
  cases (List.finRange nofile).find? fun fd => (t.ofile p fd).isNone <;> rfl

variable {α : Type}

/-- `fdalloc`: the lowest free descriptor now refers to `d`. -/
def fdalloc (fds : Fds α) (d : Desc α) : Option (Fin nofile × Fds α) :=
  (lowestFree fds).map fun fd => (fd, Function.update fds fd (some d))

/-- `close(fd)`; `argfd` refuses a descriptor out of range. -/
def close (fds : Fds α) (fd : ℕ) : Fds α :=
  if h : fd < nofile then Function.update fds ⟨fd, h⟩ none else fds

/-- The table after `dup(fd)`, whose result `runcmd` does not look at: the lowest
free descriptor refers to what `fd` does. -/
def dup (fds : Fds α) (fd : Fin nofile) : Fds α :=
  match fds fd with
  | none => fds
  | some d => ((fdalloc fds d).map Prod.snd).getD fds

/-- `pipe(p)`: the read end and then the write end of a new pipe, each in the lowest
free descriptor. -/
def pipe (fds : Fds α) (node : List Bool) : Option (Fin nofile × Fin nofile × Fds α) :=
  (fdalloc fds (.pipeR node)).bind fun r =>
    (fdalloc r.2 (.pipeW node)).map fun w => (r.1, w.1, w.2)

/-! ### `runcmd` -/

/-- `runcmd`: the programs the processes running `cmd` `exec`, each with its
descriptor table, those of a left side before those of a right side.  `opens`
says whether the file system opens a file in a mode; `node` is the place of `cmd`
in the tree. -/
def runcmd (opens : List Char → ℕ → Bool) : Fds α → List Bool → Cmd →
    List (List (List Char) × Fds α)
  -- an empty command: `exit()`
  | fds, _, .exec argv => if argv = [] then [] else [(argv, fds)]
  | fds, node, .redir c f m fd =>
    if opens f m then
      match fdalloc (close fds fd) (.file f m) with
      | none => []
      | some (_, fds) => runcmd opens fds (node ++ [false]) c
    -- `printf(2, "open %s failed\n", rcmd->file); exit();`
    else []
  | fds, node, .list l r => runcmd opens fds (node ++ [false]) l ++ runcmd opens fds (node ++ [true]) r
  | fds, node, .pipe l r =>
    match pipe fds node with
    -- `panic("pipe")`
    | none => []
    | some (p0, p1, fds) =>
      -- `close(1); dup(p[1]); close(p[0]); close(p[1]);` and the same for `0`
      runcmd opens (close (close (dup (close fds 1) p1) p0) p1) (node ++ [false]) l ++
        runcmd opens (close (close (dup (close fds 0) p0) p0) p1) (node ++ [true]) r
  | fds, node, .back c => runcmd opens fds (node ++ [false]) c

/-- What a tree means: each program it runs, with its descriptors 0 and 1.  A
redirection sets one of them for the command inside it, where a redirection
further in, written before it, wins; a pipe connects the output of its left side
to the input of its right. -/
def wiring (opens : List Char → ℕ → Bool) : Option (Desc α) → Option (Desc α) → List Bool →
    Cmd → List (List (List Char) × Option (Desc α) × Option (Desc α))
  | i, o, _, .exec argv => if argv = [] then [] else [(argv, i, o)]
  | i, o, node, .redir c f m fd =>
    if opens f m then
      if fd = 0 then wiring opens (some (.file f m)) o (node ++ [false]) c
      else wiring opens i (some (.file f m)) (node ++ [false]) c
    else []
  | i, o, node, .list l r => wiring opens i o (node ++ [false]) l ++ wiring opens i o (node ++ [true]) r
  | i, o, node, .pipe l r =>
    wiring opens i (some (.pipeW node)) (node ++ [false]) l ++
      wiring opens (some (.pipeR node)) o (node ++ [true]) r
  | i, o, node, .back c => wiring opens i o (node ++ [false]) c

/-! ### The lowest free descriptor -/

theorem lowestFree_eq_some {β : Type} {ofile : Fin nofile → Option β} {fd : Fin nofile} :
    lowestFree ofile = some fd ↔ ofile fd = none ∧ ∀ k < fd, ofile k ≠ none := by
  rw [lowestFree, List.find?_eq_some_iff_getElem]
  constructor
  · rintro ⟨hfd, i, hi, heq, hlt⟩
    simp only [List.getElem_finRange] at heq
    subst heq
    refine ⟨by simpa using hfd, fun k hk => ?_⟩
    have := hlt k.val (by simpa [Fin.lt_def] using hk)
    simpa [Option.isSome_iff_ne_none] using this
  · rintro ⟨hfd, hlt⟩
    refine ⟨by simpa using hfd, fd.val, by simp, by simp, fun j hj => ?_⟩
    have := hlt ⟨j, by omega⟩ (by simpa [Fin.lt_def] using hj)
    simpa [Option.isSome_iff_ne_none] using this

/-- Some descriptor is free when one is. -/
theorem lowestFree_isSome {β : Type} {ofile : Fin nofile → Option β} {a : Fin nofile}
    (ha : ofile a = none) : ∃ fd, lowestFree ofile = some fd := by
  rw [← Option.isSome_iff_exists, lowestFree, List.find?_isSome]
  exact ⟨a, List.mem_finRange a, by simpa using ha⟩

/-- The tables `runcmd` is run with: descriptors 0 and 1 open, and two others free. -/
structure Ready (fds : Fds α) : Prop where
  zero : fds 0 ≠ none
  one : fds 1 ≠ none
  free : ∃ a b, a ≠ b ∧ fds a = none ∧ fds b = none

/-- Setting descriptor 0 or 1 keeps a table ready. -/
theorem Ready.update {fds : Fds α} (h : Ready fds) {k : Fin nofile} (hk : k = 0 ∨ k = 1)
    (d : Desc α) : Ready (Function.update fds k (some d)) := by
  obtain ⟨a, b, hab, ha, hb⟩ := h.free
  have hak : a ≠ k := by rcases hk with rfl | rfl <;> rintro rfl; exacts [h.zero ha, h.one ha]
  have hbk : b ≠ k := by rcases hk with rfl | rfl <;> rintro rfl; exacts [h.zero hb, h.one hb]
  refine ⟨?_, ?_, a, b, hab, by simp [hak, ha], by simp [hbk, hb]⟩ <;>
    · rw [Function.update_apply]
      split_ifs
      · simp
      · first | exact h.zero | exact h.one

/-- The table a program starts with: descriptors 0 and 1 set. -/
def withInOut (fds : Fds α) (i o : Option (Desc α)) : Fds α :=
  Function.update (Function.update fds 0 i) 1 o

theorem withInOut_self (fds : Fds α) : withInOut fds (fds 0) (fds 1) = fds := by
  simp [withInOut]

/-- What descriptor 0 or 1 referred to before does not show. -/
theorem withInOut_update {fds : Fds α} {k : Fin nofile} (hk : k = 0 ∨ k = 1) (d i o : Option (Desc α)) :
    withInOut (Function.update fds k d) i o = withInOut fds i o := by
  rcases hk with rfl | rfl
  · simp [withInOut]
  · simp only [withInOut]
    rw [Function.update_comm (by decide : (1 : Fin nofile) ≠ 0), Function.update_idem]

theorem close_fin (fds : Fds α) (k : Fin nofile) : close fds k = Function.update fds k none :=
  dif_pos k.isLt

theorem close_zero (fds : Fds α) : close fds 0 = Function.update fds 0 none :=
  close_fin fds 0

theorem close_one (fds : Fds α) : close fds 1 = Function.update fds 1 none :=
  close_fin fds 1

/-- `open` or `dup` after `close(0)` or `close(1)` takes the descriptor just closed:
every descriptor below it is open. -/
theorem fdalloc_update_none {fds : Fds α} (h0 : fds 0 ≠ none) {k : Fin nofile}
    (hk : k = 0 ∨ k = 1) (d : Desc α) :
    fdalloc (Function.update fds k none) d = some (k, Function.update fds k (some d)) := by
  have hlow : lowestFree (Function.update fds k none) = some k := by
    rw [lowestFree_eq_some]
    refine ⟨by simp, fun j hj => ?_⟩
    -- only descriptor 0 lies below 1, and it is open
    have hj0 : j = 0 := by
      rcases hk with rfl | rfl
      · exact absurd hj (Fin.not_lt_zero j)
      · have h1 : ((1 : Fin nofile) : ℕ) = 1 := rfl
        rw [Fin.lt_def, h1] at hj
        ext
        simp only [Fin.val_zero]
        omega
    subst hj0
    rwa [Function.update_of_ne (ne_of_lt hj)]
  rw [fdalloc, hlow, Option.map_some, Function.update_idem]

/-- `pipe` on a ready table: two free descriptors other than 0 and 1. -/
theorem pipe_ready {fds : Fds α} (h : Ready fds) (node : List Bool) :
    ∃ p0 p1, pipe fds node = some (p0, p1,
        Function.update (Function.update fds p0 (some (.pipeR node))) p1 (some (.pipeW node))) ∧
      fds p0 = none ∧ fds p1 = none ∧ p0 ≠ p1 := by
  obtain ⟨a, b, hab, ha, hb⟩ := h.free
  obtain ⟨p0, h0⟩ := lowestFree_isSome ha
  have hp0 := (lowestFree_eq_some.mp h0).1
  -- one of the two free descriptors is still free
  have hfree : ∃ c, Function.update fds p0 (some (Desc.pipeR node)) c = none := by
    by_cases hap : a = p0
    · exact ⟨b, by rw [Function.update_apply, if_neg (by rintro rfl; exact hab hap)]; exact hb⟩
    · exact ⟨a, by rw [Function.update_apply, if_neg hap]; exact ha⟩
  obtain ⟨c, hc⟩ := hfree
  obtain ⟨p1, h1⟩ := lowestFree_isSome hc
  have hp1 := (lowestFree_eq_some.mp h1).1
  have hne : p0 ≠ p1 := by
    rintro rfl
    simp at hp1
  refine ⟨p0, p1, ?_, hp0, ?_, hne⟩
  · simp [pipe, fdalloc, h0, h1]
  · rwa [Function.update_apply, if_neg hne.symm] at hp1

/-- A free descriptor of a ready table is neither 0 nor 1. -/
theorem Ready.ne_of_free {fds : Fds α} (h : Ready fds) {p : Fin nofile} (hp : fds p = none) :
    p ≠ 0 ∧ p ≠ 1 :=
  ⟨by rintro rfl; exact h.zero hp, by rintro rfl; exact h.one hp⟩

/-- A child of a pipe: `close(k); dup(p[k']); close(p[0]); close(p[1]);` leaves the
table it was forked with, but for descriptor `k`, which refers to end `p` of the
pipe. -/
theorem pipe_child {fds : Fds α} (h : Ready fds) {p0 p1 : Fin nofile} (h0 : fds p0 = none)
    (h1 : fds p1 = none) (hne : p0 ≠ p1) (d0 d1 : Desc α) {k : Fin nofile} (hk : k = 0 ∨ k = 1)
    {p : Fin nofile} (hp : p = p0 ∨ p = p1) :
    let t := Function.update (Function.update fds p0 (some d0)) p1 (some d1)
    close (close (dup (Function.update t k none) p) p0) p1 = Function.update fds k (t p) := by
  intro t
  obtain ⟨hp00, hp01⟩ := h.ne_of_free h0
  obtain ⟨hp10, hp11⟩ := h.ne_of_free h1
  -- the end of the pipe `dup` copies survives `close(k)`
  have hpk : p ≠ k := by rcases hp with rfl | rfl <;> rcases hk with rfl | rfl <;> assumption
  have htp : t p = some (if p = p1 then d1 else d0) := by
    rcases hp with rfl | rfl <;> simp [t, hne]
  have ht0 : t 0 ≠ none := by
    simpa [t, Function.update_of_ne hp00.symm, Function.update_of_ne hp10.symm] using h.zero
  have hdup : dup (Function.update t k none) p = Function.update t k (t p) := by
    rw [dup, Function.update_of_ne hpk, htp]
    dsimp only
    rw [fdalloc_update_none (by rcases hk with rfl | rfl <;> simpa [t, hp00.symm] using ht0) hk]
    rfl
  rw [hdup, close_fin, close_fin]
  funext x
  by_cases hx1 : x = p1
  · subst hx1
    simp [Function.update_of_ne (show x ≠ k by rcases hk with rfl | rfl <;> assumption), h1]
  by_cases hx0 : x = p0
  · subst hx0
    simp [Function.update_of_ne (show x ≠ k by rcases hk with rfl | rfl <;> assumption), h0, hne]
  by_cases hxk : x = k
  · subst hxk
    simp [hx0, hx1]
  · simp [t, hx0, hx1, hxk]

/-! ### `runcmd` follows the wiring -/

/-- **`runcmd` follows the wiring.**  Run on a table with descriptors 0 and 1 open
and two others free, every program a well-formed tree runs starts with descriptors
0 and 1 as `wiring` says, and every other descriptor as the shell had it: each
redirection and each end of a pipe lands in descriptor 0 or 1 and in nothing else. -/
theorem runcmd_wiring (opens : List Char → ℕ → Bool) {c : Cmd} (hc : c.Wf) {fds : Fds α}
    (h : Ready fds) (node : List Bool) :
    runcmd opens fds node c =
      (wiring opens (fds 0) (fds 1) node c).map fun e => (e.1, withInOut fds e.2.1 e.2.2) := by
  have h10 : (1 : Fin nofile) ≠ 0 := by decide
  induction c generalizing fds node with
  | exec argv =>
    by_cases ha : argv = [] <;> simp [runcmd, wiring, ha, withInOut_self]
  | redir c f m fd ih =>
    obtain ⟨hc, -, hmode⟩ := hc
    by_cases ho : opens f m
    swap
    · simp [runcmd, wiring, ho]
    -- `Cmd.Wf` puts every redirection on descriptor 0 or 1
    have hfd : fd = 0 ∨ fd = 1 := by rcases hmode with ⟨-, rfl⟩ | ⟨-, rfl⟩ <;> simp
    rcases hfd with rfl | rfl
    · rw [runcmd, if_pos ho, close_zero, fdalloc_update_none h.zero (Or.inl rfl), wiring,
        if_pos ho, if_pos rfl]
      dsimp only
      rw [ih hc (h.update (Or.inl rfl) _)]
      simp [Function.update_of_ne h10, withInOut_update (Or.inl rfl)]
    · rw [runcmd, if_pos ho, close_one, fdalloc_update_none h.zero (Or.inr rfl), wiring,
        if_pos ho, if_neg one_ne_zero]
      dsimp only
      rw [ih hc (h.update (Or.inr rfl) _)]
      simp [Function.update_of_ne h10.symm, withInOut_update (Or.inr rfl)]
  | list l r ihl ihr =>
    rw [runcmd, wiring, List.map_append, ihl hc.1 h, ihr hc.2 h]
  | pipe l r ihl ihr =>
    obtain ⟨p0, p1, hp, h0, h1, hne⟩ := pipe_ready h node
    rw [runcmd, hp]
    dsimp only
    -- the left side writes to the pipe, the right side reads from it
    rw [close_one, close_zero,
      pipe_child h h0 h1 hne (.pipeR node) (.pipeW node) (Or.inr rfl) (Or.inr rfl),
      pipe_child h h0 h1 hne (.pipeR node) (.pipeW node) (Or.inl rfl) (Or.inl rfl)]
    simp only [Function.update_self, Function.update_of_ne hne]
    rw [ihl hc.1 (h.update (Or.inr rfl) _), ihr hc.2 (h.update (Or.inl rfl) _), wiring,
      List.map_append]
    simp [Function.update_of_ne h10, Function.update_of_ne h10.symm, withInOut_update (Or.inl rfl),
      withInOut_update (Or.inr rfl)]
  | back c ih =>
    rw [runcmd, wiring, ih hc h]

/-- `ls | wc > o`, run from a shell with descriptors 0, 1 and 2 open. -/
theorem runcmd_wiring_pipe :
    (Cmd.pipe (.exec [['l', 's']]) (.redir (.exec [['w', 'c']]) ['o'] (oWronly ||| oCreate) 1)).Wf ∧
      Ready (fun fd : Fin nofile => if fd.val < 3 then some (Desc.old ()) else none) ∧
      runcmd (fun _ _ => true) (fun fd : Fin nofile => if fd.val < 3 then some (Desc.old ()) else none) []
          (.pipe (.exec [['l', 's']]) (.redir (.exec [['w', 'c']]) ['o'] (oWronly ||| oCreate) 1)) =
        (wiring (fun _ _ => true) (some (Desc.old ())) (some (Desc.old ())) []
          (.pipe (.exec [['l', 's']]) (.redir (.exec [['w', 'c']]) ['o'] (oWronly ||| oCreate) 1))).map
          fun e => (e.1, withInOut (fun fd : Fin nofile => if fd.val < 3 then some (Desc.old ()) else none)
            e.2.1 e.2.2) :=
  have hwf : (Cmd.pipe (.exec [['l', 's']])
      (.redir (.exec [['w', 'c']]) ['o'] (oWronly ||| oCreate) 1)).Wf := by
    simp [Cmd.Wf, IsWord, RedirWf, whitespace, symbols, maxargs, Grep.nul]
  have hr : Ready (fun fd : Fin nofile => if fd.val < 3 then some (Desc.old ()) else none) :=
    ⟨by decide, by decide, 3, 4, by decide, rfl, rfl⟩
  ⟨hwf, hr, runcmd_wiring _ hwf hr _⟩

/-- `ls` writes to the pipe and `wc` reads from it and writes to `o`. -/
example : wiring (fun _ _ => true) (some (Desc.old ())) (some (Desc.old ())) []
    (.pipe (.exec [['l', 's']]) (.redir (.exec [['w', 'c']]) ['o'] (oWronly ||| oCreate) 1)) =
      [([['l', 's']], some (.old ()), some (.pipeW [])),
        ([['w', 'c']], some (.pipeR []), some (.file ['o'] (oWronly ||| oCreate)))] := by
  decide

end Sh

end Xv6
