import Xv6.Syscall

/-!
# The process table

`proc.c` keeps every process in one of `NPROC` slots of `ptable`.  A slot is
`UNUSED` until `allocproc` claims it for `fork` or `userinit`, and returns to
`UNUSED` when the parent's `wait` reaps it.  This file models the slots with the
fields the life cycle, `kill` and the alarm of `trap.c` read and write, and the
functions of `proc.c` that change them.

Kernel stacks and page tables belong to the memory model; here the outcome of
allocating them is an argument of `allocproc` and `fork`.

## Main definitions

* `Proc`, `Ptable`, `Ptable.boot` — a slot, the table, and the zeroed table the
  kernel starts with (`ptable` is a static variable, `nextpid = 1`).
* `allocproc`, `userinit`, `fork`, `exit`, `wait`, `kill`, `wakeup1`, `sleep` —
  the functions of `proc.c`.

## Main results

* `allocproc_spec` — what `allocproc` leaves in the slot it claims: everything
  the previous occupant left, but for `state` and `pid`.
* `wait_reap_spec` — what `wait` clears in a reaped slot, and what it leaves.
-/

namespace Xv6

/-! ### Slots and the table -/

instance : NeZero nproc := ⟨by decide⟩

/-- `enum procstate`. -/
inductive Procstate
  | unused
  | embryo
  | sleeping
  | runnable
  | running
  | zombie
  deriving DecidableEq, Repr

/-- What a process sleeps on: its own slot, as `wait` does, or another kernel
address. -/
inductive Chan
  | proc (i : Fin nproc)
  | addr (a : ℕ)
  deriving DecidableEq, Repr

/-- The registers of `struct trapframe` the model reads: `%eax` (system call
number in, result out), the user program counter, code segment and stack pointer. -/
structure Trapframe where
  eax : ℕ
  eip : ℕ
  cs : ℕ
  esp : ℕ
  deriving DecidableEq, Repr

/-- The zeroed trap frame. -/
def Trapframe.zero : Trapframe := ⟨0, 0, 0, 0⟩

/-- A slot of `ptable`: the fields of `struct proc` that the process life cycle,
`kill` and the alarm use.  `parent` is the slot of the parent, `none` for a null
pointer; `chan` is `none` for a null channel. -/
structure Proc where
  sz : ℕ
  state : Procstate
  pid : ℤ
  parent : Option (Fin nproc)
  tf : Trapframe
  chan : Option Chan
  killed : ℤ
  alarmticks : ℤ
  alarmhandler : ℕ
  tickCounts : ℤ
  deriving DecidableEq, Repr

/-- A slot as the zero-initialised static `ptable` holds it. -/
def Proc.zero : Proc :=
  ⟨0, .unused, 0, none, .zero, none, 0, 0, 0, 0⟩

/-- `ptable` with the globals `nextpid` and `initproc`. -/
structure Ptable where
  proc : Fin nproc → Proc
  nextpid : ℤ
  initproc : Option (Fin nproc)

/-- The table at boot: every slot zero, `nextpid = 1`, no `initproc`. -/
def Ptable.boot : Ptable := ⟨fun _ => .zero, 1, none⟩

namespace Ptable

/-- Replace slot `i`. -/
def setProc (t : Ptable) (i : Fin nproc) (p : Proc) : Ptable :=
  { t with proc := Function.update t.proc i p }

@[simp] theorem setProc_self (t : Ptable) (i : Fin nproc) (p : Proc) :
    (t.setProc i p).proc i = p := by simp [setProc]

@[simp] theorem setProc_ne (t : Ptable) {i j : Fin nproc} (p : Proc) (h : j ≠ i) :
    (t.setProc i p).proc j = t.proc j := by simp [setProc, h]

@[simp] theorem setProc_nextpid (t : Ptable) (i : Fin nproc) (p : Proc) :
    (t.setProc i p).nextpid = t.nextpid := rfl

@[simp] theorem setProc_initproc (t : Ptable) (i : Fin nproc) (p : Proc) :
    (t.setProc i p).initproc = t.initproc := rfl

/-- Change slot `i` by `f`. -/
def modify (t : Ptable) (i : Fin nproc) (f : Proc → Proc) : Ptable := t.setProc i (f (t.proc i))

@[simp] theorem modify_proc_self (t : Ptable) (i : Fin nproc) (f : Proc → Proc) :
    (t.modify i f).proc i = f (t.proc i) := setProc_self _ _ _

theorem modify_proc_ne (t : Ptable) {i j : Fin nproc} (f : Proc → Proc) (h : j ≠ i) :
    (t.modify i f).proc j = t.proc j := setProc_ne _ _ h

theorem modify_proc (t : Ptable) (i j : Fin nproc) (f : Proc → Proc) :
    (t.modify i f).proc j = if j = i then f (t.proc i) else t.proc j := by
  split_ifs with h
  · subst h; exact modify_proc_self _ _ _
  · exact modify_proc_ne _ _ h

@[simp] theorem modify_nextpid (t : Ptable) (i : Fin nproc) (f : Proc → Proc) :
    (t.modify i f).nextpid = t.nextpid := rfl

@[simp] theorem modify_initproc (t : Ptable) (i : Fin nproc) (f : Proc → Proc) :
    (t.modify i f).initproc = t.initproc := rfl

end Ptable

/-! ### Allocation -/

/-- The first `UNUSED` slot, in table order: the scan of `allocproc`. -/
def firstUnused (t : Ptable) : Option (Fin nproc) :=
  (List.finRange nproc).find? fun i => (t.proc i).state = .unused

/-- `allocproc`: claim the first `UNUSED` slot as `EMBRYO` with pid `nextpid++`.
When its kernel stack cannot be allocated (`kstackOk = false`) the slot goes back
to `UNUSED`, the pid spent.  The resets of `tick_counts` and `alarmticks` are
commented out in the source, and nothing else of the previous occupant is
cleared. -/
def allocproc (t : Ptable) (kstackOk : Bool) : Ptable × Option (Fin nproc) :=
  match firstUnused t with
  | none => (t, none)
  | some i =>
    let t' := { t.modify i fun p => { p with state := .embryo, pid := t.nextpid } with
      nextpid := t.nextpid + 1 }
    if kstackOk then (t', some i) else (t'.modify i fun p => { p with state := .unused }, none)

/-- The user code segment selector, `(SEG_UCODE << 3) | DPL_USER`. -/
def ucodeSel : ℕ := 3 * 8 + 3

/-- `userinit`: the first process, one page of `initcode` at address 0, with its
stack at the top of that page.  At boot the table is empty, so `allocproc`
succeeds. -/
def userinit (t : Ptable) : Ptable :=
  match allocproc t true with
  | (t', none) => t'
  | (t', some i) =>
    { t'.modify i fun p =>
        { p with sz := pgsize, tf := { Trapframe.zero with cs := ucodeSel, esp := pgsize },
                 state := .runnable } with
      initproc := some i }

/-- `fork` by the process in slot `cur`: `-1` if no slot or kernel stack is free, or
if `copyuvm` fails (`copyOk = false`), which hands the slot back; otherwise the
child's pid, the child `RUNNABLE` with the parent's size and trap frame, `%eax`
cleared. -/
def fork (t : Ptable) (cur : Fin nproc) (kstackOk copyOk : Bool) : Ptable × ℤ :=
  match allocproc t kstackOk with
  | (t', none) => (t', -1)
  | (t', some np) =>
    if copyOk then
      (t'.modify np fun p =>
        { p with sz := (t.proc cur).sz, parent := some cur,
                 tf := { (t.proc cur).tf with eax := 0 }, state := .runnable },
        (t'.proc np).pid)
    else (t'.modify np fun p => { p with state := .unused }, -1)

/-! ### Sleep and wakeup -/

/-- `wakeup1`: every process `SLEEPING` on `c` becomes `RUNNABLE`. -/
def wakeup1 (t : Ptable) (c : Option Chan) : Ptable :=
  { t with proc := fun i => (fun p =>
      if p.state = .sleeping ∧ p.chan = c then { p with state := .runnable } else p) (t.proc i) }

/-- `sleep`: the process in slot `cur` records its channel and sleeps. -/
def sleep (t : Ptable) (cur : Fin nproc) (c : Chan) : Ptable :=
  t.modify cur fun p => { p with chan := some c, state := .sleeping }

/-! ### Exit, wait and kill -/

/-- The children of `cur` pass to `initproc`: the loop of `exit`. -/
def reparent (t : Ptable) (cur : Fin nproc) : Ptable :=
  { t with proc := fun i => (fun p => if p.parent = some cur then { p with parent := t.initproc } else p) (t.proc i) }

/-- `cur` has a child that is a zombie. -/
def hasZombieChild (t : Ptable) (cur : Fin nproc) : Bool :=
  (List.finRange nproc).any fun i => (t.proc i).parent = some cur ∧ (t.proc i).state = .zombie

/-- `exit` by the process in slot `cur`, `none` when it is `initproc` ("init
exiting").  The parent is woken, the children pass to `initproc` (which is woken
too if one of them is a zombie), and the process becomes a `ZOMBIE`. -/
def exit (t : Ptable) (cur : Fin nproc) : Option Ptable :=
  if t.initproc = some cur then none
  else
    let t₁ := wakeup1 t ((t.proc cur).parent.map .proc)
    let t₂ := reparent t₁ cur
    let t₃ := if hasZombieChild t₁ cur then wakeup1 t₂ (t₂.initproc.map .proc) else t₂
    some (t₃.modify cur fun p => { p with state := .zombie })

/-- How a call of `wait` ends: with the pid of a reaped child, with `-1`, or
asleep until a child exits. -/
inductive WaitOutcome
  | reaped (pid : ℤ)
  | failed
  | sleeps
  deriving DecidableEq, Repr

/-- The first zombie child of `cur`, in table order. -/
def firstZombieChild (t : Ptable) (cur : Fin nproc) : Option (Fin nproc) :=
  (List.finRange nproc).find? fun i =>
    (t.proc i).parent = some cur ∧ (t.proc i).state = .zombie

/-- `wait` by the process in slot `cur`.  A zombie child is reaped: its kernel
stack and page table are freed and `pid`, `parent`, `name` and `killed` cleared,
and its slot becomes `UNUSED`; the alarm fields and the size stay as they were.
Without children, or once killed, `wait` fails; otherwise it sleeps on its own
slot. -/
def wait (t : Ptable) (cur : Fin nproc) : Ptable × WaitOutcome :=
  match firstZombieChild t cur with
  | some c =>
    (t.modify c fun p => { p with pid := 0, parent := none, killed := 0, state := .unused },
      .reaped (t.proc c).pid)
  | none =>
    let havekids := (List.finRange nproc).any fun i => (t.proc i).parent = some cur
    if !havekids || (t.proc cur).killed ≠ 0 then (t, .failed)
    else (sleep t cur (.proc cur), .sleeps)

/-- The first slot whose `pid` is `pid`, in table order, whatever its state. -/
def findPid (t : Ptable) (pid : ℤ) : Option (Fin nproc) :=
  (List.finRange nproc).find? fun i => (t.proc i).pid = pid

/-- `kill`: mark the first slot with the given pid killed, waking it if it sleeps;
`-1` if there is none.  Free slots are not skipped. -/
def kill (t : Ptable) (pid : ℤ) : Ptable × ℤ :=
  match findPid t pid with
  | none => (t, -1)
  | some i =>
    (t.modify i fun p =>
      { p with killed := 1, state := (if p.state = .sleeping then .runnable else p.state) }, 0)

/-! ### Specifications -/

theorem firstUnused_state {t : Ptable} {i : Fin nproc} (h : firstUnused t = some i) :
    (t.proc i).state = .unused := by
  simpa using List.find?_some h

/-- The slot `allocproc` claims keeps everything its previous occupant left but
`state` and `pid`; the other slots are untouched. -/
theorem allocproc_spec {t t' : Ptable} {ok : Bool} {i : Fin nproc}
    (h : allocproc t ok = (t', some i)) :
    (t.proc i).state = .unused ∧ t'.proc i = { t.proc i with state := .embryo, pid := t.nextpid } ∧
      t'.nextpid = t.nextpid + 1 ∧ t'.initproc = t.initproc ∧ ∀ j, j ≠ i → t'.proc j = t.proc j := by
  unfold allocproc at h
  split at h
  · cases h
  · rename_i i' hi'
    cases ok
    · simp at h
    · simp only [if_true, Prod.mk.injEq, Option.some.injEq] at h
      obtain ⟨rfl, rfl⟩ := h
      refine ⟨firstUnused_state hi', by simp [Ptable.modify], rfl, rfl, ?_⟩
      intro j hj
      simp [Ptable.modify, hj]

/-- A child `fork` creates starts with what the previous occupant of its slot left
in `killed` and in the alarm fields. -/
theorem fork_child {t t' : Ptable} {cur : Fin nproc} {ok₁ ok₂ : Bool} {pid : ℤ}
    (h : fork t cur ok₁ ok₂ = (t', pid)) (hpid : pid ≠ -1) :
    ∃ np, (t.proc np).state = .unused ∧ (t'.proc np).pid = pid ∧
      (t'.proc np).state = .runnable ∧ (t'.proc np).parent = some cur ∧
      (t'.proc np).killed = (t.proc np).killed ∧
      (t'.proc np).alarmticks = (t.proc np).alarmticks ∧
      (t'.proc np).alarmhandler = (t.proc np).alarmhandler ∧
      (t'.proc np).tickCounts = (t.proc np).tickCounts := by
  unfold fork at h
  split at h
  · simp at h; exact absurd h.2.symm hpid
  · rename_i t₁ np hal
    obtain ⟨hunused, hnp, -, -, -⟩ := allocproc_spec hal
    split at h
    · simp only [Prod.mk.injEq] at h
      obtain ⟨rfl, rfl⟩ := h
      refine ⟨np, hunused, ?_⟩
      simp [Ptable.modify, hnp]
    · simp at h; exact absurd h.2.symm hpid

/-- `wait` clears `pid`, `parent` and `killed` of the slot it reaps, and leaves its
alarm fields as the exited process left them. -/
theorem wait_reap_spec {t t' : Ptable} {cur : Fin nproc} {pid : ℤ}
    (h : wait t cur = (t', .reaped pid)) :
    ∃ c, (t.proc c).pid = pid ∧ (t.proc c).state = .zombie ∧
      t'.proc c = { t.proc c with pid := 0, parent := none, killed := 0, state := .unused } := by
  unfold wait at h
  split at h
  · rename_i c hc
    simp only [Prod.mk.injEq, WaitOutcome.reaped.injEq] at h
    obtain ⟨rfl, rfl⟩ := h
    have hz := List.find?_some hc
    simp only [decide_eq_true_eq] at hz
    exact ⟨c, rfl, hz.2, by simp [Ptable.modify]⟩
  · simp only at h
    split at h <;> simp at h

end Xv6
