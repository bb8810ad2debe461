import Xv6.Proc
import Xv6.Lib.Run

/-!
# Traps: system calls and the timer alarm

`trap` in `trap.c` is where a process enters the kernel.  A system call records
the user registers in the process's trap frame and dispatches on `%eax`; a timer
interrupt taken in user mode counts a tick for the process and, when the count
reaches the process's `alarmticks`, pushes the user program counter on the user
stack and redirects the process to its `alarmhandler`.  Both paths exit a killed
process, and the timer yields the processor.

## Main definitions

* `UserCtx` — what user code controls when it enters the kernel.
* `Call`, `sysAlarm`, `sysKill`, `syscallStep` — the system calls of the process
  table, dispatched from `trap`.
* `alarmTick`, `timerStep` — the timer case of `trap`.
* `Event`, `step`, `Reachable`, `runEvents` — the process table as a transition
  system from `Ptable.boot`.
-/

namespace Xv6

/-! ### Entering the kernel -/

/-- What user code controls when it enters the kernel: its program counter, its
stack pointer and the contents of its memory. -/
structure UserCtx where
  eip : ℕ
  esp : ℕ
  mem : ℕ → UInt8

/-- The trap frame the hardware and `alltraps` build for an entry from user mode. -/
def UserCtx.frame (c : UserCtx) (eax : ℕ) : Trapframe := ⟨eax, c.eip, ucodeSel, c.esp⟩

/-- What argument fetching sees of slot `i` entered with `c`. -/
def Ptable.userView (t : Ptable) (i : Fin nproc) (c : UserCtx) : UserView :=
  ⟨(t.proc i).sz, c.esp, fun _ => false, c.mem⟩

/-- The system calls that change the process table.  `fork` carries the outcome of
its two allocations, and `exec` the image it commits to: the size, entry point
and stack pointer of the new program. -/
inductive Call
  | fork (kstackOk copyOk : Bool)
  | exit
  | wait
  | kill
  | alarm
  | exec (sz entry sp : ℕ)

/-- `sys_alarm`: record the period and the handler, checked by `argptr` to point
into the process.  The tick counter is not touched. -/
def sysAlarm (t : Ptable) (cur : Fin nproc) (u : UserView) : Ptable × ℤ :=
  match argint u 0 with
  | none => (t, -1)
  | some ticks =>
    match argptr u 1 1 with
    | none => (t, -1)
    | some handler => (t.modify cur fun p => { p with alarmticks := ticks, alarmhandler := handler }, 0)

/-- `sys_kill`. -/
def sysKill (t : Ptable) (u : UserView) : Ptable × ℤ :=
  match argint u 0 with
  | none => (t, -1)
  | some pid => kill t pid

/-- The result of a system call written back to `%eax`. -/
def Ptable.setEax (t : Ptable) (cur : Fin nproc) (r : ℤ) : Ptable :=
  t.modify cur fun p => { p with tf := { p.tf with eax := toUint r } }

/-- Run one call for the process in slot `cur`, `none` on a kernel panic.  `exit`
does not return, and a `wait` that sleeps has no result yet; a successful `exec`
replaces the size, program counter and stack pointer and nothing else. -/
def runCall (t : Ptable) (cur : Fin nproc) (c : UserCtx) : Call → Option Ptable
  | .fork ok₁ ok₂ => let r := fork t cur ok₁ ok₂; some (r.1.setEax cur r.2)
  | .exit => exit t cur
  | .wait =>
    match wait t cur with
    | (t', .reaped pid) => some (t'.setEax cur pid)
    | (t', .failed) => some (t'.setEax cur (-1))
    | (t', .sleeps) => some t'
  | .kill => let r := sysKill t (t.userView cur c); some (r.1.setEax cur r.2)
  | .alarm => let r := sysAlarm t cur (t.userView cur c); some (r.1.setEax cur r.2)
  | .exec sz entry sp =>
    some ((t.modify cur fun p => { p with sz := sz, tf := { p.tf with eip := entry, esp := sp } }).setEax
      cur 0)

/-- The `T_SYSCALL` case of `trap`: record the frame, exit if killed, run the call,
exit if killed since. -/
def syscallStep (t : Ptable) (cur : Fin nproc) (c : UserCtx) (call : Call) : Option Ptable :=
  let t₀ := t.modify cur fun p => { p with tf := c.frame p.tf.eax }
  if (t₀.proc cur).killed ≠ 0 then exit t₀ cur
  else
    match runCall t₀ cur c call with
    | none => none
    | some t₁ => if (t₁.proc cur).killed ≠ 0 ∧ (t₁.proc cur).state ≠ .zombie then exit t₁ cur else some t₁

/-! ### The timer -/

/-- The alarm logic of the timer case of `trap`, for a process interrupted in user
mode: count the tick, and when the count equals `alarmticks`, push the user
`%eip` at `%esp - 4` and resume at the handler.  Returns the process and the four
bytes of user memory stored to, if any; the store address is not checked. -/
def alarmTick (p : Proc) : Proc × Option Region :=
  let n := p.tickCounts + 1
  if n = p.alarmticks then
    let esp := wrap32 (p.tf.esp + 2 ^ 32 - 4)
    ({ p with tickCounts := 0, tf := { p.tf with esp := esp, eip := p.alarmhandler } },
      some ⟨esp, 4⟩)
  else ({ p with tickCounts := n }, none)

/-- A timer interrupt taken by the process in slot `cur` while it runs in user
mode with context `c`: the alarm, then exit if killed, else `yield`. -/
def timerStep (t : Ptable) (cur : Fin nproc) (c : UserCtx) : Option Ptable :=
  let t₁ := t.modify cur fun p => (alarmTick { p with tf := c.frame p.tf.eax }).1
  if (t₁.proc cur).killed ≠ 0 then exit t₁ cur
  else some (t₁.modify cur fun p => { p with state := .runnable })

/-- The user memory the timer interrupt stores to. -/
def timerStore (t : Ptable) (cur : Fin nproc) (c : UserCtx) : Option Region :=
  (alarmTick { t.proc cur with tf := c.frame (t.proc cur).tf.eax }).2

/-! ### The transition system -/

/-- The events of the process table: the boot's `userinit`, the scheduler
starting a process, and a process entering the kernel by a system call or a
timer interrupt in user mode. -/
inductive Event
  | userinit
  | schedule (i : Fin nproc)
  | syscall (i : Fin nproc) (c : UserCtx) (call : Call)
  | timer (i : Fin nproc) (c : UserCtx)

/-- One step.  Only a `RUNNING` process enters the kernel, and the scheduler only
starts a `RUNNABLE` one; `none` also stands for a kernel panic. -/
def step (t : Ptable) : Event → Option Ptable
  | .userinit => if t.initproc = none then some (userinit t) else none
  | .schedule i =>
    if (t.proc i).state = .runnable then some (t.modify i fun p => { p with state := .running })
    else none
  | .syscall i c call => if (t.proc i).state = .running then syscallStep t i c call else none
  | .timer i c => if (t.proc i).state = .running then timerStep t i c else none

/-- The step relation. -/
def Step (t : Ptable) (e : Event) (t' : Ptable) : Prop := step t e = some t'

/-- The tables reachable from boot. -/
def Reachable : Ptable → Prop := Transition.Reachable Step (· = Ptable.boot)

/-- Run events in order from `t`, stopping at the first that cannot happen. -/
def runEvents (t : Ptable) : List Event → Option Ptable
  | [] => some t
  | e :: es => (step t e).bind fun t' => runEvents t' es

theorem runEvents_run {t t' : Ptable} :
    ∀ {es : List Event}, runEvents t es = some t' → Transition.Run Step t es t'
  | [], h => by cases h; exact .nil t
  | e :: es, h => by
    simp only [runEvents, Option.bind_eq_some_iff] at h
    obtain ⟨t₁, h₁, h₂⟩ := h
    exact .cons h₁ (runEvents_run h₂)

/-- A table that some list of events reaches from boot is reachable. -/
theorem reachable_of_runEvents {es : List Event} {t : Ptable}
    (h : runEvents .boot es = some t) : Reachable t :=
  ⟨_, es, rfl, runEvents_run h⟩

/-! ### Runs from boot -/

/-- A process of one page entering the kernel with its stack pointer just below the
top of the page and the words `a0`, `a1` as its first two arguments. -/
def argsCtx (a0 a1 : ℕ) : UserCtx :=
  ⟨0, pgsize - 12, LittleEndian.write (LittleEndian.write (fun _ => 0) (pgsize - 8) 4 a0)
    (pgsize - 4) 4 a1⟩

/-- The slot of a reaped or never used process passes its `killed` flag and its
alarm registration to the next process `fork` creates in it.  In the first run
`initproc` calls `kill(0)`, which marks the free slot 1 (its pid is zero); the
child it then forks lands in slot 1 already killed.  In the second run a child
registers `alarm(5, 16)` and exits, and after `wait` reaps it, the next child in
its slot starts with that alarm armed. -/
theorem fork_child_inherits_slot_state :
    ((runEvents .boot [.userinit, .schedule 0, .syscall 0 (argsCtx 0 0) .kill,
        .syscall 0 (argsCtx 0 0) (.fork true true)]).map fun t =>
      ((t.proc 1).pid, (t.proc 1).state, (t.proc 1).killed)) = some (2, .runnable, 1) ∧
    ((runEvents .boot [.userinit, .schedule 0, .syscall 0 (argsCtx 0 0) (.fork true true),
        .schedule 1, .syscall 1 (argsCtx 5 16) .alarm, .syscall 1 (argsCtx 0 0) .exit,
        .syscall 0 (argsCtx 0 0) .wait, .syscall 0 (argsCtx 0 0) (.fork true true)]).map fun t =>
      ((t.proc 1).pid, (t.proc 1).state, (t.proc 1).alarmticks, (t.proc 1).alarmhandler)) =
      some (3, .runnable, 5, 16) := by
  constructor <;> decide

/-- The alarm counts ticks from the process's creation, not from the `alarm` call:
`initproc` takes one timer tick in user mode, then calls `alarm(2, 16)`, and the
very next tick already redirects it to the handler. -/
theorem alarm_fires_on_first_tick_after_call :
    ((runEvents .boot [.userinit, .schedule 0, .timer 0 (argsCtx 0 0), .schedule 0,
        .syscall 0 (argsCtx 2 16) .alarm]).map fun t =>
      ((t.proc 0).alarmticks, (t.proc 0).tickCounts, (t.proc 0).tf.eip)) = some (2, 1, 0) ∧
    ((runEvents .boot [.userinit, .schedule 0, .timer 0 (argsCtx 0 0), .schedule 0,
        .syscall 0 (argsCtx 2 16) .alarm, .timer 0 (argsCtx 0 0)]).map fun t =>
      (t.proc 0).tf.eip) = some 16 := by
  constructor <;> decide

/-- Two kernel stores to addresses user code chooses, unchecked against the
process size.  `sys_date` passes its argument straight to `cmostime`: a one-page
process calling `date(0x80000000)` makes the kernel write the 24 bytes of a
`struct rtcdate` at `KERNBASE`.  The alarm delivery of the timer pushes the user
`%eip` below the user `%esp`: a process with `alarm(1, 16)` armed that is
interrupted with `%esp = 0x80001000` makes the kernel store four bytes at
`0x80000ffc`. -/
theorem sysDate_and_alarm_store_outside :
    ((runEvents .boot [.userinit, .schedule 0]).map fun t =>
        userStores .date (t.userView 0 (argsCtx kernbase 0))) = some (some [⟨kernbase, sizeofRtcdate⟩]) ∧
      ¬ (⟨kernbase, sizeofRtcdate⟩ : Region).Inside pgsize ∧
    ((runEvents .boot [.userinit, .schedule 0, .syscall 0 (argsCtx 1 16) .alarm]).bind fun t =>
        timerStore t 0 ⟨0, 0x80001000, fun _ => 0⟩) = some ⟨0x80000ffc, 4⟩ ∧
      ¬ (⟨0x80000ffc, 4⟩ : Region).Inside pgsize := by
  refine ⟨by decide, by decide, by decide, by decide⟩

end Xv6
