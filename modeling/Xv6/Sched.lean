import Xv6.Lifecycle

/-!
# The scheduler, `sleep` and `wakeup`, and sleep-locks

Each CPU runs `scheduler`: holding `ptable.lock`, it scans the table for a
`RUNNABLE` process, sets `c->proc` to it, marks it `RUNNING` and switches to it.
A process gives the CPU back through `sched`, from `yield`, `sleep` or `exit`,
having changed its state inside a `ptable.lock` section; the scheduler then sets
`c->proc = 0` and scans on from the next slot, still in the same section.

This file models the CPUs, the kernel threads between `ptable.lock` sections,
the other spinlocks each process holds, and the sleep-locks of `sleeplock.c`, as
a transition system whose steps are whole `ptable.lock` sections (and whole
sections of a sleep-lock's spinlock), in any interleaving.  A step of a process
is one of its calls, or the rest of a call it was switched out in: a `sleep`
taking its lock back, an `acquiresleep` testing `locked` again.

`sleep` releases its lock `lk` only inside the `ptable.lock` section that marks
the caller `SLEEPING`, so a step that takes `lk` after it finds the caller
asleep.  `sleep(chan, &ptable.lock)` is the caller's own section:
`acquire(&ptable.lock); sleep(chan, &ptable.lock); release(&ptable.lock)`.

## Main definitions

* `SPc` — where a kernel thread stands between sections.
* `Sched`, `SchedEvent`, `Sched.step` — the CPUs and threads, and one section.
* `Sched.Start` — the CPUs in their schedulers, every process new and `RUNNABLE`.

## Main results

* `Sched.Inv.step` — a process runs on one CPU, exactly when it is `RUNNING`;
  each sleep-lock is owned by the process whose pid it records.
* `Sched.stirs_of_caller_ne` — a step of another process at most wakes a slot
  or switches to it.
* `Sched.sched_safety` — the four guarantees together.
-/

namespace Xv6

/-- Where a kernel thread stands between `ptable.lock` sections. -/
inductive SPc
  /-- In its own code: in user space, or in a call that has not reached `sched`. -/
  | idle
  /-- Switched out in `yield`, or new and about to start in `forkret`. -/
  | yielded
  /-- Switched out in `sleep`, to take `lk` back on return; `none` for `ptable.lock`. -/
  | slept (lk : Option ℕ)
  /-- Back from `sched` in `sleep`, spinning in `acquire(lk)`. -/
  | reacquire (lk : ℕ)
  /-- Switched out in the `sleep` of `acquiresleep` on the sleep-lock at `a`. -/
  | acquiring (a : ℕ)
  /-- Back from that `sleep`, about to test `lk->locked` again. -/
  | retrying (a : ℕ)
  deriving DecidableEq, Repr

namespace SPc

/-- Switched out inside `sleep`: `sleep` clears `p->chan` when it returns. -/
def asleep : SPc → Bool
  | .slept _ => true
  | .acquiring _ => true
  | _ => false

/-- Where a thread goes when its scheduler switches to it: out of `sched` and
through the rest of the section, which ends in `release(&ptable.lock)`. -/
def resume : SPc → SPc
  | .slept none => .idle
  | .slept (some lk) => .reacquire lk
  | .acquiring a => .retrying a
  | _ => .idle

end SPc

/-- The process table; each CPU's `c->proc`; each kernel thread's place; the
spinlocks other than `ptable.lock` each process holds, in the order it took them;
the fields `locked` and `pid` of the sleep-lock at each address; and the
sleep-locks each process has acquired and not released, a record the code does
not keep. -/
structure Sched where
  tab : Ptable
  cpu : Fin ncpu → Option (Fin nproc)
  pc : Fin nproc → SPc
  held : Fin nproc → List ℕ
  locked : ℕ → Bool
  slpid : ℕ → ℤ
  owns : Fin nproc → ℕ → Bool

/-- One section: a scheduler starting a pass over the table, or a call of the
process `p`, which runs on some CPU. -/
inductive SchedEvent
  /-- `scheduler` of CPU `c` takes `ptable.lock` for a new pass. -/
  | schedule (c : Fin ncpu)
  /-- `yield()`. -/
  | yield (p : Fin nproc)
  /-- `sleep(chan, lk)`; `lk = none` for `&ptable.lock`. -/
  | sleep (p : Fin nproc) (chan : Chan) (lk : Option ℕ)
  /-- `wakeup(chan)`. -/
  | wakeup (p : Fin nproc) (chan : Chan)
  /-- `kill(pid)`. -/
  | kill (p : Fin nproc) (pid : ℤ)
  /-- The `ptable.lock` section of `exit()`. -/
  | exit (p : Fin nproc)
  /-- `acquire(lk)` of another spinlock. -/
  | acquire (p : Fin nproc) (lk : ℕ)
  /-- `release(lk)`. -/
  | release (p : Fin nproc) (lk : ℕ)
  /-- The `acquire(lk)` that ends `sleep`. -/
  | reacquire (p : Fin nproc)
  /-- `acquiresleep` of the sleep-lock at `a`, up to its return or its `sleep`. -/
  | acquiresleep (p : Fin nproc) (a : ℕ)
  /-- The next test of `acquiresleep`'s loop. -/
  | retry (p : Fin nproc)
  /-- `releasesleep` by a caller that checked `holdingsleep`, as `brelse` and
  `iunlock` do. -/
  | releasesleep (p : Fin nproc) (a : ℕ)

/-- The process whose call an event is. -/
def SchedEvent.caller : SchedEvent → Option (Fin nproc)
  | .schedule _ => none
  | .yield p | .sleep p _ _ | .wakeup p _ | .kill p _ | .exit p | .acquire p _ | .release p _
  | .reacquire p | .acquiresleep p _ | .retry p | .releasesleep p _ => some p

namespace Sched

variable (s : Sched)

/-- The CPU whose `c->proc` is `p`. -/
def cpuOf (p : Fin nproc) : Option (Fin ncpu) :=
  (List.finRange ncpu).find? fun c => s.cpu c = some p

/-- The first `RUNNABLE` slot at index `start` or later: the scan of `scheduler`. -/
def nextRunnable (start : ℕ) : Option (Fin nproc) :=
  (List.finRange nproc).find? fun i => start ≤ i.val ∧ (s.tab.proc i).state = .runnable

/-- The scheduler of `c` switches to `q`: `c->proc = q`, `q` is `RUNNING`, and `q`
runs the rest of the section. -/
def dispatch (c : Fin ncpu) (q : Fin nproc) : Sched :=
  { s with
    tab := s.tab.modify q fun p =>
      { p with state := .running, chan := if (s.pc q).asleep then none else p.chan }
    cpu := Function.update s.cpu c (some q)
    pc := Function.update s.pc q (s.pc q).resume }

/-- The loop of `scheduler` on `c` from slot `start`: it switches to the first
`RUNNABLE` process, or releases `ptable.lock` at the end of the table. -/
def scan (c : Fin ncpu) (start : ℕ) : Sched :=
  match s.nextRunnable start with
  | some q => s.dispatch c q
  | none => s

/-- `sched()` from `p` on `c`, which has set its own state: a panic ("sched locks")
if `p` holds another spinlock; otherwise the scheduler of `c` sets `c->proc = 0`
and scans on after `p`. -/
def sched (p : Fin nproc) (c : Fin ncpu) : Option Sched :=
  if s.held p = [] then some (({ s with cpu := Function.update s.cpu c none } : Sched).scan c (p.val + 1))
  else none

/-- The caller `p` changes its own slot by `f`, and will resume at `k`. -/
def park (p : Fin nproc) (f : Proc → Proc) (k : SPc) : Sched :=
  { s with tab := s.tab.modify p f, pc := Function.update s.pc p k }

/-- `acquire(lk)` by `p`: a panic if `p` holds `lk`, a spin while another does. -/
def acquireLk (p : Fin nproc) (lk : ℕ) : Option Sched :=
  if ∀ q, lk ∉ s.held q then some { s with held := Function.update s.held p (s.held p ++ [lk]) }
  else none

/-- `release(lk)` by `p`, a panic unless `p` holds it; nothing for `&ptable.lock`,
whose section is the step. -/
def releaseLk (p : Fin nproc) : Option ℕ → Option Sched
  | none => some s
  | some lk =>
    if lk ∈ s.held p then some { s with held := Function.update s.held p ((s.held p).erase lk) } else none

/-- `sleep(chan, lk)` by `p` on `c`: inside the `ptable.lock` section it releases
`lk`, records the channel, sleeps and calls `sched`. -/
def sleep (p : Fin nproc) (c : Fin ncpu) (ch : Chan) (lk : Option ℕ) : Option Sched :=
  (s.releaseLk p lk).bind fun s =>
    (s.park p (fun q => { q with chan := some ch, state := .sleeping }) (.slept lk)).sched p c

/-- A section of `acquiresleep` on the sleep-lock at `a` under its spinlock: while
`locked`, `sleep(lk, &lk->lk)`; otherwise take it, record the pid and return. -/
def acquiresleepLoop (p : Fin nproc) (c : Fin ncpu) (a : ℕ) : Option Sched :=
  if s.locked a then
    (s.park p (fun q => { q with chan := some (.addr a), state := .sleeping }) (.acquiring a)).sched p c
  else
    some { s with locked := Function.update s.locked a true, slpid := Function.update s.slpid a (s.tab.proc p).pid,
                  owns := Function.update s.owns p (Function.update (s.owns p) a true),
                  pc := Function.update s.pc p .idle }

/-- `holdingsleep(lk)` by `p`. -/
def holdingsleep (p : Fin nproc) (a : ℕ) : Bool := s.locked a && s.slpid a == (s.tab.proc p).pid

/-- `releasesleep` of the sleep-lock at `a` by `p`: clear it and wake its sleepers. -/
def releasesleep (p : Fin nproc) (a : ℕ) : Sched :=
  { s with locked := Function.update s.locked a false, slpid := Function.update s.slpid a 0,
           owns := Function.update s.owns p (Function.update (s.owns p) a false),
           tab := wakeup1 s.tab (some (.addr a)) }

/-- A call by `p`, which runs its own code on some CPU `c`. -/
def call (p : Fin nproc) (k : Fin ncpu → Option Sched) : Option Sched :=
  match s.cpuOf p with
  | some c => if s.pc p = .idle then k c else none
  | none => none

/-- One section; `none` when it cannot happen or the kernel panics. -/
def step : SchedEvent → Option Sched
  | .schedule c => if s.cpu c = none then some (s.scan c 0) else none
  | .yield p => s.call p fun c => (s.park p (fun q => { q with state := .runnable }) .yielded).sched p c
  | .sleep p ch lk => s.call p fun c => s.sleep p c ch lk
  | .wakeup p ch => s.call p fun _ => some { s with tab := wakeup1 s.tab (some ch) }
  | .kill p pid => s.call p fun _ => some { s with tab := (kill s.tab pid).1 }
  | .exit p => s.call p fun c => (exit s.tab p).bind fun t => ({ s with tab := t } : Sched).sched p c
  | .acquire p lk => s.call p fun _ => s.acquireLk p lk
  | .release p lk => s.call p fun _ => s.releaseLk p (some lk)
  | .reacquire p =>
    match s.cpuOf p, s.pc p with
    | some _, .reacquire lk => (s.acquireLk p lk).map fun s => { s with pc := Function.update s.pc p .idle }
    | _, _ => none
  | .acquiresleep p a => s.call p fun c => s.acquiresleepLoop p c a
  | .retry p =>
    match s.cpuOf p, s.pc p with
    | some c, .retrying a => s.acquiresleepLoop p c a
    | _, _ => none
  | .releasesleep p a => s.call p fun _ => if s.holdingsleep p a then some (s.releasesleep p a) else none

/-- The schedulers start: no CPU runs a process, every process in use is new and
`RUNNABLE`, no lock is held or owned, and the processes in use have distinct pids. -/
structure Start : Prop where
  cpu : ∀ c, s.cpu c = none
  ready : ∀ p, (s.tab.proc p).state = .unused ∨ ((s.tab.proc p).state = .runnable ∧ s.pc p = .yielded)
  held : ∀ p, s.held p = []
  locked : ∀ a, s.locked a = false
  owns : ∀ p a, s.owns p a = false
  pid : ∀ p q, (s.tab.proc p).state ≠ .unused → (s.tab.proc q).state ≠ .unused →
    (s.tab.proc p).pid = (s.tab.proc q).pid → p = q

/-- The step relation. -/
def Step (s : Sched) (e : SchedEvent) (t : Sched) : Prop := s.step e = some t

/-- The states some interleaving reaches from a start. -/
def Reachable : Sched → Prop := Transition.Reachable Step Start

/-- Run events in order, stopping at the first that cannot happen. -/
def run (s : Sched) (es : List SchedEvent) : Option Sched := Transition.runFn step s es

end Sched

/-! ### What each section does -/

namespace Sched

section Specs

variable {s t : Sched} {p q : Fin nproc} {c : Fin ncpu}

theorem cpuOf_some (h : s.cpuOf p = some c) : s.cpu c = some p := by
  simpa using List.find?_some h

theorem nextRunnable_some {start : ℕ} (h : s.nextRunnable start = some q) :
    (s.tab.proc q).state = .runnable := by
  have h' := List.find?_some h
  simp only [decide_eq_true_eq] at h'
  exact h'.2

/-- The scan switches to a `RUNNABLE` process, or to none. -/
theorem scan_cases (c : Fin ncpu) (start : ℕ) :
    s.scan c start = s ∨ ∃ q, (s.tab.proc q).state = .runnable ∧ s.scan c start = s.dispatch c q := by
  unfold scan
  split
  · rename_i q hq
    exact .inr ⟨q, nextRunnable_some hq, rfl⟩
  · exact .inl rfl

@[simp] theorem dispatch_state (i : Fin nproc) :
    ((s.dispatch c q).tab.proc i).state = if i = q then .running else (s.tab.proc i).state := by
  simp only [dispatch]
  rw [Ptable.modify_proc]
  by_cases hi : i = q
  · rw [if_pos hi, if_pos hi]
  · rw [if_neg hi, if_neg hi]

@[simp] theorem dispatch_pid (i : Fin nproc) : ((s.dispatch c q).tab.proc i).pid = (s.tab.proc i).pid := by
  simp only [dispatch]
  exact Ptable.modify_proc_field Proc.pid _ _ _ _ rfl

theorem dispatch_proc_ne {i : Fin nproc} (hi : i ≠ q) : (s.dispatch c q).tab.proc i = s.tab.proc i := by
  simp only [dispatch]
  exact Ptable.modify_proc_ne _ _ hi

theorem dispatch_cpu : (s.dispatch c q).cpu = Function.update s.cpu c (some q) := rfl

theorem call_some {k : Fin ncpu → Option Sched} (h : s.call p k = some t) :
    ∃ c, s.cpu c = some p ∧ s.pc p = .idle ∧ k c = some t := by
  unfold call at h
  split at h
  · rename_i c hc
    split_ifs at h with hp
    exact ⟨c, cpuOf_some hc, hp, h⟩
  · cases h

theorem sched_some (h : s.sched p c = some t) :
    s.held p = [] ∧ t = ({ s with cpu := Function.update s.cpu c none } : Sched).scan c (p.val + 1) := by
  unfold sched at h
  split_ifs at h with hp
  exact ⟨hp, (Option.some.inj h).symm⟩

theorem acquireLk_some {lk : ℕ} (h : s.acquireLk p lk = some t) :
    t = { s with held := Function.update s.held p (s.held p ++ [lk]) } := by
  unfold acquireLk at h
  split_ifs at h
  exact (Option.some.inj h).symm

theorem releaseLk_some {lk : Option ℕ} (h : s.releaseLk p lk = some t) :
    ∃ held, t = { s with held := held } := by
  unfold releaseLk at h
  split at h
  · exact ⟨s.held, (Option.some.inj h).symm⟩
  · split_ifs at h
    exact ⟨_, (Option.some.inj h).symm⟩

end Specs

end Sched

/-! ### The invariant -/

theorem Procstate.Woken.eq_iff {x y z : Procstate} (h : x.Woken y) (hs : z ≠ .sleeping) (hr : z ≠ .runnable) :
    y = z ↔ x = z := by
  rcases h with rfl | ⟨rfl, rfl⟩
  · rfl
  · exact ⟨fun h => absurd h.symm hr, fun h => absurd h.symm hs⟩

/-- A point update of a row of a table of two arguments. -/
theorem update_row_apply {α β γ : Type*} [DecidableEq α] [DecidableEq β] (o : α → β → γ) (p : α) (a : β)
    (v : γ) (i : α) (b : β) :
    Function.update o p (Function.update (o p) a v) i b = if i = p ∧ b = a then v else o i b := by
  by_cases hi : i = p
  · subst hi
    by_cases hb : b = a <;> simp [hb]
  · simp [hi]

namespace Sched

/-- Each CPU runs at most one process and each process at most one CPU, and a
process is `RUNNING` exactly when a CPU runs it; each sleep-lock is `locked`
exactly while a process owns it, and records the owner's pid; the processes in
use have distinct pids. -/
structure Inv (s : Sched) : Prop where
  running : ∀ p, (s.tab.proc p).state = .running ↔ ∃ c, s.cpu c = some p
  cpu_inj : ∀ c c' p, s.cpu c = some p → s.cpu c' = some p → c = c'
  owns_locked : ∀ p a, s.owns p a = true → s.locked a = true ∧ s.slpid a = (s.tab.proc p).pid
  locked_owned : ∀ a, s.locked a = true → ∃ p, s.owns p a = true
  owns_used : ∀ p a, s.owns p a = true → (s.tab.proc p).state ≠ .unused
  pid_inj : ∀ p q, (s.tab.proc p).state ≠ .unused → (s.tab.proc q).state ≠ .unused →
    (s.tab.proc p).pid = (s.tab.proc q).pid → p = q

section Invariant

variable {s s' : Sched} {p q : Fin nproc} {c : Fin ncpu} {a : ℕ}

theorem Start.inv (h : s.Start) : s.Inv where
  running p := by
    rcases h.ready p with hp | ⟨hp, -⟩ <;> simp [hp, h.cpu]
  cpu_inj c _ _ hc := by simp [h.cpu c] at hc
  owns_locked p a ho := by simp [h.owns p a] at ho
  locked_owned a hl := by simp [h.locked a] at hl
  owns_used p a ho := by simp [h.owns p a] at ho
  pid_inj := h.pid

namespace Inv

/-- Two owners of one sleep-lock have the pid it records, so they are one process. -/
theorem owns_unique (h : s.Inv) (hp : s.owns p a = true) (hq : s.owns q a = true) : p = q :=
  h.pid_inj p q (h.owns_used p a hp) (h.owns_used q a hq)
    ((h.owns_locked p a hp).2.symm.trans (h.owns_locked q a hq).2)

/-- `holdingsleep` answers for a process in use whether it owns the sleep-lock. -/
theorem holdingsleep_iff (h : s.Inv) (hp : (s.tab.proc p).state ≠ .unused) :
    s.holdingsleep p a = true ↔ s.owns p a = true := by
  constructor
  · intro hh
    simp only [holdingsleep, Bool.and_eq_true, beq_iff_eq] at hh
    obtain ⟨q, hq⟩ := h.locked_owned a hh.1
    obtain rfl : q = p :=
      h.pid_inj q p (h.owns_used q a hq) hp ((h.owns_locked q a hq).2.symm.trans hh.2)
    exact hq
  · intro ho
    simp [holdingsleep, h.owns_locked p a ho]

theorem running_of_cpu (h : s.Inv) (hc : s.cpu c = some p) : (s.tab.proc p).state = .running :=
  (h.running p).mpr ⟨c, hc⟩

/-- A step that at most wakes sleepers, and keeps the CPUs and the sleep-locks. -/
theorem of_wakes (h : s.Inv) (ht : s.tab.Wakes s'.tab) (hcpu : s'.cpu = s.cpu) (howns : s'.owns = s.owns)
    (hlocked : s'.locked = s.locked) (hslpid : s'.slpid = s.slpid) : s'.Inv where
  running p := by
    rw [(ht.state p).eq_iff (by decide) (by decide), hcpu]
    exact h.running p
  cpu_inj := hcpu ▸ h.cpu_inj
  owns_locked p a ho := by
    rw [howns] at ho
    rw [hlocked, hslpid, ht.pid]
    exact h.owns_locked p a ho
  locked_owned a hl := by
    rw [hlocked] at hl
    rw [howns]
    exact h.locked_owned a hl
  owns_used p a ho := by
    rw [howns] at ho
    rw [Ne, (ht.state p).eq_iff (by decide) (by decide)]
    exact h.owns_used p a ho
  pid_inj p q hp hq hpq := by
    rw [Ne, (ht.state p).eq_iff (by decide) (by decide)] at hp
    rw [Ne, (ht.state q).eq_iff (by decide) (by decide)] at hq
    rw [ht.pid, ht.pid] at hpq
    exact h.pid_inj p q hp hq hpq

/-- A step that changes neither the table, the CPUs nor the sleep-locks. -/
theorem congr (h : s.Inv) (htab : s'.tab = s.tab) (hcpu : s'.cpu = s.cpu) (howns : s'.owns = s.owns)
    (hlocked : s'.locked = s.locked) (hslpid : s'.slpid = s.slpid) : s'.Inv :=
  h.of_wakes (htab ▸ Ptable.Wakes.refl _) hcpu howns hlocked hslpid

/-- The scheduler of a free CPU switches to a `RUNNABLE` process. -/
theorem dispatch (h : s.Inv) (hc : s.cpu c = none) (hq : (s.tab.proc q).state = .runnable) :
    (s.dispatch c q).Inv := by
  -- no CPU runs `q`, which is not `RUNNING`
  have hq' : ∀ c', s.cpu c' ≠ some q := fun c' hc' => by
    rw [h.running_of_cpu hc'] at hq
    cases hq
  have hused : ∀ i, ((s.dispatch c q).tab.proc i).state ≠ .unused ↔ (s.tab.proc i).state ≠ .unused := by
    intro i
    rw [dispatch_state]
    split_ifs with hi
    · subst hi
      rw [hq]
      exact ⟨fun _ => by decide, fun _ => by decide⟩
    · rfl
  refine ⟨fun i => ?_, fun c₁ c₂ i h₁ h₂ => ?_, fun i a ho => ?_, h.locked_owned, fun i a ho => ?_,
    fun i j hi hj hij => ?_⟩
  · rw [dispatch_state, dispatch_cpu]
    by_cases hi : i = q
    · subst hi
      exact ⟨fun _ => ⟨c, by simp⟩, fun _ => by simp⟩
    · rw [if_neg hi, h.running i]
      constructor
      · rintro ⟨c', hc'⟩
        have hne : c' ≠ c := by rintro rfl; simp [hc] at hc'
        exact ⟨c', by rw [Function.update_of_ne hne]; exact hc'⟩
      · rintro ⟨c', hc'⟩
        by_cases hcc : c' = c
        · subst hcc
          simp only [Function.update_self, Option.some.injEq] at hc'
          exact absurd hc'.symm hi
        · rw [Function.update_of_ne hcc] at hc'
          exact ⟨c', hc'⟩
  · rw [dispatch_cpu] at h₁ h₂
    by_cases hc₁ : c₁ = c <;> by_cases hc₂ : c₂ = c
    · rw [hc₁, hc₂]
    · subst hc₁
      rw [Function.update_self] at h₁
      rw [Function.update_of_ne hc₂, ← h₁] at h₂
      exact absurd h₂ (hq' c₂)
    · subst hc₂
      rw [Function.update_self] at h₂
      rw [Function.update_of_ne hc₁, ← h₂] at h₁
      exact absurd h₁ (hq' c₁)
    · rw [Function.update_of_ne hc₁] at h₁
      rw [Function.update_of_ne hc₂] at h₂
      exact h.cpu_inj c₁ c₂ i h₁ h₂
  · rw [dispatch_pid]
    exact h.owns_locked i a ho
  · exact (hused i).mpr (h.owns_used i a ho)
  · rw [dispatch_pid, dispatch_pid] at hij
    exact h.pid_inj i j ((hused i).mp hi) ((hused j).mp hj) hij

theorem scan (h : s.Inv) (hc : s.cpu c = none) (start : ℕ) : (s.scan c start).Inv := by
  rcases scan_cases (s := s) c start with he | ⟨q, hq, he⟩ <;> rw [he]
  · exact h
  · exact h.dispatch hc hq

/-- The process `p` on `c` gives the CPU back: it leaves `RUNNING` but stays in
use, other processes are at most woken, and its CPU's `c->proc` is cleared. -/
theorem retire (h : s.Inv) (hc : s.cpu c = some p) (hcpu : s'.cpu = Function.update s.cpu c none)
    (hp : (s'.tab.proc p).state ≠ .running) (hpu : (s'.tab.proc p).state ≠ .unused)
    (hother : ∀ i, i ≠ p → (s.tab.proc i).state.Woken (s'.tab.proc i).state)
    (hpid : ∀ i, (s'.tab.proc i).pid = (s.tab.proc i).pid) (howns : s'.owns = s.owns)
    (hlocked : s'.locked = s.locked) (hslpid : s'.slpid = s.slpid) : s'.Inv := by
  have hused : ∀ i, (s'.tab.proc i).state ≠ .unused ↔ (s.tab.proc i).state ≠ .unused := by
    intro i
    by_cases hi : i = p
    · subst hi
      rw [h.running_of_cpu hc]
      exact ⟨fun _ => by decide, fun _ => hpu⟩
    · rw [Ne, Ne, (hother i hi).eq_iff (by decide) (by decide)]
  refine ⟨fun i => ?_, fun c₁ c₂ i h₁ h₂ => ?_, fun i a ho => ?_, fun a hl => ?_, fun i a ho => ?_,
    fun i j hi hj hij => ?_⟩
  · rw [hcpu]
    by_cases hi : i = p
    · -- `p` is on no CPU once `c` is cleared
      subst hi
      refine ⟨fun hr => absurd hr hp, ?_⟩
      rintro ⟨c', hc'⟩
      by_cases hcc : c' = c
      · subst hcc
        simp at hc'
      · rw [Function.update_of_ne hcc] at hc'
        exact absurd (h.cpu_inj c' c i hc' hc) hcc
    · rw [(hother i hi).eq_iff (by decide) (by decide), h.running i]
      constructor
      · rintro ⟨c', hc'⟩
        have hne : c' ≠ c := by rintro rfl; rw [hc] at hc'; exact hi (Option.some.inj hc').symm
        exact ⟨c', by rw [Function.update_of_ne hne]; exact hc'⟩
      · rintro ⟨c', hc'⟩
        by_cases hcc : c' = c
        · subst hcc
          simp at hc'
        · rw [Function.update_of_ne hcc] at hc'
          exact ⟨c', hc'⟩
  · rw [hcpu] at h₁ h₂
    by_cases hc₁ : c₁ = c
    · subst hc₁
      simp at h₁
    by_cases hc₂ : c₂ = c
    · subst hc₂
      simp at h₂
    rw [Function.update_of_ne hc₁] at h₁
    rw [Function.update_of_ne hc₂] at h₂
    exact h.cpu_inj c₁ c₂ i h₁ h₂
  · rw [howns] at ho
    rw [hlocked, hslpid, hpid]
    exact h.owns_locked i a ho
  · rw [hlocked] at hl
    rw [howns]
    exact h.locked_owned a hl
  · rw [howns] at ho
    exact (hused i).mpr (h.owns_used i a ho)
  · rw [hpid, hpid] at hij
    exact h.pid_inj i j ((hused i).mp hi) ((hused j).mp hj) hij


/-- `sched` from a state whose CPU `c`, once cleared, keeps the invariant. -/
theorem sched {s' t : Sched} (h : ({ s' with cpu := Function.update s'.cpu c none } : Sched).Inv)
    (hs : s'.sched p c = some t) : t.Inv := by
  obtain ⟨-, rfl⟩ := sched_some hs
  exact h.scan (by simp) _

/-- `p` on `c` leaves `RUNNING` for a state in use, and its CPU is cleared. -/
theorem park (h : s.Inv) (hc : s.cpu c = some p) {f : Proc → Proc} (k : SPc)
    (hr : (f (s.tab.proc p)).state ≠ .running) (hu : (f (s.tab.proc p)).state ≠ .unused)
    (hpid : (f (s.tab.proc p)).pid = (s.tab.proc p).pid) :
    ({ s.park p f k with cpu := Function.update s.cpu c none } : Sched).Inv := by
  refine h.retire hc rfl (by simpa [Sched.park] using hr) (by simpa [Sched.park] using hu) (fun i hi => ?_)
    (fun i => Ptable.modify_proc_field Proc.pid _ _ _ _ hpid) rfl rfl rfl
  show (s.tab.proc i).state.Woken ((s.tab.modify p f).proc i).state
  rw [Ptable.modify_proc_ne _ _ hi]
  exact .refl _

/-- `acquiresleep` finds the sleep-lock free and takes it. -/
theorem take (h : s.Inv) (hc : s.cpu c = some p) (hl : s.locked a = false) (k : Fin nproc → SPc) :
    ({ s with locked := Function.update s.locked a true, slpid := Function.update s.slpid a (s.tab.proc p).pid,
              owns := Function.update s.owns p (Function.update (s.owns p) a true), pc := k } : Sched).Inv := by
  -- nobody owned the free lock
  have hfree : ∀ q, s.owns q a = false := fun q => by
    by_contra hq
    rw [Bool.not_eq_false] at hq
    rw [(h.owns_locked q a hq).1] at hl
    cases hl
  refine ⟨h.running, h.cpu_inj, fun i b ho => ?_, fun b hb => ?_, fun i b ho => ?_, h.pid_inj⟩
  · simp only [update_row_apply] at ho ⊢
    by_cases hb : b = a
    · subst hb
      by_cases hi : i = p
      · simp [hi]
      · simp [hi, hfree i] at ho
    · have := h.owns_locked i b (by simpa [hb] using ho)
      simp [hb, this]
  · by_cases hba : b = a
    · exact ⟨p, by simp [update_row_apply, hba]⟩
    · obtain ⟨q, hq⟩ := h.locked_owned b (by simpa [Function.update_apply, hba] using hb)
      exact ⟨q, by simp [update_row_apply, hba, hq]⟩
  · by_cases hi : i = p
    · subst hi
      rw [h.running_of_cpu hc]
      decide
    · exact h.owns_used i b (by simpa [update_row_apply, hi] using ho)

/-- `releasesleep` by the owner. -/
theorem releasesleep (h : s.Inv) (hc : s.cpu c = some p) (hh : s.holdingsleep p a = true) :
    (s.releasesleep p a).Inv := by
  have hp : (s.tab.proc p).state ≠ .unused := by rw [h.running_of_cpu hc]; decide
  have ho : s.owns p a = true := (h.holdingsleep_iff hp).mp hh
  -- the intermediate state: the lock cleared, the table unchanged
  have h₁ : ({ s with
      locked := Function.update s.locked a false, slpid := Function.update s.slpid a 0,
      owns := Function.update s.owns p (Function.update (s.owns p) a false) } : Sched).Inv := by
    refine ⟨h.running, h.cpu_inj, fun i b hb => ?_, fun b hb => ?_, fun i b hb => ?_, h.pid_inj⟩
    · simp only [update_row_apply] at hb
      by_cases hba : b = a
      · -- another owner of the lock would be `p`
        subst hba
        by_cases hi : i = p
        · simp [hi] at hb
        · simp only [hi, false_and, if_false] at hb
          exact absurd (h.owns_unique hb ho) hi
      · have hb' : s.owns i b = true := by simpa [hba] using hb
        simp [hba, h.owns_locked i b hb']
    · have hba : b ≠ a := by rintro rfl; simp at hb
      obtain ⟨q, hq⟩ := h.locked_owned b (by simpa [hba] using hb)
      exact ⟨q, by simp [update_row_apply, hba, hq]⟩
    · simp only [update_row_apply] at hb
      split_ifs at hb
      exact h.owns_used i b hb
  exact h₁.of_wakes (wakeup1_wakes _ _) rfl rfl rfl rfl


/-- A section of `acquiresleep`: it takes the free lock or sleeps on it. -/
theorem acquiresleepLoop (h : s.Inv) (hc : s.cpu c = some p) {t : Sched}
    (hk : s.acquiresleepLoop p c a = some t) : t.Inv := by
  unfold Sched.acquiresleepLoop at hk
  split_ifs at hk with hl
  · exact Inv.sched (h.park hc (.acquiring a) (by simp) (by simp) rfl) hk
  · cases hk
    exact h.take hc (by simpa using hl) _

/-- Every section keeps the invariant. -/
theorem step {e : SchedEvent} {t : Sched} (h : s.Inv) (hs : s.step e = some t) : t.Inv := by
  cases e with
  | schedule c =>
    simp only [Sched.step] at hs
    split_ifs at hs with hc
    cases hs
    exact h.scan hc 0
  | yield p =>
    obtain ⟨c, hc, -, hk⟩ := call_some hs
    exact Inv.sched (h.park hc .yielded (by simp) (by simp) rfl) hk
  | sleep p ch lk =>
    -- `lk` is released first; then the caller sleeps and calls `sched`
    obtain ⟨c, hc, -, hk⟩ := call_some hs
    obtain ⟨s₁, hs₁, hk⟩ := Option.bind_eq_some_iff.mp hk
    obtain ⟨held, rfl⟩ := releaseLk_some hs₁
    have h₁ : ({ s with held := held } : Sched).Inv := h.congr rfl rfl rfl rfl rfl
    exact Inv.sched (h₁.park hc (.slept lk) (by simp) (by simp) rfl) hk
  | wakeup p ch =>
    obtain ⟨c, -, -, hk⟩ := call_some hs
    cases hk
    exact h.of_wakes (wakeup1_wakes _ _) rfl rfl rfl rfl
  | kill p pid =>
    obtain ⟨c, -, -, hk⟩ := call_some hs
    cases hk
    exact h.of_wakes (kill_wakes _ _) rfl rfl rfl rfl
  | exit p =>
    obtain ⟨c, hc, -, hk⟩ := call_some hs
    obtain ⟨t', he, hk⟩ := Option.bind_eq_some_iff.mp hk
    obtain ⟨-, -, -, hz, hrest⟩ := exit_spec he
    have hr : (t'.proc p).state ≠ .running := by rw [hz]; decide
    have hu : (t'.proc p).state ≠ .unused := by rw [hz]; decide
    have h₁ : ({ ({ s with tab := t' } : Sched) with cpu := Function.update s.cpu c none } : Sched).Inv :=
      h.retire hc rfl hr hu (fun i hi => (hrest i).2.2 hi) (fun i => (hrest i).1) rfl rfl rfl
    exact Inv.sched h₁ hk
  | acquire p lk =>
    obtain ⟨c, -, -, hk⟩ := call_some hs
    rw [acquireLk_some hk]
    exact h.congr rfl rfl rfl rfl rfl
  | release p lk =>
    obtain ⟨c, -, -, hk⟩ := call_some hs
    obtain ⟨held, rfl⟩ := releaseLk_some hk
    exact h.congr rfl rfl rfl rfl rfl
  | reacquire p =>
    simp only [Sched.step] at hs
    split at hs
    · obtain ⟨s₁, hs₁, rfl⟩ := Option.map_eq_some_iff.mp hs
      rw [acquireLk_some hs₁]
      exact h.congr rfl rfl rfl rfl rfl
    · cases hs
  | acquiresleep p a =>
    obtain ⟨c, hc, -, hk⟩ := call_some hs
    exact h.acquiresleepLoop hc hk
  | retry p =>
    simp only [Sched.step] at hs
    split at hs
    · rename_i c a hcpu _
      exact h.acquiresleepLoop (cpuOf_some hcpu) hs
    · cases hs
  | releasesleep p a =>
    obtain ⟨c, hc, -, hk⟩ := call_some hs
    split_ifs at hk with hh
    cases hk
    exact h.releasesleep hc hh

end Inv

theorem Reachable.inv (h : s.Reachable) : s.Inv := by
  unfold Reachable at h
  exact h.invariant (fun _ hs => Start.inv hs) (fun _ _ _ hs h => hs.step h)

end Invariant

end Sched

/-! ### What a step of another process does to a slot -/

/-- What a step of another process can do to a slot: keep its state and channel,
wake it, or switch to it. -/
def Stirs (x y : Proc) : Prop :=
  (y.state = x.state ∧ y.chan = x.chan) ∨ (x.state = .sleeping ∧ y.state = .runnable ∧ y.chan = x.chan) ∨
    ((x.state = .sleeping ∨ x.state = .runnable) ∧ y.state = .running)

/-- The slot sleeps on `ch`, when `ch` is a channel, or can run, or runs. -/
def Awaits (x : Proc) (ch : Option Chan) : Prop :=
  (x.state = .sleeping ∧ x.chan = ch ∧ ch.isSome) ∨ x.state = .runnable ∨ x.state = .running

namespace Stirs

theorem refl (x : Proc) : Stirs x x := .inl ⟨rfl, rfl⟩

theorem of_woken {x y : Proc} (h : x.state.Woken y.state) (hc : y.chan = x.chan) : Stirs x y := by
  rcases h with h | ⟨hx, hy⟩
  · exact .inl ⟨h, hc⟩
  · exact .inr (.inl ⟨hx, hy, hc⟩)

/-- A wakeup followed by a switch: `exit` wakes its parent and its scheduler may
switch to it in the same section. -/
theorem woken_then {x y z : Proc} (h₁ : x.state.Woken y.state) (hc : y.chan = x.chan) (h₂ : Stirs y z) :
    Stirs x z := by
  rcases h₁ with h₁ | ⟨hx, hy⟩
  · rcases h₂ with ⟨hs, hc'⟩ | ⟨hs, hs', hc'⟩ | ⟨hs, hs'⟩
    · exact .inl ⟨hs.trans h₁, hc'.trans hc⟩
    · exact .inr (.inl ⟨h₁ ▸ hs, hs', hc'.trans hc⟩)
    · exact .inr (.inr ⟨h₁ ▸ hs, hs'⟩)
  · rcases h₂ with ⟨hs, hc'⟩ | ⟨hs, -, -⟩ | ⟨-, hs'⟩
    · exact .inr (.inl ⟨hx, hs.trans hy, hc'.trans hc⟩)
    · rw [hy] at hs; cases hs
    · exact .inr (.inr ⟨.inl hx, hs'⟩)

end Stirs

theorem Awaits.stirs {x y : Proc} {ch : Option Chan} (h : Awaits x ch) (hs : Stirs x y) : Awaits y ch := by
  rcases hs with ⟨hs, hc⟩ | ⟨-, hs, -⟩ | ⟨-, hs⟩
  · rw [Awaits, hs, hc]
    exact h
  · exact .inr (.inl hs)
  · exact .inr (.inr hs)

theorem wakeup1_chan (t : Ptable) (c : Option Chan) (i : Fin nproc) :
    ((wakeup1 t c).proc i).chan = (t.proc i).chan := by
  rw [wakeup1_proc]
  split_ifs <;> rfl

theorem kill_chan (t : Ptable) (pid : ℤ) (i : Fin nproc) : ((kill t pid).1.proc i).chan = (t.proc i).chan := by
  unfold kill
  split
  · rfl
  · dsimp only
    exact Ptable.modify_proc_field Proc.chan _ _ _ _ rfl

theorem reparent_chan (t : Ptable) (cur i : Fin nproc) : ((reparent t cur).proc i).chan = (t.proc i).chan := by
  simp only [reparent]
  split_ifs <;> rfl

/-- `exit` records no channel. -/
theorem exit_chan {t t' : Ptable} {cur : Fin nproc} (h : exit t cur = some t') (i : Fin nproc) :
    (t'.proc i).chan = (t.proc i).chan := by
  unfold exit at h
  split_ifs at h
  obtain rfl := Option.some.inj h.symm
  rw [Ptable.modify_proc_field Proc.chan _ _ _ _ rfl]
  split_ifs <;> simp only [wakeup1_chan, reparent_chan]

namespace Sched

section Stirring

variable {s t : Sched} {p q : Fin nproc} {c : Fin ncpu}

theorem stirs_dispatch (c : Fin ncpu) (hq : (s.tab.proc q).state = .runnable) (p : Fin nproc) :
    Stirs (s.tab.proc p) ((s.dispatch c q).tab.proc p) := by
  by_cases hp : p = q
  · subst hp
    exact .inr (.inr ⟨.inr hq, by simp⟩)
  · rw [dispatch_proc_ne hp]
    exact .refl _

theorem stirs_scan (c : Fin ncpu) (start : ℕ) (p : Fin nproc) :
    Stirs (s.tab.proc p) ((s.scan c start).tab.proc p) := by
  rcases scan_cases (s := s) c start with he | ⟨q, hq, he⟩ <;> rw [he]
  · exact .refl _
  · exact stirs_dispatch c hq p

theorem stirs_sched (hs : s.sched q c = some t) (p : Fin nproc) : Stirs (s.tab.proc p) (t.tab.proc p) := by
  obtain ⟨-, rfl⟩ := sched_some hs
  exact stirs_scan (s := { s with cpu := Function.update s.cpu c none }) c _ p

/-- `q` parks itself and calls `sched`: another slot is at most switched to. -/
theorem stirs_park_sched {f : Proc → Proc} {k : SPc} (hpq : p ≠ q) (hs : (s.park q f k).sched q c = some t) :
    Stirs (s.tab.proc p) (t.tab.proc p) := by
  have hp : (s.park q f k).tab.proc p = s.tab.proc p := Ptable.modify_proc_ne _ _ hpq
  rw [← hp]
  exact stirs_sched hs p

theorem stirs_acquiresleepLoop {a : ℕ} (hpq : p ≠ q) (hk : s.acquiresleepLoop q c a = some t) :
    Stirs (s.tab.proc p) (t.tab.proc p) := by
  unfold acquiresleepLoop at hk
  split_ifs at hk
  · exact stirs_park_sched hpq hk
  · cases hk
    exact .refl _

/-- A step of another process, or of a scheduler, at most wakes a slot or switches
to it. -/
theorem stirs_of_caller_ne {e : SchedEvent} (hs : s.step e = some t) (hp : e.caller ≠ some p) :
    Stirs (s.tab.proc p) (t.tab.proc p) := by
  cases e with
  | schedule c =>
    simp only [Sched.step] at hs
    split_ifs at hs
    cases hs
    exact stirs_scan c 0 p
  | yield q =>
    have hpq : p ≠ q := fun h => hp (h ▸ rfl)
    obtain ⟨c, -, -, hk⟩ := call_some hs
    exact stirs_park_sched hpq hk
  | sleep q ch lk =>
    have hpq : p ≠ q := fun h => hp (h ▸ rfl)
    obtain ⟨c, -, -, hk⟩ := call_some hs
    obtain ⟨s₁, hs₁, hk⟩ := Option.bind_eq_some_iff.mp hk
    obtain ⟨held, rfl⟩ := releaseLk_some hs₁
    exact stirs_park_sched (s := { s with held := held }) hpq hk
  | wakeup q ch =>
    obtain ⟨c, -, -, hk⟩ := call_some hs
    cases hk
    exact .of_woken ((wakeup1_wakes _ _).state p) (wakeup1_chan _ _ _)
  | kill q pid =>
    obtain ⟨c, -, -, hk⟩ := call_some hs
    cases hk
    exact .of_woken ((kill_wakes _ _).state p) (kill_chan _ _ _)
  | exit q =>
    -- `exit` may wake `p` and its scheduler switch to it
    have hpq : p ≠ q := fun h => hp (h ▸ rfl)
    obtain ⟨c, -, -, hk⟩ := call_some hs
    obtain ⟨t', he, hk⟩ := Option.bind_eq_some_iff.mp hk
    obtain ⟨-, -, -, -, hrest⟩ := exit_spec he
    exact Stirs.woken_then ((hrest p).2.2 hpq) (exit_chan he p) (stirs_sched hk p)
  | acquire q lk =>
    obtain ⟨c, -, -, hk⟩ := call_some hs
    rw [acquireLk_some hk]
    exact .refl _
  | release q lk =>
    obtain ⟨c, -, -, hk⟩ := call_some hs
    obtain ⟨held, rfl⟩ := releaseLk_some hk
    exact .refl _
  | reacquire q =>
    simp only [Sched.step] at hs
    split at hs
    · obtain ⟨s₁, hs₁, rfl⟩ := Option.map_eq_some_iff.mp hs
      rw [acquireLk_some hs₁]
      exact .refl _
    · cases hs
  | acquiresleep q a =>
    have hpq : p ≠ q := fun h => hp (h ▸ rfl)
    obtain ⟨c, -, -, hk⟩ := call_some hs
    exact stirs_acquiresleepLoop hpq hk
  | retry q =>
    have hpq : p ≠ q := fun h => hp (h ▸ rfl)
    simp only [Sched.step] at hs
    split at hs
    · exact stirs_acquiresleepLoop hpq hs
    · cases hs
  | releasesleep q a =>
    obtain ⟨c, -, -, hk⟩ := call_some hs
    split_ifs at hk
    cases hk
    exact .of_woken ((wakeup1_wakes _ _).state p) (wakeup1_chan _ _ _)

/-- While `p` makes no call, it keeps sleeping on `ch` or becomes able to run;
once it can run it stays so. -/
theorem awaits_run {ch : Option Chan} {es : List SchedEvent} (h : Awaits (s.tab.proc p) ch)
    (hr : s.run es = some t) (hes : ∀ e ∈ es, e.caller ≠ some p) : Awaits (t.tab.proc p) ch := by
  induction es generalizing s with
  | nil =>
    obtain rfl : s = t := Option.some.inj hr
    exact h
  | cons e es ih =>
    -- one step of another process, then the rest of the run
    obtain ⟨s₁, h₁, hr⟩ := Option.bind_eq_some_iff.mp hr
    have hs₁ := h.stirs (stirs_of_caller_ne h₁ (hes e List.mem_cons_self))
    exact ih hs₁ hr fun e' he' => hes e' (List.mem_cons_of_mem e he')

end Stirring

/-! ### The guarantees -/

section Guarantees

variable {s t : Sched} {p q : Fin nproc}

/-- `sleep` leaves its caller asleep on the channel, or already switched to again. -/
theorem sleep_awaits {ch : Chan} {lk : Option ℕ} (hs : s.step (.sleep p ch lk) = some t) :
    Awaits (t.tab.proc p) (some ch) := by
  obtain ⟨c, -, -, hk⟩ := call_some hs
  obtain ⟨s₁, hs₁, hk⟩ := Option.bind_eq_some_iff.mp hk
  obtain ⟨held, rfl⟩ := releaseLk_some hs₁
  have hp : Awaits ((({ s with held := held } : Sched).park p
      (fun q => { q with chan := some ch, state := .sleeping }) (.slept lk)).tab.proc p) (some ch) := by
    simp [Sched.park, Awaits]
  exact hp.stirs (stirs_sched hk p)

/-- `wakeup(chan)` leaves no process asleep on `chan`. -/
theorem wakeup_awake {ch : Chan} (h : Awaits (s.tab.proc p) (some ch)) (hs : s.step (.wakeup q ch) = some t) :
    (t.tab.proc p).state = .runnable ∨ (t.tab.proc p).state = .running := by
  obtain ⟨c, -, -, hk⟩ := call_some hs
  cases hk
  show ((wakeup1 s.tab (some ch)).proc p).state = _ ∨ _
  rw [wakeup1_proc]
  split_ifs with hw
  · exact .inl rfl
  · rcases h with ⟨hsl, hch, -⟩ | hr | hr
    · exact absurd ⟨hsl, hch⟩ hw
    · exact .inl hr
    · exact .inr hr

/-- `kill` of a sleeping process marks it killed and makes it `RUNNABLE`. -/
theorem kill_sleeper {pid : ℤ} {i : Fin nproc} (hs : s.step (.kill q pid) = some t)
    (hi : findPid s.tab pid = some i) (hsl : (s.tab.proc i).state = .sleeping) :
    (t.tab.proc i).state = .runnable ∧ (t.tab.proc i).killed = 1 := by
  obtain ⟨c, -, -, hk⟩ := call_some hs
  cases hk
  show ((kill s.tab pid).1.proc i).state = _ ∧ ((kill s.tab pid).1.proc i).killed = _
  simp [kill, hi, hsl]

end Guarantees

/-- The guarantees of the scheduler, `sleep` and `wakeup`, `kill`, and the
sleep-locks, over every interleaving. -/
structure SchedSafety : Prop where
  /-- A process runs on at most one CPU. -/
  one_cpu : ∀ s : Sched, s.Reachable → ∀ c c' p, s.cpu c = some p → s.cpu c' = some p → c = c'
  /-- Between sections, a process is `RUNNING` exactly when some CPU's `c->proc` is it. -/
  running_iff : ∀ s : Sched, s.Reachable → ∀ p, (s.tab.proc p).state = .running ↔ ∃ c, s.cpu c = some p
  /-- No lost wakeup: a `wakeup(chan)` after a `sleep(chan, lk)` leaves the sleeper
  able to run, unless the sleeper itself made a call in between. -/
  no_lost_wakeup : ∀ (s s₁ s₂ s₃ : Sched) (p q : Fin nproc) (ch : Chan) (lk : Option ℕ) (es : List SchedEvent),
    s.step (.sleep p ch lk) = some s₁ → s₁.run es = some s₂ → (∀ e ∈ es, e.caller ≠ some p) →
      s₂.step (.wakeup q ch) = some s₃ → (s₃.tab.proc p).state = .runnable ∨ (s₃.tab.proc p).state = .running
  /-- `kill` makes a sleeping target `RUNNABLE` and killed, and it stays able to
  run until it makes a call itself. -/
  kill_sleeping : ∀ (s s₁ s₂ : Sched) (q i : Fin nproc) (pid : ℤ) (es : List SchedEvent),
    s.step (.kill q pid) = some s₁ → findPid s.tab pid = some i → (s.tab.proc i).state = .sleeping →
      ((s₁.tab.proc i).state = .runnable ∧ (s₁.tab.proc i).killed = 1) ∧
      (s₁.run es = some s₂ → (∀ e ∈ es, e.caller ≠ some i) →
        (s₂.tab.proc i).state = .runnable ∨ (s₂.tab.proc i).state = .running)
  /-- At most one process owns a sleep-lock. -/
  owns_unique : ∀ s : Sched, s.Reachable → ∀ p q a, s.owns p a = true → s.owns q a = true → p = q
  /-- `holdingsleep` by a running process answers whether it owns the lock. -/
  holdingsleep_iff : ∀ s : Sched, s.Reachable → ∀ p a, (s.tab.proc p).state = .running →
    (s.holdingsleep p a = true ↔ s.owns p a = true)

theorem sched_safety : SchedSafety where
  one_cpu _ h := h.inv.cpu_inj
  running_iff _ h := h.inv.running
  no_lost_wakeup s s₁ s₂ s₃ p q ch lk es h₁ h₂ hes h₃ := by
    have hsl : Awaits (s₁.tab.proc p) (some ch) := sleep_awaits h₁
    exact wakeup_awake (awaits_run hsl h₂ hes) h₃
  kill_sleeping s s₁ s₂ q i pid es h₁ hi hsl := by
    obtain ⟨hr, hk⟩ := kill_sleeper h₁ hi hsl
    refine ⟨⟨hr, hk⟩, fun h₂ hes => ?_⟩
    -- once `RUNNABLE`, `i` awaits no channel
    have ha : Awaits (s₂.tab.proc i) none := awaits_run (.inr (.inl hr)) h₂ hes
    rcases ha with ⟨-, -, hnone⟩ | hr' | hr'
    · cases hnone
    · exact .inl hr'
    · exact .inr hr'
  owns_unique _ h _ _ _ hp hq := h.inv.owns_unique hp hq
  holdingsleep_iff _ h p _ hr := h.inv.holdingsleep_iff (by rw [hr]; decide)

/-- Processes 0 and 1, with pids 1 and 2, new and `RUNNABLE`; the other slots free. -/
def twoReady : Sched where
  tab := ⟨fun i => if i.val < 2 then { Proc.zero with state := .runnable, pid := i.val + 1 } else .zero, 3, none⟩
  cpu := fun _ => none
  pc := fun _ => .yielded
  held := fun _ => []
  locked := fun _ => false
  slpid := fun _ => 0
  owns := fun _ _ => false

/-- Two CPUs start processes 0 and 1; both call `acquiresleep` on the sleep-lock at
address 7, and process 1 sleeps; process 0 releases it, and process 1, switched to
again, takes it. -/
def handoff : List SchedEvent :=
  [.schedule ⟨0, by decide⟩, .schedule ⟨1, by decide⟩, .acquiresleep 0 7, .acquiresleep 1 7,
    .releasesleep 0 7, .schedule ⟨1, by decide⟩, .retry 1]

theorem twoReady_proc (p : Fin nproc) :
    twoReady.tab.proc p = if p.val < 2 then { Proc.zero with state := .runnable, pid := p.val + 1 } else .zero :=
  rfl

theorem start_twoReady : twoReady.Start where
  cpu _ := rfl
  ready p := by
    by_cases hp : p.val < 2
    · exact .inr ⟨by rw [twoReady_proc, if_pos hp], rfl⟩
    · exact .inl (by rw [twoReady_proc, if_neg hp]; rfl)
  held _ := rfl
  locked _ := rfl
  owns _ _ := rfl
  pid p q hp hq h := by
    -- only slots `0` and `1` are in use, with pids `1` and `2`
    by_cases hp' : p.val < 2
    · by_cases hq' : q.val < 2
      · rw [twoReady_proc, twoReady_proc, if_pos hp', if_pos hq'] at h
        exact Fin.ext (by simpa using h)
      · exact absurd (by rw [twoReady_proc, if_neg hq']; rfl) hq
    · exact absurd (by rw [twoReady_proc, if_neg hp']; rfl) hp

/-- After `handoff`, process 1 owns the sleep-lock at `7`, and no other process does. -/
theorem sched_safety_handoff :
    ∃ s, twoReady.run handoff = some s ∧ s.owns ⟨1, by decide⟩ 7 = true ∧
      ∀ q, s.owns q 7 = true → q = ⟨1, by decide⟩ := by
  have hobs : (twoReady.run handoff).map (fun s => s.owns ⟨1, by decide⟩ 7) = some true := by decide
  obtain ⟨s, hs, hown⟩ := Option.map_eq_some_iff.mp hobs
  have hreach : s.Reachable := ⟨twoReady, handoff, start_twoReady, Transition.Run.of_runFn hs⟩
  exact ⟨s, hs, hown, fun q hq => sched_safety.owns_unique s hreach q _ 7 hq hown⟩

end Sched

end Xv6
