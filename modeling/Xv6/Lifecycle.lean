import Xv6.Proc
import Xv6.Lib.Run

/-!
# The process life cycle under interleaving

`fork`, `exit`, `wait` and `kill` run on every CPU at once, and only their
`ptable.lock` sections are atomic.  `exit`, `wait` and `kill` each make their
changes to the table in one section, but `fork` takes three: `allocproc` claims a
slot as `EMBRYO` inside the lock; `copyuvm` and the copies of size, parent and trap
frame run outside it; a last section makes the child `RUNNABLE`.  This file models
each process's kernel thread between sections, and the pages a slot holds, as a
transition system over any interleaving, and proves what the table keeps in every
reachable state.

Between `allocproc` and `np->parent = curproc` the child is an `EMBRYO` whose
parent is the null pointer it had as a free slot: the parent links of the table
are only complete for processes that have left `EMBRYO`.

## Main definitions

* `Pc` — where a process's kernel thread stands between lock sections.
* `Kern` — the table, every thread's place, and the kernel stack and page
  directory each slot holds.
* `cPid` — a pid as the kernel's `int` holds it.
* `LifeEvent`, `Kern.step` — a scheduler step, a timer `yield`, a lock section of
  `fork`, or `exit`, one pass of `wait`'s loop, `kill`; with the value a call returns.
* `Kern.Inv` — the invariant of every reachable state.

## Main results

* `Kern.Inv.step`, `Kern.Reachable.inv` — the invariant holds from boot on.
* `Kern.lifecycle_amended` — in every reachable state: every process past `EMBRYO`
  other than `initproc` has a parent that is not free; a `ZOMBIE` stays one until
  its parent's `wait` reaps it, returning its pid and freeing the kernel stack and
  page directory it holds; a `wait` of a parent with a `ZOMBIE` child reaps one;
  `wait` returns `-1` only without children, when killed, or for a child whose
  `int` pid is `-1`; the `fork` that makes a child `RUNNABLE` returns that child's
  pid.  A call returns pids as the kernel's `int` holds them (`cPid`).
* `fork_embryo_has_no_parent` — a reachable `EMBRYO` child, not `initproc`, whose
  parent is null.
-/

namespace Xv6

/-! ### States of processes and threads -/

namespace Procstate

/-- A process that runs or can run: neither free, nor being built, nor exited. -/
def Active (s : Procstate) : Prop := s = .sleeping ∨ s = .runnable ∨ s = .running

/-- A process that has been started and not yet reaped. -/
def Live (s : Procstate) : Prop := s.Active ∨ s = .zombie

instance (s : Procstate) : Decidable s.Active := inferInstanceAs (Decidable (_ ∨ _))

instance (s : Procstate) : Decidable s.Live := inferInstanceAs (Decidable (_ ∨ _))

@[simp] theorem active_sleeping : Procstate.sleeping.Active := .inl rfl
@[simp] theorem active_runnable : Procstate.runnable.Active := .inr (.inl rfl)
@[simp] theorem active_running : Procstate.running.Active := .inr (.inr rfl)
@[simp] theorem not_active_unused : ¬ Procstate.unused.Active := by simp [Active]
@[simp] theorem not_active_embryo : ¬ Procstate.embryo.Active := by simp [Active]
@[simp] theorem not_active_zombie : ¬ Procstate.zombie.Active := by simp [Active]

@[simp] theorem live_iff {s : Procstate} : s.Live ↔ s.Active ∨ s = .zombie := Iff.rfl

theorem Active.ne_unused {s : Procstate} (h : s.Active) : s ≠ .unused := by
  rintro rfl; exact not_active_unused h

theorem Active.ne_embryo {s : Procstate} (h : s.Active) : s ≠ .embryo := by
  rintro rfl; exact not_active_embryo h

theorem Active.ne_zombie {s : Procstate} (h : s.Active) : s ≠ .zombie := by
  rintro rfl; exact not_active_zombie h

theorem Live.ne_unused {s : Procstate} (h : s.Live) : s ≠ .unused := by
  rcases h with h | rfl
  · exact h.ne_unused
  · simp

theorem Live.ne_embryo {s : Procstate} (h : s.Live) : s ≠ .embryo := by
  rcases h with h | rfl
  · exact h.ne_embryo
  · simp

/-- A state that `wakeup1` or `kill` may leave: unchanged, or woken from `SLEEPING`. -/
def Woken (s s' : Procstate) : Prop := s' = s ∨ (s = .sleeping ∧ s' = .runnable)

namespace Woken

variable {s s' : Procstate}

theorem refl (s : Procstate) : Woken s s := .inl rfl

theorem active_iff (h : Woken s s') : s'.Active ↔ s.Active := by
  rcases h with rfl | ⟨rfl, rfl⟩ <;> simp

theorem live_iff (h : Woken s s') : s'.Live ↔ s.Live := by
  rcases h with rfl | ⟨rfl, rfl⟩ <;> simp

theorem eq_of_not_sleeping (h : Woken s s') (hs : s ≠ .sleeping) : s' = s := by
  rcases h with h | ⟨h, -⟩
  · exact h
  · exact absurd h hs

end Woken

end Procstate

/-- Where the kernel thread of a process stands between `ptable.lock` sections. -/
inductive Pc
  /-- Outside `fork` and `wait`: in user space, or in a call made of one section. -/
  | idle
  /-- In `fork`, after `allocproc` returned the slot `np`. -/
  | forking (np : Fin nproc)
  /-- In `fork`, after the copy into `np`, holding the local `pid = np->pid`. -/
  | forked (np : Fin nproc) (pid : ℤ)
  /-- In `wait`, asleep in its loop or woken and not yet through the next pass. -/
  | waiting
  deriving DecidableEq, Repr

/-- The slot a thread inside `fork` is building. -/
def Pc.child : Pc → Option (Fin nproc)
  | .forking np => some np
  | .forked np _ => some np
  | _ => none

@[simp] theorem Pc.child_idle : Pc.idle.child = none := rfl
@[simp] theorem Pc.child_waiting : Pc.waiting.child = none := rfl
@[simp] theorem Pc.child_forking (np : Fin nproc) : (Pc.forking np).child = some np := rfl
@[simp] theorem Pc.child_forked (np : Fin nproc) (pid : ℤ) : (Pc.forked np pid).child = some np := rfl

/-- The process table, each thread's place, and whether each slot holds a kernel
stack (`p->kstack`) and a page directory (`p->pgdir`) of its own. -/
structure Kern where
  tab : Ptable
  pc : Fin nproc → Pc
  kstack : Fin nproc → Bool
  pgdir : Fin nproc → Bool

/-- The kernel at boot: the zeroed table, every thread idle, nothing held. -/
def Kern.boot : Kern := ⟨.boot, fun _ => .idle, fun _ => false, fun _ => false⟩

/-- The pid as the kernel's `int` holds it: the model's pid modulo `2 ^ 32`, read in
two's complement.  The table counts pids without bound; what a call returns to user
space is this `int`. -/
def cPid (pid : ℤ) : ℤ := toInt (toUint pid)

/-- The events: `userinit`; a scheduler starting a `RUNNABLE` process; a timer
interrupt making a `RUNNING` one yield; the three lock sections of `fork`, with the
outcome of the kernel stack and `copyuvm` allocations; `exit`; one pass of `wait`'s
loop; and `kill`. -/
inductive LifeEvent
  | userinit
  | schedule (i : Fin nproc)
  | yield (i : Fin nproc)
  | forkAlloc (cur : Fin nproc) (kstackOk : Bool)
  | forkCopy (cur : Fin nproc) (copyOk : Bool)
  | forkFinish (cur : Fin nproc)
  | exit (cur : Fin nproc)
  | wait (cur : Fin nproc)
  | kill (cur : Fin nproc) (pid : ℤ)

namespace Kern

/-- Slot `i` gives back its kernel stack and page directory. -/
def release (k : Kern) (i : Fin nproc) : Kern :=
  { k with kstack := Function.update k.kstack i false, pgdir := Function.update k.pgdir i false }

/-- A running thread that may start a new call. -/
def Ready (k : Kern) (cur : Fin nproc) : Prop := (k.tab.proc cur).state = .running ∧ k.pc cur = .idle

instance (k : Kern) (cur : Fin nproc) : Decidable (k.Ready cur) := inferInstanceAs (Decidable (_ ∧ _))

/-- One event, with the value a call returns to user space when it returns;
`none` when the event cannot happen (or the kernel panics: `exit` of `initproc`). -/
def step (k : Kern) : LifeEvent → Option (Kern × Option ℤ)
  | .userinit =>
    match k.tab.initproc, firstUnused k.tab with
    | none, some i =>
      some ({ k with tab := userinit k.tab, kstack := Function.update k.kstack i true,
                     pgdir := Function.update k.pgdir i true }, none)
    | _, _ => none
  | .schedule i =>
    if (k.tab.proc i).state = .runnable then
      some ({ k with tab := k.tab.modify i fun p => { p with state := .running } }, none)
    else none
  | .yield i =>
    if (k.tab.proc i).state = .running then
      some ({ k with tab := k.tab.modify i fun p => { p with state := .runnable } }, none)
    else none
  | .forkAlloc cur ok =>
    if k.Ready cur then
      match allocproc k.tab ok with
      | (t, none) => some ({ k with tab := t }, some (-1))
      | (t, some np) =>
        some ({ k with tab := t, pc := Function.update k.pc cur (.forking np),
                       kstack := Function.update k.kstack np true }, none)
    else none
  | .forkCopy cur ok =>
    match k.pc cur with
    | .forking np =>
      if (k.tab.proc cur).state = .running then
        if ok then
          -- `np->sz`, `np->parent`, `*np->tf` and `pid = np->pid`, outside the lock
          some ({ k with
            tab := k.tab.modify np fun p =>
              { p with sz := (k.tab.proc cur).sz, parent := some cur,
                       tf := { (k.tab.proc cur).tf with eax := 0 } }
            pc := Function.update k.pc cur (.forked np (k.tab.proc np).pid)
            pgdir := Function.update k.pgdir np true }, none)
        else
          -- `copyuvm` failed: the kernel stack is freed and the slot handed back
          some ({ k with
            tab := k.tab.modify np fun p => { p with state := .unused }
            pc := Function.update k.pc cur .idle
            kstack := Function.update k.kstack np false }, some (-1))
      else none
    | _ => none
  | .forkFinish cur =>
    match k.pc cur with
    | .forked np pid =>
      if (k.tab.proc cur).state = .running then
        some ({ k with tab := k.tab.modify np fun p => { p with state := .runnable },
                       pc := Function.update k.pc cur .idle }, some (cPid pid))
      else none
    | _ => none
  | .exit cur =>
    if k.Ready cur then (exit k.tab cur).map fun t => ({ k with tab := t }, none) else none
  | .wait cur =>
    if (k.tab.proc cur).state = .running ∧ (k.pc cur = .idle ∨ k.pc cur = .waiting) then
      match wait k.tab cur, firstZombieChild k.tab cur with
      | (t, .reaped pid), some c =>
        some ({ k.release c with tab := t, pc := Function.update k.pc cur .idle }, some (cPid pid))
      | (t, .failed), _ => some ({ k with tab := t, pc := Function.update k.pc cur .idle }, some (-1))
      | (t, .sleeps), _ => some ({ k with tab := t, pc := Function.update k.pc cur .waiting }, none)
      | (_, .reaped _), none => none
    else none
  | .kill cur pid =>
    if k.Ready cur then
      let r := kill k.tab pid
      some ({ k with tab := r.1 }, some r.2)
    else none

/-- The step relation, forgetting the returned value. -/
def Step (k : Kern) (e : LifeEvent) (k' : Kern) : Prop := (k.step e).map Prod.fst = some k'

/-- The states some interleaving reaches from boot. -/
def Reachable : Kern → Prop := Transition.Reachable Step (· = Kern.boot)

/-- Run events in order from `k`, stopping at the first that cannot happen. -/
def run (k : Kern) (es : List LifeEvent) : Option Kern :=
  Transition.runFn (fun k e => (k.step e).map Prod.fst) k es

theorem reachable_of_run {es : List LifeEvent} {k : Kern} (h : run .boot es = some k) : Reachable k :=
  ⟨_, es, rfl, Transition.Run.of_runFn h⟩

end Kern

/-! ### What the functions of `proc.c` do to the slots -/

namespace Procstate.Woken

theorem trans {s₁ s₂ s₃ : Procstate} (h₁ : Woken s₁ s₂) (h₂ : Woken s₂ s₃) : Woken s₁ s₃ := by
  rcases h₁ with rfl | ⟨rfl, rfl⟩
  · exact h₂
  · rcases h₂ with rfl | ⟨h, -⟩
    · exact .inr ⟨rfl, rfl⟩
    · cases h

end Procstate.Woken

section Table

variable {t t' : Ptable} {cur : Fin nproc}

theorem wakeup1_proc (t : Ptable) (c : Option Chan) (i : Fin nproc) :
    (wakeup1 t c).proc i =
      if (t.proc i).state = .sleeping ∧ (t.proc i).chan = c then { t.proc i with state := .runnable }
      else t.proc i := rfl

/-- A field that the change of slot `i` keeps is kept in every slot. -/
theorem Ptable.modify_proc_field {β : Type} (g : Proc → β) (t : Ptable) (i j : Fin nproc) (f : Proc → Proc)
    (h : g (f (t.proc i)) = g (t.proc i)) : g ((t.modify i f).proc j) = g (t.proc j) := by
  rw [Ptable.modify_proc]
  split_ifs with hj
  · subst hj; exact h
  · rfl

/-- `t'` is `t` with some sleepers woken, and perhaps other fields changed that the
life cycle does not read: `chan`, `killed`. -/
structure Ptable.Wakes (t t' : Ptable) : Prop where
  initproc : t'.initproc = t.initproc
  nextpid : t'.nextpid = t.nextpid
  pid : ∀ i, (t'.proc i).pid = (t.proc i).pid
  parent : ∀ i, (t'.proc i).parent = (t.proc i).parent
  state : ∀ i, (t.proc i).state.Woken (t'.proc i).state

theorem Ptable.Wakes.refl (t : Ptable) : t.Wakes t :=
  ⟨rfl, rfl, fun _ => rfl, fun _ => rfl, fun _ => .refl _⟩

theorem wakeup1_wakes (t : Ptable) (c : Option Chan) : t.Wakes (wakeup1 t c) := by
  refine ⟨rfl, rfl, fun i => ?_, fun i => ?_, fun i => ?_⟩ <;> rw [wakeup1_proc] <;> split_ifs with h
  · rfl
  · rfl
  · rfl
  · rfl
  · exact .inr ⟨h.1, rfl⟩
  · exact .refl _

/-- A change of one slot that keeps its pid and parent and at most wakes it. -/
theorem Ptable.Wakes.modify (t : Ptable) (i : Fin nproc) {f : Proc → Proc}
    (hpid : (f (t.proc i)).pid = (t.proc i).pid) (hpar : (f (t.proc i)).parent = (t.proc i).parent)
    (hst : (t.proc i).state.Woken (f (t.proc i)).state) : t.Wakes (t.modify i f) := by
  refine ⟨rfl, rfl, fun j => ?_, fun j => ?_, fun j => ?_⟩ <;> rw [Ptable.modify_proc] <;> split_ifs with h
  · subst h; exact hpid
  · rfl
  · subst h; exact hpar
  · rfl
  · subst h; exact hst
  · exact .refl _

/-- `kill` marks a slot killed, and wakes it if it sleeps. -/
theorem kill_wakes (t : Ptable) (pid : ℤ) : t.Wakes (kill t pid).1 := by
  unfold kill
  split
  · exact .refl t
  · dsimp only
    apply Ptable.Wakes.modify _ _ rfl rfl
    dsimp only
    split_ifs with h
    · exact .inr ⟨h, rfl⟩
    · exact .refl _

/-- `reparent` hands the children of `cur` to `initproc` and changes nothing else. -/
theorem reparent_spec (t : Ptable) (cur : Fin nproc) :
    (reparent t cur).initproc = t.initproc ∧ (reparent t cur).nextpid = t.nextpid ∧
      ∀ i, ((reparent t cur).proc i).pid = (t.proc i).pid ∧
        ((reparent t cur).proc i).parent =
          (if (t.proc i).parent = some cur then t.initproc else (t.proc i).parent) ∧
        ((reparent t cur).proc i).state = (t.proc i).state := by
  refine ⟨rfl, rfl, fun i => ?_⟩
  simp only [reparent]
  split_ifs <;> simp

/-- `exit`: the caller becomes a `ZOMBIE`, its children pass to `initproc`, and
other processes are at most woken. -/
theorem exit_spec (h : exit t cur = some t') :
    t.initproc ≠ some cur ∧ t'.initproc = t.initproc ∧ t'.nextpid = t.nextpid ∧
      (t'.proc cur).state = .zombie ∧
      ∀ i, (t'.proc i).pid = (t.proc i).pid ∧
        (t'.proc i).parent = (if (t.proc i).parent = some cur then t.initproc else (t.proc i).parent) ∧
        (i ≠ cur → (t.proc i).state.Woken (t'.proc i).state) := by
  unfold exit at h
  split_ifs at h with hinit
  dsimp only at h
  have h₁ := wakeup1_wakes t ((t.proc cur).parent.map .proc)
  obtain ⟨hi₂, hn₂, hp₂⟩ := reparent_spec (wakeup1 t ((t.proc cur).parent.map .proc)) cur
  -- the second wakeup, of `initproc`, only when a zombie child was handed over
  obtain ⟨t₃, h₃, rfl⟩ : ∃ t₃, (reparent (wakeup1 t ((t.proc cur).parent.map .proc)) cur).Wakes t₃ ∧
      t' = t₃.modify cur fun p => { p with state := .zombie } := by
    refine ⟨_, ?_, (Option.some.inj h).symm⟩
    split_ifs
    · exact wakeup1_wakes _ _
    · exact .refl _
  refine ⟨hinit, by simp [h₃.initproc, hi₂, h₁.initproc], by simp [h₃.nextpid, hn₂, h₁.nextpid], by simp,
    fun i => ⟨?_, ?_, fun hi => ?_⟩⟩
  · rw [Ptable.modify_proc_field Proc.pid _ _ _ _ rfl, h₃.pid, (hp₂ i).1, h₁.pid]
  · rw [Ptable.modify_proc_field Proc.parent _ _ _ _ rfl, h₃.parent, (hp₂ i).2.1, h₁.parent, h₁.initproc]
  · rw [Ptable.modify_proc_ne _ _ hi]
    exact (h₁.state i).trans ((hp₂ i).2.2 ▸ h₃.state i)

/-- An `allocproc` that fails changes no state, no parent and the pid of no slot in
use; when the kernel stack could not be allocated, the free slot keeps the pid
spent on it. -/
theorem allocproc_none {ok : Bool} (h : allocproc t ok = (t', none)) :
    t'.initproc = t.initproc ∧ t.nextpid ≤ t'.nextpid ∧
      ∀ i, (t'.proc i).state = (t.proc i).state ∧ (t'.proc i).parent = (t.proc i).parent ∧
        ((t.proc i).state ≠ .unused → (t'.proc i).pid = (t.proc i).pid) := by
  unfold allocproc at h
  split at h
  · cases h
    exact ⟨rfl, le_rfl, fun _ => ⟨rfl, rfl, fun _ => rfl⟩⟩
  · rename_i i hi
    split_ifs at h
    · cases h
    · cases h
      refine ⟨rfl, by simp, fun j => ?_⟩
      by_cases hj : j = i
      · subst hj
        simp [firstUnused_state hi]
      · simp [Ptable.modify_proc_ne _ _ hj]

/-- `allocproc` claims a slot whenever `firstUnused` finds one and the kernel stack is
allocated. -/
theorem allocproc_of_firstUnused {i : Fin nproc} (hi : firstUnused t = some i) :
    ∃ t₁, allocproc t true = (t₁, some i) := by
  unfold allocproc
  rw [hi]
  exact ⟨_, rfl⟩

/-- `userinit` starts the first free slot as `initproc`, `RUNNABLE`. -/
theorem userinit_spec {i : Fin nproc} (hi : firstUnused t = some i) :
    (userinit t).initproc = some i ∧ (userinit t).nextpid = t.nextpid + 1 ∧
      ((userinit t).proc i).state = .runnable ∧ ((userinit t).proc i).pid = t.nextpid ∧
      ((userinit t).proc i).parent = (t.proc i).parent ∧ ∀ j, j ≠ i → (userinit t).proc j = t.proc j := by
  obtain ⟨t₁, ha⟩ := allocproc_of_firstUnused hi
  obtain ⟨-, hp, hn, -, ho⟩ := allocproc_spec ha
  unfold userinit
  rw [ha]
  refine ⟨rfl, by simp [hn], by simp, by simp [hp], by simp [hp], fun j hj => ?_⟩
  simp [Ptable.modify_proc_ne _ _ hj, ho j hj]

theorem firstZombieChild_spec {c : Fin nproc} (h : firstZombieChild t cur = some c) :
    (t.proc c).parent = some cur ∧ (t.proc c).state = .zombie := by
  simpa using List.find?_some h

/-- A parent with a zombie child has a first one. -/
theorem firstZombieChild_isSome {c : Fin nproc} (hp : (t.proc c).parent = some cur)
    (hz : (t.proc c).state = .zombie) : ∃ c', firstZombieChild t cur = some c' :=
  Option.isSome_iff_exists.mp (List.find?_isSome.mpr ⟨c, List.mem_finRange c, by simp [hp, hz]⟩)

/-- A `wait` that reaps frees the first zombie child's slot and returns its pid. -/
theorem wait_reaped {pid : ℤ} (h : wait t cur = (t', .reaped pid)) :
    ∃ c, firstZombieChild t cur = some c ∧
      t' = t.modify c (fun p => { p with pid := 0, parent := none, killed := 0, state := .unused }) ∧
      pid = (t.proc c).pid := by
  unfold wait at h
  split at h
  · rename_i c hc
    simp only [Prod.mk.injEq, WaitOutcome.reaped.injEq] at h
    exact ⟨c, hc, h.1.symm, h.2.symm⟩
  · dsimp only at h
    split_ifs at h <;> simp at h

/-- A `wait` that fails changes nothing, and the caller has no children or is killed. -/
theorem wait_failed (h : wait t cur = (t', .failed)) :
    t' = t ∧ ((∀ i, (t.proc i).parent ≠ some cur) ∨ (t.proc cur).killed ≠ 0) := by
  unfold wait at h
  split at h
  · simp at h
  · dsimp only at h
    split_ifs at h with hk
    · simp only [Prod.mk.injEq] at h
      refine ⟨h.1.symm, ?_⟩
      simpa [List.any_eq_false] using hk
    · simp at h

/-- A `wait` that sleeps found no zombie child and puts the caller to sleep on its slot. -/
theorem wait_sleeps (h : wait t cur = (t', .sleeps)) :
    firstZombieChild t cur = none ∧ t' = sleep t cur (.proc cur) := by
  unfold wait at h
  split at h
  · simp at h
  · rename_i hc
    dsimp only at h
    split_ifs at h
    · simp at h
    · simp only [Prod.mk.injEq] at h
      exact ⟨hc, h.1.symm⟩

end Table

/-! ### What each event does -/

namespace Kern

variable {k k' : Kern} {r : Option ℤ} {cur i : Fin nproc}

theorem step_userinit (h : k.step .userinit = some (k', r)) :
    ∃ i, k.tab.initproc = none ∧ firstUnused k.tab = some i ∧ r = none ∧
      k' = { k with tab := userinit k.tab, kstack := Function.update k.kstack i true,
                    pgdir := Function.update k.pgdir i true } := by
  simp only [step] at h
  split at h
  · rename_i i hn hi
    simp only [Option.some.injEq, Prod.mk.injEq] at h
    exact ⟨i, hn, hi, h.2.symm, h.1.symm⟩
  · cases h

theorem step_schedule (h : k.step (.schedule i) = some (k', r)) :
    (k.tab.proc i).state = .runnable ∧ r = none ∧
      k' = { k with tab := k.tab.modify i fun p => { p with state := .running } } := by
  simp only [step] at h
  split_ifs at h with hs
  simp only [Option.some.injEq, Prod.mk.injEq] at h
  exact ⟨hs, h.2.symm, h.1.symm⟩

theorem step_yield (h : k.step (.yield i) = some (k', r)) :
    (k.tab.proc i).state = .running ∧ r = none ∧
      k' = { k with tab := k.tab.modify i fun p => { p with state := .runnable } } := by
  simp only [step] at h
  split_ifs at h with hs
  simp only [Option.some.injEq, Prod.mk.injEq] at h
  exact ⟨hs, h.2.symm, h.1.symm⟩

theorem step_forkAlloc {ok : Bool} (h : k.step (.forkAlloc cur ok) = some (k', r)) :
    k.Ready cur ∧
      ((∃ t, allocproc k.tab ok = (t, none) ∧ r = some (-1) ∧ k' = { k with tab := t }) ∨
       (∃ t np, allocproc k.tab ok = (t, some np) ∧ r = none ∧
         k' = { k with tab := t, pc := Function.update k.pc cur (.forking np),
                       kstack := Function.update k.kstack np true })) := by
  simp only [step] at h
  split_ifs at h with hr
  refine ⟨hr, ?_⟩
  split at h
  · rename_i t ht
    simp only [Option.some.injEq, Prod.mk.injEq] at h
    exact .inl ⟨t, ht, h.2.symm, h.1.symm⟩
  · rename_i t np ht
    simp only [Option.some.injEq, Prod.mk.injEq] at h
    exact .inr ⟨t, np, ht, h.2.symm, h.1.symm⟩

theorem step_forkCopy {ok : Bool} (h : k.step (.forkCopy cur ok) = some (k', r)) :
    ∃ np, k.pc cur = .forking np ∧ (k.tab.proc cur).state = .running ∧
      ((ok = true ∧ r = none ∧
        k' = { k with
          tab := k.tab.modify np fun p =>
            { p with sz := (k.tab.proc cur).sz, parent := some cur,
                     tf := { (k.tab.proc cur).tf with eax := 0 } }
          pc := Function.update k.pc cur (.forked np (k.tab.proc np).pid)
          pgdir := Function.update k.pgdir np true }) ∨
       (ok = false ∧ r = some (-1) ∧
        k' = { k with
          tab := k.tab.modify np fun p => { p with state := .unused }
          pc := Function.update k.pc cur .idle
          kstack := Function.update k.kstack np false })) := by
  simp only [step] at h
  split at h
  · rename_i np hpc
    split_ifs at h with hs hok
    · simp only [Option.some.injEq, Prod.mk.injEq] at h
      exact ⟨np, hpc, hs, .inl ⟨hok, h.2.symm, h.1.symm⟩⟩
    · simp only [Option.some.injEq, Prod.mk.injEq] at h
      exact ⟨np, hpc, hs, .inr ⟨by simpa using hok, h.2.symm, h.1.symm⟩⟩
  · cases h

theorem step_forkFinish (h : k.step (.forkFinish cur) = some (k', r)) :
    ∃ np pid, k.pc cur = .forked np pid ∧ (k.tab.proc cur).state = .running ∧ r = some (cPid pid) ∧
      k' = { k with tab := k.tab.modify np fun p => { p with state := .runnable },
                    pc := Function.update k.pc cur .idle } := by
  simp only [step] at h
  split at h
  · rename_i np pid hpc
    split_ifs at h with hs
    simp only [Option.some.injEq, Prod.mk.injEq] at h
    exact ⟨np, pid, hpc, hs, h.2.symm, h.1.symm⟩
  · cases h

theorem step_exit (h : k.step (.exit cur) = some (k', r)) :
    k.Ready cur ∧ r = none ∧ ∃ t, exit k.tab cur = some t ∧ k' = { k with tab := t } := by
  simp only [step] at h
  split_ifs at h with hr
  obtain ⟨t, ht, he⟩ := Option.map_eq_some_iff.mp h
  simp only [Prod.mk.injEq] at he
  exact ⟨hr, he.2.symm, t, ht, he.1.symm⟩

theorem step_wait (h : k.step (.wait cur) = some (k', r)) :
    (k.tab.proc cur).state = .running ∧ (k.pc cur = .idle ∨ k.pc cur = .waiting) ∧
      ((∃ c, firstZombieChild k.tab cur = some c ∧ r = some (cPid (k.tab.proc c).pid) ∧
          k' = { k.release c with
            tab := k.tab.modify c fun p => { p with pid := 0, parent := none, killed := 0, state := .unused }
            pc := Function.update k.pc cur .idle }) ∨
       (((∀ i, (k.tab.proc i).parent ≠ some cur) ∨ (k.tab.proc cur).killed ≠ 0) ∧ r = some (-1) ∧
          k' = { k with pc := Function.update k.pc cur .idle }) ∨
       (firstZombieChild k.tab cur = none ∧ r = none ∧
          k' = { k with tab := sleep k.tab cur (.proc cur), pc := Function.update k.pc cur .waiting })) := by
  simp only [step] at h
  split_ifs at h with hr
  refine ⟨hr.1, hr.2, ?_⟩
  split at h
  · rename_i t pid c hw hc
    obtain ⟨c', hc', rfl, rfl⟩ := wait_reaped hw
    obtain rfl : c' = c := Option.some.inj (hc'.symm.trans hc)
    simp only [Option.some.injEq, Prod.mk.injEq] at h
    exact .inl ⟨c', hc, h.2.symm, h.1.symm⟩
  · rename_i t _ hw
    obtain ⟨rfl, hno⟩ := wait_failed hw
    simp only [Option.some.injEq, Prod.mk.injEq] at h
    exact .inr (.inl ⟨hno, h.2.symm, h.1.symm⟩)
  · rename_i t _ hw
    obtain ⟨hc, rfl⟩ := wait_sleeps hw
    simp only [Option.some.injEq, Prod.mk.injEq] at h
    exact .inr (.inr ⟨hc, h.2.symm, h.1.symm⟩)
  · cases h

/-- A pass of `wait` by a running caller with a zombie child reaps the first. -/
theorem step_wait_reap (hs : (k.tab.proc cur).state = .running) (hpc : k.pc cur = .idle ∨ k.pc cur = .waiting)
    {c : Fin nproc} (hc : firstZombieChild k.tab cur = some c) :
    k.step (.wait cur) = some ({ k.release c with
        tab := k.tab.modify c fun p => { p with pid := 0, parent := none, killed := 0, state := .unused }
        pc := Function.update k.pc cur .idle }, some (cPid (k.tab.proc c).pid)) := by
  have hw : wait k.tab cur = (k.tab.modify c fun p => { p with pid := 0, parent := none, killed := 0, state := .unused },
      .reaped (k.tab.proc c).pid) := by
    unfold wait
    rw [hc]
  simp only [step, if_pos (And.intro hs hpc), hw, hc]

theorem step_kill {pid : ℤ} (h : k.step (.kill cur pid) = some (k', r)) :
    k.Ready cur ∧ r = some (kill k.tab pid).2 ∧ k' = { k with tab := (kill k.tab pid).1 } := by
  simp only [step] at h
  split_ifs at h with hr
  simp only [Option.some.injEq, Prod.mk.injEq] at h
  exact ⟨hr, h.2.symm, h.1.symm⟩

end Kern

/-! ### The invariant -/

namespace Kern

/-- What every reachable state keeps: the parent links, the threads inside `fork`
and the children they build, the pages each slot holds, and the pids. -/
structure Inv (k : Kern) : Prop where
  /-- Before `userinit` every slot is free. -/
  init_none : k.tab.initproc = none → ∀ i, (k.tab.proc i).state = .unused
  /-- `initproc` never exits. -/
  init_active : ∀ j, k.tab.initproc = some j → (k.tab.proc j).state.Active
  /-- A parent link names a process that runs or can run. -/
  parent_active : ∀ i j, (k.tab.proc i).parent = some j → (k.tab.proc j).state.Active
  /-- A free slot has no parent. -/
  unused_parent : ∀ i, (k.tab.proc i).state = .unused → (k.tab.proc i).parent = none
  /-- A process past `EMBRYO`, other than `initproc`, has a parent. -/
  live_parent : ∀ i, (k.tab.proc i).state.Live → k.tab.initproc ≠ some i → (k.tab.proc i).parent ≠ none
  /-- A thread inside `fork` or `wait` is one of a process that runs or can run. -/
  busy_active : ∀ i, k.pc i ≠ .idle → (k.tab.proc i).state.Active
  /-- The child of a `fork` before the copy: an `EMBRYO` without parent or page directory. -/
  forking : ∀ cur np, k.pc cur = .forking np →
    (k.tab.proc np).state = .embryo ∧ (k.tab.proc np).parent = none ∧ k.kstack np = true ∧
      k.pgdir np = false
  /-- The child of a `fork` after the copy, whose pid the thread holds. -/
  forked : ∀ cur np pid, k.pc cur = .forked np pid →
    (k.tab.proc np).state = .embryo ∧ (k.tab.proc np).parent = some cur ∧ (k.tab.proc np).pid = pid ∧
      k.kstack np = true ∧ k.pgdir np = true
  /-- No two threads build the same child. -/
  child_unique : ∀ c₁ c₂ np, (k.pc c₁).child = some np → (k.pc c₂).child = some np → c₁ = c₂
  /-- A process past `EMBRYO` holds its kernel stack and page directory. -/
  live_holds : ∀ i, (k.tab.proc i).state.Live → k.kstack i = true ∧ k.pgdir i = true
  /-- A free slot holds neither. -/
  unused_free : ∀ i, (k.tab.proc i).state = .unused → k.kstack i = false ∧ k.pgdir i = false
  nextpid_pos : 1 ≤ k.tab.nextpid
  /-- The pids in use are positive and below `nextpid`. -/
  pid_range : ∀ i, (k.tab.proc i).state ≠ .unused → 1 ≤ (k.tab.proc i).pid ∧ (k.tab.proc i).pid < k.tab.nextpid
  /-- No two slots in use share a pid. -/
  pid_inj : ∀ i j, (k.tab.proc i).state ≠ .unused → (k.tab.proc j).state ≠ .unused →
    (k.tab.proc i).pid = (k.tab.proc j).pid → i = j

theorem Inv.boot : Kern.boot.Inv where
  init_none _ _ := rfl
  init_active _ h := by simp [Kern.boot, Ptable.boot] at h
  parent_active _ _ h := by simp [Kern.boot, Ptable.boot, Proc.zero] at h
  unused_parent _ _ := rfl
  live_parent _ h := by simp [Kern.boot, Ptable.boot, Proc.zero] at h
  busy_active _ h := absurd rfl h
  forking _ _ h := by simp [Kern.boot] at h
  forked _ _ _ h := by simp [Kern.boot] at h
  child_unique _ _ _ h := by simp [Kern.boot] at h
  live_holds _ h := by simp [Kern.boot, Ptable.boot, Proc.zero] at h
  unused_free _ _ := ⟨rfl, rfl⟩
  nextpid_pos := le_rfl
  pid_range _ h := absurd rfl h
  pid_inj _ _ h := absurd rfl h

section Inv

variable {k : Kern} (hk : k.Inv)
include hk

/-- Once any process is started, `initproc` is set. -/
theorem Inv.initproc_of_ne_unused {i : Fin nproc} (hi : (k.tab.proc i).state ≠ .unused) :
    ∃ j, k.tab.initproc = some j := by
  cases h : k.tab.initproc with
  | none => exact absurd (hk.init_none h i) hi
  | some j => exact ⟨j, rfl⟩

/-- A slot a thread builds is an `EMBRYO`. -/
theorem Inv.child_embryo {c np : Fin nproc} (h : (k.pc c).child = some np) :
    (k.tab.proc np).state = .embryo := by
  cases hc : k.pc c with
  | idle => simp [hc] at h
  | waiting => simp [hc] at h
  | forking np' =>
    rw [hc, Pc.child_forking, Option.some.injEq] at h
    exact h ▸ (hk.forking c np' hc).1
  | forked np' pid =>
    rw [hc, Pc.child_forked, Option.some.injEq] at h
    exact h ▸ (hk.forked c np' pid hc).1

end Inv

/-! ### Steps that change no class of state -/

/-- `k'` moves processes only among the states that run or can run, and changes no
parent, no pid in use, no child a thread builds and no page a slot holds. -/
structure Calm (k k' : Kern) : Prop where
  initproc : k'.tab.initproc = k.tab.initproc
  nextpid : k.tab.nextpid ≤ k'.tab.nextpid
  state : ∀ i, (k'.tab.proc i).state = (k.tab.proc i).state ∨
    ((k.tab.proc i).state.Active ∧ (k'.tab.proc i).state.Active)
  parent : ∀ i, (k'.tab.proc i).parent = (k.tab.proc i).parent
  pid : ∀ i, (k.tab.proc i).state ≠ .unused → (k'.tab.proc i).pid = (k.tab.proc i).pid
  pc : ∀ i, k'.pc i = k.pc i ∨ ((k.pc i).child = none ∧ (k'.pc i).child = none ∧
    (k'.tab.proc i).state.Active)
  kstack : k'.kstack = k.kstack
  pgdir : k'.pgdir = k.pgdir

namespace Calm

variable {k k' : Kern} (h : Calm k k') {i : Fin nproc}
include h

/-- A class of states that no state that runs or can run belongs to is kept. -/
theorem class_iff {P : Procstate → Prop} (hP : ∀ s, s.Active → ¬ P s) :
    P (k'.tab.proc i).state ↔ P (k.tab.proc i).state := by
  rcases h.state i with he | ⟨ha, ha'⟩
  · rw [he]
  · exact ⟨fun hp => absurd hp (hP _ ha'), fun hp => absurd hp (hP _ ha)⟩

theorem active_iff : (k'.tab.proc i).state.Active ↔ (k.tab.proc i).state.Active := by
  rcases h.state i with he | ⟨ha, ha'⟩
  · rw [he]
  · exact ⟨fun _ => ha, fun _ => ha'⟩

theorem unused_iff : (k'.tab.proc i).state = .unused ↔ (k.tab.proc i).state = .unused :=
  h.class_iff fun _ ha => ha.ne_unused

theorem embryo_iff : (k'.tab.proc i).state = .embryo ↔ (k.tab.proc i).state = .embryo :=
  h.class_iff fun _ ha => ha.ne_embryo

theorem live_iff : (k'.tab.proc i).state.Live ↔ (k.tab.proc i).state.Live := by
  rw [Procstate.live_iff, Procstate.live_iff, h.active_iff, h.class_iff fun _ ha => ha.ne_zombie]

theorem child {np : Fin nproc} (hc : (k'.pc i).child = some np) : (k.pc i).child = some np := by
  rcases h.pc i with he | ⟨-, hn, -⟩
  · rwa [he] at hc
  · rw [hn] at hc; cases hc

theorem inv (hk : k.Inv) : k'.Inv where
  init_none hn j := h.unused_iff.mpr (hk.init_none (h.initproc ▸ hn) j)
  init_active j hj := h.active_iff.mpr (hk.init_active j (h.initproc ▸ hj))
  parent_active i j hp := h.active_iff.mpr (hk.parent_active i j (h.parent i ▸ hp))
  unused_parent i hu := (h.parent i).trans (hk.unused_parent i (h.unused_iff.mp hu))
  live_parent i hl hi := (h.parent i).symm ▸ hk.live_parent i (h.live_iff.mp hl) (h.initproc ▸ hi)
  busy_active i hpc := by
    rcases h.pc i with he | ⟨-, -, ha⟩
    · exact h.active_iff.mpr (hk.busy_active i (he ▸ hpc))
    · exact ha
  forking c np hpc := by
    have hc : (k.pc c).child = some np := h.child (i := c) (by rw [hpc]; rfl)
    rcases h.pc c with he | ⟨-, hn, -⟩
    · obtain ⟨he₁, hp₁, hs₁, hd₁⟩ := hk.forking c np (he ▸ hpc)
      exact ⟨h.embryo_iff.mpr he₁, (h.parent np).trans hp₁, h.kstack ▸ hs₁, h.pgdir ▸ hd₁⟩
    · rw [hpc] at hn; cases hn
  forked c np pid hpc := by
    rcases h.pc c with he | ⟨-, hn, -⟩
    · obtain ⟨he₁, hp₁, hi₁, hs₁, hd₁⟩ := hk.forked c np pid (he ▸ hpc)
      exact ⟨h.embryo_iff.mpr he₁, (h.parent np).trans hp₁, (h.pid np (by simp [he₁])).trans hi₁,
        h.kstack ▸ hs₁, h.pgdir ▸ hd₁⟩
    · rw [hpc] at hn; cases hn
  child_unique c₁ c₂ np h₁ h₂ := hk.child_unique c₁ c₂ np (h.child h₁) (h.child h₂)
  live_holds i hl := h.kstack ▸ h.pgdir ▸ hk.live_holds i (h.live_iff.mp hl)
  unused_free i hu := h.kstack ▸ h.pgdir ▸ hk.unused_free i (h.unused_iff.mp hu)
  nextpid_pos := hk.nextpid_pos.trans h.nextpid
  pid_range i hu := by
    have hu' := mt h.unused_iff.mpr hu
    rw [h.pid i hu']
    exact ⟨(hk.pid_range i hu').1, (hk.pid_range i hu').2.trans_le h.nextpid⟩
  pid_inj i j hi hj hp := by
    have hi' := mt h.unused_iff.mpr hi
    have hj' := mt h.unused_iff.mpr hj
    exact hk.pid_inj i j hi' hj' (by rwa [h.pid i hi', h.pid j hj'] at hp)

end Calm

namespace Calm

variable {k k₁ k₂ : Kern} {i : Fin nproc}

theorem trans (h₁ : Calm k k₁) (h₂ : Calm k₁ k₂) : Calm k k₂ where
  initproc := h₂.initproc.trans h₁.initproc
  nextpid := h₁.nextpid.trans h₂.nextpid
  state i := by
    rcases h₁.state i with he | ⟨ha, -⟩
    · rw [← he]; exact h₂.state i
    · exact .inr ⟨ha, h₂.active_iff.mpr (h₁.active_iff.mpr ha)⟩
  parent i := (h₂.parent i).trans (h₁.parent i)
  pid i hu := (h₂.pid i (mt h₁.unused_iff.mp hu)).trans (h₁.pid i hu)
  pc i := by
    rcases h₁.pc i with he₁ | ⟨hn, hn₁, ha₁⟩ <;> rcases h₂.pc i with he₂ | ⟨hn', hn₂, ha₂⟩
    · exact .inl (he₂.trans he₁)
    · exact .inr ⟨he₁ ▸ hn', hn₂, ha₂⟩
    · exact .inr ⟨hn, he₂ ▸ hn₁, h₂.active_iff.mpr ha₁⟩
    · exact .inr ⟨hn, hn₂, ha₂⟩
  kstack := h₂.kstack.trans h₁.kstack
  pgdir := h₂.pgdir.trans h₁.pgdir

/-- A change of one slot between states that run or can run. -/
theorem modify {f : Proc → Proc} (hpar : ∀ p, (f p).parent = p.parent) (hpid : ∀ p, (f p).pid = p.pid)
    (ha : (k.tab.proc i).state.Active) (ha' : (f (k.tab.proc i)).state.Active) :
    Calm k { k with tab := k.tab.modify i f } where
  initproc := rfl
  nextpid := le_rfl
  state j := by
    by_cases hj : j = i
    · subst hj; exact .inr ⟨ha, by simpa using ha'⟩
    · exact .inl (by simp [Ptable.modify_proc_ne _ _ hj])
  parent j := Ptable.modify_proc_field Proc.parent _ _ _ _ (hpar _)
  pid j _ := Ptable.modify_proc_field Proc.pid _ _ _ _ (hpid _)
  pc _ := .inl rfl
  kstack := rfl
  pgdir := rfl

theorem of_wakes {t : Ptable} (h : k.tab.Wakes t) : Calm k { k with tab := t } where
  initproc := h.initproc
  nextpid := h.nextpid.ge
  state j := by
    rcases h.state j with he | ⟨hs, hr⟩
    · exact .inl he
    · exact .inr ⟨by simp [hs], by simp [hr]⟩
  parent := h.parent
  pid j _ := h.pid j
  pc _ := .inl rfl
  kstack := rfl
  pgdir := rfl

/-- A thread outside `fork` moves between `idle` and `waiting`. -/
theorem setPc {p : Pc} (hc : (k.pc i).child = none) (hp : p.child = none)
    (ha : (k.tab.proc i).state.Active) : Calm k { k with pc := Function.update k.pc i p } where
  initproc := rfl
  nextpid := le_rfl
  state _ := .inl rfl
  parent _ := rfl
  pid _ _ := rfl
  pc j := by
    by_cases hj : j = i
    · subst hj; exact .inr ⟨hc, by simpa using hp, ha⟩
    · exact .inl (Function.update_of_ne hj _ _)
  kstack := rfl
  pgdir := rfl

theorem of_allocproc_none {t : Ptable} {ok : Bool} (h : allocproc k.tab ok = (t, none)) :
    Calm k { k with tab := t } where
  initproc := (allocproc_none h).1
  nextpid := (allocproc_none h).2.1
  state j := .inl ((allocproc_none h).2.2 j).1
  parent j := ((allocproc_none h).2.2 j).2.1
  pid j := ((allocproc_none h).2.2 j).2.2
  pc _ := .inl rfl
  kstack := rfl
  pgdir := rfl

/-- A state that neither runs nor can run is kept, with its pid. -/
theorem zombie (h : Calm k k₁) {c : Fin nproc} (hc : (k.tab.proc c).state = .zombie) :
    (k₁.tab.proc c).state = .zombie ∧ (k₁.tab.proc c).pid = (k.tab.proc c).pid :=
  ⟨(h.class_iff (P := (· = .zombie)) fun _ ha => ha.ne_zombie).mpr hc, h.pid c (by rw [hc]; simp)⟩

end Calm

section CalmSteps

variable {k k' : Kern} {r : Option ℤ} {cur i : Fin nproc}

theorem calm_of_schedule (h : k.step (.schedule i) = some (k', r)) : Calm k k' := by
  obtain ⟨hs, -, rfl⟩ := step_schedule h
  exact Calm.modify (fun _ => rfl) (fun _ => rfl) (by rw [hs]; simp) (by simp)

theorem calm_of_yield (h : k.step (.yield i) = some (k', r)) : Calm k k' := by
  obtain ⟨hs, -, rfl⟩ := step_yield h
  exact Calm.modify (fun _ => rfl) (fun _ => rfl) (by rw [hs]; simp) (by simp)

theorem calm_of_kill {pid : ℤ} (h : k.step (.kill cur pid) = some (k', r)) : Calm k k' := by
  obtain ⟨-, -, rfl⟩ := step_kill h
  exact Calm.of_wakes (kill_wakes _ _)

/-- A pass of `wait` that reaps nothing: it fails, or the caller sleeps. -/
theorem wait_cases (h : k.step (.wait cur) = some (k', r)) :
    (∃ c, firstZombieChild k.tab cur = some c ∧ r = some (cPid (k.tab.proc c).pid) ∧
        k' = { k.release c with
          tab := k.tab.modify c fun p => { p with pid := 0, parent := none, killed := 0, state := .unused }
          pc := Function.update k.pc cur .idle }) ∨
      Calm k k' := by
  obtain ⟨hs, hpc, hreap | ⟨-, -, rfl⟩ | ⟨-, -, rfl⟩⟩ := step_wait h
  · exact .inl hreap
  · -- no child to reap: the caller leaves `wait` with `-1`
    have hc : (k.pc cur).child = none := by rcases hpc with h | h <;> simp [h]
    exact .inr (Calm.setPc hc rfl (by rw [hs]; simp))
  · -- the caller sleeps in `wait`
    have hc : (k.pc cur).child = none := by rcases hpc with h | h <;> simp [h]
    have h₁ : Calm k { k with tab := sleep k.tab cur (.proc cur) } :=
      Calm.modify (fun _ => rfl) (fun _ => rfl) (by rw [hs]; simp) (by simp)
    exact .inr (h₁.trans (Calm.setPc hc rfl (by simp [sleep])))

end CalmSteps

end Kern

/-! ### Steps that start, build or end a process -/

/-- A thread leaving its call builds nothing; the others build what they built. -/
theorem Pc.child_update_idle {pc : Fin nproc → Pc} {cur c x : Fin nproc}
    (h : (Function.update pc cur .idle c).child = some x) : c ≠ cur ∧ (pc c).child = some x := by
  by_cases hc : c = cur
  · subst hc; simp at h
  · rw [Function.update_of_ne hc] at h; exact ⟨hc, h⟩

namespace Kern

section Events

variable {k : Kern} (hk : k.Inv)
include hk

/-- `userinit` starts `initproc` in an empty table. -/
theorem Inv.of_userinit {i : Fin nproc} (hn : k.tab.initproc = none) (hi : firstUnused k.tab = some i) :
    ({ k with tab := Xv6.userinit k.tab, kstack := Function.update k.kstack i true,
               pgdir := Function.update k.pgdir i true } : Kern).Inv := by
  obtain ⟨hU₁, hU₂, hU₃, hU₄, hU₅, hU₆⟩ := userinit_spec hi
  have hfree := hk.init_none hn
  -- before `userinit` no slot has a parent and no thread is inside a call
  have hpar : ∀ j, ((Xv6.userinit k.tab).proc j).parent = none := fun j => by
    by_cases hj : j = i
    · subst hj; rw [hU₅]; exact hk.unused_parent j (hfree j)
    · rw [hU₆ j hj]; exact hk.unused_parent j (hfree j)
  have hidle : ∀ j, k.pc j = .idle := fun j =>
    by_contra fun h => (hk.busy_active j h).ne_unused (hfree j)
  have hrest : ∀ j, j ≠ i → ((Xv6.userinit k.tab).proc j).state = .unused := fun j hj => by
    rw [hU₆ j hj]; exact hfree j
  have honly : ∀ j, ((Xv6.userinit k.tab).proc j).state ≠ .unused → j = i := fun j h =>
    by_contra fun hj => h (hrest j hj)
  refine
    { init_none := fun h => by simp [hU₁] at h
      init_active := fun j hj => ?_
      parent_active := fun j _ h => by simp [hpar] at h
      unused_parent := fun j _ => hpar j
      live_parent := fun j hl hne => ?_
      busy_active := fun j h => absurd (hidle j) h
      forking := fun c _ h => by simp [hidle] at h
      forked := fun c _ _ h => by simp [hidle] at h
      child_unique := fun c _ _ h => by simp [hidle] at h
      live_holds := fun j hl => ?_
      unused_free := fun j hu => ?_
      nextpid_pos := by dsimp only; rw [hU₂]; exact le_add_of_le_of_nonneg hk.nextpid_pos zero_le_one
      pid_range := fun j hu => ?_
      pid_inj := fun j j' hj hj' _ => (honly j hj).trans (honly j' hj').symm }
  · obtain rfl : i = j := Option.some.inj (hU₁.symm.trans hj)
    simp [hU₃]
  · obtain rfl := honly j hl.ne_unused
    exact absurd hU₁ hne
  · obtain rfl := honly j hl.ne_unused
    simp
  · have hj : j ≠ i := by rintro rfl; simp [hU₃] at hu
    simpa [Function.update_of_ne hj] using hk.unused_free j (hfree j)
  · obtain rfl := honly j hu
    dsimp only
    rw [hU₄, hU₂]
    exact ⟨hk.nextpid_pos, by omega⟩

/-- The first section of `fork`: `allocproc` claims a free slot for the caller. -/
theorem Inv.of_forkAlloc {cur np : Fin nproc} {t : Ptable} {ok : Bool} (hr : k.Ready cur)
    (ha : allocproc k.tab ok = (t, some np)) :
    ({ k with tab := t, pc := Function.update k.pc cur (.forking np),
               kstack := Function.update k.kstack np true } : Kern).Inv := by
  obtain ⟨hfree, hnp, hn, hi, ho⟩ := allocproc_spec ha
  -- the claimed slot was free: nobody's parent, nobody's child, holding nothing
  have hne : ∀ j, (k.tab.proc j).state ≠ .unused → j ≠ np := fun j hj h => hj (h ▸ hfree)
  have hcur : cur ≠ np := hne cur (by rw [hr.1]; simp)
  have hunclaimed : ∀ c, (k.pc c).child ≠ some np := fun c h => by
    have := hk.child_embryo h
    rw [hfree] at this
    cases this
  have hpar0 := hk.unused_parent np hfree
  obtain ⟨hks0, hpg0⟩ := hk.unused_free np hfree
  have hembryo : (t.proc np).state = .embryo := by rw [hnp]
  refine
    { init_none := fun h => absurd (hk.init_none (hi ▸ h) cur) (by rw [hr.1]; simp)
      init_active := fun j hj => ?_
      parent_active := fun i j h => ?_
      unused_parent := fun i hu => ?_
      live_parent := fun i hl hne' => ?_
      busy_active := fun i h => ?_
      forking := fun c np' h => ?_
      forked := fun c np' pid h => ?_
      child_unique := fun c₁ c₂ x h₁ h₂ => ?_
      live_holds := fun i hl => ?_
      unused_free := fun i hu => ?_
      nextpid_pos := by dsimp only; rw [hn]; exact le_add_of_le_of_nonneg hk.nextpid_pos zero_le_one
      pid_range := fun i hu => ?_
      pid_inj := fun i j hi' hj h => ?_ }
  · have ha' := hk.init_active j (hi ▸ hj)
    dsimp only
    rwa [ho j (hne j ha'.ne_unused)]
  · dsimp only at h ⊢
    by_cases hinp : i = np
    · subst hinp; rw [hnp, hpar0] at h; cases h
    · rw [ho i hinp] at h
      have ha' := hk.parent_active i j h
      rwa [ho j (hne j ha'.ne_unused)]
  · by_cases hinp : i = np
    · subst hinp; rw [hembryo] at hu; cases hu
    · dsimp only at hu ⊢; rw [ho i hinp] at hu ⊢; exact hk.unused_parent i hu
  · by_cases hinp : i = np
    · subst hinp; rw [hembryo] at hl; exact absurd rfl hl.ne_embryo
    · dsimp only at hl hne' ⊢
      rw [ho i hinp] at hl ⊢
      exact hk.live_parent i hl (hi ▸ hne')
  · dsimp only at h ⊢
    by_cases hic : i = cur
    · subst hic; rw [ho i hcur, hr.1]; simp
    · rw [Function.update_of_ne hic] at h
      have ha' := hk.busy_active i h
      rwa [ho i (hne i ha'.ne_unused)]
  · dsimp only at h ⊢
    by_cases hic : c = cur
    · subst hic
      rw [Function.update_self, Pc.forking.injEq] at h
      subst h
      exact ⟨hembryo, by rw [hnp, hpar0], by simp, by rw [hpg0]⟩
    · rw [Function.update_of_ne hic] at h
      obtain ⟨he, hp, hs, hd⟩ := hk.forking c np' h
      have hne' : np' ≠ np := hne np' (by rw [he]; simp)
      rw [ho np' hne', Function.update_of_ne hne']
      exact ⟨he, hp, hs, hd⟩
  · dsimp only at h ⊢
    by_cases hic : c = cur
    · subst hic; simp at h
    · rw [Function.update_of_ne hic] at h
      obtain ⟨he, hp, hpid, hs, hd⟩ := hk.forked c np' pid h
      have hne' : np' ≠ np := hne np' (by rw [he]; simp)
      rw [ho np' hne', Function.update_of_ne hne']
      exact ⟨he, hp, hpid, hs, hd⟩
  · dsimp only at h₁ h₂
    by_cases hc₁ : c₁ = cur <;> by_cases hc₂ : c₂ = cur
    · exact hc₁.trans hc₂.symm
    · subst hc₁
      rw [Function.update_self, Pc.child_forking] at h₁
      rw [Function.update_of_ne hc₂, ← h₁] at h₂
      exact absurd h₂ (hunclaimed c₂)
    · subst hc₂
      rw [Function.update_self, Pc.child_forking] at h₂
      rw [Function.update_of_ne hc₁, ← h₂] at h₁
      exact absurd h₁ (hunclaimed c₁)
    · rw [Function.update_of_ne hc₁] at h₁
      rw [Function.update_of_ne hc₂] at h₂
      exact hk.child_unique c₁ c₂ x h₁ h₂
  · by_cases hinp : i = np
    · subst hinp; rw [hembryo] at hl; exact absurd rfl hl.ne_embryo
    · dsimp only at hl ⊢
      rw [ho i hinp] at hl
      rw [Function.update_of_ne hinp]
      exact hk.live_holds i hl
  · by_cases hinp : i = np
    · subst hinp; rw [hembryo] at hu; cases hu
    · dsimp only at hu ⊢
      rw [ho i hinp] at hu
      rw [Function.update_of_ne hinp]
      exact hk.unused_free i hu
  · dsimp only at hu ⊢
    rw [hn]
    by_cases hinp : i = np
    · subst hinp; rw [hnp]; dsimp only; exact ⟨hk.nextpid_pos, by omega⟩
    · rw [ho i hinp] at hu ⊢
      have := hk.pid_range i hu
      exact ⟨this.1, by omega⟩
  · dsimp only at hi' hj h
    -- the new pid is above every pid in use
    have hbelow : ∀ j, j ≠ np → (t.proc j).state ≠ .unused → (t.proc j).pid < (t.proc np).pid := by
      intro j hjn hu
      rw [ho j hjn] at hu ⊢
      rw [hnp]
      dsimp only
      exact (hk.pid_range j hu).2
    by_cases hinp : i = np <;> by_cases hjnp : j = np
    · exact hinp.trans hjnp.symm
    · subst hinp; exact absurd h.symm (hbelow j hjnp hj).ne
    · subst hjnp; exact absurd h (hbelow i hinp hi').ne
    · rw [ho i hinp] at hi' h
      rw [ho j hjnp] at hj h
      exact hk.pid_inj i j hi' hj h

/-- The copy of `fork`, outside the lock: the child gets its parent and a page
directory, and the thread keeps the child's pid. -/
theorem Inv.of_forkCopy {cur np : Fin nproc} (hpc : k.pc cur = .forking np)
    (hs : (k.tab.proc cur).state = .running) :
    ({ k with
        tab := k.tab.modify np fun p =>
          { p with sz := (k.tab.proc cur).sz, parent := some cur,
                   tf := { (k.tab.proc cur).tf with eax := 0 } }
        pc := Function.update k.pc cur (.forked np (k.tab.proc np).pid)
        pgdir := Function.update k.pgdir np true } : Kern).Inv := by
  obtain ⟨he, hp0, hks, hpg0⟩ := hk.forking cur np hpc
  set t := k.tab.modify np fun p =>
    { p with sz := (k.tab.proc cur).sz, parent := some cur, tf := { (k.tab.proc cur).tf with eax := 0 } }
  -- the copy keeps every state and pid
  have hst : ∀ j, (t.proc j).state = (k.tab.proc j).state := fun j =>
    Ptable.modify_proc_field Proc.state _ _ _ _ rfl
  have hpid : ∀ j, (t.proc j).pid = (k.tab.proc j).pid := fun j =>
    Ptable.modify_proc_field Proc.pid _ _ _ _ rfl
  have hpar : ∀ j, j ≠ np → (t.proc j).parent = (k.tab.proc j).parent := fun j hj => by
    rw [Ptable.modify_proc_ne _ _ hj]
  have hcur : cur ≠ np := fun h => by rw [h, he] at hs; cases hs
  -- the caller still builds `np`, and no other thread does
  have hclaim : ∀ c, (Function.update k.pc cur (.forked np (k.tab.proc np).pid) c).child = (k.pc c).child :=
    fun c => by
      by_cases hc : c = cur
      · subst hc; rw [Function.update_self, hpc]; rfl
      · rw [Function.update_of_ne hc]
  have hother : ∀ c np', c ≠ cur → (k.pc c).child = some np' → np' ≠ np := fun c np' hc h hn =>
    hc (hk.child_unique c cur np' h (by rw [hpc, hn]; rfl))
  refine
    { init_none := fun h j => (hst j).trans (hk.init_none h j)
      init_active := fun j hj => (hst j).symm ▸ hk.init_active j hj
      parent_active := fun i j h => ?_
      unused_parent := fun i hu => ?_
      live_parent := fun i hl hne => ?_
      busy_active := fun i h => ?_
      forking := fun c np' h => ?_
      forked := fun c np' pid h => ?_
      child_unique := fun c₁ c₂ x h₁ h₂ => hk.child_unique c₁ c₂ x ((hclaim c₁) ▸ h₁) ((hclaim c₂) ▸ h₂)
      live_holds := fun i hl => ?_
      unused_free := fun i hu => ?_
      nextpid_pos := hk.nextpid_pos
      pid_range := fun i hu => (hpid i).symm ▸ hk.pid_range i ((hst i) ▸ hu)
      pid_inj := fun i j hi hj h =>
        hk.pid_inj i j ((hst i) ▸ hi) ((hst j) ▸ hj) (by rwa [hpid, hpid] at h) }
  · dsimp only at h ⊢
    rw [hst]
    by_cases hinp : i = np
    · subst hinp
      rw [Ptable.modify_proc_self] at h
      cases h
      rw [hs]; simp
    · rw [hpar i hinp] at h
      exact hk.parent_active i j h
  · dsimp only at hu ⊢
    rw [hst] at hu
    have hinp : i ≠ np := fun h => by rw [h, he] at hu; cases hu
    rw [hpar i hinp]
    exact hk.unused_parent i hu
  · dsimp only at hl hne ⊢
    rw [hst] at hl
    have hinp : i ≠ np := fun h => by rw [h, he] at hl; exact hl.ne_embryo rfl
    rw [hpar i hinp]
    exact hk.live_parent i hl hne
  · dsimp only at h ⊢
    rw [hst]
    by_cases hic : i = cur
    · subst hic; rw [hs]; simp
    · rw [Function.update_of_ne hic] at h
      exact hk.busy_active i h
  · dsimp only at h ⊢
    have hic : c ≠ cur := by rintro rfl; simp at h
    rw [Function.update_of_ne hic] at h
    obtain ⟨he', hp', hs', hd'⟩ := hk.forking c np' h
    have hne' := hother c np' hic (by rw [h]; rfl)
    rw [hst, hpar np' hne', Function.update_of_ne hne']
    exact ⟨he', hp', hs', hd'⟩
  · dsimp only at h ⊢
    by_cases hic : c = cur
    · subst hic
      rw [Function.update_self, Pc.forked.injEq] at h
      obtain ⟨rfl, rfl⟩ := h
      rw [hst, hpid, Ptable.modify_proc_self]
      exact ⟨he, rfl, rfl, hks, by simp⟩
    · rw [Function.update_of_ne hic] at h
      obtain ⟨he', hp', hpid', hs', hd'⟩ := hk.forked c np' pid h
      have hne' := hother c np' hic (by rw [h]; rfl)
      rw [hst, hpar np' hne', hpid, Function.update_of_ne hne']
      exact ⟨he', hp', hpid', hs', hd'⟩
  · dsimp only at hl ⊢
    rw [hst] at hl
    have hinp : i ≠ np := fun h => by rw [h, he] at hl; exact hl.ne_embryo rfl
    rw [Function.update_of_ne hinp]
    exact hk.live_holds i hl
  · dsimp only at hu ⊢
    rw [hst] at hu
    have hinp : i ≠ np := fun h => by rw [h, he] at hu; cases hu
    rw [Function.update_of_ne hinp]
    exact hk.unused_free i hu

/-- A slot that neither runs nor can run is handed back, with its kernel stack and
page directory, and the thread `cur` leaves its call: a failed copy in `fork`, or
the reaping `wait`. -/
theorem Inv.of_free {c cur : Fin nproc} {f : Proc → Proc} (hc : ¬ (k.tab.proc c).state.Active)
    (hfs : (f (k.tab.proc c)).state = .unused) (hfp : (f (k.tab.proc c)).parent = none)
    (hclaim : ∀ c', c' ≠ cur → (k.pc c').child ≠ some c) :
    ({ k with tab := k.tab.modify c f, pc := Function.update k.pc cur .idle,
               kstack := Function.update k.kstack c false,
               pgdir := Function.update k.pgdir c false } : Kern).Inv := by
  set t := k.tab.modify c f
  have hne : ∀ j, (k.tab.proc j).state.Active → j ≠ c := fun j hj h => hc (h ▸ hj)
  have hsame : ∀ j, j ≠ c → t.proc j = k.tab.proc j := fun j hj => Ptable.modify_proc_ne _ _ hj
  have hcu : (t.proc c).state = .unused := by simp [t, hfs]
  -- what a thread other than `cur` builds is not `c`
  have hother : ∀ c' np', c' ≠ cur → (k.pc c').child = some np' → np' ≠ c := fun c' np' hc' h hn =>
    hclaim c' hc' (hn ▸ h)
  have hpc : ∀ c' x, (Function.update k.pc cur .idle c').child = some x → c' ≠ cur ∧ (k.pc c').child = some x :=
    fun _ _ => Pc.child_update_idle
  refine
    { init_none := fun h j => ?_
      init_active := fun j hj => ?_
      parent_active := fun i j h => ?_
      unused_parent := fun i hu => ?_
      live_parent := fun i hl hne' => ?_
      busy_active := fun i h => ?_
      forking := fun c' np' h => ?_
      forked := fun c' np' pid h => ?_
      child_unique := fun c₁ c₂ x h₁ h₂ => hk.child_unique c₁ c₂ x (hpc c₁ x h₁).2 (hpc c₂ x h₂).2
      live_holds := fun i hl => ?_
      unused_free := fun i hu => ?_
      nextpid_pos := hk.nextpid_pos
      pid_range := fun i hu => ?_
      pid_inj := fun i j hi hj h => ?_ }
  · by_cases hj : j = c
    · subst hj; exact hcu
    · dsimp only; rw [hsame j hj]; exact hk.init_none h j
  · have ha := hk.init_active j hj
    dsimp only; rwa [hsame j (hne j ha)]
  · dsimp only at h ⊢
    by_cases hic : i = c
    · subst hic; simp [t, hfp] at h
    · rw [hsame i hic] at h
      have ha := hk.parent_active i j h
      rwa [hsame j (hne j ha)]
  · dsimp only at hu ⊢
    by_cases hic : i = c
    · subst hic; simp [t, hfp]
    · rw [hsame i hic] at hu ⊢; exact hk.unused_parent i hu
  · dsimp only at hl hne' ⊢
    have hic : i ≠ c := fun h => by rw [h, hcu] at hl; exact hl.ne_unused rfl
    rw [hsame i hic] at hl ⊢
    exact hk.live_parent i hl hne'
  · dsimp only at h ⊢
    have hicur : i ≠ cur := by rintro rfl; simp at h
    rw [Function.update_of_ne hicur] at h
    have ha := hk.busy_active i h
    rwa [hsame i (hne i ha)]
  · dsimp only at h ⊢
    obtain ⟨hc', h'⟩ := hpc c' np' (by rw [h]; rfl)
    rw [Function.update_of_ne hc'] at h
    have hn := hother c' np' hc' h'
    obtain ⟨he, hp, hs, hd⟩ := hk.forking c' np' h
    rw [hsame np' hn, Function.update_of_ne hn, Function.update_of_ne hn]
    exact ⟨he, hp, hs, hd⟩
  · dsimp only at h ⊢
    obtain ⟨hc', h'⟩ := hpc c' np' (by rw [h]; rfl)
    rw [Function.update_of_ne hc'] at h
    have hn := hother c' np' hc' h'
    obtain ⟨he, hp, hpid, hs, hd⟩ := hk.forked c' np' pid h
    rw [hsame np' hn, Function.update_of_ne hn, Function.update_of_ne hn]
    exact ⟨he, hp, hpid, hs, hd⟩
  · dsimp only at hl ⊢
    have hic : i ≠ c := fun h => by rw [h, hcu] at hl; exact hl.ne_unused rfl
    rw [hsame i hic] at hl
    rw [Function.update_of_ne hic, Function.update_of_ne hic]
    exact hk.live_holds i hl
  · dsimp only at hu ⊢
    by_cases hic : i = c
    · subst hic; simp
    · rw [hsame i hic] at hu
      rw [Function.update_of_ne hic, Function.update_of_ne hic]
      exact hk.unused_free i hu
  · dsimp only at hu ⊢
    have hic : i ≠ c := fun h => hu (h ▸ hcu)
    rw [hsame i hic] at hu ⊢
    exact hk.pid_range i hu
  · dsimp only at hi hj h
    have hic : i ≠ c := fun h => hi (h ▸ hcu)
    have hjc : j ≠ c := fun h => hj (h ▸ hcu)
    rw [hsame i hic] at hi h
    rw [hsame j hjc] at hj h
    exact hk.pid_inj i j hi hj h

/-- The copy of `fork` failed: the child's slot and kernel stack are handed back. -/
theorem Inv.of_forkCopy_fail {cur np : Fin nproc} (hpc : k.pc cur = .forking np) :
    ({ k with
        tab := k.tab.modify np fun p => { p with state := .unused }
        pc := Function.update k.pc cur .idle
        kstack := Function.update k.kstack np false } : Kern).Inv := by
  obtain ⟨he, hp0, -, hpg0⟩ := hk.forking cur np hpc
  -- the child never got a page directory
  have hpg : Function.update k.pgdir np false = k.pgdir := Function.update_eq_self_iff.mpr hpg0.symm
  have h := hk.of_free (f := fun p => { p with state := .unused }) (by rw [he]; simp) rfl hp0
    fun c' hc' h => hc' (hk.child_unique c' cur np h (by rw [hpc]; rfl))
  rwa [hpg] at h

/-- The reaping `wait`: the zombie child's slot, kernel stack and page directory are
handed back. -/
theorem Inv.of_reap {cur c : Fin nproc} (hc : (k.tab.proc c).state = .zombie) :
    ({ k.release c with
        tab := k.tab.modify c fun p => { p with pid := 0, parent := none, killed := 0, state := .unused }
        pc := Function.update k.pc cur .idle } : Kern).Inv :=
  hk.of_free (by rw [hc]; simp) rfl rfl fun c' _ h => by
    have := hk.child_embryo h
    rw [hc] at this
    cases this

/-- The last section of `fork`: the child becomes `RUNNABLE`. -/
theorem Inv.of_forkFinish {cur np : Fin nproc} {pid : ℤ} (hpc : k.pc cur = .forked np pid) :
    ({ k with tab := k.tab.modify np fun p => { p with state := .runnable },
               pc := Function.update k.pc cur .idle } : Kern).Inv := by
  obtain ⟨he, hp, -, hks, hpg⟩ := hk.forked cur np pid hpc
  set t := k.tab.modify np fun p => { p with state := .runnable }
  have hsame : ∀ j, j ≠ np → t.proc j = k.tab.proc j := fun j hj => Ptable.modify_proc_ne _ _ hj
  have hrun : (t.proc np).state = .runnable := by simp [t]
  have hpar : ∀ j, (t.proc j).parent = (k.tab.proc j).parent := fun j =>
    Ptable.modify_proc_field Proc.parent _ _ _ _ rfl
  have hpid : ∀ j, (t.proc j).pid = (k.tab.proc j).pid := fun j =>
    Ptable.modify_proc_field Proc.pid _ _ _ _ rfl
  -- the child leaves `EMBRYO` for a state in use: no slot changes between free and in use
  have hunused : ∀ j, (t.proc j).state = .unused ↔ (k.tab.proc j).state = .unused := fun j => by
    by_cases hj : j = np
    · subst hj; rw [hrun, he]; simp
    · rw [hsame j hj]
  have hne : ∀ j, (k.tab.proc j).state.Active → j ≠ np := fun j hj h => by
    rw [h, he] at hj; exact hj.ne_embryo rfl
  have hother : ∀ c' np', c' ≠ cur → (k.pc c').child = some np' → np' ≠ np := fun c' np' hc' h hn =>
    hc' (hk.child_unique c' cur np' h (by rw [hpc, hn]; rfl))
  refine
    { init_none := fun h _ => absurd (hk.init_none h np) (by rw [he]; simp)
      init_active := fun j hj => ?_
      parent_active := fun i j h => ?_
      unused_parent := fun i hu => (hpar i).trans (hk.unused_parent i ((hunused i).mp hu))
      live_parent := fun i hl hne' => ?_
      busy_active := fun i h => ?_
      forking := fun c' np' h => ?_
      forked := fun c' np' pid' h => ?_
      child_unique := fun c₁ c₂ x h₁ h₂ =>
        hk.child_unique c₁ c₂ x (Pc.child_update_idle h₁).2 (Pc.child_update_idle h₂).2
      live_holds := fun i hl => ?_
      unused_free := fun i hu => hk.unused_free i ((hunused i).mp hu)
      nextpid_pos := hk.nextpid_pos
      pid_range := fun i hu => (hpid i).symm ▸ hk.pid_range i (mt (hunused i).mpr hu)
      pid_inj := fun i j hi hj h =>
        hk.pid_inj i j (mt (hunused i).mpr hi) (mt (hunused j).mpr hj) (by rwa [hpid, hpid] at h) }
  · have ha := hk.init_active j hj
    dsimp only; rwa [hsame j (hne j ha)]
  · dsimp only at h ⊢
    rw [hpar] at h
    have ha := hk.parent_active i j h
    rwa [hsame j (hne j ha)]
  · dsimp only at hl hne' ⊢
    rw [hpar]
    by_cases hinp : i = np
    · subst hinp; rw [hp]; simp
    · rw [hsame i hinp] at hl; exact hk.live_parent i hl hne'
  · dsimp only at h ⊢
    have hic : i ≠ cur := by rintro rfl; simp at h
    rw [Function.update_of_ne hic] at h
    have ha := hk.busy_active i h
    rwa [hsame i (hne i ha)]
  · dsimp only at h ⊢
    obtain ⟨hc', h'⟩ := Pc.child_update_idle (x := np') (by rw [h]; rfl)
    rw [Function.update_of_ne hc'] at h
    rw [hsame np' (hother c' np' hc' h')]
    exact hk.forking c' np' h
  · dsimp only at h ⊢
    obtain ⟨hc', h'⟩ := Pc.child_update_idle (x := np') (by rw [h]; rfl)
    rw [Function.update_of_ne hc'] at h
    rw [hsame np' (hother c' np' hc' h')]
    exact hk.forked c' np' pid' h
  · dsimp only at hl ⊢
    by_cases hinp : i = np
    · subst hinp; exact ⟨hks, hpg⟩
    · rw [hsame i hinp] at hl; exact hk.live_holds i hl

/-- `exit`: the caller becomes a `ZOMBIE`, still holding its pages, and its children
pass to `initproc`. -/
theorem Inv.of_exit {cur : Fin nproc} {t : Ptable} (hr : k.Ready cur) (he : exit k.tab cur = some t) :
    ({ k with tab := t } : Kern).Inv := by
  obtain ⟨hinit, hi, hn, hz, hslot⟩ := exit_spec he
  obtain ⟨j₀, hj₀⟩ := hk.initproc_of_ne_unused (i := cur) (by rw [hr.1]; simp)
  have hj₀cur : j₀ ≠ cur := by rintro rfl; exact hinit hj₀
  -- every slot but the caller is at most woken
  have hw : ∀ i, i ≠ cur → (k.tab.proc i).state.Woken (t.proc i).state := fun i h => (hslot i).2.2 h
  have hpid : ∀ i, (t.proc i).pid = (k.tab.proc i).pid := fun i => (hslot i).1
  have hpar : ∀ i, (t.proc i).parent =
      if (k.tab.proc i).parent = some cur then some j₀ else (k.tab.proc i).parent := fun i => by
    rw [(hslot i).2.1, hj₀]
  -- no slot changes between free and in use: the caller goes from running to zombie
  have hunused : ∀ i, (t.proc i).state = .unused ↔ (k.tab.proc i).state = .unused := fun i => by
    by_cases hic : i = cur
    · subst hic; rw [hz, hr.1]; simp
    · rcases hw i hic with h | ⟨h₁, h₂⟩
      · rw [h]
      · rw [h₁, h₂]; simp
  have hlive : ∀ i, (t.proc i).state.Live → (k.tab.proc i).state.Live := fun i hl => by
    by_cases hic : i = cur
    · subst hic; rw [hr.1]; simp
    · exact (hw i hic).live_iff.mp hl
  have hactive : ∀ i, (k.tab.proc i).state.Active → i ≠ cur → (t.proc i).state.Active := fun i ha hic =>
    (hw i hic).active_iff.mpr ha
  have hinit_active : (t.proc j₀).state.Active := hactive j₀ (hk.init_active j₀ hj₀) hj₀cur
  -- a slot whose state is kept by the exit
  have hkeep : ∀ i, (k.tab.proc i).state ≠ .sleeping → i ≠ cur → (t.proc i).state = (k.tab.proc i).state :=
    fun i hs hic => (hw i hic).eq_of_not_sleeping hs
  refine
    { init_none := fun h => absurd (hi.trans hj₀) (by rw [h]; simp)
      init_active := fun j hj => by
        obtain rfl : j₀ = j := Option.some.inj (hj₀.symm.trans (hi.symm.trans hj))
        exact hinit_active
      parent_active := fun i j h => ?_
      unused_parent := fun i hu => ?_
      live_parent := fun i hl hne => ?_
      busy_active := fun i h => ?_
      forking := fun c np h => ?_
      forked := fun c np pid h => ?_
      child_unique := hk.child_unique
      live_holds := fun i hl => hk.live_holds i (hlive i hl)
      unused_free := fun i hu => hk.unused_free i ((hunused i).mp hu)
      nextpid_pos := hn ▸ hk.nextpid_pos
      pid_range := fun i hu => hn ▸ (hpid i).symm ▸ hk.pid_range i (mt (hunused i).mpr hu)
      pid_inj := fun i j hi' hj h =>
        hk.pid_inj i j (mt (hunused i).mpr hi') (mt (hunused j).mpr hj) (by rwa [hpid, hpid] at h) }
  · dsimp only at h ⊢
    rw [hpar] at h
    split_ifs at h with hpc
    · cases h; exact hinit_active
    · have hjc : j ≠ cur := by rintro rfl; exact hpc h
      exact hactive j (hk.parent_active i j h) hjc
  · dsimp only at hu ⊢
    have hu' := (hunused i).mp hu
    rw [hpar, hk.unused_parent i hu']
    simp
  · dsimp only at hl hne ⊢
    rw [hpar]
    split_ifs
    · simp
    · exact hk.live_parent i (hlive i hl) (hi ▸ hne)
  · dsimp only at h ⊢
    have hic : i ≠ cur := by rintro rfl; exact h hr.2
    exact hactive i (hk.busy_active i h) hic
  · dsimp only at h ⊢
    obtain ⟨he', hp, hs, hd⟩ := hk.forking c np h
    have hnc : np ≠ cur := by rintro rfl; rw [hr.1] at he'; cases he'
    refine ⟨(hkeep np (by rw [he']; simp) hnc).trans he', ?_, hs, hd⟩
    rw [hpar, hp]
    simp
  · dsimp only at h ⊢
    obtain ⟨he', hp, hpid', hs, hd⟩ := hk.forked c np pid h
    have hnc : np ≠ cur := by rintro rfl; rw [hr.1] at he'; cases he'
    have hcc : c ≠ cur := by rintro rfl; rw [hr.2] at h; cases h
    refine ⟨(hkeep np (by rw [he']; simp) hnc).trans he', ?_, (hpid np).trans hpid', hs, hd⟩
    rw [hpar, hp, if_neg (by simpa using hcc)]

end Events

/-- **The invariant is kept by every event.** -/
theorem Inv.step {k k' : Kern} {e : LifeEvent} {r : Option ℤ} (hk : k.Inv) (h : k.step e = some (k', r)) :
    k'.Inv := by
  cases e with
  | userinit =>
    obtain ⟨i, hn, hi, -, rfl⟩ := step_userinit h
    exact hk.of_userinit hn hi
  | schedule i => exact (calm_of_schedule h).inv hk
  | yield i => exact (calm_of_yield h).inv hk
  | forkAlloc cur ok =>
    obtain ⟨hr, ⟨t, ha, -, rfl⟩ | ⟨t, np, ha, -, rfl⟩⟩ := step_forkAlloc h
    · exact (Calm.of_allocproc_none ha).inv hk
    · exact hk.of_forkAlloc hr ha
  | forkCopy cur ok =>
    obtain ⟨np, hpc, hs, ⟨-, -, rfl⟩ | ⟨-, -, rfl⟩⟩ := step_forkCopy h
    · exact hk.of_forkCopy hpc hs
    · exact hk.of_forkCopy_fail hpc
  | forkFinish cur =>
    obtain ⟨np, pid, hpc, -, -, rfl⟩ := step_forkFinish h
    exact hk.of_forkFinish hpc
  | exit cur =>
    obtain ⟨hr, -, t, he, rfl⟩ := step_exit h
    exact hk.of_exit hr he
  | wait cur =>
    rcases wait_cases h with ⟨c, hc, -, rfl⟩ | hcalm
    · exact hk.of_reap (firstZombieChild_spec hc).2
    · exact hcalm.inv hk
  | kill cur pid => exact (calm_of_kill h).inv hk

/-- **Every reachable state keeps the invariant.** -/
theorem Reachable.inv {k : Kern} (h : k.Reachable) : k.Inv :=
  Transition.Reachable.invariant (fun _ h => h ▸ Inv.boot)
    (fun _ _ _ hk hs => by
      obtain ⟨⟨k', r⟩, hst, rfl⟩ := Option.map_eq_some_iff.mp hs
      exact hk.step hst) h

end Kern

/-! ### The life cycle as it holds -/

namespace Kern

/-- A `ZOMBIE` keeps its state and pid through every event but the `wait` of its
parent that reaps it; that `wait` returns its pid and frees the kernel stack and
page directory it holds. -/
theorem Inv.zombie_step {k k' : Kern} {e : LifeEvent} {r : Option ℤ} {c : Fin nproc} (hk : k.Inv)
    (h : k.step e = some (k', r)) (hc : (k.tab.proc c).state = .zombie) :
    ((k'.tab.proc c).state = .zombie ∧ (k'.tab.proc c).pid = (k.tab.proc c).pid) ∨
      ∃ p, e = .wait p ∧ (k.tab.proc c).parent = some p ∧ r = some (cPid (k.tab.proc c).pid) ∧
        k.kstack c = true ∧ k.pgdir c = true ∧
        (k'.tab.proc c).state = .unused ∧ k'.kstack c = false ∧ k'.pgdir c = false := by
  -- the slot an event builds, starts or ends is never the zombie `c`
  have hne : ∀ j, (k.tab.proc j).state ≠ .zombie → j ≠ c := fun j hj h => hj (h ▸ hc)
  cases e with
  | userinit =>
    obtain ⟨i, hn, -, -, -⟩ := step_userinit h
    rw [hk.init_none hn c] at hc
    cases hc
  | schedule i => exact .inl ((calm_of_schedule h).zombie hc)
  | yield i => exact .inl ((calm_of_yield h).zombie hc)
  | kill cur pid => exact .inl ((calm_of_kill h).zombie hc)
  | forkAlloc cur ok =>
    obtain ⟨-, ⟨t, ha, -, rfl⟩ | ⟨t, np, ha, -, rfl⟩⟩ := step_forkAlloc h
    · exact .inl ((Calm.of_allocproc_none ha).zombie hc)
    · obtain ⟨hfree, -, -, -, ho⟩ := allocproc_spec ha
      left
      dsimp only
      rw [ho c (hne np (by rw [hfree]; simp)).symm]
      exact ⟨hc, rfl⟩
  | forkCopy cur ok =>
    obtain ⟨np, hpc, -, ⟨-, -, rfl⟩ | ⟨-, -, rfl⟩⟩ := step_forkCopy h
    · left
      dsimp only
      exact ⟨(Ptable.modify_proc_field Proc.state _ _ _ _ rfl).trans hc,
        Ptable.modify_proc_field Proc.pid _ _ _ _ rfl⟩
    · left
      dsimp only
      rw [Ptable.modify_proc_ne _ _ (hne np (by rw [(hk.forking cur np hpc).1]; simp)).symm]
      exact ⟨hc, rfl⟩
  | forkFinish cur =>
    obtain ⟨np, pid, hpc, -, -, rfl⟩ := step_forkFinish h
    left
    dsimp only
    rw [Ptable.modify_proc_ne _ _ (hne np (by rw [(hk.forked cur np pid hpc).1]; simp)).symm]
    exact ⟨hc, rfl⟩
  | exit cur =>
    obtain ⟨hr, -, t, he, rfl⟩ := step_exit h
    obtain ⟨-, -, -, -, hslot⟩ := exit_spec he
    have hw := (hslot c).2.2 (hne cur (by rw [hr.1]; simp)).symm
    exact .inl ⟨(hw.eq_of_not_sleeping (by rw [hc]; simp)).trans hc, (hslot c).1⟩
  | wait cur =>
    rcases wait_cases h with ⟨c', hc', rfl, rfl⟩ | hcalm
    · obtain ⟨hpar, -⟩ := firstZombieChild_spec hc'
      by_cases hcc : c = c'
      · subst hcc
        obtain ⟨hks, hpg⟩ := hk.live_holds c (by rw [hc]; simp)
        exact .inr ⟨cur, rfl, hpar, rfl, hks, hpg, by simp, by simp [release], by simp [release]⟩
      · left
        dsimp only
        rw [Ptable.modify_proc_ne _ _ hcc]
        exact ⟨hc, rfl⟩
    · exact .inl (hcalm.zombie hc)

/-- What the process life cycle of `proc.c` guarantees in a state `k`. -/
structure Amended (k : Kern) : Prop where
  /-- Every process past `EMBRYO` other than `initproc` has a parent, which runs or
  can run. -/
  parent : ∀ i, (k.tab.proc i).state.Live → k.tab.initproc ≠ some i →
    ∃ j, (k.tab.proc i).parent = some j ∧ (k.tab.proc j).state.Active
  /-- A `ZOMBIE` keeps its state and pid until a `wait` of its parent at that time
  reaps it; that `wait` returns its pid as the kernel's `int` holds it and frees the
  kernel stack and page directory it holds, and the slot is free afterwards. -/
  zombie : ∀ e k' r c, k.step e = some (k', r) → (k.tab.proc c).state = .zombie →
    ((k'.tab.proc c).state = .zombie ∧ (k'.tab.proc c).pid = (k.tab.proc c).pid) ∨
      ∃ p, e = .wait p ∧ (k.tab.proc c).parent = some p ∧ r = some (cPid (k.tab.proc c).pid) ∧
        k.kstack c = true ∧ k.pgdir c = true ∧
        (k'.tab.proc c).state = .unused ∧ k'.kstack c = false ∧ k'.pgdir c = false
  /-- A pass of `wait` by a running parent with a `ZOMBIE` child reaps one, the first
  in table order, returning its pid as the kernel's `int` holds it. -/
  wait_reaps : ∀ cur c, (k.tab.proc cur).state = .running → (k.pc cur = .idle ∨ k.pc cur = .waiting) →
    (k.tab.proc c).parent = some cur → (k.tab.proc c).state = .zombie →
    ∃ k' c', k.step (.wait cur) = some (k', some (cPid (k.tab.proc c').pid)) ∧
      (k.tab.proc c').parent = some cur ∧ (k.tab.proc c').state = .zombie ∧ (k'.tab.proc c').state = .unused
  /-- `wait` returns `-1` only to a caller without children, or killed, or when the
  child it reaps has the `int` pid `-1`. -/
  wait_fails : ∀ cur k', k.step (.wait cur) = some (k', some (-1)) →
    (∀ i, (k.tab.proc i).parent ≠ some cur) ∨ (k.tab.proc cur).killed ≠ 0 ∨
      ∃ c, (k.tab.proc c).parent = some cur ∧ (k.tab.proc c).state = .zombie ∧ cPid (k.tab.proc c).pid = -1
  /-- The section of `fork` that makes the caller's child `RUNNABLE` returns that
  child's pid as the kernel's `int` holds it. -/
  fork_pid : ∀ cur k' r, k.step (.forkFinish cur) = some (k', some r) →
    ∃ np, (k.pc cur).child = some np ∧ (k.tab.proc np).state = .embryo ∧
      (k.tab.proc np).parent = some cur ∧ (k'.tab.proc np).state = .runnable ∧ r = cPid (k'.tab.proc np).pid

/-- **The life cycle, amended.**  In every state any interleaving reaches from boot:
every process past `EMBRYO` other than `initproc` has a parent that is not free; a
`ZOMBIE` is reaped only by a `wait` of its parent at that time, which returns its
pid and frees its kernel stack and page directory, so it is reaped at most once;
a `wait` of a parent with a `ZOMBIE` child reaps one; `wait` returns `-1` only
without children, when killed, or for a child whose `int` pid is `-1`; and `fork`
returns the pid of the child it made `RUNNABLE`.  Every pid returned is the
kernel's `int`. -/
theorem lifecycle_amended {k : Kern} (h : k.Reachable) : k.Amended := by
  have hk := h.inv
  refine ⟨fun i hl hne => ?_, fun e k' r c hs hc => hk.zombie_step hs hc, fun cur c hs hpc hp hz => ?_,
    fun cur k' hs => ?_, fun cur k' r hs => ?_⟩
  · obtain ⟨j, hj⟩ := Option.ne_none_iff_exists'.mp (hk.live_parent i hl hne)
    exact ⟨j, hj, hk.parent_active i j hj⟩
  · -- the pass reaps the first zombie child, which need not be `c`
    obtain ⟨c', hc'⟩ := firstZombieChild_isSome hp hz
    obtain ⟨hp', hz'⟩ := firstZombieChild_spec hc'
    exact ⟨_, c', step_wait_reap hs hpc hc', hp', hz', by simp⟩
  · obtain ⟨-, -, ⟨c, hc, hr, -⟩ | ⟨hno, -, -⟩ | ⟨-, hr, -⟩⟩ := step_wait hs
    · -- a reaping `wait` returns `-1` only for a child whose `int` pid is `-1`
      obtain ⟨hp, hz⟩ := firstZombieChild_spec hc
      exact .inr (.inr ⟨c, hp, hz, (Option.some.inj hr).symm⟩)
    · exact hno.imp_right .inl
    · cases hr
  · obtain ⟨np, pid, hpc, -, hr, rfl⟩ := step_forkFinish hs
    obtain ⟨he, hp, hpid, -, -⟩ := hk.forked cur np pid hpc
    refine ⟨np, by rw [hpc]; rfl, he, hp, by simp, ?_⟩
    rw [Option.some.inj hr]
    simp [hpid]

/-- `initproc` forks a child, which runs and exits; the next pass of `initproc`'s
`wait` reaps it and returns its pid `2`. -/
theorem lifecycle_amended_reap :
    ∃ k, run .boot [.userinit, .schedule 0, .forkAlloc 0 true, .forkCopy 0 true, .forkFinish 0, .schedule 1,
        .exit 1] = some k ∧ k.Amended ∧
      ∃ k', k.step (.wait 0) = some (k', some 2) ∧ (k'.tab.proc 1).state = .unused := by
  obtain ⟨k, hk⟩ : ∃ k, run .boot [.userinit, .schedule 0, .forkAlloc 0 true, .forkCopy 0 true, .forkFinish 0,
      .schedule 1, .exit 1] = some k := Option.isSome_iff_exists.mp (by decide)
  -- what the events leave, read off by evaluation
  have h := congrArg (Option.map fun k : Kern => ((k.tab.proc 0).state, k.pc 0, (k.tab.proc 1).parent,
    (k.tab.proc 1).pid, (List.finRange nproc).filter fun j => (k.tab.proc j).state = .zombie)) hk
  rw [show (run .boot [.userinit, .schedule 0, .forkAlloc 0 true, .forkCopy 0 true, .forkFinish 0, .schedule 1,
      .exit 1]).map (fun k : Kern => ((k.tab.proc 0).state, k.pc 0, (k.tab.proc 1).parent,
        (k.tab.proc 1).pid, (List.finRange nproc).filter fun j => (k.tab.proc j).state = .zombie)) =
      some (.running, .idle, some 0, 2, [1]) by decide] at h
  simp only [Option.map_some, Option.some.injEq, Prod.mk.injEq] at h
  obtain ⟨hs, hpc, hp, hpid, hzs⟩ := h
  -- the one zombie is the child in slot `1`
  have hone : ∀ j, (k.tab.proc j).state = .zombie → j = 1 := fun j hj =>
    List.mem_singleton.mp (hzs ▸ List.mem_filter.mpr ⟨List.mem_finRange j, by simpa using hj⟩)
  have hz : (k.tab.proc 1).state = .zombie := by
    have h₁ : (1 : Fin nproc) ∈ (List.finRange nproc).filter fun j => (k.tab.proc j).state = .zombie := by
      rw [← hzs]
      exact List.mem_singleton_self 1
    exact of_decide_eq_true (List.mem_filter.mp h₁).2
  have ha := lifecycle_amended (reachable_of_run hk)
  obtain ⟨k', c', hstep, -, hz', hun⟩ := ha.wait_reaps 0 1 hs.symm (.inl hpc.symm) hp.symm hz
  obtain rfl : c' = 1 := hone c' hz'
  rw [← hpid] at hstep
  exact ⟨k, hk, ha, k', hstep, hun⟩

end Kern

/-- **An `EMBRYO` without a parent.**  After `userinit`, the scheduler starts
`initproc`, which enters `fork`; once `allocproc` has claimed slot `1`, the child
there is `EMBRYO`, is not `initproc`, and its parent is the null pointer of a free
slot, until `fork` reaches `np->parent = curproc` outside the lock. -/
theorem fork_embryo_has_no_parent :
    ∃ k, Kern.Reachable k ∧ (k.tab.proc 1).state = .embryo ∧ k.tab.initproc = some 0 ∧
      (k.tab.proc 1).parent = none := by
  obtain ⟨k, hk⟩ : ∃ k, Kern.run .boot [.userinit, .schedule 0, .forkAlloc 0 true] = some k :=
    Option.isSome_iff_exists.mp (by decide)
  refine ⟨k, Kern.reachable_of_run hk, ?_⟩
  have h := congrArg (Option.map fun k : Kern => ((k.tab.proc 1).state, k.tab.initproc, (k.tab.proc 1).parent)) hk
  rw [show (Kern.run .boot [.userinit, .schedule 0, .forkAlloc 0 true]).map
      (fun k : Kern => ((k.tab.proc 1).state, k.tab.initproc, (k.tab.proc 1).parent)) =
      some (.embryo, some 0, none) by decide] at h
  simp only [Option.map_some, Option.some.injEq, Prod.mk.injEq] at h
  exact ⟨h.1.symm, h.2.1.symm, h.2.2.symm⟩

end Xv6
