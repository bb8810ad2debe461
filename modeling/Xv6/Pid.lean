import Xv6.Lifecycle

/-!
# Pids as C `int`s

`allocproc` gives each new process `p->pid = nextpid++`, with `nextpid` a plain
`int`, and checks neither for overflow nor for a pid still in use.  The model
counts pids without bound, and there every reachable state has distinct positive
pids in use (`Kern.Inv.pid_range`, `Kern.Inv.pid_inj`).  The kernel's `int` holds
the pid modulo `2 ^ 32` in two's complement: signed overflow is undefined in C,
and wraps on the machine after `2 ^ 31 - 1` allocations.  A `fork` whose kernel
stack cannot be allocated still spends a pid and leaves the table as it was, so
a single running process can walk `nextpid` around the whole circle, and the next
`fork` then hands out the `int` pid of a process in use, `initproc`'s 1 included.

## Main definitions

* `Ptable.Keeps` — every slot keeps its state, and every slot in use its pid.

## Main results

* `run_failed_forks` — `n` forks that fail at the kernel stack spend `n` pids and
  keep the table.
* `run_fork` — a `fork` that allocates gives its child the next pid.
* `fork_reissues_pid` — from every reachable state with a running process and a
  free slot, failed forks and one `fork` give a new child the `int` pid of any
  process in use, whose unbounded pid differs from it.
-/

namespace Xv6

/-- `nextpid` moved on by `toUint (pid - nextpid)` is `pid` again as an `int`. -/
theorem cPid_add_toUint_sub (nextpid pid : ℤ) : cPid (nextpid + (toUint (pid - nextpid) : ℕ)) = cPid pid := by
  unfold cPid toUint
  congr 2
  omega

/-! ### The table between forks -/

/-- Every slot keeps its state, and every slot in use its pid. -/
structure Ptable.Keeps (t t' : Ptable) : Prop where
  state : ∀ i, (t'.proc i).state = (t.proc i).state
  pid : ∀ i, (t.proc i).state ≠ .unused → (t'.proc i).pid = (t.proc i).pid

theorem Ptable.Keeps.refl (t : Ptable) : t.Keeps t := ⟨fun _ => rfl, fun _ _ => rfl⟩

theorem Ptable.Keeps.trans {t₁ t₂ t₃ : Ptable} (h₁ : t₁.Keeps t₂) (h₂ : t₂.Keeps t₃) : t₁.Keeps t₃ :=
  ⟨fun i => (h₂.state i).trans (h₁.state i),
    fun i hi => (h₂.pid i (by rwa [h₁.state i])).trans (h₁.pid i hi)⟩

/-- The scan of `allocproc` reads only the states. -/
theorem firstUnused_of_keeps {t t' : Ptable} (h : t.Keeps t') : firstUnused t' = firstUnused t := by
  simp only [firstUnused, h.state]

/-- An `allocproc` whose kernel stack cannot be allocated spends a pid and keeps the
table. -/
theorem allocproc_kstack_fail {t : Ptable} {i : Fin nproc} (hi : firstUnused t = some i) :
    ∃ t', allocproc t false = (t', none) ∧ t'.nextpid = t.nextpid + 1 ∧ t.Keeps t' := by
  obtain ⟨t', ha, hn⟩ : ∃ t', allocproc t false = (t', none) ∧ t'.nextpid = t.nextpid + 1 := by
    rw [allocproc, hi]
    exact ⟨_, rfl, rfl⟩
  obtain ⟨-, -, hslots⟩ := allocproc_none ha
  exact ⟨t', ha, hn, fun j => (hslots j).1, fun j hj => (hslots j).2.2 hj⟩

/-! ### Runs of forks -/

namespace Kern

variable {k : Kern} {cur : Fin nproc}

theorem run_cons (k : Kern) (e : LifeEvent) (es : List LifeEvent) :
    run k (e :: es) = ((k.step e).map Prod.fst).bind fun k' => run k' es := rfl

theorem run_append (k : Kern) (es fs : List LifeEvent) :
    run k (es ++ fs) = (run k es).bind fun k' => run k' fs :=
  Transition.runFn_append _ k es fs

/-- States reachable from a reachable state are reachable. -/
theorem Reachable.run {k' : Kern} {es : List LifeEvent} (hk : k.Reachable) (h : run k es = some k') :
    k'.Reachable := by
  obtain ⟨s, es₀, hs, hr⟩ := hk
  exact ⟨s, es₀ ++ es, hs, hr.append (Transition.Run.of_runFn h)⟩

/-- A `fork` that fails at the kernel stack returns `-1` and changes only the table,
which keeps its slots. -/
theorem step_forkAlloc_fail (hr : k.Ready cur) {i : Fin nproc} (hi : firstUnused k.tab = some i) :
    ∃ t, k.step (.forkAlloc cur false) = some ({ k with tab := t }, some (-1)) ∧
      t.nextpid = k.tab.nextpid + 1 ∧ k.tab.Keeps t := by
  obtain ⟨t, ha, hn, hkeep⟩ := allocproc_kstack_fail hi
  refine ⟨t, ?_, hn, hkeep⟩
  simp only [step, if_pos hr, ha]

/-- `n` forks of a running process that fail at the kernel stack spend `n` pids and
keep the table: the slot each one claims is handed back. -/
theorem run_failed_forks (hr : k.Ready cur) (hfree : firstUnused k.tab ≠ none) :
    ∀ n : ℕ, ∃ t, run k (List.replicate n (.forkAlloc cur false)) = some { k with tab := t } ∧
      t.nextpid = k.tab.nextpid + n ∧ k.tab.Keeps t := by
  intro n
  induction n generalizing k with
  | zero => exact ⟨k.tab, rfl, by simp, .refl _⟩
  | succ n ih =>
    obtain ⟨i, hi⟩ := Option.ne_none_iff_exists'.mp hfree
    obtain ⟨t₁, hstep, hn₁, hk₁⟩ := step_forkAlloc_fail hr hi
    -- the next fork finds the same process running and the same free slot
    have hr₁ : Ready { k with tab := t₁ } cur := ⟨(hk₁.state cur).trans hr.1, hr.2⟩
    have hfree₁ : firstUnused t₁ ≠ none := by rwa [firstUnused_of_keeps hk₁]
    obtain ⟨t, hrun, hn, hk⟩ := ih hr₁ hfree₁
    refine ⟨t, ?_, ?_, hk₁.trans hk⟩
    · rw [List.replicate_succ, run_cons, hstep, Option.map_some, Option.bind_some]
      exact hrun
    · rw [hn, hn₁]
      push_cast
      ring

/-- The copy of `fork` outside the lock, by a running thread that has claimed `np`. -/
theorem step_forkCopy_ok {np : Fin nproc} (hpc : k.pc cur = .forking np) (hs : (k.tab.proc cur).state = .running) :
    ∃ k', k.step (.forkCopy cur true) = some (k', none) ∧ k'.pc cur = .forked np (k.tab.proc np).pid ∧
      k'.tab = k.tab.modify np fun p =>
        { p with sz := (k.tab.proc cur).sz, parent := some cur, tf := { (k.tab.proc cur).tf with eax := 0 } } := by
  refine ⟨{ k with
      tab := k.tab.modify np fun p =>
        { p with sz := (k.tab.proc cur).sz, parent := some cur, tf := { (k.tab.proc cur).tf with eax := 0 } }
      pc := Function.update k.pc cur (.forked np (k.tab.proc np).pid)
      pgdir := Function.update k.pgdir np true }, ?_, by simp, rfl⟩
  simp only [step, hpc, hs, if_true]

/-- The last section of `fork`, which makes the child `RUNNABLE` and returns its pid. -/
theorem step_forkFinish_ok {np : Fin nproc} {pid : ℤ} (hpc : k.pc cur = .forked np pid)
    (hs : (k.tab.proc cur).state = .running) :
    ∃ k', k.step (.forkFinish cur) = some (k', some (cPid pid)) ∧
      k'.tab = k.tab.modify np fun p => { p with state := .runnable } := by
  refine ⟨{ k with tab := k.tab.modify np fun p => { p with state := .runnable },
                   pc := Function.update k.pc cur .idle }, ?_, rfl⟩
  simp only [step, hpc, hs, if_true]

/-- A `fork` that allocates its kernel stack and copies the address space makes the
first free slot a `RUNNABLE` child with pid `nextpid`, and changes no other slot. -/
theorem run_fork (hr : k.Ready cur) {np : Fin nproc} (hnp : firstUnused k.tab = some np) :
    ∃ k', run k [.forkAlloc cur true, .forkCopy cur true, .forkFinish cur] = some k' ∧
      (k'.tab.proc np).state = .runnable ∧ (k'.tab.proc np).pid = k.tab.nextpid ∧
      ∀ j, j ≠ np → k'.tab.proc j = k.tab.proc j := by
  obtain ⟨t₁, ha⟩ := allocproc_of_firstUnused hnp
  obtain ⟨hunused, hp₁, -, -, ho₁⟩ := allocproc_spec ha
  have hne : cur ≠ np := fun h => by
    have hrun := hr.1
    rw [h, hunused] at hrun
    cases hrun
  -- `allocproc` claims `np`
  have h₁ : k.step (.forkAlloc cur true) =
      some ({ k with tab := t₁, pc := Function.update k.pc cur (.forking np),
                     kstack := Function.update k.kstack np true }, none) := by
    simp only [step, if_pos hr, ha]
  -- the copy outside the lock, and the last section, with `cur` still running
  have hcur₁ : (t₁.proc cur).state = .running := by rw [ho₁ cur hne]; exact hr.1
  obtain ⟨k₂, h₂, hpc₂, htab₂⟩ := step_forkCopy_ok
    (k := { k with tab := t₁, pc := Function.update k.pc cur (.forking np),
                   kstack := Function.update k.kstack np true }) (Function.update_self cur _ k.pc) hcur₁
  have hcur₂ : (k₂.tab.proc cur).state = .running := by
    rw [htab₂, Ptable.modify_proc_ne _ _ hne]
    exact hcur₁
  obtain ⟨k₃, h₃, htab₃⟩ := step_forkFinish_ok hpc₂ hcur₂
  refine ⟨k₃, ?_, ?_, ?_, fun j hj => ?_⟩
  · rw [run_cons, h₁, Option.map_some, Option.bind_some, run_cons, h₂, Option.map_some, Option.bind_some,
      run_cons, h₃, Option.map_some, Option.bind_some]
    rfl
  · rw [htab₃, Ptable.modify_proc_self]
  · rw [htab₃, Ptable.modify_proc_self, htab₂, Ptable.modify_proc_self, hp₁]
  · rw [htab₃, Ptable.modify_proc_ne _ _ hj, htab₂, Ptable.modify_proc_ne _ _ hj, ho₁ j hj]

/-- **Pids wrap around.**  From every reachable state with a process `cur` running
outside a call and a free slot, and for every slot `j` in use: `cur` can fork
`toUint (pid - nextpid)` times with its kernel stack failing, and once more.  The
child is `RUNNABLE` in a slot other than `j`, `j` keeps its state and pid, and the
child's pid and `j`'s are the same `int`, while the model's unbounded pids differ. -/
theorem fork_reissues_pid (hk : k.Reachable) (hr : k.Ready cur) {j : Fin nproc}
    (hj : (k.tab.proc j).state ≠ .unused) (hfree : firstUnused k.tab ≠ none) :
    ∃ k' np, run k (List.replicate (toUint ((k.tab.proc j).pid - k.tab.nextpid)) (.forkAlloc cur false) ++
        [.forkAlloc cur true, .forkCopy cur true, .forkFinish cur]) = some k' ∧ k'.Reachable ∧
      np ≠ j ∧ (k'.tab.proc np).state = .runnable ∧
      (k'.tab.proc j).state = (k.tab.proc j).state ∧ (k'.tab.proc j).pid = (k.tab.proc j).pid ∧
      cPid (k'.tab.proc np).pid = cPid (k'.tab.proc j).pid ∧ (k'.tab.proc np).pid ≠ (k'.tab.proc j).pid := by
  obtain ⟨t, hrun, hn, hkeep⟩ := run_failed_forks hr hfree (toUint ((k.tab.proc j).pid - k.tab.nextpid))
  obtain ⟨np, hnp⟩ := Option.ne_none_iff_exists'.mp hfree
  -- after the failed forks the same process runs, and the same slot is free
  have hr₁ : Ready { k with tab := t } cur := ⟨(hkeep.state cur).trans hr.1, hr.2⟩
  have hnp₁ : firstUnused t = some np := by rw [firstUnused_of_keeps hkeep, hnp]
  obtain ⟨k', hfork, hst, hpid, hother⟩ := run_fork hr₁ hnp₁
  have hnj : np ≠ j := fun h => hj (h ▸ firstUnused_state hnp)
  have hrun' : run k (List.replicate (toUint ((k.tab.proc j).pid - k.tab.nextpid)) (.forkAlloc cur false) ++
      [.forkAlloc cur true, .forkCopy cur true, .forkFinish cur]) = some k' := by
    rw [run_append, hrun, Option.bind_some]
    exact hfork
  have hk' := hk.run hrun'
  have hsj : (k'.tab.proc j).state = (k.tab.proc j).state :=
    (congrArg Proc.state (hother j hnj.symm)).trans (hkeep.state j)
  have hpj : (k'.tab.proc j).pid = (k.tab.proc j).pid := (congrArg Proc.pid (hother j hnj.symm)).trans (hkeep.pid j hj)
  have hpn : (k'.tab.proc np).pid = k.tab.nextpid + (toUint ((k.tab.proc j).pid - k.tab.nextpid) : ℕ) :=
    hpid.trans hn
  refine ⟨k', np, hrun', hk', hnj, hst, hsj, hpj, ?_, fun h => hnj ?_⟩
  · rw [hpn, hpj]
    exact cPid_add_toUint_sub _ _
  · -- in the unbounded model two slots in use never share a pid
    exact hk'.inv.pid_inj np j (by rw [hst]; decide) (by rw [hsj]; exact hj) h

end Kern

/-- After `userinit` and the scheduler starting `initproc` in slot 0 with pid 1,
`initproc` forking `2 ^ 32 - 1` times with its kernel stack failing, and once more,
gives the child the `int` pid 1. -/
theorem fork_reissues_init_pid :
    ∃ k, Kern.run .boot [.userinit, .schedule 0] = some k ∧ (k.tab.proc 0).pid = 1 ∧
      ∃ k' np, Kern.run k (List.replicate (2 ^ 32 - 1) (.forkAlloc 0 false) ++
          [.forkAlloc 0 true, .forkCopy 0 true, .forkFinish 0]) = some k' ∧ k'.Reachable ∧
        np ≠ 0 ∧ (k'.tab.proc np).state = .runnable ∧ (k'.tab.proc 0).state = .running ∧
        cPid (k'.tab.proc np).pid = 1 ∧ (k'.tab.proc np).pid ≠ (k'.tab.proc 0).pid := by
  obtain ⟨k, hk⟩ : ∃ k, Kern.run .boot [.userinit, .schedule 0] = some k :=
    Option.isSome_iff_exists.mp (by decide)
  -- what the two events leave, read off by evaluation
  have h := congrArg (Option.map fun k : Kern =>
    ((k.tab.proc 0).state, k.pc 0, (k.tab.proc 0).pid, k.tab.nextpid, firstUnused k.tab)) hk
  rw [show (Kern.run .boot [.userinit, .schedule 0]).map (fun k : Kern =>
      ((k.tab.proc 0).state, k.pc 0, (k.tab.proc 0).pid, k.tab.nextpid, firstUnused k.tab)) =
      some (.running, .idle, 1, 2, some 1) by decide] at h
  simp only [Option.map_some, Option.some.injEq, Prod.mk.injEq] at h
  obtain ⟨hs, hpc, hpid, hn, hfree⟩ := h
  have hr : k.Ready 0 := ⟨hs.symm, hpc.symm⟩
  obtain ⟨k', np, hrun, hk', hnp, hst, hs0, hp0, hc, hne⟩ :=
    Kern.fork_reissues_pid (Kern.reachable_of_run hk) hr (by rw [← hs]; decide) (by rw [← hfree]; simp)
  rw [← hpid, ← hn, show toUint (1 - 2) = 2 ^ 32 - 1 by decide] at hrun
  refine ⟨k, hk, hpid.symm, k', np, hrun, hk', hnp, hst, hs0.trans hs.symm, ?_, hne⟩
  rw [hc, hp0, ← hpid]
  decide

end Xv6
