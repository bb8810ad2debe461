import Xv6.Crash

/-!
# Crash atomicity of file-system operations

The log layer run by any number of processes, each bracketing its block
modifications by `begin_op` and `end_op`, with a ghost history: every disk write
so far, the `log_write`s of the group being built, the `log_write`s of each
committed group, and where each group's commit point stands among the disk
writes.  Whatever prefix of the disk writes a crash leaves, recovery brings the
blocks outside the log area to the initial disk with exactly the groups whose
commit point reached the disk applied, in order.

## Main definitions

* `groupBlocks` — the header `log_write` builds from a group of block writes.
* `Formatted` — a disk the log can start on.
* `LogHist`, `LogHist.step`, `LogHist.Reachable` — the log with its history.
* `LogHist.Inv` — the invariant of every reachable history.

## Main results

* `LogHist.Inv.init`, `LogHist.Inv.step` — the invariant holds at boot and is
  kept by every event.
* `log_recovery_atomic` — crash atomicity of every reachable history.
-/

namespace Xv6

/-! ### Groups -/

/-- The header `log_write` builds from a group's block writes: each block enters
at its first write and keeps its slot (log absorption). -/
def groupBlocks (t : List Write) : List ℕ := (t.map Prod.fst).foldl LogSys.absorb []

@[simp] theorem groupBlocks_nil : groupBlocks [] = [] := rfl

theorem groupBlocks_append_single (t : List Write) (w : Write) :
    groupBlocks (t ++ [w]) = LogSys.absorb (groupBlocks t) w.1 := by
  simp [groupBlocks]

theorem mem_foldl_absorb {x : ℕ} :
    ∀ (bs acc : List ℕ), x ∈ bs.foldl LogSys.absorb acc ↔ x ∈ acc ∨ x ∈ bs
  | [], acc => by simp
  | b :: bs, acc => by
    rw [List.foldl_cons, mem_foldl_absorb bs, LogSys.mem_absorb, List.mem_cons]
    tauto

/-- A group writes exactly the blocks of its header. -/
theorem mem_groupBlocks {t : List Write} {x : ℕ} : x ∈ groupBlocks t ↔ ∃ w ∈ t, w.1 = x := by
  simp [groupBlocks, mem_foldl_absorb]

/-! ### The log with its history -/

/-- A disk the log can start on: a non-empty log area whose header is empty, as
`mkfs` and recovery leave it. -/
structure Formatted (start size : ℕ) (d : Disk) : Prop where
  size_pos : 0 < size
  empty : readHead (d start) = []

/-- The log with its ghost history. -/
structure LogHist where
  sys : LogSys
  /-- Every disk write so far, in order. -/
  writes : List Write
  /-- The `log_write`s of the group being built. -/
  pending : List Write
  /-- The `log_write`s of each committed group. -/
  txns : List (List Write)
  /-- The index in `writes` of each committed group's header write. -/
  commits : List ℕ

namespace LogHist

/-- The log after `initlog` on the disk `d`, with an empty history. -/
def init (start size : ℕ) (d : Disk) : LogHist := ⟨LogSys.boot start size d, [], [], [], []⟩

/-- An event with its result recorded: a `log_write` joins the pending group; a
commit appends its disk writes, closes the group and records its commit point,
which follows the group's log block writes. -/
def record (h : LogHist) (e : LogEvent) (r : LogSys × List Write) : LogHist :=
  match e with
  | .logWrite _ b v => { h with sys := r.1, pending := h.pending ++ [(b, v)] }
  | .beginOp _ | .endOp _ =>
    if r.2.isEmpty then { h with sys := r.1 }
    else ⟨r.1, h.writes ++ r.2, [], h.txns ++ [h.pending],
      h.commits ++ [h.writes.length + h.sys.log.lh.length]⟩

/-- One event of any process, recorded; `none` when the event cannot happen. -/
def step (h : LogHist) (e : LogEvent) : Option LogHist := (logStep h.sys e).map (h.record e)

/-- The step relation of histories. -/
def Step (h : LogHist) (e : LogEvent) (h' : LogHist) : Prop := h.step e = some h'

/-- The histories of the runs from `init start size d`. -/
def Reachable (start size : ℕ) (d : Disk) : LogHist → Prop :=
  Transition.Reachable Step (· = init start size d)

/-- The write at index `c` is a header write naming the blocks of the group `t`:
the group's commit point. -/
def CommitPoint (start : ℕ) (writes : List Write) (c : ℕ) (t : List Write) : Prop :=
  ∃ B, writes[c]? = some (start, B) ∧ readHead B = groupBlocks t

end LogHist

/-! ### Crash disks, committed disks, durable groups -/

section Lists

/-- The disk a crash leaves after the first `k` of the disk writes `writes`. -/
def crashDisk (d₀ : Disk) (writes : List Write) (k : ℕ) : Disk := applyWrites d₀ (writes.take k)

/-- The disk the first `m` of the committed groups `txns` make of `d₀`. -/
def committed (d₀ : Disk) (txns : List (List Write)) (m : ℕ) : Disk :=
  applyWrites d₀ (txns.take m).flatten

/-- The number of groups whose commit point is among the first `k` disk writes. -/
def durable (commits : List ℕ) (k : ℕ) : ℕ := commits.countP (· < k)

variable {d₀ : Disk} {writes ws : List Write} {txns : List (List Write)} {commits : List ℕ}

theorem crashDisk_append_of_le {k : ℕ} (hk : k ≤ writes.length) :
    crashDisk d₀ (writes ++ ws) k = crashDisk d₀ writes k := by
  rw [crashDisk, crashDisk, List.take_append_of_le_length hk]

theorem crashDisk_append (j : ℕ) :
    crashDisk d₀ (writes ++ ws) (writes.length + j) = applyWrites (applyWrites d₀ writes) (ws.take j) := by
  rw [crashDisk, List.take_append, List.take_of_length_le (by omega), Nat.add_sub_cancel_left,
    applyWrites_append]

theorem committed_append_of_le {ts : List (List Write)} {m : ℕ} (hm : m ≤ txns.length) :
    committed d₀ (txns ++ ts) m = committed d₀ txns m := by
  rw [committed, committed, List.take_append_of_le_length hm]

theorem committed_snoc (t : List Write) :
    committed d₀ (txns ++ [t]) (txns.length + 1) = applyWrites (committed d₀ txns txns.length) t := by
  rw [committed, committed, List.take_of_length_le (by simp), List.take_length, List.flatten_append,
    List.flatten_singleton, applyWrites_append]

theorem durable_le_length (k : ℕ) : durable commits k ≤ commits.length := List.countP_le_length

theorem durable_snoc_of_le {c k : ℕ} (hk : k ≤ c) : durable (commits ++ [c]) k = durable commits k := by
  simp [durable, List.countP_append, Nat.not_lt.mpr hk]

/-- Once every earlier commit point is among the first `k` writes, the groups
durable after `k` writes are all of them, and the last one when its commit
point is too. -/
theorem durable_snoc {c k : ℕ} (hall : ∀ c' ∈ commits, c' < k) :
    durable (commits ++ [c]) k = commits.length + if c < k then 1 else 0 := by
  have hcount : commits.countP (· < k) = commits.length :=
    List.countP_eq_length.mpr fun c' hc' => by simpa using hall c' hc'
  unfold durable
  rw [List.countP_append, hcount]
  split_ifs with hc <;> simp [hc]

end Lists

namespace LogHist

variable {start c : ℕ} {writes : List Write} {t : List Write}

theorem CommitPoint.lt_length (hc : CommitPoint start writes c t) : c < writes.length := by
  obtain ⟨B, hB, -⟩ := hc
  exact (List.getElem?_eq_some_iff.mp hB).1

theorem CommitPoint.append (hc : CommitPoint start writes c t) (ws : List Write) :
    CommitPoint start (writes ++ ws) c t := by
  obtain ⟨B, hB, hread⟩ := hc
  exact ⟨B, by rw [List.getElem?_append_left (List.getElem?_eq_some_iff.mp hB).1, hB], hread⟩

/-- Every recorded commit point stands among the writes. -/
theorem CommitPoint.forall_lt {commits : List ℕ} {txns : List (List Write)}
    (h : List.Forall₂ (CommitPoint start writes) commits txns) : ∀ c ∈ commits, c < writes.length := by
  induction h with
  | nil => simp
  | cons hct _ ih =>
    intro c' hc'
    rcases List.mem_cons.mp hc' with rfl | hc'
    · exact hct.lt_length
    · exact ih c' hc'

end LogHist

/-! ### The invariant -/

namespace LogHist

variable {start size : ℕ} {d₀ : Disk}

/-- What holds of every history reachable from a formatted disk `d₀`. -/
structure Inv (start size : ℕ) (d₀ : Disk) (h : LogHist) : Prop where
  start_eq : h.sys.log.start = start
  size_eq : h.sys.log.size = size
  size_pos : 0 < size
  committing : h.sys.log.committing = false
  wf : h.sys.log.Wf
  /-- The header in memory lists the blocks of the pending group. -/
  lh : h.sys.log.lh = groupBlocks h.pending
  disk : h.sys.disk = applyWrites d₀ h.writes
  /-- The cache is the disk with the pending group applied. -/
  cache : h.sys.cache = applyWrites h.sys.disk h.pending
  header : readHead (h.sys.disk start) = []
  /-- Outside the log area the disk holds the committed groups. -/
  home : ∀ b, NonLog start size b → h.sys.disk b = committed d₀ h.txns h.txns.length b
  commits : List.Forall₂ (CommitPoint start h.writes) h.commits h.txns
  /-- Every crash so far recovers to the groups whose commit point it kept. -/
  crash : ∀ k ≤ h.writes.length, Sane start size (crashDisk d₀ h.writes k) ∧
    ∀ b, NonLog start size b → recovered start size (crashDisk d₀ h.writes k) b =
      committed d₀ h.txns (durable h.commits k) b

theorem Inv.init (hd : Formatted start size d₀) : Inv start size d₀ (init start size d₀) where
  start_eq := rfl
  size_eq := rfl
  size_pos := hd.size_pos
  committing := rfl
  wf := ⟨fun _ hb => absurd hb List.not_mem_nil, List.nodup_nil, .inl rfl, Nat.zero_le _⟩
  lh := rfl
  disk := rfl
  cache := rfl
  header := hd.empty
  home _ _ := rfl
  commits := .nil
  crash k hk := by
    obtain rfl : k = 0 := by simpa [LogHist.init] using hk
    refine ⟨sane_of_empty hd.empty, fun b hb => ?_⟩
    rw [crashDisk, List.take_zero, applyWrites_nil, recovered_of_empty hd.empty,
      Function.update_of_ne (hb.ne_start hd.size_pos)]
    rfl

variable {h : LogHist}

/-- A pending block write is to a block of the header. -/
theorem Inv.mem_lh (hi : Inv start size d₀ h) {w : Write} (hw : w ∈ h.pending) :
    w.1 ∈ h.sys.log.lh := by
  rw [hi.lh, mem_groupBlocks]
  exact ⟨w, hw, rfl⟩

/-- Outside the header the cache is the disk. -/
theorem Inv.cache_of_not_mem (hi : Inv start size d₀ h) {b : ℕ} (hb : b ∉ h.sys.log.lh) :
    h.sys.cache b = h.sys.disk b := by
  rw [hi.cache]
  exact applyWrites_of_not_mem fun w hw he => hb (he ▸ hi.mem_lh hw)

/-- An event that changes neither the disk, the cache nor the header keeps the
invariant. -/
theorem Inv.quiet (hi : Inv start size d₀ h) {s' : LogSys} (hd : s'.disk = h.sys.disk)
    (hc : s'.cache = h.sys.cache) (hlog : ∃ o, s'.log = { h.sys.log with outstanding := o }) :
    Inv start size d₀ { h with sys := s' } := by
  obtain ⟨o, ho⟩ := hlog
  have hwf : s'.log.Wf := by
    rw [ho]
    exact ⟨hi.wf.home, hi.wf.nodup, hi.wf.fits, hi.wf.len⟩
  exact
    { start_eq := by rw [ho]; exact hi.start_eq
      size_eq := by rw [ho]; exact hi.size_eq
      size_pos := hi.size_pos
      committing := by rw [ho]; exact hi.committing
      wf := hwf
      lh := by rw [ho]; exact hi.lh
      disk := by rw [hd]; exact hi.disk
      cache := by rw [hc, hd]; exact hi.cache
      header := by rw [hd]; exact hi.header
      home := by rw [hd]; exact hi.home
      commits := hi.commits
      crash := hi.crash }

/-- A `log_write` keeps the invariant: the block joins the header and the
pending group, and the cache takes the new contents. -/
theorem Inv.logWrite (hi : Inv start size d₀ h) {s' : LogSys} {b : ℕ} {v : Block}
    (hb : h.sys.log.home b) (hlen : h.sys.log.lh.length < logsize)
    (hfit : h.sys.log.lh.length + 1 < h.sys.log.size) (hd : s'.disk = h.sys.disk)
    (hc : s'.cache = Function.update h.sys.cache b v)
    (hlog : s'.log = { h.sys.log with lh := LogSys.absorb h.sys.log.lh b }) :
    Inv start size d₀ { h with sys := s', pending := h.pending ++ [(b, v)] } := by
  have habs := LogSys.length_absorb_le h.sys.log.lh b
  have hwf : s'.log.Wf := by
    rw [hlog]
    refine ⟨fun x hx => ?_, LogSys.nodup_absorb hi.wf.nodup b, .inr ?_, ?_⟩
    · rcases LogSys.mem_absorb.mp hx with hx | rfl
      · exact hi.wf.home x hx
      · exact hb
    · show (LogSys.absorb h.sys.log.lh b).length < h.sys.log.size
      omega
    · show (LogSys.absorb h.sys.log.lh b).length ≤ logsize
      omega
  exact
    { start_eq := by rw [hlog]; exact hi.start_eq
      size_eq := by rw [hlog]; exact hi.size_eq
      size_pos := hi.size_pos
      committing := by rw [hlog]; exact hi.committing
      wf := hwf
      lh := by rw [hlog, groupBlocks_append_single, ← hi.lh]
      disk := by rw [hd]; exact hi.disk
      cache := by rw [hc, hd, applyWrites_append, ← hi.cache]; rfl
      header := by rw [hd]; exact hi.header
      home := by rw [hd]; exact hi.home
      commits := hi.commits
      crash := hi.crash }

/-- A commit keeps the invariant.  A crash among its writes recovers to the
groups before it until its commit point, and to those and it from then on. -/
theorem Inv.commit (hi : Inv start size d₀ h) {s' : LogSys} (hne : h.sys.log.lh ≠ [])
    (hd : s'.disk = applyWrites h.sys.disk (commitWrites h.sys))
    (hc : s'.cache = applyWrites h.sys.cache (commitWrites h.sys))
    (hlog : s'.log = { h.sys.log with outstanding := 0, lh := [] }) :
    Inv start size d₀ ⟨s', h.writes ++ commitWrites h.sys, [], h.txns ++ [h.pending],
      h.commits ++ [h.writes.length + h.sys.log.lh.length]⟩ := by
  have hstart := hi.start_eq
  have hsize := hi.size_eq
  have hout : ∀ b ∉ h.sys.log.lh, h.sys.cache b = h.sys.disk b := fun b hb => hi.cache_of_not_mem hb
  have hlen := hi.commits.length_eq
  -- installing the transaction makes the cache, that is the pending group applied
  have hgroup : ∀ b, NonLog start size b → applyWrites h.sys.disk (txnOf h.sys) b =
      committed d₀ (h.txns ++ [h.pending]) (h.txns.length + 1) b := by
    intro b hb
    rw [applyWrites_txnOf_eq_cache hi.wf.nodup hout, hi.cache, committed_snoc]
    exact applyWrites_congr (hi.home b hb) _
  have hempty : readHead (h.sys.disk h.sys.log.start) = [] := by rw [hstart]; exact hi.header
  exact
    { start_eq := by rw [hlog]; exact hstart
      size_eq := by rw [hlog]; exact hsize
      size_pos := hi.size_pos
      committing := by rw [hlog]; exact hi.committing
      wf := by rw [hlog]; exact ⟨fun _ hb => absurd hb List.not_mem_nil, List.nodup_nil, .inl rfl, Nat.zero_le _⟩
      lh := by rw [hlog]; rfl
      disk := by rw [hd, hi.disk, applyWrites_append]
      cache := by
        show s'.cache = applyWrites s'.disk []
        rw [applyWrites_nil, hc, hd, applyWrites_commitWrites_cache hout]
      header := by
        rw [hd, ← hstart, applyWrites_commitWrites_start]
        exact readHead_writeHead_nil _
      home := by
        intro b hb
        show s'.disk b = committed d₀ (h.txns ++ [h.pending]) (h.txns ++ [h.pending]).length b
        rw [List.length_append, List.length_singleton, hd, ← hgroup b hb]
        exact applyWrites_commitWrites_of_nonLog hi.wf hne _ (hstart ▸ hsize ▸ hb)
      commits := by
        refine List.rel_append (hi.commits.imp fun c t hct => hct.append _) (.cons ?_ .nil)
        refine ⟨(headWrite h.sys).2, ?_, by rw [readHead_headWrite hi.wf, hi.lh]⟩
        rw [List.getElem?_append_right (by omega), Nat.add_sub_cancel_left,
          getElem?_commitWrites_commitPoint, ← hstart]
        rfl
      crash := by
        intro k hk
        rw [List.length_append] at hk
        by_cases hkw : k ≤ h.writes.length
        · -- a crash before this commit's writes
          rw [crashDisk_append_of_le hkw, durable_snoc_of_le (by omega),
            committed_append_of_le ((durable_le_length k).trans hlen.le)]
          exact hi.crash k hkw
        -- a crash after `j` of this commit's writes
        obtain ⟨j, rfl⟩ : ∃ j, k = h.writes.length + j := ⟨k - h.writes.length, by omega⟩
        obtain ⟨hsane, hrec⟩ := recovered_commit_crash hi.wf hne hempty (j := j) (by omega)
        rw [hstart, hsize] at hsane hrec
        rw [crashDisk_append, ← hi.disk, durable_snoc fun c hc =>
          by have := CommitPoint.forall_lt hi.commits c hc; omega, hlen]
        refine ⟨hsane, fun b hb => ?_⟩
        rw [hrec b hb]
        by_cases hj : j ≤ h.sys.log.lh.length
        · rw [if_pos hj, if_neg (by omega), Nat.add_zero, committed_append_of_le le_rfl]
          exact hi.home b hb
        · rw [if_neg hj, if_pos (by omega)]
          exact hgroup b hb }

/-- Every event of every process keeps the invariant. -/
theorem Inv.step (hi : Inv start size d₀ h) {e : LogEvent} {h' : LogHist}
    (hs : h.step e = some h') : Inv start size d₀ h' := by
  obtain ⟨⟨s', ws⟩, he, rfl⟩ := Option.map_eq_some_iff.mp hs
  cases e with
  | beginOp p =>
    obtain ⟨rfl, hd, hc, hlog⟩ := logStep_beginOp he
    exact hi.quiet hd hc ⟨_, hlog⟩
  | logWrite p b v =>
    obtain ⟨rfl, hb, hlen, hfit, hd, hc, hlog⟩ := logStep_logWrite he
    exact hi.logWrite hb hlen hfit hd hc hlog
  | endOp p =>
    rcases logStep_endOp hi.wf hi.committing he with
      ⟨rfl, hd, hc, hlog⟩ | ⟨hne, rfl, hd, hc, hlog⟩
    · exact hi.quiet hd hc hlog
    · -- a commit writes at least its header, so the history records it
      have hW : (commitWrites h.sys).isEmpty = false := by
        rw [List.isEmpty_eq_false_iff, ← List.length_pos_iff, length_commitWrites]
        omega
      simp only [record, hW]
      exact hi.commit hne hd hc hlog

theorem Inv.of_reachable (hd : Formatted start size d₀) (hr : Reachable start size d₀ h) :
    Inv start size d₀ h :=
  Transition.Reachable.invariant (fun _ he => he ▸ Inv.init hd) (fun _ _ _ hi hs => hi.step hs) hr

end LogHist

/-! ### Crash atomicity -/

/-- Whatever the interleaving of file-system operations and wherever a crash
stops the disk, recovery brings every block outside the log area to the initial
disk with exactly the groups whose commit point reached the disk applied, in
order.  Each commit point is the header write naming its group's blocks, and
recovery interrupted at any of its own writes and run again gives the same
disk. -/
theorem log_recovery_atomic {start size : ℕ} {d₀ : Disk} (hd : Formatted start size d₀)
    {h : LogHist} (hr : LogHist.Reachable start size d₀ h) :
    List.Forall₂ (LogHist.CommitPoint start h.writes) h.commits h.txns ∧
      ∀ k ≤ h.writes.length,
        (∀ b, NonLog start size b → recovered start size (crashDisk d₀ h.writes k) b =
          committed d₀ h.txns (durable h.commits k) b) ∧
        ∀ j, recovered start size (applyWrites (crashDisk d₀ h.writes k)
            ((recoveryWrites start size (crashDisk d₀ h.writes k)).take j)) =
          recovered start size (crashDisk d₀ h.writes k) := by
  have hi := LogHist.Inv.of_reachable hd hr
  refine ⟨hi.commits, fun k hk => ?_⟩
  obtain ⟨hsane, hrec⟩ := hi.crash k hk
  exact ⟨hrec, recovered_idem hsane⟩

/-- One process writes block `40` in one operation.  Its `end_op` writes the log
block, the header naming block `40` (the commit point, write `1`), block `40`
itself and the empty header: a crash after the log block alone recovers the old
block, a crash just after the commit point the new one. -/
theorem log_recovery_atomic_commit :
    ∃ h, LogHist.Reachable 2 30 (fun _ _ => 0) h ∧ h.commits = [1] ∧
      h.txns = [[(40, fun _ => 1)]] ∧ h.writes.length = 4 ∧
      recovered 2 30 (crashDisk (fun _ _ => 0) h.writes 1) 40 = (fun _ => 0) ∧
      recovered 2 30 (crashDisk (fun _ _ => 0) h.writes 2) 40 = (fun _ => 1) := by
  have hd : Formatted 2 30 (fun _ _ => 0) := ⟨by decide, by decide⟩
  have hobs : (Transition.runFn LogHist.step (LogHist.init 2 30 fun _ _ => 0)
      [.beginOp 0, .logWrite 0 40 (fun _ => 1), .endOp 0]).map
        (fun h => (h.commits, h.txns, h.writes.length)) = some ([1], [[(40, fun _ => 1)]], 4) := rfl
  obtain ⟨h, hrun, hobs⟩ := Option.map_eq_some_iff.mp hobs
  have hc : h.commits = [1] := congrArg Prod.fst hobs
  have ht : h.txns = [[(40, fun _ => 1)]] := congrArg (fun x => x.2.1) hobs
  have hw : h.writes.length = 4 := congrArg (fun x => x.2.2) hobs
  have hr : LogHist.Reachable 2 30 (fun _ _ => 0) h := ⟨_, _, rfl, Transition.Run.of_runFn hrun⟩
  have hrec := (log_recovery_atomic hd hr).2
  have hnl : NonLog 2 30 40 := Or.inr (by decide)
  refine ⟨h, hr, hc, ht, hw, ?_, ?_⟩
  · rw [(hrec 1 (by omega)).1 40 hnl, ht, hc]
    rfl
  · rw [(hrec 2 (by omega)).1 40 hnl, ht, hc]
    rfl

end Xv6
