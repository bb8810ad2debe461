import Xv6.Log

/-!
# Crash safety of the log

A crash may stop the disk after any prefix of the writes the log layer issues.
`initlog` then runs `recover_from_log`.  This module says what recovery makes of
each disk a crash inside `commit` can leave: the disk before the commit until
the header write reached the disk, the disk with the whole transaction installed
from then on.  A crash during recovery itself does no harm.

## Main definitions

* `NonLog` — the blocks outside the log area.

## Main results

* `recovered_of_empty`, `recovered_idem` — recovery of a disk whose header is
  empty, and recovery interrupted at any of its writes.
* `recovered_commit_crash` — recovery of a disk that crashed inside `commit`.
* `applyWrites_commitWrites_cache` — after a commit the cache is the disk again.
-/

namespace Xv6

/-! ### Recovery -/

/-- A block outside the log area `[start, start + size)`. -/
def NonLog (start size b : ℕ) : Prop := b < start ∨ start + size ≤ b

theorem NonLog.ne_start {start size b : ℕ} (hsize : 0 < size) (hb : NonLog start size b) :
    b ≠ start := by
  unfold NonLog at hb; omega

theorem NonLog.ne_logBlock {l : Log} {b i : ℕ} (hi : i + 1 < l.size) (hb : NonLog l.start l.size b) :
    b ≠ logBlock l i := by
  unfold NonLog at hb; unfold logBlock; omega

theorem sane_of_empty {start size : ℕ} {d : Disk} (h : readHead (d start) = []) :
    Sane start size d :=
  ⟨by simp [h], by simp [h], .inl (by simp [h]), by simp [h]⟩

theorem recoveryInstall_of_empty {start size : ℕ} {d : Disk} (h : readHead (d start) = []) :
    recoveryInstall start size d = [] := by
  simp [recoveryInstall, copyWrites, h]

/-- On a sane disk recovery installs, then clears the header. -/
theorem recovered_eq_update {start size : ℕ} {d : Disk} (hs : Sane start size d) :
    recovered start size d =
      Function.update (applyWrites d (recoveryInstall start size d)) start (writeHead [] (d start)) := by
  rw [recovered_eq, recoveryWrites_eq hs, applyWrites_append]
  rfl

/-- With an empty header, recovery only clears the header again. -/
theorem recovered_of_empty {start size : ℕ} {d : Disk} (h : readHead (d start) = []) :
    recovered start size d = Function.update d start (writeHead [] (d start)) := by
  rw [recovered_eq_update (sane_of_empty h), recoveryInstall_of_empty h, applyWrites_nil]

/-- Installing part of the log leaves the header and the log blocks alone. -/
theorem applyWrites_take_recoveryInstall {start size : ℕ} {d : Disk} (j : ℕ) {b : ℕ}
    (hb : b ∉ readHead (d start)) :
    applyWrites d ((recoveryInstall start size d).take j) b = d b :=
  applyWrites_of_not_mem fun _ hw he => hb (he ▸ recoveryInstall_target (List.mem_of_mem_take hw))

/-- Recovery is idempotent: recovering a disk on which recovery crashed after
any number of its writes gives the disk recovery gives. -/
theorem recovered_idem {start size : ℕ} {d : Disk} (hs : Sane start size d) (j : ℕ) :
    recovered start size (applyWrites d ((recoveryWrites start size d).take j)) =
      recovered start size d := by
  rw [recoveryWrites_eq hs]
  rcases le_or_gt j (recoveryInstall start size d).length with hj | hj
  · -- a crash while installing: the header still names the same log blocks
    rw [List.take_append_of_le_length hj]
    set d' := applyWrites d ((recoveryInstall start size d).take j) with hd'
    have hstart : d' start = d start :=
      applyWrites_take_recoveryInstall j fun h => hs.start_ne h rfl
    have hs' : Sane start size d' := by
      unfold Sane headLog; rw [hstart]; exact hs
    have hinst : recoveryInstall start size d' = recoveryInstall start size d := by
      unfold recoveryInstall copyWrites
      rw [hstart]
      apply List.map_congr_left
      intro i hi
      have hi' : i < (headLog start size d).lh.length := by
        simpa using (List.mem_range'_1.mp hi).2
      -- the log block is the one of `d`'s header, which has the same start
      simp only [logBlock, headLog_start]
      have hlog : start + i + 1 ∉ readHead (d start) := fun h => hs.logBlock_ne hi' h rfl
      rw [hd', applyWrites_take_recoveryInstall j hlog]
    rw [recovered_eq_update hs', recovered_eq_update hs, hinst, hstart, hd',
      applyWrites_take_absorb]
  · -- a crash after the header was cleared: recovery finds nothing to install
    rw [List.take_of_length_le (by simpa using hj), ← recoveryWrites_eq hs, ← recovered_eq]
    have hclear : recovered start size d start = writeHead [] (d start) := by
      rw [recovered_eq_update hs, Function.update_self]
    rw [recovered_of_empty (by rw [hclear]; exact readHead_writeHead_nil _), hclear,
      writeHead_nil_idem, ← hclear, Function.update_eq_self]

/-! ### Crashing inside a commit -/

section Commit

variable {s : LogSys}

@[simp] theorem length_logWrites (s : LogSys) : (logWrites s).length = s.log.lh.length := by
  simp [logWrites, copyWrites]

@[simp] theorem length_txnOf (s : LogSys) : (txnOf s).length = s.log.lh.length := by
  simp [txnOf]

theorem length_commitWrites (s : LogSys) : (commitWrites s).length = 2 * s.log.lh.length + 2 := by
  simp [commitWrites]; omega

theorem take_commitWrites_of_le {j : ℕ} (hj : j ≤ s.log.lh.length) :
    (commitWrites s).take j = (logWrites s).take j := by
  unfold commitWrites
  simp only [List.append_assoc]
  exact List.take_append_of_le_length (by simpa using hj)

theorem take_commitWrites_install {i : ℕ} (hi : i ≤ s.log.lh.length) :
    (commitWrites s).take (s.log.lh.length + 1 + i) =
      logWrites s ++ [headWrite s] ++ (txnOf s).take i := by
  unfold commitWrites
  rw [List.take_append_of_le_length (by simp; omega), List.take_append,
    List.take_of_length_le (by simp)]
  simp [headWrite]

/-- The commit point is the write right after the log blocks. -/
theorem getElem?_commitWrites_commitPoint (s : LogSys) :
    (commitWrites s)[s.log.lh.length]? = some (headWrite s) := by
  unfold commitWrites
  simp only [List.append_assoc, List.cons_append]
  rw [List.getElem?_append_right (by simp)]
  simp [headWrite]

/-- The header written at the commit point names the logged blocks. -/
theorem readHead_headWrite (hl : s.log.Wf) : readHead (headWrite s).2 = s.log.lh := by
  refine readHead_writeHead _ hl.len fun x hx => ?_
  have := (hl.home x hx).2
  unfold fssize at this
  omega

/-- After `write_log`, the `i`-th log block holds the `i`-th logged block's
cached contents, whatever the disk held before. -/
theorem applyWrites_logWrites_logBlock (e : Disk) {i : ℕ} (hi : i < s.log.lh.length) :
    applyWrites e (logWrites s) (logBlock s.log i) = s.cache (s.log.lh.getD i 0) :=
  applyWrites_of_mem (logWrites_fst_nodup s) (mem_logWrites hi)

variable (hl : s.log.Wf) (hne : s.log.lh ≠ [])
include hl hne

theorem size_pos_of_wf : 0 < s.log.size := by
  rcases hl.fits with h | h
  · exact absurd h hne
  · omega

/-- `write_log` writes neither the header nor a block outside the log area. -/
theorem applyWrites_logWrites_of_ne (e : Disk) (j : ℕ) {b : ℕ}
    (hb : b = s.log.start ∨ NonLog s.log.start s.log.size b) :
    applyWrites e ((logWrites s).take j) b = e b := by
  apply applyWrites_of_not_mem
  intro w hw he
  obtain ⟨i, hi, hwi⟩ := logWrites_target (List.mem_of_mem_take hw)
  have hfit : i + 1 < s.log.size := by
    rcases hl.fits with h | h
    · exact absurd h hne
    · omega
  rcases hb with rfl | hb
  · exact logBlock_ne_start s.log i (hwi ▸ he)
  · exact hb.ne_logBlock hfit (he ▸ hwi)

omit hne in
/-- A block of the transaction is neither the header nor a log block. -/
theorem applyWrites_txnOf_take_of_ne (e : Disk) (j : ℕ) {b : ℕ}
    (hb : b = s.log.start ∨ ∃ i < s.log.lh.length, b = logBlock s.log i) :
    applyWrites e ((txnOf s).take j) b = e b := by
  apply applyWrites_of_not_mem
  intro w hw he
  have hmem := txnOf_target (List.mem_of_mem_take hw)
  rcases hb with rfl | ⟨i, hi, rfl⟩
  · exact hl.start_ne hmem he.symm
  · exact hl.logBlock_ne hi hmem he.symm

/-- The commit point leaves the blocks outside the log area as they were. -/
theorem applyWrites_commitPoint_of_nonLog (e : Disk) {b : ℕ} (hb : NonLog s.log.start s.log.size b) :
    applyWrites e (logWrites s ++ [headWrite s]) b = e b := by
  have hne' : b ≠ s.log.start := hb.ne_start (size_pos_of_wf hl hne)
  have hlog := applyWrites_logWrites_of_ne hl hne e (logWrites s).length (.inr hb)
  rw [List.take_length] at hlog
  rw [applyWrites_append, applyWrites_cons, applyWrites_nil, headWrite,
    Function.update_of_ne hne', hlog]

/-- A crash inside `install_trans`, after the commit point: the header names the
logged blocks and the log blocks hold their contents, so recovery installs the
whole transaction. -/
theorem recovered_commit_crash_install {i : ℕ} (hi : i ≤ s.log.lh.length) :
    Sane s.log.start s.log.size
        (applyWrites s.disk ((commitWrites s).take (s.log.lh.length + 1 + i))) ∧
      ∀ b, NonLog s.log.start s.log.size b →
        recovered s.log.start s.log.size
            (applyWrites s.disk ((commitWrites s).take (s.log.lh.length + 1 + i))) b =
          applyWrites s.disk (txnOf s) b := by
  set D₁ := applyWrites s.disk (logWrites s ++ [headWrite s]) with hD₁
  set d := applyWrites s.disk ((commitWrites s).take (s.log.lh.length + 1 + i)) with hd_def
  have hd : d = applyWrites D₁ ((txnOf s).take i) := by
    rw [hd_def, take_commitWrites_install hi, applyWrites_append]
  have hhead : readHead (d s.log.start) = s.log.lh := by
    rw [hd, applyWrites_txnOf_take_of_ne hl _ i (.inl rfl), hD₁, applyWrites_append]
    simp only [applyWrites_cons, applyWrites_nil]
    show readHead (Function.update (applyWrites s.disk (logWrites s)) s.log.start
      (headWrite s).2 s.log.start) = _
    rw [Function.update_self]
    exact readHead_headWrite hl
  have hlog : ∀ t < s.log.lh.length, d (logBlock s.log t) = s.cache (s.log.lh.getD t 0) := by
    intro t ht
    rw [hd, applyWrites_txnOf_take_of_ne hl _ i (.inr ⟨t, ht, rfl⟩), hD₁, applyWrites_append]
    simp only [headWrite, applyWrites_cons, applyWrites_nil]
    rw [Function.update_of_ne (logBlock_ne_start _ _), applyWrites_logWrites_logBlock _ ht]
  -- recovery reads back exactly the transaction `commit` was installing
  have hinst : recoveryInstall s.log.start s.log.size d = txnOf s := by
    unfold recoveryInstall copyWrites txnOf
    rw [hhead, ← map_range'_getD s.log.lh (fun b => (b, s.cache b))]
    apply List.map_congr_left
    intro t ht
    rw [List.mem_range'_1] at ht
    exact Prod.ext rfl (hlog t (by omega))
  have hs : Sane s.log.start s.log.size d := by
    unfold Sane headLog
    rw [hhead]
    exact ⟨hl.home, hl.nodup, hl.fits, hl.len⟩
  refine ⟨hs, fun b hb => ?_⟩
  have hne' : b ≠ s.log.start := hb.ne_start (size_pos_of_wf hl hne)
  rw [recovered_eq_update hs, Function.update_of_ne hne', hinst, hd, applyWrites_take_absorb]
  exact applyWrites_congr (applyWrites_commitPoint_of_nonLog hl hne _ hb) _

/-- A whole commit writes the transaction to the blocks outside the log area. -/
theorem applyWrites_commitWrites_of_nonLog (e : Disk) {b : ℕ}
    (hb : NonLog s.log.start s.log.size b) :
    applyWrites e (commitWrites s) b = applyWrites e (txnOf s) b := by
  have hne' : b ≠ s.log.start := hb.ne_start (size_pos_of_wf hl hne)
  rw [commitWrites, applyWrites_append, applyWrites_append, applyWrites_cons, applyWrites_nil,
    Function.update_of_ne hne']
  exact applyWrites_congr (applyWrites_commitPoint_of_nonLog hl hne _ hb) _

omit hl hne in
/-- A whole commit ends with the header cleared. -/
theorem applyWrites_commitWrites_start (e : Disk) :
    applyWrites e (commitWrites s) s.log.start =
      writeHead [] (writeHead s.log.lh (s.cache s.log.start)) := by
  rw [commitWrites, applyWrites_append, applyWrites_cons, applyWrites_nil, Function.update_self]

/-- A crash after the header was cleared: recovery has nothing to do, and the
transaction is installed. -/
theorem recovered_commit_crash_done :
    Sane s.log.start s.log.size (applyWrites s.disk (commitWrites s)) ∧
      ∀ b, NonLog s.log.start s.log.size b →
        recovered s.log.start s.log.size (applyWrites s.disk (commitWrites s)) b =
          applyWrites s.disk (txnOf s) b := by
  have hhead : readHead (applyWrites s.disk (commitWrites s) s.log.start) = [] := by
    rw [applyWrites_commitWrites_start]
    exact readHead_writeHead_nil _
  refine ⟨sane_of_empty hhead, fun b hb => ?_⟩
  have hne' : b ≠ s.log.start := hb.ne_start (size_pos_of_wf hl hne)
  rw [recovered_of_empty hhead, Function.update_of_ne hne']
  exact applyWrites_commitWrites_of_nonLog hl hne _ hb

/-- A crash inside `write_log`, before the commit point: the header on disk is
still empty, and recovery leaves every block outside the log area as it was. -/
theorem recovered_commit_crash_log (hempty : readHead (s.disk s.log.start) = []) {j : ℕ}
    (hj : j ≤ s.log.lh.length) :
    Sane s.log.start s.log.size (applyWrites s.disk ((commitWrites s).take j)) ∧
      ∀ b, NonLog s.log.start s.log.size b →
        recovered s.log.start s.log.size (applyWrites s.disk ((commitWrites s).take j)) b =
          s.disk b := by
  set d := applyWrites s.disk ((commitWrites s).take j) with hd_def
  have hstart : d s.log.start = s.disk s.log.start := by
    rw [hd_def, take_commitWrites_of_le hj]
    exact applyWrites_logWrites_of_ne hl hne _ j (.inl rfl)
  have hd : readHead (d s.log.start) = [] := by rw [hstart, hempty]
  refine ⟨sane_of_empty hd, fun b hb => ?_⟩
  have hne' : b ≠ s.log.start := hb.ne_start (size_pos_of_wf hl hne)
  rw [recovered_of_empty hd, Function.update_of_ne hne', hd_def, take_commitWrites_of_le hj]
  exact applyWrites_logWrites_of_ne hl hne _ j (.inr hb)

/-- A crash anywhere inside a commit: recovery gives the disk before the commit
until the header write reaches the disk, and the disk with the whole
transaction installed from then on. -/
theorem recovered_commit_crash (hempty : readHead (s.disk s.log.start) = []) {j : ℕ}
    (hj : j ≤ (commitWrites s).length) :
    Sane s.log.start s.log.size (applyWrites s.disk ((commitWrites s).take j)) ∧
      ∀ b, NonLog s.log.start s.log.size b →
        recovered s.log.start s.log.size (applyWrites s.disk ((commitWrites s).take j)) b =
          if j ≤ s.log.lh.length then s.disk b else applyWrites s.disk (txnOf s) b := by
  rw [length_commitWrites] at hj
  rcases le_or_gt j s.log.lh.length with hj₁ | hj₁
  · -- before the commit point
    obtain ⟨hs, h⟩ := recovered_commit_crash_log hl hne hempty hj₁
    exact ⟨hs, fun b hb => by rw [if_pos hj₁]; exact h b hb⟩
  rcases Nat.lt_or_ge j (2 * s.log.lh.length + 2) with hj₂ | hj₂
  · -- inside `install_trans`
    obtain ⟨i, rfl⟩ : ∃ i, j = s.log.lh.length + 1 + i := ⟨j - s.log.lh.length - 1, by omega⟩
    obtain ⟨hs, h⟩ := recovered_commit_crash_install hl hne (i := i) (by omega)
    exact ⟨hs, fun b hb => by rw [if_neg (by omega)]; exact h b hb⟩
  · -- after the header was cleared
    rw [List.take_of_length_le (by rw [length_commitWrites]; omega)]
    obtain ⟨hs, h⟩ := recovered_commit_crash_done hl hne
    exact ⟨hs, fun b hb => by rw [if_neg (by omega)]; exact h b hb⟩

end Commit

/-! ### The cache and the transaction -/

section Cache

variable {s : LogSys} {e : Disk}

/-- When the cache holds the disk `e` except for logged blocks, the transaction
applied to `e` is the cache. -/
theorem applyWrites_txnOf_eq_cache (hnd : s.log.lh.Nodup) (hc : ∀ b ∉ s.log.lh, s.cache b = e b) :
    applyWrites e (txnOf s) = s.cache := by
  funext b
  by_cases hb : b ∈ s.log.lh
  · have hfst : (txnOf s).map Prod.fst = s.log.lh := by
      unfold txnOf; rw [List.map_map]; exact List.map_id' _
    exact applyWrites_of_mem (hfst ▸ hnd) (List.mem_map_of_mem hb)
  · rw [applyWrites_of_not_mem (b := b) fun w hw he => hb (he ▸ txnOf_target hw), hc b hb]

/-- A commit writes every logged block, so afterwards the cache is the disk
again. -/
theorem applyWrites_commitWrites_cache (hc : ∀ b ∉ s.log.lh, s.cache b = e b) :
    applyWrites s.cache (commitWrites s) = applyWrites e (commitWrites s) := by
  funext b
  by_cases hb : b ∈ s.log.lh
  · refine applyWrites_congr_of_mem ⟨(b, s.cache b), ?_, rfl⟩ _ _
    have : (b, s.cache b) ∈ txnOf s := List.mem_map_of_mem hb
    simp [commitWrites, this]
  · exact applyWrites_congr (hc b hb) _

end Cache

end Xv6
