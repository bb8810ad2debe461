import Xv6.Files

/-!
# The reference counts stay exact

Between system calls every count of `Files` equals the number of places that hold
the reference it counts: a file's `ref` the descriptors that point to it, an
inode's `ref` the open `FD_INODE` files and the working directories on it, and a
pipe's two flags whether its read and write files are still open.

Inside a call the counts are off by the references the call holds in local
variables: `filealloc` returns a file with `ref = 1` and no descriptor yet, `iget`
an inode whose reference is the caller's.  The invariant `Files.Inv t lf li` is
therefore indexed by those references, the files `lf` and the inodes `li`, and
each operation of `file.c`, `fs.c` and `pipe.c` moves references between the
tables and the locals.  A call that returns has given every local reference away,
so between calls `lf` and `li` are empty.

## Main definitions

* `Files.holders`, `openOn`, `cwdOn`, `ends` — the places holding each reference.
* `Files.Inv t lf li` — the counts are exact up to the locals `lf` and `li`.
* `Files.Exact` — the counts between calls.

## Main results

* `Files.Inv.fileclose`, `Inv.iget`, `Inv.fdalloc`, … — what each operation does
  to the locals.
* `Files.Inv.step`, `Files.Reachable.inv` — every call keeps the invariant.
* `refcounts_exact` — the counts are exact in every reachable state.
-/

namespace Xv6

open Count

/-- The flag of one end of a pipe: `writeopen` for the write end (`true`),
`readopen` for the read end. -/
def Pipe.isOpen (ps : Pipe) (w : Bool) : Bool := if w then ps.writeopen else ps.readopen

/-- The pipe `pipeclose` leaves: the flag of end `w` cleared. -/
def Pipe.closeEnd (ps : Pipe) (w : Bool) : Pipe :=
  if w then { ps with writeopen := false } else { ps with readopen := false }

@[simp] theorem Pipe.isOpen_false (ps : Pipe) : ps.isOpen false = ps.readopen := rfl

@[simp] theorem Pipe.isOpen_true (ps : Pipe) : ps.isOpen true = ps.writeopen := rfl

theorem Pipe.isOpen_closeEnd (ps : Pipe) (w w' : Bool) : (ps.closeEnd w).isOpen w' = (ps.isOpen w' && w' != w) := by
  cases w <;> cases w' <;> simp [closeEnd]

namespace OpenFile

variable (fl : OpenFile)

/-- The cache slot an open `FD_INODE` file holds a reference to. -/
def inodeRef : Option (Fin ninode) := if 0 < fl.ref ∧ fl.type = .inode then some fl.ip else none

/-- The pipe page an open file holds as end `w` of a pipe (`true` for the write end). -/
def pipeEnd (w : Bool) (fl : OpenFile) : Option ℕ :=
  if 0 < fl.ref ∧ fl.type = .pipe ∧ fl.writable = w then some fl.pipe else none

variable {fl}

theorem inodeRef_of_type (h : fl.type ≠ .inode) : fl.inodeRef = none := by simp [inodeRef, h]

theorem inodeRef_of_ref (h : fl.ref = 0) : fl.inodeRef = none := by simp [inodeRef, h]

theorem pipeEnd_of_type (h : fl.type ≠ .pipe) (w : Bool) : fl.pipeEnd w = none := by simp [pipeEnd, h]

theorem pipeEnd_of_ref (h : fl.ref = 0) (w : Bool) : fl.pipeEnd w = none := by simp [pipeEnd, h]

/-- An end names its page and its side. -/
theorem pipeEnd_inj {w w' : Bool} {pg q : ℕ} (h : fl.pipeEnd w = some pg) (h' : fl.pipeEnd w' = some q) :
    w' = w ∧ q = pg := by
  simp only [pipeEnd, Option.ite_none_right_eq_some, Option.some.injEq] at h h'
  exact ⟨h'.1.2.2.symm.trans h.1.2.2, h'.2.symm.trans h.2⟩

/-- A new count, positive as the old one, keeps what the file holds. -/
theorem inodeRef_ref {r : ℕ} (hr : 0 < r) (h : 0 < fl.ref) : { fl with ref := r }.inodeRef = fl.inodeRef := by
  simp [inodeRef, hr, h]

theorem pipeEnd_ref {r : ℕ} (hr : 0 < r) (h : 0 < fl.ref) (w : Bool) : { fl with ref := r }.pipeEnd w = fl.pipeEnd w := by
  simp [pipeEnd, hr, h]

end OpenFile

namespace Files

variable {t t' : Files}

/-! ### Who holds a reference -/

/-- The descriptors, of all processes, that point to file `f`. -/
def holders (t : Files) (f : Fin nfile) : ℕ := count (fun x : Fin nproc × Fin nofile => t.ofile x.1 x.2) (some f)

/-- The open `FD_INODE` files on cache slot `s`. -/
def openOn (t : Files) (s : Fin ninode) : ℕ := count (OpenFile.inodeRef ∘ t.file) (some s)

/-- The processes whose working directory is cache slot `s`. -/
def cwdOn (t : Files) (s : Fin ninode) : ℕ := count t.cwd (some s)

/-- The open files that are end `w` of the pipe on page `pg`. -/
def ends (t : Files) (w : Bool) (pg : ℕ) : ℕ := count (OpenFile.pipeEnd w ∘ t.file) (some pg)

theorem holders_congr (h : t'.ofile = t.ofile) : holders t' = holders t := by
  funext f
  simp only [holders, h]

theorem openOn_congr (h : t'.file = t.file) : openOn t' = openOn t := by
  funext s
  simp only [openOn, h]

theorem cwdOn_congr (h : t'.cwd = t.cwd) : cwdOn t' = cwdOn t := by
  funext s
  simp only [cwdOn, h]

theorem ends_congr (h : t'.file = t.file) : ends t' = ends t := by
  funext w pg
  simp only [ends, h]

@[simp] theorem holders_setFile (f : Fin nfile) (fl : OpenFile) : holders (t.setFile f fl) = holders t := rfl

@[simp] theorem openOn_setIcache (s : Fin ninode) (e : CacheInode) : openOn (t.setIcache s e) = openOn t := rfl

@[simp] theorem cwdOn_setIcache (s : Fin ninode) (e : CacheInode) : cwdOn (t.setIcache s e) = cwdOn t := rfl

@[simp] theorem cwdOn_setFile (f : Fin nfile) (fl : OpenFile) : cwdOn (t.setFile f fl) = cwdOn t := rfl

@[simp] theorem ends_setPipe (pg : ℕ) (x : Option Pipe) : ends (t.setPipe pg x) = ends t := rfl

@[simp] theorem openOn_setCwd (p : Fin nproc) (v : Option (Fin ninode)) : openOn (t.setCwd p v) = openOn t := rfl

/-- The descriptors as one function on pairs, after one of them changes. -/
theorem ofile_setOfile_pairs (p : Fin nproc) (fd : Fin nofile) (v : Option (Fin nfile)) :
    (fun x : Fin nproc × Fin nofile => (t.setOfile p fd v).ofile x.1 x.2) =
      Function.update (fun x => t.ofile x.1 x.2) (p, fd) v := by
  funext ⟨q, g⟩
  by_cases hq : q = p
  · subst hq
    by_cases hg : g = fd
    · subst hg
      simp
    · simp [hg]
  · simp [hq]

theorem holders_setOfile (p : Fin nproc) (fd : Fin nofile) (v : Option (Fin nfile)) (f : Fin nfile) :
    holders (t.setOfile p fd v) f + (if t.ofile p fd = some f then 1 else 0) =
      holders t f + (if v = some f then 1 else 0) := by
  rw [holders, holders, ofile_setOfile_pairs]
  exact count_update _ (p, fd) v (some f)

theorem openOn_setFile (f : Fin nfile) (fl : OpenFile) (s : Fin ninode) :
    openOn (t.setFile f fl) s + (if (t.file f).inodeRef = some s then 1 else 0) =
      openOn t s + (if fl.inodeRef = some s then 1 else 0) := by
  rw [openOn, openOn, setFile_file]
  exact count_comp_update _ _ f fl (some s)

theorem ends_setFile (f : Fin nfile) (fl : OpenFile) (w : Bool) (pg : ℕ) :
    ends (t.setFile f fl) w pg + (if (t.file f).pipeEnd w = some pg then 1 else 0) =
      ends t w pg + (if fl.pipeEnd w = some pg then 1 else 0) := by
  rw [ends, ends, setFile_file]
  exact count_comp_update _ _ f fl (some pg)

theorem cwdOn_setCwd (p : Fin nproc) (v : Option (Fin ninode)) (s : Fin ninode) :
    cwdOn (t.setCwd p v) s + (if t.cwd p = some s then 1 else 0) =
      cwdOn t s + (if v = some s then 1 else 0) := by
  rw [cwdOn, cwdOn, setCwd_cwd]
  exact count_update _ p v (some s)

/-- A file whose references to inodes and pipes stay as they were changes no
count of them. -/
theorem openOn_setFile_of_eq {f : Fin nfile} {fl : OpenFile} (h : fl.inodeRef = (t.file f).inodeRef) :
    openOn (t.setFile f fl) = openOn t := by
  funext s
  rw [openOn, openOn, setFile_file]
  exact count_comp_update_of_eq h _

theorem ends_setFile_of_eq {f : Fin nfile} {fl : OpenFile} (h : ∀ w, fl.pipeEnd w = (t.file f).pipeEnd w) :
    ends (t.setFile f fl) = ends t := by
  funext w pg
  rw [ends, ends, setFile_file]
  exact count_comp_update_of_eq (h w) _

/-! ### The invariant -/

/-- A free slot, and the slot of an exited process, holds no descriptor and no
working directory. -/
structure SlotsOk (t : Files) : Prop where
  ofile : ∀ p fd, t.use p = .free ∨ t.use p = .zombie → t.ofile p fd = none
  cwd : ∀ p, t.use p = .free ∨ t.use p = .zombie → t.cwd p = none

/-- A file's count is its descriptors and the references in `lf`; a file
without references is `FD_NONE`. -/
structure FileRefs (t : Files) (lf : List (Fin nfile)) : Prop where
  ref : ∀ f, (t.file f).ref = holders t f + lf.count f
  none_of_zero : ∀ f, (t.file f).ref = 0 → (t.file f).type = .none

/-- An inode's count is its open files, its working directories and the
references in `li`. -/
structure InodeRefs (t : Files) (li : List (Fin ninode)) : Prop where
  ref : ∀ s, (t.icache s).ref = ↑(openOn t s + cwdOn t s + li.count s)

/-- A page and the files open on it agree: a pipe's flag is set exactly when its
end is open, and one of them is; a page that is no pipe has no open end. -/
def PageOk : Option Pipe → (Bool → ℕ) → Prop
  | none, e => ∀ w, e w = 0
  | some ps, e => (∀ w, ps.isOpen w = true ↔ 0 < e w) ∧ (ps.readopen = true ∨ ps.writeopen = true)

/-- Every page agrees with its files, and an end is open in at most one file. -/
structure PipesOk (t : Files) : Prop where
  page : ∀ pg, PageOk (t.pipe pg) fun w => ends t w pg
  ends_le : ∀ w pg, ends t w pg ≤ 1

/-- The counts are exact up to the files `lf` and the inodes `li` the running
call holds. -/
structure Inv (t : Files) (lf : List (Fin nfile)) (li : List (Fin ninode)) : Prop where
  slots : SlotsOk t
  files : FileRefs t lf
  inodes : InodeRefs t li
  pipes : PipesOk t

section Congr

variable {lf : List (Fin nfile)} {li : List (Fin ninode)}

theorem SlotsOk.congr (h : SlotsOk t) (hu : t'.use = t.use) (ho : t'.ofile = t.ofile) (hc : t'.cwd = t.cwd) :
    SlotsOk t' :=
  ⟨fun p fd hp => by rw [ho]; exact h.ofile p fd (hu ▸ hp), fun p hp => by rw [hc]; exact h.cwd p (hu ▸ hp)⟩

theorem FileRefs.congr (h : FileRefs t lf) (hf : t'.file = t.file) (ho : t'.ofile = t.ofile) : FileRefs t' lf :=
  ⟨fun f => by rw [hf, holders_congr ho]; exact h.ref f, fun f => by rw [hf]; exact h.none_of_zero f⟩

theorem InodeRefs.congr (h : InodeRefs t li) (hf : t'.file = t.file) (hc : t'.cwd = t.cwd)
    (hi : t'.icache = t.icache) : InodeRefs t' li :=
  ⟨fun s => by rw [hi, openOn_congr hf, cwdOn_congr hc]; exact h.ref s⟩

theorem PipesOk.congr (h : PipesOk t) (he : ends t' = ends t) (hp : t'.pipe = t.pipe) : PipesOk t' :=
  ⟨fun pg => by rw [he, hp]; exact h.page pg, fun w pg => by rw [he]; exact h.ends_le w pg⟩

/-- A change of the pipes and their files at one page. -/
theorem PipesOk.update (h : PipesOk t) (pg : ℕ) (hp : ∀ q, q ≠ pg → t'.pipe q = t.pipe q)
    (he : ∀ w q, q ≠ pg → ends t' w q = ends t w q) (hpg : PageOk (t'.pipe pg) fun w => ends t' w pg)
    (hle : ∀ w, ends t' w pg ≤ 1) : PipesOk t' := by
  refine ⟨fun q => ?_, fun w q => ?_⟩
  · by_cases hq : q = pg
    · subst hq
      exact hpg
    · have hends : (fun w => ends t' w q) = fun w => ends t w q := funext fun w => he w q hq
      rw [hp q hq, hends]
      exact h.page q
  · by_cases hq : q = pg
    · subst hq
      exact hle w
    · rw [he w q hq]
      exact h.ends_le w q

/-- No file is an end of a page that is not a pipe. -/
theorem PipesOk.ends_eq_zero {pg : ℕ} (h : PipesOk t) (hpg : t.pipe pg = none) (w : Bool) : ends t w pg = 0 := by
  have := h.page pg
  rw [hpg] at this
  exact this w

/-- Closing end `w` of a pipe, when the files open as that end are gone: the
page stays a pipe exactly when its other end is open. -/
theorem PageOk.closeEnd {ps : Pipe} {e : Bool → ℕ} {w : Bool} (h : PageOk (some ps) e) :
    PageOk (if !(ps.closeEnd w).readopen && !(ps.closeEnd w).writeopen then none else some (ps.closeEnd w))
      fun w' => if w' = w then 0 else e w' := by
  obtain ⟨hflag, -⟩ := h
  split_ifs with hclosed
  · -- both flags are clear, so the other end has no file either
    intro w'
    by_cases hw : w' = w
    · simp [hw]
    · have hoff : (ps.closeEnd w).isOpen w' = false := by
        cases w' <;> simp only [Bool.and_eq_true, Bool.not_eq_true'] at hclosed <;> simp [hclosed]
      rw [Pipe.isOpen_closeEnd, bne_iff_ne.mpr hw, Bool.and_true] at hoff
      dsimp only
      rw [if_neg hw]
      by_contra hne
      have := (hflag w').mpr (Nat.pos_of_ne_zero hne)
      rw [hoff] at this
      exact absurd this (by simp)
  · refine ⟨fun w' => ?_, ?_⟩
    · rw [Pipe.isOpen_closeEnd]
      by_cases hw : w' = w
      · simp [hw]
      · dsimp only
        rw [if_neg hw, bne_iff_ne.mpr hw, Bool.and_true]
        exact hflag w'
    · revert hclosed
      cases (ps.closeEnd w).readopen <;> cases (ps.closeEnd w).writeopen <;> simp

theorem FileRefs.perm {lf' : List (Fin nfile)} (h : FileRefs t lf) (hp : lf.Perm lf') : FileRefs t lf' :=
  ⟨fun f => by rw [h.ref f, hp.count_eq], h.none_of_zero⟩

theorem InodeRefs.perm {li' : List (Fin ninode)} (h : InodeRefs t li) (hp : li.Perm li') : InodeRefs t li' :=
  ⟨fun s => by rw [h.ref s, hp.count_eq]⟩

/-- Only how often each reference is held locally matters, not in what order. -/
theorem Inv.perm {lf' : List (Fin nfile)} {li' : List (Fin ninode)} (h : Inv t lf li) (hf : lf.Perm lf')
    (hi : li.Perm li') : Inv t lf' li' :=
  ⟨h.slots, h.files.perm hf, h.inodes.perm hi, h.pipes⟩

/-- A file held locally is open. -/
theorem FileRefs.pos_of_mem {f : Fin nfile} (h : FileRefs t lf) (hf : f ∈ lf) : 0 < (t.file f).ref := by
  have := List.count_pos_iff.mpr hf
  rw [h.ref f]
  omega

end Congr

/-! ### What the operations compute -/

section Specs

variable {p c : Fin nproc} {f : Fin nfile} {fd : Fin nofile} {s : Fin ninode} {inum : ℕ}

/-- `iget` adds a reference to a slot, whether it found the inode there or
recycled the slot for it. -/
theorem iget_spec (h : t.iget inum = some (s, t')) : t' = t.setIcache s ⟨inum, (t.icache s).ref + 1⟩ := by
  unfold iget at h
  split at h
  · rename_i s₀ hs₀
    have hfound : 0 < (t.icache s₀).ref ∧ (t.icache s₀).inum = inum := by simpa using List.find?_some hs₀
    simp only [Option.some.injEq, Prod.mk.injEq] at h
    obtain ⟨rfl, rfl⟩ := h
    rw [← hfound.2]
  · split at h
    · cases h
    · rename_i s₀ hs₀
      have hzero : (t.icache s₀).ref = 0 := by simpa using List.find?_some hs₀
      simp only [Option.some.injEq, Prod.mk.injEq] at h
      obtain ⟨rfl, rfl⟩ := h
      rw [hzero, zero_add]

theorem filealloc_none (h : t.filealloc = (none, t')) : t' = t := by
  unfold filealloc at h
  split at h
  · exact (Prod.mk.inj h).2.symm
  · cases h

theorem filealloc_some (h : t.filealloc = (some f, t')) :
    (t.file f).ref = 0 ∧ t' = t.setFile f { t.file f with ref := 1 } := by
  unfold filealloc at h
  split at h
  · cases h
  · rename_i f₀ hf₀
    simp only [Prod.mk.injEq, Option.some.injEq] at h
    obtain ⟨rfl, rfl⟩ := h
    exact ⟨by simpa using List.find?_some hf₀, rfl⟩

theorem fdalloc_none (h : t.fdalloc p f = (none, t')) : t' = t := by
  unfold fdalloc at h
  split at h
  · exact (Prod.mk.inj h).2.symm
  · cases h

theorem fdalloc_some (h : t.fdalloc p f = (some fd, t')) :
    t.ofile p fd = none ∧ t' = t.setOfile p fd (some f) := by
  unfold fdalloc at h
  split at h
  · cases h
  · rename_i fd₀ hfd₀
    simp only [Prod.mk.injEq, Option.some.injEq] at h
    obtain ⟨rfl, rfl⟩ := h
    exact ⟨by simpa using List.find?_some hfd₀, rfl⟩

theorem filedup_some (h : t.filedup f = some t') :
    0 < (t.file f).ref ∧ t' = t.setFile f { t.file f with ref := (t.file f).ref + 1 } := by
  unfold filedup at h
  split at h
  · cases h
  · exact ⟨by omega, (Option.some.inj h).symm⟩

theorem argfd_some {i : Fin nofile} {n : ℤ} (h : t.argfd p n = some (i, f)) : t.ofile p i = some f := by
  unfold argfd at h
  split at h
  · obtain ⟨f₀, hf₀, he⟩ := Option.map_eq_some_iff.mp h
    obtain ⟨rfl, rfl⟩ := Prod.mk.inj he
    exact hf₀
  · cases h

theorem firstFree_some (h : t.firstFree = some c) : t.use c = .free := by
  simpa using List.find?_some h

theorem pipeclose_some {pg : ℕ} {w : Bool} (h : t.pipeclose pg w = some t') :
    ∃ ps, t.pipe pg = some ps ∧ t' = t.setPipe pg
      (if !(ps.closeEnd w).readopen && !(ps.closeEnd w).writeopen then none else some (ps.closeEnd w)) := by
  obtain ⟨ps, hps, rfl⟩ := Option.map_eq_some_iff.mp h
  exact ⟨ps, hps, rfl⟩

/-- `fileclose` reads and writes no descriptor, slot or working directory. -/
theorem fileclose_setOfile {p : Fin nproc} {fd : Fin nofile} {f : Fin nfile} (v : Option (Fin nfile)) :
    (t.setOfile p fd v).fileclose f = (t.fileclose f).map (·.setOfile p fd v) := by
  unfold fileclose
  simp only [setOfile_file]
  split_ifs
  · rfl
  · rfl
  · cases (t.file f).type with
    | pipe =>
      unfold pipeclose
      simp only [setFile_pipe, setOfile_pipe, Option.map_map]
      rfl
    | inode => rfl
    | none => rfl

theorem filedup_setOfile {p : Fin nproc} {fd : Fin nofile} {f : Fin nfile} (v : Option (Fin nfile)) :
    (t.setOfile p fd v).filedup f = (t.filedup f).map (·.setOfile p fd v) := by
  unfold filedup
  simp only [setOfile_file]
  split_ifs <;> rfl

theorem fileclose_frame {f : Fin nfile} (h : t.fileclose f = some t') :
    t'.use = t.use ∧ t'.ofile = t.ofile ∧ t'.cwd = t.cwd := by
  unfold fileclose at h
  dsimp only at h
  split_ifs at h
  · cases h
    exact ⟨rfl, rfl, rfl⟩
  · split at h
    · obtain ⟨ps, -, rfl⟩ := pipeclose_some h
      exact ⟨rfl, rfl, rfl⟩
    · cases h
      exact ⟨rfl, rfl, rfl⟩
    · cases h
      exact ⟨rfl, rfl, rfl⟩

end Specs

/-! ### Moving references between the tables and the locals -/

section Ops

variable {lf lf' : List (Fin nfile)} {li li' : List (Fin ninode)} {p : Fin nproc} {f : Fin nfile}
  {fd : Fin nofile} {s : Fin ninode}

/-- One cache entry changes by the change of the local references to it. -/
theorem InodeRefs.setIcache {e : CacheInode} (h : InodeRefs t li)
    (he : e.ref + li.count s = (t.icache s).ref + li'.count s) (hother : ∀ s', s' ≠ s → li'.count s' = li.count s') :
    InodeRefs (t.setIcache s e) li' := by
  refine ⟨fun s' => ?_⟩
  rw [openOn_setIcache, cwdOn_setIcache, setIcache_icache]
  by_cases hs : s' = s
  · subst hs
    rw [Function.update_self]
    have := h.ref s'
    push_cast at this ⊢
    omega
  · rw [Function.update_of_ne hs, h.ref s', hother s' hs]

theorem Inv.setIcache {e : CacheInode} (hk : Inv t lf li) (hi : InodeRefs (t.setIcache s e) li') :
    Inv (t.setIcache s e) lf li' :=
  ⟨hk.slots.congr rfl rfl rfl, hk.files.congr rfl rfl, hi, hk.pipes.congr (ends_congr rfl) rfl⟩

/-- `iget` hands the caller a reference. -/
theorem Inv.iget {inum : ℕ} (hk : Inv t lf li) (h : t.iget inum = some (s, t')) : Inv t' lf (s :: li) := by
  rw [iget_spec h]
  refine hk.setIcache (hk.inodes.setIcache ?_ fun s' hs' => List.count_cons_of_ne (Ne.symm hs'))
  rw [List.count_cons_self]
  push_cast
  ring

theorem Inv.idup (hk : Inv t lf li) : Inv (t.idup s) lf (s :: li) := by
  refine hk.setIcache (hk.inodes.setIcache ?_ fun s' hs' => List.count_cons_of_ne (Ne.symm hs'))
  rw [List.count_cons_self]
  push_cast
  ring

/-- `iput` gives a local reference back. -/
theorem Inv.iput (hk : Inv t lf (s :: li)) : Inv (t.iput s) lf li := by
  refine hk.setIcache (hk.inodes.setIcache ?_ fun s' hs' => (List.count_cons_of_ne (Ne.symm hs')).symm)
  rw [List.count_cons_self]
  push_cast
  ring

/-- One file entry changes by the change of the local references to it. -/
theorem FileRefs.setFile {fl : OpenFile} (h : FileRefs t lf)
    (hr : fl.ref + lf.count f = (t.file f).ref + lf'.count f) (hother : ∀ g, g ≠ f → lf'.count g = lf.count g)
    (hz : fl.ref = 0 → fl.type = .none) : FileRefs (t.setFile f fl) lf' := by
  refine ⟨fun g => ?_, fun g => ?_⟩
  · rw [holders_setFile, setFile_file]
    by_cases hg : g = f
    · subst hg
      rw [Function.update_self]
      have := h.ref g
      omega
    · rw [Function.update_of_ne hg, h.ref g, hother g hg]
  · rw [setFile_file]
    by_cases hg : g = f
    · subst hg
      rw [Function.update_self]
      exact hz
    · rw [Function.update_of_ne hg]
      exact h.none_of_zero g

/-- A file entry whose references to inodes and pipes stay as they were. -/
theorem Inv.setFile {fl : OpenFile} (hk : Inv t lf li) (hf : FileRefs (t.setFile f fl) lf')
    (hi : fl.inodeRef = (t.file f).inodeRef) (hp : ∀ w, fl.pipeEnd w = (t.file f).pipeEnd w) :
    Inv (t.setFile f fl) lf' li := by
  refine ⟨hk.slots.congr rfl rfl rfl, hf, ⟨fun s => ?_⟩, hk.pipes.congr (ends_setFile_of_eq hp) rfl⟩
  rw [openOn_setFile_of_eq hi, cwdOn_setFile]
  exact hk.inodes.ref s

/-- `filealloc` hands the caller a fresh `FD_NONE` file. -/
theorem Inv.filealloc (hk : Inv t lf li) (h : t.filealloc = (some f, t')) :
    Inv t' (f :: lf) li ∧ (t'.file f).type = .none := by
  obtain ⟨hz, rfl⟩ := filealloc_some h
  have htype := hk.files.none_of_zero f hz
  have hnone : ({ t.file f with ref := 1 } : OpenFile).type = .none := htype
  refine ⟨hk.setFile (hk.files.setFile ?_ (fun g hg => List.count_cons_of_ne (Ne.symm hg)) (by simp)) ?_ ?_, ?_⟩
  · rw [hz, List.count_cons_self]
    dsimp only
    omega
  · rw [OpenFile.inodeRef_of_type (by rw [hnone]; simp), OpenFile.inodeRef_of_ref hz]
  · intro w
    rw [OpenFile.pipeEnd_of_type (by rw [hnone]; simp), OpenFile.pipeEnd_of_ref hz]
  · simpa using hnone

/-- `filedup` hands the caller one more reference to an open file. -/
theorem Inv.filedup (hk : Inv t lf li) (h : t.filedup f = some t') : Inv t' (f :: lf) li := by
  obtain ⟨hpos, rfl⟩ := filedup_some h
  refine hk.setFile (hk.files.setFile ?_ (fun g hg => List.count_cons_of_ne (Ne.symm hg)) (by simp))
    (OpenFile.inodeRef_ref (by omega) hpos) (OpenFile.pipeEnd_ref (by omega) hpos)
  rw [List.count_cons_self]
  dsimp only
  omega

/-- A change confined to slot `p`, which afterwards holds nothing if it is free
or exited. -/
theorem SlotsOk.update (h : SlotsOk t) (hu : ∀ q, q ≠ p → t'.use q = t.use q)
    (ho : ∀ q, q ≠ p → t'.ofile q = t.ofile q) (hc : ∀ q, q ≠ p → t'.cwd q = t.cwd q)
    (hp : t'.use p = .free ∨ t'.use p = .zombie → (∀ fd, t'.ofile p fd = none) ∧ t'.cwd p = none) : SlotsOk t' := by
  refine ⟨fun q fd hq => ?_, fun q hq => ?_⟩
  · by_cases hqp : q = p
    · subst hqp
      exact (hp hq).1 fd
    · rw [ho q hqp]
      exact h.ofile q fd (hu q hqp ▸ hq)
  · by_cases hqp : q = p
    · subst hqp
      exact (hp hq).2
    · rw [hc q hqp]
      exact h.cwd q (hu q hqp ▸ hq)

theorem SlotsOk.setOfile_none {fd : Fin nofile} (h : SlotsOk t) : SlotsOk (t.setOfile p fd none) := by
  refine h.update (fun _ _ => rfl) (fun q hq => Function.update_of_ne hq _ _) (fun _ _ => rfl)
    fun hidle => ⟨fun g => ?_, h.cwd p hidle⟩
  rw [setOfile_ofile, Function.update_self, Function.update_apply]
  split_ifs
  · rfl
  · exact h.ofile p g hidle

/-- A descriptor may be set in a slot a process or a child being built holds. -/
theorem SlotsOk.setOfile_of_busy {fd : Fin nofile} {v : Option (Fin nfile)} (h : SlotsOk t)
    (hp : t.use p = .embryo ∨ t.use p = .live) : SlotsOk (t.setOfile p fd v) := by
  refine h.update (fun _ _ => rfl) (fun q hq => Function.update_of_ne hq _ _) (fun _ _ => rfl) fun hidle => ?_
  have hidle' : t.use p = .free ∨ t.use p = .zombie := hidle
  rcases hp with hp | hp <;> rcases hidle' with h' | h' <;> rw [hp] at h' <;> cases h'

/-- A descriptor takes over a local reference. -/
theorem FileRefs.setOfile_put (h : FileRefs t (f :: lf)) (hn : t.ofile p fd = none) :
    FileRefs (t.setOfile p fd (some f)) lf := by
  refine ⟨fun g => ?_, h.none_of_zero⟩
  have hh := holders_setOfile (t := t) p fd (some f) g
  have hr := h.ref g
  rw [hn] at hh
  show (t.file g).ref = _
  by_cases hg : f = g
  · subst hg
    simp only [reduceCtorEq, if_false, if_true, List.count_cons_self] at hh hr
    omega
  · simp only [reduceCtorEq, if_false, Option.some.injEq, hg, List.count_cons_of_ne hg] at hh hr
    omega

/-- A cleared descriptor hands its reference to the caller. -/
theorem FileRefs.setOfile_take (h : FileRefs t lf) (hs : t.ofile p fd = some f) :
    FileRefs (t.setOfile p fd none) (f :: lf) := by
  refine ⟨fun g => ?_, h.none_of_zero⟩
  have hh := holders_setOfile (t := t) p fd none g
  have hr := h.ref g
  rw [hs] at hh
  show (t.file g).ref = _
  by_cases hg : f = g
  · subst hg
    simp only [reduceCtorEq, if_false, if_true, List.count_cons_self] at hh ⊢
    omega
  · simp only [reduceCtorEq, if_false, Option.some.injEq, hg, List.count_cons_of_ne hg] at hh ⊢
    omega

theorem Inv.putOfile (hk : Inv t (f :: lf) li) (hn : t.ofile p fd = none)
    (hp : t.use p = .embryo ∨ t.use p = .live) : Inv (t.setOfile p fd (some f)) lf li :=
  ⟨hk.slots.setOfile_of_busy hp, hk.files.setOfile_put hn, hk.inodes.congr rfl rfl rfl,
    hk.pipes.congr (ends_congr rfl) rfl⟩

theorem Inv.takeOfile (hk : Inv t lf li) (hs : t.ofile p fd = some f) : Inv (t.setOfile p fd none) (f :: lf) li :=
  ⟨hk.slots.setOfile_none, hk.files.setOfile_take hs, hk.inodes.congr rfl rfl rfl,
    hk.pipes.congr (ends_congr rfl) rfl⟩

/-- `fdalloc` stores a local reference in a descriptor of a process. -/
theorem Inv.fdalloc (hk : Inv t (f :: lf) li) (hp : t.use p = .live) (h : t.fdalloc p f = (some fd, t')) :
    Inv t' lf li := by
  obtain ⟨hn, rfl⟩ := fdalloc_some h
  exact hk.putOfile hn (.inr hp)

/-- A file entry changes what it holds on the inodes by the change of the local
references to them. -/
theorem InodeRefs.setFile {fl : OpenFile} (h : InodeRefs t li)
    (hli : ∀ s, li'.count s + (if fl.inodeRef = some s then 1 else 0) =
      li.count s + (if (t.file f).inodeRef = some s then 1 else 0)) :
    InodeRefs (t.setFile f fl) li' := by
  refine ⟨fun s => ?_⟩
  have ho := openOn_setFile (t := t) f fl s
  have hl := hli s
  rw [setFile_icache, cwdOn_setFile, h.ref s]
  push_cast
  omega

/-- The last reference to end `w` of a pipe goes, then `pipeclose` clears its flag
and frees the page once both ends are closed. -/
theorem PipesOk.closeEnd {fl : OpenFile} {w : Bool} {pg : ℕ} (h : PipesOk t)
    (hold : (t.file f).pipeEnd w = some pg) (hnew : ∀ w', fl.pipeEnd w' = none)
    (hc : (t.setFile f fl).pipeclose pg w = some t') : PipesOk t' := by
  -- only the end `w` of `pg` changes, and it was open in `f` alone
  have hone : ends t w pg = 1 := le_antisymm (h.ends_le w pg) (count_pos_iff.mpr ⟨f, hold⟩)
  have hend : ∀ w' q, ends (t.setFile f fl) w' q = if w' = w ∧ q = pg then 0 else ends t w' q := by
    intro w' q
    have he := ends_setFile (t := t) f fl w' q
    simp only [hnew w', reduceCtorEq, if_false, add_zero] at he
    by_cases hq : w' = w ∧ q = pg
    · obtain ⟨rfl, rfl⟩ := hq
      rw [hold, if_pos rfl] at he
      rw [if_pos ⟨rfl, rfl⟩]
      omega
    · have hother : (t.file f).pipeEnd w' ≠ some q := fun h' => hq (OpenFile.pipeEnd_inj hold h')
      rw [if_neg hother] at he
      rw [if_neg hq]
      omega
  obtain ⟨ps, hps, rfl⟩ := pipeclose_some hc
  replace hps : t.pipe pg = some ps := hps
  have hpage := h.page pg
  rw [hps] at hpage
  refine h.update pg (fun q hq => ?_) (fun w' q hq => ?_) ?_ (fun w' => ?_)
  · rw [setPipe_pipe, Function.update_of_ne hq]
    rfl
  · rw [ends_setPipe, hend, if_neg (fun h' => hq h'.2)]
  · -- the page itself: the other end decides whether it stays a pipe
    have hpg : (fun w' => ends (t.setFile f fl) w' pg) = fun w' => if w' = w then 0 else ends t w' pg :=
      funext fun w' => by simp only [hend, and_true]
    rw [setPipe_pipe, Function.update_self, ends_setPipe, hpg]
    exact hpage.closeEnd
  · rw [ends_setPipe, hend]
    split_ifs
    · omega
    · exact h.ends_le w' pg

/-- `fileclose` gives a local reference back: the last one clears the entry, and
puts back its inode or closes its end of the pipe. -/
theorem Inv.fileclose (hk : Inv t (f :: lf) li) (h : t.fileclose f = some t') : Inv t' lf li := by
  have hpos : 0 < (t.file f).ref := hk.files.pos_of_mem List.mem_cons_self
  unfold Files.fileclose at h
  dsimp only at h
  rw [if_neg (by omega)] at h
  split_ifs at h with hmore
  · -- other references remain
    cases h
    refine hk.setFile (hk.files.setFile ?_ (fun g hg => (List.count_cons_of_ne (Ne.symm hg)).symm) ?_)
      (OpenFile.inodeRef_ref (by omega) hpos) (OpenFile.pipeEnd_ref (by omega) hpos)
    · rw [List.count_cons_self]
      dsimp only
      omega
    · intro hz
      dsimp only at hz
      omega
  · -- the last reference: the entry becomes `FD_NONE`, then the type decides
    have hlast : (t.file f).ref = 1 := by omega
    obtain ⟨fl, hfl⟩ : ∃ fl : OpenFile, fl = { t.file f with ref := 0, type := .none } := ⟨_, rfl⟩
    have hfl₀ : fl.ref = 0 := by rw [hfl]
    have hf₁ : FileRefs (t.setFile f fl) lf :=
      hk.files.setFile (by rw [hfl₀, hlast, List.count_cons_self]; omega)
        (fun g hg => (List.count_cons_of_ne (Ne.symm hg)).symm) (fun _ => by rw [hfl])
    have hs₁ : SlotsOk (t.setFile f fl) := hk.slots.congr rfl rfl rfl
    have hino : fl.inodeRef = none := OpenFile.inodeRef_of_ref hfl₀
    have hend : ∀ w, fl.pipeEnd w = none := OpenFile.pipeEnd_of_ref hfl₀
    rw [← hfl] at h
    split at h
    · -- `FD_PIPE`: close its end
      rename_i hty
      obtain ⟨ps, -, rfl⟩ := pipeclose_some h
      have hold : (t.file f).pipeEnd (t.file f).writable = some (t.file f).pipe := by
        simp [OpenFile.pipeEnd, hpos, hty]
      refine ⟨hs₁.congr rfl rfl rfl, hf₁.congr rfl rfl, ?_, hk.pipes.closeEnd hold hend h⟩
      refine (hk.inodes.setFile fun s => ?_).congr rfl rfl rfl
      rw [hino, OpenFile.inodeRef_of_type (by rw [hty]; simp)]
    · -- `FD_INODE`: put back its inode
      rename_i hty
      cases h
      have hold : (t.file f).inodeRef = some (t.file f).ip := by simp [OpenFile.inodeRef, hpos, hty]
      refine Inv.iput ⟨hs₁, hf₁, hk.inodes.setFile fun s => ?_, hk.pipes.congr (ends_setFile_of_eq ?_) rfl⟩
      · rw [hino, hold]
        by_cases hs : (t.file f).ip = s
        · subst hs
          simp [List.count_cons_self]
        · simp [hs, List.count_cons_of_ne hs]
      · intro w
        rw [hend, OpenFile.pipeEnd_of_type (by rw [hty]; simp)]
    · -- `FD_NONE`: nothing else to give back
      rename_i hty
      cases h
      refine ⟨hs₁, hf₁, hk.inodes.setFile fun s => ?_, hk.pipes.congr (ends_setFile_of_eq fun w => ?_) rfl⟩
      · rw [hino, OpenFile.inodeRef_of_type (by rw [hty]; simp)]
      · rw [hend, OpenFile.pipeEnd_of_type (by rw [hty]; simp)]

/-- The last step of `sys_open`: the fresh file becomes an `FD_INODE` file and
takes over the caller's reference to the inode. -/
theorem Inv.openInode {r w : Bool} (hk : Inv t lf (s :: li)) (htype : (t.file f).type = .none)
    (hpos : 0 < (t.file f).ref) :
    Inv (t.setFile f { t.file f with type := .inode, ip := s, readable := r, writable := w }) lf li := by
  have hold : (t.file f).inodeRef = none := OpenFile.inodeRef_of_type (by rw [htype]; simp)
  refine ⟨hk.slots.congr rfl rfl rfl, hk.files.setFile rfl (fun _ _ => rfl) (fun hz => absurd hz (by simpa using hpos.ne')),
    hk.inodes.setFile fun s' => ?_, hk.pipes.congr (ends_setFile_of_eq fun w' => ?_) rfl⟩
  · have hnew : ({ t.file f with type := .inode, ip := s, readable := r, writable := w } : OpenFile).inodeRef = some s := by
      simp [OpenFile.inodeRef, hpos]
    rw [hnew, hold]
    by_cases hs : s = s'
    · subst hs
      simp [List.count_cons_self]
    · simp [hs, List.count_cons_of_ne hs]
  · rw [OpenFile.pipeEnd_of_type (by simp), OpenFile.pipeEnd_of_type (by rw [htype]; simp)]

/-- The last step of `pipealloc`: two fresh files become the read and the write end
of a new pipe on a page that was none. -/
theorem Inv.makePipe {f0 f1 : Fin nfile} {fl0 fl1 : OpenFile} {pg : ℕ} (hk : Inv t lf li) (hne : f0 ≠ f1)
    (hfree : t.pipe pg = none) (h0 : (t.file f0).type = .none) (h1 : (t.file f1).type = .none)
    (hr0 : fl0.ref = (t.file f0).ref) (hr1 : fl1.ref = (t.file f1).ref) (hpos0 : 0 < fl0.ref) (hpos1 : 0 < fl1.ref)
    (hi0 : fl0.inodeRef = none) (hi1 : fl1.inodeRef = none)
    (he0 : ∀ w, fl0.pipeEnd w = if w then none else some pg) (he1 : ∀ w, fl1.pipeEnd w = if w then some pg else none) :
    Inv (((t.setPipe pg (some ⟨true, true⟩)).setFile f0 fl0).setFile f1 fl1) lf li := by
  set t₁ := t.setPipe pg (some ⟨true, true⟩)
  have hfile₁ : t₁.file = t.file := rfl
  have hf1 : (t₁.setFile f0 fl0).file f1 = t.file f1 := by
    rw [setFile_file, Function.update_of_ne (Ne.symm hne), hfile₁]
  have hnone : ∀ g, (t.file g).type = .none → (t.file g).inodeRef = none ∧ ∀ w, (t.file g).pipeEnd w = none :=
    fun g hg => ⟨OpenFile.inodeRef_of_type (by rw [hg]; simp), OpenFile.pipeEnd_of_type (by rw [hg]; simp)⟩
  -- each end of `pg` gains one file; no other count changes
  have hends : ∀ w q, ends ((t₁.setFile f0 fl0).setFile f1 fl1) w q = ends t w q + if pg = q then 1 else 0 := by
    intro w q
    have e1 := ends_setFile (t := t₁.setFile f0 fl0) f1 fl1 w q
    have e0 := ends_setFile (t := t₁) f0 fl0 w q
    rw [hf1, (hnone f1 h1).2 w, he1 w] at e1
    rw [hfile₁, (hnone f0 h0).2 w, he0 w] at e0
    rw [show ends t₁ = ends t from rfl] at e0
    cases w <;> simp only [Bool.false_eq_true, if_false, if_true, reduceCtorEq, Option.some.injEq] at e0 e1 ⊢ <;> omega
  have hzero := hk.pipes.ends_eq_zero hfree
  refine ⟨hk.slots.congr rfl rfl rfl, ?_, ?_, ?_⟩
  · have hf₁ : FileRefs t₁ lf := hk.files.congr rfl rfl
    have hf₂ : FileRefs (t₁.setFile f0 fl0) lf := hf₁.setFile (by rw [hr0, hfile₁]) (fun _ _ => rfl) (fun hz => by omega)
    exact hf₂.setFile (by rw [hr1, hf1]) (fun _ _ => rfl) (fun hz => by omega)
  · have hi₁ : InodeRefs t₁ li := hk.inodes.congr rfl rfl rfl
    have hi₂ : InodeRefs (t₁.setFile f0 fl0) li := hi₁.setFile fun s => by rw [hi0, hfile₁, (hnone f0 h0).1]
    exact hi₂.setFile fun s => by rw [hi1, hf1, (hnone f1 h1).1]
  · refine hk.pipes.update pg (fun q hq => ?_) (fun w q hq => ?_) ?_ (fun w => ?_)
    · show Function.update t.pipe pg _ q = t.pipe q
      rw [Function.update_of_ne hq]
    · rw [hends, if_neg (Ne.symm hq), add_zero]
    · show PageOk (Function.update t.pipe pg _ pg) _
      rw [Function.update_self]
      refine ⟨fun w => ?_, .inl rfl⟩
      dsimp only
      rw [hends, if_pos rfl, hzero]
      cases w <;> simp
    · rw [hends, if_pos rfl, hzero]

/-- `pipealloc` hands the caller the two ends of a new pipe, or gives back what
it took; it changes no slot. -/
theorem Inv.pipealloc {page : Option ℕ} {r : Option (Fin nfile × Fin nfile)} (hk : Inv t lf li)
    (hfree : ∀ pg, page = some pg → t.pipe pg = none) (h : t.pipealloc page = some (r, t')) :
    t'.use = t.use ∧ ((r = none ∧ Inv t' lf li) ∨ ∃ f0 f1, r = some (f0, f1) ∧ Inv t' (f0 :: f1 :: lf) li) := by
  unfold Files.pipealloc at h
  split at h
  · rename_i t₁ ha
    obtain ⟨rfl, rfl⟩ := Prod.mk.inj (Option.some.inj h)
    rw [filealloc_none ha]
    exact ⟨rfl, .inl ⟨rfl, hk⟩⟩
  · rename_i f0 t₁ ha
    obtain ⟨hk₁, hty₀⟩ := hk.filealloc ha
    have hu₁ : t₁.use = t.use := by rw [(filealloc_some ha).2]; rfl
    split at h
    · rename_i t₂ hb
      rw [filealloc_none hb] at h
      obtain ⟨t₃, hc, he⟩ := Option.map_eq_some_iff.mp h
      obtain ⟨rfl, rfl⟩ := Prod.mk.inj he.symm
      exact ⟨(fileclose_frame hc).1.trans hu₁, .inl ⟨rfl, hk₁.fileclose hc⟩⟩
    · rename_i f1 t₂ hb
      obtain ⟨hk₂, hty₁⟩ := hk₁.filealloc hb
      have hu₂ : t₂.use = t.use := by rw [(filealloc_some hb).2]; exact hu₁
      have hne : f0 ≠ f1 := by
        rintro rfl
        have := hk₁.files.pos_of_mem List.mem_cons_self
        rw [(filealloc_some hb).1] at this
        exact absurd this (lt_irrefl 0)
      have hty₀' : (t₂.file f0).type = .none := by
        rw [(filealloc_some hb).2, setFile_file, Function.update_of_ne hne]
        exact hty₀
      have hk₂' := hk₂.perm (List.Perm.swap f0 f1 lf) (List.Perm.refl li)
      have hpipe₂ : t₂.pipe = t.pipe := by rw [(filealloc_some hb).2, (filealloc_some ha).2]; rfl
      split at h
      · -- no page for the pipe: both files are closed again
        obtain ⟨t₃, hc, he⟩ := Option.map_eq_some_iff.mp h
        obtain ⟨t₄, hc₀, hc₁⟩ := Option.bind_eq_some_iff.mp hc
        obtain ⟨rfl, rfl⟩ := Prod.mk.inj he.symm
        exact ⟨(fileclose_frame hc₁).1.trans ((fileclose_frame hc₀).1.trans hu₂),
          .inl ⟨rfl, (hk₂'.fileclose hc₀).fileclose hc₁⟩⟩
      · rename_i pg
        obtain ⟨rfl, rfl⟩ := Prod.mk.inj (Option.some.inj h)
        -- the second entry is read after the first was written
        have hf1 : ∀ fl0 : OpenFile, ((t₂.setPipe pg (some ⟨true, true⟩)).setFile f0 fl0).file f1 = t₂.file f1 :=
          fun fl0 => by rw [setFile_file, Function.update_of_ne (Ne.symm hne)]; rfl
        have hpos0 := hk₂'.files.pos_of_mem List.mem_cons_self
        have hpos1 := hk₂'.files.pos_of_mem (List.mem_cons_of_mem _ List.mem_cons_self)
        refine ⟨hu₂, .inr ⟨f0, f1, rfl, hk₂'.makePipe hne (hpipe₂ ▸ hfree pg rfl) hty₀' hty₁ rfl ?_ hpos0 ?_ ?_ ?_ ?_ ?_⟩⟩
        · rw [hf1]
        · dsimp only
          rw [hf1]
          exact hpos1
        · exact OpenFile.inodeRef_of_type (by simp)
        · exact OpenFile.inodeRef_of_type (by simp)
        · intro w
          cases w <;> simp [OpenFile.pipeEnd, hpos0]
        · intro w
          cases w <;> simp [OpenFile.pipeEnd, hf1, hpos1]

/-- A slot changes its use; it must be empty to become free or exited. -/
theorem Inv.setUse {u : SlotUse} (hk : Inv t lf li)
    (hu : u = .free ∨ u = .zombie → (∀ fd, t.ofile p fd = none) ∧ t.cwd p = none) : Inv (t.setUse p u) lf li :=
  ⟨hk.slots.update (fun q hq => Function.update_of_ne hq _ _) (fun _ _ => rfl) (fun _ _ => rfl) (by simpa using hu),
    hk.files.congr rfl rfl, hk.inodes.congr rfl rfl rfl, hk.pipes.congr (ends_congr rfl) rfl⟩

/-- A working directory changes by the change of the local references. -/
theorem InodeRefs.setCwd {v : Option (Fin ninode)} (h : InodeRefs t li)
    (hli : ∀ s, li'.count s + (if v = some s then 1 else 0) = li.count s + (if t.cwd p = some s then 1 else 0)) :
    InodeRefs (t.setCwd p v) li' := by
  refine ⟨fun s => ?_⟩
  have hc := cwdOn_setCwd (t := t) p v s
  have hl := hli s
  rw [setCwd_icache, openOn_setCwd, h.ref s]
  push_cast
  omega

/-- A working directory is set in a slot a process or a child being built holds,
or cleared. -/
theorem Inv.setCwd {v : Option (Fin ninode)} (hk : Inv t lf li) (hi : InodeRefs (t.setCwd p v) li')
    (hp : v = none ∨ t.use p = .embryo ∨ t.use p = .live) : Inv (t.setCwd p v) lf li' := by
  refine ⟨hk.slots.update (p := p) (fun _ _ => rfl) (fun _ _ => rfl) (fun q hq => Function.update_of_ne hq _ _)
    fun hidle => ⟨fun fd => hk.slots.ofile p fd hidle, ?_⟩, hk.files.congr rfl rfl, hi, hk.pipes.congr (ends_congr rfl) rfl⟩
  rw [setCwd_cwd, Function.update_self]
  have hidle' : t.use p = .free ∨ t.use p = .zombie := hidle
  rcases hp with hp | hp | hp
  · exact hp
  all_goals rcases hidle' with h' | h' <;> rw [hp] at h' <;> cases h'

/-- A working directory takes over a local reference: `fork` and `userinit`. -/
theorem Inv.putCwd (hk : Inv t lf (s :: li)) (hn : t.cwd p = none) (hp : t.use p = .embryo ∨ t.use p = .live) :
    Inv (t.setCwd p (some s)) lf li :=
  hk.setCwd (hk.inodes.setCwd fun s' => by by_cases hs : s = s' <;> simp [hn, hs]) (.inr hp)

/-- A cleared working directory hands its reference to the caller: `exit`. -/
theorem Inv.takeCwd (hk : Inv t lf li) (hs : t.cwd p = some s) : Inv (t.setCwd p none) lf (s :: li) :=
  hk.setCwd (hk.inodes.setCwd fun s' => by by_cases h : s = s' <;> simp [hs, h]) (.inl rfl)

/-- A working directory replaced: the new one takes over a local reference, the
old one becomes one: `chdir`. -/
theorem Inv.swapCwd {c : Fin ninode} (hk : Inv t lf (s :: li)) (hc : t.cwd p = some c) (hp : t.use p = .live) :
    Inv (t.setCwd p (some s)) lf (c :: li) :=
  hk.setCwd (hk.inodes.setCwd fun s' => by
    by_cases h₁ : s = s' <;> by_cases h₂ : c = s' <;> simp [hc, h₁, h₂]) (.inr (.inr hp))

end Ops

/-! ### The system calls give every local reference back -/

section Calls

variable {lf : List (Fin nfile)} {li : List (Fin ninode)} {p : Fin nproc} {r : ℤ}

theorem Inv.sysDup {n : ℤ} (hk : Inv t lf li) (hp : t.use p = .live) (h : t.sysDup p n = some (r, t')) :
    Inv t' lf li := by
  unfold Files.sysDup at h
  split at h
  · cases h
    exact hk
  · rename_i i f ha
    split at h
    · rename_i t₁ hb
      cases h
      rw [fdalloc_none hb]
      exact hk
    · -- the descriptor is set first, then `filedup` adds its reference
      rename_i fd t₁ hb
      obtain ⟨hn, rfl⟩ := fdalloc_some hb
      obtain ⟨t₂, hdup, he⟩ := Option.map_eq_some_iff.mp h
      obtain ⟨-, rfl⟩ := Prod.mk.inj he
      rw [filedup_setOfile] at hdup
      obtain ⟨t₀, hdup₀, rfl⟩ := Option.map_eq_some_iff.mp hdup
      have ht₀ := (filedup_some hdup₀).2
      exact (hk.filedup hdup₀).putOfile (by rw [ht₀]; exact hn) (by rw [ht₀]; exact .inr hp)

theorem Inv.sysClose {n : ℤ} (hk : Inv t lf li) (h : t.sysClose p n = some (r, t')) : Inv t' lf li := by
  unfold Files.sysClose at h
  split at h
  · cases h
    exact hk
  · rename_i i f ha
    obtain ⟨t₁, hc, he⟩ := Option.map_eq_some_iff.mp h
    obtain ⟨-, rfl⟩ := Prod.mk.inj he
    exact (hk.takeOfile (argfd_some ha)).fileclose hc

theorem Inv.sysOpen {omode : ℕ} {found : Option (ℕ × Bool)} (hk : Inv t lf li) (hp : t.use p = .live)
    (h : t.sysOpen p omode found = some (r, t')) : Inv t' lf li := by
  unfold Files.sysOpen at h
  split at h
  · cases h
    exact hk
  · rename_i inum isDir
    obtain ⟨⟨ip, t₁⟩, hg, h⟩ := Option.bind_eq_some_iff.mp h
    have hk₁ := hk.iget hg
    have hu₁ : t₁.use = t.use := by rw [iget_spec hg]; rfl
    dsimp only at h
    split_ifs at h with hdir
    · -- a directory opened for writing
      cases h
      exact hk₁.iput
    · split at h
      · rename_i t₂ ha
        cases h
        rw [filealloc_none ha]
        exact hk₁.iput
      · rename_i f t₂ ha
        obtain ⟨hk₂, hty⟩ := hk₁.filealloc ha
        have hu₂ : t₂.use = t.use := by rw [(filealloc_some ha).2]; exact hu₁
        split at h
        · -- no descriptor: the fresh file is closed again
          rename_i t₃ hb
          rw [fdalloc_none hb] at h
          obtain ⟨t₄, hc, he⟩ := Option.map_eq_some_iff.mp h
          obtain ⟨-, rfl⟩ := Prod.mk.inj he
          exact (hk₂.fileclose hc).iput
        · rename_i fd t₃ hb
          cases h
          have hfile : t₃.file = t₂.file := by rw [(fdalloc_some hb).2]; rfl
          have hk₃ := hk₂.fdalloc (by rw [hu₂]; exact hp) hb
          refine hk₃.openInode (by rw [hfile]; exact hty) ?_
          rw [hfile]
          exact hk₂.files.pos_of_mem List.mem_cons_self

theorem Inv.sysPipe {page : Option ℕ} (hk : Inv t lf li) (hp : t.use p = .live)
    (hfree : ∀ pg, page = some pg → t.pipe pg = none) (h : t.sysPipe p page = some (r, t')) : Inv t' lf li := by
  unfold Files.sysPipe at h
  obtain ⟨⟨x, t₁⟩, ha, h⟩ := Option.bind_eq_some_iff.mp h
  obtain ⟨hu₁, ⟨rfl, hk₁⟩ | ⟨f0, f1, rfl, hk₁⟩⟩ := hk.pipealloc hfree ha
  · cases h
    exact hk₁
  · dsimp only at h
    split at h
    · -- no descriptor for the read end: both files are closed again
      rename_i t₂ hb
      rw [fdalloc_none hb] at h
      obtain ⟨t₃, hc, he⟩ := Option.map_eq_some_iff.mp h
      obtain ⟨t₄, hc₀, hc₁⟩ := Option.bind_eq_some_iff.mp hc
      obtain ⟨-, rfl⟩ := Prod.mk.inj he
      exact (hk₁.fileclose hc₀).fileclose hc₁
    · rename_i fd0 t₂ hb
      have hk₂ := hk₁.fdalloc (by rw [hu₁]; exact hp) hb
      obtain ⟨-, ht₂⟩ := fdalloc_some hb
      split at h
      · -- no descriptor for the write end: the read end's is cleared, both closed
        rename_i t₃ hb'
        rw [fdalloc_none hb'] at h
        obtain ⟨t₄, hc, he⟩ := Option.map_eq_some_iff.mp h
        obtain ⟨t₅, hc₀, hc₁⟩ := Option.bind_eq_some_iff.mp hc
        obtain ⟨-, rfl⟩ := Prod.mk.inj he
        have hs : t₂.ofile p fd0 = some f0 := by rw [ht₂]; simp
        exact ((hk₂.takeOfile hs).fileclose hc₀).fileclose hc₁
      · rename_i fd1 t₃ hb'
        cases h
        exact hk₂.fdalloc (by rw [ht₂, setOfile_use, hu₁]; exact hp) hb'

theorem Inv.sysChdir {found : Option (ℕ × Bool)} (hk : Inv t lf li) (hp : t.use p = .live)
    (h : t.sysChdir p found = some (r, t')) : Inv t' lf li := by
  unfold Files.sysChdir at h
  split at h
  · cases h
    exact hk
  · rename_i inum isDir
    obtain ⟨⟨ip, t₁⟩, hg, h⟩ := Option.bind_eq_some_iff.mp h
    have hk₁ := hk.iget hg
    have hu₁ : t₁.use = t.use := by rw [iget_spec hg]; rfl
    dsimp only at h
    split_ifs at h
    · cases h
      exact hk₁.iput
    · obtain ⟨c, hc, he⟩ := Option.map_eq_some_iff.mp h
      obtain ⟨-, rfl⟩ := Prod.mk.inj he
      exact (hk₁.swapCwd hc (by rw [hu₁]; exact hp)).iput

theorem Inv.sysExec {found : Option ℕ} {ok : Bool} (hk : Inv t lf li) (h : t.sysExec found ok = some (r, t')) :
    Inv t' lf li := by
  unfold Files.sysExec at h
  split at h
  · cases h
    exact hk
  · obtain ⟨⟨ip, t₁⟩, hg, he⟩ := Option.map_eq_some_iff.mp h
    obtain ⟨-, rfl⟩ := Prod.mk.inj he
    exact (hk.iget hg).iput

theorem Inv.sysLink {old : Option (ℕ × Bool)} {parent : Option ℕ} {linked : Bool} (hk : Inv t lf li)
    (h : t.sysLink old parent linked = some (r, t')) : Inv t' lf li := by
  unfold Files.sysLink at h
  split at h
  · cases h
    exact hk
  · rename_i inum isDir
    obtain ⟨⟨ip, t₁⟩, hg, h⟩ := Option.bind_eq_some_iff.mp h
    have hk₁ := hk.iget hg
    dsimp only at h
    by_cases hdir : isDir = true
    · rw [if_pos hdir] at h
      cases h
      exact hk₁.iput
    · rw [if_neg hdir] at h
      split at h
      · cases h
        exact hk₁.iput
      · obtain ⟨⟨dp, t₂⟩, hg', he⟩ := Option.map_eq_some_iff.mp h
        obtain ⟨-, rfl⟩ := Prod.mk.inj he
        exact (hk₁.iget hg').iput.iput

end Calls

/-! ### Processes: `fork`, `exit`, `userinit` and `wait` -/

section Procs

variable {lf : List (Fin nfile)} {li : List (Fin ninode)} {p c : Fin nproc}

/-- The loop of `fork`: each descriptor of the child it sets takes the reference
`filedup` just added.  By induction on the descriptors left, whose entries in the
child are still empty. -/
theorem Inv.forkFiles {fds : List (Fin nofile)} (hnd : fds.Nodup) (hk : Inv t lf li) (hc : t.use c = .embryo)
    (hn : ∀ fd ∈ fds, t.ofile c fd = none) (h : forkFiles p c fds t = some t') :
    Inv t' lf li ∧ t'.use = t.use ∧ t'.cwd = t.cwd := by
  induction fds generalizing t with
  | nil =>
    cases h
    exact ⟨hk, rfl, rfl⟩
  | cons fd fds ih =>
    rw [List.nodup_cons] at hnd
    unfold Files.forkFiles at h
    split at h
    · exact ih hnd.2 hk hc (fun g hg => hn g (List.mem_cons_of_mem _ hg)) h
    · rename_i f hf
      obtain ⟨t₁, hdup, h⟩ := Option.bind_eq_some_iff.mp h
      have ht₁ := (filedup_some hdup).2
      have hk₂ := (hk.filedup hdup).putOfile (by rw [ht₁]; exact hn fd List.mem_cons_self) (by rw [ht₁]; exact .inl hc)
      have hn₂ : ∀ g ∈ fds, (t₁.setOfile c fd (some f)).ofile c g = none := fun g hg => by
        have hgfd : g ≠ fd := fun he => hnd.1 (he ▸ hg)
        rw [setOfile_ofile, Function.update_self, Function.update_of_ne hgfd, ht₁]
        exact hn g (List.mem_cons_of_mem _ hg)
      obtain ⟨hk', hu, hcw⟩ := ih hnd.2 hk₂ (by rw [setOfile_use, ht₁]; exact hc) hn₂ h
      rw [hu, hcw, setOfile_use, setOfile_cwd, ht₁]
      exact ⟨hk', rfl, rfl⟩

theorem Inv.fork {ok₁ ok₂ : Bool} (hk : Inv t lf li) (h : t.fork p ok₁ ok₂ = some t') : Inv t' lf li := by
  unfold Files.fork at h
  split at h
  · cases h
    exact hk
  · rename_i c hc
    have hfree := firstFree_some hc
    split_ifs at h
    · cases h
      exact hk
    · obtain ⟨t₁, hf, h⟩ := Option.bind_eq_some_iff.mp h
      obtain ⟨d, -, rfl⟩ := Option.map_eq_some_iff.mp h
      have hk₀ : Inv (t.setUse c .embryo) lf li := hk.setUse (by simp)
      obtain ⟨hk₁, hu, hcw⟩ := hk₀.forkFiles (List.nodup_finRange _) (by simp)
        (fun fd _ => hk.slots.ofile c fd (.inl hfree)) hf
      -- the child takes the reference `idup` adds to the working directory
      have hk₂ := hk₁.idup (s := d) |>.putCwd (p := c)
        (by rw [Files.idup, setIcache_cwd, hcw]; exact hk.slots.cwd c (.inl hfree))
        (by rw [Files.idup, setIcache_use, hu]; simp)
      exact hk₂.setUse (by simp)

/-- The loop of `exit`: each descriptor is cleared and its file closed.  By
induction on the descriptors left; those not left are already empty. -/
theorem Inv.exitFiles {fds : List (Fin nofile)} (hk : Inv t lf li) (hn : ∀ fd, fd ∉ fds → t.ofile p fd = none)
    (h : exitFiles p fds t = some t') : Inv t' lf li ∧ t'.use = t.use ∧ t'.cwd = t.cwd ∧ ∀ fd, t'.ofile p fd = none := by
  induction fds generalizing t with
  | nil =>
    cases h
    exact ⟨hk, rfl, rfl, fun fd => hn fd List.not_mem_nil⟩
  | cons fd fds ih =>
    unfold Files.exitFiles at h
    split at h
    · rename_i hfd
      refine ih hk (fun g hg => ?_) h
      by_cases hgfd : g = fd
      · rw [hgfd]
        exact hfd
      · exact hn g (by simp [hgfd, hg])
    · -- `fileclose` first, then the descriptor cleared: the other order, as the two commute
      rename_i f hfd
      obtain ⟨t₁, hc, h⟩ := Option.bind_eq_some_iff.mp h
      have hc' : (t.setOfile p fd none).fileclose f = some (t₁.setOfile p fd none) := by
        rw [fileclose_setOfile, hc]
        rfl
      obtain ⟨hu₁, ho₁, hcw₁⟩ := fileclose_frame hc
      have hn₁ : ∀ g, g ∉ fds → (t₁.setOfile p fd none).ofile p g = none := fun g hg => by
        rw [setOfile_ofile, Function.update_self, ho₁]
        by_cases hgfd : g = fd
        · rw [hgfd, Function.update_self]
        · rw [Function.update_of_ne hgfd]
          exact hn g (by simp [hgfd, hg])
      obtain ⟨hk', hu, hcw, hno⟩ := ih ((hk.takeOfile hfd).fileclose hc') hn₁ h
      rw [hu, hcw, setOfile_use, setOfile_cwd, hu₁, hcw₁]
      exact ⟨hk', rfl, rfl, hno⟩

theorem Inv.exit (hk : Inv t lf li) (h : t.exit p = some t') : Inv t' lf li := by
  unfold Files.exit at h
  split_ifs at h
  obtain ⟨t₁, hf, h⟩ := Option.bind_eq_some_iff.mp h
  obtain ⟨d, hd, rfl⟩ := Option.map_eq_some_iff.mp h
  obtain ⟨hk₁, -, -, hno⟩ := hk.exitFiles (fun fd hfd => absurd (List.mem_finRange fd) hfd) hf
  -- the working directory's reference is put back before the slot is marked exited
  have hk₂ : Inv ((t₁.iput d).setCwd p none) lf li := (hk₁.takeCwd hd).iput
  exact hk₂.setUse fun _ => ⟨hno, by simp⟩

theorem Inv.userinit (hk : Inv t lf li) (h : t.userinit = some t') : Inv t' lf li := by
  unfold Files.userinit at h
  split at h
  · cases h
  · rename_i i hi
    have hfree := firstFree_some hi
    obtain ⟨⟨ip, t₁⟩, hg, rfl⟩ := Option.map_eq_some_iff.mp h
    have ht₁ := iget_spec hg
    have hk₁ : Inv (t₁.setUse i .live) lf (ip :: li) := (hk.iget hg).setUse (by simp)
    have hk₂ := hk₁.putCwd (p := i) (by rw [setUse_cwd, ht₁]; exact hk.slots.cwd i (.inl hfree)) (by simp)
    exact ⟨hk₂.slots.congr rfl rfl rfl, hk₂.files.congr rfl rfl, hk₂.inodes.congr rfl rfl rfl,
      hk₂.pipes.congr (ends_congr rfl) rfl⟩

end Procs

/-! ### Every call keeps the counts exact -/

theorem boot_inv : Inv boot [] [] := by
  refine ⟨⟨fun _ _ _ => rfl, fun _ _ => rfl⟩, ⟨fun f => ?_, fun _ _ => rfl⟩, ⟨fun s => ?_⟩, ⟨fun pg => ?_, fun w pg => ?_⟩⟩
  · simp [holders, Count.count, boot]
  · simp [openOn, cwdOn, Count.count, boot, OpenFile.inodeRef]
  · intro w
    simp [ends, Count.count, boot, OpenFile.pipeEnd]
  · simp [ends, Count.count, boot, OpenFile.pipeEnd]

/-- A call is made by a process. -/
theorem step_call {p : Fin nproc} {x : Option Files} (h : (if t.use p = .live then x else none) = some t') :
    t.use p = .live ∧ x = some t' := by
  split_ifs at h with hp
  exact ⟨hp, h⟩

theorem Inv.step {e : FileEvent} (hk : Inv t [] []) (h : Step t e t') : Inv t' [] [] := by
  cases e <;> simp only [Files.Step, Files.step] at h
  case userinit =>
    split_ifs at h
    exact hk.userinit h
  case reap c =>
    split_ifs at h with hz
    cases h
    exact hk.setUse fun _ => ⟨fun fd => hk.slots.ofile c fd (.inr hz), hk.slots.cwd c (.inr hz)⟩
  case fork p ok₁ ok₂ =>
    exact hk.fork (step_call h).2
  case exit p =>
    exact hk.exit (step_call h).2
  case dup p fd =>
    obtain ⟨hp, h⟩ := step_call h
    obtain ⟨⟨_, t₁⟩, hcall, rfl⟩ := Option.map_eq_some_iff.mp h
    exact hk.sysDup hp hcall
  case close p fd =>
    obtain ⟨⟨_, t₁⟩, hcall, rfl⟩ := Option.map_eq_some_iff.mp (step_call h).2
    exact hk.sysClose hcall
  case openFile p omode found =>
    obtain ⟨hp, h⟩ := step_call h
    obtain ⟨⟨_, t₁⟩, hcall, rfl⟩ := Option.map_eq_some_iff.mp h
    exact hk.sysOpen hp hcall
  case pipe p page =>
    -- `kalloc` hands out no page a pipe uses
    split_ifs at h with hpg hp
    obtain ⟨⟨_, t₁⟩, hcall, rfl⟩ := Option.map_eq_some_iff.mp h
    refine hk.sysPipe hp (fun pg hpage => ?_) hcall
    by_contra hne
    exact hpg ⟨pg, hpage, hne⟩
  case chdir p found =>
    obtain ⟨hp, h⟩ := step_call h
    obtain ⟨⟨_, t₁⟩, hcall, rfl⟩ := Option.map_eq_some_iff.mp h
    exact hk.sysChdir hp hcall
  case exec p found ok =>
    obtain ⟨⟨_, t₁⟩, hcall, rfl⟩ := Option.map_eq_some_iff.mp (step_call h).2
    exact hk.sysExec hcall
  case link p old parent linked =>
    obtain ⟨⟨_, t₁⟩, hcall, rfl⟩ := Option.map_eq_some_iff.mp (step_call h).2
    exact hk.sysLink hcall

theorem Reachable.inv (h : t.Reachable) : Inv t [] [] := by
  unfold Files.Reachable at h
  exact h.invariant (fun _ hs => hs ▸ boot_inv) fun _ _ _ hk hs => hk.step hs

/-- The counts between system calls. -/
structure Exact (t : Files) : Prop where
  /-- A file's `ref` is the number of descriptors that point to it. -/
  file_ref : ∀ f, (t.file f).ref = holders t f
  /-- A file without references is `FD_NONE`. -/
  file_none : ∀ f, (t.file f).ref = 0 → (t.file f).type = .none
  /-- An inode's `ref` is the number of open `FD_INODE` files on it and of
  processes whose working directory it is. -/
  inode_ref : ∀ s, (t.icache s).ref = openOn t s + cwdOn t s
  /-- A pipe's `readopen` is set exactly when its read file is open ... -/
  readopen : ∀ pg ps, t.pipe pg = some ps → (ps.readopen = true ↔ 0 < ends t false pg)
  /-- ... and its `writeopen` exactly when its write file is. -/
  writeopen : ∀ pg ps, t.pipe pg = some ps → (ps.writeopen = true ↔ 0 < ends t true pg)
  /-- Each end of a pipe is one file. -/
  ends_le : ∀ w pg, ends t w pg ≤ 1
  /-- A page that is a pipe has an open end: it is freed when the last one closes ... -/
  open_end : ∀ pg ps, t.pipe pg = some ps → 0 < ends t false pg ∨ 0 < ends t true pg
  /-- ... and a freed page has none, so no `pipeclose` reaches it again. -/
  freed : ∀ pg, t.pipe pg = none → ends t false pg = 0 ∧ ends t true pg = 0

/-- **The reference counts are exact.**  In every state a sequence of `fork`,
`exit`, `wait`, `dup`, `close`, `open`, `pipe`, `chdir`, `exec` and `link` calls
reaches, with every failure path of each, each file counts its descriptors, each
cached inode its open files and working directories, and each pipe's flags its
open files; a pipe's page is freed exactly when both its files are closed. -/
theorem refcounts_exact {t : Files} (h : t.Reachable) : t.Exact := by
  have hk := h.inv
  have hpage : ∀ pg ps, t.pipe pg = some ps → ∀ w, (ps.isOpen w = true ↔ 0 < ends t w pg) := fun pg ps hps => by
    have := hk.pipes.page pg
    rw [hps] at this
    exact this.1
  refine ⟨fun f => by simpa using hk.files.ref f, hk.files.none_of_zero, fun s => by simpa using hk.inodes.ref s,
    fun pg ps hps => hpage pg ps hps false, fun pg ps hps => hpage pg ps hps true, hk.pipes.ends_le,
    fun pg ps hps => ?_, fun pg hpg => ⟨hk.pipes.ends_eq_zero hpg false, hk.pipes.ends_eq_zero hpg true⟩⟩
  have hopen := hk.pipes.page pg
  rw [hps] at hopen
  rcases hopen.2 with hr | hw
  · exact .inl ((hpage pg ps hps false).mp hr)
  · exact .inr ((hpage pg ps hps true).mp hw)

theorem refcounts_exact_after_pipe :
    ∃ t, run boot [.userinit, .pipe ⟨0, Nat.succ_pos _⟩ (some 0x8000)] = some t ∧ t.Reachable ∧ t.Exact := by
  obtain ⟨t, ht⟩ : ∃ t, run boot [.userinit, .pipe ⟨0, Nat.succ_pos _⟩ (some 0x8000)] = some t :=
    Option.isSome_iff_exists.mp (by decide)
  exact ⟨t, ht, reachable_of_run ht, refcounts_exact (reachable_of_run ht)⟩

end Files

end Xv6
