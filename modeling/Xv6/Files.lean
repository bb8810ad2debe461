import Xv6.Param
import Xv6.Lib.Count
import Xv6.Lib.Run

/-!
# Descriptors, open files, inode references and pipes

Three layers of reference counts meet in `file.c`, `pipe.c` and `sysfile.c`: a
process's descriptors point into the file table `ftable`, whose entries count the
descriptors that point to them; a file of type `FD_INODE`, and each process's
working directory, hold a reference to an entry of the inode cache `icache`; and a
pipe records in `readopen` and `writeopen` whether its two files are still open,
and gives its page back when both are closed.

This file models those counts and the calls that change them: `fork`, `exit`,
`dup`, `close`, `open`, `pipe`, `chdir`, `exec` and `link`, with every failure
path.  Path lookup is not modelled: `namei` and `create` are represented by the
inode number they find (and whether it is a directory), and the references they
take and drop while walking the path balance out before the call returns.

## Main definitions

* `OpenFile`, `CacheInode`, `Pipe`, `SlotUse`, `Files` — the state.
* `Files.filealloc`, `filedup`, `fileclose`, `fdalloc`, `iget`, `iput`, `idup`,
  `pipealloc`, `pipeclose` — the operations of `file.c`, `fs.c` and `pipe.c`.
* `Files.sysDup`, `sysClose`, `sysOpen`, `sysPipe`, `sysChdir`, `sysExec`,
  `sysLink`, `fork`, `exit` — the system calls.
* `FileEvent`, `Files.step`, `Files.Reachable` — the calls as a transition system.
-/

namespace Xv6

/-! ### The state -/

/-- `O_RDONLY`, `O_WRONLY`, `O_RDWR` and `O_CREATE` of `fcntl.h`. -/
def oRdonly : ℕ := 0x000
def oWronly : ℕ := 0x001
def oRdwr : ℕ := 0x002
def oCreate : ℕ := 0x200

/-- `enum { FD_NONE, FD_PIPE, FD_INODE }`. -/
inductive FdType
  | none
  | pipe
  | inode
  deriving DecidableEq, Repr

/-- `struct file`: its type and reference count, its access, the page of its pipe
and the cache slot of its inode.  The offset is not modelled. -/
structure OpenFile where
  type : FdType
  ref : ℕ
  readable : Bool
  writable : Bool
  pipe : ℕ
  ip : Fin ninode
  deriving DecidableEq, Repr

/-- An entry of `icache`: the inode number and the in-memory reference count
(`int ref`), the fields `iget`, `idup` and `iput` use. -/
structure CacheInode where
  inum : ℕ
  ref : ℤ
  deriving DecidableEq, Repr

/-- `struct pipe`: whether each end is open.  The buffer and its counters are not
modelled. -/
structure Pipe where
  readopen : Bool
  writeopen : Bool
  deriving DecidableEq, Repr

/-- What a process slot holds, as descriptors see it: nothing, a child `fork` is
building (`EMBRYO`), a process, or an exited process not yet reaped. -/
inductive SlotUse
  | free
  | embryo
  | live
  | zombie
  deriving DecidableEq, Repr

/-- The process slots with their descriptors (`ofile`) and working directories
(`cwd`, `none` for a null pointer), the file table, the inode cache, and the
pages in use as pipes. -/
structure Files where
  use : Fin nproc → SlotUse
  initproc : Option (Fin nproc)
  ofile : Fin nproc → Fin nofile → Option (Fin nfile)
  cwd : Fin nproc → Option (Fin ninode)
  file : Fin nfile → OpenFile
  icache : Fin ninode → CacheInode
  pipe : ℕ → Option Pipe

namespace Files

/-- The state at boot: every table zeroed. -/
def boot : Files where
  use _ := .free
  initproc := none
  ofile _ _ := none
  cwd _ := none
  file _ := ⟨.none, 0, false, false, 0, ⟨0, by decide⟩⟩
  icache _ := ⟨0, 0⟩
  pipe _ := none

/-! ### Updates -/

variable (t : Files)

@[simps -fullyApplied]
def setFile (f : Fin nfile) (fl : OpenFile) : Files := { t with file := Function.update t.file f fl }

@[simps -fullyApplied]
def setIcache (s : Fin ninode) (e : CacheInode) : Files := { t with icache := Function.update t.icache s e }

@[simps -fullyApplied]
def setOfile (p : Fin nproc) (fd : Fin nofile) (v : Option (Fin nfile)) : Files :=
  { t with ofile := Function.update t.ofile p (Function.update (t.ofile p) fd v) }

@[simps -fullyApplied]
def setCwd (p : Fin nproc) (v : Option (Fin ninode)) : Files := { t with cwd := Function.update t.cwd p v }

@[simps -fullyApplied]
def setUse (p : Fin nproc) (u : SlotUse) : Files := { t with use := Function.update t.use p u }

@[simps -fullyApplied]
def setPipe (pg : ℕ) (v : Option Pipe) : Files := { t with pipe := Function.update t.pipe pg v }

/-! ### The inode cache -/

/-- `iget`: the slot already holding the inode gets one more reference; otherwise
the first slot without references is recycled for it.  `none` for the panic
"iget: no inodes". -/
def iget (inum : ℕ) : Option (Fin ninode × Files) :=
  match (List.finRange ninode).find? fun s => 0 < (t.icache s).ref ∧ (t.icache s).inum = inum with
  | some s => some (s, t.setIcache s { t.icache s with ref := (t.icache s).ref + 1 })
  | none =>
    match (List.finRange ninode).find? fun s => (t.icache s).ref = 0 with
    | none => none
    | some s => some (s, t.setIcache s ⟨inum, 1⟩)

/-- `idup`. -/
def idup (s : Fin ninode) : Files := t.setIcache s { t.icache s with ref := (t.icache s).ref + 1 }

/-- `iput`: one reference less.  Truncating an unlinked inode at its last
reference changes no count and is not modelled. -/
def iput (s : Fin ninode) : Files := t.setIcache s { t.icache s with ref := (t.icache s).ref - 1 }

/-! ### The file table -/

/-- `filealloc`: the first entry without references, now with one. -/
def filealloc : Option (Fin nfile) × Files :=
  match (List.finRange nfile).find? fun f => (t.file f).ref = 0 with
  | none => (none, t)
  | some f => (some f, t.setFile f { t.file f with ref := 1 })

/-- `filedup`; `none` for the panic "filedup". -/
def filedup (f : Fin nfile) : Option Files :=
  if (t.file f).ref < 1 then none else some (t.setFile f { t.file f with ref := (t.file f).ref + 1 })

/-- `pipeclose`: one end closed; the page is freed (`kfree`) once both are.
`none` when the page is no longer a pipe. -/
def pipeclose (pg : ℕ) (writable : Bool) : Option Files :=
  (t.pipe pg).map fun p =>
    let p := if writable then { p with writeopen := false } else { p with readopen := false }
    t.setPipe pg (if !p.readopen && !p.writeopen then none else some p)

/-- `fileclose`: one reference less; the last one makes the entry `FD_NONE` and
closes the pipe end or puts the inode back.  `none` for the panic "fileclose". -/
def fileclose (f : Fin nfile) : Option Files :=
  let fl := t.file f
  if fl.ref < 1 then none
  else if 1 < fl.ref then some (t.setFile f { fl with ref := fl.ref - 1 })
  else
    let t := t.setFile f { fl with ref := 0, type := .none }
    match fl.type with
    | .pipe => t.pipeclose fl.pipe fl.writable
    | .inode => some (t.iput fl.ip)
    | .none => some t

/-- `fdalloc`: the first free descriptor of process `p` now points to `f`. -/
def fdalloc (p : Fin nproc) (f : Fin nfile) : Option (Fin nofile) × Files :=
  match (List.finRange nofile).find? fun fd => t.ofile p fd = none with
  | none => (none, t)
  | some fd => (some fd, t.setOfile p fd (some f))

/-- `argfd`: a descriptor number in range with an open file behind it. -/
def argfd (p : Fin nproc) (fd : ℤ) : Option (Fin nofile × Fin nfile) :=
  if h : 0 ≤ fd ∧ fd < nofile then
    let i : Fin nofile := ⟨fd.toNat, by omega⟩
    (t.ofile p i).map (i, ·)
  else none

/-! ### Pipes -/

/-- `pipealloc` with the page `kalloc` returns (`none` when it fails): two files
and the pipe, or, on failure, the files allocated so far closed again. -/
def pipealloc (page : Option ℕ) : Option (Option (Fin nfile × Fin nfile) × Files) :=
  match t.filealloc with
  | (none, t) => some (none, t)
  | (some f0, t) =>
    match t.filealloc with
    | (none, t) => (t.fileclose f0).map (none, ·)
    | (some f1, t) =>
      match page with
      | none => ((t.fileclose f0).bind fun t => t.fileclose f1).map (none, ·)
      | some pg =>
        let t := t.setPipe pg (some ⟨true, true⟩)
        let t := t.setFile f0 { t.file f0 with type := .pipe, readable := true, writable := false, pipe := pg }
        let t := t.setFile f1 { t.file f1 with type := .pipe, readable := false, writable := true, pipe := pg }
        some (some (f0, f1), t)

/-! ### The system calls -/

/-- `sys_dup`. -/
def sysDup (p : Fin nproc) (fd : ℤ) : Option (ℤ × Files) :=
  match t.argfd p fd with
  | none => some (-1, t)
  | some (_, f) =>
    match t.fdalloc p f with
    | (none, t) => some (-1, t)
    | (some fd', t) => (t.filedup f).map (fd', ·)

/-- `sys_close`. -/
def sysClose (p : Fin nproc) (fd : ℤ) : Option (ℤ × Files) :=
  match t.argfd p fd with
  | none => some (-1, t)
  | some (i, f) => ((t.setOfile p i none).fileclose f).map (0, ·)

/-- `sys_open`, where `found` is the inode `create` or `namei` returns and whether
it is a directory.  A directory is refused by `create`, and by `namei` unless it
is opened read-only. -/
def sysOpen (p : Fin nproc) (omode : ℕ) (found : Option (ℕ × Bool)) : Option (ℤ × Files) :=
  match found with
  | none => some (-1, t)
  | some (inum, isDir) =>
    (t.iget inum).bind fun (ip, t) =>
    if isDir ∧ (omode &&& oCreate ≠ 0 ∨ omode ≠ oRdonly) then some (-1, t.iput ip)
    else
      match t.filealloc with
      | (none, t) => some (-1, t.iput ip)
      | (some f, t) =>
        match t.fdalloc p f with
        -- the fresh entry is still `FD_NONE`: closing it puts nothing back
        | (none, t) => (t.fileclose f).map fun t => (-1, t.iput ip)
        | (some fd, t) =>
          some (fd, t.setFile f { t.file f with
            type := .inode
            ip := ip
            readable := omode &&& oWronly = 0
            writable := omode &&& oWronly ≠ 0 ∨ omode &&& oRdwr ≠ 0 })

/-- `sys_pipe`, with the page `kalloc` returns to `pipealloc`. -/
def sysPipe (p : Fin nproc) (page : Option ℕ) : Option (ℤ × Files) :=
  (t.pipealloc page).bind fun
  | (none, t) => some (-1, t)
  | (some (rf, wf), t) =>
    match t.fdalloc p rf with
    | (none, t) => ((t.fileclose rf).bind fun t => t.fileclose wf).map (-1, ·)
    | (some fd0, t) =>
      match t.fdalloc p wf with
      | (none, t) => (((t.setOfile p fd0 none).fileclose rf).bind fun t => t.fileclose wf).map (-1, ·)
      | (some _, t) => some (0, t)

/-- `sys_chdir`; `none` when the caller has no working directory to put back. -/
def sysChdir (p : Fin nproc) (found : Option (ℕ × Bool)) : Option (ℤ × Files) :=
  match found with
  | none => some (-1, t)
  | some (inum, isDir) =>
    (t.iget inum).bind fun (ip, t) =>
    if !isDir then some (-1, t.iput ip)
    else (t.cwd p).map fun c => (0, (t.iput c).setCwd p (some ip))

/-- What `exec` does to the counts: the program's inode is taken and put back,
whether loading succeeds (`ok`) or not. -/
def sysExec (found : Option ℕ) (ok : Bool) : Option (ℤ × Files) :=
  match found with
  | none => some (-1, t)
  | some inum => (t.iget inum).map fun (ip, t) => (if ok then 0 else -1, t.iput ip)

/-- What `sys_link` does to the counts: the old inode, a non-directory, is taken;
the new parent, when found, is taken and put back; the old inode is put back
whether `dirlink` succeeds (`linked`) or not. -/
def sysLink (old : Option (ℕ × Bool)) (parent : Option ℕ) (linked : Bool) : Option (ℤ × Files) :=
  match old with
  | none => some (-1, t)
  | some (inum, isDir) =>
    (t.iget inum).bind fun (ip, t) =>
    if isDir then some (-1, t.iput ip)
    else
      match parent with
      | none => some (-1, t.iput ip)
      | some dinum =>
        (t.iget dinum).map fun (dp, t) => (if linked then 0 else -1, (t.iput dp).iput ip)

/-- The first free slot: the scan of `allocproc`. -/
def firstFree : Option (Fin nproc) := (List.finRange nproc).find? fun i => t.use i = .free

/-- The loop of `fork` over the parent's descriptors: each open file is
duplicated into the child's descriptor of the same number. -/
def forkFiles (p c : Fin nproc) : List (Fin nofile) → Files → Option Files
  | [], t => some t
  | fd :: fds, t =>
    match t.ofile p fd with
    | none => forkFiles p c fds t
    | some f => (t.filedup f).bind fun t => forkFiles p c fds (t.setOfile c fd (some f))

/-- `fork` by process `p`, with the outcome of the kernel stack and `copyuvm`
allocations: the child shares the parent's open files and working directory. -/
def fork (p : Fin nproc) (kstackOk copyOk : Bool) : Option Files :=
  match t.firstFree with
  | none => some t
  | some c =>
    if !(kstackOk && copyOk) then some t
    else
      ((t.setUse c .embryo).forkFiles p c (List.finRange nofile)).bind fun t =>
      (t.cwd p).map fun d => ((t.idup d).setCwd c (some d)).setUse c .live

/-- The loop of `exit` over the descriptors: each open file is closed and the
descriptor cleared. -/
def exitFiles (p : Fin nproc) : List (Fin nofile) → Files → Option Files
  | [], t => some t
  | fd :: fds, t =>
    match t.ofile p fd with
    | none => exitFiles p fds t
    | some f => (t.fileclose f).bind fun t => exitFiles p fds (t.setOfile p fd none)

/-- `exit`: every file closed, the working directory put back; `none` for the
panic "init exiting". -/
def exit (p : Fin nproc) : Option Files :=
  if t.initproc = some p then none
  else
    (t.exitFiles p (List.finRange nofile)).bind fun t =>
    (t.cwd p).map fun d => ((t.iput d).setCwd p none).setUse p .zombie

/-- `userinit`: the first process, in the first slot, with the root directory as
its working directory. -/
def userinit : Option Files :=
  match t.firstFree with
  | none => none
  | some i =>
    (t.iget rootino).map fun (ip, t) => { (t.setCwd i (some ip)).setUse i .live with initproc := some i }

end Files

/-! ### The transition system -/

/-- The calls of a process that change the counts, with what the model does not
compute: the inode a path names, the outcome of allocations, and for `link`
whether the new name could be entered.  `reap` is the `wait` that frees an
exited process's slot. -/
inductive FileEvent
  | userinit
  | fork (p : Fin nproc) (kstackOk copyOk : Bool)
  | exit (p : Fin nproc)
  | reap (c : Fin nproc)
  | dup (p : Fin nproc) (fd : ℤ)
  | close (p : Fin nproc) (fd : ℤ)
  | openFile (p : Fin nproc) (omode : ℕ) (found : Option (ℕ × Bool))
  | pipe (p : Fin nproc) (page : Option ℕ)
  | chdir (p : Fin nproc) (found : Option (ℕ × Bool))
  | exec (p : Fin nproc) (found : Option ℕ) (ok : Bool)
  | link (p : Fin nproc) (old : Option (ℕ × Bool)) (parent : Option ℕ) (linked : Bool)

namespace Files

/-- One event; `none` when it cannot happen or the kernel panics.  Only a process
makes calls, `userinit` runs once, and `kalloc` hands out a page no pipe uses. -/
def step (t : Files) : FileEvent → Option Files
  | .userinit => if t.initproc = none then t.userinit else none
  | .reap c => if t.use c = .zombie then some (t.setUse c .free) else none
  | e =>
    let call (p : Fin nproc) (r : Option Files) : Option Files := if t.use p = .live then r else none
    match e with
    | .fork p ok₁ ok₂ => call p (t.fork p ok₁ ok₂)
    | .exit p => call p (t.exit p)
    | .dup p fd => call p ((t.sysDup p fd).map (·.2))
    | .close p fd => call p ((t.sysClose p fd).map (·.2))
    | .openFile p omode found => call p ((t.sysOpen p omode found).map (·.2))
    | .pipe p page =>
      if ∃ pg, page = some pg ∧ t.pipe pg ≠ none then none else call p ((t.sysPipe p page).map (·.2))
    | .chdir p found => call p ((t.sysChdir p found).map (·.2))
    | .exec p found ok => call p ((t.sysExec found ok).map (·.2))
    | .link p old parent linked => call p ((t.sysLink old parent linked).map (·.2))
    | _ => none

/-- The step relation. -/
def Step (t : Files) (e : FileEvent) (t' : Files) : Prop := t.step e = some t'

/-- The states some sequence of calls reaches from boot. -/
def Reachable : Files → Prop := Transition.Reachable Step (· = boot)

/-- The calls `es` from `t`, `none` at the first that cannot happen. -/
def run (t : Files) (es : List FileEvent) : Option Files := Transition.runFn step t es

theorem reachable_of_run {es : List FileEvent} {t : Files} (h : run boot es = some t) : Reachable t :=
  ⟨_, es, rfl, Transition.Run.of_runFn h⟩

end Files

end Xv6
