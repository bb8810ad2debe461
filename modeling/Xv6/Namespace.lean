import Xv6.Param

/-!
# The file-system namespace

The part of `fs.c`, `file.c` and `sysfile.c` that maintains names: inodes with
their type, link count and (for a directory) entries, the in-memory reference
counts of the inode cache, the open-file table, and each process's working
directory and descriptors.  Block allocation and file contents are not modelled:
a directory's content is its list of `struct dirent`, in offset order.

A system call returns `none` when the kernel panics, and otherwise the new state
with the call's return value.

## Main definitions

* `Dirent`, `Inode`, `File`, `NProc`, `Ns` — the namespace state.
* `Ns.iget`, `Ns.ilock`, `Ns.iput` — the inode cache.
* `dirlookup`, `Ns.dirlink`, `skipelem`, `Ns.namex` — directories and paths.
* `Ns.create` and the system calls `Ns.sysMkdir` … `Ns.sysExit`.
* `Ns.Named` — the inodes reachable from the root by names other than `.` and `..`.
-/

namespace Xv6

/-! ### The state -/

/-- `struct dirent`; `inum = 0` marks a free slot. -/
structure Dirent where
  inum : ℕ
  name : List Char
  deriving DecidableEq, Repr, Inhabited

/-- `namecmp`: names compare on their first `DIRSIZ` characters. -/
def namecmp (s t : List Char) : Bool := s.take dirsiz == t.take dirsiz

/-- An inode: the on-disk type, link count and directory entries, which the
cache writes through, and the cache's reference count and valid flag. -/
structure Inode where
  type : ℕ
  nlink : ℤ
  ents : List Dirent
  ref : ℕ
  valid : Bool
  deriving DecidableEq, Repr, Inhabited

/-- An entry of the open-file table for an inode (`FD_INODE`); `ref = 0` is a
free entry. -/
structure File where
  ref : ℕ
  ip : ℕ
  readable : Bool
  writable : Bool
  deriving DecidableEq, Repr, Inhabited

/-- A process as the namespace sees it: alive or not, its working directory, and
`ofile`, the file-table index behind each of its `NOFILE` descriptors. -/
structure NProc where
  alive : Bool
  cwd : ℕ
  ofile : List (Option ℕ)
  deriving DecidableEq, Repr, Inhabited

/-- The inodes (indexed by inode number, `sb.ninodes` of them), the file table
(`NFILE` entries) and the processes. -/
structure Ns where
  inodes : List Inode
  files : List File
  procs : List NProc
  deriving DecidableEq, Repr

namespace Ns

def inode (t : Ns) (i : ℕ) : Inode := t.inodes.getD i default

def modInode (t : Ns) (i : ℕ) (f : Inode → Inode) : Ns := { t with inodes := t.inodes.modify i f }

def proc (t : Ns) (p : ℕ) : NProc := t.procs.getD p default

def modProc (t : Ns) (p : ℕ) (f : NProc → NProc) : Ns := { t with procs := t.procs.modify p f }

def file (t : Ns) (k : ℕ) : File := t.files.getD k default

def modFile (t : Ns) (k : ℕ) (f : File → File) : Ns := { t with files := t.files.modify k f }

/-! ### The inode cache -/

/-- `iget`: one more in-memory reference; a fresh cache entry is not valid.
`none` for the panic "iget: no inodes" when all `NINODE` entries are in use. -/
def iget (t : Ns) (i : ℕ) : Option Ns :=
  if 0 < (t.inode i).ref then some (t.modInode i fun ip => { ip with ref := ip.ref + 1 })
  else if ninode ≤ (t.inodes.filter (0 < ·.ref)).length then none
  else some (t.modInode i fun ip => { ip with ref := 1, valid := false })

/-- `ilock`: the inode read from disk; `none` for the panic "ilock: no type". -/
def ilock (t : Ns) (i : ℕ) : Option Ns :=
  if (t.inode i).type = 0 then none else some (t.modInode i fun ip => { ip with valid := true })

/-- `iput`: drop a reference.  The last reference to a valid inode with no
links truncates it and frees it on disk. -/
def iput (t : Ns) (i : ℕ) : Ns :=
  let ip := t.inode i
  let t := if ip.valid ∧ ip.nlink = 0 ∧ ip.ref = 1 then
      t.modInode i fun ip => { ip with type := 0, ents := [], valid := false }
    else t
  t.modInode i fun ip => { ip with ref := ip.ref - 1 }

/-- `ialloc`: the first free inode from 1 on, cleared and given the type, with a
reference; `none` for the panic "ialloc: no inodes". -/
def ialloc (t : Ns) (type : ℕ) : Option (Ns × ℕ) :=
  match (List.range' 1 (t.inodes.length - 1)).find? (fun i => (t.inode i).type = 0) with
  | none => none
  | some i =>
    ((t.modInode i fun ip => { ip with type := type, nlink := 0, ents := [] }).iget i).map (·, i)

end Ns

/-! ### Directories -/

/-- `dirlookup`: the inode number and index of the first used entry with the name. -/
def dirlookup (ents : List Dirent) (name : List Char) : Option (ℕ × ℕ) :=
  (ents.findIdx? fun e => e.inum ≠ 0 ∧ namecmp name e.name).map fun k => ((ents.getD k default).inum, k)

/-- `isdirempty`: no used entry after `.` and `..`. -/
def isdirempty (ents : List Dirent) : Bool := (ents.drop 2).all (·.inum = 0)

/-- The entries after `dirlink` stores `(name, inum)`: in the first free slot,
or appended; `none` when `writei` refuses to grow the directory past `MAXFILE`
blocks. -/
def dirlinkEnts (ents : List Dirent) (name : List Char) (inum : ℕ) : Option (List Dirent) :=
  let de : Dirent := ⟨inum, name.take dirsiz⟩
  match ents.findIdx? (·.inum = 0) with
  | some k => some (ents.set k de)
  | none => if maxfile * bsize < 16 * (ents.length + 1) then none else some (ents ++ [de])

namespace Ns

/-- `dirlink`: `-1` when the name is present (its inode taken and put back);
`none` for the panic of `writei` failing. -/
def dirlink (t : Ns) (dp : ℕ) (name : List Char) (inum : ℕ) : Option (Ns × ℤ) :=
  match dirlookup (t.inode dp).ents name with
  | some (i, _) => (t.iget i).map fun t => (t.iput i, -1)
  | none =>
    (dirlinkEnts (t.inode dp).ents name inum).map fun ents =>
      (t.modInode dp fun ip => { ip with ents := ents }, 0)

/-- A `dirlink` whose failure the caller turns into a panic. -/
def dirlinkOrPanic (t : Ns) (dp : ℕ) (name : List Char) (inum : ℕ) : Option Ns :=
  (t.dirlink dp name inum).bind fun r => if r.2 = 0 then some r.1 else none

end Ns

/-! ### Paths -/

/-- `skipelem`: the next path element, cut to `DIRSIZ` characters, and the rest
of the path with its leading slashes skipped; `none` when no element is left. -/
def skipelem (path : List Char) : Option (List Char × List Char) :=
  match path.dropWhile (· = '/') with
  | [] => none
  | p => some ((p.takeWhile (· ≠ '/')).take dirsiz, (p.dropWhile (· ≠ '/')).dropWhile (· = '/'))

namespace Ns

/-- The loop of `namex` from the referenced inode `ip` along `path`: the state
and the inode reached (with the last element when `parent`, for `nameiparent`),
or no inode when the lookup fails.  `none` for a panic; `fuel` bounds the number
of elements. -/
def namexLoop (parent : Bool) : ℕ → Ns → ℕ → List Char → Option (Ns × Option (ℕ × List Char))
  | 0, _, _, _ => none
  | fuel + 1, t, ip, path =>
    match skipelem path with
    | none => some (if parent then (t.iput ip, none) else (t, some (ip, [])))
    | some (name, rest) =>
      (t.ilock ip).bind fun t =>
        if (t.inode ip).type ≠ tDir then some (t.iput ip, none)
        -- `nameiparent` stops one level early
        else if parent ∧ rest = [] then some (t, some (ip, name))
        else match dirlookup (t.inode ip).ents name with
          | none => some (t.iput ip, none)
          | some (next, _) => (t.iget next).bind fun t => namexLoop parent fuel (t.iput ip) next rest

/-- `namex` for a process whose working directory is `cwd`: absolute paths start
at the root, others at `cwd`. -/
def namex (t : Ns) (cwd : ℕ) (path : List Char) (parent : Bool) :
    Option (Ns × Option (ℕ × List Char)) :=
  let start := if path.head? = some '/' then rootino else cwd
  (t.iget start).bind fun t => namexLoop parent (path.length + 1) t start path

/-! ### Creating and removing names -/

/-- `create`: a new inode of the type named by `path`, locked and referenced; an
existing regular file when a regular file is asked for; no inode when the
parent does not exist or the name is taken otherwise. -/
def create (t : Ns) (cwd : ℕ) (path : List Char) (type : ℕ) : Option (Ns × Option ℕ) :=
  (t.namex cwd path true).bind fun
  | (t, none) => some (t, none)
  | (t, some (dp, name)) =>
    (t.ilock dp).bind fun t =>
    match dirlookup (t.inode dp).ents name with
    | some (i, _) =>
      (t.iget i).bind fun t =>
      ((t.iput dp).ilock i).map fun t =>
        if type = tFile ∧ (t.inode i).type = tFile then (t, some i) else (t.iput i, none)
    | none =>
      (t.ialloc type).bind fun (t, i) =>
      (t.ilock i).bind fun t =>
      let t := t.modInode i fun ip => { ip with nlink := 1 }
      -- a directory gets `.` and `..`; only the parent's link count grows, for `..`
      let dots : Option Ns :=
        if type = tDir then
          ((t.modInode dp fun ip => { ip with nlink := ip.nlink + 1 }).dirlinkOrPanic i ['.'] i).bind
            fun t => t.dirlinkOrPanic i ['.', '.'] dp
        else some t
      dots.bind fun t => (t.dirlinkOrPanic dp name i).map fun t => (t.iput dp, some i)

/-- The working directory of process `p`. -/
def cwdOf (t : Ns) (p : ℕ) : ℕ := (t.proc p).cwd

/-- `sys_mkdir`, and `sys_mknod` with `T_DEV`: `create`, then the inode put back. -/
def sysMkdirType (type : ℕ) (t : Ns) (p : ℕ) (path : List Char) : Option (Ns × ℤ) :=
  (t.create (t.cwdOf p) path type).map fun
  | (t, none) => (t, -1)
  | (t, some i) => (t.iput i, 0)

def sysMkdir : Ns → ℕ → List Char → Option (Ns × ℤ) := sysMkdirType tDir

def sysMknod : Ns → ℕ → List Char → Option (Ns × ℤ) := sysMkdirType tDev

/-- `sys_unlink`: the entry cleared; a directory must be empty, and its `..`
link leaves the parent. -/
def sysUnlink (t : Ns) (p : ℕ) (path : List Char) : Option (Ns × ℤ) :=
  (t.namex (t.cwdOf p) path true).bind fun
  | (t, none) => some (t, -1)
  | (t, some (dp, name)) =>
    (t.ilock dp).bind fun t =>
    -- cannot unlink "." or ".."
    if namecmp name ['.'] ∨ namecmp name ['.', '.'] then some (t.iput dp, -1)
    else match dirlookup (t.inode dp).ents name with
    | none => some (t.iput dp, -1)
    | some (i, off) =>
      (t.iget i).bind fun t =>
      (t.ilock i).bind fun t =>
      if (t.inode i).nlink < 1 then none
      else if (t.inode i).type = tDir ∧ !isdirempty (t.inode i).ents then
        some ((t.iput i).iput dp, -1)
      else
        let t := t.modInode dp fun ip => { ip with ents := ip.ents.set off ⟨0, []⟩ }
        let t := if (t.inode i).type = tDir then
            t.modInode dp fun ip => { ip with nlink := ip.nlink - 1 }
          else t
        let t := t.iput dp
        some ((t.modInode i fun ip => { ip with nlink := ip.nlink - 1 }).iput i, 0)

/-- `sys_link`: a new name for a non-directory; on failure its link count is
restored. -/
def sysLink (t : Ns) (p : ℕ) (old new : List Char) : Option (Ns × ℤ) :=
  (t.namex (t.cwdOf p) old false).bind fun
  | (t, none) => some (t, -1)
  | (t, some (i, _)) =>
    (t.ilock i).bind fun t =>
    if (t.inode i).type = tDir then some (t.iput i, -1)
    else
      let t := t.modInode i fun ip => { ip with nlink := ip.nlink + 1 }
      let bad (t : Ns) : Option (Ns × ℤ) :=
        (t.ilock i).map fun t => ((t.modInode i fun ip => { ip with nlink := ip.nlink - 1 }).iput i, -1)
      (t.namex (t.cwdOf p) new true).bind fun
      | (t, none) => bad t
      | (t, some (dp, name)) =>
        (t.ilock dp).bind fun t =>
        (t.dirlink dp name i).bind fun
        | (t, 0) => some ((t.iput dp).iput i, 0)
        | (t, _) => bad (t.iput dp)

end Ns

namespace Ns

/-! ### Open files and working directories -/

/-- `filealloc`: the first free entry of the file table, with one reference. -/
def filealloc (t : Ns) : Option (Ns × ℕ) :=
  (t.files.findIdx? (·.ref = 0)).map fun k => (t.modFile k (fun f => { f with ref := 1 }), k)

/-- `fdalloc`: the first free descriptor of process `p`, given the file. -/
def fdalloc (t : Ns) (p : ℕ) (k : ℕ) : Option (Ns × ℕ) :=
  ((t.proc p).ofile.findIdx? (·.isNone)).map fun fd =>
    (t.modProc p fun pr => { pr with ofile := pr.ofile.set fd (some k) }, fd)

/-- `fileclose`: the last reference to an entry puts its inode back. -/
def fileclose (t : Ns) (k : ℕ) : Ns :=
  let t' := t.modFile k fun f => { f with ref := f.ref - 1 }
  if (t.file k).ref = 1 then t'.iput (t.file k).ip else t'

/-- `sys_open`: the inode created (`O_CREATE`) or looked up, then a file-table
entry and a descriptor for it; a directory only for reading. -/
def sysOpen (t : Ns) (p : ℕ) (path : List Char) (omode : ℕ) : Option (Ns × ℤ) :=
  let r : Option (Ns × Option ℕ) :=
    if omode &&& 0x200 ≠ 0 then t.create (t.cwdOf p) path tFile
    else (t.namex (t.cwdOf p) path false).bind fun
      | (t, none) => some (t, none)
      | (t, some (i, _)) => (t.ilock i).map fun t =>
        if (t.inode i).type = tDir ∧ omode ≠ 0 then (t.iput i, none) else (t, some i)
  r.map fun
  | (t, none) => (t, -1)
  | (t, some i) =>
    match t.filealloc with
    | none => (t.iput i, -1)
    | some (t, k) =>
      match t.fdalloc p k with
      -- `fileclose` of the fresh entry, which is not yet an inode file
      | none => ((t.modFile k fun f => { f with ref := 0 }).iput i, -1)
      | some (t, fd) =>
        (t.modFile k (fun f => { f with
          ip := i
          readable := omode &&& 0x001 = 0
          writable := omode &&& 0x001 ≠ 0 ∨ omode &&& 0x002 ≠ 0 }), fd)

/-- `sys_chdir`: the directory named by `path` replaces the working directory. -/
def sysChdir (t : Ns) (p : ℕ) (path : List Char) : Option (Ns × ℤ) :=
  (t.namex (t.cwdOf p) path false).bind fun
  | (t, none) => some (t, -1)
  | (t, some (i, _)) =>
    (t.ilock i).map fun t =>
      if (t.inode i).type ≠ tDir then (t.iput i, -1)
      else ((t.iput (t.cwdOf p)).modProc p fun pr => { pr with cwd := i }, 0)

/-- `sys_close`: the descriptor released and its file closed. -/
def sysClose (t : Ns) (p : ℕ) (fd : ℤ) : Option (Ns × ℤ) :=
  match (t.proc p).ofile[fd.toNat]? with
  | some (some k) =>
    if fd < 0 then some (t, -1)
    else some ((t.modProc p fun pr => { pr with ofile := pr.ofile.set fd.toNat none }).fileclose k, 0)
  | _ => some (t, -1)

/-- What `exec` does to the namespace: the program's inode looked up, locked
while it is loaded, and put back, whether loading succeeds or not. -/
def sysExec (t : Ns) (p : ℕ) (path : List Char) : Option (Ns × ℤ) :=
  (t.namex (t.cwdOf p) path false).bind fun
  | (t, none) => some (t, -1)
  | (t, some (i, _)) => (t.ilock i).map fun t => (t.iput i, 0)

/-- What `fork` does to the namespace: the child, in the first free slot, shares
the parent's open files and working directory. -/
def sysFork (t : Ns) (p : ℕ) : Option (Ns × ℤ) :=
  match t.procs.findIdx? (!·.alive) with
  | none => some (t, -1)
  | some c =>
    let pr := t.proc p
    let t := pr.ofile.foldl (fun t o => match o with
      | some k => t.modFile k fun f => { f with ref := f.ref + 1 }
      | none => t) t
    (t.iget pr.cwd).map fun t => (t.modProc c (fun _ => pr), c)

/-- What `exit` does to the namespace: every open file closed, the working
directory put back; `none` for the panic "init exiting" of process 0. -/
def sysExit (t : Ns) (p : ℕ) : Option (Ns × ℤ) :=
  if p = 0 then none
  else
    let pr := t.proc p
    let t := pr.ofile.foldl (fun t o => match o with
      | some k => t.fileclose k
      | none => t) t
    some ((t.iput pr.cwd).modProc p fun _ => ⟨false, 0, List.replicate nofile none⟩, 0)

end Ns

/-! ### Runs -/

/-- The namespace system calls. -/
inductive NsCall
  | mkdir (path : List Char)
  | mknod (path : List Char)
  | openFile (path : List Char) (omode : ℕ)
  | link (old new : List Char)
  | unlink (path : List Char)
  | chdir (path : List Char)
  | close (fd : ℤ)
  | exec (path : List Char)
  | fork
  | exit

namespace Ns

/-- Process `p` makes the call; `none` when `p` is not alive or the kernel panics. -/
def step (t : Ns) (p : ℕ) : NsCall → Option (Ns × ℤ)
  | c => if !(t.proc p).alive then none else
    match c with
    | .mkdir path => t.sysMkdir p path
    | .mknod path => t.sysMknod p path
    | .openFile path omode => t.sysOpen p path omode
    | .link old new => t.sysLink p old new
    | .unlink path => t.sysUnlink p path
    | .chdir path => t.sysChdir p path
    | .close fd => t.sysClose p fd
    | .exec path => t.sysExec p path
    | .fork => t.sysFork p
    | .exit => t.sysExit p

/-- The calls, in order, each by its process. -/
def run (t : Ns) : List (ℕ × NsCall) → Option Ns
  | [] => some t
  | (p, c) :: cs => (t.step p c).bind fun r => r.1.run cs

/-- The namespace of an image `mkfs` made with no input files, `sb.ninodes`
inodes of which the root directory is the only one allocated, with
`initproc` holding the root as its working directory. -/
def image (ninodes : ℕ) : Ns where
  inodes := (List.replicate ninodes default).set rootino
    ⟨tDir, 1, [⟨rootino, ['.']⟩, ⟨rootino, ['.', '.']⟩], 1, false⟩
  files := List.replicate nfile default
  procs := (List.replicate nproc default).set 0 ⟨true, rootino, List.replicate nofile none⟩

/-! ### Names reachable from the root -/

/-- The inodes reachable from the root through directory entries other than
`.` and `..`. -/
inductive Named (t : Ns) : ℕ → Prop
  | root : Named t rootino
  | child {d : ℕ} {e : Dirent} : Named t d → (t.inode d).type = tDir → e ∈ (t.inode d).ents →
      e.inum ≠ 0 → e.name ≠ ['.'] → e.name ≠ ['.', '.'] → Named t e.inum

/-- A set of inodes that holds the root and every child of its directories
holds every named inode. -/
theorem Named.mem_of_closed {t : Ns} {S : List ℕ} (hroot : rootino ∈ S)
    (hclosed : ∀ d ∈ S, (t.inode d).type = tDir → ∀ e ∈ (t.inode d).ents,
      e.inum ≠ 0 → e.name ≠ ['.'] → e.name ≠ ['.', '.'] → e.inum ∈ S)
    {i : ℕ} (h : t.Named i) : i ∈ S := by
  induction h with
  | root => exact hroot
  | child _ hdir he h0 h1 h2 ih => exact hclosed _ ih hdir _ he h0 h1 h2

end Ns

/-! ### Creating inside an unlinked working directory -/

/-- Process 0 makes `/a` its working directory and unlinks it (an empty
directory may be unlinked while it is a working directory), then creates `x`
in it, closes `x` and goes back to the root. -/
def unlinkedCwdCalls : List (ℕ × NsCall) :=
  [(0, .mkdir "/a".toList), (0, .chdir "/a".toList), (0, .unlink "/a".toList),
    (0, .openFile "x".toList 0x202), (0, .close 0), (0, .chdir "/".toList)]

/-- After `unlinkedCwdCalls` the last reference to `/a` has freed it with its
entries, and `x` stays allocated with one link, named by no entry and
unreachable from the root. -/
theorem create_in_unlinked_cwd :
    ∃ t, (Ns.image 200).run unlinkedCwdCalls = some t ∧
      (t.inode 3).type = tFile ∧ (t.inode 3).nlink = 1 ∧ (t.inode 3).ref = 0 ∧
      (∀ d ∈ t.inodes, ∀ e ∈ d.ents, e.inum ≠ 3) ∧ ¬ t.Named 3 := by
  -- the run evaluated once, in the kernel; the root's only used entries are `.`
  -- and `..`, so `[rootino]` is closed under naming
  have hrun : ((Ns.image 200).run unlinkedCwdCalls).map (fun t =>
      decide (((t.inode 3).type = tFile ∧ (t.inode 3).nlink = 1 ∧ (t.inode 3).ref = 0 ∧
        (∀ d ∈ t.inodes, ∀ e ∈ d.ents, e.inum ≠ 3)) ∧
        ∀ d ∈ [rootino], (t.inode d).type = tDir → ∀ e ∈ (t.inode d).ents,
          e.inum ≠ 0 → e.name ≠ ['.'] → e.name ≠ ['.', '.'] → e.inum ∈ [rootino])) = some true := by
    decide +kernel
  obtain ⟨t, ht, hdec⟩ := Option.map_eq_some_iff.mp hrun
  obtain ⟨⟨h₁, h₂, h₃, h₄⟩, hclosed⟩ := of_decide_eq_true hdec
  refine ⟨t, ht, h₁, h₂, h₃, h₄, fun h => ?_⟩
  have hmem := Ns.Named.mem_of_closed (by decide) hclosed h
  exact absurd hmem (by decide)

end Xv6
