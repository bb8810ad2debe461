import Xv6.Disk

/-!
# mkfs: the initial file-system image

`mkfs.c` runs on the build host and writes the image the kernel boots from: the
superblock, the inodes of the root directory and of each input file, their data
blocks, and the free bitmap.  The image is a disk of blocks; an inode is the
64-byte image of `struct dinode` in its inode block, and a directory entry the
16-byte image of `struct dirent`.

## Main definitions

* `Dinode`, `Dinode.read`, `Dinode.write` — `struct dinode` and its bytes.
* `Mkfs`, `Mkfs.ialloc`, `Mkfs.iappend`, `Mkfs.balloc`, `mkfsMain` — the tool.

## Main results

* `Dinode.read_write` — a dinode written into a block reads back.
* `Dinode.read_write_of_ne` — it leaves the other dinodes of the block alone.
-/

namespace Xv6

/-! ### The on-disk inode -/

/-- `struct dinode`, with its `short` fields as their 16-bit patterns. -/
structure Dinode where
  type : ℕ
  major : ℕ
  minor : ℕ
  nlink : ℕ
  size : ℕ
  addrs : Fin (ndirect + 1) → ℕ
  deriving DecidableEq

namespace Dinode

/-- The byte offset of `addrs[k]` in `struct dinode`. -/
def addrOff (k : ℕ) : ℕ := 12 + 4 * k

/-- The `struct dinode` at byte offset `off`. -/
def read (m : ℕ → UInt8) (off : ℕ) : Dinode where
  type := LittleEndian.read m off 2
  major := LittleEndian.read m (off + 2) 2
  minor := LittleEndian.read m (off + 4) 2
  nlink := LittleEndian.read m (off + 6) 2
  size := LittleEndian.read m (off + 8) 4
  addrs k := LittleEndian.read m (off + addrOff k) 4

/-- Store `addrs[k]` for each `k` of `ks`, in order. -/
def writeAddrs (off : ℕ) (a : Fin (ndirect + 1) → ℕ) (m : ℕ → UInt8) (ks : List (Fin (ndirect + 1))) :
    ℕ → UInt8 :=
  ks.foldl (fun m (k : Fin (ndirect + 1)) => LittleEndian.write m (off + addrOff k) 4 (a k)) m

/-- `*dip = *ip`: the 64 bytes of `d` stored at byte offset `off`. -/
def write (m : ℕ → UInt8) (off : ℕ) (d : Dinode) : ℕ → UInt8 :=
  let m := LittleEndian.write m off 2 d.type
  let m := LittleEndian.write m (off + 2) 2 d.major
  let m := LittleEndian.write m (off + 4) 2 d.minor
  let m := LittleEndian.write m (off + 6) 2 d.nlink
  let m := LittleEndian.write m (off + 8) 4 d.size
  writeAddrs off d.addrs m (List.finRange (ndirect + 1))

/-- The fields fit their C types. -/
structure Fits (d : Dinode) : Prop where
  type : d.type < 2 ^ 16
  major : d.major < 2 ^ 16
  minor : d.minor < 2 ^ 16
  nlink : d.nlink < 2 ^ 16
  size : d.size < 2 ^ 32
  addrs : ∀ k, d.addrs k < 2 ^ 32

/-- Bytes before the address array are left alone by the address stores. -/
theorem read_writeAddrs_below {off off' n : ℕ} (a : Fin (ndirect + 1) → ℕ) (h : off' + n ≤ off + 12) :
    ∀ (ks : List (Fin (ndirect + 1))) (m : ℕ → UInt8),
      LittleEndian.read (writeAddrs off a m ks) off' n = LittleEndian.read m off' n
  | [], _ => rfl
  | k :: ks, m => by
    rw [writeAddrs, List.foldl_cons, ← writeAddrs, read_writeAddrs_below a h ks,
      LittleEndian.read_write_of_disjoint (by unfold addrOff; omega)]

/-- Bytes past the dinode are left alone by the address stores. -/
theorem read_writeAddrs_above {off off' n : ℕ} (a : Fin (ndirect + 1) → ℕ) (h : off + 64 ≤ off') :
    ∀ (ks : List (Fin (ndirect + 1))) (m : ℕ → UInt8),
      LittleEndian.read (writeAddrs off a m ks) off' n = LittleEndian.read m off' n
  | [], _ => rfl
  | k :: ks, m => by
    have hk : (k : ℕ) < ndirect + 1 := k.isLt
    rw [writeAddrs, List.foldl_cons, ← writeAddrs, read_writeAddrs_above a h ks,
      LittleEndian.read_write_of_disjoint (by unfold addrOff ndirect at *; omega)]

/-- Each stored address reads back; the others keep their bytes. -/
theorem read_writeAddrs_addr {off : ℕ} {a : Fin (ndirect + 1) → ℕ} (ha : ∀ k, a k < 2 ^ 32)
    (k : Fin (ndirect + 1)) :
    ∀ (ks : List (Fin (ndirect + 1))) (m : ℕ → UInt8), ks.Nodup →
      LittleEndian.read (writeAddrs off a m ks) (off + addrOff k) 4 =
        if k ∈ ks then a k else LittleEndian.read m (off + addrOff k) 4
  | [], _, _ => by simp [writeAddrs]
  | j :: ks, m, hnd => by
    rw [List.nodup_cons] at hnd
    rw [writeAddrs, List.foldl_cons, ← writeAddrs, read_writeAddrs_addr ha k ks _ hnd.2]
    by_cases hk : k ∈ ks
    · simp [hk]
    · by_cases hjk : j = k
      · subst hjk
        have hv : a j < 256 ^ 4 := by simpa using ha j
        simp [hk, LittleEndian.read_write_self _ _ _ hv]
      · -- distinct addresses occupy disjoint bytes
        have hne : (j : ℕ) ≠ k := fun h => hjk (Fin.ext h)
        rw [LittleEndian.read_write_of_disjoint (by unfold addrOff; omega)]
        simp [hk, Ne.symm hjk]

/-- A dinode written at `off` reads back. -/
theorem read_write (m : ℕ → UInt8) (off : ℕ) {d : Dinode} (hd : d.Fits) :
    read (write m off d) off = d := by
  have hlow : ∀ {off' n : ℕ} (m' : ℕ → UInt8), off' + n ≤ off + 12 →
      LittleEndian.read (writeAddrs off d.addrs m' (List.finRange (ndirect + 1))) off' n =
        LittleEndian.read m' off' n := fun m' h => read_writeAddrs_below d.addrs h _ m'
  -- each field is read past the stores that follow it, which are disjoint from it
  have htype : LittleEndian.read (write m off d) off 2 = d.type := by
    rw [write, hlow _ (by omega), LittleEndian.read_write_of_disjoint (by omega),
      LittleEndian.read_write_of_disjoint (by omega), LittleEndian.read_write_of_disjoint (by omega),
      LittleEndian.read_write_of_disjoint (by omega), LittleEndian.read_write_self _ _ _ hd.type]
  have hmajor : LittleEndian.read (write m off d) (off + 2) 2 = d.major := by
    rw [write, hlow _ (by omega), LittleEndian.read_write_of_disjoint (by omega),
      LittleEndian.read_write_of_disjoint (by omega), LittleEndian.read_write_of_disjoint (by omega),
      LittleEndian.read_write_self _ _ _ hd.major]
  have hminor : LittleEndian.read (write m off d) (off + 4) 2 = d.minor := by
    rw [write, hlow _ (by omega), LittleEndian.read_write_of_disjoint (by omega),
      LittleEndian.read_write_of_disjoint (by omega), LittleEndian.read_write_self _ _ _ hd.minor]
  have hnlink : LittleEndian.read (write m off d) (off + 6) 2 = d.nlink := by
    rw [write, hlow _ (by omega), LittleEndian.read_write_of_disjoint (by omega),
      LittleEndian.read_write_self _ _ _ hd.nlink]
  have hsize : LittleEndian.read (write m off d) (off + 8) 4 = d.size := by
    rw [write, hlow _ (by omega), LittleEndian.read_write_self _ _ _ (by simpa using hd.size)]
  have haddrs : ∀ k : Fin (ndirect + 1),
      LittleEndian.read (write m off d) (off + addrOff k) 4 = d.addrs k := by
    intro k
    rw [write, read_writeAddrs_addr hd.addrs k _ _ (List.nodup_finRange _)]
    simp
  cases d
  simp only [read, Dinode.mk.injEq]
  exact ⟨htype, hmajor, hminor, hnlink, hsize, funext haddrs⟩

/-- A dinode written at `off` leaves the bytes outside its 64 alone. -/
theorem read_write_disjoint (m : ℕ → UInt8) {off off' n : ℕ} (d : Dinode)
    (h : off' + n ≤ off ∨ off + 64 ≤ off') :
    LittleEndian.read (write m off d) off' n = LittleEndian.read m off' n := by
  rcases h with h | h
  · rw [write, read_writeAddrs_below d.addrs (by omega), LittleEndian.read_write_of_disjoint (by omega),
      LittleEndian.read_write_of_disjoint (by omega), LittleEndian.read_write_of_disjoint (by omega),
      LittleEndian.read_write_of_disjoint (by omega), LittleEndian.read_write_of_disjoint (by omega)]
  · rw [write, read_writeAddrs_above d.addrs h, LittleEndian.read_write_of_disjoint (by omega),
      LittleEndian.read_write_of_disjoint (by omega), LittleEndian.read_write_of_disjoint (by omega),
      LittleEndian.read_write_of_disjoint (by omega), LittleEndian.read_write_of_disjoint (by omega)]

/-- Writing one dinode of a block leaves the block's other dinodes alone. -/
theorem read_write_of_ne (m : ℕ → UInt8) {i j : ℕ} (d : Dinode) (hij : i ≠ j) :
    read (write m (64 * i) d) (64 * j) = read m (64 * j) := by
  have hdis : ∀ {o n : ℕ}, o + n ≤ 64 → 64 * j + o + n ≤ 64 * i ∨ 64 * i + 64 ≤ 64 * j + o := by
    intro o n h
    rcases Nat.lt_or_gt_of_ne hij with h' | h' <;> omega
  simp only [read]
  rw [read_write_disjoint m d (by simpa using hdis (o := 0) (by omega : 0 + 2 ≤ 64)),
    read_write_disjoint m d (hdis (by omega : 2 + 2 ≤ 64)),
    read_write_disjoint m d (hdis (by omega : 4 + 2 ≤ 64)),
    read_write_disjoint m d (hdis (by omega : 6 + 2 ≤ 64)),
    read_write_disjoint m d (hdis (by omega : 8 + 4 ≤ 64))]
  congr 1
  funext k
  have hk : (k : ℕ) < ndirect + 1 := k.isLt
  exact read_write_disjoint m d (hdis (by unfold addrOff ndirect at *; omega))

end Dinode

/-! ### The layout -/

/-- `NINODES`. -/
def mkfsNinodes : ℕ := 200

/-- `IPB`: dinodes per block. -/
def ipb : ℕ := bsize / 64

def nbitmap : ℕ := fssize / (bsize * 8) + 1

def ninodeblocks : ℕ := mkfsNinodes / ipb + 1

def nmeta : ℕ := 2 + logsize + ninodeblocks + nbitmap

/-- `sb.inodestart`. -/
def inodestart : ℕ := 2 + logsize

/-- `sb.bmapstart`. -/
def bmapstart : ℕ := 2 + logsize + ninodeblocks

/-- `IBLOCK(i, sb)` for the superblock `mkfs` writes. -/
def iblock (i : ℕ) : ℕ := i / ipb + inodestart

/-- The dinode of inode `inum` in the image `img`, as `ilock` decodes it. -/
def dinodeOf (img : Disk) (inum : ℕ) : Dinode := Dinode.read (img (iblock inum)).toMem (64 * (inum % ipb))

/-- The superblock block: `size`, `nblocks`, `ninodes`, `nlog`, `logstart`,
`inodestart`, `bmapstart`. -/
def sbBlock : Block :=
  [fssize, fssize - nmeta, mkfsNinodes, logsize, 2, inodestart, bmapstart].zipIdx.foldl
    (fun b (v, k) => b.setU32 (4 * k) v) fun _ => 0

/-- The 16 bytes of `struct dirent` naming inode `inum`: the name cut or padded
with zeros to `DIRSIZ` bytes (`strncpy`). -/
def direntBytes (inum : ℕ) (name : List Char) : List UInt8 :=
  [UInt8.ofNat inum, UInt8.ofNat (inum / 256)] ++
    ((name.take dirsiz).map fun c => UInt8.ofNat c.toNat) ++ List.replicate (dirsiz - name.length) 0

/-- The `BSIZE`-byte pieces `read(fd, buf, sizeof(buf))` returns for a file's
contents, the current piece being `cur`. -/
def readChunks (cur : List UInt8) : List UInt8 → List (List UInt8)
  | [] => if cur = [] then [] else [cur]
  | b :: bs => if cur.length + 1 = bsize then (cur ++ [b]) :: readChunks [] bs else readChunks (cur ++ [b]) bs

/-- `p` copied into the block at byte offset `o` (`bcopy`). -/
def copyIn (buf : Block) (o : ℕ) (p : List UInt8) : Block :=
  fun i => if o ≤ i ∧ (i : ℕ) < o + p.length then p.getD (i - o) 0 else buf i

/-! ### The tool -/

/-- The image file with its length in sectors, and the next inode and block
`mkfs` hands out. -/
structure Mkfs where
  img : Disk
  nsect : ℕ
  freeinode : ℕ
  freeblock : ℕ

namespace Mkfs

/-- `wsect`: the image file grows to cover the sector. -/
def wsect (s : Mkfs) (sec : ℕ) (buf : Block) : Mkfs :=
  { s with img := Function.update s.img sec buf, nsect := max s.nsect (sec + 1) }

/-- `rsect`: reading past the end of the image file makes `mkfs` exit. -/
def rsect (s : Mkfs) (sec : ℕ) : Except String Block :=
  if sec < s.nsect then .ok (s.img sec) else .error "read"

def rinode (s : Mkfs) (inum : ℕ) : Except String Dinode :=
  (s.rsect (iblock inum)).map fun b => Dinode.read b.toMem (64 * (inum % ipb))

def winode (s : Mkfs) (inum : ℕ) (d : Dinode) : Except String Mkfs :=
  (s.rsect (iblock inum)).map fun b =>
    s.wsect (iblock inum) (Block.ofMem (Dinode.write b.toMem (64 * (inum % ipb)) d))

/-- `ialloc`: the next inode number, with one link and nothing in it. -/
def ialloc (s : Mkfs) (type : ℕ) : Except String (Mkfs × ℕ) :=
  ({ s with freeinode := s.freeinode + 1 }.winode s.freeinode ⟨type, 0, 0, 1, 0, fun _ => 0⟩).map
    (·, s.freeinode)

/-- The block holding block index `fbn` of the inode, handed out from
`freeblock` when it is not mapped yet, through the indirect block past
`NDIRECT`. -/
def bmapAlloc (s : Mkfs) (din : Dinode) (fbn : ℕ) : Except String (Mkfs × Dinode × ℕ) :=
  if h : fbn < ndirect then
    let k : Fin (ndirect + 1) := ⟨fbn, by omega⟩
    if din.addrs k = 0 then
      .ok ({ s with freeblock := s.freeblock + 1 },
        { din with addrs := Function.update din.addrs k s.freeblock }, s.freeblock)
    else .ok (s, din, din.addrs k)
  else
    let ik : Fin (ndirect + 1) := ⟨ndirect, by omega⟩
    let (s, din) := if din.addrs ik = 0 then
        ({ s with freeblock := s.freeblock + 1 },
          { din with addrs := Function.update din.addrs ik s.freeblock })
      else (s, din)
    (s.rsect (din.addrs ik)).map fun ind =>
      let e := ind.getU32 (4 * (fbn - ndirect))
      if e = 0 then
        ({ s with freeblock := s.freeblock + 1 }.wsect (din.addrs ik)
          (ind.setU32 (4 * (fbn - ndirect)) s.freeblock), din, s.freeblock)
      else (s, din, e)

/-- The loop of `iappend`: `p` appended at byte offset `off`, a block at a time. -/
def iappendLoop : ℕ → Mkfs → Dinode → ℕ → List UInt8 → Except String (Mkfs × Dinode × ℕ)
  | _, s, din, off, [] => .ok (s, din, off)
  | 0, _, _, _, _ => .error "iappend"
  | fuel + 1, s, din, off, p =>
    let fbn := off / bsize
    if maxfile ≤ fbn then .error "assert fbn < MAXFILE"
    else (s.bmapAlloc din fbn).bind fun (s, din, x) =>
      let n1 := min p.length ((fbn + 1) * bsize - off)
      (s.rsect x).bind fun buf =>
        iappendLoop fuel (s.wsect x (copyIn buf (off - fbn * bsize) (p.take n1))) din (off + n1)
          (p.drop n1)

/-- `iappend`: `p` appended to inode `inum`. -/
def iappend (s : Mkfs) (inum : ℕ) (p : List UInt8) : Except String Mkfs :=
  (s.rinode inum).bind fun din =>
    (iappendLoop (p.length + 1) s din din.size p).bind fun (s, din, off) =>
      s.winode inum { din with size := off }

/-- `balloc(used)`: the bitmap block with the first `used` blocks marked in use. -/
def balloc (s : Mkfs) (used : ℕ) : Except String Mkfs :=
  if bsize * 8 ≤ used then .error "assert used < BSIZE*8"
  else .ok (s.wsect bmapstart fun i =>
    UInt8.ofNat ((List.range 8).foldl (fun byte k =>
      if 8 * (i : ℕ) + k < used then byte ||| 2 ^ k else byte) 0))

/-- One input file: its name without a leading `_`, an inode, its entry in the
root directory, and its contents. -/
def addFile (s : Mkfs) (file : List Char × List UInt8) : Except String Mkfs :=
  if '/' ∈ file.1 then .error "assert index(argv[i], '/') == 0"
  else
    let name := if file.1.head? = some '_' then file.1.tail else file.1
    (s.ialloc tFile).bind fun (s, inum) =>
      (s.iappend rootino (direntBytes inum name)).bind fun s =>
        (readChunks [] file.2).foldlM (fun s c => s.iappend inum c) s

end Mkfs

/-- `mkfs fs.img files...`: the image, or the failure that stops `mkfs`. -/
def mkfsMain (files : List (List Char × List UInt8)) : Except String Mkfs :=
  let s : Mkfs := ⟨fun _ _ => 0, fssize, 1, nmeta⟩
  let s := s.wsect 1 sbBlock
  (s.ialloc tDir).bind fun (s, root) =>
    if root ≠ rootino then .error "assert rootino == ROOTINO"
    else
      (s.iappend rootino (direntBytes rootino ['.'])).bind fun s =>
      (s.iappend rootino (direntBytes rootino ['.', '.'])).bind fun s =>
      (files.foldlM Mkfs.addFile s).bind fun s =>
      -- fix size of root inode dir
      (s.rinode rootino).bind fun din =>
      (s.winode rootino { din with size := wrap32 ((din.size / bsize + 1) * bsize) }).bind fun s =>
      s.balloc s.freeblock

/-! ### The root directory's size fix -/

/-- `n` empty input files `f00`, `f01`, …. -/
def emptyFiles (n : ℕ) : List (List Char × List UInt8) :=
  (List.range n).map fun i => (['f', Char.ofNat (48 + i / 10), Char.ofNat (48 + i % 10)], [])

/-- With thirty input files the root directory holds 32 entries, exactly one
block; the size fix rounds 512 up to 1024, so block index 1 of the root lies
below its size and is not mapped. -/
theorem mkfs_root_dir_hole :
    ∃ s, mkfsMain (emptyFiles 30) = .ok s ∧ (dinodeOf s.img rootino).size = 1024 ∧
      (dinodeOf s.img rootino).addrs 0 = nmeta ∧ (dinodeOf s.img rootino).addrs 1 = 0 := by
  -- `mkfs` run once, in the kernel
  have hrun : (mkfsMain (emptyFiles 30)).toOption.map (fun s =>
      decide ((dinodeOf s.img rootino).size = 1024 ∧ (dinodeOf s.img rootino).addrs 0 = nmeta ∧
        (dinodeOf s.img rootino).addrs 1 = 0)) = some true := by
    decide +kernel
  obtain ⟨s, hs, hdec⟩ := Option.map_eq_some_iff.mp hrun
  refine ⟨s, ?_, of_decide_eq_true hdec⟩
  cases h : mkfsMain (emptyFiles 30) with
  | error e => simp [h, Except.toOption] at hs
  | ok s' => simp_all [Except.toOption]

end Xv6
