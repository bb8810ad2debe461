import Mathlib

/-!
# Kernel parameters and address arithmetic

The constants of `param.h`, `memlayout.h`, `mmu.h` and `fs.h`, and the address
macros of `mmu.h`.  Every C `uint` is a natural number below `2 ^ 32`, and a C
expression whose `uint` arithmetic can wrap is written with `wrap32` around it,
exactly where the compiler would reduce it.

## Main definitions

* `wrap32`, `toUint` — reduction modulo `2 ^ 32`, and the `(uint)` cast of an `int`.
* `pgroundup`, `pgrounddown`, `pdx`, `ptx`, `pgaddr` — the macros of `mmu.h`.
* `nproc`, `nofile`, `maxopblocks`, `logsize`, `fssize`, … — `param.h`.
-/

namespace Xv6

/-! ### Machine words -/

/-- Reduction of a C `uint` computation modulo `2 ^ 32`. -/
def wrap32 (x : ℕ) : ℕ := x % 2 ^ 32

/-- The `(uint)` cast of a C `int`: two's complement, modulo `2 ^ 32`. -/
def toUint (i : ℤ) : ℕ := (i % 2 ^ 32).toNat

/-- A C `int` read back from the 32-bit pattern `w`. -/
def toInt (w : ℕ) : ℤ := if w % 2 ^ 32 < 2 ^ 31 then (w % 2 ^ 32 : ℕ) else (w % 2 ^ 32 : ℕ) - 2 ^ 32

theorem wrap32_lt (x : ℕ) : wrap32 x < 2 ^ 32 := Nat.mod_lt _ (by norm_num)

theorem wrap32_of_lt {x : ℕ} (h : x < 2 ^ 32) : wrap32 x = x := Nat.mod_eq_of_lt h

theorem toUint_of_nonneg {i : ℤ} (h0 : 0 ≤ i) (h1 : i < 2 ^ 32) : toUint i = i.toNat := by
  unfold toUint
  rw [Int.emod_eq_of_lt h0 h1]

theorem toUint_lt (i : ℤ) : toUint i < 2 ^ 32 := by
  unfold toUint
  have h0 : 0 ≤ i % 2 ^ 32 := Int.emod_nonneg _ (by norm_num)
  have h1 : i % 2 ^ 32 < 2 ^ 32 := Int.emod_lt_of_pos _ (by norm_num)
  omega

/-! ### `param.h` -/

/-- Maximum number of processes. -/
def nproc : ℕ := 64
/-- Maximum number of CPUs. -/
def ncpu : ℕ := 8
/-- Size of a per-process kernel stack. -/
def kstacksize : ℕ := 4096
/-- Open files per process. -/
def nofile : ℕ := 16
/-- Open files per system. -/
def nfile : ℕ := 100
/-- Maximum number of active in-memory inodes. -/
def ninode : ℕ := 50
/-- Maximum major device number. -/
def ndev : ℕ := 10
/-- Device number of the root disk. -/
def rootdev : ℕ := 1
/-- Maximum number of `exec` arguments. -/
def maxarg : ℕ := 32
/-- Maximum number of blocks any file-system operation writes. -/
def maxopblocks : ℕ := 10
/-- Maximum number of data blocks in the on-disk log. -/
def logsize : ℕ := maxopblocks * 3
/-- Size of the disk block cache. -/
def nbuf : ℕ := maxopblocks * 3
/-- Size of the file system, in blocks. -/
def fssize : ℕ := 1000

/-! ### `memlayout.h` and `mmu.h` -/

/-- Start of extended memory. -/
def extmem : ℕ := 0x100000
/-- Top of physical memory. -/
def phystop : ℕ := 0xE000000
/-- Start of the device mappings at the top of the address space. -/
def devspace : ℕ := 0xFE000000
/-- First kernel virtual address. -/
def kernbase : ℕ := 0x80000000
/-- Address the kernel is linked at. -/
def kernlink : ℕ := kernbase + extmem

/-- Bytes mapped by a page. -/
def pgsize : ℕ := 4096
/-- Entries of a page directory, and of a page table. -/
def npdentries : ℕ := 1024

/-- `PGROUNDUP(sz)`: `(sz + PGSIZE - 1) & ~(PGSIZE - 1)`, in `uint` arithmetic. -/
def pgroundup (sz : ℕ) : ℕ := wrap32 (sz + pgsize - 1) / pgsize * pgsize

/-- `PGROUNDDOWN(a)`: `a & ~(PGSIZE - 1)`. -/
def pgrounddown (a : ℕ) : ℕ := a / pgsize * pgsize

/-- `PDX(va)`: the page directory index, bits 22 to 31. -/
def pdx (va : ℕ) : ℕ := va / 2 ^ 22 % 1024

/-- `PTX(va)`: the page table index, bits 12 to 21. -/
def ptx (va : ℕ) : ℕ := va / 2 ^ 12 % 1024

/-- `PGADDR(d, t, o)`: the address with indexes `d`, `t` and offset `o`, as a `uint`. -/
def pgaddr (d t o : ℕ) : ℕ := wrap32 (d * 2 ^ 22 + t * 2 ^ 12 + o)

/-- Page table entry flags. -/
def pteP : ℕ := 0x001
def pteW : ℕ := 0x002
def pteU : ℕ := 0x004

/-! ### `fs.h` -/

/-- The root i-number. -/
def rootino : ℕ := 1
/-- Block size. -/
def bsize : ℕ := 512
/-- Direct block addresses in an inode. -/
def ndirect : ℕ := 12
/-- Block addresses in an indirect block. -/
def nindirect : ℕ := bsize / 4
/-- Maximum file size, in blocks. -/
def maxfile : ℕ := ndirect + nindirect
/-- Length of a directory entry's name. -/
def dirsiz : ℕ := 14

/-- Inode types of `stat.h`; `0` marks a free on-disk inode. -/
def tDir : ℕ := 1
def tFile : ℕ := 2
def tDev : ℕ := 3

theorem pgrounddown_le (a : ℕ) : pgrounddown a ≤ a := Nat.div_mul_le_self a pgsize

theorem lt_pgrounddown_add (a : ℕ) : a < pgrounddown a + pgsize := by
  unfold pgrounddown pgsize
  omega

theorem pgrounddown_aligned (a : ℕ) : pgrounddown a % pgsize = 0 := Nat.mul_mod_left _ _

theorem pgrounddown_of_aligned {a : ℕ} (h : a % pgsize = 0) : pgrounddown a = a :=
  Nat.div_mul_cancel (Nat.dvd_of_mod_eq_zero h)

theorem pgroundup_zero : pgroundup 0 = 0 := by
  unfold pgroundup wrap32 pgsize
  norm_num

theorem pgroundup_of_lt {sz : ℕ} (h : sz + pgsize - 1 < 2 ^ 32) :
    pgroundup sz = (sz + pgsize - 1) / pgsize * pgsize := by
  rw [pgroundup, wrap32_of_lt h]

theorem le_pgroundup {sz : ℕ} (h : sz + pgsize - 1 < 2 ^ 32) : sz ≤ pgroundup sz := by
  rw [pgroundup_of_lt h]
  unfold pgsize at *
  omega

end Xv6
