import Xv6.Param
import Xv6.Lib.LittleEndian
import Xv6.Lib.Ownership

/-!
# Physical pages and the page allocator

The kernel reaches all physical memory through its direct map at `KERNBASE`, and
`kalloc.c` hands out 4096-byte pages by their kernel virtual addresses.  The
memory is modelled page by page: `mem v` is the page at the kernel virtual address
`v`, as bytes by offset.  Page directories and page tables are pages whose
`uint`s the paging code reads and writes.

`kmem.freelist` is a list of `struct run` threaded through the free pages
themselves.  It is modelled by the list of the free pages, head first; the `next`
words in the free pages are not, since nothing but `kalloc` reads them and
nothing writes a free page while it is free: every step of the paging code is
`Phys.Confined` to the pages it owns, and `Phys.Sound` (in `Xv6.Mappages`) keeps
the free pages apart from every owner's.

## Main definitions

* `Page`, `Page.word`, `Page.setWord`, `Page.fill` — a page, its `uint`s, `memset`.
* `v2p`, `p2v` — `V2P` and `P2V` of `memlayout.h`.
* `Layout` — the addresses `data` and `end` that `kernel.ld` provides.
* `Phys` — the pages and the free list; `kalloc`, `kfree`, `freerange`.
* `Phys.Confined` — a step of the allocator and its clients confined to some owners.

## Main results

* `kalloc_confined`, `kfree_confined` — allocation moves the head of the free list
  to its owner, and freeing moves a page back.
* `freerangeLoop_spec` — `freerange` pushes every page of its range on the free list.
-/

namespace Xv6

/-! ### Pages -/

/-- The bytes of a page of physical memory, by offset. -/
abbrev Page := ℕ → UInt8

namespace Page

/-- The `uint` at index `i`: the bytes `4 * i` to `4 * i + 3`. -/
def word (pg : Page) (i : ℕ) : ℕ := LittleEndian.read pg (4 * i) 4

/-- The page after storing the `uint` `w` at index `i`. -/
def setWord (pg : Page) (i w : ℕ) : Page := LittleEndian.write pg (4 * i) 4 w

/-- A page every byte of which is `c`: `memset(v, c, PGSIZE)`.  Offsets past the
page are never read. -/
def fill (c : UInt8) : Page := fun _ => c

theorem word_lt (pg : Page) (i : ℕ) : pg.word i < 2 ^ 32 :=
  lt_of_lt_of_eq (LittleEndian.read_lt pg (4 * i) 4) (by norm_num)

@[simp] theorem word_setWord_self (pg : Page) (i : ℕ) {w : ℕ} (hw : w < 2 ^ 32) :
    (pg.setWord i w).word i = w :=
  LittleEndian.read_write_self pg (4 * i) 4 (by simpa using hw)

@[simp] theorem word_setWord_of_ne (pg : Page) {i j : ℕ} (w : ℕ) (h : i ≠ j) :
    (pg.setWord i w).word j = pg.word j :=
  LittleEndian.read_write_of_disjoint (by omega)

@[simp] theorem word_fill_zero (i : ℕ) : (fill 0).word i = 0 := by
  simp [word, fill, LittleEndian.read]

end Page

/-! ### The direct map -/

/-- `V2P(a)`: `(uint) a - KERNBASE`, in `uint` arithmetic. -/
def v2p (a : ℕ) : ℕ := wrap32 (a + (2 ^ 32 - kernbase))

/-- `P2V(a)`: `(char *) a + KERNBASE`, a 32-bit address. -/
def p2v (a : ℕ) : ℕ := wrap32 (a + kernbase)

theorem v2p_of_le {a : ℕ} (h₁ : kernbase ≤ a) (h₂ : a < 2 ^ 32) : v2p a = a - kernbase := by
  unfold v2p wrap32 kernbase at *
  omega

theorem p2v_of_lt {a : ℕ} (h : a < 2 ^ 31) : p2v a = a + kernbase := by
  unfold p2v wrap32 kernbase at *
  omega

theorem p2v_v2p {a : ℕ} (h₁ : kernbase ≤ a) (h₂ : a < 2 ^ 32) : p2v (v2p a) = a := by
  rw [v2p_of_le h₁ h₂, p2v_of_lt (by unfold kernbase at *; omega)]
  omega

/-! ### The kernel image -/

/-- The symbols of `kernel.ld` the allocator and the kernel map use: `data`, the
start of the kernel's writable data (page aligned), and `end`, the first address
after the kernel.  The kernel must leave room below 4 MB for the pages `main`
allocates before `kinit2`. -/
structure Layout where
  data : ℕ
  kend : ℕ
  kernlink_lt_data : kernlink < data
  data_aligned : data % pgsize = 0
  data_le_end : data ≤ kend
  end_room : kend + 80 * pgsize ≤ p2v (4 * 1024 * 1024)

/-! ### Physical memory and the free list -/

/-- Physical memory by the kernel virtual address of each page, and
`kmem.freelist` from its head. -/
structure Phys where
  mem : ℕ → Page
  freelist : List ℕ

namespace Phys

/-- The `uint` at index `i` of the page at `v`. -/
def word (m : Phys) (v i : ℕ) : ℕ := (m.mem v).word i

/-- Replace the page at `v`. -/
def setPage (m : Phys) (v : ℕ) (pg : Page) : Phys := { m with mem := Function.update m.mem v pg }

/-- Store a `uint` at index `i` of the page at `v`. -/
def setWord (m : Phys) (v i w : ℕ) : Phys := m.setPage v ((m.mem v).setWord i w)

/-- `memset(v, c, PGSIZE)`. -/
def memset (m : Phys) (v : ℕ) (c : UInt8) : Phys := m.setPage v (Page.fill c)

@[simp] theorem setPage_freelist (m : Phys) (v : ℕ) (pg : Page) :
    (m.setPage v pg).freelist = m.freelist := rfl

@[simp] theorem setWord_freelist (m : Phys) (v i w : ℕ) : (m.setWord v i w).freelist = m.freelist :=
  rfl

@[simp] theorem memset_freelist (m : Phys) (v : ℕ) (c : UInt8) : (m.memset v c).freelist = m.freelist :=
  rfl

@[simp] theorem setPage_mem_self (m : Phys) (v : ℕ) (pg : Page) : (m.setPage v pg).mem v = pg := by
  simp [setPage]

@[simp] theorem setPage_mem_of_ne (m : Phys) {v q : ℕ} (pg : Page) (h : q ≠ v) :
    (m.setPage v pg).mem q = m.mem q := by
  simp [setPage, h]

theorem word_setWord_self (m : Phys) (v i : ℕ) {w : ℕ} (hw : w < 2 ^ 32) :
    (m.setWord v i w).word v i = w := by
  simp only [word, setWord, setPage_mem_self]
  exact Page.word_setWord_self _ _ hw

end Phys

/-! ### `kalloc.c` -/

/-- `kalloc`: the head of the free list, or `0` (here `none`) when it is empty. -/
def kalloc (m : Phys) : Option ℕ × Phys :=
  match m.freelist with
  | [] => (none, m)
  | r :: rest => (some r, { m with freelist := rest })

/-- `kfree(v)`: panics (`none`) unless `v` is a page-aligned address of a page
between `end` and `PHYSTOP`; fills the page with ones and pushes it on the free
list.  It does not check that the page is not free already. -/
def kfree (L : Layout) (v : ℕ) (m : Phys) : Option Phys :=
  if v % pgsize ≠ 0 ∨ v < L.kend ∨ phystop ≤ v2p v then none
  else some { mem := Function.update m.mem v (Page.fill 1), freelist := v :: m.freelist }

/-- The loop of `freerange`: `kfree(p)` for every page `p` with `p + PGSIZE <= vend`. -/
def freerangeLoop (L : Layout) (vend : ℕ) : ℕ → ℕ → Phys → Option Phys
  | 0, _, m => some m
  | fuel + 1, p, m =>
    if p + pgsize ≤ vend then (kfree L p m).bind (freerangeLoop L vend fuel (p + pgsize))
    else some m

/-- `freerange(vstart, vend)`: free every whole page from `PGROUNDUP(vstart)` on
below `vend`.  The loop runs at most `vend / PGSIZE` times. -/
def freerange (L : Layout) (vstart vend : ℕ) (m : Phys) : Option Phys :=
  freerangeLoop L vend (vend / pgsize + 1) (pgroundup vstart) m

/-- `kinit1` and `kinit2`: `freerange` of their range (the lock is not modelled). -/
def kinit (L : Layout) (vstart vend : ℕ) (m : Phys) : Option Phys := freerange L vstart vend m

/-! ### The pages the allocator manages -/

/-- The `n` pages from `a` on. -/
def pageRange (a n : ℕ) : List ℕ := (List.range n).map fun k => a + k * pgsize

/-- Every page `kfree` accepts: page aligned, from `end` to `P2V(PHYSTOP)`. -/
def allPages (L : Layout) : List ℕ :=
  pageRange (pgroundup L.kend) ((p2v phystop - pgroundup L.kend) / pgsize)

theorem pageRange_succ (a n : ℕ) : pageRange a (n + 1) = pageRange a n ++ [a + n * pgsize] := by
  simp [pageRange, List.range_succ]

theorem pageRange_add (a n k : ℕ) :
    pageRange a (n + k) = pageRange a n ++ pageRange (a + n * pgsize) k := by
  induction k with
  | zero => simp [pageRange]
  | succ k ih =>
    rw [← Nat.add_assoc, pageRange_succ, ih, pageRange_succ, List.append_assoc]
    congr 3
    ring

theorem mem_pageRange {a n q : ℕ} : q ∈ pageRange a n ↔ ∃ k < n, q = a + k * pgsize := by
  simp [pageRange, eq_comm]

theorem pageRange_nodup (a n : ℕ) : (pageRange a n).Nodup := by
  refine (List.nodup_range).map fun k k' h => ?_
  simp only [pgsize] at h
  omega

/-! ### Specifications -/

/-- A step of physical memory confined to the owned pages `own`, which become `own'`. -/
abbrev Phys.Confined (m m' : Phys) (own own' : List ℕ) : Prop :=
  Ownership.Confined m.freelist m'.freelist m.mem m'.mem own own'

theorem kalloc_some {m m' : Phys} {a : ℕ} (h : kalloc m = (some a, m')) :
    m.freelist = a :: m'.freelist ∧ m'.mem = m.mem := by
  unfold kalloc at h
  split at h
  · cases h
  · rename_i r rest hfl
    cases h
    exact ⟨hfl, rfl⟩

theorem kalloc_none {m m' : Phys} (h : kalloc m = (none, m')) : m.freelist = [] ∧ m' = m := by
  unfold kalloc at h
  split at h
  · cases h
    exact ⟨‹_›, rfl⟩
  · cases h

/-- `kalloc` moves the head of the free list to the caller. -/
theorem kalloc_confined {m m' : Phys} {a : ℕ} (h : kalloc m = (some a, m')) (own : List ℕ) :
    m.Confined m' own (own ++ [a]) := by
  obtain ⟨hfl, hmem⟩ := kalloc_some h
  unfold Phys.Confined
  rw [hfl, hmem]
  exact Ownership.Confined.take a _ _ own

/-- The pages `kfree` accepts. -/
def Layout.Freeable (L : Layout) (v : ℕ) : Prop :=
  v % pgsize = 0 ∧ L.kend ≤ v ∧ v < kernbase + phystop

theorem Layout.kernbase_lt_end (L : Layout) : kernbase < L.kend := by
  have := L.kernlink_lt_data
  have := L.data_le_end
  unfold kernlink at *
  omega

theorem kfree_eq {L : Layout} {v : ℕ} (hv : L.Freeable v) (m : Phys) :
    kfree L v m = some { mem := Function.update m.mem v (Page.fill 1), freelist := v :: m.freelist } := by
  obtain ⟨h₁, h₂, h₃⟩ := hv
  have hk := L.kernbase_lt_end
  have hv2p : v2p v = v - kernbase := v2p_of_le (by omega) (by unfold kernbase phystop at *; omega)
  simp only [kfree]
  rw [if_neg (by rw [hv2p]; omega)]

theorem kfree_some {L : Layout} {v : ℕ} {m m' : Phys} (h : kfree L v m = some m') :
    m' = { mem := Function.update m.mem v (Page.fill 1), freelist := v :: m.freelist } := by
  unfold kfree at h
  split at h
  · cases h
  · exact (Option.some.inj h).symm

/-- `kfree` moves an owned page back to the free list. -/
theorem kfree_confined {L : Layout} {v : ℕ} {m m' : Phys} (h : kfree L v m = some m')
    (own : List ℕ) : m.Confined m' (own ++ [v]) own := by
  rw [kfree_some h]
  exact Ownership.Confined.give _ _

theorem setWord_confined (m : Phys) {v : ℕ} {own : List ℕ} (hv : v ∈ m.freelist ∨ v ∈ own)
    (i w : ℕ) : m.Confined (m.setWord v i w) own own :=
  Ownership.Confined.write _ _ _ hv _

theorem memset_confined (m : Phys) {v : ℕ} {own : List ℕ} (hv : v ∈ m.freelist ∨ v ∈ own)
    (c : UInt8) : m.Confined (m.memset v c) own own :=
  Ownership.Confined.write _ _ _ hv _

/-- `freerange` over `n` freeable pages from the aligned `p` pushes them all, the
last on top, and changes no other page. -/
theorem freerangeLoop_spec (L : Layout) {vend : ℕ} :
    ∀ (n fuel p : ℕ) (m : Phys), n < fuel → p + n * pgsize ≤ vend → vend < p + (n + 1) * pgsize →
      (∀ q ∈ pageRange p n, L.Freeable q) →
      ∃ mem', freerangeLoop L vend fuel p m = some ⟨mem', (pageRange p n).reverse ++ m.freelist⟩ ∧
        ∀ q ∉ pageRange p n, mem' q = m.mem q
  | _, 0, _, _, hfuel, _, _, _ => absurd hfuel (Nat.not_lt_zero _)
  | 0, fuel + 1, p, m, _, _, hlt, _ => by
    refine ⟨m.mem, ?_, fun _ _ => rfl⟩
    simp only [freerangeLoop]
    rw [if_neg (by simp only [pgsize] at *; omega)]
    rfl
  | n + 1, fuel + 1, p, m, hfuel, hle, hlt, hfree => by
    -- free `p`, then the other `n` pages from `p + PGSIZE`
    have hsplit : pageRange p (n + 1) = p :: pageRange (p + pgsize) n := by
      rw [Nat.add_comm, pageRange_add]
      simp [pageRange, Nat.add_assoc]
    have hle' : p + pgsize + n * pgsize ≤ vend := by simp only [pgsize] at *; omega
    have hlt' : vend < p + pgsize + (n + 1) * pgsize := by simp only [pgsize] at *; omega
    rw [hsplit] at hfree ⊢
    obtain ⟨mem', hrun, hframe⟩ := freerangeLoop_spec L n fuel (p + pgsize)
      ⟨Function.update m.mem p (Page.fill 1), p :: m.freelist⟩ (by omega) hle' hlt'
      fun q hq => hfree q (.tail _ hq)
    refine ⟨mem', ?_, fun q hq => ?_⟩
    · simp only [freerangeLoop]
      rw [if_pos (by omega), kfree_eq (hfree p (.head _))]
      simpa using hrun
    · rw [hframe q fun h => hq (.tail _ h)]
      exact Function.update_of_ne (by rintro rfl; exact hq (.head _)) _ _

end Xv6
