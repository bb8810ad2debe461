import Xv6.Kalloc

/-!
# Page tables: `vm.c`

An x86 page directory is a page of 1024 entries; entry `PDX(va)` points, when
present, to a page table whose entry `PTX(va)` maps the page of `va`.  Every
process has its own page directory: below `KERNBASE` the pages of its user memory,
above it the kernel's mappings, which `setupkvm` installs from the `kmap` table.
The functions of `vm.c` read and write these entries through the direct map and
take their pages from `kalloc`.

Each function is modelled with the machine state `Phys` passed explicitly, `none`
for a kernel panic, and the C return value where the caller reads it.  `uint`
arithmetic that can wrap is written with `wrap32`; the loops take a fuel argument
that is never the reason they stop.

## Main definitions

* `pteAddr`, `pteFlags`, `hasFlag` — `PTE_ADDR`, `PTE_FLAGS` and the flag tests.
* `walkpgdir`, `mappages`, `kmap`, `setupkvm`, `inituvm`, `loaduvm`, `allocuvm`,
  `deallocuvm`, `freevm`, `clearpteu`, `copyuvm`, `uva2ka`, `copyout`.
* `translate`, `loadByte`, `loadWord` — the paging hardware, for the kernel's own
  loads through the running process's directory.
* `FileData`, `FileData.readCount` — the bytes of a regular file and `readi`'s count.
-/

namespace Xv6

/-! ### Entries -/

/-- `PTE_ADDR(pte)`: `pte & ~0xFFF`, the page address in a 32-bit entry. -/
def pteAddr (pte : ℕ) : ℕ := pte / pgsize * pgsize

/-- `PTE_FLAGS(pte)`: `pte & 0xFFF`. -/
def pteFlags (pte : ℕ) : ℕ := pte % pgsize

/-- The C test `pte & flag`. -/
def hasFlag (pte flag : ℕ) : Bool := pte &&& flag != 0

/-- `~PTE_U` as a `uint`. -/
def notPteU : ℕ := 2 ^ 32 - 1 - pteU

/-- `memmove` of the bytes `bs` to offset `off` of a page. -/
def Page.copyIn (pg : Page) (off : ℕ) (bs : List UInt8) : Page :=
  fun o => if off ≤ o ∧ o < off + bs.length then bs.getD (o - off) 0 else pg o

/-! ### Walking and mapping -/

/-- `walkpgdir(pgdir, va, alloc)`: the place of the entry for `va`, as the page
table's kernel address and the index in it.  With `alloc`, a missing page table is
allocated, zeroed, and entered in the directory with `PTE_P | PTE_W | PTE_U`;
`none` is the null pointer. -/
def walkpgdir (pgdir va : ℕ) (alloc : Bool) (m : Phys) : Option (ℕ × ℕ) × Phys :=
  let pde := m.word pgdir (pdx va)
  if hasFlag pde pteP then (some (p2v (pteAddr pde), ptx va), m)
  else if !alloc then (none, m)
  else
    match kalloc m with
    | (none, m) => (none, m)
    | (some pgtab, m) =>
      let m := m.memset pgtab 0
      (some (pgtab, ptx va), m.setWord pgdir (pdx va) (v2p pgtab ||| pteP ||| pteW ||| pteU))

/-- The loop of `mappages`, from the page `a` mapped to `pa` up to the page `last`:
`some (false, _)` is the `-1` of a failed allocation, `none` the `remap` panic. -/
def mappagesLoop (pgdir last perm : ℕ) : ℕ → ℕ → ℕ → Phys → Option (Bool × Phys)
  | 0, _, _, m => some (true, m)
  | fuel + 1, a, pa, m =>
    match walkpgdir pgdir a true m with
    | (none, m) => some (false, m)
    | (some (t, i), m) =>
      if hasFlag (m.word t i) pteP then none
      else
        let m := m.setWord t i (pa ||| perm ||| pteP)
        if a = last then some (true, m)
        else mappagesLoop pgdir last perm fuel (wrap32 (a + pgsize)) (wrap32 (pa + pgsize)) m

/-- `mappages(pgdir, va, size, pa, perm)`: map the pages of `[va, va + size)` to
consecutive pages from `pa`.  `last` is `PGROUNDDOWN(va + size - 1)` in `uint`
arithmetic; no loop runs more than the `2 ^ 20` pages of the address space. -/
def mappages (pgdir va size pa perm : ℕ) (m : Phys) : Option (Bool × Phys) :=
  mappagesLoop pgdir (pgrounddown (wrap32 (va + size + (2 ^ 32 - 1)))) perm (2 ^ 20)
    (pgrounddown va) pa m

/-! ### Freeing -/

/-- The loop of `deallocuvm`, from `a` while `a < oldsz`: a missing page table
skips to the next directory entry, a present page is freed and its entry cleared. -/
def deallocuvmLoop (L : Layout) (pgdir oldsz : ℕ) : ℕ → ℕ → Phys → Option Phys
  | 0, _, m => some m
  | fuel + 1, a, m =>
    if a < oldsz then
      match walkpgdir pgdir a false m with
      | (none, m) =>
        -- `a = PGADDR(PDX(a) + 1, 0, 0) - PGSIZE`, then the loop's `a += PGSIZE`
        deallocuvmLoop L pgdir oldsz fuel
          (wrap32 (wrap32 (pgaddr (pdx a + 1) 0 0 + (2 ^ 32 - pgsize)) + pgsize)) m
      | (some (t, i), m) =>
        let pte := m.word t i
        if hasFlag pte pteP then
          if pteAddr pte = 0 then none
          else
            (kfree L (p2v (pteAddr pte)) m).bind fun m =>
              deallocuvmLoop L pgdir oldsz fuel (wrap32 (a + pgsize)) (m.setWord t i 0)
        else deallocuvmLoop L pgdir oldsz fuel (wrap32 (a + pgsize)) m
    else some m

/-- `deallocuvm(pgdir, oldsz, newsz)`: free the user pages from `PGROUNDUP(newsz)`
below `oldsz`; returns the new size. -/
def deallocuvm (L : Layout) (pgdir oldsz newsz : ℕ) (m : Phys) : Option (ℕ × Phys) :=
  if oldsz ≤ newsz then some (oldsz, m)
  else (deallocuvmLoop L pgdir oldsz (2 ^ 20) (pgroundup newsz) m).map fun m => (newsz, m)

/-- The loop of `freevm` over the directory entries: free every page table. -/
def freePdes (L : Layout) (pgdir : ℕ) : List ℕ → Phys → Option Phys
  | [], m => some m
  | i :: is, m =>
    if hasFlag (m.word pgdir i) pteP then
      (kfree L (p2v (pteAddr (m.word pgdir i))) m).bind (freePdes L pgdir is)
    else freePdes L pgdir is m

/-- `freevm(pgdir)`: free the user pages, every page table, and the directory. -/
def freevm (L : Layout) (pgdir : ℕ) (m : Phys) : Option Phys :=
  if pgdir = 0 then none
  else do
    let (_, m) ← deallocuvm L pgdir kernbase 0 m
    let m ← freePdes L pgdir (List.range npdentries) m
    kfree L pgdir m

/-! ### The kernel map -/

/-- An entry of the `kmap` table. -/
structure Kmap where
  virt : ℕ
  physStart : ℕ
  physEnd : ℕ
  perm : ℕ

/-- `kmap[]`: I/O space, kernel text and read-only data, kernel data and free
memory, and the devices at the top of the address space. -/
def kmap (L : Layout) : List Kmap :=
  [⟨kernbase, 0, extmem, pteW⟩, ⟨kernlink, v2p kernlink, v2p L.data, 0⟩,
    ⟨L.data, v2p L.data, phystop, pteW⟩, ⟨devspace, devspace, 0, pteW⟩]

/-- The loop of `setupkvm` over `kmap`; a failed `mappages` frees the directory and
returns `0`. -/
def setupkvmLoop (L : Layout) (pgdir : ℕ) : List Kmap → Phys → Option (ℕ × Phys)
  | [], m => some (pgdir, m)
  | k :: ks, m =>
    match mappages pgdir k.virt (wrap32 (k.physEnd + (2 ^ 32 - k.physStart))) k.physStart k.perm m with
    | none => none
    | some (true, m) => setupkvmLoop L pgdir ks m
    | some (false, m) => (freevm L pgdir m).map fun m => (0, m)

/-- `setupkvm()`: a new page directory holding the kernel's mappings, `0` when
memory runs out. -/
def setupkvm (L : Layout) (m : Phys) : Option (ℕ × Phys) :=
  match kalloc m with
  | (none, m) => some (0, m)
  | (some pgdir, m) =>
    let m := m.memset pgdir 0
    if devspace < p2v phystop then none
    else setupkvmLoop L pgdir (kmap L) m

/-! ### User memory -/

/-- `inituvm(pgdir, init, sz)`: map one zeroed page at address `0` and copy `init`
into it.  Neither the allocation nor `mappages` is checked: a null page faults
(`none`), and a failed `mappages` leaves the page unmapped. -/
def inituvm (pgdir : ℕ) (init : List UInt8) (m : Phys) : Option Phys :=
  if pgsize ≤ init.length then none
  else
    match kalloc m with
    | (none, _) => none
    | (some mem, m) =>
      let m := m.memset mem 0
      match mappages pgdir 0 pgsize (v2p mem) (pteW ||| pteU) m with
      | none => none
      | some (_, m) => some (m.setPage mem ((m.mem mem).copyIn 0 init))

/-- The loop of `allocuvm` from `a` below `newsz`: each page is allocated, zeroed
and mapped `PTE_W | PTE_U`; on failure what was allocated is freed and `0`
returned. -/
def allocuvmLoop (L : Layout) (pgdir oldsz newsz : ℕ) : ℕ → ℕ → Phys → Option (ℕ × Phys)
  | 0, _, m => some (newsz, m)
  | fuel + 1, a, m =>
    if a < newsz then
      match kalloc m with
      | (none, m) => (deallocuvm L pgdir newsz oldsz m).map fun r => (0, r.2)
      | (some mem, m) =>
        let m := m.memset mem 0
        match mappages pgdir a pgsize (v2p mem) (pteW ||| pteU) m with
        | none => none
        | some (false, m) =>
          (deallocuvm L pgdir newsz oldsz m).bind fun r =>
            (kfree L mem r.2).map fun m => (0, m)
        | some (true, m) => allocuvmLoop L pgdir oldsz newsz fuel (wrap32 (a + pgsize)) m
    else some (newsz, m)

/-- `allocuvm(pgdir, oldsz, newsz)`: grow user memory to `newsz`, which must stay
below `KERNBASE`; returns the new size, or `0` on failure. -/
def allocuvm (L : Layout) (pgdir oldsz newsz : ℕ) (m : Phys) : Option (ℕ × Phys) :=
  if kernbase ≤ newsz then some (0, m)
  else if newsz < oldsz then some (oldsz, m)
  else allocuvmLoop L pgdir oldsz newsz (2 ^ 20) (pgroundup oldsz) m

/-- `clearpteu(pgdir, uva)`: clear `PTE_U` in the entry of `uva`, which must have a
page table. -/
def clearpteu (pgdir uva : ℕ) (m : Phys) : Option Phys :=
  match walkpgdir pgdir uva false m with
  | (none, _) => none
  | (some (t, i), m) => some (m.setWord t i (m.word t i &&& notPteU))

/-- The loop of `copyuvm`: copy each page below `sz` of `pgdir` into a new page
mapped in `d` with the same flags; every page must be present. -/
def copyuvmLoop (L : Layout) (pgdir d sz : ℕ) : ℕ → ℕ → Phys → Option (ℕ × Phys)
  | 0, _, m => some (d, m)
  | fuel + 1, i, m =>
    if i < sz then
      match walkpgdir pgdir i false m with
      | (none, _) => none
      | (some (t, j), m) =>
        let pte := m.word t j
        if !hasFlag pte pteP then none
        else
          match kalloc m with
          | (none, m) => (freevm L d m).map fun m => (0, m)
          | (some mem, m) =>
            let m := m.setPage mem (m.mem (p2v (pteAddr pte)))
            match mappages d i pgsize (v2p mem) (pteFlags pte) m with
            | none => none
            | some (false, m) => (kfree L mem m).bind fun m => (freevm L d m).map fun m => (0, m)
            | some (true, m) => copyuvmLoop L pgdir d sz fuel (wrap32 (i + pgsize)) m
    else some (d, m)

/-- `copyuvm(pgdir, sz)`: a new page directory with a copy of the user memory
below `sz`, `0` when memory runs out. -/
def copyuvm (L : Layout) (pgdir sz : ℕ) (m : Phys) : Option (ℕ × Phys) :=
  match setupkvm L m with
  | none => none
  | some (d, m) => if d = 0 then some (0, m) else copyuvmLoop L pgdir d sz (2 ^ 20) 0 m

/-! ### The processor's view of memory -/

/-- The paging hardware at `va` through the page directory `cr3`: the directory
entry and the page table entry that lead to the page, `none` for a page fault (an
absent entry at either level).  It reads what `walkpgdir` reads, without
allocating. -/
def translate (cr3 va : ℕ) (m : Phys) : Option (ℕ × ℕ) :=
  match walkpgdir cr3 va false m with
  | (none, _) => none
  | (some (t, i), _) => if hasFlag (m.word t i) pteP then some (m.word cr3 (pdx va), m.word t i) else none

/-- A load of the byte at `va` in kernel mode, which needs only present entries. -/
def loadByte (cr3 va : ℕ) (m : Phys) : Option UInt8 :=
  (translate cr3 va m).map fun e => m.mem (p2v (pteAddr e.2)) (va % pgsize)

/-- A load of the word at the 4-aligned `va` in kernel mode. -/
def loadWord (cr3 va : ℕ) (m : Phys) : Option ℕ :=
  (translate cr3 va m).map fun e => (m.mem (p2v (pteAddr e.2))).word (va % pgsize / 4)

/-- The tests of `uva2ka` on an entry: the kernel address of the page of a present
user entry, `none` for the `0` it returns otherwise. -/
def userPageOf (pte : ℕ) : Option ℕ :=
  if !hasFlag pte pteP then none
  else if !hasFlag pte pteU then none
  else some (p2v (pteAddr pte))

/-- `uva2ka(pgdir, uva)`: the kernel address of the user page of `uva`, `some none`
for the `0` of an absent or non-user page.  Without a page table `walkpgdir`
returns the null pointer, and `*pte` is a load of the word at address `0` through
the page directory the processor is using, `cr3`: during `exec` that of the
calling process, whose user memory starts at `0`.  A page fault there is a kernel
fault (`none`). -/
def uva2ka (cr3 pgdir uva : ℕ) (m : Phys) : Option (Option ℕ) :=
  let pte? : Option ℕ :=
    match walkpgdir pgdir uva false m with
    | (none, m) => loadWord cr3 0 m
    | (some (t, i), m) => some (m.word t i)
  pte?.map userPageOf

/-- The `n` bytes from offset `off` of a source that is read in the current memory
(`none` for a page fault): what one `memmove` copies. -/
def readSrc (src : Phys → ℕ → Option UInt8) (m : Phys) : ℕ → ℕ → Option (List UInt8)
  | _, 0 => some []
  | off, n + 1 => (src m off).bind fun b => (readSrc src m (off + 1) n).map fun bs => b :: bs

/-- The loop of `copyout`: copy `len` bytes of `src` from offset `off` to user
address `va` page by page; `false` is the `-1` of a page `uva2ka` refuses.  Each
`memmove` reads its source when it runs.  A store outside the kernel's map of
physical memory is not modelled (`none`). -/
def copyoutLoop (cr3 pgdir : ℕ) (src : Phys → ℕ → Option UInt8) :
    ℕ → ℕ → ℕ → ℕ → Phys → Option (Bool × Phys)
  | 0, _, _, _, m => some (true, m)
  | fuel + 1, va, off, len, m =>
    if len = 0 then some (true, m)
    else
      let va0 := pgrounddown va
      match uva2ka cr3 pgdir va0 m with
      | none => none
      | some none => some (false, m)
      | some (some pa0) =>
        let n := min (pgsize - (va - va0)) len
        if pa0 < kernbase ∨ kernbase + phystop ≤ pa0 then none
        else
          match readSrc src m off n with
          | none => none
          | some bs =>
            copyoutLoop cr3 pgdir src fuel (wrap32 (va0 + pgsize)) (off + n) (len - n)
              (m.setPage pa0 ((m.mem pa0).copyIn (va - va0) bs))

/-- `copyout(pgdir, va, p, len)` while the processor uses the directory `cr3`: one
page of the loop per iteration, at most `len / PGSIZE + 2` of them. -/
def copyout (cr3 pgdir va : ℕ) (src : Phys → ℕ → Option UInt8) (len : ℕ) (m : Phys) :
    Option (Bool × Phys) :=
  copyoutLoop cr3 pgdir src (len / pgsize + 2) va 0 len m

/-! ### Reading a file into user memory -/

/-- The contents of a regular file: its bytes and its size. -/
structure FileData where
  bytes : ℕ → UInt8
  size : ℕ

/-- The count `readi(ip, dst, off, n)` returns on a regular file, `none` for `-1`:
nothing at or past a bad offset, and the read is cut at the end of the file. -/
def FileData.readCount (f : FileData) (off n : ℕ) : Option ℕ :=
  if f.size < off ∨ wrap32 (off + n) < off then none
  else some (if f.size < off + n then f.size - off else n)

/-- The `c` bytes `readi` copies from offset `off`. -/
def FileData.slice (f : FileData) (off c : ℕ) : List UInt8 :=
  (List.range c).map fun k => f.bytes (off + k)

/-- The loop of `loaduvm`: read the segment page by page into the pages its
entries name; a short read is `-1`. -/
def loaduvmLoop (pgdir addr : ℕ) (f : FileData) (offset sz : ℕ) :
    ℕ → ℕ → Phys → Option (Bool × Phys)
  | 0, _, m => some (true, m)
  | fuel + 1, i, m =>
    if i < sz then
      match walkpgdir pgdir (wrap32 (addr + i)) false m with
      | (none, _) => none
      | (some (t, j), m) =>
        let pa := pteAddr (m.word t j)
        let n := if sz - i < pgsize then sz - i else pgsize
        match f.readCount (offset + i) n with
        | none => some (false, m)
        | some c =>
          let m := m.setPage (p2v pa) ((m.mem (p2v pa)).copyIn 0 (f.slice (offset + i) c))
          if c = n then loaduvmLoop pgdir addr f offset sz fuel (wrap32 (i + pgsize)) m
          else some (false, m)
    else some (true, m)

/-- `loaduvm(pgdir, addr, ip, offset, sz)`: `addr` must be page aligned. -/
def loaduvm (pgdir addr : ℕ) (f : FileData) (offset sz : ℕ) (m : Phys) : Option (Bool × Phys) :=
  if addr % pgsize ≠ 0 then none
  else loaduvmLoop pgdir addr f offset sz (2 ^ 20) 0 m

end Xv6
