import Xv6.Copyout
import Xv6.Proc

/-!
# Replacing the image of a process: `exec`

`exec(path, argv)` builds a new address space beside the caller's: `setupkvm` for
the kernel part, `allocuvm` and `loaduvm` for each loadable segment of the ELF
file, then two pages at the next page boundary, the lower made a guard by
`clearpteu` and the upper the user stack.  The argument strings are pushed down
the stack one after the other, each at a 4-aligned address, and under them the
array `main` receives: a fake return address, `argc`, `argv` and the pointers.
Only then does the caller take the new directory, size, entry point and stack
pointer, and its old directory is freed; a failure before that goes to `bad:`,
which frees the new directory.

While `exec` runs, the processor still uses the caller's directory: the argument
strings are read through it, and so is the word that `uva2ka` loads through a null
page table entry.

Each stage is a function of the machine state `Phys`, `none` for a kernel panic,
whose outcome is a `Stage`: on to the next stage, or to `bad:`.  The path lookup,
the inode lock and the log transaction are left out: the file is given by its
contents, or `none` when `namei` fails.

## Main definitions

* `Elfhdr`, `Proghdr` — the header fields `exec` reads, at their offsets.
* `loadSegs` — the loop over the program headers.
* `strlen`, `pushArgs`, `execStack` — the user stack.
* `exec` — the whole call, on the fields of the caller's `struct proc` it writes.

## Main results

* `loadByte_congr`, `loadWord_congr` — the kernel's loads through the caller's
  directory read only the caller's pages.
* `strlenLoop_eq`, `readSrc_eq` — reading a string the caller holds.
* `exec_overwrites_pgdir` — an argument about 32 MB longer than the new image
  wraps the stack pointer below zero, and `exec` returns `-1` after writing the
  argument's bytes over the page that the caller's word at address `0` names.
-/

namespace Xv6

/-! ### ELF headers -/

/-- `ELF_MAGIC`: `"\x7FELF"` read as a little-endian `uint`. -/
def elfMagic : ℕ := 0x464C457F

/-- `ELF_PROG_LOAD`. -/
def elfProgLoad : ℕ := 1

/-- `sizeof(struct elfhdr)`. -/
def elfhdrSize : ℕ := 52

/-- `sizeof(struct proghdr)`. -/
def proghdrSize : ℕ := 32

/-- The fields of `struct elfhdr` that `exec` reads. -/
structure Elfhdr where
  magic : ℕ
  entry : ℕ
  phoff : ℕ
  phnum : ℕ
  deriving DecidableEq, Repr

/-- The header at the start of the file, as `readi` copies it into `elf`. -/
def Elfhdr.read (f : FileData) : Elfhdr where
  magic := LittleEndian.read f.bytes 0 4
  entry := LittleEndian.read f.bytes 24 4
  phoff := LittleEndian.read f.bytes 28 4
  phnum := LittleEndian.read f.bytes 44 2

/-- The fields of `struct proghdr` that `exec` reads. -/
structure Proghdr where
  type : ℕ
  off : ℕ
  vaddr : ℕ
  filesz : ℕ
  memsz : ℕ
  deriving DecidableEq, Repr

/-- The program header at file offset `off`. -/
def Proghdr.read (f : FileData) (off : ℕ) : Proghdr where
  type := LittleEndian.read f.bytes off 4
  off := LittleEndian.read f.bytes (off + 4) 4
  vaddr := LittleEndian.read f.bytes (off + 8) 4
  filesz := LittleEndian.read f.bytes (off + 16) 4
  memsz := LittleEndian.read f.bytes (off + 20) 4

/-! ### The stages of `exec` -/

/-- How a stage of `exec` ends: on to the next stage with what it computed, or at
`bad:` with memory as it left it. -/
inductive Stage (α : Type) where
  | next (a : α) (m : Phys)
  | bad (m : Phys)

/-- The loop over the program headers, with `n` headers left, the next at file
offset `off`, and the image loaded up to `sz`.  The C `int off` is stepped in
`uint` arithmetic, as `readi` takes it. -/
def loadSegs (L : Layout) (pgdir : ℕ) (f : FileData) : ℕ → ℕ → ℕ → Phys → Option (Stage ℕ)
  | 0, _, sz, m => some (.next sz m)
  | n + 1, off, sz, m =>
    if f.readCount off proghdrSize ≠ some proghdrSize then some (.bad m)
    else
      let ph := Proghdr.read f off
      if ph.type ≠ elfProgLoad then loadSegs L pgdir f n (wrap32 (off + proghdrSize)) sz m
      else if ph.memsz < ph.filesz then some (.bad m)
      else if wrap32 (ph.vaddr + ph.memsz) < ph.vaddr then some (.bad m)
      else
        match allocuvm L pgdir sz (wrap32 (ph.vaddr + ph.memsz)) m with
        | none => none
        | some (sz, m) =>
          if sz = 0 then some (.bad m)
          else if ph.vaddr % pgsize ≠ 0 then some (.bad m)
          else
            match loaduvm pgdir ph.vaddr f ph.off ph.filesz m with
            | none => none
            | some (false, m) => some (.bad m)
            | some (true, m) => loadSegs L pgdir f n (wrap32 (off + proghdrSize)) sz m

/-- The loop of `strlen(s)` from index `n`, reading through the directory `cr3`:
the index of the first `0`, `none` for a page fault. -/
def strlenLoop (cr3 s : ℕ) (m : Phys) : ℕ → ℕ → Option ℕ
  | 0, _ => none
  | fuel + 1, n =>
    match loadByte cr3 (wrap32 (s + n)) m with
    | none => none
    | some b => if b = 0 then some n else strlenLoop cr3 s m fuel (n + 1)

/-- `strlen(s)`: no string runs past the `2 ^ 32` bytes of the address space. -/
def strlen (cr3 s : ℕ) (m : Phys) : Option ℕ := strlenLoop cr3 s m (2 ^ 32) 0

/-- The bytes from the kernel pointer `s`, which `copyout` reads through `cr3`
when it copies them. -/
def userSrc (cr3 s : ℕ) : Phys → ℕ → Option UInt8 := fun m off => loadByte cr3 (wrap32 (s + off)) m

/-- The bytes of the words `ws` in memory order: the array `ustack` on the kernel
stack. -/
def wordsSrc (ws : List ℕ) : Phys → ℕ → Option UInt8 :=
  fun _ off => some (UInt8.ofNat (ws.getD (off / 4) 0 / 256 ^ (off % 4)))

/-- The loop that pushes the argument strings: from `sp` down, each string at the
4-aligned address below the one before, with `ustack` the pointers pushed so far.
The source calls `strlen` twice on one string, with nothing written in between. -/
def pushArgs (cr3 pgdir : ℕ) : List ℕ → ℕ → List ℕ → Phys → Option (Stage (ℕ × List ℕ))
  | [], sp, ustack, m => some (.next (sp, ustack) m)
  | s :: argv, sp, ustack, m =>
    if maxarg ≤ ustack.length then some (.bad m)
    else
      match strlen cr3 s m with
      | none => none
      | some len =>
        let sp := wrap32 (sp + (2 ^ 32 - wrap32 (len + 1))) &&& (2 ^ 32 - 4)
        match copyout cr3 pgdir sp (userSrc cr3 s) (len + 1) m with
        | none => none
        | some (false, m) => some (.bad m)
        | some (true, m) => pushArgs cr3 pgdir argv sp (ustack ++ [sp]) m

/-- The user stack of the image `pgdir` loaded up to `sz`: two pages at the next
page boundary, the lower a guard, then the argument strings and under them the
array `main` receives.  The outcome is the new size and stack pointer. -/
def execStack (L : Layout) (cr3 pgdir sz : ℕ) (argv : List ℕ) (m : Phys) : Option (Stage (ℕ × ℕ)) :=
  let sz := pgroundup sz
  match allocuvm L pgdir sz (wrap32 (sz + 2 * pgsize)) m with
  | none => none
  | some (sz, m) =>
    if sz = 0 then some (.bad m)
    else
      match clearpteu pgdir (wrap32 (sz + (2 ^ 32 - 2 * pgsize))) m with
      | none => none
      | some m =>
        match pushArgs cr3 pgdir argv sz [] m with
        | none => none
        | some (.bad m) => some (.bad m)
        | some (.next (sp, ustack) m) =>
          let argc := ustack.length
          -- the fake return PC, `argc`, `argv`, the pointers and a null pointer
          let ws := [0xffffffff, argc, wrap32 (sp + (2 ^ 32 - (argc + 1) * 4))] ++ ustack ++ [0]
          let sp := wrap32 (sp + (2 ^ 32 - (3 + argc + 1) * 4))
          match copyout cr3 pgdir sp (wordsSrc ws) ((3 + argc + 1) * 4) m with
          | none => none
          | some (false, m) => some (.bad m)
          | some (true, m) => some (.next (sz, sp) m)

/-- The loop of `exec` that finds the last element of the path: `last` moves past
each `'/'`. -/
def lastElem : List Char → List Char → List Char
  | last, [] => last
  | last, c :: s => if c = '/' then lastElem s s else lastElem last s

/-- The fields of the caller's `struct proc` that `exec` writes. -/
structure ExecProc where
  pgdir : ℕ
  sz : ℕ
  tf : Trapframe
  name : List Char
  deriving DecidableEq, Repr

/-- `bad:` once the new directory `pgdir` exists: it is freed and `exec` returns
`-1` with the caller's fields as they were. -/
def execBad (L : Layout) (pgdir : ℕ) (p : ExecProc) (m : Phys) : Option (ℤ × ExecProc × Phys) :=
  (freevm L pgdir m).map fun m => (-1, p, m)

/-- `exec(path, argv)` by the process `p`, with `ip` the contents of the file that
`namei(path)` finds and `argv` the kernel pointers of `sys_exec`'s array before
its null entry: the C return value, the caller's fields and memory.  The name is
what `safestrcpy` keeps of the last element, `15` characters. -/
def exec (L : Layout) (ip : Option FileData) (path : List Char) (argv : List ℕ) (p : ExecProc)
    (m : Phys) : Option (ℤ × ExecProc × Phys) :=
  match ip with
  | none => some (-1, p, m)
  | some f =>
    let elf := Elfhdr.read f
    if f.readCount 0 elfhdrSize ≠ some elfhdrSize then some (-1, p, m)
    else if elf.magic ≠ elfMagic then some (-1, p, m)
    else
      match setupkvm L m with
      | none => none
      | some (pgdir, m) =>
        if pgdir = 0 then some (-1, p, m)
        else
          match loadSegs L pgdir f elf.phnum elf.phoff 0 m with
          | none => none
          | some (.bad m) => execBad L pgdir p m
          | some (.next sz m) =>
            match execStack L p.pgdir pgdir sz argv m with
            | none => none
            | some (.bad m) => execBad L pgdir p m
            | some (.next (sz, sp) m) =>
              let p' : ExecProc :=
                { pgdir := pgdir, sz := sz, tf := { p.tf with eip := elf.entry, esp := sp },
                  name := (lastElem path path).take 15 }
              (freevm L p.pgdir m).map fun m => (0, p', m)

/-! ### The caller's memory -/

section Caller

variable {cr3 va : ℕ} {m m' : Phys}

/-- What the paging hardware finds is the entry of `va` in the directory. -/
theorem pteOf_of_translate {e : ℕ × ℕ} (h : translate cr3 va m = some e) : pteOf m.mem cr3 va = some e.2 := by
  unfold translate at h
  cases hpd : pdeTable m.mem cr3 (pdx va) with
  | none =>
    rw [walkpgdir_of_none hpd] at h
    cases h
  | some t =>
    rw [walkpgdir_of_pdeTable hpd] at h
    dsimp only at h
    split_ifs at h with hP
    cases h
    simp only [pteOf, pteAt, hpd, Option.bind_some, presentPte]
    exact if_pos hP

theorem mem_footprint_of_dir {q : ℕ} (hq : q ∈ cr3 :: tables m.mem cr3) : q ∈ footprint m.mem cr3 := by
  rcases List.mem_cons.mp hq with rfl | hq
  · exact .head _
  · exact .tail _ (List.mem_append_left _ hq)

/-- The page that the hardware finds for a user address is a user page of the
directory. -/
theorem mem_footprint_of_translate {e : ℕ × ℕ} (hva : va < kernbase) (h : translate cr3 va m = some e) :
    p2v (pteAddr e.2) ∈ footprint m.mem cr3 := by
  have hpdx : pdx va < pdx kernbase := by
    unfold pdx kernbase at *
    omega
  exact .tail _ (List.mem_append_right _
    (mem_userPages.mpr ⟨pdx va, hpdx, ptx va, ptx_lt va, e.2, pteOf_of_translate h, rfl⟩))

/-- The hardware's walk through `cr3` reads the directory page and its tables only. -/
theorem translate_congr (h : ∀ q ∈ cr3 :: tables m.mem cr3, m'.mem q = m.mem q) (va : ℕ) :
    translate cr3 va m' = translate cr3 va m := by
  have hd := h cr3 (.head _)
  cases hpd : pdeTable m.mem cr3 (pdx va) with
  | none =>
    have hpd' : pdeTable m'.mem cr3 (pdx va) = none := (pdeTable_congr hd _).trans hpd
    simp only [translate, walkpgdir_of_none hpd, walkpgdir_of_none hpd']
  | some t =>
    have hpd' : pdeTable m'.mem cr3 (pdx va) = some t := (pdeTable_congr hd _).trans hpd
    have ht : m'.word t (ptx va) = m.word t (ptx va) := by
      rw [Phys.word, h t (.tail _ (mem_tables.mpr ⟨_, pdx_lt va, hpd⟩))]
      rfl
    have hw : m'.word cr3 (pdx va) = m.word cr3 (pdx va) := by
      rw [Phys.word, hd]
      rfl
    rw [translate, translate, walkpgdir_of_pdeTable hpd, walkpgdir_of_pdeTable hpd']
    dsimp only
    rw [ht, hw]

/-- A kernel load of a byte below `KERNBASE` through `cr3` reads the pages of `cr3`
only. -/
theorem loadByte_congr (h : ∀ q ∈ footprint m.mem cr3, m'.mem q = m.mem q) (hva : va < kernbase) :
    loadByte cr3 va m' = loadByte cr3 va m := by
  unfold loadByte
  rw [translate_congr fun q hq => h q (mem_footprint_of_dir hq)]
  cases ht : translate cr3 va m with
  | none => rfl
  | some e => simp only [Option.map_some, h _ (mem_footprint_of_translate hva ht)]

/-- The same for a load of a word. -/
theorem loadWord_congr (h : ∀ q ∈ footprint m.mem cr3, m'.mem q = m.mem q) (hva : va < kernbase) :
    loadWord cr3 va m' = loadWord cr3 va m := by
  unfold loadWord
  rw [translate_congr fun q hq => h q (mem_footprint_of_dir hq)]
  cases ht : translate cr3 va m with
  | none => rfl
  | some e => simp only [Option.map_some, h _ (mem_footprint_of_translate hva ht)]

end Caller

/-! ### Reading a string -/

section Strings

variable {cr3 s len : ℕ} {m : Phys} {arg : ℕ → UInt8}

/-- The loop of `strlen` from `n` over a string whose bytes can be read up to its
first `0`, at `len`, finds that `0` when its fuel reaches it. -/
theorem strlenLoop_eq (hstr : ∀ k ≤ len, loadByte cr3 (wrap32 (s + k)) m = some (arg k))
    (hnz : ∀ k < len, arg k ≠ 0) (hz : arg len = 0) :
    ∀ fuel n, n ≤ len → len - n < fuel → strlenLoop cr3 s m fuel n = some len := by
  intro fuel
  -- induction on the fuel, the index moving up to `len`
  induction fuel with
  | zero =>
    intro n _ h
    omega
  | succ fuel ih =>
    intro n hn hf
    rw [strlenLoop, hstr n hn]
    dsimp only
    rcases hn.lt_or_eq with hlt | rfl
    · rw [if_neg (hnz n hlt)]
      exact ih (n + 1) hlt (by omega)
    · rw [if_pos hz]

/-- `memmove` reads the `n` bytes of its source from `off`. -/
theorem readSrc_eq {src : Phys → ℕ → Option UInt8} {g : ℕ → UInt8} :
    ∀ {off n : ℕ}, (∀ k < n, src m (off + k) = some (g (off + k))) →
      readSrc src m off n = some ((List.range n).map fun k => g (off + k))
  | _, 0, _ => rfl
  | off, n + 1, h => by
    have h₀ := h 0 (Nat.succ_pos n)
    have hrest : ∀ k < n, src m (off + 1 + k) = some (g (off + 1 + k)) := fun k hk => by
      rw [Nat.add_assoc, Nat.add_comm 1 k]
      exact h (k + 1) (by omega)
    rw [Nat.add_zero] at h₀
    rw [readSrc, h₀, Option.bind_some, readSrc_eq hrest, Option.map_some, List.range_succ_eq_map]
    simp [Nat.add_assoc, Nat.add_comm 1]

end Strings

/-! ### An argument that wraps the stack pointer -/

section Wrap

variable {L : Layout} {cr3 d a w : ℕ} {arg : ℕ → UInt8} {m : Phys} {y : List ℕ}

/-- The stack of an empty image, with one argument of `0x02002FFF` bytes that the
caller holds below `KERNBASE`.  The two stack pages are mapped at `0`, so `sp`
starts at `0x2000`, and `(0x2000 - 0x02003000) & ~3` wraps to `0xFDFFF000`, in the
hole below `DEVSPACE` where the new directory has no page table.  The argument's
`copyout` then writes its first page over the page that the caller's word at
address `0` names, and fails at `DEVSPACE`. -/
theorem execStack_wraps (hs : m.Sound L (footprint m.mem d ++ y)) (hk : KernelDir L m.mem d)
    (hcov : ∀ i, (pdeTable m.mem d i).isSome → coversPde (kmap L) i) (hlen : 4 ≤ m.freelist.length)
    (hcr3 : L.Freeable cr3) (hcaller : ∀ q ∈ footprint m.mem cr3, q ∉ m.freelist ++ (footprint m.mem d ++ y))
    (hw : loadWord cr3 0 m = some w) (hP : hasFlag w pteP = true) (hU : hasFlag w pteU = true)
    (hself : p2v (pteAddr w) = cr3)
    (hstr : ∀ k ≤ 0x02002FFF, loadByte cr3 (a + k) m = some (arg k)) (hnz : ∀ k < 0x02002FFF, arg k ≠ 0)
    (hz : arg 0x02002FFF = 0) (ha : a + 0x02002FFF < kernbase) :
    ∃ m', execStack L cr3 d 0 [a] m = some (.bad m') ∧ m'.Sound L (footprint m'.mem d ++ y) ∧
      cr3 ∉ m'.freelist ++ (footprint m'.mem d ++ y) ∧
      m'.mem cr3 = (m.mem cr3).copyIn 0 ((List.range pgsize).map arg) := by
  -- the two stack pages, in a directory with no user page table
  have hnomap : ∀ v < kernbase, (pteOf m.mem d v).isSome → pgrounddown v < 0 := fun v hv hv' => by
    have hpdx : pdx v < pdx kernbase := by
      unfold pdx kernbase at *
      omega
    rw [pteOf, pteAt, hk.user _ hpdx] at hv'
    cases hv'
  obtain ⟨m₂, hrun₂, htab₂⟩ := allocuvm_ok hs (by decide) hnomap (Nat.zero_le (2 * pgsize))
    (show 2 * pgsize < kernbase by decide) (le_trans (by rw [pgroundup_zero]; decide) hlen)
  obtain ⟨r, m₂', hrun₂', hconf₂, -, hres₂⟩ := @allocuvm_spec L d 0 (2 * pgsize) y m hs (by decide) hnomap
  obtain ⟨rfl, rfl⟩ := Prod.mk.inj (Option.some.inj (hrun₂.symm.trans hrun₂'))
  rcases hres₂ (by decide) with ⟨h0, -⟩ | ⟨-, -, -, hpte₂⟩
  · exact absurd h0 (by decide)
  have hs₂ := hs.of_confined hconf₂
  -- the guard page at `0` has a page table, and `clearpteu` writes into it
  obtain ⟨t, ht⟩ : ∃ t, pdeTable m₂.mem d (pdx 0) = some t := by
    have h0 := hpte₂ 0 (by decide)
    rw [if_pos ⟨by rw [pgroundup_zero], by decide⟩] at h0
    obtain ⟨g, hg⟩ := h0
    unfold pteOf pteAt at hg
    obtain ⟨t, ht, -⟩ := Option.bind_eq_some_iff.mp hg
    exact ⟨t, ht⟩
  obtain ⟨m₃, hrun₃, hd₃, hpte₃, hfp₃, hconf₃⟩ := clearpteu_spec hs₂ ht
  have hs₃ : m₃.Sound L (footprint m₃.mem d ++ y) := by
    rw [hfp₃]
    exact hs₂.of_confined hconf₃
  have hconf := hconf₂.trans hconf₃
  -- the caller's pages are as they were
  have hframe : ∀ q ∈ footprint m.mem cr3, m₃.mem q = m.mem q := fun q hq =>
    hconf.frame q (fun h => hcaller q hq (List.mem_append_left _ h))
      (fun h => hcaller q hq (List.mem_append_right _ h))
  have hstr₃ : ∀ k ≤ 0x02002FFF, loadByte cr3 (wrap32 (a + k)) m₃ = some (arg k) := fun k hk => by
    have hak : a + k < kernbase := by omega
    rw [wrap32_of_lt (lt_trans hak (by decide)), loadByte_congr hframe hak, hstr k hk]
  have hlen₃ : strlen cr3 a m₃ = some 0x02002FFF :=
    strlenLoop_eq hstr₃ hnz hz _ _ (Nat.zero_le _) (by decide)
  -- the argument's copy: no page table at `0xFDFFF000`, and the device page above
  have hnone : pdeTable m₃.mem d (pdx 0xFDFFF000) = none := by
    rw [pdeTable_congr hd₃]
    cases h₂ : pdeTable m₂.mem d (pdx 0xFDFFF000) with
    | none => rfl
    | some t' =>
      rcases htab₂ _ (by rw [h₂]; rfl) with h₁ | h₁
      · rw [pdeTable_hole L hcov (by decide) (by decide)] at h₁
        cases h₁
      · exact absurd h₁ (by decide)
  have hdev : pteOf m₃.mem d 0xFE000000 = some (0xFE000000 ||| pteW ||| pteP) := by
    have h₂ := hpte₂ 0xFE000000 (by decide)
    rw [if_neg (by rw [pgroundup_zero]; decide)] at h₂
    calc pteOf m₃.mem d 0xFE000000 = pteOf m₂.mem d 0xFE000000 := hpte₃ _ (pdx_lt _) _ (by decide)
      _ = kmapPte L 0xFE000000 := h₂.trans (hk.kernel _ (by decide) (by decide))
      _ = _ := kmapPte_devspace L
  have hout : p2v (pteAddr w) ∉ d :: tables m₃.mem d := by
    rw [hself, tables_congr hd₃]
    intro hq
    have hq' : cr3 ∈ m₃.freelist ++ (footprint m₂.mem d ++ y) :=
      List.mem_append_right _ (List.mem_append_left _ (mem_footprint_of_dir hq))
    exact hcaller cr3 (.head _) (hconf.mem_iff.mp hq')
  have hbs : readSrc (userSrc cr3 a) m₃ 0 pgsize = some ((List.range pgsize).map arg) := by
    have h : readSrc (userSrc cr3 a) m₃ 0 pgsize = some ((List.range pgsize).map fun k => arg (0 + k)) :=
      readSrc_eq fun k hk => by
        rw [Nat.zero_add]
        exact hstr₃ k (by unfold pgsize at hk; omega)
    simpa using h
  have hcopy := copyout_hole_page hnone hdev ((loadWord_congr hframe (by decide)).trans hw) hP hU
    (by rw [hself]; exact hcr3.kernbase_le) (by rw [hself]; exact hcr3.lt_top) hout hbs
    (show pgsize < 0x02002FFF + 1 by decide)
  rw [hself] at hcopy
  obtain ⟨m₄, hm₄⟩ : ∃ x, x = m₃.setPage cr3 ((m₃.mem cr3).copyIn 0 ((List.range pgsize).map arg)) :=
    ⟨_, rfl⟩
  rw [← hm₄] at hcopy
  have hpush : pushArgs cr3 d [a] (2 * pgsize) [] m₃ = some (.bad m₄) := by
    rw [pushArgs, if_neg (by decide), hlen₃]
    show (match copyout cr3 d 0xFDFFF000 (userSrc cr3 a) (0x02002FFF + 1) m₃ with
      | none => none
      | some (false, m) => some (Stage.bad m)
      | some (true, m) => pushArgs cr3 d [] 0xFDFFF000 ([] ++ [0xFDFFF000]) m) = _
    rw [hcopy]
  -- the write leaves the new directory's pages alone
  have hdir₄ : ∀ q ∈ d :: tables m₃.mem d, m₄.mem q = m₃.mem q := fun q hq => by
    rw [hm₄]
    exact Phys.setPage_mem_of_ne _ _ (by rintro rfl; exact hout (hself ▸ hq))
  have hfp₄ : footprint m₄.mem d = footprint m₃.mem d := footprint_congr hdir₄
  refine ⟨m₄, ?_, ?_, ?_, ?_⟩
  · dsimp only [execStack]
    rw [pgroundup_zero, show wrap32 (0 + 2 * pgsize) = 2 * pgsize from rfl, hrun₂]
    dsimp only
    rw [if_neg (by decide), show wrap32 (2 * pgsize + (2 ^ 32 - 2 * pgsize)) = 0 from rfl, hrun₃]
    dsimp only
    rw [hpush]
  · rw [hfp₄, hm₄]
    exact ⟨hs₃.nodup, hs₃.freeable⟩
  · rw [hfp₄, hm₄, hfp₃]
    exact fun h => hcaller cr3 (.head _) (hconf.mem_iff.mp h)
  · rw [hm₄, Phys.setPage_mem_self, hframe cr3 (.head _)]

/-- **`exec` fails after writing the caller's page directory.**  A file with a
valid ELF header and no program headers, and one argument of `0x02002FFF` bytes
that the caller holds below `KERNBASE`, in a process whose pages are none of the free
pages and whose word at address `0` is a present user entry naming its own page
directory.  `exec` builds the new
directory and the two stack pages, then pushes the argument at `0xFDFFF000`,
where `copyout` follows the null page table entry to the caller's word at `0`.  It
returns `-1` with the caller's fields as they were, but the caller's page
directory now holds the argument's first `PGSIZE` bytes. -/
theorem exec_overwrites_pgdir {f : FileData} {path : List Char} {p : ExecProc}
    (hs : m.Sound L []) (hcaller : ∀ q ∈ footprint m.mem p.pgdir, q ∉ m.freelist) (hcr3 : L.Freeable p.pgdir)
    (hfree : 69 ≤ m.freelist.length)
    (hf : f.readCount 0 elfhdrSize = some elfhdrSize) (hmagic : (Elfhdr.read f).magic = elfMagic)
    (hphnum : (Elfhdr.read f).phnum = 0)
    (hw : loadWord p.pgdir 0 m = some w) (hP : hasFlag w pteP = true) (hU : hasFlag w pteU = true)
    (hself : p2v (pteAddr w) = p.pgdir)
    (hstr : ∀ k ≤ 0x02002FFF, loadByte p.pgdir (a + k) m = some (arg k)) (hnz : ∀ k < 0x02002FFF, arg k ≠ 0)
    (hz : arg 0x02002FFF = 0) (ha : a + 0x02002FFF < kernbase) :
    ∃ m', exec L (some f) path [a] p m = some (-1, p, m') ∧
      m'.mem p.pgdir = (m.mem p.pgdir).copyIn 0 ((List.range pgsize).map arg) := by
  obtain ⟨d, m₁, hrun₁, hres⟩ := setupkvm_cases hs
  rcases hres with ⟨-, -, hshort⟩ | ⟨hd, hconf₁, hk, -, hcov⟩
  · omega
  -- `setupkvm` wrote free pages only, and took at most 65 of them
  have hframe : ∀ q ∈ footprint m.mem p.pgdir, m₁.mem q = m.mem q := fun q hq =>
    hconf₁.frame q (hcaller q hq) List.not_mem_nil
  have hfp₁ : footprint m₁.mem p.pgdir = footprint m.mem p.pgdir :=
    footprint_congr fun q hq => hframe q (mem_footprint_of_dir hq)
  have hlen₁ : 4 ≤ m₁.freelist.length := by
    have hl := hconf₁.perm.length_eq
    have ht := tables_length_of_covers L hcov
    rw [footprint, userPages_eq_nil_of_pde hk.user] at hl
    simp only [List.length_append, List.length_cons, List.length_nil] at hl
    omega
  obtain ⟨m₄, hstack, hs₄, hout₄, hm₄⟩ := execStack_wraps (y := []) (hs.of_confined hconf₁) hk hcov hlen₁ hcr3
    (fun q hq h => hcaller q (hfp₁ ▸ hq) (by simpa using hconf₁.mem_iff.mp h))
    ((loadWord_congr hframe (by decide)).trans hw) hP hU hself
    (fun k hk => (loadByte_congr hframe (by omega)).trans (hstr k hk)) hnz hz ha
  obtain ⟨m₅, hrun₅, hconf₅⟩ := freevm_spec hs₄
  refine ⟨m₅, ?_, ?_⟩
  · -- the header checks pass, no segment is loaded, and the stack goes to `bad:`
    have hseg : loadSegs L d f (Elfhdr.read f).phnum (Elfhdr.read f).phoff 0 m₁ = some (.next 0 m₁) := by
      rw [hphnum]
      rfl
    simp only [exec, hf, hmagic, ne_eq, not_true_eq_false, if_false, hrun₁, hd, hseg, hstack, execBad, hrun₅,
      Option.map_some]
  · rw [hconf₅.frame p.pgdir (fun h => hout₄ (List.mem_append_left _ h))
      (fun h => hout₄ (List.mem_append_right _ h)), hm₄, hframe p.pgdir (.head _)]

end Wrap

/-! ### A caller of 36 MB -/

/-- A page whose `uint` at index `i` is `f i`. -/
def Page.ofWords (f : ℕ → ℕ) : Page := fun o => UInt8.ofNat (f (o / 4) / 256 ^ (o % 4))

theorem Page.word_ofWords (f : ℕ → ℕ) (i : ℕ) : (Page.ofWords f).word i = f i % 2 ^ 32 := by
  simp only [Page.word, LittleEndian.read_succ, LittleEndian.read_zero, Page.ofWords]
  rw [show 4 * i / 4 = i by omega, show (4 * i + 1) / 4 = i by omega, show (4 * i + 1 + 1) / 4 = i by omega,
    show (4 * i + 1 + 1 + 1) / 4 = i by omega, show 4 * i % 4 = 0 by omega, show (4 * i + 1) % 4 = 1 by omega,
    show (4 * i + 1 + 1) % 4 = 2 by omega, show (4 * i + 1 + 1 + 1) % 4 = 3 by omega]
  generalize f i = x
  norm_num
  omega

/-- The page directory of `bigCaller`. -/
def bigDir : ℕ := 0x80400000

/-- Its page table for directory entry `i < 9`. -/
def bigTable (i : ℕ) : ℕ := 0x80401000 + i * pgsize

/-- Its user page `n < 9216`, mapped at `n * PGSIZE`. -/
def bigPage (n : ℕ) : ℕ := 0x80800000 + n * pgsize

/-- The argument: `0x02002FFF` bytes `'A'`, then its `0`. -/
def bigArg (k : ℕ) : UInt8 := if k < 0x02002FFF then 65 else 0

/-- A process of 36 MB in 9216 pages, whose word at address `0` is a present,
writable user entry for its own page directory and whose argument string starts
at `PGSIZE`; the 69 free pages from `0x83000000`. -/
def bigCaller : Phys where
  mem q :=
    if q = bigDir then Page.ofWords fun i => if i < 9 then v2p (bigTable i) + 7 else 0
    else if bigTable 0 ≤ q ∧ q < bigTable 9 then
      Page.ofWords fun j => v2p (bigPage ((q - bigTable 0) / pgsize * 1024 + j)) + 7
    else if q = bigPage 0 then Page.ofWords fun j => if j = 0 then v2p bigDir + 7 else 0
    else if bigPage 1 ≤ q ∧ q < bigPage 9216 then fun o => bigArg (q - bigPage 0 + o - pgsize)
    else Page.fill 0
  freelist := pageRange 0x83000000 69

/-- The process `exec` runs in. -/
def bigProc : ExecProc := ⟨bigDir, 9216 * pgsize, Trapframe.zero, []⟩

/-- An ELF header with no program headers. -/
def emptyElf : FileData where
  bytes o := if o = 0 then 0x7F else if o = 1 then 0x45 else if o = 2 then 0x4C else if o = 3 then 0x46 else 0
  size := 52

section BigCaller

theorem bigTable_aligned (i : ℕ) : v2p (bigTable i) % pgsize = 0 := by
  unfold v2p bigTable wrap32 pgsize kernbase
  omega

theorem bigCaller_pdeTable (i : ℕ) : pdeTable bigCaller.mem bigDir i = if i < 9 then some (bigTable i) else none := by
  have hdir : bigCaller.mem bigDir = Page.ofWords fun i => if i < 9 then v2p (bigTable i) + 7 else 0 := by
    simp [bigCaller]
  unfold pdeTable
  rw [hdir, Page.word_ofWords]
  by_cases hi : i < 9
  · have hv : v2p (bigTable i) + 7 < 2 ^ 32 := by
      unfold v2p bigTable wrap32 pgsize kernbase
      omega
    rw [if_pos hi, if_pos hi, Nat.mod_eq_of_lt hv, hasFlag_add (bigTable_aligned i) (by decide) (by decide),
      pteAddr_add (bigTable_aligned i) (by decide), p2v_v2p (by unfold bigTable kernbase; omega)
        (by unfold bigTable pgsize; omega)]
    rfl
  · rw [if_neg hi, if_neg hi, Nat.zero_mod, hasFlag_zero]
    rfl

/-- The entry `PTE_P | PTE_W | PTE_U` for the page `bigPage n`: a present 32-bit
entry naming that page. -/
theorem bigPage_entry {n : ℕ} (hn : n < 9216) :
    v2p (bigPage n) + 7 < 2 ^ 32 ∧ hasFlag (v2p (bigPage n) + 7) pteP = true ∧
      p2v (pteAddr (v2p (bigPage n) + 7)) = bigPage n := by
  have hal : v2p (bigPage n) % pgsize = 0 := by
    unfold v2p bigPage wrap32 pgsize kernbase
    omega
  refine ⟨by unfold v2p bigPage wrap32 pgsize kernbase; omega,
    by rw [hasFlag_add hal (by decide) (by decide)]; decide, ?_⟩
  rw [pteAddr_add hal (by decide), p2v_v2p (by unfold bigPage kernbase; omega) (by unfold bigPage pgsize; omega)]

theorem bigCaller_table {i : ℕ} (hi : i < 9) :
    bigCaller.mem (bigTable i) = Page.ofWords fun j => v2p (bigPage (i * 1024 + j)) + 7 := by
  have h₁ : bigTable i ≠ bigDir := by
    unfold bigTable bigDir pgsize
    omega
  have h₂ : bigTable 0 ≤ bigTable i ∧ bigTable i < bigTable 9 := by
    unfold bigTable pgsize
    omega
  have h₃ : (bigTable i - bigTable 0) / pgsize = i := by
    unfold bigTable pgsize
    omega
  simp only [bigCaller, if_neg h₁, if_pos h₂, h₃]

theorem bigCaller_pteAt {i j : ℕ} (hi : i < 9) (hj : j < 1024) :
    pteAt bigCaller.mem bigDir i j = some (v2p (bigPage (i * 1024 + j)) + 7) := by
  obtain ⟨hlt, hP, -⟩ := bigPage_entry (show i * 1024 + j < 9216 by omega)
  unfold pteAt
  rw [bigCaller_pdeTable, if_pos hi, Option.bind_some, bigCaller_table hi, Page.word_ofWords,
    Nat.mod_eq_of_lt hlt, presentPte, if_pos hP]

/-- The user pages above the first hold the argument string, from `PGSIZE` on. -/
theorem bigCaller_page {n : ℕ} (h₁ : 1 ≤ n) (h₂ : n < 9216) :
    bigCaller.mem (bigPage n) = fun o => bigArg (n * pgsize + o - pgsize) := by
  have hne₁ : bigPage n ≠ bigDir := by
    unfold bigPage bigDir pgsize
    omega
  have hne₂ : ¬(bigTable 0 ≤ bigPage n ∧ bigPage n < bigTable 9) := by
    unfold bigPage bigTable pgsize
    omega
  have hne₃ : bigPage n ≠ bigPage 0 := by
    unfold bigPage pgsize
    omega
  have hin : bigPage 1 ≤ bigPage n ∧ bigPage n < bigPage 9216 := by
    unfold bigPage pgsize
    omega
  have hsub : bigPage n - bigPage 0 = n * pgsize := by
    unfold bigPage pgsize
    omega
  simp only [bigCaller, if_neg hne₁, if_neg hne₂, if_neg hne₃, if_pos hin, hsub]

/-- The paging hardware on `bigCaller`'s directory below 36 MB. -/
theorem bigCaller_translate {va : ℕ} (hva : va < 9 * 2 ^ 22) :
    ∃ e, translate bigDir va bigCaller = some (e, v2p (bigPage (va / pgsize)) + 7) := by
  have hi : pdx va < 9 := by
    unfold pdx
    omega
  have hn : pdx va * 1024 + ptx va = va / pgsize := by
    unfold pdx ptx pgsize
    omega
  have hpd : pdeTable bigCaller.mem bigDir (pdx va) = some (bigTable (pdx va)) := by
    rw [bigCaller_pdeTable, if_pos hi]
  obtain ⟨hlt, hP, -⟩ := bigPage_entry (show va / pgsize < 9216 by unfold pgsize; omega)
  have hword : bigCaller.word (bigTable (pdx va)) (ptx va) = v2p (bigPage (va / pgsize)) + 7 := by
    rw [Phys.word, bigCaller_table hi, Page.word_ofWords, hn, Nat.mod_eq_of_lt hlt]
  refine ⟨bigCaller.word bigDir (pdx va), ?_⟩
  rw [translate, walkpgdir_of_pdeTable hpd]
  dsimp only
  rw [hword, if_pos hP]

/-- The word at address `0`: `bigDir`, present, writable and user. -/
theorem bigCaller_word0 : loadWord bigDir 0 bigCaller = some (v2p bigDir + 7) := by
  obtain ⟨e, he⟩ := bigCaller_translate (show 0 < 9 * 2 ^ 22 by decide)
  have hpage : bigCaller.mem (bigPage 0) = Page.ofWords fun j => if j = 0 then v2p bigDir + 7 else 0 := by
    have hne₁ : bigPage 0 ≠ bigDir := by decide
    have hne₂ : ¬(bigTable 0 ≤ bigPage 0 ∧ bigPage 0 < bigTable 9) := by decide
    simp only [bigCaller, if_neg hne₁, if_neg hne₂, if_true]
  rw [loadWord, he, Option.map_some, (bigPage_entry (show 0 / pgsize < 9216 by decide)).2.2, Nat.zero_div, hpage,
    Page.word_ofWords]
  decide

/-- The argument string, read through the directory. -/
theorem bigCaller_arg {k : ℕ} (hk : k ≤ 0x02002FFF) : loadByte bigDir (pgsize + k) bigCaller = some (bigArg k) := by
  obtain ⟨e, he⟩ := bigCaller_translate (show pgsize + k < 9 * 2 ^ 22 by unfold pgsize; omega)
  have hn : (pgsize + k) / pgsize < 9216 := by
    unfold pgsize
    omega
  rw [loadByte, he, Option.map_some, (bigPage_entry hn).2.2,
    bigCaller_page (by unfold pgsize; omega) hn]
  show some (bigArg ((pgsize + k) / pgsize * pgsize + (pgsize + k) % pgsize - pgsize)) = _
  rw [show (pgsize + k) / pgsize * pgsize + (pgsize + k) % pgsize - pgsize = k by unfold pgsize; omega]

theorem bigCaller_sound : bigCaller.Sound sampleLayout [] := by
  have hfl : bigCaller.freelist ++ [] = pageRange 0x83000000 69 := List.append_nil _
  refine ⟨by rw [hfl]; exact pageRange_nodup _ _, fun q hq => ?_⟩
  rw [hfl] at hq
  obtain ⟨k, hk, rfl⟩ := mem_pageRange.mp hq
  refine ⟨?_, ?_, ?_⟩ <;> simp only [sampleLayout, pgsize, kernbase, phystop] <;> omega

/-- None of the caller's pages is free: they all lie below `0x83000000`. -/
theorem bigCaller_caller : ∀ q ∈ footprint bigCaller.mem bigDir, q ∉ bigCaller.freelist := by
  intro q hq hfree
  obtain ⟨k, -, rfl⟩ := mem_pageRange.mp hfree
  rcases List.mem_cons.mp hq with h | hq
  · unfold bigDir at h
    omega
  rcases List.mem_append.mp hq with hq | hq
  · obtain ⟨i, -, h⟩ := mem_tables.mp hq
    rw [bigCaller_pdeTable] at h
    split_ifs at h with hi
    have h' := Option.some.inj h
    unfold bigTable pgsize at h'
    omega
  · obtain ⟨i, -, j, hj, pte, hpte, h⟩ := mem_userPages.mp hq
    unfold npdentries at hj
    by_cases hi : i < 9
    · rw [bigCaller_pteAt hi hj] at hpte
      cases hpte
      rw [(bigPage_entry (show i * 1024 + j < 9216 by omega)).2.2] at h
      unfold bigPage pgsize at h
      omega
    · rw [pteAt, bigCaller_pdeTable, if_neg hi, Option.bind_none] at hpte
      cases hpte

end BigCaller

theorem exec_overwrites_pgdir_bigCaller :
    ∃ m', exec sampleLayout (some emptyElf) [] [pgsize] bigProc bigCaller = some (-1, bigProc, m') ∧
      m'.mem bigDir = (bigCaller.mem bigDir).copyIn 0 ((List.range pgsize).map bigArg) ∧
      bigCaller.word bigDir 0 = 0x401007 ∧ m'.word bigDir 0 = 0x41414141 := by
  have hstr : ∀ k ≤ 0x02002FFF, loadByte bigProc.pgdir (pgsize + k) bigCaller = some (bigArg k) :=
    fun _ hk => bigCaller_arg hk
  have hnz : ∀ k < 0x02002FFF, bigArg k ≠ 0 := fun k hk => by simp [bigArg, hk]
  obtain ⟨m', hrun, hdir⟩ : ∃ m', exec sampleLayout (some emptyElf) [] [pgsize] bigProc bigCaller = some (-1, bigProc, m') ∧
      m'.mem bigDir = (bigCaller.mem bigDir).copyIn 0 ((List.range pgsize).map bigArg) :=
    exec_overwrites_pgdir bigCaller_sound bigCaller_caller
    (show sampleLayout.Freeable bigDir from ⟨by decide, by decide, by decide⟩) (by decide) (by decide)
    (by decide) (by decide) bigCaller_word0 (by decide) (by decide) (by decide) hstr hnz (by decide) (by decide)
  refine ⟨m', hrun, hdir, by decide +kernel, ?_⟩
  rw [Phys.word, hdir]
  decide +kernel

end Xv6
