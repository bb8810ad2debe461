import Xv6.Sbrk

/-!
# Copying out to a page directory

`copyout(pgdir, va, p, len)` copies to user addresses of a directory that need
not be the running one, page by page, and asks `uva2ka` for each page.  `uva2ka`
walks the directory without a null check: where the directory has no page table,
`walkpgdir` returns the null pointer and `*pte` loads the word at address `0`
through the directory the processor runs on.  A directory `setupkvm` builds has no
page table between `P2V(PHYSTOP)` and `DEVSPACE`, so a copy to an address there
follows whatever entry the running process keeps at its address `0`.

## Main results

* `uva2ka_of_none`, `uva2ka_of_some` — `uva2ka` with and without a page table.
* `pdeTable_hole` — a directory from `setupkvm` has no page table from directory
  entry `568` (`P2V(PHYSTOP)`) to `1015`, below `DEVSPACE`.
* `copyout_hole_page` — a copy from `0xFDFFF000` in such a directory writes the
  page named by the running process's word at address `0`.
* `copyout_follows_null_pte` — a copy of two pages to `0xFDFFF000` in a new
  directory writes the page named by the running process's word at address `0`,
  which is no page of that directory, and then returns `-1`.
-/

namespace Xv6

section Uva2ka

variable {cr3 pgdir uva : ℕ} {m : Phys}

/-- Without a page table for `uva`, `uva2ka` decides on the word at address `0`
of the running directory `cr3`. -/
theorem uva2ka_of_none (h : pdeTable m.mem pgdir (pdx uva) = none) :
    uva2ka cr3 pgdir uva m = (loadWord cr3 0 m).map userPageOf := by
  simp only [uva2ka, walkpgdir_of_none h]

/-- With a page table for `uva`, `uva2ka` decides on `uva`'s entry in it. -/
theorem uva2ka_of_some {t : ℕ} (h : pdeTable m.mem pgdir (pdx uva) = some t) :
    uva2ka cr3 pgdir uva m = some (userPageOf (m.word t (ptx uva))) := by
  simp only [uva2ka, walkpgdir_of_pdeTable h, Option.map_some]

/-- A present entry of `uva` gives `uva2ka` that entry. -/
theorem uva2ka_of_pteOf {e : ℕ} (h : pteOf m.mem pgdir uva = some e) :
    uva2ka cr3 pgdir uva m = some (userPageOf e) := by
  unfold pteOf pteAt at h
  obtain ⟨t, ht, hpte⟩ := Option.bind_eq_some_iff.mp h
  rw [uva2ka_of_some ht]
  obtain ⟨-, rfl⟩ := presentPte_eq_some.mp hpte
  rfl

end Uva2ka

/-- Between the top of physical memory and the devices, a directory whose page
tables all lie in the ranges of `kmap` has none. -/
theorem pdeTable_hole (L : Layout) {mem : ℕ → Page} {d : ℕ}
    (h : ∀ i, (pdeTable mem d i).isSome → coversPde (kmap L) i) {i : ℕ} (h₁ : 568 ≤ i) (h₂ : i < 1016) :
    pdeTable mem d i = none := by
  cases hpd : pdeTable mem d i with
  | none => rfl
  | some t =>
    have hK := kmap_covers L (h i (by simp [hpd]))
    simp only [Finset.mem_union, Finset.mem_Ico] at hK
    omega

/-- The device page at `DEVSPACE` is mapped writable, not user. -/
theorem kmapPte_devspace (L : Layout) : kmapPte L 0xFE000000 = some (0xFE000000 ||| pteW ||| pteP) := by
  unfold kmapPte
  rw [if_neg (by decide), if_pos (by decide)]
  rfl

/-- A copy of more than a page to `0xFDFFF000` in a directory with no page table
there and the device page at `DEVSPACE`: its first page is the one that the word at
address `0` of the running directory names, which it fills with the first `PGSIZE`
bytes of the source, and its second is the device page, where it returns `-1`. -/
theorem copyout_hole_page {cr3 d w len : ℕ} {src : Phys → ℕ → Option UInt8} {bs : List UInt8} {m : Phys}
    (hnone : pdeTable m.mem d (pdx 0xFDFFF000) = none)
    (hdev : pteOf m.mem d 0xFE000000 = some (0xFE000000 ||| pteW ||| pteP))
    (hw : loadWord cr3 0 m = some w) (hP : hasFlag w pteP = true) (hU : hasFlag w pteU = true)
    (hlo : kernbase ≤ p2v (pteAddr w)) (hhi : p2v (pteAddr w) < kernbase + phystop)
    (hout : p2v (pteAddr w) ∉ d :: tables m.mem d) (hbs : readSrc src m 0 pgsize = some bs)
    (hlen : pgsize < len) :
    copyout cr3 d 0xFDFFF000 src len m =
      some (false, m.setPage (p2v (pteAddr w)) ((m.mem (p2v (pteAddr w))).copyIn 0 bs)) := by
  -- the first page: the null entry, and the page it names
  have hfirst : uva2ka cr3 d 0xFDFFF000 m = some (some (p2v (pteAddr w))) := by
    rw [uva2ka_of_none hnone, hw, Option.map_some]
    simp [userPageOf, hP, hU]
  -- the second page: the device page, which the write leaves in the directory
  obtain ⟨m', hm'⟩ : ∃ x, x = m.setPage (p2v (pteAddr w)) ((m.mem (p2v (pteAddr w))).copyIn 0 bs) :=
    ⟨_, rfl⟩
  have hdir : ∀ q ∈ d :: tables m.mem d, m'.mem q = m.mem q := fun q hq => by
    rw [hm']
    exact Phys.setPage_mem_of_ne _ _ (ne_of_mem_of_not_mem hq hout)
  have hsecond : uva2ka cr3 d 0xFE000000 m' = some none := by
    rw [uva2ka_of_pteOf ((pteOf_congr hdir _).trans hdev)]
    rfl
  have hpg : pgsize = 4096 := rfl
  have hfuel : len / pgsize + 2 = len / pgsize + 1 + 1 := rfl
  rw [copyout, hfuel, copyoutLoop, if_neg (by omega)]
  dsimp only
  rw [show pgrounddown 0xFDFFF000 = 0xFDFFF000 from rfl, hfirst]
  simp only [Nat.sub_self, Nat.sub_zero, show min pgsize len = pgsize from min_eq_left hlen.le,
    if_neg (show ¬(p2v (pteAddr w) < kernbase ∨ kernbase + phystop ≤ p2v (pteAddr w)) by omega), hbs]
  rw [← hm', copyoutLoop, if_neg (by omega)]
  dsimp only
  rw [hpg, show wrap32 (0xFDFFF000 + 4096) = 0xFE000000 from rfl, show pgrounddown 0xFE000000 = 0xFE000000 from rfl,
    hsecond]

/-- **`copyout` follows a null page table entry.**  A directory that `setupkvm`
returns has no user pages and no page table for `0xFDFFF000`, so `walkpgdir`
returns null there.  A copy of two pages from that address then takes its first
page from the word at address `0` of the running directory: when that word is a
present user entry naming a page of physical memory outside the new directory,
`copyout` writes that page with the first `PGSIZE` bytes of the source, then
reaches the device page at `DEVSPACE`, which is not user, and returns `-1`. -/
theorem copyout_follows_null_pte {L : Layout} {m : Phys} (hs : m.Sound L []) (hlen : 66 ≤ m.freelist.length) :
    ∃ d m', setupkvm L m = some (d, m') ∧ d ≠ 0 ∧ userPages m'.mem d = [] ∧
      walkpgdir d 0xFDFFF000 false m' = (none, m') ∧
      ∀ (cr3 w : ℕ) (src : Phys → ℕ → Option UInt8) (bs : List UInt8),
        loadWord cr3 0 m' = some w → hasFlag w pteP = true → hasFlag w pteU = true →
        kernbase ≤ p2v (pteAddr w) → p2v (pteAddr w) < kernbase + phystop →
        p2v (pteAddr w) ∉ d :: tables m'.mem d → readSrc src m' 0 pgsize = some bs →
        copyout cr3 d 0xFDFFF000 src (2 * pgsize) m' =
          some (false, m'.setPage (p2v (pteAddr w)) ((m'.mem (p2v (pteAddr w))).copyIn 0 bs)) := by
  obtain ⟨d, m', hrun, hres⟩ := setupkvm_cases hs
  rcases hres with ⟨-, -, hshort⟩ | ⟨hd, -, hk, -, hcov⟩
  · omega
  have hnone : pdeTable m'.mem d (pdx 0xFDFFF000) = none := pdeTable_hole L hcov (by decide) (by decide)
  have hdev : pteOf m'.mem d 0xFE000000 = some (0xFE000000 ||| pteW ||| pteP) := by
    rw [hk.kernel 0xFE000000 (by unfold kernbase; omega) (by omega), kmapPte_devspace]
  exact ⟨d, m', hrun, hd, userPages_eq_nil_of_pde hk.user, walkpgdir_of_none hnone,
    fun cr3 w src bs hw hP hU hlo hhi hout hbs =>
      copyout_hole_page hnone hdev hw hP hU hlo hhi hout hbs (by decide)⟩

/-- Memory with the `66` pages from `0x80400000` on the free list. -/
def freePages : Phys where
  mem _ := Page.fill 0
  freelist := pageRange 0x80400000 66

theorem freePages_sound : freePages.Sound sampleLayout [] := by
  refine ⟨by simpa [freePages] using pageRange_nodup _ _, fun q hq => ?_⟩
  obtain ⟨k, hk, rfl⟩ := mem_pageRange.mp (by simpa [freePages] using hq)
  refine ⟨?_, ?_, ?_⟩ <;> simp only [sampleLayout, pgsize, kernbase, phystop] <;> omega

theorem copyout_follows_null_pte_freePages :
    freePages.Sound sampleLayout [] ∧ 66 ≤ freePages.freelist.length ∧
      ∃ d m', setupkvm sampleLayout freePages = some (d, m') ∧ d ≠ 0 ∧ userPages m'.mem d = [] ∧
        walkpgdir d 0xFDFFF000 false m' = (none, m') ∧
        ∀ (cr3 w : ℕ) (src : Phys → ℕ → Option UInt8) (bs : List UInt8),
          loadWord cr3 0 m' = some w → hasFlag w pteP = true → hasFlag w pteU = true →
          kernbase ≤ p2v (pteAddr w) → p2v (pteAddr w) < kernbase + phystop →
          p2v (pteAddr w) ∉ d :: tables m'.mem d → readSrc src m' 0 pgsize = some bs →
          copyout cr3 d 0xFDFFF000 src (2 * pgsize) m' =
            some (false, m'.setPage (p2v (pteAddr w)) ((m'.mem (p2v (pteAddr w))).copyIn 0 bs)) :=
  ⟨freePages_sound, by decide, copyout_follows_null_pte freePages_sound (by decide)⟩

end Xv6
