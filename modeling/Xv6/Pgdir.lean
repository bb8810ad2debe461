import Xv6.Vm
import Xv6.Lib.LowBits

/-!
# A page directory as a map

What a page directory means is read off memory: entry `i` of the directory
points to a page table, whose entry `j` maps one page.  `pteAt mem pgdir i j` is
that entry when both are present, and `pteOf mem pgdir va` the entry that maps
`va`.  A directory owns itself, its page tables, and the pages it maps below
`KERNBASE`; above it the kernel's mappings name memory every directory shares.

The view of a directory depends only on the pages it owns, so a store anywhere
else leaves it alone (`footprint_congr`), and a store into one of its entries
changes the map at that entry only (`pteAt_setWord_table`, `pteAt_installTable`).

## Main definitions

* `pdeTable`, `pteAt`, `pteOf` — the page table of a directory entry, and the
  present entry of a slot or of an address.
* `tables`, `userPages`, `footprint` — the pages a directory owns.
* `Layout.Freeable` facts: the pages `kalloc` hands out, seen through `V2P`.

## Main results

* `walkpgdir_of_pdeTable`, `walkpgdir_alloc` — what `walkpgdir` returns.
* `footprint_congr` — the view depends only on the directory and its tables.
* `pteAt_setWord_table`, `pteAt_installTable` — one store changes one entry.
-/

namespace Xv6

open scoped List

/-! ### Entries as words -/

section Entries

variable {pa f g : ℕ}

theorem pgsize_eq : pgsize = 2 ^ 12 := rfl

/-- Flags below a page do not overlap an aligned address: `|||` adds them. -/
theorem or_flags (hpa : pa % pgsize = 0) (hf : f < pgsize) : pa ||| f = pa + f :=
  LowBits.or_eq_add (k := 12) hpa hf

theorem pteAddr_add (hpa : pa % pgsize = 0) (hf : f < pgsize) : pteAddr (pa + f) = pa :=
  LowBits.add_div_mul (k := 12) hpa hf

/-- A flag test sees only the flags of an entry. -/
theorem hasFlag_add (hpa : pa % pgsize = 0) (hf : f < pgsize) (hg : g < pgsize) :
    hasFlag (pa + f) g = hasFlag f g := by
  unfold hasFlag
  rw [LowBits.and_low (k := 12) _ hg, LowBits.add_mod (k := 12) hpa hf]

theorem hasFlag_zero (g : ℕ) : hasFlag 0 g = false := by simp [hasFlag]

/-- The entry `mappages` stores: `pa | perm | PTE_P`. -/
theorem pte_eq (hpa : pa % pgsize = 0) (hf : f < pgsize) :
    pa ||| f ||| pteP = pa + (f ||| pteP) := by
  rw [Nat.or_assoc, or_flags hpa (Nat.or_lt_two_pow (n := 12) hf (by decide))]

/-- The directory entry `walkpgdir` stores: `pa | PTE_P | PTE_W | PTE_U`. -/
theorem pde_eq (hpa : pa % pgsize = 0) : pa ||| pteP ||| pteW ||| pteU = pa + 7 := by
  rw [Nat.or_assoc, Nat.or_assoc, show pteP ||| (pteW ||| pteU) = 7 by decide]
  exact or_flags hpa (by decide)

/-- An entry with `PTE_U` cleared keeps its address and its other flags. -/
theorem pteAddr_clearU {w : ℕ} (hw : w < 2 ^ 32) : pteAddr (w &&& notPteU) = pteAddr w := by
  unfold pteAddr
  rw [pgsize_eq, LowBits.and_div (n := 32) hw (by decide) (by decide)]

theorem clearU_lt {w : ℕ} (hw : w < 2 ^ 32) : w &&& notPteU < 2 ^ 32 :=
  lt_of_le_of_lt Nat.and_le_left hw

end Entries

/-! ### The pages `kalloc` hands out -/

section Freeable

variable {L : Layout} {v : ℕ}

namespace Layout.Freeable

theorem aligned (h : L.Freeable v) : v % pgsize = 0 := h.1

theorem kernbase_le (h : L.Freeable v) : kernbase ≤ v := le_of_lt (lt_of_lt_of_le L.kernbase_lt_end h.2.1)

theorem lt_top (h : L.Freeable v) : v < kernbase + phystop := h.2.2

theorem lt_two_pow (h : L.Freeable v) : v < 2 ^ 32 :=
  lt_of_lt_of_le h.lt_top (by decide)

theorem v2p_eq (h : L.Freeable v) : v2p v = v - kernbase := v2p_of_le h.kernbase_le h.lt_two_pow

theorem v2p_lt (h : L.Freeable v) : v2p v < phystop := by
  have := h.lt_top
  have := h.kernbase_le
  rw [h.v2p_eq]
  omega

theorem v2p_aligned (h : L.Freeable v) : v2p v % pgsize = 0 := by
  have ha := h.aligned
  have hk := h.kernbase_le
  rw [h.v2p_eq]
  unfold kernbase pgsize at *
  omega

theorem p2v_v2p (h : L.Freeable v) : p2v (v2p v) = v := Xv6.p2v_v2p h.kernbase_le h.lt_two_pow

/-- The kernel address back from an entry naming the page. -/
theorem p2v_pteAddr (h : L.Freeable v) {fl : ℕ} (hfl : fl < pgsize) :
    p2v (pteAddr (v2p v + fl)) = v := by
  rw [pteAddr_add h.v2p_aligned hfl, h.p2v_v2p]

theorem ne_zero (h : L.Freeable v) : v ≠ 0 := by
  have := h.kernbase_le
  unfold kernbase at this
  omega

end Layout.Freeable

end Freeable

/-! ### The view of a page directory -/

/-- The page table that entry `i` of `pgdir` points to, when it is present. -/
def pdeTable (mem : ℕ → Page) (pgdir i : ℕ) : Option ℕ :=
  if hasFlag ((mem pgdir).word i) pteP then some (p2v (pteAddr ((mem pgdir).word i))) else none

/-- An entry, when it is present. -/
def presentPte (pte : ℕ) : Option ℕ := if hasFlag pte pteP then some pte else none

/-- The present entry `j` of the page table of directory entry `i`. -/
def pteAt (mem : ℕ → Page) (pgdir i j : ℕ) : Option ℕ :=
  (pdeTable mem pgdir i).bind fun t => presentPte ((mem t).word j)

/-- The present entry that maps `va`. -/
def pteOf (mem : ℕ → Page) (pgdir va : ℕ) : Option ℕ := pteAt mem pgdir (pdx va) (ptx va)

/-- The page tables of `pgdir`, by directory entry. -/
def tables (mem : ℕ → Page) (pgdir : ℕ) : List ℕ :=
  (List.range npdentries).filterMap (pdeTable mem pgdir)

/-- The slots of the user part of a directory: entries below `PDX(KERNBASE)`, with
every index of their tables, in address order. -/
def userSlots : List (ℕ × ℕ) := List.range (pdx kernbase) ×ˢ List.range npdentries

/-- The pages `pgdir` maps below `KERNBASE`, in address order, once per entry. -/
def userPages (mem : ℕ → Page) (pgdir : ℕ) : List ℕ :=
  userSlots.filterMap fun s => (pteAt mem pgdir s.1 s.2).map fun pte => p2v (pteAddr pte)

/-- The pages a directory owns: itself, its page tables and its user pages. -/
def footprint (mem : ℕ → Page) (pgdir : ℕ) : List ℕ := pgdir :: (tables mem pgdir ++ userPages mem pgdir)

theorem presentPte_eq_some {w pte : ℕ} : presentPte w = some pte ↔ hasFlag w pteP ∧ w = pte := by
  unfold presentPte
  split_ifs with h <;> simp [h]

theorem presentPte_zero : presentPte 0 = none := by simp [presentPte, hasFlag_zero]

/-- The entry `mappages` stores is present and a 32-bit word. -/
theorem presentPte_entry {pa f : ℕ} (hpa : pa % pgsize = 0) (hlt : pa < 2 ^ 32) (hf : f < pgsize) :
    presentPte (pa ||| f ||| pteP) = some (pa ||| f ||| pteP) ∧ pa ||| f ||| pteP < 2 ^ 32 := by
  have hfp : f ||| pteP < pgsize := Nat.or_lt_two_pow (n := 12) hf (by decide)
  have hP : hasFlag (f ||| pteP) pteP = true := by
    simp [hasFlag, pteP]
  rw [pte_eq hpa hf]
  refine ⟨by rw [presentPte, hasFlag_add hpa hfp (by decide), hP, if_pos rfl], ?_⟩
  unfold pgsize at *
  omega

theorem pdx_lt (va : ℕ) : pdx va < npdentries := Nat.mod_lt _ (by decide)

theorem ptx_lt (va : ℕ) : ptx va < npdentries := Nat.mod_lt _ (by decide)

/-- Two 32-bit addresses share a slot exactly when they share a page. -/
theorem slot_eq_iff {va a : ℕ} (hva : va < 2 ^ 32) (ha : a < 2 ^ 32) (hal : a % pgsize = 0) :
    (pdx va = pdx a ∧ ptx va = ptx a) ↔ pgrounddown va = a := by
  unfold pdx ptx pgrounddown pgsize at *
  constructor
  · rintro ⟨h₁, h₂⟩
    omega
  · intro h
    omega

theorem mem_tables {mem : ℕ → Page} {pgdir t : ℕ} :
    t ∈ tables mem pgdir ↔ ∃ i < npdentries, pdeTable mem pgdir i = some t := by
  simp [tables]

theorem mem_userSlots {i j : ℕ} : (i, j) ∈ userSlots ↔ i < pdx kernbase ∧ j < npdentries := by
  simp [userSlots]

theorem userSlots_nodup : userSlots.Nodup := List.nodup_range.product List.nodup_range

theorem mem_userPages {mem : ℕ → Page} {pgdir q : ℕ} :
    q ∈ userPages mem pgdir ↔
      ∃ i < pdx kernbase, ∃ j < npdentries, ∃ pte, pteAt mem pgdir i j = some pte ∧ p2v (pteAddr pte) = q := by
  simp only [userPages, List.mem_filterMap, Option.map_eq_some_iff]
  constructor
  · rintro ⟨⟨i, j⟩, hs, pte, hpte, rfl⟩
    obtain ⟨hi, hj⟩ := mem_userSlots.mp hs
    exact ⟨i, hi, j, hj, pte, hpte, rfl⟩
  · rintro ⟨i, hi, j, hj, pte, hpte, rfl⟩
    exact ⟨(i, j), mem_userSlots.mpr ⟨hi, hj⟩, pte, hpte, rfl⟩

/-- The slot `(i, j)` is the slot of the address `PGADDR(i, j, 0)`. -/
theorem pteAt_eq_pteOf {mem : ℕ → Page} {pgdir i j : ℕ} (hi : i < npdentries) (hj : j < npdentries) :
    pteAt mem pgdir i j = pteOf mem pgdir (i * 2 ^ 22 + j * 2 ^ 12) := by
  have h₁ : pdx (i * 2 ^ 22 + j * 2 ^ 12) = i := by
    unfold pdx
    unfold npdentries at hi hj
    omega
  have h₂ : ptx (i * 2 ^ 22 + j * 2 ^ 12) = j := by
    unfold ptx
    unfold npdentries at hi hj
    omega
  rw [pteOf, h₁, h₂]

/-- A directory that maps nothing below `KERNBASE` owns no user pages. -/
theorem userPages_eq_nil {mem : ℕ → Page} {pgdir : ℕ} (h : ∀ v < kernbase, pteOf mem pgdir v = none) :
    userPages mem pgdir = [] := by
  refine List.filterMap_eq_nil_iff.mpr fun s hs => ?_
  obtain ⟨hi, hj⟩ := mem_userSlots.mp hs
  have hv : s.1 * 2 ^ 22 + s.2 * 2 ^ 12 < kernbase := by
    have : pdx kernbase = 512 := rfl
    unfold kernbase
    unfold npdentries at hj
    omega
  rw [pteAt_eq_pteOf (lt_of_lt_of_le hi (by decide)) hj, h _ hv]
  rfl

/-- A directory with no page table below `KERNBASE` owns no user pages. -/
theorem userPages_eq_nil_of_pde {mem : ℕ → Page} {pgdir : ℕ} (h : ∀ i < pdx kernbase, pdeTable mem pgdir i = none) :
    userPages mem pgdir = [] := by
  refine List.filterMap_eq_nil_iff.mpr fun s hs => ?_
  rw [pteAt, h s.1 (mem_userSlots.mp hs).1]
  rfl

/-- A zeroed page is a directory with no entries. -/
theorem pdeTable_fill_zero {mem : ℕ → Page} {pgdir : ℕ} (h : mem pgdir = Page.fill 0) (i : ℕ) :
    pdeTable mem pgdir i = none := by
  simp [pdeTable, h, hasFlag_zero]

/-- A zeroed directory owns only itself. -/
theorem footprint_fill_zero {mem : ℕ → Page} {pgdir : ℕ} (h : mem pgdir = Page.fill 0) :
    footprint mem pgdir = [pgdir] := by
  have ht : tables mem pgdir = [] := List.filterMap_eq_nil_iff.mpr fun i _ => pdeTable_fill_zero h i
  rw [footprint, ht, userPages_eq_nil_of_pde fun i _ => pdeTable_fill_zero h i]
  rfl

/-! ### Frame: the view reads only the directory and its tables -/

section Frame

variable {mem mem' : ℕ → Page} {pgdir : ℕ}

theorem pdeTable_congr (hd : mem' pgdir = mem pgdir) (i : ℕ) :
    pdeTable mem' pgdir i = pdeTable mem pgdir i := by
  simp [pdeTable, hd]

theorem tables_congr (hd : mem' pgdir = mem pgdir) : tables mem' pgdir = tables mem pgdir := by
  simp only [tables, pdeTable_congr hd]

theorem pteAt_congr (hd : mem' pgdir = mem pgdir) (ht : ∀ t ∈ tables mem pgdir, mem' t = mem t)
    {i : ℕ} (hi : i < npdentries) (j : ℕ) : pteAt mem' pgdir i j = pteAt mem pgdir i j := by
  unfold pteAt
  rw [pdeTable_congr hd]
  cases h : pdeTable mem pgdir i with
  | none => rfl
  | some t => simp only [Option.bind_some, ht t (mem_tables.mpr ⟨i, hi, h⟩)]

theorem userPages_congr (hd : mem' pgdir = mem pgdir) (ht : ∀ t ∈ tables mem pgdir, mem' t = mem t) :
    userPages mem' pgdir = userPages mem pgdir := by
  refine List.filterMap_congr fun s hs => ?_
  rw [pteAt_congr hd ht (lt_of_lt_of_le (mem_userSlots.mp hs).1 (by decide))]

/-- A directory's view depends only on the directory page and its page tables. -/
theorem footprint_congr (h : ∀ q ∈ pgdir :: tables mem pgdir, mem' q = mem q) :
    footprint mem' pgdir = footprint mem pgdir := by
  have hd := h pgdir (.head _)
  have ht : ∀ t ∈ tables mem pgdir, mem' t = mem t := fun t ht => h t (.tail _ ht)
  simp only [footprint, tables_congr hd, userPages_congr hd ht]

/-- The same, for the present entries. -/
theorem pteOf_congr (h : ∀ q ∈ pgdir :: tables mem pgdir, mem' q = mem q) (va : ℕ) :
    pteOf mem' pgdir va = pteOf mem pgdir va :=
  pteAt_congr (h pgdir (.head _)) (fun t ht => h t (.tail _ ht)) (pdx_lt va) _

end Frame

/-! ### `walkpgdir` -/

section Walk

variable {m : Phys} {pgdir va : ℕ}

theorem pdeTable_eq_some {i t : ℕ} :
    pdeTable m.mem pgdir i = some t ↔
      hasFlag (m.word pgdir i) pteP ∧ p2v (pteAddr (m.word pgdir i)) = t := by
  unfold pdeTable Phys.word
  split_ifs with h <;> simp [h]

/-- With its page table present, `walkpgdir` finds the entry and changes nothing. -/
theorem walkpgdir_of_pdeTable {t : ℕ} (h : pdeTable m.mem pgdir (pdx va) = some t) (alloc : Bool) :
    walkpgdir pgdir va alloc m = (some (t, ptx va), m) := by
  obtain ⟨hp, rfl⟩ := pdeTable_eq_some.mp h
  simp [walkpgdir, hp]

theorem walkpgdir_of_none (h : pdeTable m.mem pgdir (pdx va) = none) :
    walkpgdir pgdir va false m = (none, m) := by
  unfold pdeTable at h
  split_ifs at h with hp
  simp [walkpgdir, Phys.word, hp]

theorem walkpgdir_of_none_empty (h : pdeTable m.mem pgdir (pdx va) = none) (hfl : m.freelist = []) :
    walkpgdir pgdir va true m = (none, m) := by
  unfold pdeTable at h
  split_ifs at h with hp
  simp [walkpgdir, Phys.word, hp, kalloc, hfl]

/-- A missing page table is allocated from the head of the free list, zeroed, and
entered in the directory. -/
theorem walkpgdir_alloc {g : ℕ} {rest : List ℕ} (h : pdeTable m.mem pgdir (pdx va) = none)
    (hfl : m.freelist = g :: rest) :
    walkpgdir pgdir va true m =
      (some (g, ptx va), ((⟨m.mem, rest⟩ : Phys).memset g 0).setWord pgdir (pdx va)
        (v2p g ||| pteP ||| pteW ||| pteU)) := by
  unfold pdeTable at h
  split_ifs at h with hp
  simp [walkpgdir, Phys.word, hp, kalloc, hfl]

/-- Whatever `walkpgdir` returns, it is one of the cases above. -/
theorem walkpgdir_cases {alloc : Bool} {r : Option (ℕ × ℕ)} {m' : Phys}
    (h : walkpgdir pgdir va alloc m = (r, m')) :
    (∃ t, pdeTable m.mem pgdir (pdx va) = some t ∧ r = some (t, ptx va) ∧ m' = m) ∨
    (pdeTable m.mem pgdir (pdx va) = none ∧ (alloc = true → m.freelist = []) ∧ r = none ∧ m' = m) ∨
    (∃ g rest, pdeTable m.mem pgdir (pdx va) = none ∧ alloc = true ∧ m.freelist = g :: rest ∧
      r = some (g, ptx va) ∧
      m' = ((⟨m.mem, rest⟩ : Phys).memset g 0).setWord pgdir (pdx va) (v2p g ||| pteP ||| pteW ||| pteU)) := by
  cases hpd : pdeTable m.mem pgdir (pdx va) with
  | some t =>
    rw [walkpgdir_of_pdeTable hpd] at h
    cases h
    exact .inl ⟨t, rfl, rfl, rfl⟩
  | none =>
    cases alloc with
    | false =>
      rw [walkpgdir_of_none hpd] at h
      cases h
      exact .inr (.inl ⟨rfl, nofun, rfl, rfl⟩)
    | true =>
      cases hfl : m.freelist with
      | nil =>
        rw [walkpgdir_of_none_empty hpd hfl] at h
        cases h
        exact .inr (.inl ⟨rfl, fun _ => rfl, rfl, rfl⟩)
      | cons g rest =>
        rw [walkpgdir_alloc hpd hfl] at h
        cases h
        exact .inr (.inr ⟨g, rest, rfl, rfl, rfl, rfl, rfl⟩)

end Walk

/-! ### One store into a directory -/

section Store

variable {L : Layout} {mem : ℕ → Page} {pgdir : ℕ}

theorem ne_of_mem_tables (hnd : (pgdir :: tables mem pgdir).Nodup) {t : ℕ}
    (ht : t ∈ tables mem pgdir) : t ≠ pgdir := by
  rintro rfl
  exact (List.nodup_cons.mp hnd).1 ht

/-- Two present entries of a directory whose tables are all different name the
same table only if they are one entry. -/
theorem eq_of_pdeTable (hnd : (tables mem pgdir).Nodup) {i i' t : ℕ} (hi : i < npdentries)
    (hi' : i' < npdentries) (h : pdeTable mem pgdir i = some t) (h' : pdeTable mem pgdir i' = some t) :
    i = i' :=
  Ownership.eq_of_filterMap_nodup List.nodup_range hnd (List.mem_range.mpr hi)
    (List.mem_range.mpr hi') h h'

/-- A store into entry `j₀` of the page table of directory entry `i₀` changes that
entry of the map and no other. -/
theorem pteAt_setWord_table (hnd : (pgdir :: tables mem pgdir).Nodup) {i₀ t : ℕ}
    (ht : pdeTable mem pgdir i₀ = some t) (hi₀ : i₀ < npdentries) (j₀ : ℕ) {w : ℕ} (hw : w < 2 ^ 32)
    {i : ℕ} (hi : i < npdentries) (j : ℕ) :
    pteAt (Function.update mem t ((mem t).setWord j₀ w)) pgdir i j =
      if i = i₀ ∧ j = j₀ then presentPte w else pteAt mem pgdir i j := by
  have htd : t ≠ pgdir := ne_of_mem_tables hnd (mem_tables.mpr ⟨i₀, hi₀, ht⟩)
  unfold pteAt
  rw [pdeTable_congr (Function.update_of_ne htd.symm _ _)]
  by_cases hii : i = i₀
  · subst hii
    rw [ht]
    by_cases hj : j = j₀
    · subst hj
      simp only [Option.bind_some, Function.update_self, and_self, if_true]
      rw [Page.word_setWord_self _ _ hw]
    · simp [hj, Page.word_setWord_of_ne _ _ (Ne.symm hj)]
  · simp only [hii, false_and, if_false]
    cases hti : pdeTable mem pgdir i with
    | none => rfl
    | some t' =>
      -- a different entry has a different table, which the store leaves alone
      have ht' : t' ≠ t := fun h => hii (eq_of_pdeTable (List.nodup_cons.mp hnd).2 hi hi₀ hti (h ▸ ht))
      simp [Function.update_of_ne ht']

/-- A change of the map at the slot of the page `a`, address by address. -/
theorem pteOf_of_pteAt {mem' : ℕ → Page} {a : ℕ} {e : Option ℕ} (ha : a % pgsize = 0) (hlt : a < 2 ^ 32)
    (h : ∀ k < npdentries, ∀ j, pteAt mem' pgdir k j = if k = pdx a ∧ j = ptx a then e else pteAt mem pgdir k j)
    {va : ℕ} (hva : va < 2 ^ 32) :
    pteOf mem' pgdir va = if pgrounddown va = a then e else pteOf mem pgdir va := by
  rw [pteOf, h _ (pdx_lt va)]
  simp only [slot_eq_iff hva hlt ha]
  rfl

/-- The memory after `walkpgdir` enters the zeroed page table `g` at directory
entry `i₀`. -/
def installTable (mem : ℕ → Page) (pgdir i₀ g : ℕ) : ℕ → Page :=
  Function.update (Function.update mem g (Page.fill 0)) pgdir
    ((mem pgdir).setWord i₀ (v2p g ||| pteP ||| pteW ||| pteU))

theorem walkpgdir_alloc_mem {m : Phys} {rest : List ℕ} {g i₀ : ℕ} (hgd : g ≠ pgdir) :
    (((⟨m.mem, rest⟩ : Phys).memset g 0).setWord pgdir i₀ (v2p g ||| pteP ||| pteW ||| pteU)).mem =
      installTable m.mem pgdir i₀ g := by
  simp [Phys.setWord, Phys.memset, Phys.setPage, installTable, Function.update_of_ne hgd.symm]

theorem pde_lt {g : ℕ} (hg : L.Freeable g) : v2p g ||| pteP ||| pteW ||| pteU < 2 ^ 32 := by
  have := hg.v2p_lt
  rw [pde_eq hg.v2p_aligned]
  unfold phystop at this
  omega

theorem installTable_self {g i₀ : ℕ} (hgd : g ≠ pgdir) : installTable mem pgdir i₀ g g = Page.fill 0 := by
  simp [installTable, Function.update_of_ne hgd]

theorem installTable_of_ne {g i₀ q : ℕ} (hqd : q ≠ pgdir) (hqg : q ≠ g) :
    installTable mem pgdir i₀ g q = mem q := by
  simp [installTable, Function.update_of_ne hqd, Function.update_of_ne hqg]

/-- The new directory entry points to `g`; the others are as they were. -/
theorem pdeTable_installTable {g : ℕ} (hg : L.Freeable g) (i₀ i : ℕ) :
    pdeTable (installTable mem pgdir i₀ g) pgdir i = if i = i₀ then some g else pdeTable mem pgdir i := by
  unfold pdeTable installTable
  simp only [Function.update_self]
  by_cases h : i = i₀
  · subst h
    have h7 : hasFlag 7 pteP = true := by decide
    rw [Page.word_setWord_self _ _ (pde_lt hg), pde_eq hg.v2p_aligned,
      hasFlag_add hg.v2p_aligned (by decide) (by decide), hg.p2v_pteAddr (by decide)]
    simp [h7]
  · rw [Page.word_setWord_of_ne _ _ (Ne.symm h)]
    simp [h]

/-- The new page table maps nothing yet; the rest of the map is unchanged. -/
theorem pteAt_installTable {g i₀ : ℕ} (hg : L.Freeable g) (hgo : g ∉ pgdir :: tables mem pgdir)
    (hnd : pgdir ∉ tables mem pgdir) {i : ℕ} (hi : i < npdentries) (j : ℕ) :
    pteAt (installTable mem pgdir i₀ g) pgdir i j = if i = i₀ then none else pteAt mem pgdir i j := by
  have hgd : g ≠ pgdir := fun h => hgo (h ▸ .head _)
  unfold pteAt
  rw [pdeTable_installTable hg]
  by_cases h : i = i₀
  · simp [h, installTable_self hgd, presentPte_zero]
  · simp only [h, if_false]
    cases hti : pdeTable mem pgdir i with
    | none => rfl
    | some t =>
      have ht : t ∈ tables mem pgdir := mem_tables.mpr ⟨i, hi, hti⟩
      have htd : t ≠ pgdir := by rintro rfl; exact hnd ht
      have htg : t ≠ g := by rintro rfl; exact hgo (.tail _ ht)
      simp [installTable_of_ne htd htg]

theorem tables_installTable {g i₀ : ℕ} (hg : L.Freeable g) (hnone : pdeTable mem pgdir i₀ = none)
    (hi₀ : i₀ < npdentries) : tables (installTable mem pgdir i₀ g) pgdir ~ tables mem pgdir ++ [g] :=
  Ownership.perm_filterMap_of_add List.nodup_range (List.mem_range.mpr hi₀)
    (fun k _ hk => by rw [pdeTable_installTable hg, if_neg hk]) hnone
    (by rw [pdeTable_installTable hg, if_pos rfl])

/-- A change of the map at one slot changes the user pages by that slot's page. -/
theorem userPages_perm_of_slot (mem mem' : ℕ → Page) {i₀ j₀ : ℕ}
    (h : ∀ i < npdentries, ∀ j, ¬(i = i₀ ∧ j = j₀) → pteAt mem' pgdir i j = pteAt mem pgdir i j)
    (hs : (i₀, j₀) ∈ userSlots) :
    userPages mem' pgdir ++ ((pteAt mem pgdir i₀ j₀).map fun pte => p2v (pteAddr pte)).toList ~
      userPages mem pgdir ++ ((pteAt mem' pgdir i₀ j₀).map fun pte => p2v (pteAddr pte)).toList := by
  unfold userPages
  refine Ownership.perm_filterMap_update (f := fun s => (pteAt mem pgdir s.1 s.2).map fun pte => p2v (pteAddr pte))
    (g := fun s => (pteAt mem' pgdir s.1 s.2).map fun pte => p2v (pteAddr pte)) userSlots_nodup hs
    fun s hs' hne => ?_
  have hi : s.1 < npdentries := lt_of_lt_of_le (mem_userSlots.mp hs').1 (by decide)
  rw [h s.1 hi s.2 fun ⟨h₁, h₂⟩ => hne (Prod.ext h₁ h₂)]

/-- A change of the map in the kernel part leaves the user pages as they are. -/
theorem userPages_eq_of_slot (mem mem' : ℕ → Page) {i₀ j₀ : ℕ}
    (h : ∀ i < npdentries, ∀ j, ¬(i = i₀ ∧ j = j₀) → pteAt mem' pgdir i j = pteAt mem pgdir i j)
    (hk : pdx kernbase ≤ i₀) : userPages mem' pgdir = userPages mem pgdir := by
  refine List.filterMap_congr fun s hs => ?_
  obtain ⟨hi, -⟩ := mem_userSlots.mp hs
  rw [h s.1 (lt_of_lt_of_le hi (by decide)) s.2 fun ⟨h₁, _⟩ => by omega]

end Store

end Xv6
