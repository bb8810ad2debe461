import Xv6.Freevm

/-!
# The kernel part of every address space

`setupkvm` allocates a page directory and maps the four ranges of the `kmap`
table into it: the I/O space, the kernel text and read-only data, the kernel data
with the rest of physical memory, and the devices.  Every page directory of the
system is built by it, and the operations on a process's memory only ever touch
entries below `KERNBASE`.

This module says what the kernel part is, address by address (`kmapPte`), and
proves that `setupkvm` builds exactly it.  When it runs out of memory it frees
what it took and returns `0`; that only happens with fewer than 66 free pages,
since the ranges need at most 64 page tables.

## Main definitions

* `Kmap.size`, `Kmap.pte` — the range of a `kmap` entry and the entries it maps.
* `kmapPte` — the kernel part of the map.
* `KernelDir` — a directory with nothing below `KERNBASE` and the kernel part above.

## Main results

* `setupkvmLoop_spec` — the loop over valid, disjoint entries maps each of them,
  or frees the directory once memory runs out.
* `kmap_findSome` — the entries of `kmap` map `kmapPte`.
* `setupkvm_spec` — `setupkvm` returns a new `KernelDir`, or `0` when fewer than
  66 pages were free; either way only the new directory changes hands.
-/

namespace Xv6

open scoped List

/-! ### Entries of `kmap` -/

namespace Kmap

/-- The size of the range of an entry: `(uint)k->phys_end - k->phys_start`. -/
def size (k : Kmap) : ℕ := wrap32 (k.physEnd + (2 ^ 32 - k.physStart))

/-- The entry `mappages` stores for `va` when `va` lies in the range of `k`. -/
def pte (k : Kmap) (va : ℕ) : Option ℕ :=
  if k.virt ≤ va ∧ va < k.virt + k.size then
    some (k.physStart + (pgrounddown va - k.virt) ||| k.perm ||| pteP)
  else none

/-- An entry `mappages` maps in the kernel part without wrapping around. -/
structure Valid (k : Kmap) : Prop where
  virt_aligned : k.virt % pgsize = 0
  kernel : kernbase ≤ k.virt
  size_aligned : k.size % pgsize = 0
  size_pos : 0 < k.size
  virt_end : k.virt + k.size ≤ 2 ^ 32
  phys_aligned : k.physStart % pgsize = 0
  phys_end : k.physStart + k.size ≤ 2 ^ 32
  perm_lt : k.perm < pgsize

/-- Two entries whose ranges do not meet. -/
def Disjoint (k k' : Kmap) : Prop := k.virt + k.size ≤ k'.virt ∨ k'.virt + k'.size ≤ k.virt

/-- The first entry of a list that maps an address, as `Option.or`. -/
theorem findSome?_cons_pte (k : Kmap) (ks : List Kmap) (va : ℕ) :
    (k :: ks).findSome? (·.pte va) = (k.pte va).or (ks.findSome? (·.pte va)) := by
  rw [List.findSome?_cons]
  cases k.pte va <;> rfl

theorem pte_of_not_mem {k : Kmap} {va : ℕ} (h : ¬(k.virt ≤ va ∧ va < k.virt + k.size)) :
    k.pte va = none := if_neg h

/-- An address in the range of one of two disjoint entries is not in the other's. -/
theorem Disjoint.pte_eq_none {k k' : Kmap} (h : k.Disjoint k') {va : ℕ}
    (hva : k.virt ≤ va ∧ va < k.virt + k.size) : k'.pte va = none :=
  pte_of_not_mem fun h' => by unfold Disjoint at h; omega

end Kmap

/-- The directory entries that the ranges of `ks` reach. -/
def coversPde (ks : List Kmap) (i : ℕ) : Prop :=
  ∃ k ∈ ks, ∃ v, k.virt ≤ v ∧ v < k.virt + k.size ∧ i = pdx v

/-! ### The loop of `setupkvm` -/

section Loop

variable {L : Layout} {d : ℕ} {y : List ℕ}

/-- `setupkvm`'s loop over valid entries with disjoint, unmapped ranges.  Either
it maps every range as `mappages` does and returns the directory, which has taken
only page tables, at entries the ranges reach; or a `mappages` runs out of memory
(`mf`, with an empty free list), and `freevm` then returns the directory's whole
footprint and the loop `0`. -/
theorem setupkvmLoop_spec :
    ∀ (ks : List Kmap) (m : Phys), (∀ k ∈ ks, k.Valid) → ks.Pairwise Kmap.Disjoint →
      (∀ k ∈ ks, ∀ v, k.virt ≤ v → v < k.virt + k.size → pteOf m.mem d v = none) →
      m.Sound L (footprint m.mem d ++ y) →
      ∃ r m', setupkvmLoop L d ks m = some (r, m') ∧
        ((r = d ∧ m.Confined m' (footprint m.mem d ++ y) (footprint m'.mem d ++ y) ∧
            (∀ i, (pdeTable m'.mem d i).isSome → (pdeTable m.mem d i).isSome ∨ coversPde ks i) ∧
            ∀ v < 2 ^ 32, pteOf m'.mem d v = (ks.findSome? (·.pte v)).or (pteOf m.mem d v)) ∨
          (r = 0 ∧ m.Confined m' (footprint m.mem d ++ y) y ∧
            ∃ mf : Phys, mf.freelist = [] ∧
              m.Confined mf (footprint m.mem d ++ y) (footprint mf.mem d ++ y) ∧
              ∀ i, (pdeTable mf.mem d i).isSome → (pdeTable m.mem d i).isSome ∨ coversPde ks i))
  | [], m, _, _, _, _ => ⟨d, m, rfl, .inl ⟨rfl, Ownership.Confined.refl _ _ _, fun _ h => .inl h,
      fun _ _ => rfl⟩⟩
  | k :: ks, m, hval, hdis, hold, hs => by
    have hk := hval k (.head _)
    obtain ⟨hdk, hdis⟩ := List.pairwise_cons.mp hdis
    obtain ⟨ok, m₁, hrun, hconf, hpde, hfl, hpte⟩ := mappages_kernel hk.perm_lt hk.virt_aligned hk.kernel
      hk.size_aligned hk.size_pos hk.virt_end hk.phys_aligned hk.phys_end hs (hold k (.head _))
    -- a directory entry reached by `k` is reached by `k :: ks`
    have hcov : ∀ i, (pdeTable m₁.mem d i).isSome → (pdeTable m.mem d i).isSome ∨ coversPde (k :: ks) i :=
      fun i hi => (hpde i hi).imp_right fun ⟨v, h₁, h₂, h₃⟩ => ⟨k, .head _, v, h₁, h₂, h₃⟩
    have hstep : setupkvmLoop L d (k :: ks) m =
        match ok with
        | true => setupkvmLoop L d ks m₁
        | false => (freevm L d m₁).map fun m => (0, m) := by
      rw [setupkvmLoop, show mappages d k.virt (wrap32 (k.physEnd + (2 ^ 32 - k.physStart))) k.physStart
        k.perm m = some (ok, m₁) from hrun]
      cases ok <;> rfl
    cases ok with
    | false =>
      -- out of memory in `k`: free the directory
      obtain ⟨m', hfree, hconf'⟩ := freevm_spec (hs.of_confined hconf)
      refine ⟨0, m', by rw [hstep, hfree]; rfl, .inr ⟨rfl, hconf.trans hconf', m₁, hfl rfl, hconf, hcov⟩⟩
    | true =>
      -- `k` is mapped; the other ranges are still unmapped
      have hold₁ : ∀ k' ∈ ks, ∀ v, k'.virt ≤ v → v < k'.virt + k'.size → pteOf m₁.mem d v = none :=
        fun k' hk' v h₁ h₂ => by
          have hv : v < 2 ^ 32 := lt_of_lt_of_le h₂ (hval k' (.tail _ hk')).virt_end
          rw [hpte rfl v hv, if_neg fun h => by have := hdk k' hk'; unfold Kmap.Disjoint at this; omega]
          exact hold k' (.tail _ hk') v h₁ h₂
      obtain ⟨r, m', hrun', hres⟩ := setupkvmLoop_spec ks m₁ (fun k' hk' => hval k' (.tail _ hk')) hdis
        hold₁ (hs.of_confined hconf)
      refine ⟨r, m', by rw [hstep]; exact hrun', ?_⟩
      -- what `ks` reaches, `k :: ks` reaches
      have hmono : ∀ i, coversPde ks i → coversPde (k :: ks) i :=
        fun i ⟨k', hk', hv⟩ => ⟨k', .tail _ hk', hv⟩
      rcases hres with ⟨rfl, hconf', hpde', hpte'⟩ | ⟨rfl, hconf', mf, hmf, hconff, hpdef⟩
      · refine .inl ⟨rfl, hconf.trans hconf', fun i hi => ?_, fun v hv => ?_⟩
        · rcases hpde' i hi with h | h
          · exact hcov i h
          · exact .inr (hmono i h)
        · rw [hpte' v hv, hpte rfl v hv, List.findSome?_cons]
          by_cases hin : k.virt ≤ v ∧ v < k.virt + k.size
          · have hnone : ks.findSome? (·.pte v) = none :=
              List.findSome?_eq_none_iff.mpr fun k' hk' => (hdk k' hk').pte_eq_none hin
            rw [if_pos hin, hnone, Kmap.pte, if_pos hin]
            rfl
          · rw [if_neg hin, Kmap.pte_of_not_mem hin]
      · refine .inr ⟨rfl, hconf.trans hconf', mf, hmf, hconf.trans hconff, fun i hi => ?_⟩
        rcases hpdef i hi with h | h
        · exact hcov i h
        · exact .inr (hmono i h)

end Loop

/-! ### The kernel map -/

/-- The kernel part of every directory, address by address, as `kmap` lays it out:
`KERNBASE..KERNBASE+PHYSTOP` maps `0..PHYSTOP` writable, except the kernel text and
read-only data from `KERNLINK` to `data`; the devices from `DEVSPACE` map to
themselves; nothing else is mapped.  No entry has `PTE_U`. -/
def kmapPte (L : Layout) (va : ℕ) : Option ℕ :=
  if kernbase ≤ va ∧ va < kernbase + phystop then
    some (v2p (pgrounddown va) ||| (if kernlink ≤ va ∧ va < L.data then 0 else pteW) ||| pteP)
  else if devspace ≤ va then some (pgrounddown va ||| pteW ||| pteP)
  else none

/-- A directory as `setupkvm` leaves it: nothing below `KERNBASE`, and the kernel
part above. -/
structure KernelDir (L : Layout) (mem : ℕ → Page) (pgdir : ℕ) : Prop where
  user : ∀ i < pdx kernbase, pdeTable mem pgdir i = none
  kernel : ∀ va, kernbase ≤ va → va < 2 ^ 32 → pteOf mem pgdir va = kmapPte L va

section Kmap

variable (L : Layout)

/-- The kernel's data begins above `KERNLINK`, in the first 4 MB above `KERNBASE`
that `entry.S` maps, below the pages `kinit1` frees. -/
theorem Layout.data_bounds : 2 ^ 31 + 2 ^ 20 < L.data ∧ L.data + 80 * 4096 ≤ 2 ^ 31 + 2 ^ 22 := by
  have h := L.end_room
  rw [p2v_of_lt (by decide)] at h
  have h₁ := L.kernlink_lt_data
  have h₂ := L.data_le_end
  unfold kernlink kernbase extmem pgsize at *
  omega

theorem Layout.v2p_data : v2p L.data = L.data - kernbase := by
  have := L.data_bounds
  exact v2p_of_le (by unfold kernbase; omega) (by omega)

theorem v2p_kernlink : v2p kernlink = extmem := by
  rw [v2p_of_le (by unfold kernlink; omega) (by decide)]
  rfl

theorem kmap_size₁ : Kmap.size ⟨kernbase, 0, extmem, pteW⟩ = extmem := by
  unfold Kmap.size wrap32 extmem
  norm_num

theorem kmap_size₂ : Kmap.size ⟨kernlink, v2p kernlink, v2p L.data, 0⟩ = L.data - kernlink := by
  have := L.data_bounds
  show wrap32 (v2p L.data + (2 ^ 32 - v2p kernlink)) = L.data - kernlink
  rw [L.v2p_data, v2p_kernlink]
  unfold wrap32 kernlink kernbase extmem
  omega

theorem kmap_size₃ : Kmap.size ⟨L.data, v2p L.data, phystop, pteW⟩ = kernbase + phystop - L.data := by
  have := L.data_bounds
  show wrap32 (phystop + (2 ^ 32 - v2p L.data)) = kernbase + phystop - L.data
  rw [L.v2p_data]
  unfold wrap32 kernbase phystop
  omega

theorem kmap_size₄ : Kmap.size ⟨devspace, devspace, 0, pteW⟩ = 2 ^ 32 - devspace := by
  unfold Kmap.size wrap32 devspace
  norm_num

/-- The constants of `memlayout.h` and `mmu.h` that `kmap` uses, as numbers. -/
theorem memlayout_eq : kernbase = 2 ^ 31 ∧ extmem = 2 ^ 20 ∧ kernlink = 2 ^ 31 + 2 ^ 20 ∧
    phystop = 0xE000000 ∧ devspace = 0xFE000000 ∧ pgsize = 4096 ∧ pteW = 2 :=
  ⟨rfl, rfl, rfl, rfl, rfl, rfl, rfl⟩

/-- Every entry of `kmap` is one `mappages` can map. -/
theorem kmap_valid : ∀ k ∈ kmap L, k.Valid := by
  have hd := L.data_bounds
  have hal : L.data % 4096 = 0 := L.data_aligned
  have hvl := v2p_kernlink
  have hvd := L.v2p_data
  obtain ⟨hkb, hext, hkl, hpt, hdev, hps, hpw⟩ := memlayout_eq
  simp only [kmap, List.mem_cons, List.not_mem_nil, or_false]
  rintro k (rfl | rfl | rfl | rfl)
  · refine ⟨?_, ?_, ?_, ?_, ?_, ?_, ?_, ?_⟩ <;> simp only [hps, kmap_size₁] <;> omega
  · refine ⟨?_, ?_, ?_, ?_, ?_, ?_, ?_, ?_⟩ <;> simp only [hps, kmap_size₂] <;> omega
  · refine ⟨?_, ?_, ?_, ?_, ?_, ?_, ?_, ?_⟩ <;> simp only [hps, kmap_size₃] <;> omega
  · refine ⟨?_, ?_, ?_, ?_, ?_, ?_, ?_, ?_⟩ <;> simp only [hps, kmap_size₄] <;> omega

/-- The ranges of `kmap` follow one another. -/
theorem kmap_pairwise : (kmap L).Pairwise Kmap.Disjoint := by
  have hd := L.data_bounds
  obtain ⟨hkb, hext, hkl, hpt, hdev, -, -⟩ := memlayout_eq
  simp only [kmap, List.pairwise_cons, List.mem_cons, List.not_mem_nil, or_false, forall_eq_or_imp,
    forall_eq, List.Pairwise.nil, and_true, false_implies, implies_true, Kmap.Disjoint, kmap_size₁,
    kmap_size₂, kmap_size₃, kmap_size₄]
  omega

/-- The directory entries `kmap`'s ranges reach: those of the first 224 MB above
`KERNBASE` and those of the devices. -/
theorem kmap_covers {i : ℕ} (h : coversPde (kmap L) i) : i ∈ Finset.Ico 512 568 ∪ Finset.Ico 1016 1024 := by
  obtain ⟨k, hk, v, hv₁, hv₂, rfl⟩ := h
  have hd := L.data_bounds
  obtain ⟨hkb, hext, hkl, hpt, hdev, -, -⟩ := memlayout_eq
  simp only [kmap, List.mem_cons, List.not_mem_nil, or_false] at hk
  simp only [Finset.mem_union, Finset.mem_Ico]
  unfold pdx
  rcases hk with rfl | rfl | rfl | rfl
  · simp only [kmap_size₁] at hv₁ hv₂
    omega
  · simp only [kmap_size₂] at hv₁ hv₂
    omega
  · simp only [kmap_size₃] at hv₁ hv₂
    omega
  · simp only [kmap_size₄] at hv₁ hv₂
    omega

/-- Entries with equal addresses and equal flags, stated first-order so that the
unifier never evaluates the flags. -/
theorem entry_congr {a b p : ℕ} (h : a = b) : some (a ||| p ||| pteP) = some (b ||| p ||| pteP) := by
  rw [h]

/-- Together the entries of `kmap` map `kmapPte`. -/
theorem kmap_findSome {va : ℕ} (hva : va < 2 ^ 32) : (kmap L).findSome? (·.pte va) = kmapPte L va := by
  have hd := L.data_bounds
  have hal : L.data % 4096 = 0 := L.data_aligned
  have hvl := v2p_kernlink
  have hvd := L.v2p_data
  obtain ⟨hkb, hext, hkl, hpt, hdev, hps, -⟩ := memlayout_eq
  have hp₁ := pgrounddown_le va
  have hp₂ := lt_pgrounddown_add va
  have hp₃ := pgrounddown_aligned va
  rw [hps] at hp₂ hp₃
  have hv2p : kernbase ≤ va → v2p (pgrounddown va) = pgrounddown va - kernbase := fun h =>
    v2p_of_le (by omega) (by omega)
  simp only [kmap, Kmap.findSome?_cons_pte, List.findSome?_nil, Option.or_none]
  simp only [Kmap.pte, kmapPte, kmap_size₁, kmap_size₂, kmap_size₃, kmap_size₄]
  -- the five parts of the address space: the four ranges, and the hole below the devices
  split_ifs <;> (try simp only [Option.some_or, Option.none_or]) <;> first
    | (exfalso; omega)
    | (rw [hv2p (by omega)]; exact entry_congr (by omega))
    | exact entry_congr (by omega)

/-- A directory built from a zeroed page by `kmap`'s ranges has no page table
below `KERNBASE`. -/
theorem user_none_of_covers {mem : ℕ → Page} {d : ℕ}
    (h : ∀ i, (pdeTable mem d i).isSome → coversPde (kmap L) i) (i : ℕ) (hi : i < pdx kernbase) :
    pdeTable mem d i = none := by
  cases hpd : pdeTable mem d i with
  | none => rfl
  | some t =>
    have hK := kmap_covers L (h i (by simp [hpd]))
    have hk : pdx kernbase = 512 := rfl
    simp only [Finset.mem_union, Finset.mem_Ico] at hK
    omega

/-- Such a directory has at most 64 page tables: the ranges of `kmap` reach 64
directory entries. -/
theorem tables_length_of_covers {mem : ℕ → Page} {d : ℕ}
    (h : ∀ i, (pdeTable mem d i).isSome → coversPde (kmap L) i) : (tables mem d).length ≤ 64 := by
  have hK : (Finset.Ico 512 568 ∪ Finset.Ico 1016 1024).card = 64 := by
    rw [Finset.card_union_of_disjoint (Finset.disjoint_left.mpr fun a h₁ h₂ => by simp at h₁ h₂; omega)]
    simp
  rw [← hK, tables, List.length_filterMap_eq_countP, List.countP_eq_length_filter,
    ← List.toFinset_card_of_nodup (List.nodup_range.filter _)]
  refine Finset.card_le_card fun i hi => ?_
  simp only [List.mem_toFinset, List.mem_filter] at hi
  exact kmap_covers L (h i hi.2)

end Kmap

/-! ### `setupkvm` -/

section Setupkvm

variable {L : Layout} {m : Phys} {y : List ℕ}

/-- `setupkvm` in full: as `setupkvm_spec`, and a new directory is the page at the
head of the free list, with page tables only for the directory entries that the
ranges of `kmap` reach. -/
theorem setupkvm_cases (hs : m.Sound L y) :
    ∃ d m', setupkvm L m = some (d, m') ∧
      ((d = 0 ∧ m.Confined m' y y ∧ m.freelist.length < 66) ∨
        (d ≠ 0 ∧ m.Confined m' y (footprint m'.mem d ++ y) ∧ KernelDir L m'.mem d ∧
          m.freelist.head? = some d ∧ ∀ i, (pdeTable m'.mem d i).isSome → coversPde (kmap L) i)) := by
  rcases hk : kalloc m with ⟨_ | d, m₀⟩
  · obtain ⟨hfl, rfl⟩ := kalloc_none hk
    exact ⟨0, m₀, by simp [setupkvm, hk], .inl ⟨rfl, Ownership.Confined.refl _ _ _, by simp [hfl]⟩⟩
  obtain ⟨hfl, -⟩ := kalloc_some hk
  have hdf : L.Freeable d := hs.freeable_free (by rw [hfl]; exact List.mem_cons_self)
  -- the zeroed directory
  have hd₁ : (m₀.memset d 0).mem d = Page.fill 0 := Phys.setPage_mem_self _ _ _
  have hconf₁ : m.Confined (m₀.memset d 0) y (footprint (m₀.memset d 0).mem d ++ y) := by
    rw [footprint_fill_zero hd₁]
    exact ((kalloc_confined hk y).trans (memset_confined m₀ (.inr (List.mem_append_right _ (.head _))) 0)).perm_right
      List.perm_append_comm
  have hrun : setupkvm L m = setupkvmLoop L d (kmap L) (m₀.memset d 0) := by
    simp only [setupkvm, hk]
    rw [if_neg (by decide)]
  obtain ⟨r, m', hloop, hres⟩ := setupkvmLoop_spec (kmap L) (m₀.memset d 0) (kmap_valid L) (kmap_pairwise L)
    (fun _ _ v _ _ => by rw [pteOf, pteAt, pdeTable_fill_zero hd₁, Option.bind_none])
    (hs.of_confined hconf₁)
  -- what the loop reaches, from a directory with no entries
  have hcov : ∀ mem : ℕ → Page, (∀ i, (pdeTable mem d i).isSome →
      (pdeTable (m₀.memset d 0).mem d i).isSome ∨ coversPde (kmap L) i) →
      ∀ i, (pdeTable mem d i).isSome → coversPde (kmap L) i := fun mem h i hi => by
    simpa [pdeTable_fill_zero hd₁] using h i hi
  rcases hres with ⟨rfl, hconf', hpde', hpte'⟩ | ⟨rfl, hconf', mf, hmf, hconff, hpdef⟩
  · refine ⟨r, m', hrun.trans hloop, .inr ⟨hdf.ne_zero, hconf₁.trans hconf', ⟨?_, fun va _ hva => ?_⟩,
      by rw [hfl]; rfl, hcov _ hpde'⟩⟩
    · exact user_none_of_covers L (hcov _ hpde')
    · rw [hpte' va hva, kmap_findSome L hva, pteOf, pteAt, pdeTable_fill_zero hd₁, Option.bind_none,
        Option.or_none]
  · -- out of memory: the free list held the directory and at most 64 page tables
    refine ⟨0, m', hrun.trans hloop, .inl ⟨rfl, hconf₁.trans hconf', ?_⟩⟩
    have hlen := (hconf₁.trans hconff).perm.length_eq
    have htab := tables_length_of_covers L (hcov _ hpdef)
    rw [footprint, userPages_eq_nil_of_pde (user_none_of_covers L (hcov _ hpdef)), hmf] at hlen
    simp only [List.length_append, List.length_cons, List.length_nil] at hlen
    omega

/-- `setupkvm` returns a new directory with exactly the kernel part, which it
takes from the free list with its page tables; or, when fewer than 66 pages were
free, `0` with every page it took given back. -/
theorem setupkvm_spec (hs : m.Sound L y) :
    ∃ d m', setupkvm L m = some (d, m') ∧
      ((d = 0 ∧ m.Confined m' y y ∧ m.freelist.length < 66) ∨
        (d ≠ 0 ∧ m.Confined m' y (footprint m'.mem d ++ y) ∧ KernelDir L m'.mem d)) := by
  obtain ⟨d, m', hrun, hres⟩ := setupkvm_cases hs
  exact ⟨d, m', hrun, hres.imp id fun h => ⟨h.1, h.2.1, h.2.2.1⟩⟩

end Setupkvm

end Xv6
