import Xv6.Pgdir

/-!
# Mapping pages

`mappages` stores one entry per page through `walkpgdir`, which may take a page
table from the free list.  Its specification has two halves.  What the directory
means afterwards: the entries of the mapped range, and nothing else, have
changed.  Who owns what: a step confined to the directory's footprint, which
gains the page tables `walkpgdir` allocated and, below `KERNBASE`, the page just
mapped.

## Main definitions

* `Phys.Sound` — the free list and some owned pages: no page twice, and every page
  one `kfree` accepts.
* `MapsRange`, `MapOutcome` — a range mapped to consecutive pages, and the three
  outcomes of `mappages`.

## Main results

* `store_spec` — a store at the place `walkpgdir` returns changes the map at one
  slot, and takes at most one page table from the free list.
* `store_confined_user`, `store_confined_kernel` — the same as a confined step.
* `mappages_page` — `mappages` of one page is a walk, the `remap` check and a store.
* `MapOutcome.cons`, `mappagesLoop_outcome` — the loop over a range is its first page
  and then the loop over the rest.
* `mappages_outcome` — over any range, `mappages` returns 0 with the range mapped,
  panics at the first page mapped before, or returns `-1` at a page with no page
  table and no free page; a page mapped further on does not make it panic then.
-/

namespace Xv6

open scoped List

/-! ### Sound free lists -/

/-- The free list and the owned pages `own`: no page twice, and every page one
`kfree` accepts. -/
structure Phys.Sound (L : Layout) (m : Phys) (own : List ℕ) : Prop where
  nodup : (m.freelist ++ own).Nodup
  freeable : ∀ q ∈ m.freelist ++ own, L.Freeable q

namespace Phys.Sound

variable {L : Layout} {m m' : Phys} {own own' : List ℕ}

/-- A confined step keeps the free list and the owned pages sound. -/
theorem of_confined (hs : m.Sound L own) (h : m.Confined m' own own') : m'.Sound L own' :=
  ⟨h.perm.nodup_iff.mpr hs.nodup, fun q hq => hs.freeable q (h.perm.mem_iff.mp hq)⟩

theorem perm (hs : m.Sound L own) (h : own' ~ own) : m.Sound L own' :=
  hs.of_confined ((Ownership.Confined.refl _ _ _).perm_right h)

theorem nodup_own (hs : m.Sound L own) : own.Nodup := (List.nodup_append.mp hs.nodup).2.1

theorem not_mem_own (hs : m.Sound L own) {q : ℕ} (hq : q ∈ m.freelist) : q ∉ own :=
  fun h => List.disjoint_of_nodup_append hs.nodup hq h

theorem freeable_own (hs : m.Sound L own) {q : ℕ} (hq : q ∈ own) : L.Freeable q :=
  hs.freeable q (List.mem_append_right _ hq)

theorem freeable_free (hs : m.Sound L own) {q : ℕ} (hq : q ∈ m.freelist) : L.Freeable q :=
  hs.freeable q (List.mem_append_left _ hq)

end Phys.Sound

section Footprint

variable {L : Layout} {m : Phys} {pgdir : ℕ} {x : List ℕ}

theorem Phys.Sound.nodup_dir (hs : m.Sound L (footprint m.mem pgdir ++ x)) :
    (pgdir :: tables m.mem pgdir).Nodup := by
  have h := hs.nodup_own
  simp only [footprint, List.cons_append, List.nodup_cons, List.append_assoc, List.mem_append] at h
  exact List.nodup_cons.mpr ⟨fun ht => h.1 (.inl ht), (List.nodup_append.mp h.2).1⟩

theorem Phys.Sound.dir_freeable (hs : m.Sound L (footprint m.mem pgdir ++ x)) : L.Freeable pgdir :=
  hs.freeable_own (List.mem_append_left _ (.head _))

/-- A free page is none of the directory's pages. -/
theorem Phys.Sound.free_not_dir (hs : m.Sound L (footprint m.mem pgdir ++ x)) {q : ℕ}
    (hq : q ∈ m.freelist) : q ∉ pgdir :: tables m.mem pgdir := fun h =>
  hs.not_mem_own hq (List.mem_append_left _ (by
    rcases List.mem_cons.mp h with rfl | h
    · exact .head _
    · exact .tail _ (List.mem_append_left _ h)))

/-- Sound for a directory's footprint is sound for the directory and its page tables,
with its user pages among the other owned pages. -/
theorem Phys.Sound.dir_part (hs : m.Sound L (footprint m.mem pgdir ++ x)) :
    m.Sound L (pgdir :: tables m.mem pgdir ++ (userPages m.mem pgdir ++ x)) :=
  hs.perm (List.Perm.of_eq (by simp [footprint]))

end Footprint

/-! ### One store through `walkpgdir` -/

section Store

variable {L : Layout} {m m₁ : Phys} {pgdir va t i w : ℕ} {alloc : Bool} {x : List ℕ}

/-- A store of `w` at the place `walkpgdir` returns for `va`: it overwrites the
entry of `va`, changes the map there and nowhere else, and takes at most one page
table (`new`) from the free list; it writes only the directory, its tables and
that page. -/
theorem store_spec_dir (hs : m.Sound L (pgdir :: tables m.mem pgdir ++ x))
    (hwalk : walkpgdir pgdir va alloc m = (some (t, i), m₁)) (hw : w < 2 ^ 32) :
    i = ptx va ∧ presentPte (m₁.word t i) = pteOf m.mem pgdir va ∧
      (∀ k < npdentries, ∀ j, pteAt (m₁.setWord t i w).mem pgdir k j =
        if k = pdx va ∧ j = ptx va then presentPte w else pteAt m.mem pgdir k j) ∧
      (∀ k, (pdeTable (m₁.setWord t i w).mem pgdir k).isSome →
        (pdeTable m.mem pgdir k).isSome ∨ k = pdx va) ∧
      ∃ new, m.freelist = new ++ m₁.freelist ∧
        tables (m₁.setWord t i w).mem pgdir ~ tables m.mem pgdir ++ new ∧
        ∀ q, q ∉ m.freelist → q ∉ pgdir :: tables m.mem pgdir → (m₁.setWord t i w).mem q = m.mem q := by
  have hnd : (pgdir :: tables m.mem pgdir).Nodup := (List.nodup_append.mp hs.nodup_own).1
  rcases walkpgdir_cases hwalk with ⟨t', ht, hr, hm⟩ | ⟨-, -, hr, -⟩ | ⟨g, rest, hnone, -, hfl, hr, hm⟩
  · -- the page table is present: a store into it
    subst m₁
    obtain ⟨rfl, rfl⟩ := Prod.mk.inj (Option.some.inj hr)
    have htd : t ≠ pgdir := ne_of_mem_tables hnd (mem_tables.mpr ⟨_, pdx_lt va, ht⟩)
    have hmem : (m.setWord t (ptx va) w).mem = Function.update m.mem t ((m.mem t).setWord (ptx va) w) := rfl
    refine ⟨rfl, by simp [pteOf, pteAt, ht, Phys.word], fun k hk j => ?_, fun k hk => ?_, [], by simp, ?_, ?_⟩
    · rw [hmem]
      exact pteAt_setWord_table hnd ht (pdx_lt va) _ hw hk j
    · rw [hmem, pdeTable_congr (Function.update_of_ne htd.symm _ _)] at hk
      exact .inl hk
    · rw [hmem, tables_congr (Function.update_of_ne htd.symm _ _), List.append_nil]
    · intro q _ hq
      rw [hmem, Function.update_of_ne (by rintro rfl; exact hq (.tail _ (mem_tables.mpr ⟨_, pdx_lt va, ht⟩)))]
  · cases hr
  · -- a new page table `t` from the head of the free list
    subst m₁
    obtain ⟨rfl, rfl⟩ := Prod.mk.inj (Option.some.inj hr)
    have htfree : t ∈ m.freelist := hfl ▸ .head _
    have hto : t ∉ pgdir :: tables m.mem pgdir := fun h => hs.not_mem_own htfree (List.mem_append_left _ h)
    have htd' : t ≠ pgdir := by rintro rfl; exact hto (.head _)
    have htf : L.Freeable t := hs.freeable_free htfree
    have hpd : pgdir ∉ tables m.mem pgdir := (List.nodup_cons.mp hnd).1
    set X := ((⟨m.mem, rest⟩ : Phys).memset t 0).setWord pgdir (pdx va) (v2p t ||| pteP ||| pteW ||| pteU)
    set mem₁ := installTable m.mem pgdir (pdx va) t
    have hX : X.mem = mem₁ := walkpgdir_alloc_mem htd'
    have htab₁ : tables mem₁ pgdir ~ tables m.mem pgdir ++ [t] :=
      tables_installTable htf hnone (pdx_lt va)
    have hnd₁ : (pgdir :: tables mem₁ pgdir).Nodup := by
      refine List.nodup_cons.mpr ⟨fun h => ?_, htab₁.nodup_iff.mpr ?_⟩
      · rcases List.mem_append.mp (htab₁.mem_iff.mp h) with h | h
        · exact hpd h
        · exact htd' (List.mem_singleton.mp h).symm
      · refine List.nodup_append.mpr ⟨(List.nodup_cons.mp hnd).2, List.nodup_singleton t, ?_⟩
        rintro a ha b hb rfl
        exact hto (.tail _ ((List.mem_singleton.mp hb) ▸ ha))
    have ht₁ : pdeTable mem₁ pgdir (pdx va) = some t := by
      rw [pdeTable_installTable htf, if_pos rfl]
    have hmem : (X.setWord t (ptx va) w).mem = Function.update mem₁ t ((mem₁ t).setWord (ptx va) w) := by
      rw [← hX]
      rfl
    refine ⟨rfl, ?_, fun k hk j => ?_, fun k hk => ?_, [t], by rw [hfl]; rfl, ?_, ?_⟩
    · simp [Phys.word, hX, mem₁, installTable_self htd', pteOf, pteAt, hnone, presentPte_zero]
    · rw [hmem, pteAt_setWord_table hnd₁ ht₁ (pdx_lt va) _ hw hk j, pteAt_installTable htf hto hpd hk]
      by_cases hkv : k = pdx va
      · subst hkv
        by_cases hj : j = ptx va
        · simp [hj]
        · simp [hj, pteAt, hnone]
      · simp [hkv]
    · rw [hmem, pdeTable_congr (Function.update_of_ne htd'.symm _ _), ← hX, walkpgdir_alloc_mem htd',
        pdeTable_installTable htf] at hk
      by_cases hkv : k = pdx va
      · exact .inr hkv
      · rw [if_neg hkv] at hk
        exact .inl hk
    · rw [hmem, tables_congr (Function.update_of_ne htd'.symm _ _)]
      exact htab₁
    · intro q hq hqd
      have hqg : q ≠ t := by rintro rfl; exact hq htfree
      have hqp : q ≠ pgdir := by rintro rfl; exact hqd (.head _)
      rw [hmem, Function.update_of_ne hqg]
      exact installTable_of_ne hqp hqg

/-- `store_spec_dir` for a directory whose whole footprint is owned. -/
theorem store_spec (hs : m.Sound L (footprint m.mem pgdir ++ x))
    (hwalk : walkpgdir pgdir va alloc m = (some (t, i), m₁)) (hw : w < 2 ^ 32) :
    i = ptx va ∧ presentPte (m₁.word t i) = pteOf m.mem pgdir va ∧
      (∀ k < npdentries, ∀ j, pteAt (m₁.setWord t i w).mem pgdir k j =
        if k = pdx va ∧ j = ptx va then presentPte w else pteAt m.mem pgdir k j) ∧
      (∀ k, (pdeTable (m₁.setWord t i w).mem pgdir k).isSome →
        (pdeTable m.mem pgdir k).isSome ∨ k = pdx va) ∧
      ∃ new, m.freelist = new ++ m₁.freelist ∧
        tables (m₁.setWord t i w).mem pgdir ~ tables m.mem pgdir ++ new ∧
        ∀ q, q ∉ m.freelist → q ∉ pgdir :: tables m.mem pgdir → (m₁.setWord t i w).mem q = m.mem q :=
  store_spec_dir hs.dir_part hwalk hw


/-- The footprint after a store, from the page tables and the user pages it adds. -/
theorem footprint_perm {mem mem' : ℕ → Page} {new u u' : List ℕ}
    (htab : tables mem' pgdir ~ tables mem pgdir ++ new)
    (hup : userPages mem' pgdir ++ u ~ userPages mem pgdir ++ u') :
    footprint mem' pgdir ++ u ~ footprint mem pgdir ++ new ++ u' := by
  rw [List.perm_iff_count]
  intro a
  have h₁ := htab.count_eq a
  have h₂ := hup.count_eq a
  simp only [footprint, List.count_append, List.count_cons] at *
  omega

/-- Mapping a page `h` the caller holds below `KERNBASE`: the directory takes it,
and the page table `walkpgdir` may have allocated. -/
theorem store_confined_user {h : ℕ} {y : List ℕ} (hs : m.Sound L (footprint m.mem pgdir ++ h :: y))
    (hwalk : walkpgdir pgdir va alloc m = (some (t, i), m₁)) (hw : w < 2 ^ 32)
    (hpw : presentPte w = some w) (hpage : p2v (pteAddr w) = h) (hold : pteOf m.mem pgdir va = none)
    (huser : pdx va < pdx kernbase) :
    m.Confined (m₁.setWord t i w) (footprint m.mem pgdir ++ h :: y)
      (footprint (m₁.setWord t i w).mem pgdir ++ y) := by
  obtain ⟨-, -, hpte, -, new, hfl, htab, hframe⟩ := store_spec hs hwalk hw
  have hup : userPages (m₁.setWord t i w).mem pgdir ++ [] ~ userPages m.mem pgdir ++ [h] := by
    have := userPages_perm_of_slot m.mem (m₁.setWord t i w).mem
      (fun k hk j hkj => by rw [hpte k hk j, if_neg hkj]) (mem_userSlots.mpr ⟨huser, ptx_lt va⟩)
    rwa [hpte _ (pdx_lt va), if_pos ⟨rfl, rfl⟩, hpw, show pteAt m.mem pgdir (pdx va) (ptx va) = none from hold,
      Option.map_none, Option.map_some, hpage] at this
  have hfp := footprint_perm htab hup
  refine ⟨?_, fun q hq hqo => hframe q hq fun hd => hqo (List.mem_append_left _ ?_)⟩
  · rw [List.perm_iff_count]
    intro a
    have := hfp.count_eq a
    simp only [hfl, Phys.setWord_freelist, List.count_append, List.count_cons, List.count_nil] at *
    omega
  · rcases List.mem_cons.mp hd with rfl | hd
    · exact .head _
    · exact .tail _ (List.mem_append_left _ hd)

/-- A store in the kernel part of the map: the directory takes only the page table
`walkpgdir` may have allocated. -/
theorem store_confined_kernel {y : List ℕ} (hs : m.Sound L (footprint m.mem pgdir ++ y))
    (hwalk : walkpgdir pgdir va alloc m = (some (t, i), m₁)) (hw : w < 2 ^ 32)
    (hkernel : pdx kernbase ≤ pdx va) :
    m.Confined (m₁.setWord t i w) (footprint m.mem pgdir ++ y) (footprint (m₁.setWord t i w).mem pgdir ++ y) := by
  obtain ⟨-, -, hpte, -, new, hfl, htab, hframe⟩ := store_spec hs hwalk hw
  have hup : userPages (m₁.setWord t i w).mem pgdir ++ [] ~ userPages m.mem pgdir ++ [] := by
    rw [userPages_eq_of_slot m.mem (m₁.setWord t i w).mem
      (fun k hk j hkj => by rw [hpte k hk j, if_neg hkj]) hkernel]
  have hfp := footprint_perm htab hup
  refine ⟨?_, fun q hq hqo => hframe q hq fun hd => hqo (List.mem_append_left _ ?_)⟩
  · rw [List.perm_iff_count]
    intro a
    have := hfp.count_eq a
    simp only [hfl, Phys.setWord_freelist, List.count_append, List.count_nil] at *
    omega
  · rcases List.mem_cons.mp hd with rfl | hd
    · exact .head _
    · exact .tail _ (List.mem_append_left _ hd)

end Store

/-! ### `mappages` -/

section Mappages

variable {L : Layout} {m : Phys} {pgdir va : ℕ} {y : List ℕ}

/-- The page a store of `w` brings into the map sits at the address `w` names. -/
theorem pte_at_page {h : ℕ} (hh : L.Freeable h) {perm : ℕ} (hperm : perm < pgsize) :
    p2v (pteAddr (v2p h ||| perm ||| pteP)) = h := by
  rw [pte_eq hh.v2p_aligned hperm]
  exact hh.p2v_pteAddr (Nat.or_lt_two_pow (n := 12) hperm (by decide))

/-- `mappages` of one aligned page is a walk, the `remap` check and one store. -/
theorem mappages_page (hva : va % pgsize = 0) (hlt : va + pgsize ≤ 2 ^ 32) (pa perm : ℕ) (m : Phys) :
    mappages pgdir va pgsize pa perm m =
      match walkpgdir pgdir va true m with
      | (none, m₁) => some (false, m₁)
      | (some (t, i), m₁) =>
        if hasFlag (m₁.word t i) pteP then none else some (true, m₁.setWord t i (pa ||| perm ||| pteP)) := by
  have hlast : pgrounddown (wrap32 (va + pgsize + (2 ^ 32 - 1))) = va := by
    unfold pgrounddown wrap32 pgsize at *
    omega
  have hdown : pgrounddown va = va := Nat.div_mul_cancel (Nat.dvd_of_mod_eq_zero hva)
  have hfuel : (2 : ℕ) ^ 20 = 2 ^ 20 - 1 + 1 := by norm_num
  unfold mappages
  rw [hlast, hdown, hfuel, mappagesLoop]
  rcases walkpgdir pgdir va true m with ⟨_ | ⟨t, i⟩, m₁⟩
  · rfl
  · simp

/-- Mapping one unmapped user page `h` that the caller holds: either the directory
takes `h` (and maybe a page table) and maps `va`'s page to it, or no page table
could be allocated and nothing has changed. -/
theorem mappages_user {h : ℕ} (hs : m.Sound L (footprint m.mem pgdir ++ h :: y)) (hh : L.Freeable h)
    (hva : va % pgsize = 0) (hu : va < kernbase) (hold : pteOf m.mem pgdir va = none) {perm : ℕ}
    (hperm : perm < pgsize) :
    ∃ ok m', mappages pgdir va pgsize (v2p h) perm m = some (ok, m') ∧
      (ok = true → m.Confined m' (footprint m.mem pgdir ++ h :: y) (footprint m'.mem pgdir ++ y) ∧
        ∀ va' < 2 ^ 32, pteOf m'.mem pgdir va' =
          if pgrounddown va' = va then some (v2p h ||| perm ||| pteP) else pteOf m.mem pgdir va') ∧
      (ok = false → m' = m ∧ m.freelist = []) := by
  have hv2p : v2p h < 2 ^ 32 := lt_trans hh.v2p_lt (by decide)
  obtain ⟨hpw, hw⟩ := presentPte_entry hh.v2p_aligned hv2p hperm
  have hupx : pdx va < pdx kernbase := by
    unfold pdx kernbase at *
    omega
  rw [mappages_page hva (by unfold kernbase at hu; unfold pgsize at *; omega)]
  rcases hwalk : walkpgdir pgdir va true m with ⟨_ | ⟨t, i⟩, m₁⟩
  · -- no page table, and none to allocate
    rcases walkpgdir_cases hwalk with ⟨_, -, hr, -⟩ | ⟨-, hfl, -, hm⟩ | ⟨_, _, -, -, -, hr, -⟩
    · cases hr
    · exact ⟨false, m₁, rfl, fun h => absurd h Bool.false_ne_true, fun _ => ⟨hm, hfl rfl⟩⟩
    · cases hr
  · obtain ⟨rfl, hold', hpte, -⟩ := store_spec hs hwalk hw
    have hP : hasFlag (m₁.word t (ptx va)) pteP = false := by
      rw [hold] at hold'
      simpa [presentPte] using hold'
    refine ⟨true, m₁.setWord t (ptx va) (v2p h ||| perm ||| pteP), by simp [hP],
      fun _ => ⟨?_, fun va' hva' => ?_⟩, fun h => absurd h.symm Bool.false_ne_true⟩
    · exact store_confined_user hs hwalk hw hpw (pte_at_page hh hperm) hold hupx
    · rw [pteOf_of_pteAt hva (lt_trans hu (by decide)) hpte hva', hpw]

/-- A `mappages` of one page that succeeds took at most one page from the free
list, and entered a new page table, if any, for `va` only. -/
theorem mappages_page_ok (hs : m.Sound L (footprint m.mem pgdir ++ y)) (hva : va % pgsize = 0)
    (hlt : va + pgsize ≤ 2 ^ 32) {pa perm : ℕ} (hw : pa ||| perm ||| pteP < 2 ^ 32) {m' : Phys}
    (h : mappages pgdir va pgsize pa perm m = some (true, m')) :
    m.freelist.length ≤ m'.freelist.length + 1 ∧
      ∀ k, (pdeTable m'.mem pgdir k).isSome → (pdeTable m.mem pgdir k).isSome ∨ k = pdx va := by
  rw [mappages_page hva hlt] at h
  rcases hwalk : walkpgdir pgdir va true m with ⟨_ | ⟨t, i⟩, m₁⟩
  · rw [hwalk] at h
    cases h
  rw [hwalk] at h
  by_cases hP : hasFlag (m₁.word t i) pteP
  · simp [hP] at h
  simp only [hP, Bool.false_eq_true, if_false, Option.some.injEq, Prod.mk.injEq, true_and] at h
  subst h
  obtain ⟨-, -, -, htab, -⟩ := store_spec hs hwalk hw
  refine ⟨?_, htab⟩
  -- the walk kept the free list, or took its head for the new page table
  rcases walkpgdir_cases hwalk with ⟨_, -, -, rfl⟩ | ⟨-, -, hr, -⟩ | ⟨g, rest, -, -, hfl, -, rfl⟩
  · simp
  · cases hr
  · simp [hfl, Phys.memset, Phys.setWord, Phys.setPage]

/-- One turn of `mappages`'s loop at an unmapped page `a` of the kernel part: either
no page table and no free page, or the store of `pa | perm | PTE_P`, confined to
the directory's footprint, after which the loop stops at `last` or goes on with the
next page. -/
theorem mappagesLoop_kernel_turn (hs : m.Sound L (footprint m.mem pgdir ++ y)) {a pa perm : ℕ}
    (ha : a % pgsize = 0) (hka : kernbase ≤ a) (hlt : a < 2 ^ 32) (hold : pteOf m.mem pgdir a = none)
    (hpa : pa % pgsize = 0) (hpalt : pa < 2 ^ 32) (hperm : perm < pgsize) (last fuel : ℕ) :
    (mappagesLoop pgdir last perm (fuel + 1) a pa m = some (false, m) ∧ m.freelist = []) ∨
    ∃ m₂, m.Confined m₂ (footprint m.mem pgdir ++ y) (footprint m₂.mem pgdir ++ y) ∧
      (∀ i, (pdeTable m₂.mem pgdir i).isSome → (pdeTable m.mem pgdir i).isSome ∨ i = pdx a) ∧
      (∀ va < 2 ^ 32, pteOf m₂.mem pgdir va =
        if pgrounddown va = a then some (pa ||| perm ||| pteP) else pteOf m.mem pgdir va) ∧
      mappagesLoop pgdir last perm (fuel + 1) a pa m =
        if a = last then some (true, m₂)
        else mappagesLoop pgdir last perm fuel (wrap32 (a + pgsize)) (wrap32 (pa + pgsize)) m₂ := by
  obtain ⟨hpw, hw⟩ := presentPte_entry hpa hpalt hperm
  have hkx : pdx kernbase ≤ pdx a := by
    unfold pdx
    unfold kernbase at hka ⊢
    omega
  rw [mappagesLoop]
  rcases hwalk : walkpgdir pgdir a true m with ⟨_ | ⟨t, i⟩, m₁⟩
  · rcases walkpgdir_cases hwalk with ⟨_, -, hr, -⟩ | ⟨-, hfl, -, rfl⟩ | ⟨_, _, -, -, -, hr, -⟩
    · cases hr
    · exact .inl ⟨rfl, hfl rfl⟩
    · cases hr
  · obtain ⟨rfl, hold', hpte, hpde, -⟩ := store_spec hs hwalk hw
    have hP : hasFlag (m₁.word t (ptx a)) pteP = false := by
      rw [hold] at hold'
      simpa [presentPte] using hold'
    refine .inr ⟨m₁.setWord t (ptx a) (pa ||| perm ||| pteP), store_confined_kernel hs hwalk hw hkx, hpde,
      fun va hva => ?_, by simp [hP]⟩
    rw [pteOf_of_pteAt ha hlt hpte hva, hpw]

/-- `mappages`'s loop over the `n + 1` unmapped pages from `a` in the kernel part of
the map, to the pages from `pa`.  It never panics.  When it completes (`true`)
those pages map to the pages from `pa` and the rest of the map is as it was; when
an allocation fails (`false`) the free list is empty.  Either way the step is
confined to the directory's footprint, and the directory gains page tables only at
the entries of the range. -/
theorem mappagesLoop_kernel {perm : ℕ} (hperm : perm < pgsize) :
    ∀ (n fuel a pa : ℕ) (m : Phys), n < fuel → a % pgsize = 0 → kernbase ≤ a →
      a + (n + 1) * pgsize ≤ 2 ^ 32 → pa % pgsize = 0 → pa + (n + 1) * pgsize ≤ 2 ^ 32 →
      m.Sound L (footprint m.mem pgdir ++ y) →
      (∀ k ≤ n, pteOf m.mem pgdir (a + k * pgsize) = none) →
      ∃ ok m', mappagesLoop pgdir (a + n * pgsize) perm fuel a pa m = some (ok, m') ∧
        m.Confined m' (footprint m.mem pgdir ++ y) (footprint m'.mem pgdir ++ y) ∧
        (∀ i, (pdeTable m'.mem pgdir i).isSome →
          (pdeTable m.mem pgdir i).isSome ∨ ∃ k ≤ n, i = pdx (a + k * pgsize)) ∧
        (ok = false → m'.freelist = []) ∧
        (ok = true → ∀ va < 2 ^ 32, pteOf m'.mem pgdir va =
          if a ≤ va ∧ va < a + (n + 1) * pgsize then some (pa + (pgrounddown va - a) ||| perm ||| pteP)
          else pteOf m.mem pgdir va) := by
  intro n
  -- induction on the pages left; each turn stores one page and moves on
  induction n with
  | zero =>
    intro fuel a pa m hfuel ha hka hend hpa hpend hs hold
    obtain ⟨f, rfl⟩ : ∃ f, fuel = f + 1 := ⟨fuel - 1, by omega⟩
    rcases mappagesLoop_kernel_turn hs ha hka (by unfold pgsize at hend; omega) (by simpa using hold 0 le_rfl)
      hpa (by unfold pgsize at hpend; omega) hperm
      (a + 0 * pgsize) f with ⟨hrun, hfl⟩ | ⟨m₂, hconf, hpde, hpte, hrun⟩
    · exact ⟨false, m, hrun, Ownership.Confined.refl _ _ _, fun i hi => .inl hi, fun _ => hfl, nofun⟩
    · refine ⟨true, m₂, by rw [hrun, if_pos (by simp)], hconf, fun i hi => ?_, nofun, fun _ va hva => ?_⟩
      · rcases hpde i hi with h | h
        · exact .inl h
        · exact .inr ⟨0, le_rfl, by simpa using h⟩
      · -- one page: the addresses of `[a, a + PGSIZE)` are those of the page `a`
        have hpg : pgrounddown va = a ↔ a ≤ va ∧ va < a + (0 + 1) * pgsize := by
          unfold pgrounddown pgsize at *
          omega
        rw [hpte va hva]
        by_cases h : pgrounddown va = a
        · rw [if_pos h, if_pos (hpg.mp h), h, Nat.sub_self, Nat.add_zero]
        · rw [if_neg h, if_neg (mt hpg.mpr h)]
  | succ n ih =>
    intro fuel a pa m hfuel ha hka hend hpa hpend hs hold
    obtain ⟨f, rfl⟩ : ∃ f, fuel = f + 1 := ⟨fuel - 1, by omega⟩
    have hpg : pgsize = 4096 := rfl
    rw [hpg] at ha hend hpa hpend
    rcases mappagesLoop_kernel_turn hs ha hka (by omega) (by simpa using hold 0 (Nat.zero_le _)) hpa
      (by omega) hperm (a + (n + 1) * pgsize) f with ⟨hrun, hfl⟩ | ⟨m₂, hconf, hpde, hpte, hrun⟩
    · exact ⟨false, m, hrun, Ownership.Confined.refl _ _ _, fun i hi => .inl hi, fun _ => hfl, nofun⟩
    have hne : a ≠ a + (n + 1) * pgsize := by
      rw [hpg]
      omega
    have hwa : wrap32 (a + pgsize) = a + pgsize := wrap32_of_lt (by rw [hpg]; omega)
    have hwpa : wrap32 (pa + pgsize) = pa + pgsize := wrap32_of_lt (by rw [hpg]; omega)
    have hold₂ : ∀ k ≤ n, pteOf m₂.mem pgdir (a + pgsize + k * pgsize) = none := fun k hk => by
      have hpk : pgrounddown (a + pgsize + k * pgsize) ≠ a := by
        unfold pgrounddown
        rw [hpg]
        omega
      have hk₁ := hold (k + 1) (by omega)
      rw [show a + (k + 1) * pgsize = a + pgsize + k * pgsize by ring] at hk₁
      rw [hpte _ (by rw [hpg]; omega), if_neg hpk, hk₁]
    obtain ⟨ok, m', hrun', hconf', hpde', hfl', hpte'⟩ := ih f (a + pgsize) (pa + pgsize) m₂ (by omega)
      (by rw [hpg]; omega) (by omega) (by rw [hpg]; omega) (by rw [hpg]; omega) (by rw [hpg]; omega)
      (hs.of_confined hconf) hold₂
    refine ⟨ok, m', ?_, hconf.trans hconf', fun i hi => ?_, hfl', fun hok va hva => ?_⟩
    · rw [hrun, if_neg hne, hwa, hwpa, show a + (n + 1) * pgsize = a + pgsize + n * pgsize by ring]
      exact hrun'
    · rcases hpde' i hi with h | ⟨k, hk, rfl⟩
      · rcases hpde i h with h | rfl
        · exact .inl h
        · exact .inr ⟨0, Nat.zero_le _, by simp⟩
      · exact .inr ⟨k + 1, by omega, by rw [show a + pgsize + k * pgsize = a + (k + 1) * pgsize by ring]⟩
    · -- the first page from this turn, the others from the rest of the loop
      have hp₁ := pgrounddown_le va
      have hp₂ := lt_pgrounddown_add va
      have hp₃ := pgrounddown_aligned va
      rw [hpte' hok va hva, hpte va hva]
      simp only [hpg] at hp₂ hp₃ ⊢
      by_cases h₁ : a + 4096 ≤ va ∧ va < a + 4096 + (n + 1) * 4096
      · rw [if_pos h₁, if_pos (by omega),
          show pa + 4096 + (pgrounddown va - (a + 4096)) = pa + (pgrounddown va - a) by omega]
      · rw [if_neg h₁]
        by_cases h₂ : pgrounddown va = a
        · rw [if_pos h₂, if_pos (by omega), h₂, Nat.sub_self, Nat.add_zero]
        · rw [if_neg h₂, if_neg (by omega)]

/-- `mappages` of an aligned range `[va, va + size)` of unmapped pages in the kernel
part: the loop above, from `va` to the last page of the range. -/
theorem mappages_kernel {size pa perm : ℕ} (hperm : perm < pgsize) (hva : va % pgsize = 0)
    (hk : kernbase ≤ va) (hsz : size % pgsize = 0) (hpos : 0 < size) (hend : va + size ≤ 2 ^ 32)
    (hpa : pa % pgsize = 0) (hpend : pa + size ≤ 2 ^ 32) (hs : m.Sound L (footprint m.mem pgdir ++ y))
    (hold : ∀ v, va ≤ v → v < va + size → pteOf m.mem pgdir v = none) :
    ∃ ok m', mappages pgdir va size pa perm m = some (ok, m') ∧
      m.Confined m' (footprint m.mem pgdir ++ y) (footprint m'.mem pgdir ++ y) ∧
      (∀ i, (pdeTable m'.mem pgdir i).isSome →
        (pdeTable m.mem pgdir i).isSome ∨ ∃ v, va ≤ v ∧ v < va + size ∧ i = pdx v) ∧
      (ok = false → m'.freelist = []) ∧
      (ok = true → ∀ v < 2 ^ 32, pteOf m'.mem pgdir v =
        if va ≤ v ∧ v < va + size then some (pa + (pgrounddown v - va) ||| perm ||| pteP)
        else pteOf m.mem pgdir v) := by
  have hpg : pgsize = 4096 := rfl
  obtain ⟨n, rfl⟩ : ∃ n, size = (n + 1) * pgsize := ⟨size / pgsize - 1, by rw [hpg] at hsz ⊢; omega⟩
  have hlast : pgrounddown (wrap32 (va + (n + 1) * pgsize + (2 ^ 32 - 1))) = va + n * pgsize := by
    unfold pgrounddown wrap32
    rw [hpg] at hva hend ⊢
    omega
  have hdown : pgrounddown va = va := Nat.div_mul_cancel (Nat.dvd_of_mod_eq_zero hva)
  obtain ⟨ok, m', hrun, hconf, hpde, hfl, hpte⟩ := mappagesLoop_kernel hperm n (2 ^ 20) va pa m
    (by rw [hpg] at hend; omega) hva hk hend hpa hpend hs fun k hk => hold _ (Nat.le_add_right _ _)
      (by rw [hpg]; omega)
  refine ⟨ok, m', ?_, hconf, fun i hi => ?_, hfl, hpte⟩
  · rw [mappages, hlast, hdown]
    exact hrun
  · rcases hpde i hi with h | ⟨k, hk, rfl⟩
    · exact .inl h
    · exact .inr ⟨_, Nat.le_add_right _ _, by rw [hpg]; omega, rfl⟩


/-! ### `mappages` over any range -/

/-- Every address of a page reads the entry of the page. -/
theorem pteOf_of_pgrounddown {mem : ℕ → Page} {v a : ℕ} (hv : v < 2 ^ 32) (ha : a < 2 ^ 32)
    (hal : a % pgsize = 0) (h : pgrounddown v = a) : pteOf mem pgdir v = pteOf mem pgdir a := by
  obtain ⟨h₁, h₂⟩ := (slot_eq_iff hv ha hal).mpr h
  rw [pteOf, pteOf, h₁, h₂]

/-- `mem'` is `mem` with the pages of `[a, b)` mapped, in order, to the pages from
`pa` (modulo `2 ^ 32`) with `perm | PTE_P`, and every other address as it was. -/
def MapsRange (mem mem' : ℕ → Page) (pgdir a b pa perm : ℕ) : Prop :=
  ∀ v < 2 ^ 32, pteOf mem' pgdir v =
    if a ≤ v ∧ v < b then some (wrap32 (pa + (pgrounddown v - a)) ||| perm ||| pteP) else pteOf mem pgdir v

/-- What `mappages` of the pages of `[a, e)` to the pages from `pa` may leave, from
the map `mem`, in the order it walks the pages.  It returns 0 (`some (true, m')`)
only when none of them was mapped, and `m'` then maps all of them; it panics with
`remap` (`none`) at the first page `b` that was mapped; it returns `-1`
(`some (false, m')`) when there is no page table for the page `b` and no free page
to make one, with no page before `b` mapped before and all of them mapped after. -/
def MapOutcome (mem : ℕ → Page) (pgdir a e pa perm : ℕ) : Option (Bool × Phys) → Prop
  | some (true, m') =>
    (∀ v, a ≤ v → v < e → pteOf mem pgdir v = none) ∧ MapsRange mem m'.mem pgdir a e pa perm
  | none =>
    ∃ b, b % pgsize = 0 ∧ a ≤ b ∧ b < e ∧ pteOf mem pgdir b ≠ none ∧
      ∀ v, a ≤ v → v < b → pteOf mem pgdir v = none
  | some (false, m') =>
    m'.freelist = [] ∧ ∃ b, b % pgsize = 0 ∧ a ≤ b ∧ b < e ∧
      (∀ v, a ≤ v → v < b → pteOf mem pgdir v = none) ∧ pdeTable m'.mem pgdir (pdx b) = none ∧
      MapsRange mem m'.mem pgdir a b pa perm

section Outcome

variable {perm : ℕ} {mem mem₂ : ℕ → Page}

theorem MapsRange.refl (mem : ℕ → Page) (a pa : ℕ) : MapsRange mem mem pgdir a a pa perm :=
  fun v _ => by rw [if_neg (by omega)]

/-- The store of one page at `a`, as a map of the range of that page. -/
theorem MapsRange.page {a pa : ℕ} (ha : a % pgsize = 0) (hpa : pa < 2 ^ 32)
    (h : ∀ v < 2 ^ 32, pteOf mem₂ pgdir v =
      if pgrounddown v = a then some (pa ||| perm ||| pteP) else pteOf mem pgdir v) :
    MapsRange mem mem₂ pgdir a (a + pgsize) pa perm := fun v hv => by
  have hiff : pgrounddown v = a ↔ a ≤ v ∧ v < a + pgsize := by
    unfold pgrounddown pgsize at *
    omega
  rw [h v hv]
  by_cases hp : pgrounddown v = a
  · rw [if_pos hp, if_pos (hiff.mp hp), hp, Nat.sub_self, Nat.add_zero, wrap32_of_lt hpa]
  · rw [if_neg hp, if_neg (mt hiff.mpr hp)]

/-- The pages of `[a, b)` mapped from `pa`, then those of `[b, c)` from where the first
part stopped: the pages of `[a, c)` mapped from `pa`. -/
theorem MapsRange.trans {mem₃ : ℕ → Page} {a b c pa : ℕ} (hb : b % pgsize = 0) (hab : a ≤ b) (hbc : b ≤ c)
    (h₁ : MapsRange mem mem₂ pgdir a b pa perm) (h₂ : MapsRange mem₂ mem₃ pgdir b c (wrap32 (pa + (b - a))) perm) :
    MapsRange mem mem₃ pgdir a c pa perm := fun v hv => by
  rw [h₂ v hv, h₁ v hv]
  by_cases hv₂ : b ≤ v ∧ v < c
  · -- the page of `v` starts at `b` or above, so the two offsets add up
    have hpb : b ≤ pgrounddown v := by
      unfold pgrounddown
      unfold pgsize at hb ⊢
      omega
    rw [if_pos hv₂, if_pos ⟨by omega, hv₂.2⟩,
      show wrap32 (wrap32 (pa + (b - a)) + (pgrounddown v - b)) = wrap32 (pa + (pgrounddown v - a)) by
        unfold wrap32
        omega]
  · rw [if_neg hv₂]
    by_cases hv₁ : a ≤ v ∧ v < b
    · rw [if_pos hv₁, if_pos ⟨hv₁.1, by omega⟩]
    · rw [if_neg hv₁, if_neg (by omega)]

/-- Nothing mapped yet: the outcome of an empty range that returned 0. -/
theorem MapOutcome.done (m : Phys) (e pa : ℕ) : MapOutcome m.mem pgdir e e pa perm (some (true, m)) :=
  ⟨fun _ h₁ h₂ => absurd h₂ (by omega), MapsRange.refl _ _ _⟩

/-- No page table for the first page and no free page: `-1` there. -/
theorem MapOutcome.fail_here {m : Phys} {a e pa : ℕ} (ha : a % pgsize = 0) (hae : a < e)
    (hfl : m.freelist = []) (hpd : pdeTable m.mem pgdir (pdx a) = none) :
    MapOutcome m.mem pgdir a e pa perm (some (false, m)) :=
  ⟨hfl, a, ha, le_rfl, hae, fun _ h₁ h₂ => absurd h₂ (by omega), hpd, MapsRange.refl _ _ _⟩

/-- The first page mapped already: `remap` there. -/
theorem MapOutcome.remap_here {a e pa : ℕ} (ha : a % pgsize = 0) (hae : a < e) (hP : pteOf mem pgdir a ≠ none) :
    MapOutcome mem pgdir a e pa perm none :=
  ⟨a, ha, le_rfl, hae, hP, fun _ h₁ h₂ => absurd h₂ (by omega)⟩

/-- The first page, unmapped, mapped to `pa`, and then the outcome of the rest of
the range from the next page on and from `pa + PGSIZE`: the outcome of the whole
range. -/
theorem MapOutcome.cons {a e pa : ℕ} {r : Option (Bool × Phys)} (ha : a % pgsize = 0)
    (hae : a + pgsize ≤ e) (he : e ≤ 2 ^ 32)
    (hold : ∀ v, a ≤ v → v < a + pgsize → pteOf mem pgdir v = none)
    (h₁ : MapsRange mem mem₂ pgdir a (a + pgsize) pa perm)
    (h : MapOutcome mem₂ pgdir (a + pgsize) e (wrap32 (pa + pgsize)) perm r) :
    MapOutcome mem pgdir a e pa perm r := by
  have hb : (a + pgsize) % pgsize = 0 := by
    unfold pgsize at ha ⊢
    omega
  -- past the first page, the map after it reads as the map before
  have hkeep : ∀ v, a + pgsize ≤ v → v < 2 ^ 32 → pteOf mem₂ pgdir v = pteOf mem pgdir v := fun v h₁' h₂' => by
    rw [h₁ v h₂', if_neg (by omega)]
  have hnone : ∀ b, a + pgsize ≤ b → b ≤ e → (∀ v, a + pgsize ≤ v → v < b → pteOf mem₂ pgdir v = none) →
      ∀ v, a ≤ v → v < b → pteOf mem pgdir v = none := fun b _ hbe hrest v hv₁ hv₂ => by
    by_cases hv : v < a + pgsize
    · exact hold v hv₁ hv
    · rw [← hkeep v (by omega) (by omega)]
      exact hrest v (by omega) hv₂
  have hpa : wrap32 (pa + pgsize) = wrap32 (pa + (a + pgsize - a)) := by rw [Nat.add_sub_cancel_left]
  match r, h with
  | some (true, m'), ⟨hrest, hmaps⟩ =>
    exact ⟨hnone e hae le_rfl hrest, h₁.trans hb (by omega) hae (hpa ▸ hmaps)⟩
  | none, ⟨b, hbal, hb₁, hb₂, hP, hrest⟩ =>
    exact ⟨b, hbal, by omega, hb₂, by rwa [← hkeep b hb₁ (by omega)], hnone b hb₁ hb₂.le hrest⟩
  | some (false, m'), ⟨hfl, b, hbal, hb₁, hb₂, hrest, hpd, hmaps⟩ =>
    exact ⟨hfl, b, hbal, by omega, hb₂, hnone b hb₁ hb₂.le hrest, hpd, h₁.trans hb (by omega) hb₁ (hpa ▸ hmaps)⟩

end Outcome

/-- One turn of `mappages`'s loop at the page `a`, anywhere in the address space:
either no page table and no free page for one (`-1`), or a present entry
(`remap`), or the store of `pa | perm | PTE_P`, which keeps the directory and its
tables sound, after which the loop stops at `last` or goes on with the next page. -/
theorem mappagesLoop_turn {x : List ℕ} (hs : m.Sound L (pgdir :: tables m.mem pgdir ++ x)) {a pa perm : ℕ}
    (ha : a % pgsize = 0) (hlt : a < 2 ^ 32) (hpa : pa % pgsize = 0) (hpalt : pa < 2 ^ 32)
    (hperm : perm < pgsize) (last fuel : ℕ) :
    (mappagesLoop pgdir last perm (fuel + 1) a pa m = some (false, m) ∧ m.freelist = [] ∧
        pdeTable m.mem pgdir (pdx a) = none) ∨
    (mappagesLoop pgdir last perm (fuel + 1) a pa m = none ∧ pteOf m.mem pgdir a ≠ none) ∨
    (pteOf m.mem pgdir a = none ∧ ∃ m₂, m₂.Sound L (pgdir :: tables m₂.mem pgdir ++ x) ∧
      (∀ v < 2 ^ 32, pteOf m₂.mem pgdir v =
        if pgrounddown v = a then some (pa ||| perm ||| pteP) else pteOf m.mem pgdir v) ∧
      mappagesLoop pgdir last perm (fuel + 1) a pa m =
        if a = last then some (true, m₂)
        else mappagesLoop pgdir last perm fuel (wrap32 (a + pgsize)) (wrap32 (pa + pgsize)) m₂) := by
  obtain ⟨hpw, hw⟩ := presentPte_entry hpa hpalt hperm
  rw [mappagesLoop]
  rcases hwalk : walkpgdir pgdir a true m with ⟨_ | ⟨t, i⟩, m₁⟩
  · rcases walkpgdir_cases hwalk with ⟨_, -, hr, -⟩ | ⟨hpd, hfl, -, rfl⟩ | ⟨_, _, -, -, -, hr, -⟩
    · cases hr
    · exact .inl ⟨rfl, hfl rfl, hpd⟩
    · cases hr
  · obtain ⟨rfl, hold', hpte, -, new, hfl, htab, hframe⟩ := store_spec_dir hs hwalk hw
    by_cases hP : hasFlag (m₁.word t (ptx a)) pteP
    · -- a present entry
      refine .inr (.inl ⟨by simp [hP], fun h => ?_⟩)
      rw [h] at hold'
      simp [presentPte, hP] at hold'
    have hold : pteOf m.mem pgdir a = none := by
      rw [← hold']
      simp [presentPte, hP]
    refine .inr (.inr ⟨hold, m₁.setWord t (ptx a) (pa ||| perm ||| pteP), hs.of_confined ⟨?_, ?_⟩,
      fun v hv => ?_, by simp [hP]⟩)
    · -- the new page table, if any, moves from the free list to the tables
      rw [List.perm_iff_count]
      intro q
      have := htab.count_eq q
      simp only [hfl, Phys.setWord_freelist, List.count_append, List.count_cons] at *
      omega
    · exact fun q hq hqo => hframe q hq fun h => hqo (List.mem_append_left _ h)
    · rw [pteOf_of_pteAt ha hlt hpte hv, hpw]

/-- `mappages`'s loop over the `n + 1` pages from the aligned `a`, mapped to the pages
from `pa`: its outcome is one of the three `MapOutcome` allows, with enough turns
never to run out. -/
theorem mappagesLoop_outcome {x : List ℕ} {perm : ℕ} (hperm : perm < pgsize) :
    ∀ (n fuel a pa : ℕ) (m : Phys), n < fuel → a % pgsize = 0 → a + (n + 1) * pgsize ≤ 2 ^ 32 →
      pa % pgsize = 0 → pa < 2 ^ 32 → m.Sound L (pgdir :: tables m.mem pgdir ++ x) →
      MapOutcome m.mem pgdir a (a + (n + 1) * pgsize) pa perm
        (mappagesLoop pgdir (a + n * pgsize) perm fuel a pa m) := by
  intro n
  -- induction on the pages left; each turn stores one page and moves on
  induction n with
  | zero =>
    intro fuel a pa m hfuel ha hend hpa hpalt hs
    obtain ⟨f, rfl⟩ : ∃ f, fuel = f + 1 := ⟨fuel - 1, by omega⟩
    rw [Nat.zero_add, Nat.one_mul] at hend ⊢
    rcases mappagesLoop_turn hs ha (by unfold pgsize at hend; omega) hpa hpalt hperm (a + 0 * pgsize) f with
      ⟨hrun, hfl, hpd⟩ | ⟨hrun, hP⟩ | ⟨hold, m₂, -, hpte, hrun⟩
    · rw [hrun]
      exact MapOutcome.fail_here ha (by unfold pgsize; omega) hfl hpd
    · rw [hrun]
      exact MapOutcome.remap_here ha (by unfold pgsize; omega) hP
    · rw [hrun, if_pos (by simp)]
      refine MapOutcome.cons ha le_rfl hend (fun v h₁ h₂ => ?_) (MapsRange.page ha hpalt hpte)
        (MapOutcome.done m₂ _ _)
      rw [pteOf_of_pgrounddown (by omega) (by unfold pgsize at hend; omega) ha
        (by unfold pgrounddown pgsize at *; omega), hold]
  | succ n ih =>
    intro fuel a pa m hfuel ha hend hpa hpalt hs
    obtain ⟨f, rfl⟩ : ∃ f, fuel = f + 1 := ⟨fuel - 1, by omega⟩
    have hpg : pgsize = 4096 := rfl
    rcases mappagesLoop_turn hs ha (by rw [hpg] at hend; omega) hpa hpalt hperm (a + (n + 1) * pgsize) f with
      ⟨hrun, hfl, hpd⟩ | ⟨hrun, hP⟩ | ⟨hold, m₂, hs₂, hpte, hrun⟩
    · rw [hrun]
      exact MapOutcome.fail_here ha (by rw [hpg]; omega) hfl hpd
    · rw [hrun]
      exact MapOutcome.remap_here ha (by rw [hpg]; omega) hP
    -- the first page stored, then the rest of the range from the next page
    have hne : a ≠ a + (n + 1) * pgsize := by
      rw [hpg]
      omega
    have hwa : wrap32 (a + pgsize) = a + pgsize := wrap32_of_lt (by rw [hpg] at hend ⊢; omega)
    have hrest := ih f (a + pgsize) (wrap32 (pa + pgsize)) m₂ (by omega) (by rw [hpg] at ha ⊢; omega)
      (by rw [hpg] at hend ⊢; omega) (by unfold wrap32; rw [hpg] at hpa ⊢; omega) (wrap32_lt _) hs₂
    rw [hrun, if_neg hne, hwa, show a + (n + 1) * pgsize = a + pgsize + n * pgsize by ring]
    rw [show a + pgsize + (n + 1) * pgsize = a + (n + 1 + 1) * pgsize by ring] at hrest
    refine MapOutcome.cons ha (by rw [hpg]; omega) hend (fun v h₁ h₂ => ?_) (MapsRange.page ha hpalt hpte) hrest
    rw [pteOf_of_pgrounddown (by rw [hpg] at hend h₂; omega) (by rw [hpg] at hend; omega) ha
      (by unfold pgrounddown; rw [hpg] at ha h₂ ⊢; omega), hold]


/-- **`mappages`.**  For every directory sound with its page tables, `va`, `size ≥ 1`
with `va + size ≤ 2 ^ 32` (the device mapping of `kmap` ends at `2 ^ 32` exactly),
page-aligned `pa` and `perm`, `mappages` stops with one of the outcomes
`MapOutcome` allows over the pages from `PGROUNDDOWN(va)` to
`PGROUNDDOWN(va + size - 1)`: 0 with exactly those pages mapped to the pages from
`pa`, none of them mapped before; `remap` at the first page mapped before; or `-1`
at a page with no page table and no free page, the pages before it mapped. -/
theorem mappages_outcome {x : List ℕ} (hs : m.Sound L (pgdir :: tables m.mem pgdir ++ x)) {size pa perm : ℕ}
    (hperm : perm < pgsize) (hsize : 0 < size) (hend : va + size ≤ 2 ^ 32) (hpa : pa % pgsize = 0)
    (hpalt : pa < 2 ^ 32) :
    MapOutcome m.mem pgdir (pgrounddown va) (pgrounddown (va + size - 1) + pgsize) pa perm
      (mappages pgdir va size pa perm m) := by
  have hpg : pgsize = 4096 := rfl
  -- the range is the `n + 1` pages from `PGROUNDDOWN(va)`
  obtain ⟨n, hn⟩ : ∃ n, pgrounddown (va + size - 1) = pgrounddown va + n * pgsize :=
    ⟨(pgrounddown (va + size - 1) - pgrounddown va) / pgsize, by unfold pgrounddown; rw [hpg]; omega⟩
  have hlast : pgrounddown (wrap32 (va + size + (2 ^ 32 - 1))) = pgrounddown va + n * pgsize := by
    rw [← hn, show wrap32 (va + size + (2 ^ 32 - 1)) = va + size - 1 by unfold wrap32; omega]
  have htop : pgrounddown (va + size - 1) + pgsize ≤ 2 ^ 32 := by
    unfold pgrounddown
    rw [hpg]
    omega
  have hout := mappagesLoop_outcome hperm n (2 ^ 20) (pgrounddown va) pa m
    (by rw [hpg] at hn htop; omega) (pgrounddown_aligned va) (by rw [hn] at htop; linarith) hpa hpalt hs
  rw [show pgrounddown (va + size - 1) + pgsize = pgrounddown va + (n + 1) * pgsize by rw [hn]; ring, mappages, hlast]
  exact hout

/-- A directory at `0x80400000` whose entry 1 has the page table `0x80401000`, which
maps the page `0x400000`; entry 0 has no page table, and no page is free. -/
def gapThenMapped : Phys where
  mem q := if q = 0x80400000 then (Page.fill 0).setWord 1 0x401007
    else if q = 0x80401000 then (Page.fill 0).setWord 0 0x500001 else Page.fill 0
  freelist := []

/-- The directory and its one page table are all the memory owns. -/
theorem gapThenMapped_sound :
    gapThenMapped.Sound ⟨0x80108000, 0x80110000, by decide, by decide, by decide, by decide⟩
      (0x80400000 :: tables gapThenMapped.mem 0x80400000 ++ []) := by
  have ht : tables gapThenMapped.mem 0x80400000 = [0x80401000] := by decide +kernel
  rw [ht]
  refine ⟨by decide, fun q hq => ?_⟩
  obtain rfl | rfl : q = 0x80400000 ∨ q = 0x80401000 := by simpa [gapThenMapped] using hq
  · unfold Layout.Freeable; decide
  · unfold Layout.Freeable; decide

/-- `mappages` of the two pages `0x3FF000` and `0x400000`, in two directory entries,
on `gapThenMapped`: the page `0x400000` is mapped already, but no page table can be
made for `0x3FF000`, so `mappages` returns `-1` and never reaches the `remap`
check. -/
theorem mappages_fails_before_remap :
    pteOf gapThenMapped.mem 0x80400000 0x400000 ≠ none ∧
      mappages 0x80400000 0x3FF000 0x2000 0 pteW gapThenMapped = some (false, gapThenMapped) := by
  refine ⟨by decide, ?_⟩
  have hpd : pdeTable gapThenMapped.mem 0x80400000 (pdx 0x3FF000) = none := by decide
  have hlast : pgrounddown (wrap32 (0x3FF000 + 0x2000 + (2 ^ 32 - 1))) = 0x400000 := by decide
  rw [mappages, hlast, show (2 : ℕ) ^ 20 = 2 ^ 20 - 1 + 1 by norm_num, mappagesLoop,
    show pgrounddown 0x3FF000 = 0x3FF000 by decide, walkpgdir_of_none_empty hpd rfl]

theorem mappages_outcome_gap :
    gapThenMapped.Sound ⟨0x80108000, 0x80110000, by decide, by decide, by decide, by decide⟩
        (0x80400000 :: tables gapThenMapped.mem 0x80400000 ++ []) ∧ pteW < pgsize ∧ 0 < 0x2000 ∧
      0x3FF000 + 0x2000 ≤ 2 ^ 32 ∧ 0 % pgsize = 0 ∧ 0 < 2 ^ 32 ∧
      MapOutcome gapThenMapped.mem 0x80400000 (pgrounddown 0x3FF000) (pgrounddown (0x3FF000 + 0x2000 - 1) + pgsize) 0 pteW
        (mappages 0x80400000 0x3FF000 0x2000 0 pteW gapThenMapped) :=
  ⟨gapThenMapped_sound, by decide, by decide, by decide, by decide, by decide,
    mappages_outcome gapThenMapped_sound (by decide) (by decide) (by decide) (by decide) (by decide)⟩

end Mappages

end Xv6
