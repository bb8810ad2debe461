import Xv6.Mappages

/-!
# Freeing user memory and page directories

`deallocuvm` walks the user part of a directory page by page, skipping a whole
directory entry when it has no page table, and hands every mapped page to
`kfree`; `freevm` then frees the page tables and the directory itself.  Every page
freed leaves the directory's footprint for the free list, so both are confined
steps, and `freevm` of a directory returns its whole footprint.

## Main results

* `unmap_spec` — freeing the page of one present user entry and clearing the entry.
* `deallocuvmLoop_spec` — the loop unmaps every page of its range and nothing else.
* `deallocuvm_spec` — `deallocuvm` unmaps the pages from `PGROUNDUP(newsz)` below
  `oldsz`.
* `deallocuvm_frees_range` — and the free list gains exactly the pages those entries
  mapped (`userPagesIn`), each once.
* `freePdes_spec`, `freevm_spec` — `freevm` returns a directory's footprint to the
  free list.
-/

namespace Xv6

open scoped List

/-! ### Unmapping one page -/

section Unmap

variable {L : Layout} {m : Phys} {pgdir va t : ℕ} {y : List ℕ}

theorem Phys.Sound.freeable_userPage (hs : m.Sound L (footprint m.mem pgdir ++ y)) {q : ℕ}
    (hq : q ∈ userPages m.mem pgdir) : L.Freeable q :=
  hs.freeable_own (List.mem_append_left _ (.tail _ (List.mem_append_right _ hq)))

/-- A user page of a directory is neither the directory nor one of its tables. -/
theorem Phys.Sound.userPage_not_dir (hs : m.Sound L (footprint m.mem pgdir ++ y)) {q : ℕ}
    (hq : q ∈ userPages m.mem pgdir) : q ∉ pgdir :: tables m.mem pgdir := by
  have h := (List.nodup_append.mp hs.nodup_own).1
  rw [footprint, ← List.cons_append] at h
  exact fun hd => List.disjoint_of_nodup_append h hd hq

/-- Freeing the page of the present user entry of the page `va` and clearing the
entry, as `deallocuvm` does: the entry's address is not `0`, the page leaves the
directory's footprint for the free list, the entry reads absent, and nothing else
changes. -/
theorem unmap_spec (hs : m.Sound L (footprint m.mem pgdir ++ y)) (hva : va % pgsize = 0)
    (hu : va < kernbase) (ht : pdeTable m.mem pgdir (pdx va) = some t) {pte : ℕ}
    (hpte : pteOf m.mem pgdir va = some pte) :
    pteAddr pte ≠ 0 ∧ ∃ m₁, kfree L (p2v (pteAddr pte)) m = some m₁ ∧
      m.Confined (m₁.setWord t (ptx va) 0) (footprint m.mem pgdir ++ y)
        (footprint (m₁.setWord t (ptx va) 0).mem pgdir ++ y) ∧
      (∀ i, pdeTable (m₁.setWord t (ptx va) 0).mem pgdir i = pdeTable m.mem pgdir i) ∧
      ∀ v < 2 ^ 32, pteOf (m₁.setWord t (ptx va) 0).mem pgdir v =
        if pgrounddown v = va then none else pteOf m.mem pgdir v := by
  obtain ⟨h, hdef⟩ : ∃ h, h = p2v (pteAddr pte) := ⟨_, rfl⟩
  rw [← hdef]
  have hupx : pdx va < pdx kernbase := by
    unfold pdx
    unfold kernbase at hu ⊢
    omega
  have hhu : h ∈ userPages m.mem pgdir := mem_userPages.mpr ⟨_, hupx, _, ptx_lt va, pte, hpte, hdef.symm⟩
  have hh : L.Freeable h := hs.freeable_userPage hhu
  have hho : h ∉ pgdir :: tables m.mem pgdir := hs.userPage_not_dir hhu
  have htt : t ∈ tables m.mem pgdir := mem_tables.mpr ⟨_, pdx_lt va, ht⟩
  have htd : t ≠ pgdir := ne_of_mem_tables hs.nodup_dir htt
  have hth : t ≠ h := fun e => hho (.tail _ (e ▸ htt))
  have hhd : pgdir ≠ h := fun e => hho (e ▸ .head _)
  refine ⟨fun h0 => ?_, _, kfree_eq hh m, ?_⟩
  · -- the page of address `0` is `KERNBASE`, below `end`
    have hk : h = kernbase := by rw [hdef, h0, p2v_of_lt (by decide), Nat.zero_add]
    exact (lt_of_lt_of_le L.kernbase_lt_end hh.2.1).ne' hk
  obtain ⟨m₁, hm₁⟩ : ∃ m₁ : Phys, m₁ = ⟨Function.update m.mem h (Page.fill 1), h :: m.freelist⟩ := ⟨_, rfl⟩
  rw [← hm₁]
  obtain ⟨m₂, hm₂⟩ : ∃ m₂ : Phys, m₂ = m₁.setWord t (ptx va) 0 := ⟨_, rfl⟩
  rw [← hm₂]
  have hmem₂ : m₂.mem = Function.update m₁.mem t ((m₁.mem t).setWord (ptx va) 0) := by rw [hm₂]; rfl
  have h₁d : m₁.mem pgdir = m.mem pgdir := by rw [hm₁]; exact Function.update_of_ne hhd _ _
  have h₁t : ∀ t' ∈ tables m.mem pgdir, m₁.mem t' = m.mem t' := fun t' ht' => by
    rw [hm₁]
    exact Function.update_of_ne (by rintro rfl; exact hho (.tail _ ht')) _ _
  have hpde : ∀ i, pdeTable m₂.mem pgdir i = pdeTable m.mem pgdir i := fun i => by
    rw [hmem₂, pdeTable_congr (Function.update_of_ne htd.symm _ _), pdeTable_congr h₁d]
  have htab : tables m₂.mem pgdir = tables m.mem pgdir := by simp only [tables, hpde]
  have hslot : ∀ k < npdentries, ∀ j, pteAt m₂.mem pgdir k j =
      if k = pdx va ∧ j = ptx va then none else pteAt m.mem pgdir k j := fun k hk j => by
    have hnd₁ : (pgdir :: tables m₁.mem pgdir).Nodup := by rw [tables_congr h₁d]; exact hs.nodup_dir
    have ht₁ : pdeTable m₁.mem pgdir (pdx va) = some t := by rw [pdeTable_congr h₁d]; exact ht
    rw [hmem₂, pteAt_setWord_table hnd₁ ht₁ (pdx_lt va) _ (by decide) hk j, presentPte_zero,
      pteAt_congr h₁d h₁t hk]
  have hup : userPages m₂.mem pgdir ++ [h] ~ userPages m.mem pgdir ++ [] := by
    have := userPages_perm_of_slot m.mem m₂.mem (fun k hk j hkj => by rw [hslot k hk j, if_neg hkj])
      (mem_userSlots.mpr ⟨hupx, ptx_lt va⟩)
    rwa [hslot _ (pdx_lt va), if_pos ⟨rfl, rfl⟩, show pteAt m.mem pgdir (pdx va) (ptx va) = some pte from hpte,
      Option.map_some, Option.map_none, ← hdef] at this
  have hown : footprint m.mem pgdir ++ y ~ (footprint m₂.mem pgdir ++ y) ++ [h] := by
    rw [List.perm_iff_count]
    intro a
    have := hup.count_eq a
    simp only [footprint, htab, List.count_append, List.count_cons, List.count_nil] at *
    omega
  have hconf₁ : m.Confined m₁ (footprint m.mem pgdir ++ y) (footprint m₂.mem pgdir ++ y) :=
    (kfree_confined (hm₁ ▸ kfree_eq hh m) _).perm_left hown
  have htm : t ∈ footprint m₂.mem pgdir ++ y := by
    rw [footprint, htab]
    exact List.mem_append_left _ (.tail _ (List.mem_append_left _ htt))
  have hconf₂ := setWord_confined m₁ (.inr htm) (ptx va) 0
  rw [← hm₂] at hconf₂
  refine ⟨hconf₁.trans hconf₂, hpde, fun v hv => ?_⟩
  exact pteOf_of_pteAt hva (lt_trans hu (by decide)) hslot hv

end Unmap

/-! ### A process of one page -/

section OnePage

/-- A kernel layout: data from `0x80108000`, the kernel ending at `0x80110000`. -/
def sampleLayout : Layout where
  data := 0x80108000
  kend := 0x80110000
  kernlink_lt_data := by decide
  data_aligned := by decide
  data_le_end := by decide
  end_room := by decide

/-- A process whose directory at `0x80400000` maps address `0` through the page
table at `0x80401000` to the page at `0x80402000`, writable and user. -/
def onePage : Phys where
  mem q :=
    if q = 0x80400000 then (Page.fill 0).setWord 0 (0x401000 ||| pteP ||| pteW ||| pteU)
    else if q = 0x80401000 then (Page.fill 0).setWord 0 (0x402000 ||| pteP ||| pteW ||| pteU)
    else Page.fill 0
  freelist := []

theorem onePage_pdeTable (i : ℕ) :
    pdeTable onePage.mem 0x80400000 i = if i = 0 then some 0x80401000 else none := by
  by_cases hi : i = 0
  · subst hi
    decide
  · -- every other entry of the directory is still the zero of `Page.fill 0`
    have hw : (onePage.mem 0x80400000).word i = 0 := by
      simp [onePage, Page.word_setWord_of_ne _ _ (Ne.symm hi)]
    simp [pdeTable, hw, hasFlag_zero, hi]

theorem onePage_pteAt (i j : ℕ) :
    pteAt onePage.mem 0x80400000 i j =
      if i = 0 ∧ j = 0 then some (0x402000 ||| pteP ||| pteW ||| pteU) else none := by
  by_cases hi : i = 0
  · subst hi
    by_cases hj : j = 0
    · subst hj
      decide
    · have hw : (onePage.mem 0x80401000).word j = 0 := by
        simp [onePage, Page.word_setWord_of_ne _ _ (Ne.symm hj)]
      simp [pteAt, onePage_pdeTable, hw, presentPte_zero, hj]
  · simp [pteAt, onePage_pdeTable, hi]

theorem footprint_onePage :
    footprint onePage.mem 0x80400000 = [0x80400000, 0x80401000, 0x80402000] := by
  have htab : tables onePage.mem 0x80400000 = [0x80401000] :=
    Ownership.filterMap_eq_singleton List.nodup_range (List.mem_range.mpr (by decide))
      (onePage_pdeTable 0) fun i _ hi => by simp [onePage_pdeTable, hi]
  have hpages : userPages onePage.mem 0x80400000 = [0x80402000] :=
    Ownership.filterMap_eq_singleton userSlots_nodup
      (show ((0 : ℕ), (0 : ℕ)) ∈ userSlots from mem_userSlots.mpr ⟨by decide, by decide⟩)
      (by rw [onePage_pteAt]; decide) fun s _ hs => by
        have : ¬(s.1 = 0 ∧ s.2 = 0) := fun h => hs (Prod.ext h.1 h.2)
        simp [onePage_pteAt, this]
  rw [footprint, htab, hpages]
  rfl

theorem onePage_sound : onePage.Sound sampleLayout (footprint onePage.mem 0x80400000 ++ []) := by
  rw [footprint_onePage]
  refine ⟨by decide, fun q hq => ?_⟩
  simp only [onePage, List.nil_append, List.append_nil, List.mem_cons, List.not_mem_nil, or_false] at hq
  rcases hq with rfl | rfl | rfl <;>
    refine ⟨?_, ?_, ?_⟩ <;> simp only [sampleLayout, pgsize, kernbase, phystop] <;> omega

end OnePage

/-! ### `deallocuvm` -/

section Dealloc

variable {L : Layout} {pgdir oldsz : ℕ} {y : List ℕ}

/-- Where `deallocuvm` goes on after a user directory entry without a page table:
the first address of the next entry. -/
theorem next_pde {a : ℕ} (ha : a < kernbase) :
    wrap32 (wrap32 (pgaddr (pdx a + 1) 0 0 + (2 ^ 32 - pgsize)) + pgsize) = (pdx a + 1) * 2 ^ 22 := by
  unfold pgaddr pdx wrap32 pgsize
  unfold kernbase at ha
  omega

/-- One turn of the loop clears `[a, b)` and the rest of it clears its range from
`b` on: together they clear the range from `a` on.  An address of `[a, b)` at or
past the end `oldsz` was not mapped. -/
theorem dealloc_turn {f g f' : ℕ → Option ℕ} {a b v : ℕ} (hab : a ≤ b)
    (hrest : f' v = if b ≤ v ∧ pgrounddown v < oldsz then none else g v)
    (hturn : g v = if a ≤ v ∧ v < b then none else f v)
    (hbeyond : a ≤ v → v < b → oldsz ≤ pgrounddown v → f v = none) :
    f' v = if a ≤ v ∧ pgrounddown v < oldsz then none else f v := by
  rw [hrest, hturn]
  by_cases h₁ : a ≤ v ∧ v < b
  · rw [if_neg fun h => absurd h.1 (not_le.mpr h₁.2), if_pos h₁]
    by_cases h₂ : pgrounddown v < oldsz
    · rw [if_pos ⟨h₁.1, h₂⟩]
    · rw [if_neg (fun h => h₂ h.2), hbeyond h₁.1 h₁.2 (by omega)]
  · rw [if_neg h₁]
    by_cases h₂ : v < a
    · rw [if_neg (by omega), if_neg (by omega)]
    · have hbv : b ≤ v := by omega
      simp only [hbv, true_and, show a ≤ v by omega]

/-- No page of `[a, oldsz)` when the aligned `a` is at or past `oldsz`. -/
theorem range_empty_of_le {a v : ℕ} (ha : a % pgsize = 0) (hle : oldsz ≤ a) :
    ¬(a ≤ v ∧ pgrounddown v < oldsz) := by
  rintro ⟨hav, hv⟩
  have := lt_pgrounddown_add v
  have := pgrounddown_aligned v
  unfold pgsize at *
  omega

/-- The loop of `deallocuvm` from the aligned `a`, with enough turns to pass
`oldsz`: it unmaps and frees every page of `[a, oldsz)`, keeps the page tables,
and changes nothing else; the freed pages leave the directory's footprint for the
free list. -/
theorem deallocuvmLoop_spec (hold : oldsz ≤ kernbase) :
    ∀ (fuel a : ℕ) (m : Phys), a % pgsize = 0 → oldsz ≤ a + fuel * pgsize →
      m.Sound L (footprint m.mem pgdir ++ y) →
      ∃ m', deallocuvmLoop L pgdir oldsz fuel a m = some m' ∧
        m.Confined m' (footprint m.mem pgdir ++ y) (footprint m'.mem pgdir ++ y) ∧
        (∀ i, pdeTable m'.mem pgdir i = pdeTable m.mem pgdir i) ∧
        ∀ v < 2 ^ 32, pteOf m'.mem pgdir v =
          if a ≤ v ∧ pgrounddown v < oldsz then none else pteOf m.mem pgdir v := by
  intro fuel
  -- induction on the turns left; each turn moves `a` on by a page or to the next entry
  induction fuel with
  | zero =>
    intro a m ha hend _
    refine ⟨m, rfl, Ownership.Confined.refl _ _ _, fun _ => rfl, fun v _ => ?_⟩
    rw [if_neg (range_empty_of_le ha (by simpa using hend))]
  | succ fuel ih =>
    intro a m ha hend hs
    have hpg : pgsize = 4096 := rfl
    by_cases hlt : a < oldsz
    swap
    · refine ⟨m, by simp [deallocuvmLoop, hlt], Ownership.Confined.refl _ _ _, fun _ => rfl, fun v _ => ?_⟩
      rw [if_neg (range_empty_of_le ha (by omega))]
    have hak : a < kernbase := lt_of_lt_of_le hlt hold
    have ha32 : a < 2 ^ 32 := lt_trans hak (by decide)
    have hnext : wrap32 (a + pgsize) = a + pgsize := wrap32_of_lt (by unfold kernbase at hak; omega)
    have hpage : ∀ v, a ≤ v → v < a + pgsize → pgrounddown v = a := fun v h₁ h₂ => by
      unfold pgrounddown
      rw [hpg] at ha h₂ ⊢
      omega
    cases hpd : pdeTable m.mem pgdir (pdx a) with
    | none =>
      -- no page table: skip to the next directory entry
      have hpa : pdx a = a / 2 ^ 22 := by
        unfold pdx
        unfold kernbase at hak
        omega
      have hab : a + pgsize ≤ (pdx a + 1) * 2 ^ 22 := by
        rw [hpa, hpg]
        rw [hpg] at ha
        omega
      obtain ⟨m', hrun, hconf, hpde, hpte⟩ := ih ((pdx a + 1) * 2 ^ 22) m (by rw [hpg]; omega)
        (by rw [hpg] at hend hab ⊢; omega) hs
      have hskip : ∀ v, a ≤ v → v < (pdx a + 1) * 2 ^ 22 → pteOf m.mem pgdir v = none := fun v h₁ h₂ => by
        have hv : pdx v = pdx a := by
          rw [hpa] at h₂ ⊢
          unfold pdx
          unfold kernbase at hak
          omega
        rw [pteOf, pteAt, hv, hpd, Option.bind_none]
      refine ⟨m', ?_, hconf, hpde, fun v hv =>
        dealloc_turn (by omega) (hpte v hv) ?_ fun h₁ h₂ _ => hskip v h₁ h₂⟩
      · rw [deallocuvmLoop, if_pos hlt, walkpgdir_of_none hpd, next_pde hak]
        exact hrun
      · split_ifs with h
        · exact hskip v h.1 h.2
        · rfl
    | some t =>
      cases hp : pteOf m.mem pgdir a with
      | none =>
        -- an absent entry: go on with the next page
        obtain ⟨m', hrun, hconf, hpde, hpte⟩ := ih (a + pgsize) m (by rw [hpg] at ha ⊢; omega)
          (by rw [hpg] at hend ⊢; omega) hs
        have hturn : ∀ v, a ≤ v → v < a + pgsize → pteOf m.mem pgdir v = none := fun v h₁ h₂ => by
          have hv32 : v < 2 ^ 32 := lt_of_lt_of_le h₂ (by unfold kernbase at hak; unfold pgsize; omega)
          have hslot := (slot_eq_iff hv32 ha32 ha).mpr (hpage v h₁ h₂)
          rw [← hp, pteOf, pteOf, hslot.1, hslot.2]
        refine ⟨m', ?_, hconf, hpde, fun v hv =>
          dealloc_turn (by omega) (hpte v hv) ?_ fun h₁ h₂ _ => hturn v h₁ h₂⟩
        · have hnp : hasFlag (m.word t (ptx a)) pteP = false := by
            simpa [pteOf, pteAt, hpd, presentPte, Phys.word] using hp
          rw [deallocuvmLoop, if_pos hlt, walkpgdir_of_pdeTable hpd]
          simp only [hnp, Bool.false_eq_true, if_false, hnext]
          exact hrun
        · split_ifs with h
          · exact hturn v h.1 h.2
          · rfl
      | some pte =>
        -- a present entry: free its page, clear it, and go on with the next page
        obtain ⟨h0, m₁, hfree, hconf, hpde, hpte⟩ := unmap_spec hs ha hak hpd hp
        obtain ⟨m', hrun, hconf', hpde', hpte'⟩ := ih (a + pgsize) _ (by rw [hpg] at ha ⊢; omega)
          (by rw [hpg] at hend ⊢; omega) (hs.of_confined hconf)
        refine ⟨m', ?_, hconf.trans hconf', fun i => (hpde' i).trans (hpde i), fun v hv =>
          dealloc_turn (by omega) (hpte' v hv) ?_ fun h₁ h₂ h₃ => absurd (hpage v h₁ h₂ ▸ h₃) (not_le.mpr hlt)⟩
        · obtain ⟨hP, hw⟩ : hasFlag (m.word t (ptx a)) pteP = true ∧ m.word t (ptx a) = pte := by
            simpa [pteOf, pteAt, hpd, presentPte, Phys.word] using hp
          rw [hw] at hP
          rw [deallocuvmLoop, if_pos hlt, walkpgdir_of_pdeTable hpd]
          simp only [hw, hP, if_true, h0, if_false, hfree, Option.bind_some, hnext]
          exact hrun
        · rw [hpte v hv]
          by_cases h : a ≤ v ∧ v < a + pgsize
          · rw [if_pos (hpage v h.1 h.2), if_pos h]
          · rw [if_neg h, if_neg fun (he : pgrounddown v = a) =>
              h ⟨he ▸ pgrounddown_le v, he ▸ lt_pgrounddown_add v⟩]

/-- `deallocuvm` with nothing to shrink returns `oldsz` and changes nothing. -/
theorem deallocuvm_of_le {m : Phys} {newsz : ℕ} (h : oldsz ≤ newsz) :
    deallocuvm L pgdir oldsz newsz m = some (oldsz, m) := by
  simp [deallocuvm, h]

/-- `deallocuvm(pgdir, oldsz, newsz)` below `KERNBASE` unmaps and frees the pages
from `PGROUNDUP(newsz)` below `oldsz` and returns `newsz`. -/
theorem deallocuvm_spec {m : Phys} {newsz : ℕ} (hs : m.Sound L (footprint m.mem pgdir ++ y))
    (hold : oldsz ≤ kernbase) (hnew : newsz < oldsz) :
    ∃ m', deallocuvm L pgdir oldsz newsz m = some (newsz, m') ∧
      m.Confined m' (footprint m.mem pgdir ++ y) (footprint m'.mem pgdir ++ y) ∧
      (∀ i, pdeTable m'.mem pgdir i = pdeTable m.mem pgdir i) ∧
      ∀ v < 2 ^ 32, pteOf m'.mem pgdir v =
        if pgroundup newsz ≤ v ∧ pgrounddown v < oldsz then none else pteOf m.mem pgdir v := by
  obtain ⟨m', hrun, hrest⟩ := deallocuvmLoop_spec hold (2 ^ 20) (pgroundup newsz) m
    (Nat.mul_mod_left _ _) (le_trans hold (by unfold kernbase pgsize; omega)) hs
  refine ⟨m', ?_, hrest⟩
  rw [deallocuvm, if_neg (not_le.mpr hnew), hrun]
  rfl

/-- The pages the present user entries map for the pages of `[lo, hi)`, in address
order: what `deallocuvm` hands to `kfree`. -/
def userPagesIn (mem : ℕ → Page) (pgdir lo hi : ℕ) : List ℕ :=
  (userSlots.filter fun s => lo ≤ s.1 * 2 ^ 22 + s.2 * 2 ^ 12 ∧ s.1 * 2 ^ 22 + s.2 * 2 ^ 12 < hi).filterMap
    fun s => (pteAt mem pgdir s.1 s.2).map fun pte => p2v (pteAddr pte)

/-- When the entries for the pages of `[lo, hi)` are cleared and the others kept, the
user pages split into the cleared ones and those kept. -/
theorem userPages_perm_userPagesIn {mem mem' : ℕ → Page} {lo hi : ℕ}
    (h : ∀ v < 2 ^ 32, pteOf mem' pgdir v = if lo ≤ v ∧ pgrounddown v < hi then none else pteOf mem pgdir v) :
    userPagesIn mem pgdir lo hi ++ userPages mem' pgdir ~ userPages mem pgdir := by
  -- slot by slot, the map after is the map before outside the range
  have hslot : ∀ s ∈ userSlots, ((pteAt mem' pgdir s.1 s.2).map fun pte => p2v (pteAddr pte)) =
      if lo ≤ s.1 * 2 ^ 22 + s.2 * 2 ^ 12 ∧ s.1 * 2 ^ 22 + s.2 * 2 ^ 12 < hi then none
      else (pteAt mem pgdir s.1 s.2).map fun pte => p2v (pteAddr pte) := fun s hs => by
    obtain ⟨hi₁, hj⟩ := mem_userSlots.mp hs
    have hi₂ : s.1 < npdentries := lt_of_lt_of_le hi₁ (by decide)
    have hv : s.1 * 2 ^ 22 + s.2 * 2 ^ 12 < 2 ^ 32 := by
      unfold npdentries at hi₂ hj
      omega
    have hal : pgrounddown (s.1 * 2 ^ 22 + s.2 * 2 ^ 12) = s.1 * 2 ^ 22 + s.2 * 2 ^ 12 :=
      pgrounddown_of_aligned (by unfold pgsize; omega)
    rw [pteAt_eq_pteOf hi₂ hj, pteAt_eq_pteOf hi₂ hj, h _ hv, hal]
    split_ifs <;> rfl
  have hkept : userPages mem' pgdir = (userSlots.filter fun s =>
      !decide (lo ≤ s.1 * 2 ^ 22 + s.2 * 2 ^ 12 ∧ s.1 * 2 ^ 22 + s.2 * 2 ^ 12 < hi)).filterMap
        fun s => (pteAt mem pgdir s.1 s.2).map fun pte => p2v (pteAddr pte) := by
    rw [userPages, List.filterMap_filter, List.filterMap_congr]
    intro s hs
    rw [hslot s hs]
    by_cases hin : lo ≤ s.1 * 2 ^ 22 + s.2 * 2 ^ 12 ∧ s.1 * 2 ^ 22 + s.2 * 2 ^ 12 < hi
    · rw [if_pos hin, if_neg (by simpa using hin)]
    · rw [if_neg hin, if_pos (by simpa using Decidable.imp_iff_not_or.mp (not_and.mp hin))]
  rw [userPagesIn, hkept, ← List.filterMap_append, userPages]
  exact (List.filter_append_perm _ _).filterMap _

theorem userPagesIn_onePage : userPagesIn onePage.mem 0x80400000 0 pgsize = [0x80402000] :=
  Ownership.filterMap_eq_singleton (userSlots_nodup.filter _)
    (show ((0 : ℕ), (0 : ℕ)) ∈ _ from List.mem_filter.mpr ⟨mem_userSlots.mpr ⟨by decide, by decide⟩, by decide⟩)
    (by rw [onePage_pteAt]; decide) fun s _ hs => by
      have : ¬(s.1 = 0 ∧ s.2 = 0) := fun h => hs (Prod.ext h.1 h.2)
      simp [onePage_pteAt, this]

/-- **`deallocuvm`.**  For every sound directory, `oldsz ≤ KERNBASE` and
`newsz < oldsz`, `deallocuvm` returns `newsz`; it clears exactly the present
entries for the pages from `PGROUNDUP(newsz)` below `oldsz`, keeps every other
entry and every page table, and hands each page those entries mapped to `kfree`
once: the free list gains exactly them. -/
theorem deallocuvm_frees_range {m : Phys} {newsz : ℕ} (hs : m.Sound L (footprint m.mem pgdir ++ y))
    (hold : oldsz ≤ kernbase) (hnew : newsz < oldsz) :
    ∃ m', deallocuvm L pgdir oldsz newsz m = some (newsz, m') ∧
      (∀ v < 2 ^ 32, pteOf m'.mem pgdir v =
        if pgroundup newsz ≤ v ∧ pgrounddown v < oldsz then none else pteOf m.mem pgdir v) ∧
      (∀ i, pdeTable m'.mem pgdir i = pdeTable m.mem pgdir i) ∧
      m'.freelist ~ userPagesIn m.mem pgdir (pgroundup newsz) oldsz ++ m.freelist := by
  obtain ⟨m', hrun, hconf, hpde, hpte⟩ := deallocuvm_spec hs hold hnew
  refine ⟨m', hrun, hpte, hpde, ?_⟩
  -- the step trades between the free list and the footprint, whose tables are kept
  -- and whose user pages lose exactly the range
  have htab : tables m'.mem pgdir = tables m.mem pgdir := by
    rw [tables, tables, funext hpde]
  have hsplit := List.perm_iff_count.mp (userPages_perm_userPagesIn hpte)
  have htrade := List.perm_iff_count.mp hconf.perm
  refine List.perm_iff_count.mpr fun a => ?_
  have h₁ := hsplit a
  have h₂ := htrade a
  simp only [footprint, htab, List.count_append, List.count_cons] at h₁ h₂ ⊢
  omega


/-- Shrinking `onePage` from one page to none clears the entry of address `0` and
frees the page it mapped. -/
theorem deallocuvm_frees_range_onePage :
    ∃ m', deallocuvm sampleLayout 0x80400000 pgsize 0 onePage = some (0, m') ∧
      pteOf onePage.mem 0x80400000 0 = some (0x402000 ||| pteP ||| pteW ||| pteU) ∧
      pteOf m'.mem 0x80400000 0 = none ∧ m'.freelist ~ [0x80402000] := by
  obtain ⟨m', hrun, hpte, -, hfree⟩ :=
    deallocuvm_frees_range onePage_sound (show pgsize ≤ kernbase by decide) (show 0 < pgsize by decide)
  refine ⟨m', hrun, onePage_pteAt 0 0, ?_, ?_⟩
  · rw [hpte 0 (by decide), if_pos (by simp [pgroundup_zero, pgrounddown, pgsize])]
  · rw [pgroundup_zero, userPagesIn_onePage] at hfree
    exact hfree

end Dealloc

/-! ### `freevm` -/

section Freevm

variable {L : Layout} {pgdir : ℕ} {y : List ℕ}

/-- The loop of `freevm` over the directory entries `is`: it frees the page table
of every present entry among them, and leaves the directory page alone. -/
theorem freePdes_spec (hd : pgdir ∈ y) :
    ∀ (is : List ℕ) (m : Phys), m.Sound L (is.filterMap (pdeTable m.mem pgdir) ++ y) →
      ∃ m', freePdes L pgdir is m = some m' ∧
        m.Confined m' (is.filterMap (pdeTable m.mem pgdir) ++ y) y ∧ m'.mem pgdir = m.mem pgdir
  | [], m, _ => ⟨m, rfl, Ownership.Confined.refl _ _ _, rfl⟩
  | i :: is, m, hs => by
    cases hpd : pdeTable m.mem pgdir i with
    | none =>
      have hP : hasFlag (m.word pgdir i) pteP = false := by simpa [pdeTable, Phys.word] using hpd
      rw [List.filterMap_cons, hpd] at hs ⊢
      obtain ⟨m', hrun, hconf, hd'⟩ := freePdes_spec hd is m hs
      refine ⟨m', ?_, hconf, hd'⟩
      rw [freePdes, hP]
      exact hrun
    | some t =>
      -- free the table `t`; the directory page is another page, so it stays
      obtain ⟨hP, ht⟩ := pdeTable_eq_some.mp (show pdeTable m.mem pgdir i = some t from hpd)
      simp only [List.filterMap_cons, hpd] at hs ⊢
      have htf : L.Freeable t := hs.freeable_own (.head _)
      have hnd : (t :: (is.filterMap (pdeTable m.mem pgdir) ++ y)).Nodup := by
        simpa only [List.cons_append] using hs.nodup_own
      have htd : pgdir ≠ t := by
        rintro rfl
        exact (List.nodup_cons.mp hnd).1 (List.mem_append_right _ hd)
      obtain ⟨m₁, hm₁⟩ : ∃ m₁ : Phys, m₁ = ⟨Function.update m.mem t (Page.fill 1), t :: m.freelist⟩ :=
        ⟨_, rfl⟩
      have h₁d : m₁.mem pgdir = m.mem pgdir := by rw [hm₁]; exact Function.update_of_ne htd _ _
      have hperm : (t :: is.filterMap (pdeTable m.mem pgdir)) ++ y ~
          (is.filterMap (pdeTable m₁.mem pgdir) ++ y) ++ [t] := by
        simp only [pdeTable_congr h₁d, List.cons_append]
        exact (List.perm_append_singleton t _).symm
      have hconf₁ : m.Confined m₁ ((t :: is.filterMap (pdeTable m.mem pgdir)) ++ y)
          (is.filterMap (pdeTable m₁.mem pgdir) ++ y) :=
        (kfree_confined (hm₁ ▸ kfree_eq htf m) _).perm_left hperm
      obtain ⟨m', hrun, hconf, hd'⟩ := freePdes_spec hd is m₁ (hs.of_confined hconf₁)
      refine ⟨m', ?_, hconf₁.trans hconf, hd'.trans h₁d⟩
      rw [freePdes, if_pos hP, ht, kfree_eq htf, ← hm₁]
      exact hrun

/-- `freevm` of a directory returns all of its footprint, user pages, page tables
and the directory itself, to the free list. -/
theorem freevm_spec {m : Phys} (hs : m.Sound L (footprint m.mem pgdir ++ y)) :
    ∃ m', freevm L pgdir m = some m' ∧ m.Confined m' (footprint m.mem pgdir ++ y) y := by
  have hdf : L.Freeable pgdir := hs.dir_freeable
  -- first every user page
  obtain ⟨m₁, hrun₁, hconf₁, -, hpte₁⟩ := deallocuvm_spec hs le_rfl (show 0 < kernbase by decide)
  have hup : userPages m₁.mem pgdir = [] := userPages_eq_nil fun v hv => by
    rw [hpte₁ v (lt_trans hv (by decide)), if_pos ⟨by rw [pgroundup_zero]; exact Nat.zero_le v,
      lt_of_le_of_lt (pgrounddown_le v) hv⟩]
  -- then the page tables, with the directory still owned
  have hfp : footprint m₁.mem pgdir ++ y ~
      (List.range npdentries).filterMap (pdeTable m₁.mem pgdir) ++ pgdir :: y := by
    rw [footprint, hup, List.append_nil, List.cons_append, tables]
    exact List.perm_middle.symm
  obtain ⟨m₂, hrun₂, hconf₂, -⟩ := freePdes_spec (List.mem_cons_self) (List.range npdentries) m₁
    ((hs.of_confined hconf₁).perm hfp.symm)
  -- and last the directory
  have hconf₃ : m₂.Confined _ (pgdir :: y) y := (kfree_confined (kfree_eq hdf m₂) y).perm_left
    (List.perm_append_singleton pgdir y).symm
  refine ⟨_, ?_, hconf₁.trans ((hconf₂.perm_left hfp).trans hconf₃)⟩
  simp [freevm, hdf.ne_zero, hrun₁, hrun₂, kfree_eq hdf]

end Freevm

end Xv6
