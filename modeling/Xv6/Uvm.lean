import Xv6.Kvm

/-!
# User memory

The functions of `vm.c` that build the user part of an address space for `exec`
and `sbrk`: `allocuvm` maps fresh zeroed pages, and `clearpteu` takes `PTE_U`
from the guard page below the user stack.

Each is specified as a confined step: the pages it takes from the free list
become the directory's, the pages it gives back leave it, and the pages of every
other owner are left alone.  Beside that, each says how the map changes below
`KERNBASE` and that the kernel part above stays as it was.

## Main results

* `allocuvm_spec` — `allocuvm` maps fresh user pages over `[PGROUNDUP(oldsz), newsz)`,
  or on failure leaves the map as it was.
* `allocuvm_ok` — with two free pages for each page to map, `allocuvm` succeeds,
  and enters page tables for user addresses only.
* `clearpteu_spec` — one store into a page table, which changes one entry and
  keeps the footprint.
-/
namespace Xv6

open scoped List

/-! ### A fresh page for the caller -/

section Fresh

variable {L : Layout} {m m₀ : Phys} {pgdir g : ℕ} {y : List ℕ}

/-- `kalloc` and a write of the whole page: the caller owns the page, and the
directory, which never owned it, reads the same. -/
theorem kalloc_setPage_spec (hs : m.Sound L (footprint m.mem pgdir ++ y)) (hk : kalloc m = (some g, m₀))
    (pg : Page) :
    L.Freeable g ∧ (∀ q ∈ pgdir :: tables m.mem pgdir, (m₀.setPage g pg).mem q = m.mem q) ∧
      m.Confined (m₀.setPage g pg) (footprint m.mem pgdir ++ y) (footprint m.mem pgdir ++ g :: y) := by
  obtain ⟨hfl, hmem⟩ := kalloc_some hk
  have hg : g ∈ m.freelist := by rw [hfl]; exact List.mem_cons_self
  have hgo := hs.free_not_dir hg
  refine ⟨hs.freeable_free hg, fun q hq => ?_, ?_⟩
  · rw [Phys.setPage_mem_of_ne _ _ (by rintro rfl; exact hgo hq), hmem]
  · have hw : m₀.Confined (m₀.setPage g pg) (footprint m.mem pgdir ++ y ++ [g])
        (footprint m.mem pgdir ++ y ++ [g]) :=
      Ownership.Confined.write _ _ _ (.inr (List.mem_append_right _ (.head _))) pg
    exact ((kalloc_confined hk _).trans hw).perm_right
      (List.perm_middle.trans (List.perm_append_singleton g _).symm)

/-- A page held beside a directory is none of the directory's pages. -/
theorem Phys.Sound.not_mem_dir (hs : m.Sound L (footprint m.mem pgdir ++ g :: y)) :
    g ∉ pgdir :: tables m.mem pgdir := fun hg => by
  have h := hs.nodup_own
  rw [List.nodup_middle, List.nodup_cons] at h
  refine h.1 (List.mem_append_left _ ?_)
  rcases List.mem_cons.mp hg with rfl | hg
  · exact .head _
  · exact .tail _ (List.mem_append_left _ hg)

end Fresh

/-! ### `allocuvm` -/

section Alloc

variable {L : Layout} {pgdir oldsz newsz : ℕ} {y : List ℕ}

/-- One turn of `allocuvm`'s loop maps the page `a` to a fresh user page, the rest
of the loop the pages from `a + PGSIZE` on: together, the pages from `a` on. -/
theorem alloc_turn {Q : Option ℕ → Prop} {f g f' : ℕ → Option ℕ} {a v : ℕ} {e : Option ℕ}
    (ha : a % pgsize = 0) (hlt : a < newsz) (he : Q e)
    (hrest : if a + pgsize ≤ v ∧ pgrounddown v < newsz then Q (f' v) else f' v = g v)
    (hturn : g v = if pgrounddown v = a then e else f v) :
    if a ≤ v ∧ pgrounddown v < newsz then Q (f' v) else f' v = f v := by
  have hp₁ := pgrounddown_le v
  have hp₂ := lt_pgrounddown_add v
  have hp₃ := pgrounddown_aligned v
  have hpg : pgsize = 4096 := rfl
  rw [hpg] at hp₂ hp₃ ha hrest
  by_cases h₁ : a + 4096 ≤ v ∧ pgrounddown v < newsz
  · rw [if_pos h₁] at hrest
    rwa [if_pos ⟨by omega, h₁.2⟩]
  · rw [if_neg h₁, hturn] at hrest
    by_cases h₂ : pgrounddown v = a
    · rw [if_pos h₂] at hrest
      rw [if_pos ⟨by omega, by omega⟩, hrest]
      exact he
    · rw [if_neg h₂] at hrest
      rw [if_neg (by omega)]
      exact hrest

/-- A turn of the loop that maps the page `a`, then a failure of the rest of it,
whose `deallocuvm` unmaps the whole range again. -/
theorem alloc_turn_fail {f g f' : ℕ → Option ℕ} {a v : ℕ} {e : Option ℕ}
    (hup : pgroundup oldsz ≤ a) (hlt : a < newsz)
    (hrest : f' v = if pgroundup oldsz ≤ v ∧ pgrounddown v < newsz then none else g v)
    (hturn : g v = if pgrounddown v = a then e else f v) :
    f' v = if pgroundup oldsz ≤ v ∧ pgrounddown v < newsz then none else f v := by
  rw [hrest]
  by_cases h : pgroundup oldsz ≤ v ∧ pgrounddown v < newsz
  · rw [if_pos h, if_pos h]
  · rw [if_neg h, if_neg h, hturn, if_neg fun he => h ⟨by have := pgrounddown_le v; omega, by omega⟩]

/-- The loop of `allocuvm` from the aligned `a`, over unmapped pages below
`newsz < KERNBASE`.  It never panics.  Either it maps every page of `[a, newsz)` to
a fresh page, writable and user, and changes nothing else; or memory runs out,
and `deallocuvm` unmaps `[PGROUNDUP(oldsz), newsz)` again.  Either way the step is
confined to the directory, which keeps the page tables it took. -/
theorem allocuvmLoop_spec (hold : oldsz ≤ newsz) (hnew : newsz < kernbase) :
    ∀ (fuel a : ℕ) (m : Phys), a % pgsize = 0 → pgroundup oldsz ≤ a → newsz ≤ a + fuel * pgsize →
      m.Sound L (footprint m.mem pgdir ++ y) →
      (∀ v < 2 ^ 32, a ≤ v → pgrounddown v < newsz → pteOf m.mem pgdir v = none) →
      ∃ r m', allocuvmLoop L pgdir oldsz newsz fuel a m = some (r, m') ∧
        m.Confined m' (footprint m.mem pgdir ++ y) (footprint m'.mem pgdir ++ y) ∧
        ((r = newsz ∧ ∀ v < 2 ^ 32, if a ≤ v ∧ pgrounddown v < newsz
            then ∃ h, pteOf m'.mem pgdir v = some (v2p h ||| (pteW ||| pteU) ||| pteP)
            else pteOf m'.mem pgdir v = pteOf m.mem pgdir v) ∨
          (r = 0 ∧ ∀ v < 2 ^ 32, pteOf m'.mem pgdir v =
            if pgroundup oldsz ≤ v ∧ pgrounddown v < newsz then none else pteOf m.mem pgdir v)) := by
  intro fuel
  -- induction on the turns left; each maps one page
  induction fuel with
  | zero =>
    intro a m ha _ hend _ _
    refine ⟨newsz, m, rfl, Ownership.Confined.refl _ _ _, .inl ⟨rfl, fun v _ => ?_⟩⟩
    rw [if_neg (range_empty_of_le ha (by simpa using hend))]
  | succ fuel ih =>
    intro a m ha hup hend hs hfree
    have hpg : pgsize = 4096 := rfl
    by_cases hlt : a < newsz
    swap
    · refine ⟨newsz, m, by simp [allocuvmLoop, hlt], Ownership.Confined.refl _ _ _, .inl ⟨rfl, fun v _ => ?_⟩⟩
      rw [if_neg (range_empty_of_le ha (not_lt.mp hlt))]
    have hak : a < kernbase := lt_trans hlt hnew
    have ha32 : a < 2 ^ 32 := lt_trans hak (by decide)
    have holdlt : oldsz < newsz :=
      lt_of_le_of_lt (le_trans (le_pgroundup (by unfold kernbase at hnew; omega)) hup) hlt
    rcases hk : kalloc m with ⟨_ | g, m₀⟩
    · -- out of memory: undo the pages mapped so far
      obtain ⟨hfl, rfl⟩ := kalloc_none hk
      obtain ⟨m', hd, hconf, -, hpte⟩ := deallocuvm_spec hs hnew.le holdlt
      refine ⟨0, m', ?_, hconf, .inr ⟨rfl, hpte⟩⟩
      simp [allocuvmLoop, hlt, hk, hd]
    obtain ⟨hgf, hdir, hconf₁⟩ := kalloc_setPage_spec hs hk (Page.fill 0)
    change m.Confined (m₀.memset g 0) _ _ at hconf₁
    have hpte₁ : ∀ v, pteOf (m₀.memset g 0).mem pgdir v = pteOf m.mem pgdir v := pteOf_congr hdir
    have hfp₁ : footprint (m₀.memset g 0).mem pgdir = footprint m.mem pgdir := footprint_congr hdir
    have hs₁ : (m₀.memset g 0).Sound L (footprint (m₀.memset g 0).mem pgdir ++ g :: y) := by
      rw [hfp₁]
      exact hs.of_confined hconf₁
    have hold : pteOf (m₀.memset g 0).mem pgdir a = none := by
      rw [hpte₁]
      exact hfree a ha32 le_rfl (by rw [pgrounddown_of_aligned ha]; exact hlt)
    obtain ⟨ok, m₂, hmap, hok, hfail⟩ := mappages_user hs₁ hgf ha hak hold (show pteW ||| pteU < pgsize by decide)
    have hstep : allocuvmLoop L pgdir oldsz newsz (fuel + 1) a m =
        match ok with
        | true => allocuvmLoop L pgdir oldsz newsz fuel (a + pgsize) m₂
        | false => (deallocuvm L pgdir newsz oldsz m₂).bind fun r => (kfree L g r.2).map fun m => (0, m) := by
      rw [allocuvmLoop, if_pos hlt, hk]
      simp only [Phys.memset] at hmap
      simp only [Phys.memset, hmap, wrap32_of_lt (show a + pgsize < 2 ^ 32 by unfold kernbase at hak; omega)]
      cases ok <;> rfl
    cases ok with
    | false =>
      -- no page table for `a`: undo the range and free the page
      obtain ⟨rfl, -⟩ := hfail rfl
      obtain ⟨m₃, hd, hconf₃, -, hpte₃⟩ := deallocuvm_spec hs₁ hnew.le holdlt
      have hs₃ := hs₁.of_confined hconf₃
      have hgo : g ∉ pgdir :: tables m₃.mem pgdir := hs₃.not_mem_dir
      -- the freed page is none of the directory's, which reads as before
      have hdir₄ : ∀ q ∈ pgdir :: tables m₃.mem pgdir, Function.update m₃.mem g (Page.fill 1) q = m₃.mem q :=
        fun q hq => Function.update_of_ne (by rintro rfl; exact hgo hq) _ _
      refine ⟨0, ⟨Function.update m₃.mem g (Page.fill 1), g :: m₃.freelist⟩,
        by rw [hstep]; simp [hd, kfree_eq hgf], ?_, .inr ⟨rfl, fun v hv => ?_⟩⟩
      · have hgive : m₃.Confined ⟨Function.update m₃.mem g (Page.fill 1), g :: m₃.freelist⟩
            (footprint m₃.mem pgdir ++ g :: y) (footprint m₃.mem pgdir ++ y) :=
          (kfree_confined (kfree_eq hgf m₃) (footprint m₃.mem pgdir ++ y)).perm_left
            (List.perm_middle.trans (List.perm_append_singleton g _).symm)
        rw [hfp₁] at hconf₃
        rw [footprint_congr hdir₄]
        exact (hconf₁.trans hconf₃).trans hgive
      · rw [pteOf_congr hdir₄, hpte₃ v hv, hpte₁]
    | true =>
      obtain ⟨hconf₂, hpte₂⟩ := hok rfl
      have hs₂ := hs₁.of_confined hconf₂
      obtain ⟨r, m', hrun, hconf', hres⟩ := ih (a + pgsize) m₂ (by rw [hpg] at ha ⊢; omega)
        (by rw [hpg]; omega) (by rw [hpg] at hend ⊢; omega) hs₂ fun v hv h₁ h₂ => by
          rw [hpte₂ v hv, if_neg fun he => by have := lt_pgrounddown_add v; rw [he] at this; omega, hpte₁]
          exact hfree v hv (by omega) h₂
      rw [hfp₁] at hconf₂
      refine ⟨r, m', by rw [hstep]; exact hrun, (hconf₁.trans hconf₂).trans hconf', ?_⟩
      rcases hres with ⟨rfl, hres⟩ | ⟨rfl, hres⟩
      · refine .inl ⟨rfl, fun v hv => alloc_turn (Q := fun x => ∃ h, x = some (v2p h ||| (pteW ||| pteU) ||| pteP))
          ha hlt ⟨g, rfl⟩ (hres v hv) ?_⟩
        rw [hpte₂ v hv, hpte₁]
      · refine .inr ⟨rfl, fun v hv => alloc_turn_fail (e := some (v2p g ||| (pteW ||| pteU) ||| pteP))
          hup hlt (hres v hv) ?_⟩
        rw [hpte₂ v hv, hpte₁]

/-- Above `PGROUNDUP(oldsz)` a user part mapped only below `oldsz` has no entry. -/
theorem pteOf_none_above {m : Phys} (hold : oldsz < kernbase)
    (hmap : ∀ v < kernbase, (pteOf m.mem pgdir v).isSome → pgrounddown v < oldsz)
    {v : ℕ} (hup : pgroundup oldsz ≤ v) (hlt : pgrounddown v < kernbase) : pteOf m.mem pgdir v = none := by
  have hal : pgroundup oldsz % 4096 = 0 := Nat.mul_mod_left _ _
  have hdown : pgrounddown v = v / 4096 * 4096 := rfl
  have hle : oldsz ≤ pgroundup oldsz := le_pgroundup (by unfold kernbase pgsize at *; omega)
  rcases hv : pteOf m.mem pgdir v with _ | e
  · rfl
  · have := hmap v (by unfold kernbase at *; omega) (by rw [hv]; rfl)
    unfold kernbase at *
    omega

/-- `allocuvm` on a user part mapped only below `oldsz < KERNBASE`.  It never
panics.  A result `0` leaves the map as it was; any other result is `oldsz` with
nothing changed, or `newsz < KERNBASE` with fresh writable user pages over
`[PGROUNDUP(oldsz), newsz)`. -/
theorem allocuvm_spec {m : Phys} (hs : m.Sound L (footprint m.mem pgdir ++ y)) (hold : oldsz < kernbase)
    (hmap : ∀ v < kernbase, (pteOf m.mem pgdir v).isSome → pgrounddown v < oldsz) :
    ∃ r m', allocuvm L pgdir oldsz newsz m = some (r, m') ∧
      m.Confined m' (footprint m.mem pgdir ++ y) (footprint m'.mem pgdir ++ y) ∧
      (r = 0 → ∀ v < 2 ^ 32, pteOf m'.mem pgdir v = pteOf m.mem pgdir v) ∧
      (r ≠ 0 → (r = oldsz ∧ m' = m) ∨ (r = newsz ∧ oldsz ≤ newsz ∧ newsz < kernbase ∧
        ∀ v < 2 ^ 32, if pgroundup oldsz ≤ v ∧ pgrounddown v < newsz
          then ∃ h, pteOf m'.mem pgdir v = some (v2p h ||| (pteW ||| pteU) ||| pteP)
          else pteOf m'.mem pgdir v = pteOf m.mem pgdir v)) := by
  by_cases hk : kernbase ≤ newsz
  · exact ⟨0, m, by simp [allocuvm, hk], Ownership.Confined.refl _ _ _, fun _ _ _ => rfl,
      fun h => absurd rfl h⟩
  by_cases hlt : newsz < oldsz
  · exact ⟨oldsz, m, by simp [allocuvm, hk, hlt], Ownership.Confined.refl _ _ _, fun _ _ _ => rfl,
      fun _ => .inl ⟨rfl, rfl⟩⟩
  rw [not_le] at hk
  rw [not_lt] at hlt
  have hfree : ∀ v < 2 ^ 32, pgroundup oldsz ≤ v → pgrounddown v < newsz → pteOf m.mem pgdir v = none :=
    fun v _ hup hdown => pteOf_none_above hold hmap hup (lt_trans hdown hk)
  obtain ⟨r, m', hrun, hconf, hres⟩ := allocuvmLoop_spec (L := L) (y := y) hlt hk (2 ^ 20) (pgroundup oldsz) m
    (Nat.mul_mod_left _ _) le_rfl (by unfold kernbase pgsize at *; omega) hs
    fun v hv hup hdown => hfree v hv hup hdown
  refine ⟨r, m', by rw [allocuvm, if_neg (not_le.mpr hk), if_neg (not_lt.mpr hlt), hrun], hconf, ?_⟩
  rcases hres with ⟨rfl, hres⟩ | ⟨rfl, hres⟩
  · refine ⟨fun h0 v hv => ?_, fun _ => .inr ⟨rfl, hlt, hk, hres⟩⟩
    -- `newsz = 0`: nothing was mapped
    have h := hres v hv
    rwa [if_neg (by omega)] at h
  · refine ⟨fun _ v hv => ?_, fun h => absurd rfl h⟩
    rw [hres v hv]
    split_ifs with h
    · exact (hfree v hv h.1 h.2).symm
    · rfl

/-- With two free pages for each page left to map, a page and perhaps its page
table, the loop of `allocuvm` from the aligned `a` maps every page below `newsz`:
it does not run out of memory, and it enters page tables for user addresses only. -/
theorem allocuvmLoop_ok (hnew : newsz < kernbase) :
    ∀ (fuel a : ℕ) (m : Phys), a % pgsize = 0 → newsz ≤ a + fuel * pgsize →
      m.Sound L (footprint m.mem pgdir ++ y) →
      (∀ v < 2 ^ 32, a ≤ v → pgrounddown v < newsz → pteOf m.mem pgdir v = none) →
      2 * ((newsz + (pgsize - 1) - a) / pgsize) ≤ m.freelist.length →
      ∃ m', allocuvmLoop L pgdir oldsz newsz fuel a m = some (newsz, m') ∧
        ∀ k, (pdeTable m'.mem pgdir k).isSome → (pdeTable m.mem pgdir k).isSome ∨ k < pdx kernbase := by
  intro fuel
  -- induction on the turns left, as in `allocuvmLoop_spec`, counting free pages
  induction fuel with
  | zero =>
    intro a m _ _ _ _ _
    exact ⟨m, rfl, fun k hk => .inl hk⟩
  | succ fuel ih =>
    intro a m ha hend hs hfree hlen
    have hpg : pgsize = 4096 := rfl
    by_cases hlt : a < newsz
    swap
    · exact ⟨m, by simp [allocuvmLoop, hlt], fun k hk => .inl hk⟩
    have hak : a < kernbase := lt_trans hlt hnew
    have htwo : 2 ≤ m.freelist.length := by
      rw [hpg] at hlen
      omega
    rcases hk : kalloc m with ⟨_ | g, m₀⟩
    · obtain ⟨hfl, -⟩ := kalloc_none hk
      simp [hfl] at htwo
    obtain ⟨hfl, -⟩ := kalloc_some hk
    obtain ⟨hgf, hdir, hconf₁⟩ := kalloc_setPage_spec hs hk (Page.fill 0)
    change m.Confined (m₀.memset g 0) _ _ at hconf₁
    have hpte₁ : ∀ v, pteOf (m₀.memset g 0).mem pgdir v = pteOf m.mem pgdir v := pteOf_congr hdir
    have hs₁ : (m₀.memset g 0).Sound L (footprint (m₀.memset g 0).mem pgdir ++ g :: y) := by
      rw [show footprint (m₀.memset g 0).mem pgdir = footprint m.mem pgdir from footprint_congr hdir]
      exact hs.of_confined hconf₁
    have hold : pteOf (m₀.memset g 0).mem pgdir a = none := by
      rw [hpte₁]
      exact hfree a (lt_trans hak (by decide)) le_rfl (by rw [pgrounddown_of_aligned ha]; exact hlt)
    have hperm : pteW ||| pteU < pgsize := by decide
    obtain ⟨ok, m₂, hmap, hok, hfail⟩ := mappages_user hs₁ hgf ha hak hold hperm
    cases ok with
    | false =>
      -- a missing page table would have been the second free page
      obtain ⟨-, hempty⟩ := hfail rfl
      rw [Phys.memset_freelist] at hempty
      rw [hfl, hempty] at htwo
      simp at htwo
    | true =>
      have hs₂ := hs₁.of_confined (hok rfl).1
      have hw := (presentPte_entry hgf.v2p_aligned (lt_trans hgf.v2p_lt (by decide)) hperm).2
      obtain ⟨hlen₂, htab₂⟩ := mappages_page_ok hs₁ ha (by unfold kernbase at hak; omega) hw hmap
      rw [Phys.memset_freelist] at hlen₂
      have hfree₂ : ∀ v < 2 ^ 32, a + pgsize ≤ v → pgrounddown v < newsz → pteOf m₂.mem pgdir v = none :=
        fun v hv h₁ h₂ => by
          rw [(hok rfl).2 v hv, if_neg fun he => by have := lt_pgrounddown_add v; rw [he] at this; omega, hpte₁]
          exact hfree v hv (by omega) h₂
      obtain ⟨m', hrun, htab'⟩ := ih (a + pgsize) m₂ (by rw [hpg] at ha ⊢; omega)
        (by rw [hpg] at hend ⊢; omega) hs₂ hfree₂ (by rw [hfl, List.length_cons] at hlen; rw [hpg] at hlen ⊢; omega)
      have hstep : allocuvmLoop L pgdir oldsz newsz (fuel + 1) a m =
          allocuvmLoop L pgdir oldsz newsz fuel (a + pgsize) m₂ := by
        rw [allocuvmLoop, if_pos hlt, hk]
        simp only [Phys.memset] at hmap
        simp only [Phys.memset, hmap, wrap32_of_lt (show a + pgsize < 2 ^ 32 by unfold kernbase at hak; omega)]
      refine ⟨m', hstep.trans hrun, fun k hk => ?_⟩
      rcases htab' k hk with h | h
      · rcases htab₂ k h with h | rfl
        · have hpd₁ : ∀ k, pdeTable (m₀.memset g 0).mem pgdir k = pdeTable m.mem pgdir k :=
            pdeTable_congr (hdir pgdir (.head _))
          left
          rwa [hpd₁] at h
        · right
          unfold pdx kernbase at *
          omega
      · exact .inr h

/-- `allocuvm` on a user part mapped only below `oldsz`, with two free pages for
each page of `[PGROUNDUP(oldsz), newsz)`, returns `newsz`, and enters page tables
for user addresses only. -/
theorem allocuvm_ok {m : Phys} (hs : m.Sound L (footprint m.mem pgdir ++ y)) (hold : oldsz < kernbase)
    (hmap : ∀ v < kernbase, (pteOf m.mem pgdir v).isSome → pgrounddown v < oldsz) (hle : oldsz ≤ newsz)
    (hnew : newsz < kernbase) (hlen : 2 * ((newsz + (pgsize - 1) - pgroundup oldsz) / pgsize) ≤ m.freelist.length) :
    ∃ m', allocuvm L pgdir oldsz newsz m = some (newsz, m') ∧
      ∀ k, (pdeTable m'.mem pgdir k).isSome → (pdeTable m.mem pgdir k).isSome ∨ k < pdx kernbase := by
  rw [allocuvm, if_neg (not_le.mpr hnew), if_neg (not_lt.mpr hle)]
  exact allocuvmLoop_ok hnew (2 ^ 20) (pgroundup oldsz) m (Nat.mul_mod_left _ _)
    (by unfold kernbase pgsize at *; omega) hs
    (fun v _ hup hdown => pteOf_none_above hold hmap hup (lt_trans hdown hnew)) hlen

end Alloc

/-! ### `clearpteu` -/

section Clearpteu

variable {L : Layout} {m : Phys} {pgdir uva t : ℕ} {y : List ℕ}

/-- Clearing `PTE_U` keeps an entry present or absent, and the page it names. -/
theorem presentPte_clearU {w : ℕ} (hw : w < 2 ^ 32) :
    (presentPte (w &&& notPteU)).map (fun pte => p2v (pteAddr pte)) =
      (presentPte w).map fun pte => p2v (pteAddr pte) := by
  have hP : hasFlag (w &&& notPteU) pteP = hasFlag w pteP := by
    unfold hasFlag
    rw [Nat.land_assoc, show notPteU &&& pteP = pteP by decide]
  unfold presentPte
  rw [hP]
  split_ifs <;> simp [pteAddr_clearU hw]

/-- `clearpteu` of an address whose page table is `t`: one store into `t`, which
changes the entry of `uva`'s page and no other, and leaves the directory page,
the footprint and the owners as they were. -/
theorem clearpteu_spec (hs : m.Sound L (footprint m.mem pgdir ++ y)) (h : pdeTable m.mem pgdir (pdx uva) = some t) :
    ∃ m', clearpteu pgdir uva m = some m' ∧ m'.mem pgdir = m.mem pgdir ∧
      (∀ k < npdentries, ∀ j, ¬(k = pdx uva ∧ j = ptx uva) → pteAt m'.mem pgdir k j = pteAt m.mem pgdir k j) ∧
      footprint m'.mem pgdir = footprint m.mem pgdir ∧
      m.Confined m' (footprint m.mem pgdir ++ y) (footprint m.mem pgdir ++ y) := by
  have hnd := hs.nodup_dir
  have ht : t ∈ tables m.mem pgdir := mem_tables.mpr ⟨_, pdx_lt uva, h⟩
  have htd : t ≠ pgdir := ne_of_mem_tables hnd ht
  have hw : m.word t (ptx uva) &&& notPteU < 2 ^ 32 := clearU_lt (Page.word_lt _ _)
  have hslot : ∀ k < npdentries, ∀ j, pteAt (m.setWord t (ptx uva) (m.word t (ptx uva) &&& notPteU)).mem pgdir k j =
      if k = pdx uva ∧ j = ptx uva then presentPte (m.word t (ptx uva) &&& notPteU) else pteAt m.mem pgdir k j :=
    fun _ hk j => pteAt_setWord_table hnd h (pdx_lt uva) (ptx uva) hw hk j
  have hd : (m.setWord t (ptx uva) (m.word t (ptx uva) &&& notPteU)).mem pgdir = m.mem pgdir :=
    Function.update_of_ne htd.symm _ _
  have hother : ∀ k < npdentries, ∀ j, ¬(k = pdx uva ∧ j = ptx uva) →
      pteAt (m.setWord t (ptx uva) (m.word t (ptx uva) &&& notPteU)).mem pgdir k j = pteAt m.mem pgdir k j :=
    fun k hk j hkj => (hslot k hk j).trans (if_neg hkj)
  -- the entry keeps its page, so the user pages stay
  have hup : userPages (m.setWord t (ptx uva) (m.word t (ptx uva) &&& notPteU)).mem pgdir =
      userPages m.mem pgdir := by
    refine List.filterMap_congr fun s hs' => ?_
    have hi : s.1 < npdentries := lt_of_lt_of_le (mem_userSlots.mp hs').1 (by decide)
    by_cases hs₀ : s.1 = pdx uva ∧ s.2 = ptx uva
    · rw [hslot s.1 hi s.2, if_pos hs₀, hs₀.1, hs₀.2]
      simp only [pteAt, h, Option.bind_some]
      exact presentPte_clearU (Page.word_lt _ _)
    · rw [hother s.1 hi s.2 hs₀]
  refine ⟨_, by simp only [clearpteu, walkpgdir_of_pdeTable h], hd, hother,
    by rw [footprint, footprint, tables_congr hd, hup],
    setWord_confined m (.inr (List.mem_append_left _ (.tail _ (List.mem_append_left _ ht)))) _ _⟩

end Clearpteu

end Xv6
