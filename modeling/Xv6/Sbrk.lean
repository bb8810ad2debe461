import Xv6.Uvm

/-!
# Growing and shrinking user memory

`sys_sbrk(n)` calls `growproc(n)`, which moves the size of the current process
from `sz` to `sz + n` with `allocuvm` when `n > 0` and with `deallocuvm` when
`n < 0`.  The sum is computed in `uint`, and a result `0` of either helper is taken
as failure: `allocuvm` returns `0` on failure, but `deallocuvm` returns the new
size, so that shrinking to exactly `0` frees every page and still reports `-1`.
Shrinking by more than `sz` wraps the new size around to above `sz`, where
`deallocuvm` changes nothing and `growproc` reports success.

## Main definitions

* `growproc` — `proc.c`'s `growproc` on the current process's directory and size.
* `userWritable` — the bytes a process may store to: in a page its directory maps
  with `PTE_U` and `PTE_W`.  A store to any other byte page-faults, and `trap`
  kills the process.

## Main results

* `growproc_to_zero` — `growproc(-sz)` unmaps and frees every page below `sz`, and
  returns `-1` with the size left at `sz`.
* `growproc_wraps` — `growproc(n)` with `n < -sz` returns `0` and changes nothing.
* `growproc_misreports` — both at a process of one page.
* `growproc_grows_mapped` — `growproc(n)` with `n > 0` lets the process write every
  byte from the page of its old size to its new size, and changes nothing below.
-/

namespace Xv6

/-- `growproc(n)` for a process with directory `pgdir` and size `sz`: the C return
value, the size it leaves in `proc->sz`, and memory.  `switchuvm` only reloads the
processor's registers and is not modelled. -/
def growproc (L : Layout) (pgdir sz : ℕ) (n : ℤ) (m : Phys) : Option (ℤ × ℕ × Phys) :=
  if 0 < n then
    (allocuvm L pgdir sz (wrap32 (sz + toUint n)) m).map fun r =>
      if r.1 = 0 then (-1, sz, r.2) else (0, r.1, r.2)
  else if n < 0 then
    (deallocuvm L pgdir sz (wrap32 (sz + toUint n)) m).map fun r =>
      if r.1 = 0 then (-1, sz, r.2) else (0, r.1, r.2)
  else some (0, sz, m)

/-- Byte `v` lies in a present page of `pgdir` that the process may write: below
`KERNBASE`, with `PTE_U` and `PTE_W` set.  A user load or store of any other byte
faults. -/
def userWritable (mem : ℕ → Page) (pgdir v : ℕ) : Bool :=
  decide (v < kernbase) &&
    match pteOf mem pgdir v with
    | some pte => hasFlag pte pteU && hasFlag pte pteW
    | none => false

/-- The entries `allocuvm` installs carry `PTE_U` and `PTE_W`, whatever the page. -/
theorem hasFlag_userPte {pa f : ℕ} (hf : f = pteU ∨ f = pteW) :
    hasFlag (pa ||| (pteW ||| pteU) ||| pteP) f = true := by
  have hperm : (pteW ||| pteU) &&& f = f := by rcases hf with rfl | rfl <;> decide
  have hf0 : f ≠ 0 := by rcases hf with rfl | rfl <;> decide
  rw [hasFlag, Nat.and_or_distrib_right, Nat.and_or_distrib_right, hperm]
  simp [Nat.or_eq_zero_iff, hf0]

theorem userWritable_of_pte {mem : ℕ → Page} {pgdir v pa : ℕ} (hv : v < kernbase)
    (h : pteOf mem pgdir v = some (pa ||| (pteW ||| pteU) ||| pteP)) : userWritable mem pgdir v = true := by
  simp [userWritable, hv, h, hasFlag_userPte (.inl rfl), hasFlag_userPte (.inr rfl)]

/-- A byte the process may write is mapped below `KERNBASE`. -/
theorem pteOf_of_userWritable {mem : ℕ → Page} {pgdir v : ℕ} (h : userWritable mem pgdir v = true) :
    v < kernbase ∧ (pteOf mem pgdir v).isSome := by
  unfold userWritable at h
  split at h <;> simp_all

section Growproc

variable {L : Layout} {pgdir sz : ℕ} {m : Phys}

/-- `sz + (-sz)` in `uint` arithmetic is `0`. -/
theorem wrap32_add_neg (hsz : sz < 2 ^ 32) : wrap32 (sz + toUint (-(sz : ℤ))) = 0 := by
  rcases Nat.eq_zero_or_pos sz with rfl | hpos
  · rfl
  have ht : toUint (-(sz : ℤ)) = 2 ^ 32 - sz := by
    unfold toUint
    rw [show -(sz : ℤ) % 2 ^ 32 = ((2 ^ 32 - sz : ℕ) : ℤ) by omega, Int.toNat_natCast]
  rw [ht, wrap32, Nat.add_sub_cancel' hsz.le, Nat.mod_self]

/-- `growproc(-sz)` unmaps and frees every page below `sz` and returns `-1`, with
the size left at `sz`. -/
theorem growproc_to_zero {y : List ℕ} (hs : m.Sound L (footprint m.mem pgdir ++ y)) (hpos : 0 < sz)
    (hk : sz ≤ kernbase) :
    ∃ m', growproc L pgdir sz (-(sz : ℤ)) m = some (-1, sz, m') ∧
      m.Confined m' (footprint m.mem pgdir ++ y) (footprint m'.mem pgdir ++ y) ∧
      ∀ v < 2 ^ 32, pteOf m'.mem pgdir v = if pgrounddown v < sz then none else pteOf m.mem pgdir v := by
  obtain ⟨m', hd, hconf, -, hpte⟩ := deallocuvm_spec hs hk hpos
  have hz : wrap32 (sz + toUint (-(sz : ℤ))) = 0 := wrap32_add_neg (lt_of_le_of_lt hk (by decide))
  refine ⟨m', ?_, hconf, fun v hv => ?_⟩
  · rw [growproc, if_neg (by omega), if_pos (by omega), hz, hd]
    rfl
  · rw [hpte v hv, pgroundup_zero]
    simp

/-- `growproc(n)` with `n < -sz`: `sz + n` wraps around to above `sz`, `deallocuvm`
changes nothing, and `growproc` returns `0` with the size left at `sz`. -/
theorem growproc_wraps {n : ℤ} (hpos : 0 < sz) (hsz : sz < 2 ^ 31) (hn : -2 ^ 31 ≤ n)
    (hlt : n < -(sz : ℤ)) : growproc L pgdir sz n m = some (0, sz, m) := by
  have hup : sz ≤ wrap32 (sz + toUint n) := by
    unfold wrap32 toUint
    omega
  rw [growproc, if_neg (by omega), if_pos (by omega), deallocuvm_of_le hup]
  simp [hpos.ne']

/-- On a process mapped only below `sz`, a byte the process may write lies below the
page of `sz`. -/
theorem lt_pgroundup_of_userWritable (hold : sz < kernbase)
    (hmap : ∀ v < kernbase, (pteOf m.mem pgdir v).isSome → pgrounddown v < sz) {v : ℕ}
    (h : userWritable m.mem pgdir v = true) : v < pgroundup sz := by
  obtain ⟨hv, hsome⟩ := pteOf_of_userWritable h
  have hdown : v / pgsize * pgsize < sz := hmap v hv hsome
  have hsz : sz + pgsize - 1 < 2 ^ 32 := by
    simp only [kernbase, pgsize] at hold ⊢
    omega
  rw [pgroundup_of_lt hsz]
  simp only [pgsize] at hdown ⊢
  omega

/-- `growproc(n)` with `n > 0` that succeeds, on a process mapped only below `sz`:
the process may write every byte from the page of `sz` to its new size, and every
byte below that page is as it was. -/
theorem growproc_grows_mapped {y : List ℕ} (hs : m.Sound L (footprint m.mem pgdir ++ y)) (hold : sz < kernbase)
    (hmap : ∀ v < kernbase, (pteOf m.mem pgdir v).isSome → pgrounddown v < sz) {n : ℤ} (hn : 0 < n)
    {sz' : ℕ} {m' : Phys} (h : growproc L pgdir sz n m = some (0, sz', m')) (v : ℕ) :
    (pgroundup sz ≤ v → v < sz' → userWritable m'.mem pgdir v = true) ∧
      (v < pgroundup sz → userWritable m'.mem pgdir v = userWritable m.mem pgdir v) := by
  obtain ⟨r, m₁, halloc, -, -, hres⟩ := @allocuvm_spec L pgdir sz (wrap32 (sz + toUint n)) y m hs hold hmap
  rw [growproc, if_pos hn, halloc, Option.map_some] at h
  -- `growproc` reports success only for a result other than `0`
  have hr : r ≠ 0 := fun h0 => by simp [h0] at h
  rw [if_neg hr, Option.some.injEq, Prod.mk.injEq, Prod.mk.injEq] at h
  obtain ⟨-, rfl, rfl⟩ := h
  have hle : sz ≤ pgroundup sz := le_pgroundup (by simp only [kernbase, pgsize] at hold ⊢; omega)
  rcases hres hr with ⟨rfl, rfl⟩ | ⟨rfl, -, hk, hpte⟩
  · -- the sum wrapped below `sz`: nothing was mapped
    exact ⟨fun hup hlt => absurd (hlt.trans_le hle) (not_lt.mpr hup), fun _ => rfl⟩
  · by_cases hv : v < 2 ^ 32
    · have hpv := hpte v hv
      refine ⟨fun hup hlt => ?_, fun hlt => ?_⟩
      · rw [if_pos ⟨hup, lt_of_le_of_lt (pgrounddown_le v) hlt⟩] at hpv
        obtain ⟨_, hp⟩ := hpv
        exact userWritable_of_pte (hlt.trans hk) hp
      · rw [if_neg fun hc => absurd hc.1 (not_le.mpr hlt)] at hpv
        simp only [userWritable, hpv]
    · -- no byte from `2 ^ 32` on is user memory
      have hk' : ¬ v < kernbase := by unfold kernbase; omega
      exact ⟨fun _ hlt => absurd (hlt.trans hk) hk', fun _ => by simp [userWritable, hk']⟩

/-- After `growproc(n)` with `n > 0` succeeds on a process mapped only below `sz`,
whose last page is writable to its end, the process may write every byte it could
write before and every byte from `sz` to its new size. -/
theorem userWritable_of_growproc {y : List ℕ} (hs : m.Sound L (footprint m.mem pgdir ++ y))
    (hold : sz < kernbase) (hmap : ∀ v < kernbase, (pteOf m.mem pgdir v).isSome → pgrounddown v < sz)
    (htail : ∀ v, sz ≤ v → v < pgroundup sz → userWritable m.mem pgdir v = true) {n : ℤ} (hn : 0 < n)
    {sz' : ℕ} {m' : Phys} (h : growproc L pgdir sz n m = some (0, sz', m')) {v : ℕ}
    (hv : userWritable m.mem pgdir v = true ∨ sz ≤ v ∧ v < sz') : userWritable m'.mem pgdir v = true := by
  have hg := growproc_grows_mapped hs hold hmap hn h v
  by_cases hup : v < pgroundup sz
  · rw [hg.2 hup]
    rcases hv with hv | ⟨hlo, -⟩
    · exact hv
    · exact htail v hlo hup
  · rcases hv with hv | ⟨-, hhi⟩
    · exact absurd (lt_pgroundup_of_userWritable hold hmap hv) hup
    · exact hg.1 (not_lt.mp hup) hhi

end Growproc

/-- **`sbrk` misreports its two boundary cases.**  At a process of one page
(`sz = PGSIZE`): `sbrk(-PGSIZE)` unmaps the page and returns `-1` with `sz` left
at `PGSIZE`; `sbrk(-2 * PGSIZE)` returns `0` without shrinking. -/
theorem growproc_misreports :
    pteOf onePage.mem 0x80400000 0 = some (0x402000 ||| pteP ||| pteW ||| pteU) ∧
      (growproc sampleLayout 0x80400000 pgsize (-pgsize) onePage).map
        (fun r => (r.1, r.2.1, pteOf r.2.2.mem 0x80400000 0)) = some (-1, pgsize, none) ∧
      growproc sampleLayout 0x80400000 pgsize (-(2 * pgsize)) onePage = some (0, pgsize, onePage) := by
  obtain ⟨m', hgrow, -, hpte⟩ := growproc_to_zero onePage_sound (show 0 < pgsize by decide) (by decide)
  refine ⟨onePage_pteAt 0 0, ?_, growproc_wraps (by decide) (by decide) (by decide) (by decide)⟩
  rw [hgrow, Option.map_some, hpte 0 (by decide), if_pos (by decide)]

end Xv6
