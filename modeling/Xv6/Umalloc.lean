import Xv6.Sbrk

/-!
# The user-space allocator

`umalloc.c`: the allocator of Kernighan and Ritchie.  Free memory is a circular
list of blocks, each starting with a `Header` that holds the next free block and
the block's size in header units; `freep` is where the last search stopped, and
the static `base` is a block of size `0` that starts the list.  `malloc(nbytes)`
rounds `nbytes` up to `nunits` units, one of them the header, takes the first
block that is large enough (its tail when it is larger), and calls `morecore` for
at least `4096` units from `sbrk` when the search comes back to `freep`;
`free(ap)` puts a block back in address order and joins it with its neighbours.

All of it is `uint` and pointer arithmetic on 32 bits.  `nunits` wraps when
`nbytes + 7` does, and `morecore` passes `nu * 8` to `sbrk` as an `int`, which
is negative from `2 ^ 31` on.

The allocator is written for any kernel: `sbrk k n` is what the system call does
from kernel state `k` with argument `n`, the C return value and the state after,
or `none` when the kernel panics.  User memory is seen through the headers stored
in it: `mem a` is the header at address `a`, whose `ptr` is the word at `a` and
whose `size` the word at `a + 4`.  Every load and store of a field asks `acc k a`
whether the process may touch the word at `a`; one it may not faults, and the
process is killed, which the model gives as `none`, as it gives a loop that does
not end (a loop runs on `fuel`).

For xv6, `sbrk` is `sysSbrk`, through `growproc`, and `acc` is `userWord`: the
page of the word is mapped with `PTE_U` and `PTE_W`.  `trap` has no page-fault
handler, so a store to any other page kills the process.  The page that holds the
break is mapped to its end, so the bytes of it at and above `p->sz` may be
touched.

## Main definitions

* `Header`, `Heap` — a header, and the allocator's state with the kernel's.
* `Heap.loadPtr`, `Heap.loadSize`, `Heap.storePtr`, `Heap.storeSize` — the
  accesses to a header's fields, which fault where `acc` says no.
* `free`, `morecore`, `malloc` — as in `umalloc.c`, with their loops `freeLoop`
  and `mallocLoop`.
* `nunits` — the units `malloc` asks for.
* `sysSbrk`, `userWord` — `sys_sbrk` over `growproc`, and the words a process may
  touch.

## Main results

* `malloc_beyond_sbrk` — the first `malloc` hands out memory that `sbrk` never
  granted, when `nbytes + 7` wraps, or when `nu * 8` is a negative `int` and the
  break is not page-aligned.
* `malloc_overlaps_live` — when `nu * 8` wraps to `0`, a second `malloc` hands out
  memory inside the block the first one returned; over xv6's `sbrk` this needs a
  break that is not page-aligned, so that the header `morecore` writes at it does
  not fault.
-/

namespace Xv6

namespace Umalloc

/-! ### The state -/

/-- `union header`: the next free block and the size of this one, in units. -/
structure Header where
  ptr : ℕ
  size : ℕ
  deriving DecidableEq, Repr, Inhabited

/-- `sizeof(Header)`. -/
def hdrSize : ℕ := 8

/-- `p + k` for a `Header *p`: `k` headers on, in 32-bit addresses. -/
def hadd (p k : ℕ) : ℕ := wrap32 (p + hdrSize * k)

/-- The headers in user memory, `freep` (`0` for null), and the kernel's state. -/
structure Heap (σ : Type) where
  mem : ℕ → Header
  freep : ℕ
  kern : σ

namespace Heap

variable {σ : Type}

/-- The header at `a` replaced. -/
def setHdr (h : Heap σ) (a : ℕ) (x : Header) : Heap σ := { h with mem := Function.update h.mem a x }

@[simp] theorem setHdr_mem_self (h : Heap σ) (a : ℕ) (x : Header) : (h.setHdr a x).mem a = x := by
  simp [setHdr]

@[simp] theorem setHdr_mem_of_ne (h : Heap σ) {a b : ℕ} (x : Header) (hne : b ≠ a) :
    (h.setHdr a x).mem b = h.mem b := by
  simp [setHdr, hne]

@[simp] theorem setHdr_freep (h : Heap σ) (a : ℕ) (x : Header) : (h.setHdr a x).freep = h.freep := rfl

@[simp] theorem setHdr_kern (h : Heap σ) (a : ℕ) (x : Header) : (h.setHdr a x).kern = h.kern := rfl

variable (acc : σ → ℕ → Bool)

/-- `p->s.ptr`: the word at `p`, or a fault. -/
def loadPtr (h : Heap σ) (p : ℕ) : Option ℕ := if acc h.kern p then some (h.mem p).ptr else none

/-- `p->s.size`: the word at `p + 4`, or a fault. -/
def loadSize (h : Heap σ) (p : ℕ) : Option ℕ := if acc h.kern (p + 4) then some (h.mem p).size else none

/-- `p->s.ptr = x`. -/
def storePtr (h : Heap σ) (p x : ℕ) : Option (Heap σ) :=
  if acc h.kern p then some (h.setHdr p { h.mem p with ptr := x }) else none

/-- `p->s.size = x`. -/
def storeSize (h : Heap σ) (p x : ℕ) : Option (Heap σ) :=
  if acc h.kern (p + 4) then some (h.setHdr p { h.mem p with size := x }) else none

variable {acc} {h : Heap σ} {p : ℕ}

@[simp] theorem loadPtr_of_acc (ha : acc h.kern p = true) : h.loadPtr acc p = some (h.mem p).ptr := if_pos ha

@[simp] theorem loadSize_of_acc (ha : acc h.kern (p + 4) = true) : h.loadSize acc p = some (h.mem p).size :=
  if_pos ha

@[simp] theorem storePtr_of_acc (x : ℕ) (ha : acc h.kern p = true) :
    h.storePtr acc p x = some (h.setHdr p { h.mem p with ptr := x }) := if_pos ha

@[simp] theorem storeSize_of_acc (x : ℕ) (ha : acc h.kern (p + 4) = true) :
    h.storeSize acc p x = some (h.setHdr p { h.mem p with size := x }) := if_pos ha

end Heap

/-- The process may touch both words of the header at `p` in kernel state `k`. -/
def HdrAcc {σ : Type} (acc : σ → ℕ → Bool) (k : σ) (p : ℕ) : Prop := acc k p = true ∧ acc k (p + 4) = true

/-! ### `free` -/

section Alloc

variable {σ : Type} (acc : σ → ℕ → Bool)

/-- The search loop of `free` from the block `p`: the first block after which `bp`
lies in address order, or the block at the wrap of the list when `bp` lies
below or above all of them. -/
def freeLoop (h : Heap σ) (bp : ℕ) : ℕ → ℕ → Option ℕ
  | 0, _ => none
  | fuel + 1, p => do
    -- both tests read `p->s.ptr`, and nothing is stored in the loop
    let next ← h.loadPtr acc p
    if p < bp ∧ bp < next then pure p
    else if next ≤ p ∧ (p < bp ∨ bp < next) then pure p
    else freeLoop h bp fuel next

/-- `free(ap)`: the block of `ap` linked in after the block the search found, and
joined with the block above it and the block below it where they touch. -/
def free (fuel ap : ℕ) (h : Heap σ) : Option (Heap σ) := do
  -- `bp = (Header*)ap - 1`
  let bp := wrap32 (ap + 2 ^ 32 - hdrSize)
  let p ← freeLoop acc h bp fuel h.freep
  let h ← if hadd bp (← h.loadSize acc bp) = (← h.loadPtr acc p) then do
      let q ← h.loadPtr acc p
      let h ← h.storeSize acc bp (wrap32 ((← h.loadSize acc bp) + (← h.loadSize acc q)))
      h.storePtr acc bp (← h.loadPtr acc (← h.loadPtr acc p))
    else h.storePtr acc bp (← h.loadPtr acc p)
  let h ← if hadd p (← h.loadSize acc p) = bp then do
      let h ← h.storeSize acc p (wrap32 ((← h.loadSize acc p) + (← h.loadSize acc bp)))
      h.storePtr acc p (← h.loadPtr acc bp)
    else h.storePtr acc p bp
  pure { h with freep := p }

/-! ### `morecore` and `malloc` -/

variable (sbrk : σ → ℤ → Option (ℤ × σ))

/-- `morecore(nu)`: at least `4096` units from `sbrk`, given to `free`; the new
`freep`, or `0` when `sbrk` returns `-1`. -/
def morecore (fuel nu : ℕ) (h : Heap σ) : Option (ℕ × Heap σ) := do
  let nu := if nu < 4096 then 4096 else nu
  -- `sbrk(nu * sizeof(Header))`: a `uint` product passed as an `int`
  let r ← sbrk h.kern (toInt (nu * hdrSize))
  let h := { h with kern := r.2 }
  let p := toUint r.1
  if p = toUint (-1) then pure (0, h)
  else
    -- `hp->s.size = nu; free((void*)(hp + 1))`
    let h ← free acc fuel (hadd p 1) (← h.storeSize acc p nu)
    pure (h.freep, h)

/-- The units `malloc(nbytes)` asks for: the bytes rounded up to headers, in
`uint` arithmetic, and one more for the header. -/
def nunits (nbytes : ℕ) : ℕ := wrap32 (nbytes + hdrSize - 1) / hdrSize + 1

/-- The loop of `malloc` at `prevp` and `p = prevp->s.ptr`: the first block of at
least `nunits` units, unlinked when it fits exactly and cut at its tail when it
is larger, or more memory from `morecore` when the search is back at `freep`. -/
def mallocLoop (nunits : ℕ) : ℕ → ℕ → ℕ → Heap σ → Option (ℕ × Heap σ)
  | 0, _, _, _ => none
  | fuel + 1, prevp, p, h => do
    -- the tests and `p->s.size -= nunits` read the same word, with no store between
    let size ← h.loadSize acc p
    if nunits ≤ size then
      if size = nunits then
        let h ← h.storePtr acc prevp (← h.loadPtr acc p)
        pure (hadd p 1, { h with freep := prevp })
      else
        let h ← h.storeSize acc p (size - nunits)
        let q := hadd p (← h.loadSize acc p)
        let h ← h.storeSize acc q nunits
        pure (hadd q 1, { h with freep := prevp })
    else if p = h.freep then
      let r ← morecore acc sbrk fuel nunits h
      if r.1 = 0 then pure (0, r.2) else mallocLoop nunits fuel r.1 (← r.2.loadPtr acc r.1) r.2
    else mallocLoop nunits fuel p (← h.loadPtr acc p) h

/-- `malloc(nbytes)`, with `base` the address of the static `base`: the pointer
returned, `0` when `sbrk` fails. -/
def malloc (fuel base nbytes : ℕ) (h : Heap σ) : Option (ℕ × Heap σ) := do
  let h ← if h.freep = 0 then do
      let h ← h.storePtr acc base base
      let h ← h.storeSize acc base 0
      pure { h with freep := base }
    else pure h
  mallocLoop acc sbrk (nunits nbytes) fuel h.freep (← h.loadPtr acc h.freep) h

end Alloc

/-! ### xv6's `sbrk` and user memory -/

/-- `sys_sbrk(n)` for the process with directory `pgdir`, whose kernel state is
its size and memory: the old size as an `int`, or `-1` when `growproc` fails. -/
def sysSbrk (L : Layout) (pgdir : ℕ) (k : ℕ × Phys) (n : ℤ) : Option (ℤ × (ℕ × Phys)) :=
  (growproc L pgdir k.1 n k.2).map fun r => (if r.1 < 0 then -1 else toInt k.1, r.2)

/-- The process with directory `pgdir` may load and store the word at `a`: its four
bytes lie in user pages it may write.  Every page xv6 maps for a process carries
`PTE_W` (`clearpteu` takes `PTE_U` from the guard page), so a word that can be
loaded can be stored. -/
def userWord (pgdir : ℕ) (k : ℕ × Phys) (a : ℕ) : Bool :=
  (List.range 4).all fun i => userWritable k.2.mem pgdir (a + i)

theorem hdrAcc_userWord {pgdir p : ℕ} {k : ℕ × Phys}
    (h : ∀ i < hdrSize, userWritable k.2.mem pgdir (p + i) = true) : HdrAcc (userWord pgdir) k p := by
  refine ⟨?_, ?_⟩ <;> simp only [userWord, List.all_eq_true, List.mem_range]
  · intro i hi
    exact h i (by unfold hdrSize; omega)
  · -- the `size` word is the header's second
    intro i hi
    rw [Nat.add_assoc]
    exact h (4 + i) (by unfold hdrSize; omega)

/-! ### The first `malloc` -/

section Fresh

variable {σ : Type} {acc : σ → ℕ → Bool} (sbrk : σ → ℤ → Option (ℤ × σ))

theorem hadd_zero {p : ℕ} (hp : p < 2 ^ 32) : hadd p 0 = p := by
  simp [hadd, wrap32_of_lt hp]

theorem hadd_of_lt {p n : ℕ} (h : p + hdrSize * n < 2 ^ 32) : hadd p n = p + hdrSize * n :=
  wrap32_of_lt h

/-- A block above `base` that does not run past the top of the address space does
not end at `base`. -/
theorem hadd_ne_of_lt {base a n : ℕ} (hbase : base < a) (h : a + hdrSize * n < 2 ^ 32) : hadd a n ≠ base := by
  rw [hadd_of_lt h]
  omega

/-- `free` of a block at `a` when the list is `base` alone: the block is linked
after `base`, and nothing is joined. -/
theorem free_after_base {h : Heap σ} {base a : ℕ} (fuel : ℕ) (hbase : base < a) (ha : a + hdrSize < 2 ^ 32)
    (hb : h.mem base = ⟨base, 0⟩) (hfp : h.freep = base) (hup : hadd a (h.mem a).size ≠ base)
    (hab : HdrAcc acc h.kern base) (haa : HdrAcc acc h.kern a) :
    free acc (fuel + 1) (hadd a 1) h =
      some { (h.setHdr a ⟨base, (h.mem a).size⟩).setHdr base ⟨a, 0⟩ with freep := base } := by
  have hne : base ≠ a := hbase.ne
  obtain ⟨hb₁, hb₂⟩ := hab
  obtain ⟨ha₁, ha₂⟩ := haa
  have hbp : wrap32 (hadd a 1 + 2 ^ 32 - hdrSize) = a := by
    rw [hadd_of_lt (by simpa using ha)]
    unfold wrap32 hdrSize
    omega
  have hloop : freeLoop acc h a (fuel + 1) base = some base := by
    simp [freeLoop, hb, hbase, hb₁]
  have hb' : (h.setHdr a ⟨base, (h.mem a).size⟩).mem base = ⟨base, 0⟩ := by
    rw [Heap.setHdr_mem_of_ne _ _ hne, hb]
  have hlow : hadd base 0 ≠ a := by rwa [hadd_zero (hbase.trans (by omega : a < 2 ^ 32))]
  rw [free, hbp, hfp, hloop]
  simp [hb, hup, hb₁, hb₂, ha₁, ha₂, hb', hlow]

/-- `morecore` when `sbrk` grants memory at `a` and the list is `base` alone: the
block of `nu'` units at `a`, at least `4096` of them, linked after `base`. -/
theorem morecore_after_base {h : Heap σ} {base a nu nu' : ℕ} {k' : σ} (fuel : ℕ) (hbase : base < a)
    (ha : a + hdrSize < 2 ^ 32) (hb : h.mem base = ⟨base, 0⟩) (hfp : h.freep = base)
    (hnu : (if nu < 4096 then 4096 else nu) = nu')
    (hsbrk : sbrk h.kern (toInt (nu' * hdrSize)) = some ((a : ℤ), k')) (hup : hadd a nu' ≠ base)
    (hab : HdrAcc acc k' base) (haa : HdrAcc acc k' a) :
    morecore acc sbrk (fuel + 1) nu h = some (base,
      { mem := Function.update (Function.update h.mem a ⟨base, nu'⟩) base ⟨a, 0⟩, freep := base, kern := k' }) := by
  have hne : base ≠ a := hbase.ne
  have hp : toUint (a : ℤ) = a := by rw [toUint_of_nonneg (by omega) (by omega)]; rfl
  have hp' : a ≠ toUint (-1) := by
    have : toUint (-1) = 2 ^ 32 - 1 := rfl
    unfold hdrSize at ha
    omega
  -- the state `free` starts from: the kernel's after `sbrk`, the new block's size stored
  let h₂ : Heap σ := ({ h with kern := k' } : Heap σ).setHdr a { h.mem a with size := nu' }
  have hstore : ({ h with kern := k' } : Heap σ).storeSize acc a nu' = some h₂ :=
    Heap.storeSize_of_acc _ haa.2
  have hb₂ : h₂.mem base = ⟨base, 0⟩ := by
    rw [Heap.setHdr_mem_of_ne _ _ hne]
    exact hb
  have hsz₂ : (h₂.mem a).size = nu' := by
    rw [Heap.setHdr_mem_self]
  have hfree : free acc (fuel + 1) (hadd a 1) h₂ =
      some { (h₂.setHdr a ⟨base, nu'⟩).setHdr base ⟨a, 0⟩ with freep := base } := by
    have h := free_after_base fuel hbase ha hb₂ hfp (by rwa [hsz₂]) hab haa
    rwa [hsz₂] at h
  simp only [morecore, hnu, hsbrk, Option.bind_eq_bind, Option.bind_some, hp, if_neg hp', hstore, hfree,
    Option.pure_def]
  simp [h₂, Heap.setHdr]

/-- The loop of `malloc` at a block of exactly `n` units: the block is unlinked. -/
theorem mallocLoop_exact {h : Heap σ} {n prevp p : ℕ} (fuel : ℕ) (hsz : (h.mem p).size = n)
    (hp : HdrAcc acc h.kern p) (hprev : HdrAcc acc h.kern prevp) :
    mallocLoop acc sbrk n (fuel + 1) prevp p h =
      some (hadd p 1, { h.setHdr prevp { h.mem prevp with ptr := (h.mem p).ptr } with freep := prevp }) := by
  simp [mallocLoop, hsz, hp.1, hp.2, hprev.1]

/-- The loop of `malloc` at a block of `s` units, more than `n`: its last `n` units
are handed out. -/
theorem mallocLoop_split {h : Heap σ} {n s prevp p : ℕ} (fuel : ℕ) (hsz : (h.mem p).size = s) (hlt : n < s)
    (hp : HdrAcc acc h.kern p) (hq : HdrAcc acc h.kern (hadd p (s - n))) :
    mallocLoop acc sbrk n (fuel + 1) prevp p h =
      some (hadd (hadd p (s - n)) 1,
        { (h.setHdr p { h.mem p with size := s - n }).setHdr (hadd p (s - n))
            { (h.setHdr p { h.mem p with size := s - n }).mem (hadd p (s - n)) with size := n } with
          freep := prevp }) := by
  simp [mallocLoop, hsz, hlt.le, hlt.ne', hp.2, hq.2]

/-- What `malloc` reads at the block `a` that `morecore` linked in after `base`. -/
theorem mem_after_morecore {mem : ℕ → Header} {base a nu : ℕ} (hne : base ≠ a) :
    Function.update (Function.update mem a ⟨base, nu⟩) base ⟨a, 0⟩ a = ⟨base, nu⟩ := by
  rw [Function.update_of_ne hne.symm, Function.update_self]

/-- `malloc` from a list that is `base` alone, when `sbrk` grants memory at `a`: the
search finds nothing, and `morecore` links the new block of `nu'` units in after
`base`. -/
theorem malloc_base_alone {h : Heap σ} {k' : σ} {base a nbytes nu' : ℕ} (fuel : ℕ) (hbase0 : 0 < base)
    (hbase : base < a) (ha : a + hdrSize < 2 ^ 32) (hb : h.mem base = ⟨base, 0⟩) (hfp : h.freep = base)
    (hnu : (if nunits nbytes < 4096 then 4096 else nunits nbytes) = nu')
    (hsbrk : sbrk h.kern (toInt (nu' * hdrSize)) = some ((a : ℤ), k')) (hup : hadd a nu' ≠ base)
    (hab₀ : HdrAcc acc h.kern base) (hab : HdrAcc acc k' base) (haa : HdrAcc acc k' a) :
    malloc acc sbrk (fuel + 2) base nbytes h =
      mallocLoop acc sbrk (nunits nbytes) (fuel + 1) base a
        ⟨Function.update (Function.update h.mem a ⟨base, nu'⟩) base ⟨a, 0⟩, base, k'⟩ := by
  have hpos : ¬ nunits nbytes ≤ (h.mem base).size := by simp [hb, nunits]
  have hmore := morecore_after_base sbrk fuel hbase ha hb hfp hnu hsbrk hup hab haa
  -- `freep` is set: the search starts at `base->s.ptr`, which is `base`
  have hstart : malloc acc sbrk (fuel + 2) base nbytes h =
      mallocLoop acc sbrk (nunits nbytes) (fuel + 2) base base h := by
    simp [malloc, hfp, hbase0.ne', hb, hab₀.1]
  rw [hstart, mallocLoop]
  simp only [Heap.loadSize_of_acc hab₀.2, Option.bind_eq_bind, Option.bind_some, if_neg hpos, if_pos hfp.symm,
    hmore, if_neg hbase0.ne']
  simp [hab.1]

/-- The first `malloc`, when `sbrk` grants memory at `a`: `base` is set up, the
search finds nothing, and `morecore` links the new block of `nu'` units in after
`base`. -/
theorem malloc_fresh {mem : ℕ → Header} {k k' : σ} {base a nbytes nu' : ℕ} (fuel : ℕ) (hbase0 : 0 < base)
    (hbase : base < a) (ha : a + hdrSize < 2 ^ 32) (hnu : (if nunits nbytes < 4096 then 4096 else nunits nbytes) = nu')
    (hsbrk : sbrk k (toInt (nu' * hdrSize)) = some ((a : ℤ), k')) (hup : hadd a nu' ≠ base)
    (hab₀ : HdrAcc acc k base) (hab : HdrAcc acc k' base) (haa : HdrAcc acc k' a) :
    malloc acc sbrk (fuel + 2) base nbytes ⟨mem, 0, k⟩ =
      mallocLoop acc sbrk (nunits nbytes) (fuel + 1) base a
        ⟨Function.update (Function.update (Function.update mem base ⟨base, 0⟩) a ⟨base, nu'⟩) base ⟨a, 0⟩,
          base, k'⟩ := by
  -- the heap once `malloc` has set `base` up; from there the list is `base` alone
  let h₀ : Heap σ := { (⟨mem, 0, k⟩ : Heap σ).setHdr base ⟨base, 0⟩ with freep := base }
  have hsetup : malloc acc sbrk (fuel + 2) base nbytes ⟨mem, 0, k⟩ = malloc acc sbrk (fuel + 2) base nbytes h₀ := by
    simp [malloc, h₀, hbase0.ne', hab₀.1, hab₀.2, Heap.setHdr]
  rw [hsetup]
  exact malloc_base_alone sbrk fuel hbase0 hbase ha (Heap.setHdr_mem_self _ _ _) rfl hnu hsbrk hup hab₀ hab haa

end Fresh

/-! ### `malloc` over xv6's `sbrk` -/

section Xv6Sbrk

variable {L : Layout} {pgdir sz base : ℕ} {m : Phys} {mem : ℕ → Header}

theorem toInt_of_lt {x : ℕ} (h : x < 2 ^ 31) : toInt x = x := by
  unfold toInt
  rw [if_pos (by omega), Nat.mod_eq_of_lt (by omega)]

theorem toInt_of_ge {x : ℕ} (h₁ : 2 ^ 31 ≤ x) (h₂ : x < 2 ^ 32) : toInt x = (x : ℤ) - 2 ^ 32 := by
  unfold toInt
  rw [if_neg (by omega), Nat.mod_eq_of_lt h₂]

/-- `sys_sbrk` returns the old size when `growproc` succeeds. -/
theorem sysSbrk_of_growproc {n : ℤ} {sz' : ℕ} {m' : Phys} (hsz : sz < 2 ^ 31)
    (h : growproc L pgdir sz n m = some (0, sz', m')) :
    sysSbrk L pgdir (sz, m) n = some ((sz : ℤ), (sz', m')) := by
  simp [sysSbrk, h, toInt_of_lt hsz]

/-- A `growproc` whose result and new size are known, with the memory it leaves. -/
theorem growproc_of_map {n : ℤ} {sz' : ℕ} (h : (growproc L pgdir sz n m).map (fun r => (r.1, r.2.1)) = some (0, sz')) :
    ∃ m', growproc L pgdir sz n m = some (0, sz', m') := by
  obtain ⟨⟨r, s, m'⟩, hg, hr⟩ := Option.map_eq_some_iff.mp h
  obtain ⟨rfl, rfl⟩ : r = 0 ∧ s = sz' := Prod.mk.inj hr
  exact ⟨m', hg⟩

/-- After `growproc(n)` with `n > 0` succeeds on a process mapped only below `sz`,
whose last page is writable to its end, the process may touch every header it
could touch before and every header from `sz` to its new size. -/
theorem hdrAcc_after_grow {y : List ℕ} (hs : m.Sound L (footprint m.mem pgdir ++ y)) (hold : sz < kernbase)
    (hmap : ∀ v < kernbase, (pteOf m.mem pgdir v).isSome → pgrounddown v < sz)
    (htail : ∀ v, sz ≤ v → v < pgroundup sz → userWritable m.mem pgdir v = true) {n : ℤ} (hn : 0 < n)
    {sz' : ℕ} {m' : Phys} (hg : growproc L pgdir sz n m = some (0, sz', m')) {x : ℕ}
    (hx : (∀ i < hdrSize, userWritable m.mem pgdir (x + i) = true) ∨ sz ≤ x ∧ x + hdrSize ≤ sz') :
    HdrAcc (userWord pgdir) (sz', m') x := by
  refine hdrAcc_userWord fun i hi => userWritable_of_growproc hs hold hmap htail hn hg ?_
  rcases hx with hx | ⟨hlo, hhi⟩
  · exact .inl (hx i hi)
  · exact .inr ⟨by omega, by omega⟩

/-- What `malloc` reads and writes at the block `a` it got from `morecore`. -/
theorem mem_after_fresh {base a nu : ℕ} (hne : base ≠ a) :
    (Function.update (Function.update (Function.update mem base ⟨base, 0⟩) a ⟨base, nu⟩) base ⟨a, 0⟩ a) =
      ⟨base, nu⟩ :=
  mem_after_morecore hne

/-- **`malloc` hands out memory that `sbrk` never granted.**  The first `malloc`
of a process with directory `pgdir`, mapped below its size `sz` (and `base` with
it), whose `growproc(32768)` succeeds:

* for `nbytes` from `2 ^ 32 - 7` on, `nbytes + 7` wraps and `nunits` is `1`;
  `malloc` returns the block's last unit, at the new end of the process
  `sz + 32768`, with no byte of it below that end;
* when `nunits * 8` is `2 ^ 31` or more, the `int` passed to `sbrk` is negative,
  `sz + n` wraps in `growproc`, which returns success without changing the size.
  When the break is not page-aligned, the page of `sz` is mapped past it, the
  header that `morecore` writes at `sz` does not fault, and `malloc` returns a
  block of `nunits` units at `sz`, above the process's memory. -/
theorem malloc_beyond_sbrk {y : List ℕ} (hs : m.Sound L (footprint m.mem pgdir ++ y))
    (hmap : ∀ v < kernbase, (pteOf m.mem pgdir v).isSome → pgrounddown v < sz)
    (htail : ∀ v, sz ≤ v → v < pgroundup sz → userWritable m.mem pgdir v = true)
    (hbase0 : 0 < base) (hbase : base < sz) (hb : ∀ i < hdrSize, userWritable m.mem pgdir (base + i) = true)
    (hsz : sz + 32768 < 2 ^ 31)
    (hgrow : (growproc L pgdir sz 32768 m).map (fun r => (r.1, r.2.1)) = some (0, sz + 32768)) :
    (∀ fuel nbytes, 2 ^ 32 - hdrSize < nbytes → nbytes < 2 ^ 32 →
      ∃ h', malloc (userWord pgdir) (sysSbrk L pgdir) (fuel + 2) base nbytes ⟨mem, 0, (sz, m)⟩ =
          some (sz + 32768, h') ∧
        h'.kern.1 = sz + 32768 ∧ (h'.mem (sz + 32760)).size = 1) ∧
    (∀ fuel nbytes, sz + hdrSize ≤ pgroundup sz → 4096 ≤ nunits nbytes → 2 ^ 31 ≤ nunits nbytes * hdrSize →
        sz + nunits nbytes * hdrSize < 2 ^ 32 →
      ∃ h', malloc (userWord pgdir) (sysSbrk L pgdir) (fuel + 2) base nbytes ⟨mem, 0, (sz, m)⟩ =
          some (sz + hdrSize, h') ∧
        h'.kern = (sz, m) ∧ (h'.mem sz).size = nunits nbytes) := by
  have hne : base ≠ sz := hbase.ne
  have hold : sz < kernbase := by unfold kernbase; omega
  have hb₀ : HdrAcc (userWord pgdir) (sz, m) base := hdrAcc_userWord hb
  constructor
  · intro fuel nbytes hlo hhi
    have hn : nunits nbytes = 1 := by
      unfold nunits wrap32 hdrSize at *
      omega
    obtain ⟨m', hg⟩ := growproc_of_map hgrow
    have hsb : sysSbrk L pgdir (sz, m) (toInt (4096 * hdrSize)) = some ((sz : ℤ), (sz + 32768, m')) :=
      sysSbrk_of_growproc (by omega) hg
    -- after `sbrk`, the process may touch `base` and every header of the new block
    have hacc := fun x hx => hdrAcc_after_grow hs hold hmap htail (by norm_num) hg (x := x) hx
    have hsz₀ : HdrAcc (userWord pgdir) (sz + 32768, m') sz := hacc sz (.inr ⟨le_rfl, by unfold hdrSize; omega⟩)
    have hup : hadd sz 4096 ≠ base := hadd_ne_of_lt hbase (by unfold hdrSize; omega)
    -- the last unit of the new block, and the pointer after its header
    have hq : hadd sz (4096 - 1) = sz + 32760 := by
      rw [hadd_of_lt (by unfold hdrSize; omega)]
      rfl
    have hq' : hadd (sz + 32760) 1 = sz + 32768 := by
      rw [hadd_of_lt (by unfold hdrSize; omega)]
      rfl
    rw [malloc_fresh (sysSbrk L pgdir) fuel hbase0 hbase (by unfold hdrSize; omega) (by rw [hn]; rfl) hsb hup hb₀
        (hacc base (.inl hb)) hsz₀, hn,
      mallocLoop_split (s := 4096) _ fuel (by simp only [mem_after_fresh hne]) (by decide) hsz₀
        (by rw [hq]; exact hacc _ (.inr ⟨by omega, by unfold hdrSize; omega⟩))]
    simp only [mem_after_fresh hne, hq, hq']
    exact ⟨_, rfl, rfl, by simp [Heap.setHdr]⟩
  · intro fuel nbytes hpage hbig hneg hfit
    have hnu : (if nunits nbytes < 4096 then 4096 else nunits nbytes) = nunits nbytes := if_neg (by omega)
    -- the `int` argument is `nunits * 8 - 2 ^ 32`, below `-sz`
    have hint : toInt (nunits nbytes * hdrSize) = (nunits nbytes * hdrSize : ℕ) - 2 ^ 32 :=
      toInt_of_ge hneg (by omega)
    have hg : growproc L pgdir sz (toInt (nunits nbytes * hdrSize)) m = some (0, sz, m) :=
      growproc_wraps (by omega) (by omega) (by rw [hint]; omega) (by rw [hint]; omega)
    -- the header at `sz` lies in the rest of the last page
    have hsz₀ : HdrAcc (userWord pgdir) (sz, m) sz := hdrAcc_userWord fun i hi => htail _ (by omega) (by omega)
    have hup : hadd sz (nunits nbytes) ≠ base := hadd_ne_of_lt hbase (by unfold hdrSize at *; omega)
    have hp : hadd sz 1 = sz + hdrSize := hadd_of_lt (by unfold hdrSize at *; omega)
    rw [malloc_fresh (sysSbrk L pgdir) fuel hbase0 hbase (by unfold hdrSize; omega) hnu
      (sysSbrk_of_growproc (by omega) hg) hup hb₀ hb₀ hsz₀,
      mallocLoop_exact _ fuel (by simp only [mem_after_fresh hne]) hsz₀ hb₀]
    simp only [hp]
    exact ⟨_, rfl, rfl, by simp [Heap.setHdr, Function.update_of_ne hne.symm]⟩

/-- The process of `onePage`, with eight free pages for `sbrk`. -/
def heapProc : Phys := { onePage with freelist := pageRange 0x80403000 8 }

theorem heapProc_sound : heapProc.Sound sampleLayout (footprint heapProc.mem 0x80400000 ++ []) := by
  have hown := onePage_sound.freeable
  show heapProc.Sound sampleLayout (footprint onePage.mem 0x80400000 ++ [])
  rw [footprint_onePage] at hown ⊢
  refine ⟨by decide, fun q hq => ?_⟩
  rcases List.mem_append.mp hq with hq | hq
  · obtain ⟨k, hk, rfl⟩ := mem_pageRange.mp hq
    refine ⟨?_, ?_, ?_⟩ <;> simp only [sampleLayout, pgsize, kernbase, phystop] <;> omega
  · exact hown q (List.mem_append_right _ hq)

/-- The first page is the one `heapProc` maps, writable and user. -/
theorem userWritable_heapProc {v : ℕ} (hv : v < pgsize) : userWritable heapProc.mem 0x80400000 v = true := by
  unfold pgsize at hv
  have hpdx : pdx v = 0 := by unfold pdx; omega
  have hptx : ptx v = 0 := by unfold ptx; omega
  refine @userWritable_of_pte _ _ v 0x402000 (by unfold kernbase; omega) ?_
  show pteAt onePage.mem 0x80400000 (pdx v) (ptx v) = _
  rw [hpdx, hptx, onePage_pteAt]
  decide

/-- `heapProc` with its break at `0xF00` is mapped only below it. -/
theorem heapProc_mapped :
    ∀ v < kernbase, (pteOf heapProc.mem 0x80400000 v).isSome → pgrounddown v < 0xF00 := by
  intro v hv hsome
  change (pteAt onePage.mem 0x80400000 (pdx v) (ptx v)).isSome = true at hsome
  rw [onePage_pteAt] at hsome
  split_ifs at hsome with hpage
  · unfold pdx ptx at hpage
    unfold kernbase at hv
    unfold pgrounddown pgsize
    omega
  · simp at hsome

theorem heapProc_tail : ∀ v, 0xF00 ≤ v → v < pgroundup 0xF00 → userWritable heapProc.mem 0x80400000 v = true :=
  fun _ _ hv => userWritable_heapProc (by rwa [show pgroundup 0xF00 = pgsize by decide] at hv)

/-- `growproc(32768)` of `heapProc` at `0xF00` takes the eight free pages. -/
theorem heapProc_grow :
    (growproc sampleLayout 0x80400000 0xF00 32768 heapProc).map (fun r => (r.1, r.2.1)) = some (0, 0xF00 + 32768) := by
  decide +kernel

/-- `malloc(0xFFFFFFFF)` and `malloc(0x80000000)` as the first `malloc` of the
process of one page `heapProc` with its break at `0xF00`, with `base` at `0x800`. -/
theorem malloc_beyond_sbrk_heapProc :
    (∃ h', malloc (userWord 0x80400000) (sysSbrk sampleLayout 0x80400000) 2 0x800 0xFFFFFFFF
          ⟨fun _ => default, 0, (0xF00, heapProc)⟩ = some (0xF00 + 32768, h') ∧
        h'.kern.1 = 0xF00 + 32768 ∧ (h'.mem (0xF00 + 32760)).size = 1) ∧
    (∃ h', malloc (userWord 0x80400000) (sysSbrk sampleLayout 0x80400000) 2 0x800 0x80000000
          ⟨fun _ => default, 0, (0xF00, heapProc)⟩ = some (0xF00 + hdrSize, h') ∧
        h'.kern = (0xF00, heapProc) ∧ (h'.mem 0xF00).size = nunits 0x80000000) := by
  have h := @malloc_beyond_sbrk sampleLayout 0x80400000 0xF00 0x800 heapProc (fun _ => default) [] heapProc_sound
    heapProc_mapped heapProc_tail (by decide) (by decide)
    (fun i hi => userWritable_heapProc (by unfold hdrSize at hi; unfold pgsize; omega)) (by decide) heapProc_grow
  exact ⟨h.1 0 _ (by decide) (by decide), h.2 0 _ (by decide) (by decide) (by decide) (by decide)⟩

end Xv6Sbrk

/-! ### Two live blocks that overlap -/

section Overlap

variable {σ : Type} {acc : σ → ℕ → Bool} (sbrk : σ → ℤ → Option (ℤ × σ))

/-- The first `malloc` of `nunits = 2 ^ 29` units: `morecore` asks `sbrk` for
`nu * 8 = 2 ^ 32` bytes, which wraps to `0`, and `sbrk(0)` returns the break `a`;
the block of `2 ^ 29` units it enters at `a` fits exactly and is handed out, and
the list is `base` alone again. -/
theorem malloc_nu_wraps (mem : ℕ → Header) {k : σ} {base a nbytes : ℕ} (fuel : ℕ) (hbase0 : 0 < base)
    (hbase : base < a) (ha : a + hdrSize < 2 ^ 32) (hs₀ : sbrk k 0 = some ((a : ℤ), k))
    (hab : HdrAcc acc k base) (haa : HdrAcc acc k a) (hn : nunits nbytes = 2 ^ 29) :
    ∃ h', malloc acc sbrk (fuel + 2) base nbytes ⟨mem, 0, k⟩ = some (a + hdrSize, h') ∧
      h'.mem base = ⟨base, 0⟩ ∧ h'.freep = base ∧ h'.kern = k ∧ (h'.mem a).size = 2 ^ 29 := by
  have hne : base ≠ a := hbase.ne
  have hsb : sbrk k (toInt (2 ^ 29 * hdrSize)) = some ((a : ℤ), k) := by
    rw [show toInt (2 ^ 29 * hdrSize) = 0 by decide]
    exact hs₀
  -- `a + 2 ^ 32` is `a` again in 32 bits
  have hup : hadd a (2 ^ 29) ≠ base := by
    unfold hadd wrap32 hdrSize at *
    omega
  have hp : hadd a 1 = a + hdrSize := hadd_of_lt (by unfold hdrSize at *; omega)
  rw [malloc_fresh sbrk fuel hbase0 hbase ha (by rw [hn]; rfl) hsb hup hab hab haa, hn,
    mallocLoop_exact sbrk fuel (by simp only [mem_after_fresh hne]) haa hab]
  simp only [hp, mem_after_fresh hne]
  exact ⟨_, rfl, by simp [Heap.setHdr], rfl, rfl, by simp [Heap.setHdr, Function.update_of_ne hne.symm]⟩

/-- A `malloc` of fewer than `4096` units from a list that is `base` alone, when
`sbrk(32768)` grants memory at `a`: the new block of `4096` units is cut, and its
last `nunits` units are handed out. -/
theorem malloc_tail_base_alone {h : Heap σ} {k' : σ} {base a nbytes : ℕ} (fuel : ℕ) (hbase0 : 0 < base)
    (hbase : base < a) (ha : a + 32768 < 2 ^ 32) (hb : h.mem base = ⟨base, 0⟩) (hfp : h.freep = base)
    (hsmall : nunits nbytes < 4096) (hsbrk : sbrk h.kern 32768 = some ((a : ℤ), k'))
    (hab₀ : HdrAcc acc h.kern base) (hab : HdrAcc acc k' base)
    (hblk : ∀ x, a ≤ x → x + hdrSize ≤ a + 32768 → HdrAcc acc k' x) :
    ∃ h', malloc acc sbrk (fuel + 2) base nbytes h =
        some (a + hdrSize * (4096 - nunits nbytes) + hdrSize, h') ∧
      (h'.mem (a + hdrSize * (4096 - nunits nbytes))).size = nunits nbytes := by
  have hne : base ≠ a := hbase.ne
  have hn1 : 1 ≤ nunits nbytes := Nat.le_add_left 1 _
  have hsb : sbrk h.kern (toInt (4096 * hdrSize)) = some ((a : ℤ), k') := by
    rw [show toInt (4096 * hdrSize) = 32768 by decide]
    exact hsbrk
  have hup : hadd a 4096 ≠ base := hadd_ne_of_lt hbase (by unfold hdrSize; omega)
  -- the header of the tail, and the pointer after it
  have hq : hadd a (4096 - nunits nbytes) = a + hdrSize * (4096 - nunits nbytes) :=
    hadd_of_lt (by unfold hdrSize; omega)
  have hq' : hadd (a + hdrSize * (4096 - nunits nbytes)) 1 = a + hdrSize * (4096 - nunits nbytes) + hdrSize := by
    rw [hadd_of_lt (by unfold hdrSize; omega), Nat.mul_one]
  have haa : HdrAcc acc k' a := hblk a le_rfl (by unfold hdrSize; omega)
  rw [malloc_base_alone sbrk fuel hbase0 hbase (by unfold hdrSize; omega) hb hfp (if_pos hsmall) hsb hup hab₀ hab haa,
    mallocLoop_split (s := 4096) sbrk fuel (by simp only [mem_after_morecore hne]) (by omega) haa
      (by rw [hq]; exact hblk _ (by omega) (by unfold hdrSize; omega))]
  simp only [mem_after_morecore hne, hq, hq']
  exact ⟨_, rfl, by simp [Heap.setHdr]⟩

/-- The last `n` of `4096` units at `a` lie in every block of at least `4096` units
at `a`. -/
theorem tail_not_disjoint {a n N : ℕ} (hn₁ : 1 ≤ n) (hn : n < 4096) (hN : 4096 ≤ N) :
    ¬ Disjoint (Set.Ico a (a + hdrSize * N))
      (Set.Ico (a + hdrSize * (4096 - n)) (a + hdrSize * (4096 - n) + hdrSize * n)) := by
  rw [Set.Ico_disjoint_Ico]
  unfold hdrSize
  omega

/-- **Two live blocks overlap.**  `malloc(nbytes)` for `nbytes` from `2 ^ 32 - 15` to
`2 ^ 32 - 8` asks for `nunits = 2 ^ 29` units, and `morecore` asks `sbrk` for
`nu * sizeof(Header)` bytes, a `uint` product that is `2 ^ 32` and wraps to `0`.
Over any `sbrk` that extends the heap as one region, returning the break `a` and
leaving it for `sbrk(0)` and returning `a` again for `sbrk(32768)`, where the
process may touch `base` and the header at `a` before, and `base` and the granted
`[a, a + 32768)` after: the first `malloc` hands out a block of `2 ^ 29` units at
`a`, of which `sbrk` granted no byte; a second `malloc` of fewer than `4096` units
gets the new memory at `a` from `morecore` and hands out its tail, which lies
inside the first block. -/
theorem malloc_overlaps_live {k : σ} {mem : ℕ → Header} {base a nbytes nbytes' : ℕ}
    (hbase0 : 0 < base) (hbase : base < a) (ha : a + 32768 < 2 ^ 32)
    (hs₀ : sbrk k 0 = some ((a : ℤ), k)) (hacc : HdrAcc acc k base ∧ HdrAcc acc k a)
    (hs₁ : ∃ k', sbrk k 32768 = some ((a : ℤ), k') ∧ HdrAcc acc k' base ∧
      ∀ x, a ≤ x → x + hdrSize ≤ a + 32768 → HdrAcc acc k' x)
    (hlo : 2 ^ 32 - 2 * hdrSize < nbytes) (hhi : nbytes ≤ 2 ^ 32 - hdrSize) (hsmall : nunits nbytes' < 4096)
    (fuel : ℕ) :
    ∃ h₁ h₂, malloc acc sbrk (fuel + 2) base nbytes ⟨mem, 0, k⟩ = some (a + hdrSize, h₁) ∧
      (h₁.mem a).size = nunits nbytes ∧
      malloc acc sbrk (fuel + 2) base nbytes' h₁ =
        some (a + hdrSize * (4096 - nunits nbytes') + hdrSize, h₂) ∧
      (h₂.mem (a + hdrSize * (4096 - nunits nbytes'))).size = nunits nbytes' ∧
      ¬ Disjoint (Set.Ico a (a + hdrSize * nunits nbytes))
        (Set.Ico (a + hdrSize * (4096 - nunits nbytes'))
          (a + hdrSize * (4096 - nunits nbytes') + hdrSize * nunits nbytes')) := by
  have hn : nunits nbytes = 2 ^ 29 := by
    unfold nunits wrap32 hdrSize at *
    omega
  have hn' : 1 ≤ nunits nbytes' := Nat.le_add_left 1 _
  obtain ⟨k', hsbrk, hab', hblk⟩ := hs₁
  obtain ⟨h₁, hm₁, hb₁, hfp₁, hk₁, hsz₁⟩ :=
    malloc_nu_wraps sbrk mem fuel hbase0 hbase (by unfold hdrSize; omega) hs₀ hacc.1 hacc.2 hn
  -- the second `malloc` starts from the kernel state the first one left, `k`
  obtain ⟨h₂, hm₂, hsz₂⟩ :=
    malloc_tail_base_alone sbrk fuel hbase0 hbase ha hb₁ hfp₁ hsmall (by rw [hk₁]; exact hsbrk)
      (by rw [hk₁]; exact hacc.1) hab' hblk
  refine ⟨h₁, h₂, hm₁, by rw [hsz₁, hn], hm₂, hsz₂, ?_⟩
  rw [hn]
  exact tail_not_disjoint hn' hsmall (by norm_num)

/-- `malloc(0xFFFFFFF8)` and then `malloc(1)` in the process of one page `heapProc`
with its break at `0xF00`, over xv6's `sbrk` and page tables, with `base` at `0x800`. -/
theorem malloc_overlaps_live_heapProc :
    ∃ h₁ h₂, malloc (userWord 0x80400000) (sysSbrk sampleLayout 0x80400000) 2 0x800 0xFFFFFFF8
          ⟨fun _ => default, 0, (0xF00, heapProc)⟩ = some (0xF00 + hdrSize, h₁) ∧
      malloc (userWord 0x80400000) (sysSbrk sampleLayout 0x80400000) 2 0x800 1 h₁ =
        some (0xF00 + hdrSize * (4096 - nunits 1) + hdrSize, h₂) ∧
      ¬ Disjoint (Set.Ico 0xF00 (0xF00 + hdrSize * nunits 0xFFFFFFF8))
        (Set.Ico (0xF00 + hdrSize * (4096 - nunits 1))
          (0xF00 + hdrSize * (4096 - nunits 1) + hdrSize * nunits 1)) := by
  -- `sbrk(32768)` maps eight pages from `0x1000` on; before it, the page of the break
  obtain ⟨m', hg⟩ := growproc_of_map heapProc_grow
  have hlow : ∀ x, x + hdrSize ≤ pgsize → HdrAcc (userWord 0x80400000) (0xF00, heapProc) x := fun x hx =>
    hdrAcc_userWord fun i hi => userWritable_heapProc (by omega)
  have hgrown := fun x hx =>
    hdrAcc_after_grow heapProc_sound (by decide) heapProc_mapped heapProc_tail (by norm_num) hg (x := x) hx
  obtain ⟨h₁, h₂, e₁, -, e₂, -, hd⟩ := @malloc_overlaps_live _ (userWord 0x80400000) (sysSbrk sampleLayout 0x80400000)
    (0xF00, heapProc) (fun _ => default) 0x800 0xF00 0xFFFFFFF8 1 (by decide) (by decide) (by decide) rfl
    ⟨hlow _ (by decide), hlow _ (by decide)⟩
    ⟨(0xF00 + 32768, m'), sysSbrk_of_growproc (by decide) hg,
      hgrown 0x800 (.inl fun i hi => userWritable_heapProc (by unfold hdrSize at hi; unfold pgsize; omega)),
      fun x hlo hhi => hgrown x (.inr ⟨hlo, hhi⟩)⟩
    (by decide) (by decide) (by decide) 0
  exact ⟨h₁, h₂, e₁, e₂, hd⟩

end Overlap

end Umalloc

end Xv6
