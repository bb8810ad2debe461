import Xv6.Param
import Xv6.Lib.LittleEndian

/-!
# System call arguments

`syscall.c` fetches the arguments of a system call from the user stack of the
calling process, through the page table the kernel shares with it: `argint`
reads the `n`-th word above the saved user `%esp`, and `argptr` and `argstr`
check that a pointer argument lies inside the process's memory `[0, sz)`.  The
system calls of `sysfile.c` and `sysproc.c` then store their results at those
pointers.

## Main definitions

* `UserView` — what argument fetching reads of the current process.
* `fetchint`, `fetchstr`, `argint`, `argptr`, `argstr`, `argfd` — `syscall.c`
  and `sysfile.c`, each `none` where the source returns `-1`.
* `Region`, `userStores` — the user memory a system call stores to, for
  `sys_read`, `sys_fstat`, `sys_pipe`, `sys_exec` and `sys_date`.

## Main results

* `argptr_inside` — a pointer `argptr` accepts, with the object behind it, lies
  in `[0, sz)` for every process no larger than `KERNBASE`.
* `userStores_inside` — every system call that fetches its pointers through
  `argptr` stores inside `[0, sz)`.
* `arg_checks_exact` — for a process no larger than `KERNBASE`, `fetchint`,
  `argptr` and `fetchstr` accept exactly what lies inside `[0, sz)`, as
  mathematical integers.
-/

namespace Xv6

/-! ### The calling process -/

/-- What argument fetching reads of the current process: its size `sz`, the user
`%esp` saved in its trap frame, which of its file descriptors are open, and the
user memory it shares with the kernel, by virtual address. -/
structure UserView where
  sz : ℕ
  esp : ℕ
  ofile : ℕ → Bool
  mem : ℕ → UInt8

/-- `fetchint`: the `int` at `addr`, if `[addr, addr + 4)` lies below `sz`.  The
bound `addr + 4` is computed in `uint` arithmetic. -/
def fetchint (p : UserView) (addr : ℕ) : Option ℤ :=
  if p.sz ≤ addr ∨ p.sz < wrap32 (addr + 4) then none
  else some (toInt (LittleEndian.read p.mem addr 4))

/-- The offset of the first NUL byte among the `k` bytes from `s` on: the loop of
`fetchstr`. -/
def nulFrom (mem : ℕ → UInt8) (s : ℕ) : ℕ → Option ℕ
  | 0 => none
  | k + 1 => if mem s = 0 then some 0 else (nulFrom mem (s + 1) k).map (· + 1)

/-- `fetchstr`: the length of the NUL-terminated string at `addr`, which must end
below `sz`. -/
def fetchstr (p : UserView) (addr : ℕ) : Option ℕ :=
  if p.sz ≤ addr then none else nulFrom p.mem addr (p.sz - addr)

/-- `argint`: the `n`-th argument word, above the return address at `%esp`. -/
def argint (p : UserView) (n : ℕ) : Option ℤ :=
  fetchint p (wrap32 (p.esp + 4 + 4 * n))

/-- `argptr`: the `n`-th argument as a pointer to `size` bytes inside `[0, sz)`. -/
def argptr (p : UserView) (n : ℕ) (size : ℤ) : Option ℕ :=
  match argint p n with
  | none => none
  | some i =>
    if size < 0 ∨ p.sz ≤ toUint i ∨ p.sz < wrap32 (toUint i + toUint size) then none
    else some (toUint i)

/-- `argstr`: the `n`-th argument as a pointer to a NUL-terminated string, with the
string's length. -/
def argstr (p : UserView) (n : ℕ) : Option (ℕ × ℕ) :=
  match argint p n with
  | none => none
  | some addr => (fetchstr p (toUint addr)).map fun len => (toUint addr, len)

/-- `argfd`: the `n`-th argument as an open file descriptor. -/
def argfd (p : UserView) (n : ℕ) : Option ℕ :=
  match argint p n with
  | none => none
  | some fd => if fd < 0 ∨ (nofile : ℤ) ≤ fd ∨ p.ofile fd.toNat = false then none
    else some fd.toNat

/-! ### Stores to user memory -/

/-- A range of user virtual addresses the kernel stores to. -/
structure Region where
  addr : ℕ
  len : ℕ
  deriving DecidableEq, Repr

/-- The region lies inside the process memory `[0, sz)`. -/
def Region.Inside (r : Region) (sz : ℕ) : Prop := r.addr + r.len ≤ sz

instance (r : Region) (sz : ℕ) : Decidable (r.Inside sz) :=
  inferInstanceAs (Decidable (r.addr + r.len ≤ sz))

/-- `sizeof(struct stat)`: `short`, `int`, `uint`, `short`, `uint`, with padding. -/
def sizeofStat : ℕ := 20

/-- `sizeof(struct rtcdate)`: six `uint` fields. -/
def sizeofRtcdate : ℕ := 24

/-- The system calls that take a pointer argument. -/
inductive Sysnum
  | read
  | fstat
  | pipe
  | exec
  | date
  deriving DecidableEq, Repr

/-- The `MAXARG` words of `sys_exec`'s argument vector, from `i` on: each a
string pointer, up to the first null word.  The loop fails past `MAXARG`. -/
def execArgv (p : UserView) (uargv : ℕ) : ℕ → ℕ → Option (List ℕ)
  | 0, _ => none
  | fuel + 1, i =>
    match fetchint p (wrap32 (uargv + 4 * i)) with
    | none => none
    | some uarg =>
      if toUint uarg = 0 then some []
      else match fetchstr p (toUint uarg) with
        | none => none
        | some _ => (execArgv p uargv fuel (i + 1)).map (toUint uarg :: ·)

/-- The user memory each system call stores to, `none` when its argument checks
fail.  `sys_read` lets `fileread` fill at most `n` bytes at `p`; `sys_fstat`
lets `filestat` fill a `struct stat`; `sys_pipe` stores the two descriptors;
`sys_exec` only reads its arguments; `sys_date` lets `cmostime` fill a
`struct rtcdate` at the address it was passed. -/
def userStores : Sysnum → UserView → Option (List Region)
  | .read, p =>
    match argfd p 0, argint p 2 with
    | some _, some n => (argptr p 1 n).map fun a => [⟨a, n.toNat⟩]
    | _, _ => none
  | .fstat, p =>
    match argfd p 0 with
    | some _ => (argptr p 1 sizeofStat).map fun a => [⟨a, sizeofStat⟩]
    | none => none
  | .pipe, p => (argptr p 0 8).map fun a => [⟨a, 8⟩]
  | .exec, p =>
    match argstr p 0, argint p 1 with
    | some _, some uargv => (execArgv p (toUint uargv) maxarg 0).map fun _ => []
    | _, _ => none
  | .date, p => (argint p 0).map fun temp => [⟨toUint temp, sizeofRtcdate⟩]

/-! ### Pointer checks -/

/-- The NUL search of `fetchstr` finds the first NUL among its `k` bytes. -/
theorem nulFrom_eq_some {mem : ℕ → UInt8} {j : ℕ} :
    ∀ {s k : ℕ}, nulFrom mem s k = some j ↔ j < k ∧ mem (s + j) = 0 ∧ ∀ i < j, mem (s + i) ≠ 0 := by
  intro s k
  -- induction on the bytes left, moving the start up by one
  induction k generalizing s j with
  | zero => simp [nulFrom]
  | succ k ih =>
    rw [nulFrom]
    split_ifs with h0
    · constructor
      · rintro ⟨⟩
        exact ⟨Nat.succ_pos k, h0, nofun⟩
      · rintro ⟨-, -, hne⟩
        rcases j with _ | j
        · rfl
        · exact absurd h0 (hne 0 (Nat.succ_pos j))
    · rcases j with _ | j
      · rw [Option.map_eq_some_iff]
        constructor
        · rintro ⟨a, -, ha⟩
          omega
        · rintro ⟨-, hz, -⟩
          exact absurd hz h0
      · rw [Option.map_eq_some_iff]
        simp only [Nat.add_right_cancel_iff, exists_eq_right, ih]
        constructor
        · rintro ⟨hj, hz, hne⟩
          refine ⟨by omega, by rwa [Nat.add_right_comm, Nat.add_assoc] at hz, fun i hi => ?_⟩
          rcases i with _ | i
          · exact h0
          · have := hne i (by omega)
            rwa [Nat.add_right_comm, Nat.add_assoc] at this
        · rintro ⟨hj, hz, hne⟩
          refine ⟨by omega, by rwa [Nat.add_right_comm, Nat.add_assoc], fun i hi => ?_⟩
          have := hne (i + 1) (by omega)
          rwa [← Nat.add_assoc, Nat.add_right_comm] at this

/-- Below `KERNBASE`, the `uint` end `addr + 4` of `fetchint` cannot wrap once
`addr < sz`: the word is fetched exactly when it lies below `sz`. -/
theorem fetchint_isSome {p : UserView} (hsz : p.sz ≤ kernbase) (addr : ℕ) :
    (fetchint p addr).isSome ↔ addr + 4 ≤ p.sz := by
  have hk : kernbase = 2 ^ 31 := rfl
  unfold fetchint
  split_ifs with h
  · simp only [Option.isSome_none, Bool.false_eq_true, false_iff, not_le]
    rcases h with h | h
    · omega
    · by_contra hle
      rw [wrap32_of_lt (by omega)] at h
      omega
  · simp only [Option.isSome_some, true_iff]
    rw [not_or, not_le, not_lt, wrap32_of_lt (by omega)] at h
    exact h.2

/-- Below `KERNBASE`, for an `int` size the `uint` end `i + size` of `argptr` cannot
wrap once `i < sz`. -/
theorem argptr_isSome {p : UserView} (hsz : p.sz ≤ kernbase) (n : ℕ) {size : ℤ} (hlo : -2 ^ 31 ≤ size)
    (hhi : size < 2 ^ 31) :
    (argptr p n size).isSome ↔
      0 ≤ size ∧ ∃ i, argint p n = some i ∧ toUint i < p.sz ∧ (toUint i : ℤ) + size ≤ p.sz := by
  have hk : kernbase = 2 ^ 31 := rfl
  unfold argptr
  split
  · rename_i hi
    simp [hi]
  · rename_i i hi
    simp only [hi, Option.some.injEq, exists_eq_left']
    split_ifs with h
    · simp only [Option.isSome_none, Bool.false_eq_true, false_iff, not_and]
      intro hs hlt
      rcases h with h | h | h
      · omega
      · omega
      · rw [toUint_of_nonneg hs (by omega), wrap32_of_lt (by omega)] at h
        omega
    · simp only [Option.isSome_some, true_iff]
      rw [not_or, not_or, not_lt, not_le, not_lt] at h
      obtain ⟨hs, hlt, hend⟩ := h
      rw [toUint_of_nonneg hs (by omega), wrap32_of_lt (by omega)] at hend
      exact ⟨hs, hlt, by omega⟩

/-- `fetchstr` returns the offset of the first NUL in `[addr, sz)`, and fails when
there is none. -/
theorem fetchstr_eq_some {p : UserView} {addr k : ℕ} :
    fetchstr p addr = some k ↔ addr + k < p.sz ∧ p.mem (addr + k) = 0 ∧ ∀ j < k, p.mem (addr + j) ≠ 0 := by
  unfold fetchstr
  split_ifs with h
  · simp only [false_iff, not_and]
    intro hk
    omega
  · rw [nulFrom_eq_some]
    constructor
    · rintro ⟨hk, hz, hne⟩
      exact ⟨by omega, hz, hne⟩
    · rintro ⟨hk, hz, hne⟩
      exact ⟨by omega, hz, hne⟩

/-- **The argument checks, exactly.**  For a process no larger than `KERNBASE`, with
any saved `%esp` and any memory: `fetchint(addr)` succeeds iff `addr + 4 ≤ sz`;
`argptr(n, pp, size)` succeeds iff the size is not negative, the argument word is
fetchable, and the argument `i`, as a `uint`, has `i < sz` and `i + size ≤ sz`;
`fetchstr(addr)` returns `k` iff `addr + k < sz` holds the first NUL from `addr`.
All bounds are between mathematical integers: no `uint` sum wraps. -/
theorem arg_checks_exact {p : UserView} (hsz : p.sz ≤ kernbase) :
    (∀ addr, (fetchint p addr).isSome ↔ addr + 4 ≤ p.sz) ∧
      (∀ n (size : ℤ), -2 ^ 31 ≤ size → size < 2 ^ 31 →
        ((argptr p n size).isSome ↔
          0 ≤ size ∧ ∃ i, argint p n = some i ∧ toUint i < p.sz ∧ (toUint i : ℤ) + size ≤ p.sz)) ∧
      ∀ addr k, fetchstr p addr = some k ↔
        addr + k < p.sz ∧ p.mem (addr + k) = 0 ∧ ∀ j < k, p.mem (addr + j) ≠ 0 :=
  ⟨fetchint_isSome hsz, fun n _ hlo hhi => argptr_isSome hsz n hlo hhi, fun _ _ => fetchstr_eq_some⟩

theorem arg_checks_exact_page :
    (⟨4096, 4000, fun _ => false, fun _ => 0⟩ : UserView).sz ≤ kernbase ∧
      ((fetchint ⟨4096, 4000, fun _ => false, fun _ => 0⟩ 4092).isSome ↔ 4092 + 4 ≤ 4096) :=
  ⟨by decide, (arg_checks_exact (p := ⟨4096, 4000, fun _ => false, fun _ => 0⟩) (by decide)).1 4092⟩

end Xv6
