import Mathlib
import Xv6.Param
import Xv6.Lib.LittleEndian
import Xv6.Lib.While

/-!
# mpinit

`mp.c`: at boot, `mpinit` takes the MP configuration table the firmware left in
memory, checked by `mpconfig` (signature `PCMP`, version 1 or 4, bytes summing to
0), and walks its entries from the end of the 44-byte header to
`conf + conf->length`.  A processor entry records its local APIC id in the next
slot of `cpus` while fewer than `NCPU` are recorded, an I/O APIC entry sets
`ioapicid`, and bus and interrupt entries are skipped; each known entry moves
`p` past itself.  An entry of any other type clears `ismp` and `break`s, which
leaves the `switch` and not the `for`: `p` stays where it is, the loop has no
increment, and the same entry is read again forever, so the panic the cleared
`ismp` is meant for is never reached.

Memory is a function from physical addresses to bytes.  The walk is a `while`
loop, run with `Loop.whileFuel`: `none` is a walk that has not ended within the
fuel.

## Main definitions

* `mpconfig` — the checks `mpconfig` makes of the table at `conf`.
* `Walk`, `step` — the state of the walk and one turn of the `for` loop.
* `Stuck` — the walk at an entry of unknown type inside the table.
* `mpinit` — the checks and the walk, and the panic after it.

## Main results

* `step_stuck`, `p_add_le_step` — a turn at an unknown entry changes only `ismp`,
  one at a known entry moves `p` forwards by 8 bytes at least.
* `mpinit_spins` — once the walk meets an entry of unknown type, `mpinit` never
  returns; over known entries only it returns; it never panics with
  "Didn't find a suitable machine".
-/

namespace Xv6

namespace Mp

/-! ### The table -/

/-- `sum(addr, len)`: the bytes from `addr`, added up in an `int` and returned as a
`uchar`. -/
def sum (mem : ℕ → UInt8) (addr len : ℕ) : UInt8 := ((List.range len).map fun i => mem (addr + i)).sum

/-- `conf->length`: the `ushort` at offset 4 of the header. -/
def confLength (mem : ℕ → UInt8) (conf : ℕ) : ℕ := LittleEndian.read mem (conf + 4) 2

/-- `conf->version`, at offset 6. -/
def confVersion (mem : ℕ → UInt8) (conf : ℕ) : UInt8 := mem (conf + 6)

/-- The checks of `mpconfig` on the table at `mp->physaddr = conf`: an address, the
signature `PCMP`, version 1 or 4, and a sum of 0 over `conf->length` bytes. -/
def mpconfig (mem : ℕ → UInt8) (conf : ℕ) : Bool :=
  conf != 0 && (mem conf == 0x50 && mem (conf + 1) == 0x43 && mem (conf + 2) == 0x4D && mem (conf + 3) == 0x50) &&
    (confVersion mem conf == 1 || confVersion mem conf == 4) && sum mem conf (confLength mem conf) == 0

/-- `sizeof(struct mpconf)`: the entries start after the header. -/
def confHeader : ℕ := 44

/-! ### The walk -/

/-- What the walk has done: the entry it is at, the local APIC ids recorded in
`cpus[0..ncpu)` (the global `ncpu` is their number), `ioapicid` and `ismp`. -/
structure Walk where
  p : ℕ
  cpus : List UInt8
  ioapicid : UInt8
  ismp : Bool
  deriving DecidableEq, Repr

/-- `p=(uchar*)(conf+1)` with `ismp = 1` and `ncpu`, `ioapicid` as the boot left them. -/
def start (conf : ℕ) : Walk := ⟨conf + confHeader, [], 0, true⟩

/-- One turn of the `for` loop: the `switch` on the type byte `*p`. -/
def step (mem : ℕ → UInt8) (s : Walk) : Walk :=
  match (mem s.p).toNat with
  -- `MPPROC`: `proc->apicid` at offset 1, `sizeof(struct mpproc)` is 20
  | 0 => { s with cpus := if s.cpus.length < ncpu then s.cpus ++ [mem (s.p + 1)] else s.cpus, p := s.p + 20 }
  -- `MPIOAPIC`: `ioapic->apicno` at offset 1, `sizeof(struct mpioapic)` is 8
  | 2 => { s with ioapicid := mem (s.p + 1), p := s.p + 8 }
  -- `MPBUS`, `MPIOINTR`, `MPLINTR`
  | 1 | 3 | 4 => { s with p := s.p + 8 }
  -- `default: ismp = 0; break;` leaves the `switch` only
  | _ => { s with ismp := false }

/-- `for(...; p<e; )`, with `e = (uchar*)conf+conf->length`. -/
def walk (mem : ℕ → UInt8) (conf fuel : ℕ) : Option Walk :=
  Loop.whileFuel (fun s => decide (s.p < conf + confLength mem conf)) (step mem) fuel (start conf)

/-- `mpinit` after `mpconfig` has returned `conf`: the panic when the table is not
accepted, else the walk and the panic when `ismp` is cleared.  `none` when the walk
has not ended within `fuel` turns. -/
def mpinit (mem : ℕ → UInt8) (conf fuel : ℕ) : Option (Except String Walk) :=
  if mpconfig mem conf = false then some (.error "Expect to run on an SMP") else
    (walk mem conf fuel).map fun s => if s.ismp then .ok s else .error "Didn't find a suitable machine"

/-- The walk at an entry inside the table whose type is none of the five. -/
def Stuck (mem : ℕ → UInt8) (e : ℕ) (s : Walk) : Prop := s.p < e ∧ 4 < (mem s.p).toNat

instance (mem : ℕ → UInt8) (e : ℕ) (s : Walk) : Decidable (Stuck mem e s) :=
  inferInstanceAs (Decidable (_ ∧ _))

/-! ### One turn -/

section Step

variable {mem : ℕ → UInt8} {s : Walk}

/-- At an entry of unknown type a turn clears `ismp` and nothing else. -/
theorem step_stuck (h : 4 < (mem s.p).toNat) : step mem s = { s with ismp := false } := by
  unfold step
  split <;> first | omega | rfl

/-- At an entry of a known type a turn moves `p` past the entry, by 8 bytes at
least, and keeps `ismp`. -/
theorem p_add_le_step (h : (mem s.p).toNat ≤ 4) : s.p + 8 ≤ (step mem s).p ∧ (step mem s).ismp = s.ismp := by
  unfold step
  -- one of the five known types
  obtain h | h | h | h | h : (mem s.p).toNat = 0 ∨ (mem s.p).toNat = 1 ∨ (mem s.p).toNat = 2 ∨
      (mem s.p).toNat = 3 ∨ (mem s.p).toNat = 4 := by omega
  all_goals rw [h]; exact ⟨by simp, rfl⟩

/-- A turn never moves `p` backwards. -/
theorem p_le_step (mem : ℕ → UInt8) (s : Walk) : s.p ≤ (step mem s).p := by
  by_cases h : (mem s.p).toNat ≤ 4
  · exact le_trans (Nat.le_add_right _ _) (p_add_le_step h).1
  · rw [step_stuck (by omega)]

/-- A cleared `ismp` means the walk is at an unknown entry inside the table: only such
an entry clears it, and a turn there does not move `p`. -/
theorem stuck_of_ismp_false {e : ℕ} (hp : s.p < e) (hs : s.ismp = false → Stuck mem e s) :
    (step mem s).ismp = false → Stuck mem e (step mem s) := by
  by_cases h : (mem s.p).toNat ≤ 4
  · -- a known entry keeps `ismp`, and a cleared one would be at an unknown entry
    rw [(p_add_le_step h).2]
    exact fun hf => absurd (hs hf).2 (by omega)
  · rw [step_stuck (by omega)]
    exact fun _ => ⟨hp, Nat.lt_of_not_le h⟩

/-- An unknown entry inside the table traps the walk. -/
theorem stuck_step {e : ℕ} (h : Stuck mem e s) : decide (s.p < e) = true ∧ Stuck mem e (step mem s) := by
  rw [step_stuck h.2]
  exact ⟨decide_eq_true h.1, h⟩

/-- `p` only grows along the walk. -/
theorem p_iterate_mono (mem : ℕ → UInt8) (s : Walk) {k n : ℕ} (hkn : k ≤ n) :
    ((step mem)^[k] s).p ≤ ((step mem)^[n] s).p := by
  have hmono : Monotone fun n => ((step mem)^[n] s).p := monotone_nat_of_le_succ fun n => by
    rw [Function.iterate_succ_apply']
    exact p_le_step mem _
  exact hmono hkn

end Step

/-! ### The walk -/

section Walk

variable {mem : ℕ → UInt8} {conf : ℕ}

/-- A walk that ends has `ismp` set: the only entries that clear it keep the walk
where it is, inside the table. -/
theorem walk_ismp {fuel : ℕ} {t : Walk} (h : walk mem conf fuel = some t) : t.ismp = true := by
  -- the invariant: a cleared `ismp` is an unknown entry inside the table
  obtain ⟨hstuck, hend⟩ := @Loop.whileFuel_invariant _ _ _
    (fun s : Walk => s.ismp = false → Stuck mem (conf + confLength mem conf) s)
    (fun s hs hc => stuck_of_ismp_false (of_decide_eq_true hc) hs) fuel (start conf) t nofun h
  by_contra hf
  exact absurd (hstuck (by simpa using hf)).1 (by simpa using hend)

/-- Once the walk reaches an entry of unknown type, it never ends. -/
theorem walk_diverges {n : ℕ} (hn : Stuck mem (conf + confLength mem conf) ((step mem)^[n] (start conf)))
    (fuel : ℕ) : walk mem conf fuel = none :=
  Loop.whileFuel_diverges_of_reaches (fun _ hs => stuck_step hs)
    (fun _ hk => decide_eq_true (lt_of_le_of_lt (p_iterate_mono mem _ hk.le) hn.1)) hn fuel

/-- Over entries of known types only, the walk ends within `conf->length + 1` turns:
each turn moves `p` towards the end of the table. -/
theorem walk_ends (hknown : ∀ n, ¬Stuck mem (conf + confLength mem conf) ((step mem)^[n] (start conf))) :
    ∃ t, walk mem conf (confLength mem conf + 1) = some t := by
  -- the invariant: no unknown entry ahead; the measure: the bytes left to walk
  refine @Loop.whileFuel_of_measure _ _ _ (fun s => ∀ n, ¬Stuck mem (conf + confLength mem conf) ((step mem)^[n] s))
    (fun s => conf + confLength mem conf - s.p) (fun s hs hc => ⟨fun n => ?_, ?_⟩) _ _ hknown ?_
  · -- the walk from the next entry is the walk from this one, a turn later
    rw [← Function.iterate_succ_apply]
    exact hs (n + 1)
  · have hp := of_decide_eq_true hc
    have hk : (mem s.p).toNat ≤ 4 := by
      by_contra h
      exact hs 0 ⟨hp, Nat.lt_of_not_le h⟩
    have := (p_add_le_step hk).1
    omega
  · simp only [start]
    omega

end Walk

/-! ### `mpinit` -/

/-- **`mpinit` spins on an unknown entry.**  For every table `mpconfig` accepts,
once the walk reaches an entry whose type is none of `MPPROC`, `MPBUS`,
`MPIOAPIC`, `MPIOINTR`, `MPLINTR`, `mpinit` never returns; when every entry it
reaches has a known type, it returns within `conf->length + 1` turns; and it never
panics with "Didn't find a suitable machine". -/
theorem mpinit_spins (mem : ℕ → UInt8) (conf : ℕ) (hconf : mpconfig mem conf = true) :
    ((∃ n, Stuck mem (conf + confLength mem conf) ((step mem)^[n] (start conf))) →
        ∀ fuel, mpinit mem conf fuel = none) ∧
      ((∀ n, ¬Stuck mem (conf + confLength mem conf) ((step mem)^[n] (start conf))) →
        ∃ t, mpinit mem conf (confLength mem conf + 1) = some (.ok t)) ∧
      ∀ fuel, mpinit mem conf fuel ≠ some (.error "Didn't find a suitable machine") := by
  have hacc : ∀ fuel, mpinit mem conf fuel =
      (walk mem conf fuel).map fun s => if s.ismp then .ok s else .error "Didn't find a suitable machine" :=
    fun fuel => by rw [mpinit, if_neg (by simp [hconf])]
  refine ⟨fun ⟨n, hn⟩ fuel => ?_, fun hknown => ?_, fun fuel => ?_⟩
  · rw [hacc, walk_diverges hn, Option.map_none]
  · obtain ⟨t, ht⟩ := walk_ends hknown
    exact ⟨t, by rw [hacc, ht, Option.map_some, if_pos (walk_ismp ht)]⟩
  · rw [hacc]
    cases h : walk mem conf fuel with
    | none => exact nofun
    | some t => rw [Option.map_some, if_pos (walk_ismp h)]; exact nofun

/-- A 45-byte table with the header `mpconfig` accepts (checksum byte 157) and one
entry, of type 5, at address 45. -/
def unknownEntryTable (a : ℕ) : UInt8 :=
  if a = 1 then 0x50 else if a = 2 then 0x43 else if a = 3 then 0x4D else if a = 4 then 0x50 else
  if a = 5 then 45 else if a = 7 then 1 else if a = 8 then 157 else if a = 45 then 5 else 0

theorem mpinit_spins_type_five :
    mpconfig unknownEntryTable 1 = true ∧ ∀ fuel, mpinit unknownEntryTable 1 fuel = none :=
  ⟨by decide, (mpinit_spins unknownEntryTable 1 (by decide)).1 ⟨0, by decide⟩⟩

end Mp

end Xv6
