import Xv6.Disk
import Xv6.Lib.Run

/-!
# The queued IDE driver and the disk in memory

`ide.c` serves requests through a queue, `idequeue`, whose head is the request
the controller is executing.  `iderw` appends its buffer, starts the controller
when the queue was empty, and sleeps until the buffer is synced; the interrupt
handler `ideintr` completes the head, wakes its process and starts the next.
`memide.c` does the same work at once, on a disk image in memory.

This file models both.  The controller finishes a started command by raising one
interrupt; the callers are processes that lock a buffer, fill it and pass it to
`iderw`, in any interleaving with the interrupts, each `idelock` section atomic.
Over every such run the queue loses, repeats and reorders no request, the
controller executes the head's command and nothing else, and a process returns
from `iderw` only once its own request is done.  For requests `memide` accepts,
the disk and the buffers are at every moment what `memide`'s `iderw` computes
when it is applied at each completion, in the order of the calls.

That order is the order of completion, not of return: between the interrupt that
finishes a request and the moment its process runs again, another request may
finish.  Behind the buffer cache, whose `bget` never gives two buffers one block,
that request is for another sector, and `iderw` returns with its buffer and its
sector equal.

## Main definitions

* `Buf`, `BufFlags` — the fields of `struct buf` the drivers use.
* `Memide.iderw`, `Memide.step` — `memide.c`.
* `Ide`, `Ide.idestart`, `Ide.ideintr`, `Ide.iderwCall`, `Ide.step` — `ide.c`, with
  the observations of each step (`IdeObs`).
* `Ide.FillApart`, `Ide.cachedStep` — the driver behind the buffer cache, which
  never gives a buffer a block another buffer carries.

## Main results

* `Ide.Inv.step` — what the queue, the controller and the callers keep.
* `Ide.CachedInv.step` — behind the cache, besides: one buffer a block, and a synced
  buffer a process waits on equal to its sector.
* `ide_refines_memide` — the queue is served in order, each request started once,
  each caller released after its own completion with its buffer and its sector
  equal, and `memide` computes the rest.
-/

namespace Xv6

/-- `SECTOR_SIZE`. -/
def sectorSize : ℕ := 512

/-- `B_VALID` and `B_DIRTY`, the bits of `b->flags`. -/
structure BufFlags where
  valid : Bool
  dirty : Bool
  deriving DecidableEq, Repr

/-- `(b->flags & (B_VALID|B_DIRTY)) == B_VALID`: the buffer holds the sector and has
nothing to write. -/
def BufFlags.synced (fl : BufFlags) : Bool := fl.valid && !fl.dirty

@[simp] theorem BufFlags.synced_iff (fl : BufFlags) : fl.synced = true ↔ fl = ⟨true, false⟩ := by
  cases fl with
  | mk v d => cases v <;> cases d <;> simp [synced]

/-- The fields of `struct buf` the disk drivers read and write. -/
structure Buf where
  flags : BufFlags
  dev : ℕ
  blockno : ℕ
  data : Block

/-- A buffer `memide` serves: disk 1, inside the image of `FSSIZE` blocks. -/
def Buf.OnDisk1 (bf : Buf) : Prop := bf.dev = 1 ∧ bf.blockno < fssize

instance (bf : Buf) : Decidable bf.OnDisk1 := inferInstanceAs (Decidable (_ ∧ _))

/-! ### `memide.c` -/

namespace Memide

/-- `memdisk`, the disk image in memory, and the buffers. -/
structure State where
  memdisk : Disk
  buf : Fin nbuf → Buf

/-- `iderw` of `memide.c` on an image of `disksize` blocks; `held` is
`holdingsleep(&b->lock)`.  `none` for its panics. -/
def iderw (disksize : ℕ) (s : State) (b : Fin nbuf) (held : Bool) : Option State :=
  let bf := s.buf b
  if !held then none
  else if bf.flags.synced then none
  else if bf.dev ≠ 1 then none
  else if disksize ≤ bf.blockno then none
  else if bf.flags.dirty then
    some ⟨Function.update s.memdisk bf.blockno bf.data,
      Function.update s.buf b { bf with flags := { bf.flags with dirty := false, valid := true } }⟩
  else
    some { s with
      buf := Function.update s.buf b { bf with data := s.memdisk bf.blockno, flags := { bf.flags with valid := true } } }

/-- What a caller does with the disk in memory: fill its buffer, or pass it to `iderw`. -/
inductive MemEvent
  | fill (b : Fin nbuf) (nb : Buf)
  | iderw (b : Fin nbuf)

/-- One call, by the holder of the buffer. -/
def step (disksize : ℕ) (s : State) : MemEvent → Option State
  | .fill b nb => some { s with buf := Function.update s.buf b nb }
  | .iderw b => iderw disksize s b true

/-- `iderw` on a buffer it accepts: afterwards the block and the buffer agree, and the
buffer is synced. -/
theorem iderw_eq {disksize : ℕ} {s : State} {b : Fin nbuf} (hs : (s.buf b).flags.synced = false)
    (hdev : (s.buf b).dev = 1) (hblk : (s.buf b).blockno < disksize) :
    iderw disksize s b true =
      some ⟨if (s.buf b).flags.dirty then Function.update s.memdisk (s.buf b).blockno (s.buf b).data
          else s.memdisk,
        Function.update s.buf b { s.buf b with
          data := if (s.buf b).flags.dirty then (s.buf b).data else s.memdisk (s.buf b).blockno,
          flags := ⟨true, false⟩ }⟩ := by
  have hblk' : ¬ disksize ≤ (s.buf b).blockno := by omega
  unfold iderw
  simp only [Bool.not_true, Bool.false_eq_true, if_false, hs, hdev, ne_eq, not_true_eq_false, hblk']
  cases (s.buf b).flags.dirty <;> simp

end Memide

/-! ### `ide.c` -/

/-- A command the controller executes: the drive (`b->dev & 1`), the sector, and
for a write the data `outsl` sent with it. -/
structure IdeCmd where
  drive : Bool
  sector : ℕ
  write : Option Block

/-- Where a process is in `iderw`: outside it, asleep on its buffer, or woken by
`wakeup` and about to test the loop again. -/
inductive IdePc
  | idle
  | asleep (b : Fin nbuf)
  | awake (b : Fin nbuf)
  deriving DecidableEq

/-- The buffer a process waits on in `iderw`. -/
def IdePc.waitsOn : IdePc → Option (Fin nbuf)
  | .idle => none
  | .asleep b => some b
  | .awake b => some b

@[simp] theorem IdePc.waitsOn_idle : IdePc.idle.waitsOn = none := rfl

@[simp] theorem IdePc.waitsOn_asleep (b : Fin nbuf) : (IdePc.asleep b).waitsOn = some b := rfl

@[simp] theorem IdePc.waitsOn_awake (b : Fin nbuf) : (IdePc.awake b).waitsOn = some b := rfl

/-- Waking a process leaves the buffer it waits on. -/
@[simp] theorem IdePc.waitsOn_wake (x : IdePc) (b : Fin nbuf) :
    (if x = .asleep b then IdePc.awake b else x).waitsOn = x.waitsOn := by
  split_ifs with h <;> simp [h]

/-- The two disks, the buffers with the owners of their sleep-locks, `idequeue`, the
controller's command, and each process's place in `iderw`. -/
structure Ide where
  disk : Bool → Disk
  havedisk1 : Bool
  buf : Fin nbuf → Buf
  holder : Fin nbuf → Option (Fin nproc)
  idequeue : List (Fin nbuf)
  cmd : Option IdeCmd
  pc : Fin nproc → IdePc

/-- What a step does that a caller can tell: a request appended to `idequeue`,
handed to the controller, finished by `ideintr`, or a buffer filled by its holder. -/
inductive IdeObs
  | append (b : Fin nbuf)
  | start (b : Fin nbuf)
  | finish (b : Fin nbuf)
  | fill (b : Fin nbuf) (nb : Buf)

namespace IdeObs

def appended : IdeObs → List (Fin nbuf)
  | .append b => [b]
  | _ => []

def started : IdeObs → List (Fin nbuf)
  | .start b => [b]
  | _ => []

def finished : IdeObs → List (Fin nbuf)
  | .finish b => [b]
  | _ => []

/-- The call of `memide` an observation stands for. -/
def mem : IdeObs → Option Memide.MemEvent
  | .fill b nb => some (.fill b nb)
  | .finish b => some (.iderw b)
  | _ => none

end IdeObs

/-- The calls of the processes and the interrupt of the controller. -/
inductive IdeEvent
  /-- `acquiresleep(&b->lock)`. -/
  | acquire (p : Fin nproc) (b : Fin nbuf)
  /-- `releasesleep(&b->lock)`. -/
  | release (p : Fin nproc) (b : Fin nbuf)
  /-- The holder writes the fields of its buffer. -/
  | fill (p : Fin nproc) (b : Fin nbuf) (nb : Buf)
  /-- `iderw(b)`, up to its first `sleep`. -/
  | iderw (p : Fin nproc) (b : Fin nbuf)
  /-- The controller finishes its command and `ideintr` runs. -/
  | intr
  /-- A woken process tests the loop of `iderw` again. -/
  | resume (p : Fin nproc)

/-- The buffers a run fills are ones `memide` serves. -/
def IdeEvent.OnDisk1 : IdeEvent → Prop
  | .fill _ _ nb => nb.OnDisk1
  | _ => True

namespace Ide

variable (s : Ide)

/-- The command `idestart` hands the controller for a buffer. -/
def cmdOf (bf : Buf) : IdeCmd :=
  ⟨bf.dev % 2 == 1, bf.blockno * (bsize / sectorSize), if bf.flags.dirty then some bf.data else none⟩

/-- `idestart`; `none` for the panic "incorrect blockno". -/
def idestart (b : Fin nbuf) : Option Ide :=
  if fssize ≤ (s.buf b).blockno then none else some { s with cmd := some (cmdOf (s.buf b)) }

/-- `wakeup(b)`: the processes asleep on `b` can run. -/
def wakeup (b : Fin nbuf) : Ide :=
  { s with pc := fun p => if s.pc p = .asleep b then .awake b else s.pc p }

/-- The controller finishes command `c`: a write reaches the disk. -/
def finishCmd (c : IdeCmd) : Ide :=
  match c.write with
  | some d => { s with disk := Function.update s.disk c.drive (Function.update (s.disk c.drive) c.sector d),
                       cmd := none }
  | none => { s with cmd := none }

/-- `ideintr`, given the sector the controller delivers to `insl` for a read. -/
def ideintr (rd : Block) : Option (Ide × List IdeObs) :=
  match s.idequeue with
  | [] => some (s, [])
  | b :: rest =>
    let bf := s.buf b
    let bf := { bf with data := if !bf.flags.dirty then rd else bf.data,
                        flags := { bf.flags with valid := true, dirty := false } }
    let s := ({ s with idequeue := rest, buf := Function.update s.buf b bf } : Ide).wakeup b
    match rest with
    | [] => some (s, [.finish b])
    | b' :: _ => (s.idestart b').map fun s => (s, [.finish b, .start b'])

/-- `iderw(b)` by process `p` up to its first `sleep`, all under `idelock`: the
checks, the append to `idequeue`, `idestart` when `b` is the head, and the test of
the loop.  `none` for its panics. -/
def iderwCall (p : Fin nproc) (b : Fin nbuf) : Option (Ide × List IdeObs) :=
  let bf := s.buf b
  if s.holder b ≠ some p then none
  else if bf.flags.synced then none
  else if bf.dev ≠ 0 ∧ s.havedisk1 = false then none
  else
    let s : Ide := { s with idequeue := s.idequeue ++ [b] }
    let started : Option (Ide × List IdeObs) :=
      if s.idequeue.head? = some b then (s.idestart b).map fun s => (s, [.append b, .start b])
      else some (s, [.append b])
    started.map fun (s, os) =>
      if (s.buf b).flags.synced then (s, os) else ({ s with pc := Function.update s.pc p (.asleep b) }, os)

/-- A woken process tests the loop of `iderw` again: it returns once its buffer is
synced and sleeps again otherwise. -/
def resume (p : Fin nproc) : Option Ide :=
  match s.pc p with
  | .awake b => some { s with pc := Function.update s.pc p (if (s.buf b).flags.synced then .idle else .asleep b) }
  | _ => none

/-- One event; `none` when it cannot happen or the kernel panics.  A process takes
and gives back buffer locks, and fills its buffers, only outside `iderw`. -/
def step : IdeEvent → Option (Ide × List IdeObs)
  | .acquire p b =>
    if s.pc p = .idle ∧ s.holder b = none then some ({ s with holder := Function.update s.holder b (some p) }, [])
    else none
  | .release p b =>
    if s.pc p = .idle ∧ s.holder b = some p then some ({ s with holder := Function.update s.holder b none }, [])
    else none
  | .fill p b nb =>
    if s.pc p = .idle ∧ s.holder b = some p then some ({ s with buf := Function.update s.buf b nb }, [.fill b nb])
    else none
  | .iderw p b => if s.pc p = .idle then s.iderwCall p b else none
  | .intr =>
    s.cmd.bind fun c =>
      let s := s.finishCmd c
      s.ideintr (s.disk c.drive c.sector)
  | .resume p => (s.resume p).map (·, [])

/-- The events `es` from `s`, with everything they show. -/
def run (s : Ide) (es : List IdeEvent) : Option (Ide × List IdeObs) := Transition.runOut step s es

/-- No request anywhere: the queue empty, the controller idle, every process
outside `iderw`. -/
structure Quiet : Prop where
  queue : s.idequeue = []
  cmd : s.cmd = none
  idle : ∀ p, s.pc p = .idle

/-- `memide`'s view: disk 1 is its image. -/
def abs : Memide.State := ⟨s.disk true, s.buf⟩

/-- No two buffers carry one block of disk 1. -/
def Unique : Prop :=
  ∀ b b', (s.buf b).dev = 1 → (s.buf b').dev = 1 → (s.buf b).blockno = (s.buf b').blockno → b = b'

/-- A fill that gives its buffer no block of disk 1 another buffer carries: `bget`
hands out a block's own buffer when there is one. -/
def FillApart : IdeEvent → Prop
  | .fill _ b nb => ∀ b', b' ≠ b → (s.buf b').dev = 1 → nb.dev = 1 → (s.buf b').blockno ≠ nb.blockno
  | _ => True

instance (e : IdeEvent) : Decidable (s.FillApart e) := by
  cases e <;> unfold FillApart <;> infer_instance

/-- One event behind the buffer cache: the events the cache lets through. -/
def cachedStep (e : IdeEvent) : Option (Ide × List IdeObs) := if s.FillApart e then s.step e else none

/-- The events `es` from `s` behind the buffer cache. -/
def cachedRun (s : Ide) (es : List IdeEvent) : Option (Ide × List IdeObs) := Transition.runOut cachedStep s es

/-- A synced buffer its process waits on holds what its sector of disk 1 does. -/
def SyncedHolds : Prop :=
  ∀ p b, (s.pc p).waitsOn = some b → (s.buf b).flags.synced = true → s.disk true (s.buf b).blockno = (s.buf b).data

/-! ### What each step does -/

section Specs

variable {s s' : Ide} {os : List IdeObs} {p : Fin nproc} {b : Fin nbuf}

@[simp] theorem finishCmd_buf (c : IdeCmd) : (s.finishCmd c).buf = s.buf := by
  unfold finishCmd; split <;> rfl

@[simp] theorem finishCmd_holder (c : IdeCmd) : (s.finishCmd c).holder = s.holder := by
  unfold finishCmd; split <;> rfl

@[simp] theorem finishCmd_idequeue (c : IdeCmd) : (s.finishCmd c).idequeue = s.idequeue := by
  unfold finishCmd; split <;> rfl

@[simp] theorem finishCmd_pc (c : IdeCmd) : (s.finishCmd c).pc = s.pc := by
  unfold finishCmd; split <;> rfl

@[simp] theorem finishCmd_cmd (c : IdeCmd) : (s.finishCmd c).cmd = none := by
  unfold finishCmd; split <;> rfl

/-- A write command reaches its sector; a read leaves the disks. -/
theorem finishCmd_disk (c : IdeCmd) :
    (s.finishCmd c).disk =
      c.write.elim s.disk fun d => Function.update s.disk c.drive (Function.update (s.disk c.drive) c.sector d) := by
  unfold finishCmd; split <;> simp_all

@[simp] theorem wakeup_buf : (s.wakeup b).buf = s.buf := rfl

@[simp] theorem wakeup_disk : (s.wakeup b).disk = s.disk := rfl

@[simp] theorem wakeup_holder : (s.wakeup b).holder = s.holder := rfl

@[simp] theorem wakeup_idequeue : (s.wakeup b).idequeue = s.idequeue := rfl

@[simp] theorem wakeup_cmd : (s.wakeup b).cmd = s.cmd := rfl

/-- `wakeup` changes where no process waits. -/
@[simp] theorem waitsOn_wakeup (q : Fin nproc) : ((s.wakeup b).pc q).waitsOn = (s.pc q).waitsOn :=
  IdePc.waitsOn_wake _ _

theorem idestart_some (h : s.idestart b = some s') :
    (s.buf b).blockno < fssize ∧ s' = { s with cmd := some (cmdOf (s.buf b)) } := by
  unfold idestart at h
  split_ifs at h with hb
  exact ⟨by omega, (Option.some.inj h).symm⟩

theorem step_acquire (h : s.step (.acquire p b) = some (s', os)) :
    s.pc p = .idle ∧ s.holder b = none ∧ s' = { s with holder := Function.update s.holder b (some p) } ∧ os = [] := by
  simp only [step] at h
  split_ifs at h with hp
  obtain ⟨rfl, rfl⟩ := Prod.mk.inj (Option.some.inj h)
  exact ⟨hp.1, hp.2, rfl, rfl⟩

theorem step_release (h : s.step (.release p b) = some (s', os)) :
    s.pc p = .idle ∧ s.holder b = some p ∧ s' = { s with holder := Function.update s.holder b none } ∧ os = [] := by
  simp only [step] at h
  split_ifs at h with hp
  obtain ⟨rfl, rfl⟩ := Prod.mk.inj (Option.some.inj h)
  exact ⟨hp.1, hp.2, rfl, rfl⟩

theorem step_fill {nb : Buf} (h : s.step (.fill p b nb) = some (s', os)) :
    s.pc p = .idle ∧ s.holder b = some p ∧ s' = { s with buf := Function.update s.buf b nb } ∧ os = [.fill b nb] := by
  simp only [step] at h
  split_ifs at h with hp
  obtain ⟨rfl, rfl⟩ := Prod.mk.inj (Option.some.inj h)
  exact ⟨hp.1, hp.2, rfl, rfl⟩

/-- `iderw` passed its checks, queued its buffer, started it if it is the head, and
put its process to sleep. -/
theorem step_iderw (h : s.step (.iderw p b) = some (s', os)) :
    s.pc p = .idle ∧ s.holder b = some p ∧ (s.buf b).flags.synced = false ∧
      s'.disk = s.disk ∧ s'.buf = s.buf ∧ s'.holder = s.holder ∧ s'.idequeue = s.idequeue ++ [b] ∧
      s'.pc = Function.update s.pc p (.asleep b) ∧
      ((s.idequeue ++ [b]).head? = some b ∧ s'.cmd = some (cmdOf (s.buf b)) ∧ os = [.append b, .start b] ∨
        (s.idequeue ++ [b]).head? ≠ some b ∧ s'.cmd = s.cmd ∧ os = [.append b]) := by
  simp only [step] at h
  split_ifs at h with hp
  unfold iderwCall at h
  dsimp only at h
  split_ifs at h with hh hs hd hhead
  · -- `b` is the head: `idestart`
    obtain ⟨⟨s₂, os₂⟩, hst, he⟩ := Option.map_eq_some_iff.mp h
    obtain ⟨s₃, hs₃, he₃⟩ := Option.map_eq_some_iff.mp hst
    obtain ⟨-, rfl⟩ := idestart_some hs₃
    simp only [Prod.mk.injEq] at he₃
    obtain ⟨rfl, rfl⟩ := he₃
    simp only [Bool.not_eq_true] at hs
    simp only [hs, Bool.false_eq_true, if_false, Prod.mk.injEq] at he
    obtain ⟨rfl, rfl⟩ := he
    exact ⟨hp, not_not.mp hh, hs, rfl, rfl, rfl, rfl, rfl, .inl ⟨hhead, rfl, rfl⟩⟩
  · obtain ⟨⟨s₂, os₂⟩, hst, he⟩ := Option.map_eq_some_iff.mp h
    simp only [Option.some.injEq, Prod.mk.injEq] at hst
    obtain ⟨rfl, rfl⟩ := hst
    simp only [Bool.not_eq_true] at hs
    simp only [hs, Bool.false_eq_true, if_false, Prod.mk.injEq] at he
    obtain ⟨rfl, rfl⟩ := he
    exact ⟨hp, not_not.mp hh, hs, rfl, rfl, rfl, rfl, rfl, .inr ⟨hhead, rfl, rfl⟩⟩

theorem cachedStep_some {e : IdeEvent} (h : s.cachedStep e = some (s', os)) :
    s.FillApart e ∧ s.step e = some (s', os) := by
  unfold cachedStep at h
  split_ifs at h with hg
  exact ⟨hg, h⟩

/-- A run behind the cache is a run of the driver. -/
theorem cachedRun_run {es : List IdeEvent} (h : s.cachedRun es = some (s', os)) : s.run es = some (s', os) :=
  Transition.runOut_of_le (fun _ _ (_, _) h => (cachedStep_some h).2) h

theorem step_intr_cmd (h : s.step .intr = some (s', os)) : ∃ c, s.cmd = some c := by
  simp only [step, Option.bind_eq_some_iff] at h
  obtain ⟨c, hc, -⟩ := h
  exact ⟨c, hc⟩

/-- The interrupt of the command for the head `b`: the command reaches the disk,
`b` leaves the queue synced, its process is woken, and the next request starts. -/
theorem step_intr {rest : List (Fin nbuf)} (hq : s.idequeue = b :: rest) (h : s.step .intr = some (s', os)) :
    ∃ c, s.cmd = some c ∧ s'.disk = (s.finishCmd c).disk ∧
      s'.buf = Function.update s.buf b { s.buf b with
        data := if !(s.buf b).flags.dirty then (s.finishCmd c).disk c.drive c.sector else (s.buf b).data,
        flags := { (s.buf b).flags with valid := true, dirty := false } } ∧
      s'.holder = s.holder ∧ s'.idequeue = rest ∧
      s'.pc = (fun q => if s.pc q = .asleep b then .awake b else s.pc q) ∧
      s'.cmd = rest.head?.map (fun b' => cmdOf (s'.buf b')) ∧
      os = .finish b :: rest.head?.toList.map .start := by
  simp only [step, Option.bind_eq_some_iff] at h
  obtain ⟨c, hc, h⟩ := h
  refine ⟨c, hc, ?_⟩
  unfold ideintr at h
  rw [finishCmd_idequeue, hq] at h
  dsimp only at h
  split at h
  · obtain ⟨rfl, rfl⟩ := Prod.mk.inj (Option.some.inj h)
    exact ⟨rfl, by simp, by simp, rfl, by simp [wakeup], by simp, rfl⟩
  · rename_i b' rest'
    obtain ⟨s₂, hs₂, he⟩ := Option.map_eq_some_iff.mp h
    obtain ⟨-, rfl⟩ := idestart_some hs₂
    obtain ⟨rfl, rfl⟩ := Prod.mk.inj he
    exact ⟨rfl, by simp, by simp, rfl, by simp [wakeup], rfl, rfl⟩

theorem step_resume (h : s.step (.resume p) = some (s', os)) :
    ∃ b, s.pc p = .awake b ∧ os = [] ∧
      s' = { s with pc := Function.update s.pc p (if (s.buf b).flags.synced then .idle else .asleep b) } := by
  simp only [step, Option.map_eq_some_iff] at h
  obtain ⟨s₁, hr, he⟩ := h
  obtain ⟨rfl, rfl⟩ := Prod.mk.inj he
  unfold resume at hr
  split at hr
  · rename_i b hb
    exact ⟨b, hb, rfl, (Option.some.inj hr).symm⟩
  all_goals cases hr

end Specs

/-! ### The invariant of the queue -/

/-- What `idelock` keeps between its critical sections: the controller executes the
command of the head; the queue holds each buffer once, each the buffer of a process
in `iderw`; and a process in `iderw` holds its buffer, which is queued exactly while
it is not synced. -/
structure Inv : Prop where
  cmd : s.cmd = s.idequeue.head?.map fun b => cmdOf (s.buf b)
  nodup : s.idequeue.Nodup
  queued : ∀ b ∈ s.idequeue, ∃ p, s.holder b = some p ∧ (s.pc p).waitsOn = some b
  waiting : ∀ p b, (s.pc p).waitsOn = some b →
    s.holder b = some p ∧ (b ∈ s.idequeue ↔ (s.buf b).flags.synced = false)

section Invariant

variable {s t : Ide} {os : List IdeObs} {p : Fin nproc} {b : Fin nbuf}

theorem Quiet.inv (h : s.Quiet) : s.Inv where
  cmd := by rw [h.cmd, h.queue]; rfl
  nodup := by rw [h.queue]; exact List.nodup_nil
  queued := by simp [h.queue]
  waiting p b hw := by simp [h.idle p] at hw

/-- Appending `b` to a queue without it makes `b` the head exactly when the queue
was empty. -/
theorem head_append_eq_iff {q : List (Fin nbuf)} (hb : b ∉ q) : (q ++ [b]).head? = some b ↔ q = [] := by
  cases q with
  | nil => simp
  | cons b₀ rest =>
    have hne : b₀ ≠ b := fun h => hb (h ▸ List.mem_cons_self)
    simp [hne]

theorem exists_cons_of_head_append_ne {q : List (Fin nbuf)} (hb : b ∉ q) (h : (q ++ [b]).head? ≠ some b) :
    ∃ b₀ rest, q = b₀ :: rest :=
  List.exists_cons_of_ne_nil fun h₀ => h ((head_append_eq_iff hb).mpr h₀)

/-- The command of the head does not read a buffer outside the queue. -/
theorem head_cmd_update {q : List (Fin nbuf)} {buf : Fin nbuf → Buf} (hb : b ∉ q) (nb : Buf) :
    q.head?.map (fun b' => cmdOf (Function.update buf b nb b')) = q.head?.map fun b' => cmdOf (buf b') := by
  cases q with
  | nil => rfl
  | cons b₀ rest =>
    have hne : b₀ ≠ b := fun h => hb (h ▸ List.mem_cons_self)
    simp [Function.update_of_ne hne]

namespace Inv

/-- A buffer whose holder does not wait on it is not queued. -/
theorem not_queued (hs : s.Inv) (hb : ∀ p, s.holder b = some p → (s.pc p).waitsOn ≠ some b) :
    b ∉ s.idequeue := fun hq => by
  obtain ⟨p, hh, hw⟩ := hs.queued b hq
  exact hb p hh hw

/-- The buffer of a process outside `iderw` is not queued. -/
theorem not_queued_of_idle (hs : s.Inv) (hp : s.pc p = .idle) (hh : s.holder b = some p) :
    b ∉ s.idequeue :=
  hs.not_queued fun p' hh' => by
    obtain rfl : p' = p := Option.some.inj (hh'.symm.trans hh)
    simp [hp]

/-- No process waits on the buffer of a process outside `iderw`. -/
theorem ne_of_waiting (hs : s.Inv) (hp : s.pc p = .idle) (hh : s.holder b = some p)
    {p' : Fin nproc} {b' : Fin nbuf} (hw : (s.pc p').waitsOn = some b') : b' ≠ b := by
  rintro rfl
  obtain rfl : p' = p := Option.some.inj ((hs.waiting p' b' hw).1.symm.trans hh)
  simp [hp] at hw

theorem acquire (hs : s.Inv) (h : s.step (.acquire p b) = some (t, os)) : t.Inv := by
  obtain ⟨-, hfree, rfl, -⟩ := step_acquire h
  refine ⟨hs.cmd, hs.nodup, ?_, ?_⟩
  · intro b' hq
    obtain ⟨p', hh, hw⟩ := hs.queued b' hq
    have hne : b' ≠ b := by rintro rfl; simp [hfree] at hh
    exact ⟨p', (Function.update_of_ne hne _ _).trans hh, hw⟩
  · intro p' b' hw
    obtain ⟨hh, hq⟩ := hs.waiting p' b' hw
    have hne : b' ≠ b := by rintro rfl; simp [hfree] at hh
    exact ⟨(Function.update_of_ne hne _ _).trans hh, hq⟩

theorem release (hs : s.Inv) (h : s.step (.release p b) = some (t, os)) : t.Inv := by
  obtain ⟨hp, hh, rfl, -⟩ := step_release h
  have hb := hs.not_queued_of_idle hp hh
  refine ⟨hs.cmd, hs.nodup, ?_, ?_⟩
  · intro b' hq
    obtain ⟨p', hh', hw⟩ := hs.queued b' hq
    have hne : b' ≠ b := by rintro rfl; exact hb hq
    exact ⟨p', (Function.update_of_ne hne _ _).trans hh', hw⟩
  · intro p' b' hw
    obtain ⟨hh', hq⟩ := hs.waiting p' b' hw
    exact ⟨(Function.update_of_ne (hs.ne_of_waiting hp hh hw) _ _).trans hh', hq⟩

theorem fill {nb : Buf} (hs : s.Inv) (h : s.step (.fill p b nb) = some (t, os)) : t.Inv := by
  obtain ⟨hp, hh, rfl, -⟩ := step_fill h
  have hb := hs.not_queued_of_idle hp hh
  refine ⟨?_, hs.nodup, hs.queued, ?_⟩
  · -- the head's command reads the head's buffer, which `fill` does not touch
    show s.cmd = _
    rw [hs.cmd, head_cmd_update hb]
  · intro p' b' hw
    obtain ⟨hh', hq⟩ := hs.waiting p' b' hw
    refine ⟨hh', ?_⟩
    show b' ∈ s.idequeue ↔ (Function.update s.buf b nb b').flags.synced = false
    rw [Function.update_of_ne (hs.ne_of_waiting hp hh hw), hq]

theorem iderw (hs : s.Inv) (h : s.step (.iderw p b) = some (t, os)) : t.Inv := by
  obtain ⟨hp, hh, hns, -, hbuf, hholder, hq, hpc, hstart⟩ := step_iderw h
  have hb := hs.not_queued_of_idle hp hh
  refine ⟨?_, ?_, ?_, ?_⟩
  · -- `idestart` runs exactly when the queue was empty
    rw [hbuf, hq]
    rcases hstart with ⟨hhead, hc, -⟩ | ⟨hhead, hc, -⟩
    · rw [hc, hhead]; rfl
    · obtain ⟨b₀, rest, hq₀⟩ := exists_cons_of_head_append_ne hb hhead
      rw [hc, hs.cmd, hq₀]; rfl
  · rw [hq]
    refine List.nodup_append.mpr ⟨hs.nodup, List.nodup_singleton b, fun a ha b' hb' hab => hb ?_⟩
    rw [List.mem_singleton.mp hb'] at hab
    exact hab ▸ ha
  · intro b' hb'
    rw [hq, List.mem_append, List.mem_singleton] at hb'
    rw [hholder, hpc]
    rcases hb' with hb' | rfl
    · obtain ⟨p', hh', hw⟩ := hs.queued b' hb'
      have hne : p' ≠ p := by rintro rfl; simp [hp] at hw
      exact ⟨p', hh', by rw [Function.update_of_ne hne, hw]⟩
    · exact ⟨p, hh, by simp⟩
  · intro p' b' hw
    rw [hpc] at hw
    rw [hholder, hq, hbuf, List.mem_append, List.mem_singleton]
    by_cases hpp : p' = p
    · subst hpp
      obtain rfl : b = b' := by simpa using hw
      simp [hh, hns]
    · rw [Function.update_of_ne hpp] at hw
      obtain ⟨hh', hiff⟩ := hs.waiting p' b' hw
      simp [hh', hiff, hs.ne_of_waiting hp hh hw]

/-- Under the invariant an interrupt finds a request at the head of the queue. -/
theorem intr_queue (hs : s.Inv) (h : s.step .intr = some (t, os)) :
    ∃ b rest, s.idequeue = b :: rest := by
  obtain ⟨c, hc⟩ := step_intr_cmd h
  rw [hs.cmd] at hc
  obtain ⟨b, hb, -⟩ := Option.map_eq_some_iff.mp hc
  exact List.exists_cons_of_ne_nil fun hq => by simp [hq] at hb

theorem intr (hs : s.Inv) (h : s.step .intr = some (t, os)) : t.Inv := by
  obtain ⟨b, rest, hq⟩ := hs.intr_queue h
  obtain ⟨c, -, -, hbuf, hholder, hq', hpc, hcmd, -⟩ := step_intr hq h
  have hnd := hs.nodup
  rw [hq, List.nodup_cons] at hnd
  refine ⟨by rw [hq']; exact hcmd, by rw [hq']; exact hnd.2, ?_, ?_⟩
  · intro b' hb'
    rw [hq'] at hb'
    obtain ⟨p', hh, hw⟩ := hs.queued b' (by rw [hq]; exact List.mem_cons_of_mem b hb')
    exact ⟨p', by rw [hholder, hh], by rw [hpc, IdePc.waitsOn_wake, hw]⟩
  · intro p' b' hw
    rw [hpc, IdePc.waitsOn_wake] at hw
    obtain ⟨hh, hiff⟩ := hs.waiting p' b' hw
    refine ⟨by rw [hholder, hh], ?_⟩
    rw [hq', hbuf]
    by_cases hbb : b' = b
    · -- the completed request leaves the queue synced
      subst hbb
      simp [hnd.1]
    · rw [hq] at hiff
      simpa [Function.update_of_ne hbb, hbb] using hiff

theorem resume (hs : s.Inv) (h : s.step (.resume p) = some (t, os)) : t.Inv := by
  obtain ⟨b, hawake, -, rfl⟩ := step_resume h
  obtain ⟨hh, hiff⟩ := hs.waiting p b (by rw [hawake]; rfl)
  refine ⟨hs.cmd, hs.nodup, ?_, ?_⟩
  · intro b' hb'
    obtain ⟨p', hh', hw⟩ := hs.queued b' hb'
    refine ⟨p', hh', ?_⟩
    show (Function.update s.pc p _ p').waitsOn = some b'
    by_cases hpp : p' = p
    · -- a queued buffer is not synced, so its process sleeps again
      subst hpp
      obtain rfl : b = b' := by simpa [hawake] using hw
      simp [hiff.mp hb']
    · rw [Function.update_of_ne hpp, hw]
  · intro p' b' hw
    change (Function.update s.pc p _ p').waitsOn = some b' at hw
    by_cases hpp : p' = p
    · subst hpp
      rw [Function.update_self] at hw
      split_ifs at hw with hsync
      · simp at hw
      · obtain rfl : b = b' := by simpa using hw
        exact ⟨hh, hiff⟩
    · rw [Function.update_of_ne hpp] at hw
      exact hs.waiting p' b' hw

/-- Every event keeps the invariant. -/
theorem step {e : IdeEvent} (hs : s.Inv) (h : s.step e = some (t, os)) : t.Inv := by
  cases e with
  | acquire p b => exact hs.acquire h
  | release p b => exact hs.release h
  | fill p b nb => exact hs.fill h
  | iderw p b => exact hs.iderw h
  | intr => exact hs.intr h
  | resume p => exact hs.resume h

/-- `iderw` returns only with its buffer synced, and so out of the queue. -/
theorem returns (hs : s.Inv) (h : s.step (.resume p) = some (t, os)) (hidle : t.pc p = .idle) :
    ∃ b, s.pc p = .awake b ∧ b ∉ s.idequeue ∧ (s.buf b).flags = ⟨true, false⟩ := by
  obtain ⟨b, hawake, -, rfl⟩ := step_resume h
  have hsync : (s.buf b).flags.synced = true := by
    by_contra hns
    simp [hns] at hidle
  refine ⟨b, hawake, fun hq => ?_, (BufFlags.synced_iff _).mp hsync⟩
  have hns := (hs.waiting p b (by rw [hawake]; rfl)).2.mp hq
  rw [hsync] at hns
  cases hns

end Inv

end Invariant

/-! ### The order of the requests -/

section Order

variable {s t : Ide} {os : List IdeObs}

/-- One step appends to the back of the queue what it shows appended and removes
from the front what it shows finished; it starts a request exactly when the request
becomes the head. -/
theorem Inv.step_queue {e : IdeEvent} (hs : s.Inv) (h : s.step e = some (t, os)) :
    s.idequeue ++ os.flatMap IdeObs.appended = os.flatMap IdeObs.finished ++ t.idequeue ∧
      s.idequeue.take 1 ++ os.flatMap IdeObs.started = os.flatMap IdeObs.finished ++ t.idequeue.take 1 := by
  cases e with
  | acquire p b =>
    obtain ⟨-, -, rfl, rfl⟩ := step_acquire h
    simp
  | release p b =>
    obtain ⟨-, -, rfl, rfl⟩ := step_release h
    simp
  | fill p b nb =>
    obtain ⟨-, -, rfl, rfl⟩ := step_fill h
    simp [IdeObs.appended, IdeObs.finished, IdeObs.started]
  | iderw p b =>
    obtain ⟨hp, hh, -, -, -, -, hq, -, hstart⟩ := step_iderw h
    have hb := hs.not_queued_of_idle hp hh
    rw [hq]
    rcases hstart with ⟨hhead, -, rfl⟩ | ⟨hhead, -, rfl⟩
    · -- the queue was empty: the request is started at once
      rw [(head_append_eq_iff hb).mp hhead]
      simp [IdeObs.appended, IdeObs.finished, IdeObs.started]
    · obtain ⟨b₀, rest, hq₀⟩ := exists_cons_of_head_append_ne hb hhead
      rw [hq₀]
      simp [IdeObs.appended, IdeObs.finished, IdeObs.started]
  | intr =>
    obtain ⟨b, rest, hq⟩ := hs.intr_queue h
    obtain ⟨-, -, -, -, -, hq', -, -, rfl⟩ := step_intr hq h
    rw [hq, hq']
    cases rest <;> simp [IdeObs.appended, IdeObs.finished, IdeObs.started]
  | resume p =>
    obtain ⟨-, -, rfl, rfl⟩ := step_resume h
    simp

end Order

/-! ### `memide` computes the disk -/

/-- `memide`'s call for an observation; the others leave its state. -/
def memStep (m : Memide.State) (o : IdeObs) : Option Memide.State := o.mem.elim (some m) (Memide.step fssize m)

section Refinement

variable {s t : Ide} {os : List IdeObs}

/-- The interrupt of the head's command is `memide`'s `iderw` of the head: the
command of `cmdOf` addresses block `blockno` of disk 1, one sector a block. -/
theorem Inv.sim_intr (hs : s.Inv) (hd : ∀ b, (s.buf b).OnDisk1) (h : s.step .intr = some (t, os)) :
    Transition.runFn memStep s.abs os = some t.abs := by
  obtain ⟨b, rest, hq⟩ := hs.intr_queue h
  obtain ⟨c, hc, hdisk, hbuf, -, -, -, -, rfl⟩ := step_intr hq h
  have hcb : c = cmdOf (s.buf b) := by
    rw [hs.cmd, hq] at hc
    exact (Option.some.inj hc).symm
  have hbq : b ∈ s.idequeue := by rw [hq]; exact List.mem_cons_self
  obtain ⟨p, -, hw⟩ := hs.queued b hbq
  have hns : (s.buf b).flags.synced = false := (hs.waiting p b hw).2.mp hbq
  obtain ⟨hdev, hblk⟩ := hd b
  have hmem : Memide.iderw fssize s.abs b true = some t.abs := by
    rw [Memide.iderw_eq (s := s.abs) hns hdev hblk]
    simp only [abs, hdisk, hbuf, finishCmd_disk, hcb, cmdOf, hdev]
    by_cases hdirty : (s.buf b).flags.dirty = true <;> simp [hdirty, bsize, sectorSize]
  -- the start of the next request shows nothing to `memide`
  have hstart : ∀ m, Transition.runFn memStep m (rest.head?.toList.map .start) = some m := by
    intro m
    cases rest <;> rfl
  simp only [Transition.runFn, memStep, IdeObs.mem, Option.elim, Memide.step, hmem, Option.bind_some]
  exact hstart _

/-- Each step is matched by `memide`'s calls for what it shows. -/
theorem Inv.sim {e : IdeEvent} (hs : s.Inv) (hd : ∀ b, (s.buf b).OnDisk1) (h : s.step e = some (t, os)) :
    Transition.runFn memStep s.abs os = some t.abs := by
  cases e with
  | acquire p b =>
    obtain ⟨-, -, rfl, rfl⟩ := step_acquire h
    rfl
  | release p b =>
    obtain ⟨-, -, rfl, rfl⟩ := step_release h
    rfl
  | fill p b nb =>
    obtain ⟨-, -, rfl, rfl⟩ := step_fill h
    rfl
  | iderw p b =>
    -- the disks and the buffers are unchanged; what it shows is nothing to `memide`
    obtain ⟨-, -, -, hdisk, hbuf, -, -, -, hstart⟩ := step_iderw h
    have habs : t.abs = s.abs := by simp only [abs, hdisk, hbuf]
    rw [habs]
    rcases hstart with ⟨-, -, rfl⟩ | ⟨-, -, rfl⟩ <;> rfl
  | intr => exact hs.sim_intr hd h
  | resume p =>
    obtain ⟨-, -, rfl, rfl⟩ := step_resume h
    rfl

/-- The buffers stay on disk 1 when every fill puts them there. -/
theorem Inv.onDisk1_step {e : IdeEvent} (hs : s.Inv) (hd : ∀ b, (s.buf b).OnDisk1) (he : e.OnDisk1)
    (h : s.step e = some (t, os)) : ∀ b, (t.buf b).OnDisk1 := by
  cases e with
  | acquire p b =>
    obtain ⟨-, -, rfl, -⟩ := step_acquire h
    exact hd
  | release p b =>
    obtain ⟨-, -, rfl, -⟩ := step_release h
    exact hd
  | fill p b nb =>
    obtain ⟨-, -, rfl, -⟩ := step_fill h
    intro b'
    show (Function.update s.buf b nb b').OnDisk1
    rw [Function.update_apply]
    split_ifs
    exacts [he, hd b']
  | iderw p b =>
    obtain ⟨-, -, -, -, hbuf, -⟩ := step_iderw h
    rw [hbuf]
    exact hd
  | intr =>
    -- the completion writes the data and the flags, not the device or the block
    obtain ⟨b, rest, hq⟩ := hs.intr_queue h
    obtain ⟨c, -, -, hbuf, -⟩ := step_intr hq h
    intro b'
    rw [hbuf]
    rcases eq_or_ne b' b with rfl | hbb
    · rw [Function.update_self]
      exact hd b'
    · rw [Function.update_of_ne hbb]
      exact hd b'
  | resume p =>
    obtain ⟨-, -, -, rfl⟩ := step_resume h
    exact hd

/-- A run from a state with the invariant and its buffers on disk 1, filling buffers
only on disk 1, is `memide`'s run of what it shows. -/
theorem run_refines {s₀ s : Ide} {es : List IdeEvent} (h₀ : s₀.Inv) (hbuf : ∀ b, (s₀.buf b).OnDisk1)
    (hes : ∀ e ∈ es, e.OnDisk1) (h : s₀.run es = some (s, os)) :
    Transition.runFn memStep s₀.abs os = some s.abs := by
  have hinv : ∀ (s : Ide) (e : IdeEvent) (t : Ide) (os : List IdeObs), e.OnDisk1 →
      (s.Inv ∧ ∀ b, (s.buf b).OnDisk1) → s.step e = some (t, os) → t.Inv ∧ ∀ b, (t.buf b).OnDisk1 :=
    fun _ _ _ _ he hs h => ⟨hs.1.step h, hs.1.onDisk1_step hs.2 he h⟩
  have hsim : ∀ (s : Ide) (e : IdeEvent) (t : Ide) (os : List IdeObs), e.OnDisk1 →
      (s.Inv ∧ ∀ b, (s.buf b).OnDisk1) → s.step e = some (t, os) →
        Transition.runFn memStep s.abs os = some t.abs :=
    fun _ _ _ _ _ hs h => hs.1.sim hs.2 h
  exact Transition.runOut_refines hinv hsim hes ⟨h₀, hbuf⟩ h

end Refinement

/-! ### Behind the buffer cache -/

section Cache

variable {s t : Ide} {os : List IdeObs} {p : Fin nproc}

theorem Unique.of_ids (hu : s.Unique) (hd : ∀ b, (t.buf b).dev = (s.buf b).dev)
    (hb : ∀ b, (t.buf b).blockno = (s.buf b).blockno) : t.Unique := by
  intro b b' h₁ h₂ he
  rw [hd] at h₁ h₂
  rw [hb, hb] at he
  exact hu b b' h₁ h₂ he

theorem Quiet.syncedHolds (h : s.Quiet) : s.SyncedHolds := fun p b hw => by
  simp [h.idle p] at hw

/-- A step the cache lets through keeps one buffer a block. -/
theorem Inv.unique_step {e : IdeEvent} (hs : s.Inv) (hu : s.Unique) (hg : s.FillApart e)
    (h : s.step e = some (t, os)) : t.Unique := by
  cases e with
  | acquire p b =>
    obtain ⟨-, -, rfl, -⟩ := step_acquire h
    exact hu
  | release p b =>
    obtain ⟨-, -, rfl, -⟩ := step_release h
    exact hu
  | fill p b nb =>
    -- the one step that gives a buffer a block, apart from the others by the guard
    obtain ⟨-, -, rfl, -⟩ := step_fill h
    intro b₁ b₂ h₁ h₂ he
    simp only [Function.update_apply] at h₁ h₂ he
    split_ifs at h₁ h₂ he with e₁ e₂ e₂
    · exact e₁.trans e₂.symm
    · exact absurd he.symm (hg b₂ e₂ h₂ h₁)
    · exact absurd he (hg b₁ e₁ h₁ h₂)
    · exact hu b₁ b₂ h₁ h₂ he
  | iderw p b =>
    obtain ⟨-, -, -, -, hbuf, -⟩ := step_iderw h
    exact hu.of_ids (fun b => by rw [hbuf]) (fun b => by rw [hbuf])
  | intr =>
    -- a completion writes a buffer's data and flags, not its block
    obtain ⟨b, rest, hq⟩ := hs.intr_queue h
    obtain ⟨c, -, -, hbuf, -⟩ := step_intr hq h
    refine hu.of_ids (fun b' => ?_) (fun b' => ?_) <;>
      rw [hbuf, Function.update_apply] <;> split_ifs with hb <;> simp [hb]
  | resume p =>
    obtain ⟨-, -, -, rfl⟩ := step_resume h
    exact hu

/-- The interrupt leaves a synced buffer its sector: the completed one is written to
its sector or read from it, and another's block is not the command's sector. -/
theorem Inv.syncedHolds_intr (hs : s.Inv) (hu : s.Unique) (hd : ∀ b, (s.buf b).OnDisk1)
    (hsy : s.SyncedHolds) (h : s.step .intr = some (t, os)) : t.SyncedHolds := by
  obtain ⟨b, rest, hq⟩ := hs.intr_queue h
  obtain ⟨c, hc, hdisk, hbuf, -, -, hpc, -, -⟩ := step_intr hq h
  have hcb : c = cmdOf (s.buf b) := by
    rw [hs.cmd, hq] at hc
    exact (Option.some.inj hc).symm
  obtain ⟨hdev, -⟩ := hd b
  intro p' b' hw hsync
  simp only [hpc, IdePc.waitsOn_wake] at hw
  rw [hbuf] at hsync
  rw [hdisk, hbuf, finishCmd_disk, hcb]
  by_cases hbb : b' = b
  · subst hbb
    simp only [Function.update_self, cmdOf, hdev]
    by_cases hdirty : (s.buf b').flags.dirty = true <;> simp [hdirty, bsize, sectorSize]
  · rw [Function.update_of_ne hbb] at hsync ⊢
    have hne : (s.buf b').blockno ≠ (s.buf b).blockno := fun he => hbb (hu b' b (hd b').1 hdev he)
    by_cases hdirty : (s.buf b).flags.dirty = true <;>
      simp [cmdOf, hdirty, hdev, bsize, sectorSize, hne, hsy p' b' hw hsync]

/-- Every step keeps a synced buffer a process waits on equal to its sector. -/
theorem Inv.syncedHolds_step {e : IdeEvent} (hs : s.Inv) (hu : s.Unique) (hd : ∀ b, (s.buf b).OnDisk1)
    (hsy : s.SyncedHolds) (h : s.step e = some (t, os)) : t.SyncedHolds := by
  cases e with
  | acquire p b =>
    obtain ⟨-, -, rfl, -⟩ := step_acquire h
    exact hsy
  | release p b =>
    obtain ⟨-, -, rfl, -⟩ := step_release h
    exact hsy
  | fill p b nb =>
    -- the filled buffer's holder is outside `iderw`, so no process waits on it
    obtain ⟨hp, hh, rfl, -⟩ := step_fill h
    intro p' b' hw hsync
    have hne := hs.ne_of_waiting hp hh hw
    change (Function.update s.buf b nb b').flags.synced = true at hsync
    show s.disk true (Function.update s.buf b nb b').blockno = (Function.update s.buf b nb b').data
    rw [Function.update_of_ne hne] at hsync ⊢
    exact hsy p' b' hw hsync
  | iderw p b =>
    -- the caller waits on a buffer that is not synced
    obtain ⟨-, -, hns, hdisk, hbuf, -, -, hpc, -⟩ := step_iderw h
    intro p' b' hw hsync
    rw [hbuf] at hsync ⊢
    rw [hdisk]
    rw [hpc] at hw
    by_cases hpp : p' = p
    · subst hpp
      obtain rfl : b = b' := by simpa using hw
      rw [hns] at hsync
      cases hsync
    · rw [Function.update_of_ne hpp] at hw
      exact hsy p' b' hw hsync
  | intr => exact hs.syncedHolds_intr hu hd hsy h
  | resume p =>
    -- a process that returns waits on nothing, and one that sleeps again on its buffer
    obtain ⟨b, hawake, -, rfl⟩ := step_resume h
    intro p' b' hw hsync
    refine hsy p' b' ?_ hsync
    change (Function.update s.pc p _ p').waitsOn = some b' at hw
    by_cases hpp : p' = p
    · subst hpp
      rw [Function.update_self] at hw
      split_ifs at hw
      · simp at hw
      · obtain rfl : b = b' := by simpa using hw
        rw [hawake]
        rfl
    · rwa [Function.update_of_ne hpp] at hw

/-- What a run behind the cache keeps. -/
structure CachedInv (s : Ide) : Prop where
  inv : s.Inv
  onDisk1 : ∀ b, (s.buf b).OnDisk1
  unique : s.Unique
  synced : s.SyncedHolds

theorem CachedInv.step {e : IdeEvent} (hs : s.CachedInv) (he : e.OnDisk1) (h : s.cachedStep e = some (t, os)) :
    t.CachedInv := by
  obtain ⟨hg, h⟩ := cachedStep_some h
  exact ⟨hs.inv.step h, hs.inv.onDisk1_step hs.onDisk1 he h, hs.inv.unique_step hs.unique hg h,
    hs.inv.syncedHolds_step hs.unique hs.onDisk1 hs.synced h⟩

/-- Behind the cache, `iderw` returns with its buffer and its sector equal. -/
theorem CachedInv.returns (hs : s.CachedInv) (h : s.step (.resume p) = some (t, os)) (hidle : t.pc p = .idle) :
    ∃ b, s.pc p = .awake b ∧ b ∉ s.idequeue ∧ (s.buf b).flags = ⟨true, false⟩ ∧
      s.disk true (s.buf b).blockno = (s.buf b).data := by
  obtain ⟨b, hawake, hq, hfl⟩ := hs.inv.returns h hidle
  exact ⟨b, hawake, hq, hfl, hs.synced p b (by rw [hawake]; rfl) ((BufFlags.synced_iff _).mpr hfl)⟩

end Cache

/-! ### The driver serves its callers as `memide` does -/

/-- What a run from a quiet state shows of the driver. -/
structure Serves (s₀ : Ide) (os : List IdeObs) (s : Ide) : Prop where
  /-- Requests finish in the order they were appended, each once; the rest are queued. -/
  fifo : os.flatMap IdeObs.appended = os.flatMap IdeObs.finished ++ s.idequeue
  /-- Each request is started once, when it reaches the head of the queue. -/
  started : os.flatMap IdeObs.started = os.flatMap IdeObs.finished ++ s.idequeue.take 1
  /-- The controller executes the command of the head and no other. -/
  in_flight : s.cmd = s.idequeue.head?.map fun b => cmdOf (s.buf b)
  nodup : s.idequeue.Nodup
  /-- A process in `iderw` holds its buffer, which is queued exactly while it is not synced. -/
  waiting : ∀ p b, (s.pc p).waitsOn = some b →
    s.holder b = some p ∧ (b ∈ s.idequeue ↔ (s.buf b).flags.synced = false)
  /-- `iderw` returns only once its own request has finished, with `B_VALID` set,
  `B_DIRTY` clear, and its buffer and its sector of disk 1 equal. -/
  returns : ∀ p t os', s.step (.resume p) = some (t, os') → t.pc p = .idle →
    ∃ b, s.pc p = .awake b ∧ b ∉ s.idequeue ∧ (s.buf b).flags = ⟨true, false⟩ ∧
      s.disk true (s.buf b).blockno = (s.buf b).data
  /-- The disk and the buffers are what `memide` computes from the fills and, at each
  completion, the `iderw` of the completed buffer. -/
  refines : Transition.runFn (Memide.step fssize) s₀.abs (os.filterMap IdeObs.mem) = some s.abs

theorem ide_refines_memide {s₀ s : Ide} {es : List IdeEvent} {os : List IdeObs} (h₀ : s₀.Quiet) (hu : s₀.Unique)
    (hbuf : ∀ b, (s₀.buf b).OnDisk1) (hes : ∀ e ∈ es, e.OnDisk1) (hc : s₀.cachedRun es = some (s, os)) :
    Serves s₀ os s := by
  have hs : s.CachedInv := Transition.runOut_invariant_of (fun _ _ _ _ he hs h => hs.step he h) hes
    ⟨h₀.inv, hbuf, hu, h₀.syncedHolds⟩ hc
  -- the queue and `memide`'s view hold of every run of the driver
  have h := cachedRun_run hc
  have hstep : ∀ (s : Ide) (e : IdeEvent) (t : Ide) (os : List IdeObs), s.Inv → s.step e = some (t, os) → t.Inv :=
    fun _ _ _ _ hs h => hs.step h
  have hfifo : s₀.idequeue ++ os.flatMap IdeObs.appended = os.flatMap IdeObs.finished ++ s.idequeue :=
    Transition.runOut_conserve hstep (fun _ _ _ _ hs h => (hs.step_queue h).1) h₀.inv h
  have hstarted : s₀.idequeue.take 1 ++ os.flatMap IdeObs.started =
      os.flatMap IdeObs.finished ++ s.idequeue.take 1 :=
    Transition.runOut_conserve hstep (fun _ _ _ _ hs h => (hs.step_queue h).2) h₀.inv h
  rw [h₀.queue, List.nil_append] at hfifo
  rw [h₀.queue, List.take_nil, List.nil_append] at hstarted
  refine ⟨hfifo, hstarted, hs.inv.cmd, hs.inv.nodup, hs.inv.waiting, fun p t os' ht hidle => hs.returns ht hidle, ?_⟩
  rw [← Transition.runFn_filterMap]
  exact run_refines h₀.inv hbuf hes h

instance : DecidablePred IdeEvent.OnDisk1 := fun e => by
  cases e <;> unfold IdeEvent.OnDisk1 <;> infer_instance

/-- Both disks zero, no request, and buffer `b` an empty one for block `b` of disk 1. -/
def quietState : Ide where
  disk := fun _ _ _ => 0
  havedisk1 := true
  buf := fun b => ⟨⟨false, false⟩, 1, b.val, fun _ => 0⟩
  holder := fun _ => none
  idequeue := []
  cmd := none
  pc := fun _ => .idle

theorem quietState_quiet : quietState.Quiet := ⟨rfl, rfl, fun _ => rfl⟩

theorem quietState_unique : quietState.Unique := fun _ _ _ _ he => Fin.ext he

theorem quietState_onDisk1 (b : Fin nbuf) : (quietState.buf b).OnDisk1 :=
  ⟨rfl, lt_trans b.isLt (show nbuf < fssize by decide)⟩

/-- Process 0 writes block 0 through buffer 0, and the interrupt completes it. -/
def oneWrite : List IdeEvent :=
  [.acquire ⟨0, Nat.succ_pos _⟩ ⟨0, Nat.succ_pos _⟩,
    .fill ⟨0, Nat.succ_pos _⟩ ⟨0, Nat.succ_pos _⟩ ⟨⟨true, true⟩, 1, 0, fun _ => 1⟩,
    .iderw ⟨0, Nat.succ_pos _⟩ ⟨0, Nat.succ_pos _⟩, .intr]

theorem ide_refines_memide_oneWrite :
    ∃ s os, quietState.cachedRun oneWrite = some (s, os) ∧ Serves quietState os s ∧
      ∃ t, s.step (.resume ⟨0, Nat.succ_pos _⟩) = some (t, []) ∧ t.pc ⟨0, Nat.succ_pos _⟩ = .idle := by
  have hobs : (quietState.cachedRun oneWrite).map
      (fun r => (r.1.resume ⟨0, Nat.succ_pos _⟩).map (·.pc ⟨0, Nat.succ_pos _⟩)) = some (some .idle) := by
    decide
  obtain ⟨⟨s, os⟩, h, hr⟩ := Option.map_eq_some_iff.mp hobs
  obtain ⟨t, ht, hpc⟩ := Option.map_eq_some_iff.mp hr
  refine ⟨s, os, h, ide_refines_memide quietState_quiet quietState_unique quietState_onDisk1 (by decide) h,
    t, ?_, hpc⟩
  show (s.resume _).map (·, []) = _
  rw [ht]
  rfl

end Ide

end Xv6
