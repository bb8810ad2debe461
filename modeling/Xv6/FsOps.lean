import Xv6.Filewrite
import Xv6.Itrunc

/-!
# Writes and truncations over a file system

The file system seen as a state machine: the disk and the inodes, and one step for
each `writei` or `itrunc` call on any inode, made whole under that inode's lock.
Over every run from a sound file system it stays sound, an inode no call is on
keeps its blocks and content, and no block leaks: every block in use is a block
the file system reserves or one that an inode holds.

## Main definitions

* `FsOp`, `fsStep` — an operation on one inode, and what it does.
* `Accounted` — every block in use below `sb.size` is reserved or held.

## Main results

* `fs_ops_sound` — soundness and the frame over every run.
* `fs_ops_accounted` — **no block leaks** over every run.
-/

namespace Xv6

/-! ### The blocks `writei` puts in use -/

section Bitmap

variable {sb : Superblock} {ip ip₁ ip' : InodeData} {d d₁ d' : Disk} {bn : ℕ}

/-- `bmap` drops no block of the file. -/
theorem InodeData.BmapStep.holds (st : InodeData.BmapStep sb ip d bn ip₁ d₁) {y : ℕ} (h : ip.Holds d y) :
    ip₁.Holds d₁ y := by
  obtain ⟨hy0, ⟨bn', rfl⟩ | hind⟩ := h
  · refine ⟨hy0, .inl ⟨bn', ?_⟩⟩
    by_cases hb : bn' = bn
    · subst hb
      exact st.keep hy0
    · exact st.other bn' hb
  · rcases st.ind with ⟨he, -⟩ | ⟨h0, -⟩
    · exact ⟨hy0, .inr (he.trans hind)⟩
    · exact absurd (hind.symm.trans h0) hy0

/-- A block `bmap` puts in use is the one it returns or the file's new indirect
block. -/
theorem bmap_used_cases (hs : ip.Sound sb d) {b : ℕ} (h : bmap sb d ip bn = some (b, d₁, ip₁)) {y : ℕ}
    (hy : y < sb.size) (hu : sb.used d₁ y = true) :
    sb.used d y = true ∨ y = b ∨ y = ip₁.addrs InodeData.indSlot ∧ y ≠ 0 := by
  have hx0 : ∀ {x}, sb.used d x = false → x ≠ 0 := fun hf he => by
    rw [he, hs.valid.zero] at hf
    cases hf
  by_cases hd : bn < ndirect
  · rw [bmap, dif_pos hd] at h
    by_cases h0 : ip.addrs (Fin.castSucc ⟨bn, hd⟩) = 0
    · -- a direct block allocated
      rw [if_pos h0] at h
      obtain ⟨⟨x, d₂⟩, hb, he⟩ := Option.map_eq_some_iff.mp h
      obtain ⟨hx, hf, rfl⟩ := Superblock.balloc_some hb
      simp only [Prod.mk.injEq] at he
      obtain ⟨rfl, rfl, -⟩ := he
      rw [Superblock.used_alloc hs.valid hx hf hy, Bool.or_eq_true, beq_iff_eq] at hu
      exact hu.imp_right .inl
    · rw [if_neg h0] at h
      cases h
      exact .inl hu
  rw [bmap, dif_neg hd] at h
  by_cases hlt : bn - ndirect < nindirect
  swap
  · rw [if_neg hlt] at h
    cases h
  rw [if_pos hlt] at h
  by_cases hind : ip.addrs InodeData.indSlot = 0
  · -- the indirect block allocated, then the data block
    rw [if_pos hind] at h
    obtain ⟨r, hr, h⟩ := Option.bind_eq_some_iff.mp h
    obtain ⟨⟨x₁, d₂⟩, hb₁, rfl⟩ := Option.map_eq_some_iff.mp hr
    obtain ⟨hx₁, hf₁, rfl⟩ := Superblock.balloc_some hb₁
    simp only [Superblock.alloc_self, Block.getU32_zero, if_true] at h
    obtain ⟨⟨x₂, d₃⟩, hb₂, he⟩ := Option.map_eq_some_iff.mp h
    obtain ⟨hx₂, hf₂, rfl⟩ := Superblock.balloc_some hb₂
    simp only [Prod.mk.injEq] at he
    obtain ⟨rfl, rfl, rfl⟩ := he
    have hv₁ := Superblock.valid_alloc hs.valid hx₁ hf₁
    have ho₁ := (Superblock.owned_alloc_self hs.valid hx₁ hf₁).alloc hv₁ hx₂ hf₂
    rw [Superblock.used_update ho₁ hy, Superblock.used_alloc hv₁ hx₂ hf₂ hy,
      Superblock.used_alloc hs.valid hx₁ hf₁ hy, Bool.or_eq_true, Bool.or_eq_true, beq_iff_eq, beq_iff_eq] at hu
    rcases hu with (hu | rfl) | rfl
    · exact .inl hu
    · exact .inr (.inr ⟨by rw [InodeData.setAddr_addrs_self], hx0 hf₁⟩)
    · exact .inr (.inl rfl)
  · rw [if_neg hind, Option.bind_some] at h
    by_cases he0 : (d (ip.addrs InodeData.indSlot)).getU32 (4 * (bn - ndirect)) = 0
    · -- an entry of the indirect block allocated
      rw [if_pos he0] at h
      obtain ⟨⟨x, d₂⟩, hb, he⟩ := Option.map_eq_some_iff.mp h
      obtain ⟨hx, hf, rfl⟩ := Superblock.balloc_some hb
      simp only [Prod.mk.injEq] at he
      obtain ⟨rfl, rfl, rfl⟩ := he
      rw [Superblock.used_update ((hs.ind hind).alloc hs.valid hx hf) hy, Superblock.used_alloc hs.valid hx hf hy,
        Bool.or_eq_true, beq_iff_eq] at hu
      exact hu.imp_right .inl
    · rw [if_neg he0] at h
      cases h
      exact .inl hu

/-- A block `bmap` puts in use is one the file holds after it. -/
theorem bmap_used (hs : ip.Sound sb d) {b : ℕ} (h : bmap sb d ip bn = some (b, d₁, ip₁)) {y : ℕ}
    (hy : y < sb.size) (hu : sb.used d₁ y = true) : sb.used d y = true ∨ ip₁.Holds d₁ y := by
  obtain ⟨ip₂, d₂, he, st, -⟩ := bmap_some hs h
  simp only [Prod.mk.injEq] at he
  obtain ⟨rfl, rfl, rfl⟩ := he
  rcases bmap_used_cases hs h hy hu with hu | rfl | ⟨rfl, h0⟩
  · exact .inl hu
  · exact .inr ⟨st.mapped, .inl ⟨bn, rfl⟩⟩
  · exact .inr ⟨h0, .inr rfl⟩

/-- A store to a data block of the file keeps its blocks. -/
theorem holds_update_data (hs : ip.Sound sb d) (h : ip.blockOf d bn ≠ 0) (b : Block) (y : ℕ) :
    ip.Holds (Function.update d (ip.blockOf d bn) b) y ↔ ip.Holds d y := by
  unfold InodeData.Holds
  simp only [blockOf_update_data hs h b]

/-- The write loop drops no block of the file, and puts in use only blocks the file
holds after it. -/
theorem writeLoop_used {src : ℕ → UInt8} {n : ℕ} :
    ∀ (fuel tot off : ℕ) (d : Disk) (ip : InodeData) {d' : Disk} {ip' : InodeData} {off' : ℕ},
      writeLoop sb src n fuel d ip tot off = some (d', ip', off') → ip.Sound sb d →
      (∀ y, ip.Holds d y → ip'.Holds d' y) ∧
        ∀ y < sb.size, sb.used d' y = true → sb.used d y = true ∨ ip'.Holds d' y := by
  intro fuel
  -- induction on the turns left, as for `writeLoop_some`
  induction fuel with
  | zero => intro _ _ _ _ _ _ _ h; cases h
  | succ fuel ih =>
    intro tot off d ip d' ip' off' h hs
    by_cases hlt : tot < n
    · rw [writeLoop, if_pos hlt] at h
      obtain ⟨r, hbm, h⟩ := Option.bind_eq_some_iff.mp h
      obtain ⟨ip₁, d₁, rfl, st, -⟩ := bmap_some hs hbm
      dsimp only at h
      obtain ⟨hgrow, hused⟩ := ih _ _ _ ip₁ h (st.sound.update_data st.mapped _)
      -- the store into the block leaves every bit and every block of the file
      have hkeep := holds_update_data st.sound st.mapped
        ((d₁ (ip₁.blockOf d₁ (off / bsize))).moveIn (off % bsize) (chunk n tot off) fun j => src (tot + j))
      refine ⟨fun y hy => hgrow y ((hkeep y).mpr (st.holds hy)), fun y hy hu => ?_⟩
      rcases hused y hy hu with h₂ | h₂
      · rw [Superblock.used_update (st.sound.data _ st.mapped) hy] at h₂
        exact (bmap_used hs hbm hy h₂).imp_right fun h₃ => hgrow y ((hkeep y).mpr h₃)
      · exact .inr h₂
    · rw [writeLoop, if_neg hlt] at h
      cases h
      exact ⟨fun _ h => h, fun _ _ h => .inl h⟩

/-- `writei` drops no block of the file, and puts in use only blocks the file holds
after it. -/
theorem writei_used (hs : ip.Sound sb d) {src : ℕ → UInt8} {off n : ℕ} {r : ℤ}
    (h : writei sb d ip src off n = some (r, d', ip')) :
    (∀ y, ip.Holds d y → ip'.Holds d' y) ∧
      ∀ y < sb.size, sb.used d' y = true → sb.used d y = true ∨ ip'.Holds d' y := by
  unfold writei at h
  split_ifs at h with hbad hmax
  · cases h
    exact ⟨fun _ h => h, fun _ _ h => .inl h⟩
  · cases h
    exact ⟨fun _ h => h, fun _ _ h => .inl h⟩
  · obtain ⟨⟨d₁, ip₁, off₁⟩, hw, he⟩ := Option.map_eq_some_iff.mp h
    simp only [Prod.mk.injEq] at he
    obtain ⟨-, rfl, rfl⟩ := he
    obtain ⟨hgrow, hused⟩ := writeLoop_used _ _ _ _ _ hw hs
    -- the new size changes no block
    split_ifs
    · exact ⟨hgrow, hused⟩
    · exact ⟨hgrow, hused⟩

end Bitmap

/-- An operation on one inode, made under its lock: `writei(ip, src, off, n)` or
`itrunc(ip)`. -/
inductive FsOp
  | write (a : ℕ) (src : ℕ → UInt8) (off n : ℕ)
  | trunc (a : ℕ)

/-- The inode an operation is on. -/
def FsOp.ino : FsOp → ℕ
  | .write a _ _ _ => a
  | .trunc a => a

/-- One operation on the disk and the inodes; `none` at a panic. -/
def fsStep (sb : Superblock) (s : Disk × (ℕ → InodeData)) : FsOp → Option (Disk × (ℕ → InodeData))
  | .write a src off n => (writei sb s.1 (s.2 a) src off n).map fun r => (r.2.1, Function.update s.2 a r.2.2)
  | .trunc a => (sb.itrunc s.1 (s.2 a)).map fun r => (r.1, Function.update s.2 a r.2)

/-- No block leaks: every block in use below `sb.size` is one the file system
reserves (`R`: the boot block, the superblock, the log, the inodes and the bitmap)
or one an inode holds. -/
def Accounted (sb : Superblock) (R : ℕ → Prop) (d : Disk) (inodes : ℕ → InodeData) : Prop :=
  ∀ y < sb.size, sb.used d y = true → R y ∨ ∃ a, (inodes a).Holds d y

section Fs

variable {sb : Superblock} {d d' : Disk} {inodes : ℕ → InodeData}

/-- Freeing the blocks of inode `a` leaves every other inode alone. -/
theorem FsSound.leaves_of_freed (hfs : FsSound sb d inodes) {a b : ℕ} (hf : sb.Freed d ((inodes a).blocks d) d')
    (hb : b ≠ a) : (inodes b).Leaves sb d d' :=
  hf.leaves (hfs.sound b) fun y hy hyb => hfs.apart a b (Ne.symm hb) y (InodeData.mem_blocks.mp hyb) hy

/-- `writei` on inode `a` leaves every other inode alone. -/
theorem FsSound.writei_leaves (hfs : FsSound sb d inodes) {a : ℕ} {src : ℕ → UInt8} {off n : ℕ} {r : ℤ}
    {ip' : InodeData} (h : Xv6.writei sb d (inodes a) src off n = some (r, d', ip')) {b : ℕ} (hb : b ≠ a) :
    (inodes b).Leaves sb d d' := by
  rcases writei_some (hfs.sound a) (hfs.filled a) h with ⟨-, rfl, -⟩ | ⟨-, -, -, -, -, -, -, hleaves⟩
  · exact ⟨fun _ _ => rfl, hfs.sound b⟩
  · exact (hleaves _ (hfs.sound b) (hfs.apart a b (Ne.symm hb))).1

/-- `itrunc` on inode `a` keeps the file system sound, with `a` empty, and every
other inode's content. -/
theorem FsSound.itrunc (hfs : FsSound sb d inodes) {a : ℕ} (hf : sb.Freed d ((inodes a).blocks d) d') :
    FsSound sb d' (Function.update inodes a InodeData.empty) ∧
      ∀ b, b ≠ a → (inodes b).content d' = (inodes b).content d := by
  have hl : ∀ b, b ≠ a → (inodes b).Leaves sb d d' := fun b hb => hfs.leaves_of_freed hf hb
  refine ⟨⟨fun b => ?_, fun b => ?_, fun b c hbc => ?_⟩, fun b hb => (hl b hb).content (hfs.filled b)⟩
  · by_cases hb : b = a
    · rw [hb, Function.update_self]
      exact InodeData.Sound.empty hf.valid
    · rw [Function.update_of_ne hb]
      exact (hl b hb).sound
  · by_cases hb : b = a
    · rw [hb, Function.update_self]
      exact fun i hi => absurd hi (Nat.not_lt_zero i)
    · rw [Function.update_of_ne hb]
      exact (hl b hb).filled (hfs.filled b)
  · by_cases hb : b = a
    · rw [hb, Function.update_self]
      exact fun y h _ => InodeData.not_holds_empty h
    by_cases hc : c = a
    · rw [hc, Function.update_self]
      exact fun y _ h => InodeData.not_holds_empty h
    -- two other inodes hold the blocks they held
    rw [Function.update_of_ne hb, Function.update_of_ne hc]
    intro y h₁ h₂
    exact hfs.apart b c hbc y (((hl b hb).holds_iff y).mp h₁) (((hl c hc).holds_iff y).mp h₂)

/-- A truncation of a sound file system never panics: it frees the inode's blocks
and empties it. -/
theorem FsSound.fsStep_trunc {s t : Disk × (ℕ → InodeData)} (hfs : FsSound sb s.1 s.2) {a : ℕ}
    (h : fsStep sb s (.trunc a) = some t) :
    sb.Freed s.1 ((s.2 a).blocks s.1) t.1 ∧ t.2 = Function.update s.2 a InodeData.empty := by
  obtain ⟨d', hrun, hf⟩ := Superblock.itrunc_freed (hfs.sound a)
  rw [fsStep, hrun, Option.map_some, Option.some_inj] at h
  subst h
  exact ⟨hf, rfl⟩

/-- One operation keeps the file system sound, and leaves every other inode and its
content as they were. -/
theorem FsSound.step {s t : Disk × (ℕ → InodeData)} (hfs : FsSound sb s.1 s.2) {e : FsOp}
    (h : fsStep sb s e = some t) :
    FsSound sb t.1 t.2 ∧ ∀ b, b ≠ e.ino → t.2 b = s.2 b ∧ (s.2 b).content t.1 = (s.2 b).content s.1 := by
  cases e with
  | write a src off n =>
    obtain ⟨⟨r, d', ip'⟩, hw, rfl⟩ := Option.map_eq_some_iff.mp h
    obtain ⟨hfs', hc⟩ := hfs.writei hw
    exact ⟨hfs', fun b hb => ⟨Function.update_of_ne hb _ _, hc b hb⟩⟩
  | trunc a =>
    obtain ⟨hf, ht⟩ := hfs.fsStep_trunc h
    obtain ⟨hfs', hc⟩ := hfs.itrunc hf
    rw [ht]
    exact ⟨hfs', fun b hb => ⟨Function.update_of_ne hb _ _, hc b hb⟩⟩

/-- **Writes and truncations.**  Any sequence of `writei` and `itrunc` calls on any
inodes of a sound file system keeps it sound: every inode sound and without holes,
and no two sharing a block.  An inode no call is on keeps its blocks and its
content. -/
theorem fs_ops_sound {s t : Disk × (ℕ → InodeData)} {es : List FsOp} (hfs : FsSound sb s.1 s.2)
    (h : Transition.runFn (fsStep sb) s es = some t) :
    FsSound sb t.1 t.2 ∧
      ∀ b, (∀ e ∈ es, e.ino ≠ b) → t.2 b = s.2 b ∧ (s.2 b).content t.1 = (s.2 b).content s.1 := by
  -- induction on the run, one operation at a time from the first
  induction es generalizing s with
  | nil =>
    cases h
    exact ⟨hfs, fun _ _ => ⟨rfl, rfl⟩⟩
  | cons e es ih =>
    obtain ⟨u, hu, hrest⟩ := Option.bind_eq_some_iff.mp h
    obtain ⟨hfs₁, hkeep₁⟩ := hfs.step hu
    obtain ⟨hfs₂, hkeep₂⟩ := ih hfs₁ hrest
    refine ⟨hfs₂, fun b hb => ?_⟩
    obtain ⟨hi₁, hc₁⟩ := hkeep₁ b (Ne.symm (hb e List.mem_cons_self))
    obtain ⟨hi₂, hc₂⟩ := hkeep₂ b fun e' he' => hb e' (List.mem_cons_of_mem _ he')
    rw [hi₁] at hi₂ hc₂
    exact ⟨hi₂, hc₂.trans hc₁⟩

/-- A fresh file written, truncated and written again, beside a file no call is on. -/
theorem fs_ops_sound_rewrite :
    ∃ t, Transition.runFn (fsStep ⟨4, 1, by decide⟩)
        (Function.update (fun _ => Block.zero) 1 ((Block.zero.setBit 0).setBit 1), fun _ => InodeData.empty)
        [.write 0 (fun _ => 5) 0 2, .trunc 0, .write 0 (fun _ => 6) 0 1] = some t ∧
      FsSound ⟨4, 1, by decide⟩ t.1 t.2 ∧ t.2 1 = InodeData.empty := by
  obtain ⟨t, ht⟩ := Option.isSome_iff_exists.mp (show (Transition.runFn (fsStep ⟨4, 1, by decide⟩)
      (Function.update (fun _ => Block.zero) 1 ((Block.zero.setBit 0).setBit 1), fun _ => InodeData.empty)
      [.write 0 (fun _ => 5) 0 2, .trunc 0, .write 0 (fun _ => 6) 0 1]).isSome = true by decide)
  obtain ⟨hfs, hkeep⟩ := fs_ops_sound (FsSound.empty ⟨by decide, by decide⟩) ht
  exact ⟨t, ht, hfs, (hkeep 1 (by decide)).1⟩

/-! ### No block leaks -/

section Accounted

variable {R : ℕ → Prop}

/-- A block `writei` leaves in use was in use and held before, or is the written
inode's. -/
theorem Accounted.writei (hfs : FsSound sb d inodes) (hacc : Accounted sb R d inodes) {a : ℕ}
    {src : ℕ → UInt8} {off n : ℕ} {r : ℤ} {ip' : InodeData}
    (h : Xv6.writei sb d (inodes a) src off n = some (r, d', ip')) :
    Accounted sb R d' (Function.update inodes a ip') := by
  obtain ⟨hgrow, hused⟩ := writei_used (hfs.sound a) h
  intro y hy hu
  rcases hused y hy hu with h₁ | h₁
  · -- in use before: reserved, or held by an inode that still holds it
    refine (hacc y hy h₁).imp_right fun ⟨b, hb⟩ => ⟨b, ?_⟩
    by_cases hba : b = a
    · subst hba
      rw [Function.update_self]
      exact hgrow y hb
    · rw [Function.update_of_ne hba]
      exact ((hfs.writei_leaves h hba).holds_iff y).mpr hb
  · exact .inr ⟨a, by rw [Function.update_self]; exact h₁⟩

/-- A block `itrunc` leaves in use was in use and is not the truncated inode's, so
another inode, left alone, still holds it. -/
theorem Accounted.itrunc (hfs : FsSound sb d inodes) (hacc : Accounted sb R d inodes) {a : ℕ}
    (hf : sb.Freed d ((inodes a).blocks d) d') :
    Accounted sb R d' (Function.update inodes a InodeData.empty) := by
  intro y hy hu
  obtain ⟨hu₀, hy₀⟩ := (hf.used y).mp hu
  refine (hacc y hy hu₀).imp_right fun ⟨b, hb⟩ => ⟨b, ?_⟩
  have hba : b ≠ a := by
    rintro rfl
    exact hy₀ (InodeData.mem_blocks.mpr hb)
  rw [Function.update_of_ne hba]
  exact ((hfs.leaves_of_freed hf hba).holds_iff y).mpr hb

theorem Accounted.step {s t : Disk × (ℕ → InodeData)} (hfs : FsSound sb s.1 s.2) (hacc : Accounted sb R s.1 s.2)
    {e : FsOp} (h : fsStep sb s e = some t) : Accounted sb R t.1 t.2 := by
  cases e with
  | write a src off n =>
    obtain ⟨⟨r, d', ip'⟩, hw, rfl⟩ := Option.map_eq_some_iff.mp h
    exact hacc.writei hfs hw
  | trunc a =>
    obtain ⟨hf, ht⟩ := hfs.fsStep_trunc h
    rw [ht]
    exact hacc.itrunc hfs hf

/-- **No block leaks.**  Take a sound file system in which every block in use is
reserved (`R`) or held by an inode, and any sequence of `writei` and `itrunc` calls
on any inodes.  Afterwards a block that is not reserved is in use exactly when an
inode holds it, and then exactly one inode does: `balloc` never hands out a block a
file holds, and no block is lost. -/
theorem fs_ops_accounted {s t : Disk × (ℕ → InodeData)} {es : List FsOp} (hfs : FsSound sb s.1 s.2)
    (hacc : Accounted sb R s.1 s.2) (h : Transition.runFn (fsStep sb) s es = some t) :
    ∀ y < sb.size, ¬ R y → (sb.used t.1 y = true ↔ ∃! a, (t.2 a).Holds t.1 y) := by
  -- the invariant: sound and accounted, kept by each operation
  have hstep : ∀ s e t, (FsSound sb s.1 s.2 ∧ Accounted sb R s.1 s.2) → fsStep sb s e = some t →
      FsSound sb t.1 t.2 ∧ Accounted sb R t.1 t.2 :=
    fun _ _ _ hi hst => ⟨(hi.1.step hst).1, hi.2.step hi.1 hst⟩
  obtain ⟨hfs', hacc'⟩ := (Transition.Run.of_runFn h).invariant hstep ⟨hfs, hacc⟩
  intro y hy hR
  constructor
  · intro hu
    obtain ⟨a, ha⟩ := (hacc' y hy hu).resolve_left hR
    exact ⟨a, ha, fun b hb => by_contra fun hne => hfs'.apart b a hne y hb ha⟩
  · rintro ⟨a, ha, -⟩
    exact ((hfs'.sound a).owned ha).used

/-- The fresh file written, truncated and written again: blocks `0` and `1` are the
reserved ones. -/
theorem fs_ops_accounted_rewrite :
    ∃ t, Transition.runFn (fsStep ⟨4, 1, by decide⟩)
        (Function.update (fun _ => Block.zero) 1 ((Block.zero.setBit 0).setBit 1), fun _ => InodeData.empty)
        [.write 0 (fun _ => 5) 0 2, .trunc 0, .write 0 (fun _ => 6) 0 1] = some t ∧
      ∀ y < 4, ¬ y < 2 → (Superblock.used ⟨4, 1, by decide⟩ t.1 y = true ↔ ∃! a, (t.2 a).Holds t.1 y) := by
  obtain ⟨t, ht⟩ := Option.isSome_iff_exists.mp (show (Transition.runFn (fsStep ⟨4, 1, by decide⟩)
      (Function.update (fun _ => Block.zero) 1 ((Block.zero.setBit 0).setBit 1), fun _ => InodeData.empty)
      [.write 0 (fun _ => 5) 0 2, .trunc 0, .write 0 (fun _ => 6) 0 1]).isSome = true by decide)
  have hres : ∀ y < 4, Superblock.used ⟨4, 1, by decide⟩
      (Function.update (fun _ => Block.zero) 1 ((Block.zero.setBit 0).setBit 1)) y = true → y < 2 := by
    decide
  have hacc : Accounted ⟨4, 1, by decide⟩ (· < 2)
      (Function.update (fun _ => Block.zero) 1 ((Block.zero.setBit 0).setBit 1)) fun _ => InodeData.empty :=
    fun y hy hu => .inl (hres y hy hu)
  -- the start state given by name, so that no unification unfolds the disk
  exact ⟨t, ht, fs_ops_accounted
    (s := (Function.update (fun _ => Block.zero) 1 ((Block.zero.setBit 0).setBit 1), fun _ => InodeData.empty))
    (FsSound.empty ⟨by decide, by decide⟩) hacc ht⟩

end Accounted

end Fs

end Xv6
