import Xv6.Lib.Count
import Xv6.Namespace

/-!
# Path lookup: `namei` and `nameiparent`

`namex` (`fs.c`) resolves a path one element at a time: `skipelem` cuts the next
element, skipping runs of `/`, and copies at most `DIRSIZ` characters of it;
`dirlookup` finds the element in the directory reached so far, comparing names
with `namecmp` on their first `DIRSIZ` characters.  Along the way each directory is
locked (`ilock`), the next inode is referenced (`iget`) and the directory put back
(`iunlockput`).

This file states what `namex` computes without any of that machinery: the
components of a path are its maximal non-empty runs of characters other than `/`
(`components`, through `List.splitOn`), and `namei` walks them from the root or
the working directory (`Ns.walk`), stopping one component early for
`nameiparent` (`Ns.walkParent`).  It proves that the model of `namex` returns what
the walk reaches, and that of all the references it takes it keeps only the one on
the inode returned.

That holds on a namespace whose used entries name allocated inodes that have a link
(or are the directory itself), as long as the inode cache has room for the two
entries the walk may hold at once; with the cache full, `iget` reaches
`panic("iget: no inodes")` (`namei_cache_full`).

## Main definitions

* `components` — the elements of a path.
* `Ns.walk`, `Ns.walkParent`, `Ns.namexSpec` — what `namei` and `nameiparent`
  return.
* `Ns.Wf` — the namespace invariant `namex` relies on.
* `Ns.SameFs` — two states that differ only in the inode cache's counts and flags.

## Main results

* `skipelem_some` — `skipelem` returns the first component, cut to `DIRSIZ`.
* `dirlookup_map_fst` — `dirlookup` finds the first used entry whose name
  agrees on its first `DIRSIZ` characters.
* `namex_eq_spec` — `namex` returns `Ns.namexSpec`, and the reference counts grow
  by one on the inode returned.
-/

namespace Xv6

/-! ### The components of a path -/

/-- The elements of a path: its maximal non-empty runs of characters other than
`/`, in order. -/
def components (path : List Char) : List (List Char) := (path.splitOn '/').filter fun w => w ≠ []

section Components

theorem components_slash (l : List Char) : components ('/' :: l) = components l := by
  simp only [components, List.splitOn]
  rw [List.splitOnP_cons_eq_if_modifyHead, if_pos (by decide)]
  simp

/-- Leading slashes do not change the components. -/
theorem components_dropWhile (l : List Char) : components (l.dropWhile (· = '/')) = components l := by
  induction l with
  | nil => rfl
  | cons x l ih =>
    by_cases hx : x = '/'
    · rw [List.dropWhile_cons, if_pos (by simpa using hx), ih, hx, components_slash]
    · rw [List.dropWhile_cons, if_neg (by simpa using hx)]

/-- A path that starts with an element has a component. -/
theorem components_cons_ne_nil {x : Char} (hx : x ≠ '/') (l : List Char) : components (x :: l) ≠ [] := by
  unfold components
  rw [List.splitOn, List.splitOnP_cons_eq_if_modifyHead, if_neg (by simpa using hx)]
  cases h : List.splitOnP (fun c => c == '/') l with
  | nil => exact absurd h (List.splitOnP_ne_nil _ _)
  | cons w ws => simp

/-- A run of characters other than `/`, followed by nothing or by a `/`, is the
first component. -/
theorem components_append_word {w r : List Char} (hw : w ≠ []) (hsl : ∀ c ∈ w, c ≠ '/')
    (hr : r = [] ∨ r.head? = some '/') : components (w ++ r) = w :: components r := by
  have hsplit : w.splitOnP (fun c => c == '/') = [w] :=
    List.splitOnP_eq_singleton fun c hc => by simpa using hsl c hc
  rcases hr with rfl | hr
  · unfold components
    rw [List.append_nil, List.splitOn, hsplit]
    simp [hw]
  · obtain ⟨r', rfl⟩ : ∃ r', r = '/' :: r' := by
      cases r with
      | nil => cases hr
      | cons y r' =>
        simp only [List.head?_cons, Option.some.injEq] at hr
        exact ⟨r', by rw [hr]⟩
    rw [components_slash]
    simp only [components, List.splitOn]
    rw [List.splitOnP_append_cons _ _ (by decide), hsplit]
    simp [hw]

end Components

/-- **`skipelem`.**  When it finds an element, it is the first component of the
path cut to `DIRSIZ` characters, and the rest holds the other components; the rest
is empty exactly when no component is left. -/
theorem skipelem_some {path name rest : List Char} (h : skipelem path = some (name, rest)) :
    ∃ c, components path = c :: components rest ∧ name = c.take dirsiz ∧
      (rest = [] ↔ components rest = []) ∧ rest.length < path.length := by
  unfold skipelem at h
  -- the path without its leading slashes starts with an element
  cases hp : path.dropWhile (· = '/') with
  | nil => rw [hp] at h; cases h
  | cons x xs =>
  rw [hp] at h
  simp only [Option.some.injEq, Prod.mk.injEq] at h
  obtain ⟨rfl, rfl⟩ := h
  have hx : x ≠ '/' := by
    have := List.head_dropWhile_not (fun c => decide (c = '/')) (l := path) (by rw [hp]; exact List.cons_ne_nil _ _)
    simp only [hp, List.head_cons, decide_eq_false_iff_not] at this
    exact this
  set w := (x :: xs).takeWhile (· ≠ '/') with hw
  set r := (x :: xs).dropWhile (· ≠ '/') with hr
  have hwne : w ≠ [] := by
    rw [hw, List.takeWhile_cons, if_pos (by simpa using hx)]
    exact List.cons_ne_nil _ _
  have hsl : ∀ c ∈ w, c ≠ '/' := fun c hc => by simpa using List.mem_takeWhile_imp hc
  -- the element ends at a slash or at the end
  have hrh : r = [] ∨ r.head? = some '/' := by
    cases hr' : r with
    | nil => exact .inl rfl
    | cons y ys =>
      have := List.head_dropWhile_not (fun c => decide (c ≠ '/')) (l := x :: xs) (by rw [← hr, hr']; exact List.cons_ne_nil _ _)
      simp only [← hr, hr', List.head_cons, decide_eq_false_iff_not, not_not] at this
      exact .inr (by rw [this]; rfl)
  have hsplit : x :: xs = w ++ r := List.takeWhile_append_dropWhile.symm
  refine ⟨w, ?_, rfl, ?_, ?_⟩
  · rw [← components_dropWhile path, hp, hsplit, components_append_word hwne hsl hrh, components_dropWhile]
  · constructor
    · intro h
      rw [h]
      rfl
    · intro h
      cases hd : r.dropWhile (· = '/') with
      | nil => rfl
      | cons y ys =>
        have := List.head_dropWhile_not (fun c => decide (c = '/')) (l := r) (by rw [hd]; exact List.cons_ne_nil _ _)
        simp only [hd, List.head_cons, decide_eq_false_iff_not] at this
        rw [hd] at h
        exact absurd h (components_cons_ne_nil this ys)
  · have h₁ := List.length_dropWhile_le (fun c => decide (c = '/')) r
    have h₂ := List.length_dropWhile_le (fun c => decide (c = '/')) path
    have h₃ : (x :: xs).length = w.length + r.length := by rw [hsplit, List.length_append]
    have h₄ : 0 < w.length := List.length_pos_of_ne_nil hwne
    rw [hp] at h₂
    omega

theorem skipelem_eq_none_iff (path : List Char) : skipelem path = none ↔ components path = [] := by
  constructor
  · intro h
    unfold skipelem at h
    cases hp : path.dropWhile (· = '/') with
    | nil => rw [← components_dropWhile, hp]; rfl
    | cons x xs => rw [hp] at h; cases h
  · intro h
    cases hs : skipelem path with
    | none => rfl
    | some r =>
      obtain ⟨c, hc, -⟩ := skipelem_some hs
      rw [h] at hc
      cases hc

/-! ### Looking a name up in a directory -/

/-- The inode a directory gives for a name: that of its first used entry whose
name agrees with it on the first `DIRSIZ` characters. -/
def lookupSpec (ents : List Dirent) (name : List Char) : Option ℕ :=
  (ents.find? fun e => e.inum ≠ 0 ∧ name.take dirsiz = e.name.take dirsiz).map (·.inum)

/-- **`dirlookup`** finds the inode `lookupSpec` names. -/
theorem dirlookup_map_fst (ents : List Dirent) (name : List Char) :
    (dirlookup ents name).map Prod.fst = lookupSpec ents name := by
  -- `namecmp` is the comparison on the first `DIRSIZ` characters
  have hp : (fun e : Dirent => decide (e.inum ≠ 0 ∧ namecmp name e.name = true)) =
      fun e => decide (e.inum ≠ 0 ∧ name.take dirsiz = e.name.take dirsiz) := by
    funext e
    simp [namecmp]
  rw [dirlookup, lookupSpec, List.find?_eq_bind_findIdx?_getElem?, hp]
  cases hk : ents.findIdx? fun e => decide (e.inum ≠ 0 ∧ name.take dirsiz = e.name.take dirsiz) with
  | none => rfl
  | some k =>
    have hlt : k < ents.length := (List.findIdx?_eq_some_iff_getElem.mp hk).1
    simp [List.getElem?_eq_getElem hlt]

/-- `namex` looks up the element `skipelem` cut, which finds what the whole
component finds. -/
@[simp]
theorem lookupSpec_take (ents : List Dirent) (name : List Char) :
    lookupSpec ents (name.take dirsiz) = lookupSpec ents name := by
  simp [lookupSpec, List.take_take]

/-- What a lookup finds is named by a used entry of the directory. -/
theorem lookupSpec_eq_some {ents : List Dirent} {name : List Char} {i : ℕ}
    (h : lookupSpec ents name = some i) : ∃ e ∈ ents, e.inum = i ∧ i ≠ 0 := by
  obtain ⟨e, he, rfl⟩ := Option.map_eq_some_iff.mp h
  have hp := List.find?_some he
  simp only [decide_eq_true_eq] at hp
  exact ⟨e, List.mem_of_find?_eq_some he, rfl, hp.1⟩

/-! ### What `namei` and `nameiparent` return -/

namespace Ns

/-- `namei` from inode `ip` along components: the inode reached, or none when a
component is missing or an inode before a component is not a directory. -/
def walk (t : Ns) : ℕ → List (List Char) → Option ℕ
  | ip, [] => some ip
  | ip, c :: cs =>
    if (t.inode ip).type ≠ tDir then none
    else (lookupSpec (t.inode ip).ents c).bind fun next => t.walk next cs

theorem walk_nil (t : Ns) (ip : ℕ) : t.walk ip [] = some ip := rfl

theorem walk_cons (t : Ns) (ip : ℕ) (c : List Char) (cs : List (List Char)) :
    t.walk ip (c :: cs) =
      if (t.inode ip).type ≠ tDir then none
      else (lookupSpec (t.inode ip).ents c).bind fun next => t.walk next cs := rfl

/-- `nameiparent` from inode `ip`: the directory that all components but the
last reach, with the last component cut to `DIRSIZ` characters; none for a path
with no component. -/
def walkParent (t : Ns) (ip : ℕ) (cs : List (List Char)) : Option (ℕ × List Char) :=
  match cs.getLast? with
  | none => none
  | some c =>
    (t.walk ip cs.dropLast).bind fun d => if (t.inode d).type = tDir then some (d, c.take dirsiz) else none

/-- Both lookups, in the shape `namex` returns them. -/
def walkSpec (t : Ns) (parent : Bool) (ip : ℕ) (cs : List (List Char)) : Option (ℕ × List Char) :=
  if parent then t.walkParent ip cs else (t.walk ip cs).map (·, [])

/-- What `namex` returns: absolute paths are walked from the root, others from
the working directory. -/
def namexSpec (t : Ns) (cwd : ℕ) (path : List Char) (parent : Bool) : Option (ℕ × List Char) :=
  let start := if path.head? = some '/' then rootino else cwd
  t.walkSpec parent start (components path)

section WalkSpec

variable {t : Ns} {parent : Bool} {ip : ℕ} {c : List Char} {cs : List (List Char)}

theorem walkSpec_nil : t.walkSpec parent ip [] = if parent then none else some (ip, []) := by
  cases parent <;> rfl

theorem walkSpec_not_dir (h : (t.inode ip).type ≠ tDir) : t.walkSpec parent ip (c :: cs) = none := by
  cases parent
  · simp [walkSpec, walk_cons, h]
  · cases cs with
    | nil => simp [walkSpec, walkParent, walk_nil, h]
    | cons c' cs =>
      simp [walkSpec, walkParent, List.getLast?_eq_some_getLast (List.cons_ne_nil c' cs), walk_cons, h]

/-- `nameiparent` at the last component: the directory itself. -/
theorem walkSpec_last (h : (t.inode ip).type = tDir) : t.walkSpec true ip [c] = some (ip, c.take dirsiz) := by
  simp [walkSpec, walkParent, walk_nil, h]

/-- One component, when the walk does not stop there. -/
theorem walkSpec_cons (h : (t.inode ip).type = tDir) (hlast : ¬(parent = true ∧ cs = [])) :
    t.walkSpec parent ip (c :: cs) = (lookupSpec (t.inode ip).ents c).bind fun next => t.walkSpec parent next cs := by
  cases parent
  · simp only [walkSpec, walk_cons, h, ne_eq, not_true_eq_false, if_false, Bool.false_eq_true]
    cases lookupSpec (t.inode ip).ents c <;> rfl
  · obtain ⟨c', cs, rfl⟩ := List.exists_cons_of_ne_nil fun h' => hlast ⟨rfl, h'⟩
    simp only [walkSpec, if_true, walkParent, List.getLast?_cons_cons,
      List.getLast?_eq_some_getLast (List.cons_ne_nil c' cs), List.dropLast_cons_cons, walk_cons, h,
      ne_eq, not_true_eq_false, if_false]
    rw [Option.bind_assoc]

end WalkSpec

end Ns

namespace Ns

/-! ### The inode cache along a lookup -/

section Cache

variable {t t' t'' : Ns} {i : ℕ}

theorem inode_modInode (t : Ns) (i j : ℕ) (f : Inode → Inode) :
    (t.modInode i f).inode j = if i = j ∧ j < t.inodes.length then f (t.inode j) else t.inode j := by
  simp only [inode, modInode, List.getD_eq_getElem?_getD, List.getElem?_modify]
  by_cases hj : j < t.inodes.length
  · by_cases hij : i = j <;> simp [hij, hj]
  · simp [hj]

@[simp]
theorem length_modInode (f : Inode → Inode) : (t.modInode i f).inodes.length = t.inodes.length :=
  List.length_modify f t.inodes i

theorem inode_of_length_le (h : t.inodes.length ≤ i) : t.inode i = default :=
  List.getD_eq_default _ _ h

/-- An inode with a type is one of the `sb.ninodes`. -/
theorem lt_length_of_type_ne_zero (h : (t.inode i).type ≠ 0) : i < t.inodes.length := by
  by_contra hle
  exact h (by rw [inode_of_length_le (Nat.le_of_not_lt hle)]; rfl)

/-- Two states with the same inodes on disk, open files and processes: they
differ at most in the cache's reference counts and valid flags. -/
structure SameFs (t t' : Ns) : Prop where
  length : t'.inodes.length = t.inodes.length
  type : ∀ i, (t'.inode i).type = (t.inode i).type
  nlink : ∀ i, (t'.inode i).nlink = (t.inode i).nlink
  ents : ∀ i, (t'.inode i).ents = (t.inode i).ents
  files : t'.files = t.files
  procs : t'.procs = t.procs

theorem SameFs.trans (h₁ : t.SameFs t') (h₂ : t'.SameFs t'') : t.SameFs t'' :=
  ⟨h₂.length.trans h₁.length, fun i => (h₂.type i).trans (h₁.type i), fun i => (h₂.nlink i).trans (h₁.nlink i),
    fun i => (h₂.ents i).trans (h₁.ents i), h₂.files.trans h₁.files, h₂.procs.trans h₁.procs⟩

/-- A change of one inode's cache fields keeps the file system. -/
theorem sameFs_modInode {f : Inode → Inode}
    (hf : ∀ ip, (f ip).type = ip.type ∧ (f ip).nlink = ip.nlink ∧ (f ip).ents = ip.ents) (i : ℕ) :
    t.SameFs (t.modInode i f) := by
  refine ⟨length_modInode f, fun j => ?_, fun j => ?_, fun j => ?_, rfl, rfl⟩ <;>
    rw [inode_modInode] <;> split_ifs <;> simp [hf]

/-- `iget` of an inode with a slot: one more reference on it. -/
theorem iget_some (hi : i < t.inodes.length)
    (hroom : 0 < (t.inode i).ref ∨ (t.inodes.filter (0 < ·.ref)).length < ninode) :
    ∃ t', t.iget i = some t' ∧ t.SameFs t' ∧
      ∀ j, (t'.inode j).ref = (t.inode j).ref + if j = i then 1 else 0 := by
  unfold iget
  by_cases hr : 0 < (t.inode i).ref
  · rw [if_pos hr]
    refine ⟨_, rfl, sameFs_modInode (f := fun ip => { ip with ref := ip.ref + 1 }) (fun _ => ⟨rfl, rfl, rfl⟩) i,
      fun j => ?_⟩
    rw [inode_modInode]
    by_cases hj : j = i
    · subst hj; simp [hi]
    · simp [hj, Ne.symm hj]
  · rw [if_neg hr, if_neg (by have := hroom.resolve_left hr; omega)]
    refine ⟨_, rfl, sameFs_modInode (f := fun ip => { ip with ref := 1, valid := false }) (fun _ => ⟨rfl, rfl, rfl⟩) i,
      fun j => ?_⟩
    rw [inode_modInode]
    by_cases hj : j = i
    · subst hj; simp only [hi, and_self, if_true]; omega
    · simp [hj, Ne.symm hj]

/-- `ilock` of an allocated inode only marks it valid. -/
theorem ilock_some (h : (t.inode i).type ≠ 0) :
    ∃ t', t.ilock i = some t' ∧ t.SameFs t' ∧ ∀ j, (t'.inode j).ref = (t.inode j).ref := by
  refine ⟨_, if_neg h, sameFs_modInode (f := fun ip => { ip with valid := true }) (fun _ => ⟨rfl, rfl, rfl⟩) i,
    fun j => ?_⟩
  rw [inode_modInode]
  split_ifs <;> rfl

/-- `iput` drops one reference, whether or not it frees the inode. -/
theorem iput_ref (t : Ns) (i j : ℕ) : ((t.iput i).inode j).ref = (t.inode j).ref - if j = i then 1 else 0 := by
  dsimp only [iput]
  by_cases hc : (t.inode i).valid = true ∧ (t.inode i).nlink = 0 ∧ (t.inode i).ref = 1
  · rw [if_pos hc, inode_modInode, inode_modInode, length_modInode]
    by_cases hj : j = i
    · subst hj
      by_cases hi : j < t.inodes.length
      · simp [hi]
      · simp only [hi, and_false, if_false, if_true, inode_of_length_le (Nat.le_of_not_lt hi)]
        rfl
    · simp [hj, Ne.symm hj]
  · rw [if_neg hc, inode_modInode]
    by_cases hj : j = i
    · subst hj
      by_cases hi : j < t.inodes.length
      · simp [hi]
      · simp only [hi, and_false, if_false, if_true, inode_of_length_le (Nat.le_of_not_lt hi)]
        rfl
    · simp [hj, Ne.symm hj]

/-- `iput` that does not drop the last reference to an unlinked inode keeps the
file system. -/
theorem sameFs_iput (h : ¬((t.inode i).nlink = 0 ∧ (t.inode i).ref = 1)) : t.SameFs (t.iput i) := by
  dsimp only [iput]
  rw [if_neg fun hc => h hc.2]
  exact sameFs_modInode (f := fun ip => { ip with ref := ip.ref - 1 }) (fun _ => ⟨rfl, rfl, rfl⟩) i

/-- With one more reference on one inode, at most one more cache entry is in use. -/
theorem inUse_le (hlen : t'.inodes.length = t.inodes.length)
    (href : ∀ j, (t'.inode j).ref = (t.inode j).ref + if j = i then 1 else 0) :
    (t'.inodes.filter (0 < ·.ref)).length ≤ (t.inodes.filter (0 < ·.ref)).length + 1 := by
  rw [← List.countP_eq_length_filter, ← List.countP_eq_length_filter]
  have := Count.countP_le_of_getD (p := fun x : Inode => decide (0 < x.ref)) t.inodes i hlen fun j hj hp => by
    have := href j
    simp only [hj, if_false, Nat.add_zero] at this
    simp only [decide_eq_true_eq] at hp ⊢
    exact this ▸ hp
  split at this <;> omega

end Cache

/-! ### The loop of `namex` -/

/-- The namespace invariant `namex` relies on: the root is a directory with a
link, and each used entry of a directory names an allocated inode that has a link
or is the directory itself (its `.`). -/
structure Wf (t : Ns) : Prop where
  root : (t.inode rootino).type = tDir
  root_nlink : (t.inode rootino).nlink ≠ 0
  ents : ∀ d, (t.inode d).type = tDir → ∀ e ∈ (t.inode d).ents, e.inum ≠ 0 →
    (t.inode e.inum).type ≠ 0 ∧ (e.inum = d ∨ (t.inode e.inum).nlink ≠ 0)

/-- Only the `sb.ninodes` inodes can be directories, so `Wf` can be checked. -/
theorem wf_iff (t : Ns) : t.Wf ↔ (t.inode rootino).type = tDir ∧ (t.inode rootino).nlink ≠ 0 ∧
    ∀ d < t.inodes.length, (t.inode d).type = tDir → ∀ e ∈ (t.inode d).ents, e.inum ≠ 0 →
      (t.inode e.inum).type ≠ 0 ∧ (e.inum = d ∨ (t.inode e.inum).nlink ≠ 0) := by
  constructor
  · rintro ⟨hroot, hlink, hents⟩
    exact ⟨hroot, hlink, fun d _ => hents d⟩
  · rintro ⟨hroot, hlink, hents⟩
    exact ⟨hroot, hlink, fun d hd => hents d (lt_length_of_type_ne_zero (by rw [hd]; decide)) hd⟩

instance : DecidablePred Wf := fun t => decidable_of_iff _ (wf_iff t).symm

/-- The loop holds inode `ip` in state `t`, against the state `t₀` before
`namex`: the same file system, one more reference on `ip`, and `ip` allocated and
safe to put back (referenced before the lookup, or linked). -/
structure Holding (t₀ t : Ns) (ip : ℕ) : Prop where
  same : t₀.SameFs t
  ref : ∀ j, (t.inode j).ref = (t₀.inode j).ref + if j = ip then 1 else 0
  type : (t₀.inode ip).type ≠ 0
  safe : 0 < (t₀.inode ip).ref ∨ (t₀.inode ip).nlink ≠ 0

/-- `t` is `t₀` after a lookup that returned `r`: the same file system, and one
more reference on the inode returned, if any. -/
structure Returned (t₀ t : Ns) (r : Option (ℕ × List Char)) : Prop where
  same : t₀.SameFs t
  ref : ∀ j, (t.inode j).ref = (t₀.inode j).ref + if r.map Prod.fst = some j then 1 else 0

section Holding

variable {t₀ t : Ns} {ip : ℕ}

theorem Holding.returned (h : Holding t₀ t ip) (name : List Char) : Returned t₀ t (some (ip, name)) :=
  ⟨h.same, fun j => by simpa [eq_comm] using h.ref j⟩

/-- Putting back the inode held frees nothing. -/
theorem Holding.iput_keeps (h : Holding t₀ t ip) : ¬((t.inode ip).nlink = 0 ∧ (t.inode ip).ref = 1) := by
  rintro ⟨hn, hr⟩
  have hr₀ := h.ref ip
  rw [h.same.nlink] at hn
  rcases h.safe with hpos | hlink
  · simp only [if_true] at hr₀
    omega
  · exact hlink hn

theorem Holding.iput (h : Holding t₀ t ip) : Returned t₀ (t.iput ip) none := by
  refine ⟨h.same.trans (sameFs_iput h.iput_keeps), fun j => ?_⟩
  rw [iput_ref, h.ref j]
  simp

theorem Holding.ilock (h : Holding t₀ t ip) : ∃ t', t.ilock ip = some t' ∧ Holding t₀ t' ip := by
  obtain ⟨t', hl, hs, hr⟩ := ilock_some (i := ip) (by rw [h.same.type]; exact h.type)
  exact ⟨t', hl, ⟨h.same.trans hs, fun j => (hr j).trans (h.ref j), h.type, h.safe⟩⟩

/-- **One step of the loop.**  From a directory, the inode a component names is
taken and the directory put back; the cache has room for the second reference. -/
theorem Holding.next (h : Holding t₀ t ip) (hwf : t₀.Wf) (hroom : (t₀.inodes.filter (0 < ·.ref)).length + 2 ≤ ninode)
    (hdir : (t₀.inode ip).type = tDir) {c : List Char} {next : ℕ}
    (hnext : lookupSpec (t₀.inode ip).ents c = some next) :
    ∃ t₂, t.iget next = some t₂ ∧ Holding t₀ (t₂.iput ip) next := by
  obtain ⟨e, he, rfl, hne⟩ := lookupSpec_eq_some hnext
  obtain ⟨hty, hlink⟩ := hwf.ents ip hdir e he hne
  have hlt : e.inum < t.inodes.length := lt_length_of_type_ne_zero (by rw [h.same.type]; exact hty)
  have huse := inUse_le h.same.length h.ref
  obtain ⟨t₂, hget, hs₂, hr₂⟩ := iget_some hlt (Or.inr (by omega))
  -- the directory still has the reference the loop took, so `iput` frees nothing
  have hkeep : ¬((t₂.inode ip).nlink = 0 ∧ (t₂.inode ip).ref = 1) := by
    rintro ⟨hn, hr⟩
    apply h.iput_keeps
    have := hr₂ ip
    refine ⟨(hs₂.nlink ip).symm.trans hn, ?_⟩
    have h1 := h.ref ip
    simp only [if_true] at h1
    split at this <;> omega
  refine ⟨t₂, hget, ⟨(h.same.trans hs₂).trans (sameFs_iput hkeep), fun j => ?_, hty, ?_⟩⟩
  · rw [iput_ref, hr₂ j, h.ref j]
    split_ifs <;> omega
  · rcases hlink with heq | hlink
    · exact heq ▸ h.safe
    · exact .inr hlink

end Holding

/-- **The loop of `namex`** returns what the walk over the components of the
rest of the path reaches, and keeps only the reference on that inode.  By
induction on the fuel, which bounds the length of the path. -/
theorem namexLoop_spec {t₀ : Ns} (hwf : t₀.Wf) (hroom : (t₀.inodes.filter (0 < ·.ref)).length + 2 ≤ ninode)
    (parent : Bool) (fuel : ℕ) :
    ∀ t ip path, path.length < fuel → Holding t₀ t ip →
      ∃ t', namexLoop parent fuel t ip path = some (t', t₀.walkSpec parent ip (components path)) ∧
        Returned t₀ t' (t₀.walkSpec parent ip (components path)) := by
  induction fuel with
  | zero => intro _ _ path hfuel; omega
  | succ fuel ih =>
  intro t ip path hfuel h
  cases hs : skipelem path with
  | none =>
    -- no component left: `namei` returns the inode held, `nameiparent` nothing
    rw [(skipelem_eq_none_iff path).mp hs, walkSpec_nil]
    cases parent
    · exact ⟨t, by simp [namexLoop, hs], h.returned []⟩
    · exact ⟨t.iput ip, by simp [namexLoop, hs], h.iput⟩
  | some r =>
  obtain ⟨name, rest⟩ := r
  obtain ⟨c, hcomp, rfl, hrest, hlen⟩ := skipelem_some hs
  obtain ⟨t₁, hlock, h₁⟩ := h.ilock
  simp only [namexLoop, hs, hlock, Option.bind_some]
  rw [hcomp, h₁.same.type, h₁.same.ents]
  by_cases hdir : (t₀.inode ip).type = tDir
  swap
  · -- not a directory
    rw [if_pos hdir, walkSpec_not_dir hdir]
    exact ⟨_, rfl, h₁.iput⟩
  rw [if_neg (not_not.mpr hdir)]
  by_cases hlast : parent = true ∧ rest = []
  · -- `nameiparent` at the last component
    obtain ⟨rfl, hnil⟩ := hlast
    rw [if_pos ⟨rfl, hnil⟩, hrest.mp hnil, walkSpec_last hdir]
    exact ⟨_, rfl, h₁.returned _⟩
  rw [if_neg hlast, walkSpec_cons hdir (fun ⟨hp, hnil⟩ => hlast ⟨hp, hrest.mpr hnil⟩)]
  have hlook := dirlookup_map_fst (t₀.inode ip).ents (c.take dirsiz)
  rw [lookupSpec_take] at hlook
  cases hd : dirlookup (t₀.inode ip).ents (c.take dirsiz) with
  | none =>
    -- the component is missing
    rw [hd] at hlook
    rw [← hlook]
    exact ⟨_, rfl, h₁.iput⟩
  | some r =>
    obtain ⟨next, off⟩ := r
    rw [hd] at hlook
    rw [← hlook]
    obtain ⟨t₂, hget, h₂⟩ := h₁.next hwf hroom hdir hlook.symm
    obtain ⟨t', hloop, hret⟩ := ih (t₂.iput ip) next rest (by omega) h₂
    refine ⟨t', ?_, hret⟩
    simp only [hget, Option.bind_some, Option.map_some]
    exact hloop

/-- **`namei` and `nameiparent`.**  On a namespace that satisfies `Wf`, from a
working directory the process holds, and with room in the inode cache for the two
references the loop holds at once, `namex` returns what `namexSpec` walks to,
leaves the file system as it was, and of the references it takes keeps only the
one on the inode it returns. -/
theorem namex_eq_spec {t : Ns} {cwd : ℕ} {path : List Char} {parent : Bool} (hwf : t.Wf)
    (hcwd : path.head? ≠ some '/' → (t.inode cwd).type ≠ 0 ∧ 0 < (t.inode cwd).ref)
    (hroom : (t.inodes.filter (0 < ·.ref)).length + 2 ≤ ninode) :
    ∃ t', t.namex cwd path parent = some (t', t.namexSpec cwd path parent) ∧ t.SameFs t' ∧
      ∀ i, (t'.inode i).ref = (t.inode i).ref + if (t.namexSpec cwd path parent).map Prod.fst = some i then 1 else 0 := by
  set start := if path.head? = some '/' then rootino else cwd with hstart
  -- the root is safe to put back for its link, the working directory for the
  -- reference the process holds
  obtain ⟨hty, hsafe⟩ : (t.inode start).type ≠ 0 ∧ (0 < (t.inode start).ref ∨ (t.inode start).nlink ≠ 0) := by
    by_cases hslash : path.head? = some '/'
    · rw [hstart, if_pos hslash, hwf.root]
      exact ⟨by decide, .inr hwf.root_nlink⟩
    · rw [hstart, if_neg hslash]
      exact ⟨(hcwd hslash).1, .inl (hcwd hslash).2⟩
  obtain ⟨t₁, hget, hs₁, hr₁⟩ := iget_some (lt_length_of_type_ne_zero hty) (Or.inr (by omega))
  obtain ⟨t', hloop, hret⟩ :=
    namexLoop_spec hwf hroom parent (path.length + 1) t₁ start path (Nat.lt_succ_self _) ⟨hs₁, hr₁, hty, hsafe⟩
  refine ⟨t', ?_, hret.same, hret.ref⟩
  simp only [namex, namexSpec, ← hstart, hget, Option.bind_some]
  exact hloop

/-- A root directory holding a directory `a` that holds a file `b`; process 0
works in the root. -/
def nestedTree : Ns where
  inodes := [default,
    ⟨tDir, 2, [⟨1, ['.']⟩, ⟨1, ['.', '.']⟩, ⟨2, ['a']⟩], 1, true⟩,
    ⟨tDir, 1, [⟨2, ['.']⟩, ⟨1, ['.', '.']⟩, ⟨3, ['b']⟩], 0, false⟩,
    ⟨tFile, 1, [], 0, false⟩]
  files := []
  procs := [⟨true, rootino, []⟩]

/-- `nameiparent("//a/./b")` returns `a` and the name `b`, holding only `a`. -/
theorem namex_eq_spec_nested :
    ∃ t', nestedTree.namex 1 "//a/./b".toList true = some (t', some (2, ['b'])) ∧ nestedTree.SameFs t' ∧
      ∀ i, (t'.inode i).ref = (nestedTree.inode i).ref + if i = 2 then 1 else 0 := by
  have hspec : nestedTree.namexSpec 1 "//a/./b".toList true = some (2, ['b']) := by decide
  obtain ⟨t', h, hs, hr⟩ := @namex_eq_spec nestedTree 1 "//a/./b".toList true
    (by decide) (fun h => absurd rfl h) (by decide)
  rw [hspec] at h hr
  exact ⟨t', h, hs, fun i => by simpa [eq_comm] using hr i⟩

/-- A root directory holding a file `x` that no one has open, with every other
of the `NINODE` cache entries in use by the root and open files. -/
def fullCache : Ns where
  inodes := (List.range 52).map fun i =>
    if i = rootino then ⟨tDir, 1, [⟨1, ['.']⟩, ⟨1, ['.', '.']⟩, ⟨2, ['x']⟩], 1, true⟩
    else if i = 2 then ⟨tFile, 1, [], 0, false⟩
    else if i = 0 then default
    else ⟨tFile, 1, [], 1, true⟩
  files := []
  procs := [⟨true, rootino, []⟩]

/-- With the cache full, `namei("/x")` panics in `iget` ("iget: no inodes") where
the walk reaches `x`. -/
theorem namei_cache_full :
    fullCache.Wf ∧ (fullCache.inodes.filter (0 < ·.ref)).length = ninode ∧
      fullCache.namexSpec 1 "/x".toList false = some (2, []) ∧ fullCache.namex 1 "/x".toList false = none :=
  ⟨by decide, by decide, by decide, by decide⟩

end Ns

end Xv6
