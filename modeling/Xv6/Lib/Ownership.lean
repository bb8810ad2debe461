import Mathlib

/-!
# Owned resources, free lists and confined steps

An allocator keeps its free resources in a list; every other resource belongs to
some owner, and what an owner holds is read off the state as a `filterMap` over a
fixed list of keys: key `k` contributes `f k` when that is `some`.  When the state
changes at one key only, the list of held resources changes by that key's
contribution alone, up to order.

A step of an allocator and its clients is *confined* to some owners when it only
moves resources between the free list and those owners, and leaves the contents
of every resource outside both alone.  Confined steps compose, which turns the
bookkeeping of a loop that allocates and frees into one induction.

## Main definitions

* `Confined free free' mem mem' own own'` — from the free list `free` and the
  contents `mem` to `free'` and `mem'`, the step only trades between the free list
  and the owned resources `own` (afterwards `own'`).

## Main results

* `perm_filterMap_update` — changing a `filterMap` at one key of a duplicate-free
  key list trades the old contribution of that key for the new one.
* `Confined.trans` — confined steps compose.
-/

namespace Ownership

open List

variable {κ ι β : Type*}

/-! ### Held resources as a `filterMap` over keys -/

/-- Changing the contribution of one key `a` of a duplicate-free key list: the new
list with the old contribution of `a` is the old list with the new one. -/
theorem perm_filterMap_update {l : List κ} (hl : l.Nodup) {a : κ} (ha : a ∈ l)
    {f g : κ → Option ι} (h : ∀ k ∈ l, k ≠ a → g k = f k) :
    l.filterMap g ++ (f a).toList ~ l.filterMap f ++ (g a).toList := by
  induction l with
  | nil => simp at ha
  | cons x l ih =>
    obtain ⟨hx, hl⟩ := List.nodup_cons.mp hl
    by_cases hxa : x = a
    · -- the changed key heads the list; the rest agree
      subst hxa
      have hrest : l.filterMap g = l.filterMap f :=
        List.filterMap_congr fun k hk => h k (.tail _ hk) (ne_of_mem_of_not_mem hk hx)
      rw [List.filterMap_cons, List.filterMap_cons, hrest]
      rcases f x with _ | c <;> rcases g x with _ | b
      · simp
      · simpa using (List.perm_append_singleton b _).symm
      · simp
      · simpa using ((List.perm_append_singleton c _).cons b).trans
          ((List.Perm.swap c b _).trans ((List.perm_append_singleton b _).symm.cons c))
    · have hgx : g x = f x := h x (.head _) hxa
      have ih' := ih hl (List.mem_of_ne_of_mem (Ne.symm hxa) ha)
        fun k hk hka => h k (.tail _ hk) hka
      rw [List.filterMap_cons, List.filterMap_cons, hgx]
      cases f x with
      | none => exact ih'
      | some c => exact List.Perm.cons c ih'

/-- A contribution added at a key that had none. -/
theorem perm_filterMap_of_add {l : List κ} (hl : l.Nodup) {a : κ} (ha : a ∈ l)
    {f g : κ → Option ι} (h : ∀ k ∈ l, k ≠ a → g k = f k) (hf : f a = none) {b : ι}
    (hg : g a = some b) : l.filterMap g ~ l.filterMap f ++ [b] := by
  simpa [hf, hg] using perm_filterMap_update hl ha h

/-- One key alone contributing to a duplicate-free key list. -/
theorem filterMap_eq_singleton {l : List κ} (hl : l.Nodup) {a : κ} (ha : a ∈ l) {f : κ → Option ι}
    {b : ι} (hb : f a = some b) (hnone : ∀ k ∈ l, k ≠ a → f k = none) : l.filterMap f = [b] := by
  induction l with
  | nil => simp at ha
  | cons x l ih =>
    obtain ⟨hx, hl⟩ := List.nodup_cons.mp hl
    rw [List.filterMap_cons]
    by_cases hxa : x = a
    · subst hxa
      rw [hb, List.filterMap_eq_nil_iff.mpr fun k hk => hnone k (.tail _ hk) fun h => hx (h ▸ hk)]
    · rw [hnone x (.head _) hxa]
      exact ih hl (List.mem_of_ne_of_mem (Ne.symm hxa) ha) fun k hk => hnone k (.tail _ hk)

/-- Two keys contributing the same resource to a duplicate-free result are one key. -/
theorem eq_of_filterMap_nodup {l : List κ} (hl : l.Nodup) {f : κ → Option ι}
    (h : (l.filterMap f).Nodup) {a a' : κ} (ha : a ∈ l) (ha' : a' ∈ l) {b : ι}
    (hb : f a = some b) (hb' : f a' = some b) : a = a' := by
  induction l with
  | nil => simp at ha
  | cons x l ih =>
    obtain ⟨hx, hl⟩ := List.nodup_cons.mp hl
    -- a key at the head contributes `b`, which the rest of the result then lacks
    have hhead : ∀ {y}, y ∈ l → f x = some b → f y = some b → False := fun hy hfx hfy => by
      rw [List.filterMap_cons, hfx] at h
      exact (List.nodup_cons.mp h).1 (List.mem_filterMap.mpr ⟨_, hy, hfy⟩)
    have htail : (l.filterMap f).Nodup := by
      rw [List.filterMap_cons] at h
      cases hfx : f x with
      | none => simpa [hfx] using h
      | some c => simp only [hfx] at h; exact (List.nodup_cons.mp h).2
    rcases List.mem_cons.mp ha with rfl | hal <;> rcases List.mem_cons.mp ha' with rfl | hal'
    · rfl
    · exact (hhead hal' hb hb').elim
    · exact (hhead hal hb' hb).elim
    · exact ih hl htail hal hal'

/-! ### Confined steps -/

/-- From the free list `free` and contents `mem` to `free'` and `mem'`, a step that
only trades resources between the free list and the owned resources `own` (which
become `own'`), and changes the contents of nothing outside both. -/
structure Confined (free free' : List ι) (mem mem' : ι → β) (own own' : List ι) : Prop where
  perm : free' ++ own' ~ free ++ own
  frame : ∀ q, q ∉ free → q ∉ own → mem' q = mem q

namespace Confined

variable {f₁ f₂ f₃ : List ι} {m₁ m₂ m₃ : ι → β} {o₁ o₂ o₃ : List ι}

theorem refl (free : List ι) (mem : ι → β) (own : List ι) : Confined free free mem mem own own :=
  ⟨List.Perm.refl _, fun _ _ _ => rfl⟩

/-- A resource is free or owned after a confined step exactly when it was before. -/
theorem mem_iff (h : Confined f₁ f₂ m₁ m₂ o₁ o₂) {q : ι} : q ∈ f₂ ++ o₂ ↔ q ∈ f₁ ++ o₁ :=
  h.perm.mem_iff

theorem trans (h₁ : Confined f₁ f₂ m₁ m₂ o₁ o₂) (h₂ : Confined f₂ f₃ m₂ m₃ o₂ o₃) :
    Confined f₁ f₃ m₁ m₃ o₁ o₃ where
  perm := h₂.perm.trans h₁.perm
  frame q hf ho := by
    have hq : q ∉ f₂ ++ o₂ := fun hq => by
      rcases List.mem_append.mp (h₁.mem_iff.mp hq) with h | h
      · exact hf h
      · exact ho h
    rw [h₂.frame q (fun h => hq (List.mem_append_left _ h))
      (fun h => hq (List.mem_append_right _ h)), h₁.frame q hf ho]

/-- The owned list after the step may be replaced by a permutation of it. -/
theorem perm_right (h : Confined f₁ f₂ m₁ m₂ o₁ o₂) {o : List ι} (ho : o ~ o₂) :
    Confined f₁ f₂ m₁ m₂ o₁ o :=
  ⟨(ho.append_left f₂).trans h.perm, h.frame⟩

/-- The owned list before the step may be replaced by a permutation of it. -/
theorem perm_left (h : Confined f₁ f₂ m₁ m₂ o₁ o₂) {o : List ι} (ho : o ~ o₁) :
    Confined f₁ f₂ m₁ m₂ o o₂ :=
  ⟨h.perm.trans (ho.symm.append_left f₁), fun q hf hq => h.frame q hf fun h => hq (ho.mem_iff.mpr h)⟩

/-- Taking the head of the free list into the owned resources. -/
theorem take (a : ι) (free : List ι) (mem : ι → β) (own : List ι) :
    Confined (a :: free) free mem mem own (own ++ [a]) :=
  ⟨by rw [← List.append_assoc]; exact List.perm_append_singleton a _, fun _ _ _ => rfl⟩

/-- Returning an owned resource to the head of the free list, with new contents. -/
theorem give [DecidableEq ι] {a : ι} (free : List ι) {mem : ι → β} {own : List ι} (v : β) :
    Confined free (a :: free) mem (Function.update mem a v) (own ++ [a]) own where
  perm := by rw [← List.append_assoc]; exact (List.perm_append_singleton a _).symm
  frame q _ ho := Function.update_of_ne
    (by rintro rfl; exact ho (List.mem_append_right _ (List.mem_singleton_self _))) _ _

/-- Changing the contents of a free or owned resource. -/
theorem write [DecidableEq ι] {a : ι} (free : List ι) (mem : ι → β) (own : List ι)
    (ha : a ∈ free ∨ a ∈ own) (v : β) :
    Confined free free mem (Function.update mem a v) own own where
  perm := List.Perm.refl _
  frame q hf ho := Function.update_of_ne (by rintro rfl; rcases ha with h | h <;> contradiction) _ _

end Confined

end Ownership
