import Mathlib
import Xv6.Grep

/-!
# What grep's matcher matches

`grep.c`'s `match(re, text)` is the Kernighan–Pike matcher: `^` is special only
in first position and anchors the match at the start of the text, `$` is special
only in last position and anchors it at the end, `c*` matches any number of `c`s
(of any characters for `.*`), `.` matches any one character and every other
character matches itself.  This file gives the pattern its meaning as a language
over `Char` and proves that `match` decides whether some substring of the text is
in it: `matchhere` that a prefix is, `matchstar` that a prefix of `c`s is followed
by a match of the rest, `match`'s loop that some suffix starts a match.

The pattern after a leading `^` is read left to right into atoms (`parse`), the
way `matchhere` reads it: a character followed by `*` is a starred atom, a `$`
that ends the pattern is the end anchor, and every other character, `*` and `$`
included, is one atom of its own.

## Main definitions

* `Atom`, `Atom.lang` — one element of a pattern and its language.
* `parse` — the atoms of a pattern, and whether it ends in the `$` anchor.
* `anchor` — whether a pattern starts with the `^` anchor, and the rest of it.
* `Found` — some substring of the text is in the language of the pattern, at the
  start when the pattern is anchored there and at the end when it is anchored there.

## Main results

* `matchstar_iff`, `matchhere_iff`, `matchLoop_iff` — what each function decides.
* `match_iff_found` — `match` returns 1 exactly when the pattern is `Found` in the text.
-/

namespace Xv6

namespace Grep

open Language Computability

/-! ### The language of a pattern -/

/-- `c` accepts `x`: `.` accepts every character, any other character itself. -/
def Accepts (c x : Char) : Prop := c = '.' ∨ c = x

instance (c x : Char) : Decidable (Accepts c x) := inferInstanceAs (Decidable (_ ∨ _))

/-- The one-character words `c` accepts. -/
def single (c : Char) : Language Char := {w | ∃ x, Accepts c x ∧ w = [x]}

/-- One element of a pattern after its `^`. -/
inductive Atom
  /-- A character on its own: one character it accepts. -/
  | one (c : Char)
  /-- `c*`: any number of characters `c` accepts. -/
  | star (c : Char)
  deriving DecidableEq, Repr

/-- The words an atom matches. -/
def Atom.lang : Atom → Language Char
  | .one c => single c
  | .star c => (single c)∗

/-- The words a list of atoms matches, one after another. -/
def lang (as : List Atom) : Language Char := (as.map Atom.lang).prod

/-- The pattern read left to right as `matchhere` reads it: its atoms, and whether
it ends in the `$` that anchors the match at the end of the text. -/
def parse : List Char → List Atom × Bool
  | [] => ([], false)
  | c :: '*' :: re => (.star c :: (parse re).1, (parse re).2)
  | ['$'] => ([], true)
  | c :: re => (.one c :: (parse re).1, (parse re).2)

/-- Whether the pattern starts with the `^` that anchors the match at the start of
the text, and the pattern after it. -/
def anchor (re : List Char) : Bool × List Char :=
  if re.head? = some '^' then (true, re.tail) else (false, re)

/-- What `match(re, text)` is for: `text` splits as `p ++ u ++ v` with `u`, the
substring from position `p.length`, in the language of the pattern, `p` empty when
the pattern starts with `^` and `v` empty when it ends in `$`. -/
def Found (re text : List Char) : Prop :=
  ∃ p u v, text = p ++ u ++ v ∧ ((anchor re).1 = true → p = []) ∧
    u ∈ lang (parse (anchor re).2).1 ∧ ((parse (anchor re).2).2 = true → v = [])

@[simp] theorem mem_single {c : Char} {w : List Char} : w ∈ single c ↔ ∃ x, Accepts c x ∧ w = [x] :=
  Iff.rfl

@[simp] theorem mem_lang_nil {w : List Char} : w ∈ lang [] ↔ w = [] := mem_one w

@[simp] theorem mem_lang_cons {a : Atom} {as : List Atom} {w : List Char} :
    w ∈ lang (a :: as) ↔ ∃ u ∈ a.lang, ∃ v ∈ lang as, u ++ v = w := mem_mul

/-- A starred atom matches exactly the words of characters it accepts. -/
theorem mem_star {c : Char} {w : List Char} : w ∈ (single c)∗ ↔ ∀ x ∈ w, Accepts c x := by
  rw [mem_kstar]
  constructor
  · rintro ⟨L, rfl, hL⟩ x hx
    obtain ⟨y, hy, hxy⟩ := List.mem_flatten.mp hx
    obtain ⟨z, hz, rfl⟩ := hL y hy
    rwa [List.mem_singleton.mp hxy]
  · -- the word is the flattening of its characters, each a word of `single c`
    intro hw
    refine ⟨w.map fun x => [x], by rw [← List.flatMap_def, List.flatMap_singleton'], fun y hy => ?_⟩
    obtain ⟨x, hx, rfl⟩ := List.mem_map.mp hy
    exact ⟨x, hw x hx, rfl⟩

theorem parse_star (c : Char) (re : List Char) :
    parse (c :: '*' :: re) = (.star c :: (parse re).1, (parse re).2) := rfl

theorem parse_dollar : parse ['$'] = ([], true) := rfl

/-- A character that is neither starred nor the final `$` is one atom. -/
theorem parse_one {c : Char} {re : List Char} (hstar : ∀ r, re ≠ '*' :: r)
    (hdollar : re = [] → c ≠ '$') : parse (c :: re) = (.one c :: (parse re).1, (parse re).2) := by
  rcases re with _ | ⟨d, r⟩
  · have hc := hdollar rfl
    rw [parse.eq_def]
    split <;> simp_all
  · have hd : d ≠ '*' := fun h => hstar r (h ▸ rfl)
    rw [parse.eq_def]
    split <;> simp_all

/-! ### The matcher -/

/-- `matchstar` decides whether `text` starts with characters `c` accepts followed by
a match of `here`. -/
theorem matchstar_iff (here : List Char → Bool) (c : Char) (text : List Char) :
    matchstar here c text = true ↔ ∃ u v, text = u ++ v ∧ (∀ x ∈ u, Accepts c x) ∧ here v = true := by
  induction text with
  | nil =>
    constructor
    · exact fun h => ⟨[], [], rfl, nofun, h⟩
    · rintro ⟨u, v, huv, -, hv⟩
      obtain ⟨rfl, rfl⟩ := List.nil_eq_append_iff.mp huv
      exact hv
  | cons t text ih =>
    -- either the star stops here, or it takes `t` and goes on
    have hstep : matchstar here c (t :: text) = true ↔
        here (t :: text) = true ∨ Accepts c t ∧ matchstar here c text = true := by
      rw [matchstar, Bool.or_eq_true, Bool.and_eq_true, Bool.or_eq_true, beq_iff_eq, beq_iff_eq,
        Accepts, @eq_comm _ t, @or_comm (c = t)]
    rw [hstep, ih]
    constructor
    · rintro (h | ⟨ht, u, v, rfl, hu, hv⟩)
      · exact ⟨[], t :: text, rfl, nofun, h⟩
      · refine ⟨t :: u, v, rfl, ?_, hv⟩
        simpa [ht] using hu
    · rintro ⟨u, v, huv, hu, hv⟩
      rcases List.cons_eq_append_iff.mp huv with ⟨rfl, rfl⟩ | ⟨u', rfl, rfl⟩
      · exact .inl hv
      · exact .inr ⟨hu t (by simp), u', v, rfl, fun x hx => hu x (by simp [hx]), hv⟩

/-- `matchhere` decides whether a prefix of `text` is in the language of the
pattern, the whole of `text` when it ends in `$`. -/
theorem matchhere_iff (re text : List Char) :
    matchhere re text = true ↔
      ∃ u v, text = u ++ v ∧ u ∈ lang (parse re).1 ∧ ((parse re).2 = true → v = []) := by
  fun_induction matchhere re text with
  | case1 text =>
    simp only [parse, mem_lang_nil, Bool.false_eq_true, false_implies, and_true, true_iff]
    exact ⟨[], text, rfl, rfl⟩
  | case2 c re text ih =>
    -- a prefix of `c`s, then a match of the rest of the pattern
    rw [matchstar_iff, parse_star]
    simp only [ih, mem_lang_cons, Atom.lang, mem_star]
    constructor
    · rintro ⟨u, v, rfl, hu, u', v', rfl, hu', hv'⟩
      exact ⟨u ++ u', v', by simp, ⟨u, hu, u', hu', rfl⟩, hv'⟩
    · rintro ⟨w, v, rfl, ⟨u, hu, u', hu', rfl⟩, hv⟩
      exact ⟨u, u' ++ v, by simp, hu, u', v, rfl, hu', hv⟩
  | case3 text =>
    rw [parse_dollar]
    simp only [mem_lang_nil, List.isEmpty_iff, forall_const]
    constructor
    · rintro rfl
      exact ⟨[], [], rfl, rfl, rfl⟩
    · rintro ⟨u, v, rfl, rfl, rfl⟩
      rfl
  | case4 c re t text hstar hdollar ih =>
    -- one character, then a match of the rest of the pattern
    rw [parse_one hstar (fun h hc => hdollar hc h)]
    simp only [Bool.and_eq_true, Bool.or_eq_true, beq_iff_eq, ih, mem_lang_cons, Atom.lang, mem_single]
    constructor
    · rintro ⟨hc, u, v, rfl, hu, hv⟩
      exact ⟨t :: u, v, rfl, ⟨[t], ⟨t, hc, rfl⟩, u, hu, rfl⟩, hv⟩
    · rintro ⟨w, v, hw, ⟨_, ⟨x, hx, rfl⟩, u, hu, rfl⟩, hv⟩
      obtain ⟨rfl, rfl⟩ := List.cons_eq_cons.mp hw
      exact ⟨hx, u, v, rfl, hu, hv⟩
  | case5 c re hstar hdollar =>
    -- the empty text has no first character for `c`
    rw [parse_one hstar (fun h hc => hdollar hc h)]
    simp only [Bool.false_eq_true, false_iff, mem_lang_cons, Atom.lang, mem_single, not_exists, not_and]
    rintro u v huv ⟨_, ⟨x, -, rfl⟩, w, -, rfl⟩ -
    simp at huv

/-- The loop of `match` decides whether some suffix of `text`, the empty one
included, starts with a match. -/
theorem matchLoop_iff (re text : List Char) :
    matchLoop re text = true ↔ ∃ p s, text = p ++ s ∧ matchhere re s = true := by
  induction text with
  | nil =>
    constructor
    · exact fun h => ⟨[], [], rfl, h⟩
    · rintro ⟨p, s, hps, hs⟩
      obtain ⟨rfl, rfl⟩ := List.nil_eq_append_iff.mp hps
      exact hs
  | cons t text ih =>
    rw [matchLoop, Bool.or_eq_true, ih]
    constructor
    · rintro (h | ⟨p, s, rfl, hs⟩)
      · exact ⟨[], t :: text, rfl, h⟩
      · exact ⟨t :: p, s, rfl, hs⟩
    · rintro ⟨p, s, hps, hs⟩
      rcases List.cons_eq_append_iff.mp hps with ⟨rfl, rfl⟩ | ⟨p', rfl, rfl⟩
      · exact .inl hs
      · exact .inr ⟨p', s, rfl, hs⟩

/-- **`match`.**  For every pattern and text, `match` returns 1 exactly when some
substring of the text is in the language of the pattern: at the start of the text
when the pattern starts with `^`, at its end when the pattern ends in `$`. -/
theorem match_iff_found (re text : List Char) : «match» re text = true ↔ Found re text := by
  unfold Found
  by_cases hre : re.head? = some '^'
  · -- anchored: `matchhere` on the rest of the pattern
    obtain ⟨r, rfl⟩ : ∃ r, re = '^' :: r := by
      rcases re with _ | ⟨c, r⟩
      · simp at hre
      · exact ⟨r, by simpa using hre⟩
    have ha : anchor ('^' :: r) = (true, r) := rfl
    rw [ha, «match», matchhere_iff]
    constructor
    · rintro ⟨u, v, rfl, hu, hv⟩
      exact ⟨[], u, v, rfl, fun _ => rfl, hu, hv⟩
    · rintro ⟨p, u, v, rfl, hp, hu, hv⟩
      obtain rfl := hp rfl
      exact ⟨u, v, rfl, hu, hv⟩
  · -- unanchored: `matchhere` at some offset
    have ha : anchor re = (false, re) := by rw [anchor, if_neg hre]
    have hm : «match» re text = matchLoop re text := by
      rw [«match».eq_def]
      split
      · simp at hre
      · rfl
    simp only [ha, hm, matchLoop_iff, matchhere_iff, Bool.false_eq_true, false_implies, true_and]
    constructor
    · rintro ⟨p, s, rfl, u, v, rfl, hu, hv⟩
      exact ⟨p, u, v, by simp, hu, hv⟩
    · rintro ⟨p, u, v, rfl, hu, hv⟩
      exact ⟨p, u ++ v, by simp, u, v, rfl, hu, hv⟩

end Grep

end Xv6
