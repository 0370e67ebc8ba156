import Mathlib
import Stylebook.Proofs.Css.Selector

/-!
# Lists of selectors

The selectors of a rule stand between commas, and each is read by itself: of
two lists with a comma between them, the selectors are those of the one and
then those of the other. A selector that is not supported has no text, and
it takes none away from the selectors around it.

Only a point stands in the way. It takes the token behind it along, to make
a class of a name, and it does so with a comma too. So a list that ends in a
point without a name runs on into the next one: its last selector, which
such a point leaves without a text, swallows the first selector of that
list. `ofPrelude_append_comma` says both, for all lists.
-/

namespace Stylebook.Css

namespace SelectorPart

/-- Whether tokens end in a point that has taken no token along. -/
def endsInPoint : List Token → Bool
  | [] => false
  | [t] => t = .delim '.'
  | t :: u :: ts => if t = .delim '.' then endsInPoint ts else endsInPoint (u :: ts)

/-- The part of a point and the token that it takes along. -/
def afterPoint : Token → SelectorPart
  | .ident n => .cls n
  | _ => .other (some ".")

/-- A point takes the token behind it along, whatever that is. -/
theorem ofTokens_point (t : Token) (ts : List Token) :
    ofTokens (.delim '.' :: t :: ts) = some (afterPoint t) :: ofTokens ts := by
  cases t <;> rfl

/-- Any other token is a part by itself. -/
theorem ofTokens_cons {t : Token} (hpoint : t ≠ .delim '.') (hcomma : t ≠ .comma)
    (ts : List Token) : ofTokens (t :: ts) = some (ofToken t) :: ofTokens ts := by
  rw [ofTokens]
  · rintro n us rfl
    exact absurd rfl hpoint
  · rintro u us rfl
    exact absurd rfl hpoint
  · rintro rfl
    exact absurd rfl hpoint
  · exact hcomma

/-- **A comma is one**, unless a point in front of it takes it along. -/
theorem ofTokens_append_comma (front back : List Token) :
    ofTokens (front ++ .comma :: back)
      = ofTokens front ++ ((if endsInPoint front then [] else [none]) ++ ofTokens back) := by
  fun_induction endsInPoint front with
  | case1 => rfl
  | case2 t =>
    by_cases hpoint : t = .delim '.'
    · subst hpoint
      rfl
    · simp only [hpoint, decide_false]
      by_cases hcomma : t = .comma
      · subst hcomma
        rfl
      · rw [List.singleton_append, ofTokens_cons hpoint hcomma, ofTokens_cons hpoint hcomma]
        rfl
  | case3 u ts ih =>
    rw [List.cons_append, List.cons_append, ofTokens_point, ofTokens_point, ih]
    rfl
  | case4 t u ts hpoint ih =>
    rw [List.cons_append]
    by_cases hcomma : t = .comma
    · subst hcomma
      exact congrArg (none :: ·) ih
    · rw [ofTokens_cons hpoint hcomma, ofTokens_cons hpoint hcomma, ih]
      rfl

end SelectorPart

namespace Selector

open SelectorPart

/-! ## Cutting at a comma -/

/-- Without a cut between them, the last piece of the one and the first of
the other are one. -/
theorem splitAtNone_append_of_eq {α : Type} {xs ys : List (Option α)} {front rest : List (List α)}
    {last first : List α} (hx : splitAtNone xs = front ++ [last])
    (hy : splitAtNone ys = first :: rest) :
    splitAtNone (xs ++ ys) = front ++ (last ++ first) :: rest := by
  induction xs generalizing front last with
  | nil =>
    cases front with
    | nil =>
      cases hx
      exact hy
    | cons p front => simp [splitAtNone] at hx
  | cons x xs ih =>
    cases x with
    | none =>
      cases front with
      | nil => simp [splitAtNone, splitAtNone_ne_nil] at hx
      | cons p front =>
        obtain ⟨rfl, htail⟩ := List.cons.inj hx
        exact congrArg ([] :: ·) (ih htail)
    | some x =>
      obtain ⟨p, ps, h⟩ := List.exists_cons_of_ne_nil (splitAtNone_ne_nil xs)
      rw [splitAtNone_cons_some h] at hx
      cases front with
      | nil =>
        obtain ⟨rfl, rfl⟩ := List.cons.inj hx
        have hxs : splitAtNone (xs ++ ys) = [] ++ (p ++ first) :: rest := ih h
        exact splitAtNone_cons_some hxs x
      | cons q front =>
        obtain ⟨rfl, rfl⟩ := List.cons.inj hx
        have hxs : splitAtNone (xs ++ ys) = (p :: front) ++ (last ++ first) :: rest := ih h
        exact splitAtNone_cons_some hxs x

/-! ## What is not supported

A selector has a text if all of its parts have one. So one part without a
text is enough for the selector to be left out, and it does not matter where
in the selector it stands. -/

/-- Squeezing leaves all parts but white space. -/
theorem mem_squeeze {p : SelectorPart} (hp : p ≠ .blank) {ps : List SelectorPart} (h : p ∈ ps)
    (afterBlank : Bool) : p ∈ squeeze afterBlank ps := by
  induction ps generalizing afterBlank with
  | nil => exact h
  | cons q ps ih =>
    by_cases hq : q = .blank
    · subst hq
      have hps : p ∈ ps := (List.mem_cons.mp h).resolve_left hp
      rw [squeeze]
      split
      · exact ih hps true
      · exact List.mem_cons_of_mem _ (ih hps true)
    · rw [squeeze_cons_of_ne hq]
      rcases List.mem_cons.mp h with rfl | hps
      · exact List.mem_cons_self
      · exact List.mem_cons_of_mem _ (ih hps false)

/-- Only white space is left out of a selector. -/
theorem mem_parts_ofParts {p : SelectorPart} (hp : p ≠ .blank) {ps : List SelectorPart}
    (h : p ∈ ps) : p ∈ (ofParts ps).parts := by
  have hmem := mem_squeeze hp h true
  unfold ofParts
  dsimp only
  split
  · rename_i hlast
    obtain ⟨front, hfront⟩ := List.getLast?_eq_some_iff.mp hlast
    rw [hfront] at hmem ⊢
    rw [List.dropLast_concat]
    simpa [hp] using hmem
  · exact hmem

/-- **A part that is not supported** leaves its selector without a text. -/
theorem canonical?_eq_none {p : SelectorPart} {s : Selector} (h : p ∈ s.parts)
    (hp : p.canonical? = none) : s.canonical? = none := by
  have hnone : s.parts.mapM SelectorPart.canonical? = none := by
    obtain ⟨parts⟩ := s
    induction parts with
    | nil => exact absurd h List.not_mem_nil
    | cons q parts ih =>
      rw [List.mapM_cons]
      rcases List.mem_cons.mp h with rfl | h
      · rw [hp]
        rfl
      · rw [ih h]
        cases q.canonical? <;> rfl
  rw [canonical?, hnone]
  rfl

/-! ## Lists with a comma between them

The pieces of the two lists are put together at the comma. If it is one, the
pieces stay as they are. If a point took it along there is one piece less,
made of the last and the first, and the part of the point is in it. -/

/-- The tokens of a prelude, without its comments. -/
def tokensOf (prelude : List Component) : List Token :=
  (prelude.filter fun c => !c.isComment).map Component.token

/-- Whether a prelude ends in a point that has taken no token along. -/
def endsInPoint (prelude : List Component) : Bool := SelectorPart.endsInPoint (tokensOf prelude)

/-- A comma. -/
def comma : Component := .leaf ⟨.comma, [',']⟩

/-- A comma between two preludes is one between their tokens. -/
theorem tokensOf_append_comma (front back : List Component) :
    tokensOf (front ++ comma :: back) = tokensOf front ++ .comma :: tokensOf back := by
  simp [tokensOf, comma, Component.isComment, Component.token]

/-- What is in the last piece stays there when more comes in front. -/
theorem exists_last_cons {α : Type} {a : α} {xs : List (Option α)}
    (h : ∃ ps last, splitAtNone xs = ps ++ [last] ∧ a ∈ last) (x : Option α) :
    ∃ ps last, splitAtNone (x :: xs) = ps ++ [last] ∧ a ∈ last := by
  obtain ⟨ps, last, hsplit, hmem⟩ := h
  cases x with
  | none => exact ⟨[] :: ps, last, congrArg ([] :: ·) hsplit, hmem⟩
  | some x =>
    cases ps with
    | nil => exact ⟨[], x :: last, splitAtNone_cons_some hsplit x, List.mem_cons_of_mem x hmem⟩
    | cons p ps => exact ⟨(x :: p) :: ps, last, splitAtNone_cons_some hsplit x, hmem⟩

/-- The last selector of a list that ends in a point has a point without a
name. -/
theorem exists_last_of_endsInPoint {ts : List Token} (h : SelectorPart.endsInPoint ts = true) :
    ∃ ps last, splitAtNone (SelectorPart.ofTokens ts) = ps ++ [last]
      ∧ .other (some ".") ∈ last := by
  fun_induction SelectorPart.endsInPoint ts with
  | case1 => cases h
  | case2 t =>
    obtain rfl := of_decide_eq_true h
    exact ⟨[], [.other (some ".")], rfl, List.mem_cons_self⟩
  | case3 u ts ih =>
    rw [ofTokens_point]
    exact exists_last_cons (ih h) _
  | case4 t u ts hpoint ih =>
    by_cases hcomma : t = .comma
    · subst hcomma
      exact exists_last_cons (ih h) none
    · rw [ofTokens_cons hpoint hcomma]
      exact exists_last_cons (ih h) _

/-- The selectors of a prelude are the pieces of its parts. -/
theorem ofPrelude_eq (prelude : List Component) : ofPrelude prelude
    = (splitAtNone (SelectorPart.ofTokens (tokensOf prelude))).map ofParts := rfl

/-- The selectors of both, before anything is cut. -/
theorem ofPrelude_append_comma_eq (front back : List Component) :
    ofPrelude (front ++ comma :: back)
      = (splitAtNone (SelectorPart.ofTokens (tokensOf front)
        ++ ((if endsInPoint front then [] else [none])
          ++ SelectorPart.ofTokens (tokensOf back)))).map ofParts := by
  rw [ofPrelude_eq, tokensOf_append_comma, ofTokens_append_comma]
  rfl

section Comma

variable {front : List Component} (back : List Component)

/-- A comma that no point takes along keeps both lists as they are. -/
theorem ofPrelude_append_comma_of_not (h : endsInPoint front = false) :
    ofPrelude (front ++ comma :: back) = ofPrelude front ++ ofPrelude back := by
  rw [ofPrelude_append_comma_eq, h, if_neg Bool.false_ne_true, List.singleton_append,
    splitAtNone_append, List.map_append]
  rfl

/-- **A comma that a point takes along** makes one selector of two, and it
is not supported, like the first one of them. -/
theorem exists_ofPrelude_append_comma (h : endsInPoint front = true) :
    ∃ selectors s joined next rest, ofPrelude front = selectors ++ [s]
      ∧ ofPrelude back = next :: rest
      ∧ ofPrelude (front ++ comma :: back) = selectors ++ joined :: rest
      ∧ s.canonical? = none ∧ joined.canonical? = none := by
  obtain ⟨ps, last, hfront, hmem⟩ := exists_last_of_endsInPoint h
  obtain ⟨first, rest, hback⟩ := List.exists_cons_of_ne_nil
    (splitAtNone_ne_nil (SelectorPart.ofTokens (tokensOf back)))
  have hnone : ∀ {parts}, .other (some ".") ∈ parts → (ofParts parts).canonical? = none :=
    fun hparts => canonical?_eq_none (mem_parts_ofParts (by simp) hparts) rfl
  refine ⟨ps.map ofParts, ofParts last, ofParts (last ++ first), ofParts first,
    rest.map ofParts, ?_, ?_, ?_, hnone hmem, hnone (List.mem_append_left first hmem)⟩
  · rw [ofPrelude_eq, hfront, List.map_append]
    rfl
  · rw [ofPrelude_eq, hback]
    rfl
  · rw [ofPrelude_append_comma_eq, h, if_pos rfl, List.nil_append,
      splitAtNone_append_of_eq hfront hback, List.map_append]
    rfl

end Comma

/-- **Lists of selectors with a comma between them.** The selectors are
those of the one list and then those of the other, unless the first list
ends in a point: this takes the comma along. Then the first selector of the
second list is lost, and no other one.

A point takes along whatever stands behind it, so a comma there ends no
selector. The two that it should keep apart are read as one, and this one
has a point without a name in it, which leaves it without a text. -/
theorem ofPrelude_append_comma (front back : List Component) :
    (ofPrelude (front ++ comma :: back) = ofPrelude front ++ ofPrelude back
        ↔ endsInPoint front = false)
      ∧ canonicalTexts (ofPrelude (front ++ comma :: back)) = canonicalTexts (ofPrelude front)
        ++ canonicalTexts (if endsInPoint front then (ofPrelude back).tail else ofPrelude back) := by
  cases hpoint : endsInPoint front with
  | false =>
    have heq := ofPrelude_append_comma_of_not back hpoint
    refine ⟨iff_of_true heq rfl, ?_⟩
    rw [heq, if_neg Bool.false_ne_true]
    exact List.filterMap_append
  | true =>
    obtain ⟨selectors, s, joined, next, rest, hfront, hback, heq, hs, hjoined⟩ :=
      exists_ofPrelude_append_comma back hpoint
    rw [heq, hfront, hback, if_pos rfl, List.tail_cons]
    refine ⟨iff_of_false (fun h => ?_) (by simp), ?_⟩
    · -- one selector is missing
      have hlength := congrArg List.length h
      simp at hlength
    · simp [canonicalTexts, hs, hjoined]

/-- **A point without a name takes the comma behind it along**, and so the
selector behind the comma is lost. -/
theorem canonicalTexts_of_point :
    Component.ofText ".a.,.b".toList
        = Component.ofText ".a.".toList ++ comma :: Component.ofText ".b".toList
      ∧ canonicalTexts (ofPrelude (Component.ofText ".a.,.b".toList)) = []
      ∧ canonicalTexts (ofPrelude (Component.ofText ".a.".toList)) = []
      ∧ canonicalTexts (ofPrelude (Component.ofText ".b".toList)) = [".b"] := by
  refine ⟨?_, ?_, ?_, ?_⟩ <;> cbv

end Selector

end Stylebook.Css
