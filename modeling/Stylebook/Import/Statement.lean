import Stylebook.Text.Blank

/-!
# Import statements as text

Imports are inlined in the text of a stylesheet. The statement of a target
`t` is `@import`, white space, a quote, `t`, the same quote, optional white
space and a semicolon. White space in front of it goes with it. `replaceAll`
replaces the statements of one target from left to right; nothing is
searched a second time.
-/

namespace Stylebook.Import

open Text (isBlank dropFront?)

/-- The word that starts a statement. -/
def keyword : List Char := ['@', 'i', 'm', 'p', 'o', 'r', 't']

/-- What follows the keyword, the white space and the opening quote `quote`
of a statement of the target: the rest of the statement is taken off. -/
def afterQuote? (quote : Char) (target cs : List Char) : Option (List Char) := do
  let rest ← dropFront? target cs
  let rest ← dropFront? [quote] rest
  dropFront? [';'] (rest.dropWhile isBlank)

/-- What follows a statement of the target, when the text starts with one. -/
def afterStatement? (target cs : List Char) : Option (List Char) :=
  match dropFront? keyword cs with
  | none => none
  | some rest =>
    if (rest.head?.map isBlank).getD false then
      match rest.dropWhile isBlank with
      | '"' :: after => afterQuote? '"' target after
      | '\'' :: after => afterQuote? '\'' target after
      | _ => none
    else none

theorem length_le_of_dropFront? {front cs rest : List Char} (h : dropFront? front cs = some rest) :
    rest.length ≤ cs.length := by
  rw [Text.append_of_dropFront? h]
  simp

theorem length_le_of_afterQuote? {quote : Char} {target cs rest : List Char}
    (h : afterQuote? quote target cs = some rest) : rest.length ≤ cs.length := by
  unfold afterQuote? at h
  simp only [Option.bind_eq_bind, Option.bind_eq_some_iff] at h
  obtain ⟨r₁, h₁, r₂, h₂, h₃⟩ := h
  have l₁ := length_le_of_dropFront? h₁
  have l₂ := length_le_of_dropFront? h₂
  have l₃ := length_le_of_dropFront? h₃
  have l₄ := (List.dropWhile_sublist isBlank (l := r₂)).length_le
  omega

/-- A statement takes characters. -/
theorem length_lt_of_afterStatement? {target cs rest : List Char}
    (h : afterStatement? target cs = some rest) : rest.length < cs.length := by
  unfold afterStatement? at h
  split at h
  · cases h
  · rename_i r hr
    have l₁ : cs.length = r.length + 7 := by
      rw [Text.append_of_dropFront? hr]
      simp [keyword]
    have l₂ := (List.dropWhile_sublist isBlank (l := r)).length_le
    split at h
    · split at h
      · rename_i heq
        have l₃ := length_le_of_afterQuote? h
        rw [heq] at l₂
        simp only [List.length_cons] at l₂
        omega
      · rename_i heq
        have l₃ := length_le_of_afterQuote? h
        rw [heq] at l₂
        simp only [List.length_cons] at l₂
        omega
      · cases h
    · cases h

/-- Replaces the statements of a target in `cs`, where `spaces` is the white
space right before it, last character first. -/
def replaceFrom (target replacement spaces : List Char) : List Char → List Char
  | [] => spaces.reverse
  | c :: cs =>
    match h : afterStatement? target (c :: cs) with
    | some rest =>
      have := length_lt_of_afterStatement? h
      replacement ++ replaceFrom target replacement [] rest
    | none =>
      if isBlank c then replaceFrom target replacement (c :: spaces) cs
      else spaces.reverse ++ c :: replaceFrom target replacement [] cs
termination_by cs => cs.length
decreasing_by
  · exact this
  · simp
  · simp

/-- **A text with every statement of a target replaced**, and the white
space in front of it with it. -/
def replaceAll (target replacement text : List Char) : List Char :=
  replaceFrom target replacement [] text

/-- **A text without the statements of a target.** -/
def strip (target text : List Char) : List Char := replaceAll target [] text

end Stylebook.Import
