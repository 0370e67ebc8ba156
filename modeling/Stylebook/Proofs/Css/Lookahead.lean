import Stylebook.Css.Lexer

/-!
# Looking ahead up to an edge

To tell which token starts, and where a number ends, the reader looks at
what comes next. It looks for digits, letters, points, signs and line
breaks, and never for a space or a curly bracket that closes. Where such a
character, an *edge*, stands behind a text, nothing that is looked for in
the text depends on it or on what follows: neither whether a name or a
number starts (`startsIdent_append`, `startsNumber_append`) nor how long a
number is (`numberLength_append`).
-/

namespace Stylebook.Css

section Lookahead

variable {d : Char} (hd : d = ' ' ∨ d = '}') (cs r : List Char)

/-! ## What starts in front of an edge

The questions that are asked of a text before a token is read from it:
whether a line break, a digit, a name or a number stands at its start. Each
looks at three characters at most. -/

section Starts

include hd

/-- An edge is no line break, so what stands behind it does not make one. -/
theorem startsLineBreak_append : startsLineBreak (cs ++ d :: r) = startsLineBreak cs := by
  rcases hd with rfl | rfl <;> cases cs <;> rfl

/-- A digit is the first character or there is none. -/
theorem startsDigit_append : startsDigit (cs ++ d :: r) = startsDigit cs := by
  rcases hd with rfl | rfl <;> cases cs <;> rfl

/-- Whether a name starts is decided in front of the edge. A hyphen or a
backslash at the end of the text is the case to look at: it would need a
character behind it, and an edge is none of those. -/
theorem startsIdent_append : startsIdent (cs ++ d :: r) = startsIdent cs := by
  rcases cs with _ | ⟨c, cs⟩
  · rcases hd with rfl | rfl <;> rfl
  · by_cases hslash : c = '\\'
    · subst hslash
      exact congrArg (!·) (startsLineBreak_append hd cs r)
    · by_cases hminus : c = '-'
      · subst hminus
        rcases hd with rfl | rfl <;> cases cs <;> rfl
      · simp [startsIdent, hminus]

/-- So it is with a number, where a sign or a point may stand at the end. -/
theorem startsNumber_append : startsNumber (cs ++ d :: r) = startsNumber cs := by
  rcases cs with _ | ⟨c, cs⟩
  · rcases hd with rfl | rfl <;> rfl
  · have hdigit := startsDigit_append hd cs r
    rcases cs with _ | ⟨e, cs⟩
    · rcases hd with rfl | rfl <;> simp [startsNumber, startsDigit]
    · rw [List.cons_append] at hdigit
      by_cases hpoint : e = '.'
      · subst hpoint
        simp [startsNumber, hdigit, startsDigit_append hd]
      · simp [startsNumber, hdigit, hpoint]

end Starts

/-! ## How much is counted

What is counted is there, and an edge adds nothing to it. -/

/-- The digits at the front of a text are no more than the text. -/
theorem digitsLength_le : digitsLength cs ≤ cs.length := (List.takeWhile_sublist _).length_le

theorem fractionLength_le : fractionLength cs ≤ cs.length := by
  unfold fractionLength
  split
  · split
    · exact Nat.succ_le_succ (digitsLength_le _)
    · exact Nat.zero_le _
  · exact Nat.zero_le _

theorem exponentLength_le : exponentLength cs ≤ cs.length := by
  unfold exponentLength
  split
  · split
    · split
      · split
        · exact Nat.succ_le_succ (digitsLength_le _)
        · split
          · exact Nat.succ_le_succ (Nat.succ_le_succ (digitsLength_le _))
          · exact Nat.zero_le _
      · exact Nat.zero_le _
    · exact Nat.zero_le _
  · exact Nat.zero_le _

theorem numberLength_le (first : Char) : numberLength first cs ≤ cs.length := by
  have hdigits := digitsLength_le cs
  have hfraction := fractionLength_le (cs.drop (digitsLength cs))
  have hexponent := exponentLength_le (cs.drop (digitsLength cs
    + if first = '.' then 0 else fractionLength (cs.drop (digitsLength cs))))
  unfold numberLength
  simp only [List.length_drop] at hfraction hexponent
  split at hexponent <;> rename_i hfirst
  · simp only [hfirst, if_true]
    omega
  · simp only [hfirst, if_false]
    omega

/-- The digits of an escape are no more than there are, though only six are
taken. -/
theorem hexDigits_le (limit value : Nat) : (hexDigits limit value cs).2 ≤ cs.length := by
  induction cs generalizing limit value with
  | nil => cases limit <;> simp [hexDigits]
  | cons c cs ih =>
    cases limit with
    | zero => simp [hexDigits]
    | succ limit =>
      rw [hexDigits]
      split
      · exact Nat.succ_le_succ (ih _ _)
      · exact Nat.zero_le _

/-- A line break of two characters needs both. -/
theorem lineBreakLength_le : lineBreakLength cs ≤ cs.length := by
  unfold lineBreakLength
  split
  · simp
  · split <;> simp
  · simp

section Counts

include hd

/-- Digits go on up to an edge and not over it. -/
theorem digitsLength_append : digitsLength (cs ++ d :: r) = digitsLength cs := by
  have hdigit : d.isDigit = false := by rcases hd with rfl | rfl <;> rfl
  unfold digitsLength
  induction cs with
  | nil => simp [hdigit]
  | cons c cs ih => by_cases hc : c.isDigit = true <;> simp [hc, ih]

/-- A fraction ends at an edge. -/
theorem fractionLength_append : fractionLength (cs ++ d :: r) = fractionLength cs := by
  rcases cs with _ | ⟨c, cs⟩
  · rcases hd with rfl | rfl <;> rfl
  · by_cases hpoint : c = '.'
    · subst hpoint
      simp [fractionLength, startsDigit_append hd, digitsLength_append hd]
    · simp [fractionLength, hpoint]

/-- An exponent ends at an edge: it starts only where its first digit is in
sight. -/
theorem exponentLength_append : exponentLength (cs ++ d :: r) = exponentLength cs := by
  rcases cs with _ | ⟨c, _ | ⟨e, cs⟩⟩
  · rcases hd with rfl | rfl <;> rfl
  · rcases hd with rfl | rfl <;> simp [exponentLength]
  · have hdigits := digitsLength_append hd (e :: cs) r
    simp only [List.cons_append] at hdigits
    simp [exponentLength, startsDigit_append hd, digitsLength_append hd, hdigits]

/-- **A number ends in front of an edge.** An edge is none of the characters
of which a number is made. A number may still be shorter than what looks
like one, as where a point stands at the end and no digit behind it: then
too it is the same with the edge and without. -/
theorem numberLength_append (first : Char) :
    numberLength first (cs ++ d :: r) = numberLength first cs := by
  have hdigits := digitsLength_le cs
  have hfraction := fractionLength_le (cs.drop (digitsLength cs))
  rw [List.length_drop] at hfraction
  unfold numberLength
  simp only [digitsLength_append hd, List.drop_append_of_le_length hdigits,
    fractionLength_append hd]
  have hle : digitsLength cs + (if first = '.' then 0
      else fractionLength (cs.drop (digitsLength cs))) ≤ cs.length := by
    split <;> omega
  rw [List.drop_append_of_le_length hle, exponentLength_append hd]

/-- The digits of an escape end at an edge as well. -/
theorem hexDigits_append (limit value : Nat) :
    hexDigits limit value (cs ++ d :: r) = hexDigits limit value cs := by
  have hhex : hexDigit? d = none := by rcases hd with rfl | rfl <;> decide
  induction cs generalizing limit value with
  | nil => cases limit <;> simp [hexDigits, hhex]
  | cons c cs ih => cases limit <;> simp [hexDigits, ih]

/-- A line break is seen as a whole in front of an edge. -/
theorem lineBreakLength_append : lineBreakLength (cs ++ d :: r) = lineBreakLength cs := by
  rcases cs with _ | ⟨c, _ | ⟨e, cs⟩⟩
  · rcases hd with rfl | rfl <;> simp [lineBreakLength, isLineBreak]
  · rcases hd with rfl | rfl <;> simp [lineBreakLength]
  · by_cases hc : c = '\r' <;> by_cases he : e = '\n' <;> simp [lineBreakLength, hc, he]

end Counts

end Lookahead

end Stylebook.Css
