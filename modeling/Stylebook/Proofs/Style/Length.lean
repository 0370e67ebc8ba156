import Stylebook.Style.Length

/-!
# What a length looks like

The check of a length cuts a token after the number in front of it and looks
at the rest. This module says what passes: the word `auto` where it is
allowed, or a decimal number with a unit (`IsLength`). `splitNumber?` looks
for the end of the number by counting characters, with a mark for the point
that it has met. What it cuts off is a decimal number in the plain sense of
`IsDecimal`, where nothing is counted but the points.
-/

namespace Stylebook.Style

/-- **A decimal number**: an optional sign, and digits with at most one
point. The point may come first or last, but it is not all of it: one
character is a digit. -/
def IsDecimal (cs : List Char) : Prop :=
  ∃ sign body, cs = sign ++ body ∧ sign ∈ [[], ['+'], ['-']]
    ∧ (∀ c ∈ body, c.isDigit = true ∨ c = '.') ∧ body.count '.' ≤ 1
    ∧ ∃ c ∈ body, c.isDigit = true

/-- **A length**: `auto` where that is allowed, or a decimal number with the
default unit or one of the units of lengths. -/
def IsLength (allowsAuto : Bool) (defaultUnit text : String) : Prop :=
  allowsAuto = true ∧ text = "auto"
    ∨ ∃ number unit, text = String.ofList number ++ unit ∧ IsDecimal number
      ∧ (unit = defaultUnit ∨ Text.lower unit ∈ lengthUnits)

/-- What is counted as a numeral without a sign has digits and at most one
point, or none when a point came before. -/
theorem take_numeralLength (seenPoint : Bool) (cs : List Char) :
    (∀ c ∈ cs.take (numeralLength seenPoint cs), c.isDigit = true ∨ c = '.')
      ∧ (cs.take (numeralLength seenPoint cs)).count '.' ≤ if seenPoint then 0 else 1 := by
  fun_induction numeralLength seenPoint cs with
  | case1 seenPoint c cs hdigit ih =>
    have hne : c ≠ '.' := by
      rintro rfl
      exact absurd hdigit (by decide)
    rw [List.take_succ_cons, List.forall_mem_cons, List.count_cons_of_ne hne]
    exact ⟨⟨Or.inl hdigit, ih.1⟩, ih.2⟩
  | case2 seenPoint c cs hdigit hpoint ih =>
    obtain ⟨rfl, rfl⟩ : c = '.' ∧ seenPoint = false := by simpa using hpoint
    rw [List.take_succ_cons, List.forall_mem_cons, List.count_cons_self]
    exact ⟨⟨Or.inr rfl, ih.1⟩, Nat.succ_le_succ ih.2⟩
  | case3 | case4 => simp

/-- **What is cut off a token is a decimal number**, and nothing is lost. -/
theorem isDecimal_of_splitNumber? {cs number rest : List Char}
    (h : splitNumber? cs = some (number, rest)) : cs = number ++ rest ∧ IsDecimal number := by
  unfold splitNumber? at h
  dsimp only at h
  split at h
  case isFalse => cases h
  case isTrue hany =>
    cases h
    refine ⟨(List.take_append_drop _ _).symm, ?_⟩
    obtain ⟨d, hd, hdigit⟩ := List.any_eq_true.mp hany
    have hunsigned : ∀ body : List Char,
        (body.take (numeralLength false body)).count '.' ≤ 1 := fun body =>
      (take_numeralLength false body).2
    unfold signedLength at hd ⊢
    split at hd
    · rename_i c cs
      split at hd
      · -- the sign stands in front, and the digit is behind it
        rename_i hsign
        rw [if_pos hsign, List.take_succ_cons]
        rw [List.take_succ_cons] at hd
        refine ⟨[c], _, rfl, ?_, (take_numeralLength false cs).1, hunsigned cs, d, ?_, hdigit⟩
        · rcases (by simpa using hsign : c = '+' ∨ c = '-') with rfl | rfl <;> simp
        · rcases List.mem_cons.mp hd with rfl | hd
          · rcases (by simpa using hsign : d = '+' ∨ d = '-') with rfl | rfl <;>
              exact absurd hdigit (by decide)
          · exact hd
      · rename_i hsign
        rw [if_neg hsign]
        exact ⟨[], _, rfl, List.mem_cons_self, (take_numeralLength false _).1, hunsigned _, d, hd,
          hdigit⟩
    · cases hd

/-- **What passes as a length is one.** -/
theorem isLength_of_length? {allowsAuto : Bool} {defaultUnit token l : String}
    (h : length? allowsAuto defaultUnit token = some l) : IsLength allowsAuto defaultUnit l := by
  unfold length? at h
  split at h
  · rename_i hauto
    cases h
    exact Or.inl ⟨(Bool.and_eq_true_iff.mp hauto).1, rfl⟩
  · split at h
    · cases h
    · rename_i number unit hsplit
      obtain ⟨htoken, hdecimal⟩ := isDecimal_of_splitNumber? hsplit
      refine Or.inr ?_
      split at h
      · cases h
        exact ⟨number, defaultUnit, rfl, hdecimal, Or.inl rfl⟩
      · split at h
        · rename_i hunit
          cases h
          refine ⟨number, String.ofList unit, ?_, hdecimal, Or.inr (List.contains_iff_mem.mp hunit)⟩
          rw [← String.ofList_append, ← htoken, String.ofList_toList]
        · cases h

end Stylebook.Style
