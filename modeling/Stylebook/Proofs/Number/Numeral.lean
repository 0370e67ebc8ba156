import Mathlib.Tactic.IntervalCases
import Stylebook.Number.Spelling
import Stylebook.Proofs.Number.Digits
import Stylebook.Proofs.Text.Infix

/-!
# The spelling of a number is a numeral of JSON

JSON has one form of numerals (`isNumeral`): a sign that is a minus, a whole
part without a zero in front of other digits, and then, each if it is there,
a point with digits behind it and an exponent with a sign of either kind.
Every number of a style is spelled in this form (`Number.isNumeral_spell`).
For a double that rests on its first digit: in positional notation it stands
at the front of the whole part, where a zero would not do.
-/

namespace Stylebook

/-! ## Numerals

The form is written down as a decision that looks at characters only. It is
used a second time by the reader of JSON, which takes exactly these
numerals. -/

/-- Digits, one at least. -/
def isDigits (cs : List Char) : Bool := !cs.isEmpty && cs.all Char.isDigit

/-- **The whole part of a numeral**: a zero stands in front of no other
digit. -/
def isWholePart (cs : List Char) : Bool := isDigits cs && (cs.head? ≠ some '0' || cs.length = 1)

/-- **The exponent of a numeral**, or nothing. -/
def isExponent : List Char → Bool
  | [] => true
  | e :: cs => (e = 'e' || e = 'E') && isDigits (Number.takeSign cs).2

/-- What follows the whole part of a numeral: a point with digits behind it,
or nothing, and then the exponent. -/
def isFraction : List Char → Bool
  | '.' :: cs => isDigits (cs.takeWhile Char.isDigit) && isExponent (cs.dropWhile Char.isDigit)
  | cs => isExponent cs

/-- A numeral without a sign. -/
def isUnsigned (cs : List Char) : Bool :=
  isWholePart (cs.takeWhile Char.isDigit) && isFraction (cs.dropWhile Char.isDigit)

/-- **A numeral of JSON.** -/
def isNumeral : List Char → Bool
  | '-' :: cs => isUnsigned cs
  | cs => isUnsigned cs

section Numeral

variable {ds cs : List Char}

/-- The same in words. -/
theorem isDigits_iff : isDigits ds = true ↔ ds ≠ [] ∧ ∀ c ∈ ds, c.isDigit = true := by
  unfold isDigits
  simp

/-- No digit stands in front of an exponent. -/
theorem isDigit_head?_of_isExponent (h : isExponent cs = true) :
    ∀ c ∈ cs.head?, c.isDigit = false := by
  cases cs with
  | nil => simp
  | cons e cs =>
    rintro _ ⟨⟩
    unfold isExponent at h
    simp only [Bool.and_eq_true, Bool.or_eq_true, decide_eq_true_eq] at h
    obtain ⟨rfl | rfl, -⟩ := h <;> rfl

/-- A fraction may be left out in front of an exponent. -/
theorem isFraction_of_isExponent (h : isExponent cs = true) : isFraction cs = true := by
  unfold isFraction
  split
  · exact absurd h (by simp [isExponent])
  · exact h

/-- A fraction that is there has digits. -/
theorem isFraction_append (hds : isDigits ds = true) (hcs : isExponent cs = true) :
    isFraction ('.' :: (ds ++ cs)) = true := by
  have hall := (isDigits_iff.mp hds).2
  have hhead := isDigit_head?_of_isExponent hcs
  show (isDigits ((ds ++ cs).takeWhile _) && isExponent ((ds ++ cs).dropWhile _)) = true
  rw [Text.takeWhile_append_eq hall hhead, Text.dropWhile_append_eq hall hhead, hds, hcs]
  rfl

/-- No digit stands in front of a point or an exponent. -/
theorem isDigit_head?_of_isFraction (h : isFraction cs = true) :
    ∀ c ∈ cs.head?, c.isDigit = false := by
  unfold isFraction at h
  split at h
  · rintro _ ⟨⟩
    rfl
  · exact isDigit_head?_of_isExponent h

/-- A whole part and a fraction make a numeral without a sign, -/
theorem isUnsigned_append (hds : isWholePart ds = true) (hcs : isFraction cs = true) :
    isUnsigned (ds ++ cs) = true := by
  have hall : ∀ c ∈ ds, c.isDigit = true :=
    (isDigits_iff.mp (Bool.and_eq_true_iff.mp hds).1).2
  have hhead := isDigit_head?_of_isFraction hcs
  unfold isUnsigned
  rw [Text.takeWhile_append_eq hall hhead, Text.dropWhile_append_eq hall hhead, hds, hcs]
  rfl

/-- A numeral needs no sign. -/
theorem isNumeral_of_isUnsigned (h : isUnsigned cs = true) : isNumeral cs = true := by
  unfold isNumeral
  split
  · exact absurd h (by simp [isUnsigned, isWholePart, isDigits])
  · exact h

/-- A numeral may have a minus in front. -/
theorem isNumeral_minus (h : isUnsigned cs = true) : isNumeral ('-' :: cs) = true := h

/-- The sign of a double. -/
theorem isNumeral_sign_append (negative : Bool) (h : isUnsigned cs = true) :
    isNumeral ((if negative then ['-'] else []) ++ cs) = true := by
  cases negative with
  | false => exact isNumeral_of_isUnsigned h
  | true => exact isNumeral_minus h

end Numeral

/-! ## The digits of a natural number

Natural numbers are spelled without zeros in front, which is what a numeral
asks of its whole part. -/

section Digits

variable {n : ℕ}

/-- The digits of a number are digits, -/
theorem isDigits_toDigits (n : ℕ) : isDigits (Nat.toDigits 10 n) = true :=
  isDigits_iff.mpr ⟨Nat.toDigits_ne_nil, fun _ hc =>
    Nat.isDigit_of_mem_toDigits (by decide) (le_refl 10) hc⟩

/-- **Only zero has the digit zero in front.** -/
theorem head?_toDigits_ne (h : 0 < n) : (Nat.toDigits 10 n).head? ≠ some '0' := by
  induction n using Nat.strongRecOn with
  | ind n ih =>
    by_cases hn : n < 10
    · rw [Nat.toDigits_of_lt_base hn]
      interval_cases n <;> decide
    · rw [Nat.toDigits_of_base_le (by decide) (by omega),
        List.head?_append_of_ne_nil _ Nat.toDigits_ne_nil]
      exact ih (n / 10) (by omega) (by omega)

/-- The decimal digits of a number are a whole part. -/
theorem isWholePart_toDigits (n : ℕ) : isWholePart (Nat.toDigits 10 n) = true := by
  unfold isWholePart
  rw [isDigits_toDigits, Bool.true_and]
  cases n with
  | zero => rfl
  | succ n => simp [head?_toDigits_ne (Nat.succ_pos n)]

/-- So a natural number is spelled by a numeral. -/
theorem isUnsigned_repr (n : ℕ) : isUnsigned n.repr.toList = true := by
  rw [Nat.repr_eq_ofList_toDigits, String.toList_ofList, ← List.append_nil (Nat.toDigits 10 n)]
  exact isUnsigned_append (isWholePart_toDigits n) rfl

end Digits

/-! ## Doubles

A double is written in one of three ways, by the place of its point. In two
of them its first digit stands in front, and in the third one a single zero
does. -/

namespace Double

variable {ds : List Char}

/-- Zeros in front of digits are digits. -/
theorem isDigits_replicate_append (hds : isDigits ds = true) (k : ℕ) :
    isDigits (List.replicate k '0' ++ ds) = true := by
  obtain ⟨hne, hall⟩ := isDigits_iff.mp hds
  refine isDigits_iff.mpr ⟨by simp [hne], fun c hc => ?_⟩
  obtain hzero | hc := List.mem_append.mp hc
  · rw [List.eq_of_mem_replicate hzero]
    rfl
  · exact hall c hc

/-- **Digits in positional notation are a numeral**, when no zero is in
front. -/
theorem isUnsigned_positional (hds : isDigits ds = true) (hhead : ds.head? ≠ some '0')
    (top : Int) : isUnsigned (positional ds top) = true := by
  obtain ⟨hne, hall⟩ := isDigits_iff.mp hds
  unfold positional
  split
  · rw [← List.append_nil (List.replicate _ _ ++ ds)]
    have hzero : isWholePart ['0'] = true := rfl
    have hend : isExponent [] = true := rfl
    exact isUnsigned_append hzero (isFraction_append (isDigits_replicate_append hds _) hend)
  · dsimp only
    obtain ⟨padded, hpadded⟩ : ∃ padded, padded
        = ds ++ List.replicate (top.toNat + 1 - ds.length) '0' := ⟨_, rfl⟩
    have hdigit : ∀ c ∈ padded, c.isDigit = true := by
      intro c hc
      rw [hpadded] at hc
      obtain hc | hzero := List.mem_append.mp hc
      · exact hall c hc
      · rw [List.eq_of_mem_replicate hzero]
        rfl
    have hfirst : padded.head? ≠ some '0' := by
      rwa [hpadded, List.head?_append_of_ne_nil _ hne]
    have hlong : padded ≠ [] := by
      rw [hpadded]
      exact List.append_ne_nil_of_left_ne_nil hne _
    rw [← hpadded]
    refine isUnsigned_append ?_ ?_
    · -- the whole part begins with the first digit
      unfold isWholePart
      rw [List.head?_take, if_neg (Nat.succ_ne_zero _), decide_eq_true hfirst, Bool.true_or,
        Bool.and_true, isDigits_iff]
      exact ⟨by simp [hlong], fun c hc => hdigit c (List.mem_of_mem_take hc)⟩
    · rw [← List.append_nil (ite _ _ _)]
      refine isFraction_append ?_ rfl
      split
      · rfl
      · rename_i hrest
        exact isDigits_iff.mpr ⟨by simpa using hrest, fun c hc =>
          hdigit c (List.mem_of_mem_drop hc)⟩

/-- **Digits with an exponent are a numeral**, whatever sign it is given. -/
theorem isUnsigned_scientific (hds : isDigits ds = true) (top : Int) :
    isUnsigned (scientific DoubleFormat.module ds top) = true := by
  obtain ⟨hne, hall⟩ := isDigits_iff.mp hds
  obtain ⟨c, cs, rfl⟩ := List.exists_cons_of_ne_nil hne
  have hwhole : isWholePart [c] = true := by
    simp [isWholePart, isDigits, hall c (List.mem_cons_self ..)]
  have hexponent : isExponent ('e' :: ((if top < 0 then ['-'] else ['+'])
      ++ decimalDigits top.natAbs)) = true := by
    split <;> exact isDigits_toDigits _
  unfold scientific
  dsimp only [List.drop_one, List.tail_cons, List.take_succ_cons, List.take_zero]
  rw [List.append_assoc, List.append_assoc, List.append_assoc]
  refine isUnsigned_append hwhole ?_
  split
  · exact isFraction_of_isExponent hexponent
  · rename_i hrest
    exact isFraction_append (isDigits_iff.mpr ⟨by simpa using hrest, fun d hd =>
      hall d (List.mem_cons_of_mem c hd)⟩) hexponent

/-- **The spelling of a double is a numeral.** -/
theorem isNumeral_spell (x : Double) : isNumeral (x.spell DoubleFormat.module).toList = true := by
  unfold spell
  dsimp only
  split
  · rw [String.toList_ofList]
    exact isNumeral_sign_append x.negative rfl
  · rename_i hzero
    have hpos : 0 < x.digits.1 := digits_fst_pos (Bool.eq_false_iff.mpr hzero)
    rw [String.toList_ofList]
    refine isNumeral_sign_append x.negative ?_
    split
    · exact isUnsigned_positional (isDigits_toDigits _) (head?_toDigits_ne hpos) _
    · exact isUnsigned_scientific (isDigits_toDigits _) _

end Double

/-- **The spelling of a number is a numeral.** -/
theorem Number.isNumeral_spell (n : Number) : isNumeral n.spell.toList = true := by
  cases n with
  | whole n =>
    show isNumeral (toString n).toList = true
    rw [Int.toString_eq_repr, Int.repr_eq_if]
    split
    · exact isNumeral_of_isUnsigned (isUnsigned_repr _)
    · rw [String.toList_append]
      exact isNumeral_minus (isUnsigned_repr _)
  | real x => exact x.isNumeral_spell

end Stylebook
