import Stylebook.Proofs.Css.Closed

/-!
# What a token needs of what follows

Where a token ends is decided by what stands behind it. Whether it still
ends there when something else stands behind it depends on the first two
characters at most: a digit, a letter or an opening parenthesis may go on
with the token, and so may a sign or a point, but only together with the
character behind it. `NoMore` compares two rests of a text in this regard,
the one starts no more than the other does.

Written without escapes, a name, a number, an identifier and a function are
read from their own characters. So they end where they did in front of a
rest that starts no more (`numeric_eq`, `identLike_eq`).
-/

namespace Stylebook.Css

/-! ## Rests of a text

The text of a function is the place where the rest changes: a token in it
was read in front of a space, and now it stands in front of the next token.
What has to be known of the two rests is less than that they are equal, and
it is known without reading them as tokens. -/

/-- **A text without escapes**, and without NUL, which is read as another
character. -/
def Unescaped (cs : List Char) : Prop := '\\' ∉ cs ∧ '\x00' ∉ cs

instance : DecidablePred Unescaped := fun _ => inferInstanceAs (Decidable (_ ∧ _))

/-- Whether a sign or a point starts a number or a name together with the
character behind it. -/
def Joins (c d : Char) : Prop :=
  c = '-' ∧ isNameChar d = true ∨ (c = '+' ∨ c = '.') ∧ d.isDigit = true

/-- **A rest `v` starts no more than `w`**: their first characters are the
same, or a parenthesis closes where `w` is empty, and a sign or a point in
`v` with what belongs to it is also in `w`. -/
structure NoMore (v w : List Char) : Prop where
  head : v.head? = w.head? ∨ w = [] ∧ v.head? = some ')'
  second : ∀ c d r, v = c :: d :: r → Joins c d → ∃ r', w = c :: d :: r'

section Following

variable {u v w cs : List Char} {c d : Char}

namespace Unescaped

/-- Escapes are found in the one part or in the other. -/
theorem append_iff : Unescaped (u ++ v) ↔ Unescaped u ∧ Unescaped v := by
  simp only [Unescaped, List.mem_append, not_or]
  tauto

/-- A text has no escapes if its first character is none and the others have
none. -/
theorem cons_iff : Unescaped (c :: cs) ↔ (c ≠ '\\' ∧ c ≠ '\x00') ∧ Unescaped cs := by
  simp only [Unescaped, List.mem_cons, not_or]
  constructor
  · rintro ⟨⟨hslash, hcs⟩, hnul, hcs'⟩
    exact ⟨⟨Ne.symm hslash, Ne.symm hnul⟩, hcs, hcs'⟩
  · rintro ⟨⟨hslash, hnul⟩, hcs, hcs'⟩
    exact ⟨⟨Ne.symm hslash, hcs⟩, Ne.symm hnul, hcs'⟩

/-- So a front of such a text is one. -/
theorem append_left (h : Unescaped (u ++ v)) : Unescaped u := (append_iff.mp h).1

/-- An end of such a text is one, too. -/
theorem append_right (h : Unescaped (u ++ v)) : Unescaped v := (append_iff.mp h).2

end Unescaped

/-- A digit is a character of a name. -/
theorem isNameChar_of_isDigit (h : c.isDigit = true) : isNameChar c = true := by
  simp [isNameChar, Char.isAlphanum, h]

/-- What starts a name is a character of it, if it is written as such. -/
theorem isNameChar_of_isNameStart (h : isNameStart c = true) (hnul : c ≠ '\x00') :
    isNameChar c = true := by
  simp only [isNameStart, Bool.or_eq_true, decide_eq_true_eq, or_assoc] at h
  rcases h with h | h | h | h
  · simp [isNameChar, Char.isAlphanum, h]
  · simp [isNameChar, h]
  · exact absurd h hnul
  · simp [isNameChar, h]

/-- A character of a name starts one, or it is a digit or a hyphen. -/
theorem cases_of_isNameChar (h : isNameChar c = true) :
    isNameStart c = true ∨ c.isDigit = true ∨ c = '-' := by
  simp only [isNameChar, Char.isAlphanum, Bool.or_eq_true, decide_eq_true_eq, or_assoc] at h
  rcases h with h | h | h | h | h
  · exact .inl (by simp [isNameStart, h])
  · exact .inr (.inl h)
  · exact .inl (by simp [isNameStart, h])
  · exact .inr (.inr h)
  · exact .inl (by simp [isNameStart, h])

/-- Apart from hyphens and escapes the first character decides whether a
name starts. -/
theorem startsIdent_cons (hminus : c ≠ '-') (hslash : c ≠ '\\') (cs : List Char) :
    startsIdent (c :: cs) = isNameStart c := by
  unfold startsIdent
  split
  · next heq => exact absurd (List.cons.inj heq).1.symm (by simpa using hminus.symm)
  · next heq => exact absurd (List.cons.inj heq).1 hslash
  · next heq => rw [(List.cons.inj heq).1]
  · next heq => cases heq

/-- Where a digit starts, there is one. -/
theorem exists_of_startsDigit (h : startsDigit w = true) :
    ∃ d r, w = d :: r ∧ d.isDigit = true := by
  cases w with
  | nil => cases h
  | cons d r => exact ⟨d, r, rfl, h⟩

/-- An identifier starts with a character of a name. -/
theorem isNameChar_of_startsIdent (h : startsIdent (c :: cs) = true) (hslash : c ≠ '\\')
    (hnul : c ≠ '\x00') : isNameChar c = true := by
  by_cases hminus : c = '-'
  · rw [hminus]
    decide
  · rw [startsIdent_cons hminus hslash] at h
    exact isNameChar_of_isNameStart h hnul

/-- Where an identifier starts, there is a character of a name. -/
theorem exists_of_startsIdent (h : startsIdent w = true) (hw : Unescaped w) :
    ∃ c r, w = c :: r ∧ isNameChar c = true := by
  cases w with
  | nil => cases h
  | cons c r =>
    obtain ⟨⟨hslash, hnul⟩, -⟩ := Unescaped.cons_iff.mp hw
    exact ⟨c, r, rfl, isNameChar_of_startsIdent h hslash hnul⟩

/-- A character of a name starts an identifier or a number, or it is a
hyphen. -/
theorem startsIdent_or_of_isNameChar (h : isNameChar c = true) (cs : List Char) :
    (startsIdent (c :: cs) || startsDigit (c :: cs) || (c :: cs).head? = some '-') = true := by
  rcases cases_of_isNameChar h with hc | hc | rfl
  · have hminus : c ≠ '-' := by
      rintro rfl
      exact absurd hc (by decide)
    have hslash : c ≠ '\\' := by
      rintro rfl
      exact absurd h (by decide)
    rw [startsIdent_cons hminus hslash, hc]
    rfl
  · simp [startsDigit, hc]
  · simp

namespace NoMore

variable (h : NoMore v w)

include h

/-- A first character that is no closing parenthesis is the same. -/
theorem head_eq (hv : v.head? = some c) (hc : c ≠ ')') : w.head? = some c := by
  rcases h.head with heq | ⟨-, heq⟩
  · rw [← heq, hv]
  · rw [hv] at heq
    exact absurd (Option.some.inj heq) hc

/-- What does not stand at the start of the one text does not stand at the
start of the other. -/
theorem head_ne (hw : w.head? ≠ some c) (hc : c ≠ ')') : v.head? ≠ some c :=
  fun hv => hw (h.head_eq hv hc)

/-- No digit starts, -/
theorem startsDigit_eq_false (hw : startsDigit w = false) : startsDigit v = false := by
  rw [Bool.eq_false_iff]
  intro hv
  obtain ⟨d, r, rfl, hd⟩ := exists_of_startsDigit hv
  have hclose : d ≠ ')' := by
    rintro rfl
    cases hd
  obtain ⟨r', rfl⟩ := List.head?_eq_some_iff.mp (h.head_eq rfl hclose)
  rw [startsDigit, hd] at hw
  cases hw

/-- The first character of a name is the same. -/
theorem isNameChar_head (hv : v = c :: cs) (hc : isNameChar c = true) : w.head? = some c := by
  refine h.head_eq (by rw [hv]; rfl) ?_
  rintro rfl
  exact absurd hc (by decide)

/-- Where no identifier started before, none starts with more text behind
it. This is what the second condition is for: a hyphen that was alone may
not meet a name. -/
theorem startsIdent_eq_false (hv : Unescaped v) (hw : startsIdent w = false) :
    startsIdent v = false := by
  rw [Bool.eq_false_iff]
  intro hstart
  obtain ⟨c, r, rfl, hc⟩ := exists_of_startsIdent hstart hv
  obtain ⟨⟨hslash, -⟩, hr⟩ := Unescaped.cons_iff.mp hv
  obtain ⟨r', rfl⟩ := List.head?_eq_some_iff.mp (h.isNameChar_head rfl hc)
  by_cases hminus : c = '-'
  · subst hminus
    -- a hyphen needs the character behind it
    cases r with
    | nil => exact absurd hstart (by decide)
    | cons d r =>
      obtain ⟨⟨hslash, hnul⟩, -⟩ := Unescaped.cons_iff.mp hr
      have hd : isNameChar d = true := by
        simp only [startsIdent, Bool.or_eq_true, decide_eq_true_eq, hslash, or_false] at hstart
        rcases hstart with hstart | rfl
        · exact isNameChar_of_isNameStart hstart hnul
        · decide
      obtain ⟨r'', heq⟩ := h.second '-' d r rfl (.inl ⟨rfl, hd⟩)
      obtain rfl := (List.cons.inj heq).2
      have hsame : startsIdent ('-' :: d :: r'') = startsIdent ('-' :: d :: r) := rfl
      rw [hsame, hstart] at hw
      cases hw
  · rw [startsIdent_cons hminus hslash] at hstart hw
    rw [hstart] at hw
    cases hw

/-- A sign or a point is followed by a digit in both. -/
theorem startsDigit_of_joins (hc : c = '+' ∨ c = '.' ∨ c = '-') (hv : v = c :: cs)
    (hcs : startsDigit cs = true) : ∃ r, w = c :: r ∧ startsDigit r = true := by
  obtain ⟨d, r, rfl, hd⟩ := exists_of_startsDigit hcs
  have hjoins : Joins c d := by
    rcases hc with rfl | rfl | rfl
    · exact .inr ⟨.inl rfl, hd⟩
    · exact .inr ⟨.inr rfl, hd⟩
    · exact .inl ⟨rfl, isNameChar_of_isDigit hd⟩
  obtain ⟨r', rfl⟩ := h.second c d r hv hjoins
  exact ⟨d :: r', rfl, hd⟩

end NoMore

/-! ## Names

A name goes on as long as its characters do, so only the first character of
the rest counts. -/

/-- **A name that ends in front of a rest** is what stands there. -/
theorem name_eq_of_length (hu : Unescaped u) (h : (name (u ++ w)).2 = u.length) :
    (∀ c ∈ u, isNameChar c = true) ∧ name w = ([], 0) := by
  induction u with
  | nil =>
    refine ⟨fun _ hc => absurd hc List.not_mem_nil, ?_⟩
    have h : (name w).2 = 0 := h
    cases w with
    | nil => rw [name]
    | cons d w =>
      rw [name] at h ⊢
      split at h
      · cases h
      split at h
      · cases h
      split at h
      · cases h
      · next hchar hnul hslash => rw [if_neg hchar, if_neg hnul, if_neg hslash]
  | cons c u ih =>
    obtain ⟨⟨hslash, hnul⟩, hu⟩ := Unescaped.cons_iff.mp hu
    rw [List.cons_append, name] at h
    by_cases hc : isNameChar c = true
    · rw [if_pos hc] at h
      obtain ⟨hall, hend⟩ := ih hu (Nat.succ.inj h)
      exact ⟨List.forall_mem_cons.mpr ⟨hc, hall⟩, hend⟩
    · rw [if_neg hc, if_neg hnul, if_neg (by simp [hslash])] at h
      cases h

/-- A name does not go on in front of a rest that starts no more. -/
theorem NoMore.name_eq_nil (h : NoMore v w) (hv : Unescaped v) (hw : name w = ([], 0)) :
    name v = ([], 0) := by
  cases v with
  | nil => rw [name]
  | cons c v =>
    obtain ⟨⟨hslash, hnul⟩, -⟩ := Unescaped.cons_iff.mp hv
    have hc : ¬isNameChar c = true := by
      intro hc
      obtain ⟨r, rfl⟩ := List.head?_eq_some_iff.mp (h.isNameChar_head rfl hc)
      rw [name, if_pos hc] at hw
      cases hw
    rw [name, if_neg hc, if_neg hnul, if_neg (by simp [hslash])]

/-- A name is not empty where an identifier starts. -/
theorem name_ne_nil (h : startsIdent w = true) : name w ≠ ([], 0) := by
  cases w with
  | nil => cases h
  | cons c r =>
    rw [name]
    split
    · exact fun heq => absurd (congrArg Prod.snd heq) (Nat.succ_ne_zero _)
    split
    · exact fun heq => absurd (congrArg Prod.snd heq) (Nat.succ_ne_zero _)
    split
    · exact fun heq => absurd (congrArg Prod.snd heq) (Nat.succ_ne_zero _)
    · next hchar hnul hslash =>
      have hslash' : c ≠ '\\' := by
        rintro rfl
        have hbreak : (!startsLineBreak r) = true := h
        exact hslash (by simp [hbreak])
      exact absurd (isNameChar_of_startsIdent h hslash' hnul) hchar

/-- Where a number or a name may end, no backslash follows. -/
theorem NoMore.head_ne_slash (h : NoMore v w) (hv : Unescaped v) : w.head? ≠ some '\\' := by
  intro hw
  rcases h.head with heq | ⟨rfl, -⟩
  · exact hv.1 (List.mem_of_mem_head? (heq.trans hw))
  · cases hw

/-- An identifier that is a hyphen would go on. -/
theorem startsIdent_hyphen (hslash : w.head? ≠ some '\\') (hend : name w = ([], 0)) :
    startsIdent ('-' :: w) = false := by
  rw [Bool.eq_false_iff]
  intro hstart
  cases w with
  | nil => exact absurd hstart (by decide)
  | cons d r =>
    have hd : isNameStart d = true ∨ d = '-' := by
      have hne : d ≠ '\\' := fun heq => hslash (by rw [heq]; rfl)
      simpa [startsIdent, hne] using hstart
    rw [name] at hend
    by_cases hchar : isNameChar d = true
    · rw [if_pos hchar] at hend
      cases hend
    by_cases hnul : d = '\x00'
    · rw [if_neg hchar, if_pos hnul] at hend
      cases hend
    rcases hd with hd | rfl
    · exact hchar (isNameChar_of_isNameStart hd hnul)
    · exact hchar (by decide)

/-- **An identifier starts where it did**, if it ends in front of a rest
that starts no more. -/
theorem NoMore.startsIdent_append (h : NoMore v w) (hv : Unescaped v) (hu : Unescaped (c :: cs))
    (hend : name w = ([], 0)) (hstart : startsIdent (c :: cs ++ w) = true) :
    startsIdent (c :: cs ++ v) = true := by
  obtain ⟨⟨hslash, -⟩, -⟩ := Unescaped.cons_iff.mp hu
  by_cases hminus : c = '-'
  · subst hminus
    cases cs with
    | nil =>
      rw [List.singleton_append, startsIdent_hyphen (h.head_ne_slash hv) hend] at hstart
      cases hstart
    | cons d cs => exact hstart
  · rw [List.cons_append, startsIdent_cons hminus hslash] at hstart ⊢
    exact hstart

/-! ## Numbers

A number is three counts, one behind the other, and each may end at the end
of the text in hand. The proofs go through the parts in this order. The
hypothesis is always that the part ended within the text; what is shown is
that it has the same length with the other rest. -/

/-- There are no digits where none starts. -/
theorem digitsLength_eq_zero_iff : digitsLength w = 0 ↔ startsDigit w = false := by
  cases w with
  | nil => simp [digitsLength, startsDigit]
  | cons d r => by_cases hd : d.isDigit = true <;> simp [digitsLength, startsDigit, hd]

/-- The rest does not count where there is a character before it. -/
theorem startsDigit_append_of_ne_nil (hu : u ≠ []) (v w : List Char) :
    startsDigit (u ++ v) = startsDigit (u ++ w) := by
  cases u with
  | nil => exact absurd rfl hu
  | cons c u => rfl

/-- Digits end where they did. -/
theorem digitsLength_eq (h : NoMore v w) (hu : digitsLength (u ++ w) ≤ u.length) :
    digitsLength (u ++ v) = digitsLength (u ++ w) := by
  induction u with
  | nil =>
    have hzero : digitsLength w = 0 := Nat.le_zero.mp hu
    rw [List.nil_append, List.nil_append, hzero, digitsLength_eq_zero_iff]
    exact h.startsDigit_eq_false (digitsLength_eq_zero_iff.mp hzero)
  | cons c u ih =>
    by_cases hc : c.isDigit = true
    · have hcons : ∀ r, digitsLength (c :: r) = digitsLength r + 1 := fun r => by
        simp [digitsLength, hc]
      rw [List.cons_append, hcons] at hu
      rw [List.cons_append, List.cons_append, hcons, hcons, ih (Nat.le_of_succ_le_succ hu)]
    · simp [digitsLength, hc]

/-- A fraction is a point with the digits behind it. -/
theorem fractionLength_point (cs : List Char) :
    fractionLength ('.' :: cs) = if startsDigit cs then digitsLength cs + 1 else 0 := rfl

/-- Without a point in front there is no fraction. -/
theorem fractionLength_of_ne (hc : c ≠ '.') (cs : List Char) : fractionLength (c :: cs) = 0 := by
  unfold fractionLength
  split
  · next heq => exact absurd (List.cons.inj heq).1 hc
  · rfl

/-- A fraction ends where it did. The case to look at is a point at the end
of the text: it is not part of the number if no digit follows, and then none
follows in the other rest. -/
theorem fractionLength_eq (h : NoMore v w) (hu : fractionLength (u ++ w) ≤ u.length) :
    fractionLength (u ++ v) = fractionLength (u ++ w) := by
  cases u with
  | nil =>
    have hzero : fractionLength w = 0 := Nat.le_zero.mp hu
    rw [List.nil_append, List.nil_append, hzero]
    cases v with
    | nil => rfl
    | cons c v =>
      by_cases hc : c = '.'
      · subst hc
        rw [fractionLength_point]
        refine if_neg fun hdigit => ?_
        obtain ⟨r, rfl, hr⟩ := h.startsDigit_of_joins (.inr (.inl rfl)) rfl hdigit
        rw [fractionLength_point, if_pos hr] at hzero
        cases hzero
      · exact fractionLength_of_ne hc v
  | cons c u =>
    by_cases hc : c = '.'
    · subst hc
      rw [List.cons_append, fractionLength_point] at hu
      rw [List.cons_append, List.cons_append, fractionLength_point, fractionLength_point]
      cases u with
      | nil =>
        -- the point was the last one: with a digit behind it the fraction would be longer
        have hnone : startsDigit w = false := by
          rw [Bool.eq_false_iff]
          intro hdigit
          have hne : digitsLength w ≠ 0 := fun hzero => by
            rw [digitsLength_eq_zero_iff.mp hzero] at hdigit
            cases hdigit
          rw [List.nil_append, if_pos hdigit] at hu
          exact hne (Nat.le_zero.mp (Nat.le_of_succ_le_succ hu))
        rw [List.nil_append, List.nil_append, hnone, h.startsDigit_eq_false hnone]
        rfl
      | cons d u =>
        rw [startsDigit_append_of_ne_nil (List.cons_ne_nil d u) v w]
        by_cases hd : startsDigit (d :: u ++ w) = true
        · rw [if_pos hd] at hu
          rw [if_pos hd, if_pos hd, digitsLength_eq h (Nat.le_of_succ_le_succ hu)]
        · rw [if_neg hd, if_neg hd]
    · rw [List.cons_append, List.cons_append, fractionLength_of_ne hc, fractionLength_of_ne hc]

/-- What may stand behind the letter of an exponent: digits, with a sign or
without. -/
def exponentDigitsLength : List Char → Nat
  | c :: ds =>
    if c.isDigit then digitsLength (c :: ds)
    else if (c = '+' || c = '-') && startsDigit ds then digitsLength ds + 1
    else 0
  | [] => 0

/-- An exponent is its letter with digits behind it, which may have a sign. -/
theorem exponentLength_cons (c : Char) (cs : List Char) : exponentLength (c :: cs)
    = if (c = 'e' ∨ c = 'E') ∧ exponentDigitsLength cs ≠ 0 then exponentDigitsLength cs + 1
      else 0 := by
  have hzero : ∀ d ds, d.isDigit = true → digitsLength (d :: ds) ≠ 0 := by
    intro d ds hd h
    rw [digitsLength_eq_zero_iff, startsDigit, hd] at h
    cases h
  by_cases he : c = 'e' ∨ c = 'E'
  · have he' : (decide (c = 'e') || decide (c = 'E')) = true := by simpa using he
    unfold exponentLength
    dsimp only
    rw [if_pos he']
    cases cs with
    | nil => simp [exponentDigitsLength]
    | cons d ds =>
      by_cases hd : d.isDigit = true
      · simp [exponentDigitsLength, hd, he, hzero d ds hd]
      · by_cases hsign : (decide (d = '+') || decide (d = '-')) && startsDigit ds
        · simp [exponentDigitsLength, hd, hsign, he]
        · simp [exponentDigitsLength, hd, hsign]
  · have he' : ¬(decide (c = 'e') || decide (c = 'E')) = true := by simpa using he
    unfold exponentLength
    dsimp only
    rw [if_neg he', if_neg fun h => he h.1]

/-- The digits of an exponent end where they did. -/
theorem exponentDigitsLength_eq (h : NoMore v w) (hu : exponentDigitsLength (u ++ w) ≤ u.length) :
    exponentDigitsLength (u ++ v) = exponentDigitsLength (u ++ w) := by
  cases u with
  | nil =>
    -- no exponent was there, so none may start with what stands there now
    have hzero : exponentDigitsLength w = 0 := Nat.le_zero.mp hu
    rw [List.nil_append, List.nil_append, hzero]
    cases v with
    | nil => rfl
    | cons c v =>
      have hc : ¬c.isDigit = true := by
        intro hc
        obtain ⟨r, rfl⟩ := List.head?_eq_some_iff.mp
          (h.isNameChar_head rfl (isNameChar_of_isDigit hc))
        rw [exponentDigitsLength, if_pos hc, digitsLength_eq_zero_iff, startsDigit, hc] at hzero
        cases hzero
      rw [exponentDigitsLength, if_neg hc]
      refine if_neg fun hsign => ?_
      simp only [Bool.and_eq_true, Bool.or_eq_true, decide_eq_true_eq] at hsign
      have hjoins : c = '+' ∨ c = '.' ∨ c = '-' := hsign.1.imp id .inr
      obtain ⟨r, rfl, hr⟩ := h.startsDigit_of_joins hjoins rfl hsign.2
      have hsign' : (decide (c = '+') || decide (c = '-')) && startsDigit r := by
        simp [hsign.1, hr]
      rw [exponentDigitsLength, if_neg hc, if_pos hsign'] at hzero
      cases hzero
  | cons c u =>
    rw [List.cons_append] at hu
    rw [List.cons_append, List.cons_append]
    unfold exponentDigitsLength at hu ⊢
    dsimp only at hu ⊢
    by_cases hc : c.isDigit = true
    · rw [if_pos hc] at hu
      rw [if_pos hc, if_pos hc]
      exact digitsLength_eq (u := c :: u) h hu
    rw [if_neg hc] at hu
    rw [if_neg hc, if_neg hc]
    by_cases hu' : u = []
    · subst hu'
      -- the sign was the last one: with a digit behind it the exponent would be longer
      have hnone : startsDigit w = false ∨ (decide (c = '+') || decide (c = '-')) = false := by
        by_contra hboth
        simp only [not_or, Bool.not_eq_false] at hboth
        have hne : digitsLength w ≠ 0 := fun hzero => by
          rw [digitsLength_eq_zero_iff.mp hzero] at hboth
          exact Bool.false_ne_true hboth.1
        rw [List.nil_append, if_pos (by simp [hboth.1, hboth.2])] at hu
        exact hne (Nat.le_zero.mp (Nat.le_of_succ_le_succ hu))
      rcases hnone with hnone | hnone
      · simp [hnone, h.startsDigit_eq_false hnone]
      · simp [hnone]
    · rw [startsDigit_append_of_ne_nil hu' v w]
      split at hu
      · next hsign =>
        rw [if_pos hsign, if_pos hsign, digitsLength_eq h (Nat.le_of_succ_le_succ hu)]
      · next hsign => rw [if_neg hsign, if_neg hsign]

/-- An exponent with its letter ends where it did. -/
theorem exponentLength_eq (h : NoMore v w) (hne : u ≠ [])
    (hu : exponentLength (u ++ w) ≤ u.length) :
    exponentLength (u ++ v) = exponentLength (u ++ w) := by
  obtain ⟨c, u, rfl⟩ := List.exists_cons_of_ne_nil hne
  rw [List.cons_append, exponentLength_cons] at hu
  rw [List.cons_append, List.cons_append, exponentLength_cons, exponentLength_cons]
  by_cases he : c = 'e' ∨ c = 'E'
  · have hdigits : exponentDigitsLength (u ++ w) ≤ u.length := by
      by_cases hzero : exponentDigitsLength (u ++ w) = 0
      · rw [hzero]
        exact Nat.zero_le _
      · rw [if_pos ⟨he, hzero⟩] at hu
        exact Nat.le_of_succ_le_succ hu
    rw [exponentDigitsLength_eq h hdigits]
  · rw [if_neg fun h => he h.1, if_neg fun h => he h.1]

/-- No exponent starts where no name does. -/
theorem exponentLength_of_startsIdent (h : startsIdent w = false) : exponentLength w = 0 := by
  cases w with
  | nil => rfl
  | cons c cs =>
    rw [exponentLength_cons]
    refine if_neg ?_
    rintro ⟨rfl | rfl, -⟩ <;> exact absurd h (by simp [startsIdent, isNameStart])

/-- **A number ends where it did** in front of a rest that starts no more. -/
theorem numberLength_eq (h : NoMore v w) (first : Char)
    (hu : numberLength first (u ++ w) ≤ u.length)
    (hend : numberLength first (u ++ w) < u.length
      ∨ startsIdent v = false ∧ startsIdent w = false) :
    numberLength first (u ++ v) = numberLength first (u ++ w) := by
  unfold numberLength at hu hend ⊢
  dsimp only at hu hend ⊢
  -- digits, fraction and exponent in turn, each from where the one before ended
  generalize ha : digitsLength (u ++ w) = a at hu hend ⊢
  have hau : a ≤ u.length := by omega
  have hdigits : digitsLength (u ++ v) = a := by rw [digitsLength_eq h (ha ▸ hau), ha]
  rw [hdigits]
  have hdrop : ∀ n ≤ u.length, ∀ r, (u ++ r).drop n = u.drop n ++ r :=
    fun n hn r => List.drop_append_of_le_length hn
  have hfraction : (if first = '.' then 0 else fractionLength ((u ++ v).drop a))
      = if first = '.' then 0 else fractionLength ((u ++ w).drop a) := by
    split
    · rfl
    · next hfirst =>
      rw [if_neg hfirst, hdrop a hau] at hu
      rw [hdrop a hau, hdrop a hau]
      refine fractionLength_eq h ?_
      rw [List.length_drop]
      omega
  rw [hfraction]
  generalize (if first = '.' then 0 else fractionLength ((u ++ w).drop a)) = b at hu hend ⊢
  have hbu : a + b ≤ u.length := by omega
  rw [hdrop _ hbu] at hu hend
  rw [hdrop _ hbu, hdrop _ hbu]
  congr 1
  by_cases hrest : u.drop (a + b) = []
  · rw [hrest, List.nil_append] at hend ⊢
    have hlength : u.length ≤ a + b := List.drop_eq_nil_iff.mp hrest
    obtain hlt | ⟨hv, hw⟩ := hend
    · omega
    · rw [List.nil_append, exponentLength_of_startsIdent hv, exponentLength_of_startsIdent hw]
  · refine exponentLength_eq h hrest ?_
    rw [List.length_drop]
    omega

/-! ## Tokens of a function

Strings, addresses and comments are left out of the text of a function, so
nothing is asked of them. What is kept starts and ends with characters that
are seen. -/

/-- **A token that stands in the text of a function**: one that counts among
its arguments, another function in them, or the parenthesis that closes one. -/
def Token.isKept : Token → Bool
  | .ident _ | .hash _ | .number | .percentage | .dimension _ | .comma | .delim _
  | .closing .paren => true
  | .function name => Text.lower name ≠ "url"
  | _ => false

/-- What a number is, that ends in front of a rest. -/
theorem numeric_cases {first : Char} {t : Token} (hu : Unescaped u)
    (h : numeric first (u ++ w) = (t, u.length)) :
    (t = .percentage ∧ ∃ p, u = p ++ ['%'] ∧ numberLength first (u ++ w) = p.length)
      ∨ (∃ p unit, u = p ++ unit ∧ unit ≠ [] ∧ t = .dimension (String.ofList unit)
        ∧ numberLength first (u ++ w) = p.length ∧ startsIdent (unit ++ w) = true
        ∧ (∀ c ∈ unit, isNameChar c = true) ∧ name w = ([], 0))
      ∨ t = .number ∧ numberLength first (u ++ w) = u.length ∧ w.head? ≠ some '%'
        ∧ startsIdent w = false := by
  have hdrop : ∀ n ≤ u.length, (u ++ w).drop n = u.drop n ++ w :=
    fun n hn => List.drop_append_of_le_length hn
  generalize hn : numberLength first (u ++ w) = n at h ⊢
  by_cases hpercent : ((u ++ w).drop n).head? = some '%'
  · obtain ⟨rest, hrest⟩ := List.head?_eq_some_iff.mp hpercent
    rw [numeric_of_percent (hn ▸ hrest), hn] at h
    obtain ⟨rfl, hlength⟩ := Prod.mk.inj h
    have htake : u.take n ++ u.drop n = u := List.take_append_drop n u
    have hone : (u.drop n).length = 1 := by
      rw [List.length_drop]
      omega
    obtain ⟨d, hd⟩ := List.length_eq_one_iff.mp hone
    rw [hdrop n (by omega), hd] at hrest
    obtain rfl : d = '%' := (List.cons.inj hrest).1
    refine .inl ⟨rfl, u.take n, ?_, ?_⟩
    · rw [← hd, htake]
    · rw [List.length_take]
      omega
  · rw [numeric_of_other (hn ▸ hpercent), hn] at h
    split at h
    · next hident =>
      obtain ⟨rfl, hlength⟩ := Prod.mk.inj h
      have hle : n ≤ u.length := by omega
      rw [hdrop n hle] at hident hlength ⊢
      have htake : u.take n ++ u.drop n = u := List.take_append_drop n u
      have hunit : Unescaped (u.drop n) := (htake.symm ▸ hu : Unescaped (_ ++ _)).append_right
      obtain ⟨hall, hend⟩ := name_eq_of_length (w := w) hunit (by rw [List.length_drop]; omega)
      refine .inr (.inl ⟨u.take n, u.drop n, htake.symm, ?_, ?_, ?_, hident, hall, hend⟩)
      · intro hnil
        rw [hnil] at hident
        exact name_ne_nil hident hend
      · rw [name_append hall hend]
      · rw [List.length_take]
        omega
    · next hident =>
      obtain ⟨rfl, rfl⟩ := Prod.mk.inj h
      rw [List.drop_left] at hpercent hident
      exact .inr (.inr ⟨rfl, rfl, hpercent, Bool.eq_false_iff.mpr hident⟩)

/-- **A number ends where it did**, with what is attached to it. The percent
sign and the unit are read behind the number, so first the number itself has
to end alike: this needs that no digit, point or letter of an exponent comes
in with the new rest. -/
theorem numeric_eq (h : NoMore v w) (hu : Unescaped u) (hv : Unescaped v) {first : Char}
    {t : Token} (hw : numeric first (u ++ w) = (t, u.length)) :
    numeric first (u ++ v) = (t, u.length) := by
  obtain ⟨rfl, p, rfl, hp⟩ | ⟨p, unit, rfl, hne, rfl, hp, hident, hall, hend⟩ |
    ⟨rfl, hp, hpercent, hident⟩ := numeric_cases hu hw
  · have hlength : numberLength first (p ++ ['%'] ++ v) = p.length := by
      rw [numberLength_eq h first (by rw [hp, List.length_append]; omega)
        (.inl (by rw [hp, List.length_append]; exact Nat.lt_succ_self _)), hp]
    have hdrop : (p ++ ['%'] ++ v).drop (numberLength first (p ++ ['%'] ++ v)) = '%' :: v := by
      rw [hlength, List.append_assoc, List.drop_left]
      rfl
    rw [numeric_of_percent hdrop, hlength, List.length_append]
    rfl
  · have hpos : 0 < unit.length := List.length_pos_of_ne_nil hne
    have hlength : numberLength first (p ++ unit ++ v) = p.length := by
      rw [numberLength_eq h first (by rw [hp, List.length_append]; omega)
        (.inl (by rw [hp, List.length_append]; omega)), hp]
    have hdrop : (p ++ unit ++ v).drop p.length = unit ++ v := by
      rw [List.append_assoc, List.drop_left]
    obtain ⟨c, unit, rfl⟩ := List.exists_cons_of_ne_nil hne
    have hc : isNameChar c = true := hall c List.mem_cons_self
    have hhead : (c :: unit ++ v).head? ≠ some '%' := by
      intro hhead
      obtain rfl : c = '%' := Option.some.inj hhead
      exact absurd hc (by decide)
    have hname : name (c :: unit ++ v) = (c :: unit, (c :: unit).length) :=
      name_append hall (h.name_eq_nil hv hend)
    have hident' : startsIdent (c :: unit ++ v) = true :=
      h.startsIdent_append hv hu.append_right hend hident
    rw [numeric_of_other (by rw [hlength, hdrop]; exact hhead), hlength, hdrop, if_pos hident',
      hname, List.length_append]
  · have hlength : numberLength first (u ++ v) = u.length := by
      rw [numberLength_eq h first (by rw [hp])
        (.inr ⟨h.startsIdent_eq_false hv hident, hident⟩), hp]
    have hhead : ((u ++ v).drop (numberLength first (u ++ v))).head? ≠ some '%' := by
      rw [hlength, List.drop_left]
      exact h.head_ne hpercent (by decide)
    rw [numeric_of_other hhead, hlength, List.drop_left,
      if_neg (Bool.eq_false_iff.mp (h.startsIdent_eq_false hv hident))]

/-! ## Identifiers and functions

An identifier and a function are told by the parenthesis behind the name,
which belongs to the function. So the one ends in front of anything but a
parenthesis, and the other one in front of anything. -/

/-- An address is not kept, nor is what is left of one. -/
theorem isKept_afterUrl {function : String} (h : Text.lower function = "url") (cs : List Char) :
    (afterUrl function cs).1.isKept = false := by
  unfold afterUrl
  dsimp only
  split
  · rfl
  split
  · exact decide_eq_false fun hne => hne h
  · split <;> rfl

/-- What an identifier or a function is, that ends in front of a rest. -/
theorem identLike_cases {t : Token} (hx : Unescaped (c :: cs))
    (hstart : startsIdent (c :: cs ++ w) = true) (hkept : t.isKept = true)
    (h : identLike (c :: cs ++ w) = (t, cs.length)) :
    (t = .ident (String.ofList (c :: cs)) ∧ (∀ d ∈ c :: cs, isNameChar d = true)
        ∧ name w = ([], 0) ∧ w.head? ≠ some '(')
      ∨ ∃ x, c :: cs = x ++ ['('] ∧ x ≠ [] ∧ (∀ d ∈ x, isNameChar d = true)
        ∧ t = .function (String.ofList x) ∧ Text.lower (String.ofList x) ≠ "url" := by
  obtain ⟨⟨hslash, hnul⟩, -⟩ := Unescaped.cons_iff.mp hx
  have hc : isNameChar c = true := isNameChar_of_startsIdent hstart hslash hnul
  generalize hn : (name (c :: cs ++ w)).2 = n
  have hpos : 0 < n := by
    rw [← hn, List.cons_append, name, if_pos hc]
    exact Nat.succ_pos _
  -- all of `c :: cs` is read, so the name ends where it does, or at a parenthesis there
  by_cases hparen : ((c :: cs ++ w).drop n).head? = some '('
  · obtain ⟨rest, hrest⟩ := List.head?_eq_some_iff.mp hparen
    rw [identLike_of_paren (hn ▸ hrest), hn] at h
    split at h
    · next hurl =>
      have ht := congrArg Prod.fst h
      dsimp only at ht
      rw [← ht, isKept_afterUrl hurl] at hkept
      cases hkept
    · next hurl =>
      obtain ⟨rfl, rfl⟩ := Prod.mk.inj h
      have hle : cs.length ≤ (c :: cs).length := Nat.le_succ _
      have hone : ((c :: cs).drop cs.length).length = 1 := by
        rw [List.length_drop, List.length_cons]
        omega
      obtain ⟨d, hd⟩ := List.length_eq_one_iff.mp hone
      rw [List.drop_append_of_le_length hle, hd] at hrest
      obtain rfl : d = '(' := (List.cons.inj hrest).1
      have hsplit : (c :: cs).take cs.length ++ ['('] = c :: cs := by
        rw [← hd, List.take_append_drop]
      have hlength : ((c :: cs).take cs.length).length = cs.length := by
        rw [List.length_take, List.length_cons]
        omega
      rw [← hsplit] at hx
      rw [← hsplit, List.append_assoc] at hn
      obtain ⟨hall, hend⟩ := name_eq_of_length hx.append_left (hn.trans hlength.symm)
      have hname := name_append hall hend
      rw [← List.append_assoc, hsplit] at hname
      rw [hname] at hurl ⊢
      refine .inr ⟨_, hsplit.symm, ?_, hall, rfl, hurl⟩
      rw [← List.length_pos_iff, hlength]
      exact hpos
  · rw [identLike_of_other (hn ▸ hparen), hn] at h
    obtain ⟨rfl, hlength⟩ := Prod.mk.inj h
    have hlength : n = (c :: cs).length := by
      rw [List.length_cons]
      omega
    obtain ⟨hall, hend⟩ := name_eq_of_length hx (hn.trans hlength)
    rw [hlength, List.drop_left] at hparen
    exact .inl ⟨by rw [name_append hall hend], hall, hend, hparen⟩

/-- No name starts with a parenthesis. -/
theorem name_openParen (w : List Char) : name ('(' :: w) = ([], 0) := by
  rw [name, if_neg (by decide), if_neg (by decide), if_neg (by simp)]

/-- **An identifier ends where it did**, and so does a function. The name of
an address is excepted: behind it the reader goes on with the address. -/
theorem identLike_eq (h : NoMore v w) (hx : Unescaped (c :: cs)) (hv : Unescaped v) {t : Token}
    (hstart : startsIdent (c :: cs ++ w) = true) (hkept : t.isKept = true)
    (hw : identLike (c :: cs ++ w) = (t, cs.length)) :
    identLike (c :: cs ++ v) = (t, cs.length) := by
  obtain ⟨rfl, hall, hend, hparen⟩ | ⟨x, hsplit, -, hall, rfl, hurl⟩ :=
    identLike_cases hx hstart hkept hw
  · have hname := name_append hall (h.name_eq_nil hv hend)
    have hhead : ((c :: cs ++ v).drop (name (c :: cs ++ v)).2).head? ≠ some '(' := by
      rw [hname, List.drop_left]
      exact h.head_ne hparen (by decide)
    rw [identLike_of_other hhead, hname]
    rfl
  · have hlength : x.length = cs.length := by
      have heq := congrArg List.length hsplit
      rw [List.length_append] at heq
      exact (Nat.succ.inj heq).symm
    have hname := name_append hall (name_openParen v)
    have hdrop : (x ++ '(' :: v).drop (name (x ++ '(' :: v)).2 = '(' :: v := by
      rw [hname, List.drop_left]
    rw [hsplit, List.append_assoc, List.singleton_append, identLike_of_paren hdrop, hname,
      if_neg hurl, hlength]

end Following

end Stylebook.Css
