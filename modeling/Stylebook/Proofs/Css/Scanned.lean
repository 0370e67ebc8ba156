import Stylebook.Proofs.Css.Extent
import Stylebook.Proofs.Css.Following

/-!
# What is scanned

A token that stands in the text of a function is a name with its mark, a
number, an identifier or a function, or a character by itself
(`scan_cases_of_isKept`). Each of these ends where it did when a rest
follows that starts no more (`scan_eq`). The one exception is the delimiter
`<`, because a comment mark of an embedding document needs three more
characters. And each token is spelled like its name when it is written
without escapes (`Lexeme.IsReadAt.isSpelled`).
-/

namespace Stylebook.Css

variable {l : Lexeme} {u v w cs : List Char} {c d : Char}

/-! ## How tokens start

A scanner is chosen by what stands at the first character. So before any
count is compared it has to be known that the same scanner is chosen with
the other rest. This goes in both directions: where a number started one
still starts, and where none did none comes up. -/

/-- A mark of an attribute has its equals sign, or it is a delimiter. -/
theorem attributeMark_cases (c : Char) (w : List Char) :
    attributeMark c w = (.attributeMatch, 1)
      ∨ w.head? ≠ some '=' ∧ attributeMark c w = (.delim c, 0) := by
  unfold attributeMark
  split
  · exact .inl rfl
  · next hne =>
    refine .inr ⟨fun hhead => ?_, rfl⟩
    obtain ⟨r, rfl⟩ := List.head?_eq_some_iff.mp hhead
    exact hne r rfl

/-- Without the sign it is a delimiter. -/
theorem attributeMark_of_ne (c : Char) (hw : w.head? ≠ some '=') :
    attributeMark c w = (.delim c, 0) := by
  rcases attributeMark_cases c w with heq | ⟨-, heq⟩
  · unfold attributeMark at heq
    split at heq
    · exact absurd rfl hw
    · cases heq
  · exact heq

/-- Behind a sign, a number starts with a digit or with a point and a digit. -/
theorem startsNumber_sign (hc : c = '+' ∨ c = '-') (cs : List Char) :
    startsNumber (c :: cs) = (startsDigit cs || fractionLength cs ≠ 0) := by
  have hsign : (decide (c = '+') || decide (c = '-')) = true := by simpa using hc
  unfold startsNumber
  dsimp only
  rw [if_pos hsign]
  split
  · next ds =>
    rw [fractionLength_point]
    cases startsDigit ds <;> simp [startsDigit]
  · next hpoint =>
    cases cs with
    | nil => rfl
    | cons d ds =>
      have hd : d ≠ '.' := by
        rintro rfl
        exact hpoint ds rfl
      rw [fractionLength_of_ne hd]
      simp

/-- Behind a point a number starts with a digit. -/
theorem startsNumber_point (cs : List Char) : startsNumber ('.' :: cs) = startsDigit cs := rfl

/-- Without a sign or a point in front a number starts with a digit. -/
theorem startsNumber_other (hsign : ¬(c = '+' ∨ c = '-')) (hpoint : c ≠ '.') (cs : List Char) :
    startsNumber (c :: cs) = c.isDigit := by
  have hsign : ¬(decide (c = '+') || decide (c = '-')) = true := by simpa using hsign
  unfold startsNumber
  dsimp only
  rw [if_neg hsign, if_neg hpoint]

/-- No digit comes up in front of a rest that starts no more. -/
theorem NoMore.startsDigit_append (h : NoMore v w) (hw : startsDigit (u ++ w) = false) :
    startsDigit (u ++ v) = false := by
  by_cases hu : u = []
  · subst hu
    exact h.startsDigit_eq_false hw
  · rw [startsDigit_append_of_ne_nil hu v w, hw]

/-- A number starts in front of `v` only if it starts in front of `w`. -/
theorem NoMore.startsNumber_eq_false (h : NoMore v w) (hw : startsNumber (c :: (u ++ w)) = false) :
    startsNumber (c :: (u ++ v)) = false := by
  by_cases hsign : c = '+' ∨ c = '-'
  · rw [startsNumber_sign hsign, Bool.or_eq_false_iff] at hw
    have hfraction : fractionLength (u ++ w) = 0 := by simpa using hw.2
    have hle : fractionLength (u ++ w) ≤ u.length := hfraction ▸ Nat.zero_le _
    rw [startsNumber_sign hsign, h.startsDigit_append hw.1, fractionLength_eq h hle, hfraction]
    rfl
  by_cases hpoint : c = '.'
  · subst hpoint
    rw [startsNumber_point] at hw ⊢
    exact h.startsDigit_append hw
  · rw [startsNumber_other hsign hpoint] at hw ⊢
    exact hw

/-- **A number starts where it did**, if it ends in front of a rest that
starts no more. -/
theorem NoMore.startsNumber_append (h : NoMore v w) (hw : startsNumber (c :: (u ++ w)) = true)
    (hlength : numberLength c (u ++ w) ≤ u.length) : startsNumber (c :: (u ++ v)) = true := by
  have hdigit : startsDigit (u ++ w) = true → startsDigit (u ++ v) = true := by
    intro hstart
    have hne : u ≠ [] := by
      rintro rfl
      have hzero : digitsLength w = 0 := by
        have hle : digitsLength w ≤ numberLength c w := by
          unfold numberLength
          dsimp only
          omega
        exact Nat.le_zero.mp (Nat.le_trans hle hlength)
      rw [List.nil_append, digitsLength_eq_zero_iff.mp hzero] at hstart
      cases hstart
    rw [startsDigit_append_of_ne_nil hne v w, hstart]
  by_cases hsign : c = '+' ∨ c = '-'
  · rw [startsNumber_sign hsign, Bool.or_eq_true] at hw ⊢
    by_cases hstart : startsDigit (u ++ w) = true
    · exact .inl (hdigit hstart)
    · have hzero : digitsLength (u ++ w) = 0 :=
        digitsLength_eq_zero_iff.mpr (Bool.eq_false_iff.mpr hstart)
      have hpoint : c ≠ '.' := by rcases hsign with rfl | rfl <;> decide
      have hle : fractionLength (u ++ w) ≤ u.length := by
        unfold numberLength at hlength
        simp only [hzero, if_neg hpoint, List.drop_zero] at hlength
        omega
      rw [fractionLength_eq h hle]
      exact .inr (hw.resolve_left hstart)
  by_cases hpoint : c = '.'
  · subst hpoint
    rw [startsNumber_point] at hw ⊢
    exact hdigit hw
  · rw [startsNumber_other hsign hpoint] at hw ⊢
    exact hw

/-- A number is the first part of a numeric token. -/
theorem numberLength_le_numeric (first : Char) (cs : List Char) :
    numberLength first cs ≤ (numeric first cs).2 := by
  by_cases h : (cs.drop (numberLength first cs)).head? = some '%'
  · obtain ⟨rest, hrest⟩ := List.head?_eq_some_iff.mp h
    rw [numeric_of_percent hrest]
    exact Nat.le_succ _
  · rw [numeric_of_other h]
    split
    · exact Nat.le_add_right _ _
    · exact Nat.le_refl _

/-- What starts a name, a number or a hyphen is a character of a name. -/
theorem name_ne_nil_of_starts
    (h : (startsIdent w || startsDigit w || w.head? = some '-') = true) : name w ≠ ([], 0) := by
  simp only [Bool.or_eq_true, decide_eq_true_eq, or_assoc] at h
  have hchar : ∀ {d r}, w = d :: r → isNameChar d = true → name w ≠ ([], 0) := by
    rintro d r rfl hd
    rw [name, if_pos hd]
    exact fun heq => absurd (congrArg Prod.snd heq) (Nat.succ_ne_zero _)
  rcases h with h | h | h
  · exact name_ne_nil h
  · obtain ⟨d, r, hw, hd⟩ := exists_of_startsDigit h
    exact hchar hw (isNameChar_of_isDigit hd)
  · obtain ⟨r, hw⟩ := List.head?_eq_some_iff.mp h
    exact hchar hw (by decide)

/-- The rest does not count where there is a second character. -/
theorem startsIdent_of_ne_nil (hslash : c ≠ '\\') (hu : u ≠ []) (v w : List Char) :
    startsIdent (c :: (u ++ v)) = startsIdent (c :: (u ++ w)) := by
  by_cases hminus : c = '-'
  · obtain ⟨d, u, rfl⟩ := List.exists_cons_of_ne_nil hu
    subst hminus
    rfl
  · rw [startsIdent_cons hminus hslash, startsIdent_cons hminus hslash]

/-- No identifier comes up in front of a rest that starts no more. What has
to be kept apart is a hyphen, which is one with what follows it. -/
theorem NoMore.startsIdent_cons_eq_false (h : NoMore v w) (hv : Unescaped v) (hslash : c ≠ '\\')
    (hw : startsIdent (c :: w) = false) : startsIdent (c :: v) = false := by
  by_cases hminus : c = '-'
  · subst hminus
    rw [Bool.eq_false_iff]
    intro hstart
    cases v with
    | nil => exact absurd hstart (by decide)
    | cons d v =>
      obtain ⟨⟨hslash', hnul⟩, -⟩ := Unescaped.cons_iff.mp hv
      have hstart' : isNameStart d = true ∨ d = '-' := by
        simpa [startsIdent, hslash'] using hstart
      have hd : isNameChar d = true := by
        rcases hstart' with hd | rfl
        · exact isNameChar_of_isNameStart hd hnul
        · decide
      obtain ⟨r, rfl⟩ := List.head?_eq_some_iff.mp (h.isNameChar_head rfl hd)
      have hsame : startsIdent ('-' :: d :: r) = startsIdent ('-' :: d :: v) := rfl
      rw [hsame, hstart] at hw
      cases hw
  · rw [startsIdent_cons hminus hslash] at hw ⊢
    exact hw

/-- A hyphen and a character of a name are an identifier of two characters
at least. -/
theorem identLike_hyphen_ne_zero (hd : isNameChar d = true) (cs : List Char) :
    (identLike ('-' :: d :: cs)).2 ≠ 0 := by
  have hlength : (name ('-' :: d :: cs)).2 = (name cs).2 + 1 + 1 := by
    rw [name, if_pos (by decide), name, if_pos hd]
  have hlong := le_identLike ('-' :: d :: cs)
  omega

/-! ## One token

The scanner has many branches, and of most of them nothing is kept. Those
that remain come in four kinds, and for each it was shown where it ends. -/

/-- A token that is kept is not one that is not. -/
theorem ne_of_isKept {t t' : Token} {n n' : Nat} (hkept : t.isKept = true)
    (hnot : t'.isKept = false) : (t', n') ≠ (t, n) := by
  intro heq
  rw [(Prod.mk.inj heq).1, hkept] at hnot
  cases hnot

/-- What starts a number is read as a number. -/
theorem scan_of_startsNumber (h : startsNumber (c :: cs) = true) : scan c cs = numeric c cs := by
  have hc : (c = '+' ∨ c = '-') ∨ c = '.' ∨ c.isDigit = true := by
    by_cases hsign : c = '+' ∨ c = '-'
    · exact .inl hsign
    by_cases hpoint : c = '.'
    · exact .inr (.inl hpoint)
    · rw [startsNumber_other hsign hpoint] at h
      exact .inr (.inr h)
  have hspace : isSpace c = false := by
    rcases hc with (rfl | rfl) | rfl | hdigit
    · rfl
    · rfl
    · rfl
    · rw [Bool.eq_false_iff]
      intro hspace
      simp only [isSpace, Bool.or_eq_true, decide_eq_true_eq, or_assoc] at hspace
      rcases hspace with rfl | rfl | rfl | rfl | rfl <;> exact absurd hdigit (by decide)
  have hne : ∀ d : Char, (startsNumber (d :: cs)) = false → c ≠ d := by
    rintro d hd rfl
    rw [h] at hd
    cases hd
  have hquote : ¬(decide (c = '"') || decide (c = '\'')) = true := by
    simp only [Bool.or_eq_true, decide_eq_true_eq, not_or]
    exact ⟨hne '"' rfl, hne '\'' rfl⟩
  unfold scan
  rw [if_neg (Bool.eq_false_iff.mp hspace), if_neg hquote, if_neg (hne '#' rfl),
    if_neg (hne '@' rfl), if_pos h]

/-- What starts an identifier is read as one, unless it is a number or a
comment mark. -/
theorem scan_of_startsIdent (h : startsIdent (c :: cs) = true)
    (hnumber : startsNumber (c :: cs) = false) (hmark : c = '-' → ¬['-', '>'] <+: cs) :
    scan c cs = identLike (c :: cs) := by
  have hne : ∀ d : Char, d ≠ '-' → d ≠ '\\' → isNameStart d = false → c ≠ d := by
    rintro d hminus hslash hd rfl
    rw [startsIdent_cons hminus hslash, hd] at h
    cases h
  have hspace : isSpace c = false := by
    rw [Bool.eq_false_iff]
    intro hspace
    simp only [isSpace, Bool.or_eq_true, decide_eq_true_eq, or_assoc] at hspace
    rcases hspace with hc | hc | hc | hc | hc <;>
      exact hne _ (by decide) (by decide) (by decide) hc
  have hmark' : ¬(decide (c = '-') && (Text.dropFront? ['-', '>'] cs).isSome) = true := by
    simp only [Bool.and_eq_true, decide_eq_true_eq, Text.isSome_dropFront?_iff, not_and]
    exact hmark
  unfold scan
  rw [if_neg (Bool.eq_false_iff.mp hspace),
    if_neg (by simp [hne '"' (by decide) (by decide) (by decide),
      hne '\'' (by decide) (by decide) (by decide)]),
    if_neg (hne '#' (by decide) (by decide) (by decide)),
    if_neg (hne '@' (by decide) (by decide) (by decide)), if_neg (Bool.eq_false_iff.mp hnumber),
    if_neg hmark', if_neg (by simp [hne '<' (by decide) (by decide) (by decide)]),
    if_neg (by simp [hne '/' (by decide) (by decide) (by decide)]), if_pos h]

/-- **What a kept token is**: a name with its mark, a number, an identifier
or a function, or a character by itself. -/
theorem scan_cases_of_isKept {t : Token} {n : Nat} (hkept : t.isKept = true)
    (h : scan c cs = (t, n)) :
    (c = '#' ∧ (startsIdent cs || startsDigit cs || cs.head? = some '-') = true
        ∧ t = .hash (String.ofList (name cs).1) ∧ n = (name cs).2)
      ∨ startsNumber (c :: cs) = true ∧ numeric c cs = (t, n)
      ∨ (startsIdent (c :: cs) = true ∧ startsNumber (c :: cs) = false
        ∧ (c = '-' → ¬['-', '>'] <+: cs) ∧ identLike (c :: cs) = (t, n))
      ∨ n = 0 ∧ (t = .delim c ∨ t = punctuation c) ∧ startsNumber (c :: cs) = false
        ∧ startsIdent (c :: cs) = false := by
  -- in the order in which the reader tries them; what is not kept is ruled out
  unfold scan at h
  split at h
  · exact absurd h (ne_of_isKept hkept rfl)
  split at h
  · split at h <;> exact absurd h (ne_of_isKept hkept rfl)
  split at h
  · next hhash =>
    subst hhash
    split at h
    · next hstarts =>
      obtain ⟨rfl, rfl⟩ := Prod.mk.inj h
      exact .inl ⟨rfl, hstarts, rfl, rfl⟩
    · obtain ⟨rfl, rfl⟩ := Prod.mk.inj h
      exact .inr (.inr (.inr ⟨rfl, .inl rfl, rfl, startsIdent_cons (by decide) (by decide) cs⟩))
  split at h
  · next hat =>
    subst hat
    split at h
    · exact absurd h (ne_of_isKept hkept rfl)
    · obtain ⟨rfl, rfl⟩ := Prod.mk.inj h
      exact .inr (.inr (.inr ⟨rfl, .inl rfl, rfl, startsIdent_cons (by decide) (by decide) cs⟩))
  split at h
  · next hnumber => exact .inr (.inl ⟨hnumber, h⟩)
  next hnumber =>
  split at h
  · exact absurd h (ne_of_isKept hkept rfl)
  next hmark =>
  split at h
  · exact absurd h (ne_of_isKept hkept rfl)
  split at h
  · exact absurd h (ne_of_isKept hkept rfl)
  split at h
  · next hident =>
    simp only [Bool.and_eq_true, decide_eq_true_eq, Text.isSome_dropFront?_iff, not_and] at hmark
    exact .inr (.inr (.inl ⟨hident, Bool.eq_false_iff.mpr hnumber, hmark, h⟩))
  next hident =>
  -- what is left is one character by itself
  have hsingle : n = 0 ∧ (t = .delim c ∨ t = punctuation c) := by
    split at h
    · rcases attributeMark_cases c cs with heq | ⟨-, heq⟩
      · rw [heq] at h
        exact absurd h (ne_of_isKept hkept rfl)
      · rw [heq] at h
        obtain ⟨rfl, rfl⟩ := Prod.mk.inj h
        exact ⟨rfl, .inl rfl⟩
    · obtain ⟨rfl, rfl⟩ := Prod.mk.inj h
      exact ⟨rfl, .inr rfl⟩
  exact .inr (.inr (.inr ⟨hsingle.1, hsingle.2, Bool.eq_false_iff.mpr hnumber,
    Bool.eq_false_iff.mpr hident⟩))

/-- The rest of a comment mark stands in front of `v` only if it stands in
front of `w`. -/
theorem NoMore.not_mark (h : NoMore v w) (hlong : w.head? = some '-' → u ≠ [])
    (hw : ¬['-', '>'] <+: u ++ w) : ¬['-', '>'] <+: u ++ v := by
  rintro ⟨r, hr⟩
  cases u with
  | nil =>
    have hhead : v.head? = some '-' := by
      rw [← List.nil_append v, ← hr]
      rfl
    exact hlong (h.head_eq hhead (by decide)) rfl
  | cons d u =>
    obtain rfl : '-' = d := (List.cons.inj hr).1
    have hr : '>' :: r = u ++ v := (List.cons.inj hr).2
    refine hw ?_
    cases u with
    | nil =>
      have hhead : v.head? = some '>' := by
        rw [← List.nil_append v, ← hr]
        rfl
      obtain ⟨r', rfl⟩ := List.head?_eq_some_iff.mp (h.head_eq hhead (by decide))
      exact ⟨r', rfl⟩
    | cons e u =>
      obtain rfl : '>' = e := (List.cons.inj hr).1
      exact ⟨u ++ w, rfl⟩

/-- **A character by itself stays by itself.** -/
theorem scan_single_eq (h : NoMore v w) (hv : Unescaped v) (hslash : c ≠ '\\') (hlt : c ≠ '<')
    {t : Token} (hkept : t.isKept = true) (hnumber : startsNumber (c :: w) = false)
    (hident : startsIdent (c :: w) = false) (hw : scan c w = (t, 0)) : scan c v = (t, 0) := by
  have hnumber' : startsNumber (c :: v) = false := h.startsNumber_eq_false (u := []) hnumber
  have hident' := h.startsIdent_cons_eq_false hv hslash hident
  unfold scan at hw ⊢
  -- one step for each test of the scanner: it fails in front of both rests, or it is not kept
  by_cases hspace : isSpace c = true
  · rw [if_pos hspace] at hw
    exact absurd hw (ne_of_isKept hkept rfl)
  rw [if_neg hspace] at hw ⊢
  by_cases hquote : (decide (c = '"') || decide (c = '\'')) = true
  · rw [if_pos hquote] at hw
    split at hw <;> exact absurd hw (ne_of_isKept hkept rfl)
  rw [if_neg hquote] at hw ⊢
  by_cases hhash : c = '#'
  · rw [if_pos hhash] at hw ⊢
    split at hw
    · next hstarts =>
      have hend := (name_eq_of_length (u := []) (by decide) (Prod.mk.inj hw).2).2
      exact absurd hend (name_ne_nil_of_starts hstarts)
    · next hstarts =>
      simp only [Bool.or_eq_true, decide_eq_true_eq, not_or, Bool.not_eq_true] at hstarts ⊢
      rw [if_neg, hw]
      simp [h.startsIdent_eq_false hv hstarts.1.1, h.startsDigit_eq_false hstarts.1.2,
        h.head_ne hstarts.2 (by decide)]
  rw [if_neg hhash] at hw ⊢
  by_cases hat : c = '@'
  · rw [if_pos hat] at hw ⊢
    split at hw
    · exact absurd hw (ne_of_isKept hkept rfl)
    · next hstarts =>
      have hstarts' := h.startsIdent_eq_false hv (Bool.eq_false_iff.mpr hstarts)
      rw [if_neg (Bool.eq_false_iff.mp hstarts'), hw]
  rw [if_neg hat, if_neg (Bool.eq_false_iff.mp hnumber)] at hw
  rw [if_neg hat, if_neg (Bool.eq_false_iff.mp hnumber')]
  by_cases hmark : (decide (c = '-') && (Text.dropFront? ['-', '>'] w).isSome) = true
  · rw [if_pos hmark] at hw
    exact absurd hw (ne_of_isKept hkept rfl)
  have hmark' : ¬(decide (c = '-') && (Text.dropFront? ['-', '>'] v).isSome) = true := by
    simp only [Bool.and_eq_true, decide_eq_true_eq, Text.isSome_dropFront?_iff, not_and]
      at hmark ⊢
    rintro rfl
    refine h.not_mark (u := []) (fun hhead => ?_) (hmark rfl)
    obtain ⟨r, rfl⟩ := List.head?_eq_some_iff.mp hhead
    cases hident
  have hnolt : ∀ b, (decide (c = '<') && b) = false := fun b => by simp [hlt]
  rw [if_neg hmark, if_neg (Bool.eq_false_iff.mp (hnolt _))] at hw
  rw [if_neg hmark', if_neg (Bool.eq_false_iff.mp (hnolt _))]
  by_cases hcomment : (decide (c = '/') && decide (w.head? = some '*')) = true
  · rw [if_pos hcomment] at hw
    exact absurd hw (ne_of_isKept hkept rfl)
  have hcomment' : ¬(decide (c = '/') && decide (v.head? = some '*')) = true := by
    simp only [Bool.and_eq_true, decide_eq_true_eq, not_and] at hcomment ⊢
    exact fun hc => h.head_ne (hcomment hc) (by decide)
  rw [if_neg hcomment, if_neg (Bool.eq_false_iff.mp hident)] at hw
  rw [if_neg hcomment', if_neg (Bool.eq_false_iff.mp hident')]
  split at hw
  · next hattribute =>
    rw [if_pos hattribute]
    rcases attributeMark_cases c w with heq | ⟨hhead, heq⟩
    · rw [heq] at hw
      exact absurd hw (ne_of_isKept hkept rfl)
    · rw [attributeMark_of_ne c (h.head_ne hhead (by decide)), ← heq, hw]
  · next hattribute => rw [if_neg hattribute, hw]

/-- **A token ends where it did.** It is asked that the token is written
without escapes, since an escape may take a white space along, which is
exactly what is left out between the tokens of a function. -/
theorem scan_eq (h : NoMore v w) (hx : Unescaped (c :: u)) (hv : Unescaped v) {t : Token}
    (hkept : t.isKept = true) (hlt : c ≠ '<') (hw : scan c (u ++ w) = (t, u.length)) :
    scan c (u ++ v) = (t, u.length) := by
  obtain ⟨⟨hslash, -⟩, hu⟩ := Unescaped.cons_iff.mp hx
  rcases scan_cases_of_isKept hkept hw with ⟨rfl, hstarts, rfl, hlength⟩ | ⟨hnumber, hnumeric⟩
    | ⟨hident, hnumber, hmark, hname⟩ | ⟨hlength, -, hnumber, hident⟩
  · -- a name with its mark
    obtain ⟨hall, hend⟩ := name_eq_of_length hu hlength.symm
    have hname := name_append hall (h.name_eq_nil hv hend)
    cases u with
    | nil => exact absurd hend (name_ne_nil_of_starts hstarts)
    | cons d u =>
      have hd := startsIdent_or_of_isNameChar (hall d List.mem_cons_self) (u ++ v)
      have hscan : scan '#' (d :: u ++ v)
          = (.hash (String.ofList (name (d :: u ++ v)).1), (name (d :: u ++ v)).2) := if_pos hd
      rw [hscan, hname, name_append hall hend]
  · have hlength : numberLength c (u ++ w) ≤ u.length :=
      (numberLength_le_numeric c _).trans (Prod.mk.inj hnumeric).2.le
    rw [scan_of_startsNumber (h.startsNumber_append hnumber hlength), numeric_eq h hu hv hnumeric]
  · have hident' : startsIdent (c :: (u ++ v)) = true := by
      obtain ⟨-, -, hend, -⟩ | ⟨x, hsplit, hne, -⟩ := identLike_cases hx hident hkept hname
      · exact h.startsIdent_append hv hx hend hident
      · have hu' : u ≠ [] := by
          rintro rfl
          obtain ⟨d, x, rfl⟩ := List.exists_cons_of_ne_nil hne
          exact absurd (List.cons.inj hsplit).2.symm
            (List.append_ne_nil_of_right_ne_nil _ (List.cons_ne_nil _ _))
        rw [startsIdent_of_ne_nil hslash hu' v w, hident]
    have hmark' : c = '-' → ¬['-', '>'] <+: u ++ v := by
      rintro rfl
      refine h.not_mark ?_ (hmark rfl)
      rintro hhead rfl
      obtain ⟨r, rfl⟩ := List.head?_eq_some_iff.mp hhead
      exact absurd (congrArg Prod.snd hname) (identLike_hyphen_ne_zero (by decide) r)
    rw [scan_of_startsIdent hident' (h.startsNumber_eq_false hnumber) hmark']
    exact identLike_eq h hx hv hident hkept hname
  · obtain rfl := List.length_eq_zero_iff.mp hlength
    exact scan_single_eq h hv hslash hlt hkept hnumber hident hw

/-! ## The text of a token

The text of a function is put together from the names of its tokens, not
from the text that was read. That the two are one is so for tokens without
escapes. An escape has a text of its own and the name of another character. -/

/-- **How a token is spelled** that stands in the text of a function and has
no escapes. Of a number it is not said how it is written: any spelling will
do, and which one it is is kept beside the number. Only where the percent
sign and the unit begin has to be known. -/
def Token.IsSpelled (text : List Char) : Token → Prop
  | .ident name => text = name.toList
  | .function name => text = name.toList ++ ['(']
  | .hash name => text = '#' :: name.toList
  | .percentage => ∃ p, text = p ++ ['%'] ∧ '%' ∉ p
  | .dimension unit => unit ≠ "" ∧ ∃ p, text = p ++ unit.toList
  | .comma => text = [',']
  | .delim d => text = [d]
  | .closing .paren => text = [')']
  | _ => True

/-- A character by itself is spelled as it is. -/
theorem isSpelled_punctuation (c : Char) : (punctuation c).IsSpelled [c] := by
  unfold punctuation
  split <;> first | rfl | trivial

/-- There is no percent sign among digits. -/
theorem percent_notMem_takeWhile (cs : List Char) : '%' ∉ cs.take (digitsLength cs) := by
  intro hmem
  have htake : cs.take (digitsLength cs) = cs.takeWhile Char.isDigit :=
    (List.prefix_iff_eq_take.mp (List.takeWhile_prefix _)).symm
  rw [htake] at hmem
  exact absurd (List.mem_takeWhile_imp hmem) (by decide)

theorem percent_notMem_fraction (cs : List Char) : '%' ∉ cs.take (fractionLength cs) := by
  cases cs with
  | nil => simp [fractionLength]
  | cons c cs =>
    by_cases hc : c = '.'
    · subst hc
      rw [fractionLength_point]
      split
      · rw [List.take_succ_cons, List.mem_cons, not_or]
        exact ⟨by decide, percent_notMem_takeWhile cs⟩
      · simp
    · rw [fractionLength_of_ne hc]
      simp

theorem percent_notMem_exponentDigits (cs : List Char) :
    '%' ∉ cs.take (exponentDigitsLength cs) := by
  cases cs with
  | nil => simp [exponentDigitsLength]
  | cons c cs =>
    unfold exponentDigitsLength
    dsimp only
    split
    · exact percent_notMem_takeWhile _
    split
    · next hsign =>
      simp only [Bool.and_eq_true, Bool.or_eq_true, decide_eq_true_eq] at hsign
      rw [List.take_succ_cons, List.mem_cons, not_or]
      refine ⟨?_, percent_notMem_takeWhile cs⟩
      rcases hsign.1 with rfl | rfl <;> decide
    · simp

theorem percent_notMem_exponent (cs : List Char) : '%' ∉ cs.take (exponentLength cs) := by
  cases cs with
  | nil => simp [exponentLength]
  | cons c cs =>
    rw [exponentLength_cons]
    split
    · next he =>
      rw [List.take_succ_cons, List.mem_cons, not_or]
      refine ⟨?_, percent_notMem_exponentDigits cs⟩
      rcases he.1 with rfl | rfl <;> decide
    · simp

/-- No percent sign belongs to a number. -/
theorem percent_notMem_number (first : Char) (cs : List Char) :
    '%' ∉ cs.take (numberLength first cs) := by
  unfold numberLength
  dsimp only
  rw [List.take_add, List.take_add, List.mem_append, List.mem_append, not_or, not_or]
  refine ⟨⟨percent_notMem_takeWhile cs, ?_⟩, percent_notMem_exponent _⟩
  split
  · simp
  · exact percent_notMem_fraction _

/-- A number is spelled as it is, with its sign or unit at the end. -/
theorem isSpelled_numeric {t : Token} (hu : Unescaped u)
    (hnumber : startsNumber (c :: (u ++ w)) = true)
    (h : numeric c (u ++ w) = (t, u.length)) : t.IsSpelled (c :: u) := by
  obtain ⟨rfl, p, rfl, hp⟩ | ⟨p, unit, rfl, hne, rfl, -⟩ | ⟨rfl, -⟩ := numeric_cases hu h
  · refine ⟨c :: p, rfl, ?_⟩
    have hnot := percent_notMem_number c (p ++ ['%'] ++ w)
    rw [hp, List.append_assoc, List.take_left] at hnot
    rw [List.mem_cons, not_or]
    refine ⟨?_, hnot⟩
    rintro rfl
    cases hnumber
  · refine ⟨fun hempty => hne ?_, c :: p, ?_⟩
    · rw [← String.toList_ofList (l := unit), hempty]
      rfl
    · rw [String.toList_ofList]
      rfl
  · trivial

/-- An identifier is spelled like its name, and a function has a parenthesis
behind it. -/
theorem isSpelled_identLike {t : Token} (hx : Unescaped (c :: u))
    (hstart : startsIdent (c :: (u ++ w)) = true) (hkept : t.isKept = true)
    (h : identLike (c :: (u ++ w)) = (t, u.length)) : t.IsSpelled (c :: u) := by
  obtain ⟨rfl, -⟩ | ⟨x, hsplit, -, -, rfl, -⟩ := identLike_cases hx hstart hkept h
  · exact String.toList_ofList.symm
  · show c :: u = (String.ofList x).toList ++ ['(']
    rw [String.toList_ofList, hsplit]

/-- **A token without escapes is spelled like its name.** -/
theorem Lexeme.IsReadAt.isSpelled (h : l.IsReadAt w) (hx : Unescaped l.text)
    (hkept : l.token.isKept = true) : l.token.IsSpelled l.text := by
  obtain ⟨c, u, htext, hscan⟩ := h
  rw [htext] at hx ⊢
  have hu : Unescaped u := (Unescaped.cons_iff.mp hx).2
  rcases scan_cases_of_isKept hkept hscan with ⟨rfl, -, ht, hlength⟩ | ⟨hnumber, hnumeric⟩
    | ⟨hident, -, -, hname⟩ | ⟨hlength, ht, -⟩
  · obtain ⟨hall, hend⟩ := name_eq_of_length hu hlength.symm
    rw [ht, name_append hall hend]
    exact congrArg ('#' :: ·) String.toList_ofList.symm
  · exact isSpelled_numeric hu hnumber hnumeric
  · exact isSpelled_identLike hx hident hkept hname
  · obtain rfl := List.length_eq_zero_iff.mp hlength
    rcases ht with ht | ht <;> rw [ht]
    · rfl
    · exact isSpelled_punctuation c

end Stylebook.Css
