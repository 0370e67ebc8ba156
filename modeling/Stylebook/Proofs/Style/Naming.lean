import Mathlib.Data.List.Basic
import Stylebook.Proofs.Css.Commented
import Stylebook.Proofs.Css.Selector
import Stylebook.Proofs.Style.Expansion
import Stylebook.Proofs.Style.Precedence

/-!
# Names in camel case

The framework knows a property by its name in camel case: the hyphens are
left out, and a letter after one becomes a capital. From names in small
letters whose hyphens each stand before a letter the hyphens can be read off
again (`hyphenate_camelCase`), so two such names stay apart
(`eq_of_camelCase_eq`).

A property in a stylesheet is always in small letters
(`Compile.isSmall_of_mem_plainOf`), but it may have other hyphens: two next
to each other, or one at the end. Those leave no trace, and such a name
falls together with another one. They are called *idle* here.
-/

namespace Stylebook

namespace Style

/-- **Some hyphen of a name stands before no small letter.** -/
def HasIdleHyphen (cs : List Char) : Prop :=
  ∃ before after, cs = before ++ '-' :: after ∧ ∀ c ∈ after.head?, c.isLower = false

/-- A name without capital letters. -/
def IsSmall (cs : List Char) : Prop := ∀ c ∈ cs, c.isUpper = false

/-- A hyphen before every capital letter, and the letter made small. -/
def hyphenate (cs : List Char) : List Char :=
  cs.flatMap fun c => if c.isUpper then ['-', c.toLower] else [c]

/-! ## Letters

Capitals and small letters here are those of the Latin alphabet. Other
characters are neither, and they pass through both directions. -/

/-- A small letter has a capital, and is the small letter of it. -/
theorem toUpper_of_isLower {c : Char} (h : c.isLower = true) :
    c.toUpper.isUpper = true ∧ c.toUpper.toLower = c := by
  have hall : ∀ n : Fin 123, (Char.ofNat n).isLower = true →
      (Char.ofNat n).toUpper.isUpper = true ∧ (Char.ofNat n).toUpper.toLower = Char.ofNat n := by
    decide
  have hle : c.toNat ≤ 122 := of_decide_eq_true (Bool.and_eq_true_iff.mp h).2
  have hc := hall ⟨c.toNat, Nat.lt_succ_of_le hle⟩
  rw [Char.ofNat_toNat] at hc
  exact hc h

/-- A letter made small is no capital. -/
theorem isUpper_toLower (c : Char) : c.toLower.isUpper = false := by
  delta Char.toLower Char.isUpper
  grind

/-- A name in small letters has no capital. -/
theorem isSmall_lower (s : String) : IsSmall (Text.lower s).toList := by
  intro c hc
  rw [Text.lower, String.toList_ofList] at hc
  obtain ⟨b, -, rfl⟩ := List.mem_map.mp hc
  exact isUpper_toLower b

/-! ## Hyphens

Camel case forgets its hyphens, and the capitals tell where they were, if
each hyphen made one. -/

variable {cs : List Char}

/-- What the hyphens are read off from, with the hyphen that was left out
last. -/
theorem hyphenate_camelChars (afterHyphen : Bool) (hsmall : IsSmall cs)
    (hidle : ¬HasIdleHyphen ((if afterHyphen then ['-'] else []) ++ cs)) :
    hyphenate (camelChars afterHyphen cs) = (if afterHyphen then ['-'] else []) ++ cs := by
  -- along the recursion, which carries a hyphen that was just read
  fun_induction camelChars afterHyphen cs with
  | case1 afterHyphen =>
    cases afterHyphen with
    | false => rfl
    | true => exact absurd ⟨[], [], rfl, by simp⟩ hidle
  | case2 afterHyphen cs ih =>
    cases afterHyphen with
    | false => exact ih (List.forall_mem_cons.mp hsmall).2 hidle
    | true => exact absurd ⟨[], '-' :: cs, rfl, by simp⟩ hidle
  | case3 afterHyphen c cs hc ih =>
    have hrest : hyphenate (camelChars false cs) = cs :=
      ih (List.forall_mem_cons.mp hsmall).2 fun h => hidle (by
        obtain ⟨before, after, rfl, hafter⟩ := h
        exact ⟨_, after, (List.append_assoc _ (c :: before) ('-' :: after)).symm, hafter⟩)
    cases afterHyphen with
    | false =>
      have hone : c.isUpper = false := (List.forall_mem_cons.mp hsmall).1
      show (if c.isUpper = true then ['-', c.toLower] else [c])
        ++ hyphenate (camelChars false cs) = c :: cs
      rw [hrest, hone]
      rfl
    | true =>
      have hlower : c.isLower = true := by
        by_contra h
        exact hidle ⟨[], c :: cs, rfl, by simpa using h⟩
      obtain ⟨hupper, hback⟩ := toUpper_of_isLower hlower
      show (if c.toUpper.isUpper = true then ['-', c.toUpper.toLower] else [c.toUpper])
        ++ hyphenate (camelChars false cs) = '-' :: c :: cs
      rw [hrest, if_pos hupper, hback]
      rfl

/-- **The hyphens of a name can be read off its camel case**, if none of
them is idle. -/
theorem hyphenate_camelCase {p : String} (hsmall : IsSmall p.toList)
    (hidle : ¬HasIdleHyphen p.toList) : hyphenate (camelCase p).toList = p.toList := by
  rw [camelCase, String.toList_ofList]
  exact hyphenate_camelChars false hsmall hidle

/-- Names whose hyphens can be read off stay apart in camel case. -/
theorem eq_of_camelCase_eq {p q : String} (hp : hyphenate (camelCase p).toList = p.toList)
    (hq : hyphenate (camelCase q).toList = q.toList) (h : camelCase p = camelCase q) : p = q := by
  rw [← String.toList_inj, ← hp, h, hq]

/-- The hyphens of a known property can be read off its camel case. -/
theorem hyphenate_of_mem_known {name : String} (h : name ∈ knownProperties) :
    hyphenate (camelCase name).toList = name.toList := by
  have hall : ∀ name ∈ knownProperties, hyphenate (camelChars false name.toList) = name.toList := by
    decide +kernel
  rw [camelCase, String.toList_ofList, hall name h]

/-- **No two known properties have one name.** -/
theorem eq_of_mem_known {p q : String} (hp : p ∈ knownProperties) (hq : q ∈ knownProperties)
    (h : camelCase p = camelCase q) : p = q :=
  eq_of_camelCase_eq (hyphenate_of_mem_known hp) (hyphenate_of_mem_known hq) h

end Style

/-! ## The names in a stylesheet

The parser makes the names of properties small. So of the two conditions on
a name one always holds. -/

namespace Css.Declaration

/-- The declarations of a block have names in small letters. -/
theorem isSmall_of_mem_ofBody {cs : List Component} {d : Declaration} (h : d ∈ ofBody cs) :
    Style.IsSmall d.property.toList := by
  obtain ⟨property, value, -, rfl⟩ := exists_of_mem_ofBody h
  exact Style.isSmall_lower property

end Css.Declaration

namespace Compile

/-- **The names in a stylesheet are in small letters.** -/
theorem isSmall_of_mem_plainOf {unit text : String} {rule : Css.StyleRule}
    {d : Style.PlainDeclaration} (hrule : rule ∈ (Css.Stylesheet.ofText text).rules)
    (hd : d ∈ plainOf unit rule) : Style.IsSmall d.property.toList := by
  obtain ⟨prelude, o, body, closer, -, rfl⟩ := Css.Node.exists_of_mem_rules hrule
  obtain ⟨e, he, hplain⟩ := List.mem_filterMap.mp hd
  have hsmall := Css.Declaration.isSmall_of_mem_ofBody he
  unfold Style.PlainDeclaration.ofDeclaration? at hplain
  dsimp only at hplain
  split at hplain
  · cases hplain
  · split at hplain
    · cases hplain
      exact hsmall
    · split at hplain
      · cases hplain
        have hlower : Text.lower "background-color" = "background-color" := by decide +kernel
        exact hlower ▸ Style.isSmall_lower "background-color"
      · split at hplain
        · cases hplain
        · cases hplain
          exact hsmall

end Compile

end Stylebook
