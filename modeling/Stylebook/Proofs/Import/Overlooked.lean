import Stylebook.Import.Inline
import Stylebook.Proofs.Css.AtKeyword

/-!
# Imports that are overlooked

`importTargets` looks for the word `@import` in a text before it asks the
parser. The parser knows the word in other spellings too: its letters may be
capitals, and any of them may be written as an escape. Where the word stands
in no other spelling than these, nothing is found and the parser is not
asked, so all imports of the text are overlooked together
(`importTargets_ne_of_capitals`). One plain `@import` anywhere, even in a
comment, and the others are reported with it.

That is all that goes wrong (`importTargets_eq_or_overlooks`). A name that
has neither a capital nor a backslash stands for itself, so the keyword of
an import that is spelled with neither is the word that is looked for.
-/

namespace Stylebook

namespace Css

/-- **A keyword in another spelling**: it has a capital or an escape in it. -/
def Lexeme.IsRespelled (l : Lexeme) : Prop := ∃ c ∈ l.text, c.isUpper = true ∨ c = '\\'

/-- A character of a name as it is read, where it is no escape. -/
def readChar (c : Char) : Char := if c = '\x00' then replacement else c

/-- **A name without escapes is read character by character.** -/
theorem name_of_unescaped {cs : List Char} (h : '\\' ∉ cs.take (name cs).2) :
    (name cs).1 = (cs.take (name cs).2).map readChar := by
  fun_induction name cs with
  | case1 => rfl
  | case2 c cs hc v n hname ih =>
    rw [hname] at ih
    have hread : readChar c = c := if_neg (by rintro rfl; exact absurd hc (by decide))
    show c :: v = (readChar c) :: (cs.take n).map readChar
    rw [hread, ← ih fun hmem => h (List.mem_cons_of_mem c hmem)]
  | case3 cs v n hname hc ih =>
    rw [hname] at ih
    show replacement :: v = readChar '\x00' :: (cs.take n).map readChar
    rw [← ih fun hmem => h (List.mem_cons_of_mem _ hmem)]
    rfl
  | case4 c cs hc hnul hescape d k he v n hname ih =>
    have hbackslash : c = '\\' := by simp_all
    exact absurd (hbackslash ▸ List.mem_cons_self) h
  | case5 => rfl

/-- A character that reads as a letter of the word, and is no capital, is
that letter. -/
theorem toLower_readChar {c : Char} (hcapital : c.isUpper = false)
    (hletter : (readChar c).toLower ∈ "import".toList) : (readChar c).toLower = c := by
  unfold readChar at hletter ⊢
  split
  · rename_i hnul
    rw [if_pos hnul] at hletter
    exact absurd hletter (by decide)
  · have hrange : ¬(c.val ≥ 'A'.val ∧ c.val ≤ 'Z'.val) := of_decide_eq_false hcapital
    unfold Char.toLower
    rw [dif_neg hrange]

/-- **A name that reads `import` without capitals and escapes is that
word.** -/
theorem take_name_eq {cs : List Char} (hlower : Text.lower (String.ofList (name cs).1) = "import")
    (h : ∀ c ∈ cs.take (name cs).2, c.isUpper = false ∧ c ≠ '\\') :
    cs.take (name cs).2 = "import".toList := by
  have hread : (cs.take (name cs).2).map (fun c => (readChar c).toLower) = "import".toList := by
    rw [← hlower, Text.lower, String.toList_ofList, String.toList_ofList,
      name_of_unescaped fun hmem => (h _ hmem).2 rfl, List.map_map]
    rfl
  calc cs.take (name cs).2
      = (cs.take (name cs).2).map (fun c => (readChar c).toLower) := by
        refine (List.map_congr_left (g := id) fun c hc => ?_).trans (List.map_id _) |>.symm
        exact toLower_readChar (h c hc).1 (hread ▸ List.mem_map_of_mem hc)
    _ = "import".toList := hread

/-- **The keyword of an import is the word that is looked for**, or it is
respelled. -/
theorem text_eq_keyword_or_isRespelled {cs : List Char} {l : Lexeme} (h : l ∈ lex cs)
    (himport : l.token.IsImport) : l.text = Import.keyword ∨ l.IsRespelled := by
  refine or_iff_not_imp_right.mpr fun hplain => ?_
  obtain ⟨c, rest, rfl⟩ := exists_scan_of_mem_lex h
  obtain ⟨word, hword, hlower⟩ := himport
  obtain rfl : c = '@' := by
    by_contra hc
    exact scan_ne_atKeyword word rest hc hword
  by_cases hstart : startsIdent rest = true
  · rw [scan_at, if_pos hstart] at hword hplain ⊢
    obtain rfl : String.ofList (name rest).1 = word := Token.atKeyword.inj hword
    have htake : rest.take (name rest).2 = "import".toList := by
      refine take_name_eq hlower fun c hc => ⟨?_, ?_⟩
      · exact Bool.eq_false_iff.mpr fun hcapital =>
          hplain ⟨c, List.mem_cons_of_mem _ hc, Or.inl hcapital⟩
      · rintro rfl
        exact hplain ⟨_, List.mem_cons_of_mem _ hc, Or.inr rfl⟩
    show '@' :: rest.take (name rest).2 = Import.keyword
    rw [htake]
    rfl
  · rw [scan_at, if_neg hstart] at hword
    cases hword

end Css

/-- **The imports of a text are overlooked**, all of them together. -/
structure Overlooks (source : String) : Prop where
  unreported : importTargets source = []
  /-- The parser knows of imports. -/
  parsed : (Css.Stylesheet.ofText source).importTargets ≠ []
  absent : ¬Import.keyword <:+: source.toList
  respelled : ∀ l ∈ Css.lex source.toList, l.token.IsImport → l.IsRespelled

/-- **The first look agrees with the parser, or it overlooks everything.**
The first look asks for the keyword in small letters, anywhere in the text.
If it is there the parser is asked. If it is not, then each keyword that the
parser knows as an import is spelled differently: it is in capitals or has
an escape, as a token is a part of the text that it was read from. -/
theorem importTargets_eq_or_overlooks (source : String) :
    importTargets source = (Css.Stylesheet.ofText source).importTargets ∨ Overlooks source := by
  by_cases hword : Text.hasInfix Import.keyword source.toList = true
  · exact Or.inl (if_pos hword)
  · have hnone : importTargets source = [] := if_neg hword
    by_cases hparsed : (Css.Stylesheet.ofText source).importTargets = []
    · exact Or.inl (hnone.trans hparsed.symm)
    · rw [Text.hasInfix_iff] at hword
      refine Or.inr ⟨hnone, hparsed, hword, fun l hl himport => ?_⟩
      refine (Css.text_eq_keyword_or_isRespelled hl himport).resolve_left fun hkeyword => ?_
      exact hword (hkeyword ▸ Css.text_infix_of_mem_lex hl)

/-- **An import in capitals is overlooked**, and so is one with an escape in
its keyword. -/
theorem importTargets_ne_of_capitals :
    importTargets "@IMPORT \"b.css\";" ≠ (Css.Stylesheet.ofText "@IMPORT \"b.css\";").importTargets
      ∧ importTargets "@\\69mport \"b.css\";"
        ≠ (Css.Stylesheet.ofText "@\\69mport \"b.css\";").importTargets := by
  decide +kernel

end Stylebook
