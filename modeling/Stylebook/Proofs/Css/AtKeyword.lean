import Mathlib.Data.List.Basic
import Stylebook.Css.Stylesheet
import Stylebook.Proofs.Text.Infix

/-!
# Where the parser can find an import

The parser reports an import for an at-keyword that reads `import` in small
letters. Such a token starts with an at sign, and behind that one with the
letter `i`, small or capital, or with a backslash: an escape can stand for
any letter. A text in which no at sign has one of these characters behind it
is *importless*, and the parser reports no import in it
(`importTargets_of_importless`), however its blocks, strings and comments
go.

This is a test on the characters alone. So it passes from the parts of a
text to the whole, which the answer of the parser does not.
-/

namespace Stylebook.Css

/-- The characters that the word `import` can start with, written in any
way. -/
def importStarts : List Char := ['i', 'I', '\\']

/-- **A text in which no import can be found**: no at sign has a character
behind it with which the word `import` can start. -/
def Importless (cs : List Char) : Prop := ∀ c ∈ importStarts, ¬['@', c] <:+: cs

instance (cs : List Char) : Decidable (Importless cs) :=
  have : ∀ c, Decidable (['@', c] <:+: cs) := fun _ => decidable_of_iff _ Text.hasInfix_iff
  List.decidableBAll (fun c => ¬['@', c] <:+: cs) importStarts

namespace Importless

/-- The empty text has no import. -/
theorem nil : Importless [] := by decide

/-- A part of a text has no more at signs than the text. -/
theorem of_isInfix {as bs : List Char} (h : Importless bs) (hpart : as <:+: bs) : Importless as :=
  fun c hc hat => h c hc (hat.trans hpart)

/-- **Two importless texts in a row are one**, if the first ends in a
closing bracket. -/
theorem append {as bs : List Char} (has : Importless as) (hbs : Importless bs)
    (hlast : ∀ c ∈ as.getLast?, c = '}') : Importless (as ++ bs) := by
  intro c hc
  refine Text.not_infix_append (has c hc) (hbs c hc) fun d hd => ?_
  rw [hlast d hd]
  simp only [importStarts, List.mem_cons, List.not_mem_nil, or_false] at hc
  rcases hc with rfl | rfl | rfl <;> decide

end Importless

/-! ## Tokens

What a token is by its first character. There are many branches in the
scanner, but the at-keyword has one of them, and it takes its name from the
characters behind the sign. -/

/-- **An at-keyword that reads `import`.** -/
def Token.IsImport (t : Token) : Prop := ∃ word, t = .atKeyword word ∧ Text.lower word = "import"

/-- A token that is no at-keyword is no import. -/
theorem Token.not_isImport_of_ne {t : Token} (h : ∀ word, t ≠ .atKeyword word) : ¬t.IsImport :=
  fun ⟨word, hword, _⟩ => h word hword

/-- A token that is no at-keyword, no semicolon and no bracket that opens a
block by itself. -/
def Token.isPlain : Token → Bool
  | .atKeyword _ | .semicolon | .opening _ => false
  | _ => true

section Scanning

/-- An address is a plain token, well written or not. -/
theorem isPlain_afterUrl (function : String) (cs : List Char) :
    (afterUrl function cs).1.isPlain = true := by
  unfold afterUrl
  dsimp only
  split
  · rfl
  · split
    · rfl
    · split <;> rfl

/-- What starts like a name is plain: a name, a function or an address. -/
theorem isPlain_identLike (cs : List Char) : (identLike cs).1.isPlain = true := by
  unfold identLike
  dsimp only
  split
  · split
    · exact isPlain_afterUrl _ _
    · rfl
  · rfl

/-- What starts like a number is plain: a number, a percentage or a
dimension. -/
theorem isPlain_numeric (c : Char) (cs : List Char) : (numeric c cs).1.isPlain = true := by
  unfold numeric
  dsimp only
  split
  · rfl
  · split <;> rfl

/-- **What kind of token starts**: an at-keyword, and that only behind the
at sign, what a character is by itself, or a plain token. -/
theorem scan_cases (c : Char) (cs : List Char) :
    (∃ word, c = '@' ∧ (scan c cs).1 = .atKeyword word) ∨ (scan c cs).1 = punctuation c
      ∨ (scan c cs).1.isPlain = true := by
  unfold scan
  by_cases hspace : isSpace c = true
  · exact .inr (.inr (by rw [if_pos hspace]; rfl))
  rw [if_neg hspace]
  by_cases hquote : (decide (c = '"') || decide (c = '\'')) = true
  · rw [if_pos hquote]
    exact .inr (.inr (by split <;> rfl))
  rw [if_neg hquote]
  by_cases hhash : c = '#'
  · rw [if_pos hhash]
    exact .inr (.inr (by split <;> rfl))
  rw [if_neg hhash]
  by_cases hat : c = '@'
  · rw [if_pos hat]
    split
    · exact .inl ⟨_, hat, rfl⟩
    · exact .inr (.inr rfl)
  rw [if_neg hat]
  split
  · exact .inr (.inr (isPlain_numeric c cs))
  split
  · exact .inr (.inr rfl)
  split
  · exact .inr (.inr rfl)
  split
  · exact .inr (.inr rfl)
  split
  · exact .inr (.inr (isPlain_identLike (c :: cs)))
  split
  · exact .inr (.inr (by unfold attributeMark; split <;> rfl))
  · exact .inr (.inl rfl)

variable {c : Char} {cs : List Char}

/-- **Only the at sign starts an at-keyword.** -/
theorem scan_ne_atKeyword (word : String) (cs : List Char) (hc : c ≠ '@') :
    (scan c cs).1 ≠ .atKeyword word := by
  rcases scan_cases c cs with ⟨_, hat, -⟩ | hmark | hplain <;> intro h
  · exact hc hat
  · rw [hmark] at h
    unfold punctuation at h
    split at h <;> cases h
  · rw [h] at hplain
    cases hplain

/-- **Semicolons and curly brackets that open** are read from their own
characters only. -/
theorem eq_or_eq_of_scan (h : (scan c cs).1 = .semicolon ∨ (scan c cs).1 = .opening .curly) :
    c = ';' ∨ c = '{' := by
  rcases scan_cases c cs with ⟨_, -, hword⟩ | hmark | hplain
  · rw [hword] at h
    rcases h with h | h <;> cases h
  · rw [hmark] at h
    unfold punctuation at h
    split at h <;> simp_all
  · rcases h with h | h <;> rw [h] at hplain <;> cases hplain

end Scanning

/-- A lexeme is read from its first character and what follows it. -/
theorem exists_scan_of_mem_lex {cs : List Char} {l : Lexeme} (h : l ∈ lex cs) :
    ∃ c rest, l = ⟨(scan c rest).1, c :: rest.take (scan c rest).2⟩ := by
  fun_induction lex cs with
  | case1 => cases h
  | case2 c cs t n hscan ih =>
    rcases List.mem_cons.mp h with rfl | h
    · exact ⟨c, cs, by rw [hscan]⟩
    · exact ih h

/-- The text of a lexeme stands in what it was read from. -/
theorem text_infix_of_mem_lex {cs : List Char} {l : Lexeme} (h : l ∈ lex cs) : l.text <:+: cs := by
  rw [← text_lex cs]
  exact List.infix_of_mem_flatten (List.mem_map_of_mem h)

/-- A letter that is `i` in small letters. -/
theorem eq_of_toLower_eq {c : Char} (h : c.toLower = 'i') : c = 'i' ∨ c = 'I' := by
  unfold Char.toLower at h
  split at h
  · have hval : c.val + ('a'.val - 'A'.val) = 'I'.val + ('a'.val - 'A'.val) := congrArg Char.val h
    exact Or.inr (Char.ext ((UInt32.add_left_inj _).mp hval))
  · exact Or.inl h

/-- **A name that reads `import`** starts with one of the characters for it. -/
theorem exists_head?_of_name {cs : List Char}
    (h : Text.lower (String.ofList (name cs).1) = "import") :
    ∃ c ∈ importStarts, cs.head? = some c := by
  have hlower : (name cs).1.map Char.toLower = "import".toList := by
    rw [← h, Text.lower, String.toList_ofList, String.toList_ofList]
  cases cs with
  | nil =>
    rw [name] at hlower
    exact absurd hlower (by decide)
  | cons c cs =>
    refine ⟨c, ?_, rfl⟩
    rw [name] at hlower
    split at hlower
    · obtain ⟨hc, -⟩ := List.cons.inj hlower
      rcases eq_of_toLower_eq hc with rfl | rfl <;> decide
    · split at hlower
      · obtain ⟨hc, -⟩ := List.cons.inj hlower
        exact absurd hc (by decide)
      · split at hlower
        · rename_i hescape
          have hc : c = '\\' := by simp_all
          rw [hc]
          decide
        · exact absurd hlower (by decide)

/-- Behind the at sign there is a name, or the sign is by itself. -/
theorem scan_at (cs : List Char) : scan '@' cs
    = if startsIdent cs then (.atKeyword (String.ofList (name cs).1), (name cs).2)
      else (.delim '@', 0) := by
  rw [scan, if_neg (by decide), if_neg (by decide), if_neg (by decide), if_pos rfl]

/-- The token that an importless text starts with. -/
theorem Importless.not_isImport_scan {c : Char} {cs : List Char} (h : Importless (c :: cs)) :
    ¬(scan c cs).1.IsImport := by
  by_cases hc : c = '@'
  · subst hc
    rw [scan_at]
    split
    · rintro ⟨word, hword, hlower⟩
      obtain rfl : String.ofList (name cs).1 = word := Token.atKeyword.inj hword
      obtain ⟨d, hd, hhead⟩ := exists_head?_of_name hlower
      obtain ⟨rest, rfl⟩ := List.head?_eq_some_iff.mp hhead
      exact h d hd (List.prefix_append ['@', d] rest).isInfix
    · exact Token.not_isImport_of_ne (by simp)
  · exact Token.not_isImport_of_ne fun word => scan_ne_atKeyword word cs hc

/-- **No token of an importless text is an import.** -/
theorem Importless.not_isImport_of_mem_lex {cs : List Char} (h : Importless cs) :
    ∀ l ∈ lex cs, ¬l.token.IsImport := by
  fun_induction lex cs with
  | case1 => simp
  | case2 c cs t n hscan ih =>
    rw [List.forall_mem_cons]
    refine ⟨?_, ih (h.of_isInfix ?_)⟩
    · have htoken := h.not_isImport_scan
      rwa [hscan] at htoken
    · exact ((List.drop_suffix n cs).trans (List.suffix_cons c cs)).isInfix

/-! ## Components

The tree has the tokens of the lexemes and no others. So a statement about
every token of a text is one about every token of its tree, at any depth,
and what the tree looks like is not asked. -/

namespace Component

mutual
/-- The tokens that a component starts with, and those inside of it. -/
def tokensOne : Component → List Token
  | .leaf l => [l.token]
  | .block o body _ => o.token :: tokens body

/-- **The tokens of some components**, at every depth. What closes a block
is left out. -/
def tokens : List Component → List Token
  | [] => []
  | c :: cs => tokensOne c ++ tokens cs
end

/-- A token of some components is one of a component. -/
theorem mem_tokens {t : Token} {cs : List Component} :
    t ∈ tokens cs ↔ ∃ c ∈ cs, t ∈ tokensOne c := by
  induction cs with
  | nil => simp [tokens]
  | cons c cs ih => simp [tokens, ih]

variable {p : Token → Prop}

/-- What is said of all tokens is said of the first component and of the
others. -/
theorem forall_tokens_cons {c : Component} {cs : List Component} :
    (∀ t ∈ tokens (c :: cs), p t) ↔ (∀ t ∈ tokensOne c, p t) ∧ ∀ t ∈ tokens cs, p t := by
  rw [tokens, List.forall_mem_append]

/-- The token of a component is among its tokens. -/
theorem token_mem_tokensOne (c : Component) : c.token ∈ tokensOne c := by
  cases c <;> simp [token, tokensOne]

/-- The tokens of what is left when a front is left out. -/
theorem forall_tokens_of_dropWhile {q : Component → Bool} {c : Component}
    {cs rest : List Component} (h : ∀ t ∈ tokens cs, p t) (hdrop : cs.dropWhile q = c :: rest) :
    (∀ t ∈ tokensOne c, p t) ∧ ∀ t ∈ tokens rest, p t := by
  rw [← forall_tokens_cons, ← hdrop]
  intro t ht
  obtain ⟨d, hd, htd⟩ := mem_tokens.mp ht
  exact h t (mem_tokens.mpr ⟨d, (List.dropWhile_suffix q).subset hd, htd⟩)

/-- The order does not matter. -/
theorem forall_tokens_reverse {cs : List Component} :
    (∀ t ∈ tokens cs.reverse, p t) ↔ ∀ t ∈ tokens cs, p t := by
  simp only [mem_tokens, List.mem_reverse]

/-- The tokens of a block that is still open. -/
def Open.tokens (o : Open) : List Token := o.opener.token :: Component.tokens o.before

/-- Closing a block adds no token. -/
theorem forall_tokens_close {o : Open} {level : List Component} {closer : List Char}
    (ho : ∀ t ∈ o.tokens, p t) (hlevel : ∀ t ∈ tokens level, p t) :
    ∀ t ∈ tokens (o.close level closer), p t := by
  rw [Open.tokens, List.forall_mem_cons] at ho
  rw [Open.close, forall_tokens_cons, tokensOne, List.forall_mem_cons]
  exact ⟨⟨ho.1, forall_tokens_reverse.mpr hlevel⟩, ho.2⟩

/-- Closing the blocks that are open at the end of the text adds none
either. -/
theorem forall_tokens_closeAll {level : List Component} {os : List Open}
    (hlevel : ∀ t ∈ tokens level, p t) (hos : ∀ o ∈ os, ∀ t ∈ o.tokens, p t) :
    ∀ t ∈ tokens (closeAll level os), p t := by
  induction os generalizing level with
  | nil => exact forall_tokens_reverse.mpr hlevel
  | cons o os ih =>
    rw [List.forall_mem_cons] at hos
    exact ih (forall_tokens_close hos.1 hlevel) hos.2

/-- What holds of all lexemes that are read holds of all tokens of the
components that they make: nesting takes its tokens from nowhere else. -/
theorem forall_tokens_nest {level : List Component} {os : List Open} {ls : List Lexeme}
    (hlevel : ∀ t ∈ tokens level, p t) (hos : ∀ o ∈ os, ∀ t ∈ o.tokens, p t)
    (hls : ∀ l ∈ ls, p l.token) : ∀ t ∈ tokens (nest level os ls), p t := by
  induction ls generalizing level os with
  | nil =>
    rw [nest]
    exact forall_tokens_closeAll hlevel hos
  | cons l ls ih =>
    rw [List.forall_mem_cons] at hls
    have hleaf : ∀ t ∈ tokens (.leaf l :: level), p t := by
      rw [forall_tokens_cons, tokensOne, List.forall_mem_singleton]
      exact ⟨hls.1, hlevel⟩
    have hopen : ∀ t ∈ (⟨l, level⟩ : Open).tokens, p t := by
      rw [Open.tokens, List.forall_mem_cons]
      exact ⟨hls.1, hlevel⟩
    cases os with
    | nil =>
      rw [nest]
      split
      · exact ih (by simp [tokens]) (List.forall_mem_singleton.mpr hopen) hls.2
      · exact ih hleaf hos hls.2
    | cons o outer =>
      have houter := List.forall_mem_cons.mp hos
      rw [nest]
      split
      · exact ih (forall_tokens_close houter.1 hlevel) houter.2 hls.2
      · split
        · exact ih (by simp [tokens]) (List.forall_mem_cons.mpr ⟨hopen, hos⟩) hls.2
        · exact ih hleaf hos hls.2

/-- **The components of a text have the tokens of its lexemes.** -/
theorem forall_tokens_ofText {cs : List Char} (h : ∀ l ∈ lex cs, p l.token) :
    ∀ t ∈ tokens (ofText cs), p t := by
  rw [ofText, ofLexemes]
  exact forall_tokens_nest (by simp [tokens]) (by simp) h

end Component

/-! ## Rules

Only an at-keyword starts a rule with a target. A rule of another name has
the targets of the rules in its block. -/

namespace Node

open Component (tokens)

/-- A node that is no import has only the targets inside of it. -/
theorem targetsOf_atRule_of_ne {name : String} (h : name ≠ "import") (prelude : List Value)
    (block : Option (List Node)) : targetsOf (.atRule name prelude block) = targetsInside block := by
  rw [targetsOf, importTarget?, if_neg h]
  rfl

/-- An at-rule that is no import does not read `import`. -/
theorem lower_ne_import {c : Component} {keyword : String}
    (hc : ∀ t ∈ Component.tokensOne c, ¬t.IsImport) (htoken : c.token = .atKeyword keyword) :
    Text.lower keyword ≠ "import" :=
  fun hlower => hc _ (Component.token_mem_tokensOne c) ⟨keyword, htoken, hlower⟩

/-- **Components without an import have no import target.** -/
theorem importTargets_of_forall_tokens (first : Bool) (cs : List Component)
    (h : ∀ t ∈ tokens cs, ¬t.IsImport) : importTargets (ofComponents first cs) = [] := by
  fun_induction ofComponents first cs with
  | case1 => rfl
  | case2 => rfl
  | case3 first cs c rest hcs keyword htoken prelude name skipped hrest hskipped =>
    obtain ⟨hc, -⟩ := Component.forall_tokens_of_dropWhile h hcs
    rw [importTargets, targetsOf_atRule_of_ne (lower_ne_import hc htoken)]
    rfl
  | case4 first cs c rest hcs keyword htoken name skipped l after hrest hskipped ih =>
    obtain ⟨-, hbehind⟩ := Component.forall_tokens_of_dropWhile h hcs
    exact ih (Component.forall_tokens_of_dropWhile hbehind hrest).2
  | case5 first cs c rest hcs keyword htoken prelude name skipped l after hrest hskipped ih =>
    obtain ⟨hc, hbehind⟩ := Component.forall_tokens_of_dropWhile h hcs
    rw [importTargets, targetsOf_atRule_of_ne (lower_ne_import hc htoken),
      ih (Component.forall_tokens_of_dropWhile hbehind hrest).2]
    rfl
  | case6 first cs c rest hcs keyword htoken name skipped o body closer after hrest hskipped ih =>
    obtain ⟨-, hbehind⟩ := Component.forall_tokens_of_dropWhile h hcs
    exact ih (Component.forall_tokens_of_dropWhile hbehind hrest).2
  | case7 first cs c rest hcs keyword htoken prelude name skipped o body closer after hrest
      hskipped block ihbody ihafter =>
    obtain ⟨hc, hbehind⟩ := Component.forall_tokens_of_dropWhile h hcs
    obtain ⟨hblock, hafter⟩ := Component.forall_tokens_of_dropWhile hbehind hrest
    rw [Component.tokensOne, List.forall_mem_cons] at hblock
    rw [importTargets, targetsOf_atRule_of_ne (lower_ne_import hc htoken), ihafter hafter]
    -- only the block of a grouping rule is read, and there is no import in it
    show targetsInside (if groupingNames.contains name = true
      then some (ofComponents true body) else none) ++ [] = []
    split
    · exact (List.append_nil _).trans (ihbody hblock.2)
    · rfl
  | case8 first cs c rest hcs prelude o body closer after hrest hcustom hnot ih =>
    obtain ⟨hc, hbehind⟩ := Component.forall_tokens_of_dropWhile h hcs
    have hall := Component.forall_tokens_cons.mpr ⟨hc, hbehind⟩
    exact ih (Component.forall_tokens_of_dropWhile hall hrest).2
  | case9 first cs c rest hcs prelude o body closer after hrest hcustom hnot ih =>
    obtain ⟨hc, hbehind⟩ := Component.forall_tokens_of_dropWhile h hcs
    have hall := Component.forall_tokens_cons.mpr ⟨hc, hbehind⟩
    exact ih (Component.forall_tokens_of_dropWhile hall hrest).2
  | case10 => rfl

end Node

/-- **The parser reports no import in an importless text.** -/
theorem importTargets_of_importless {text : String} (h : Importless text.toList) :
    (Stylesheet.ofText text).importTargets = [] :=
  Node.importTargets_of_forall_tokens true _
    (Component.forall_tokens_ofText h.not_isImport_of_mem_lex)

end Stylebook.Css
