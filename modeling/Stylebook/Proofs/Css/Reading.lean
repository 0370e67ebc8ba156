import Mathlib.Data.List.Basic
import Stylebook.Css.Stylesheet
import Stylebook.Proofs.Text.Infix

/-!
# Reading a stylesheet piece by piece

Reading goes from left to right and looks ahead only as far as its token or
block goes. So the lexemes of a text that starts with a whole token are that
token and the lexemes of the rest; lexemes that open no block are components
by themselves; and what follows the semicolon of an at-rule is read as a
sheet of its own, which only lost its right to a `@charset` in front.
-/

namespace Stylebook.Css

/-! ## Tokens

A text in hand is read by naming its first token and going on with the rest.
These are the tokens of an import statement: the word with its sign, white
space, a quoted text and the semicolon. -/

/-- The lexemes of a text that starts with a token: the token, and those of
the rest. -/
theorem lex_of_scan {c : Char} {cs rest : List Char} {t : Token}
    (h : scan c (cs ++ rest) = (t, cs.length)) :
    lex (c :: (cs ++ rest)) = ⟨t, c :: cs⟩ :: lex rest := by
  rw [lex, h]
  show (⟨t, c :: (cs ++ rest).take cs.length⟩ : Lexeme) :: lex ((cs ++ rest).drop cs.length) = _
  rw [List.take_left, List.drop_left]

/-- No further white space starts with the text. White space is one token
however much of it there is, so it is known only in front of something else. -/
def EndsSpace (rest : List Char) : Prop := ∀ c ∈ rest.head?, isSpace c = false

/-- **White space is one token**, or none. -/
theorem lex_space {cs rest : List Char} (h : ∀ c ∈ cs, isSpace c = true) (hrest : EndsSpace rest) :
    lex (cs ++ rest) = (if cs = [] then [] else [⟨.blank, cs⟩]) ++ lex rest := by
  cases cs with
  | nil => rfl
  | cons c cs =>
    have hc : isSpace c = true := h c List.mem_cons_self
    have hcs : ∀ d ∈ cs, isSpace d = true := fun d hd => h d (List.mem_cons_of_mem _ hd)
    have hscan : scan c (cs ++ rest) = (.blank, cs.length) := by
      rw [scan, if_pos hc, Text.takeWhile_append_eq hcs hrest]
    rw [List.cons_append, lex_of_scan hscan, if_neg (List.cons_ne_nil c cs)]
    rfl

/-- A name goes on while its characters do. -/
theorem name_append {cs rest : List Char} (h : ∀ c ∈ cs, isNameChar c = true)
    (hrest : name rest = ([], 0)) : name (cs ++ rest) = (cs, cs.length) := by
  induction cs with
  | nil => exact hrest
  | cons c cs ih =>
    rw [List.cons_append, name, if_pos (h c List.mem_cons_self),
      ih fun d hd => h d (List.mem_cons_of_mem _ hd)]
    rfl

/-- White space ends a name. -/
theorem name_of_isSpace {c : Char} (h : isSpace c = true) (cs : List Char) :
    name (c :: cs) = ([], 0) := by
  have hc : isNameChar c = false ∧ c ≠ '\x00' ∧ c ≠ '\\' := by
    simp only [isSpace, Bool.or_eq_true, decide_eq_true_eq] at h
    rcases h with (((h | h) | h) | h) | h <;> subst h <;> decide
  rw [name, if_neg (by simp [hc.1]), if_neg hc.2.1, if_neg (by simp [hc.2.2])]

/-- **A word after the at sign is one token**, with white space behind it. -/
theorem lex_atKeyword {word rest : List Char} {c : Char}
    (hstart : startsIdent (word ++ c :: rest) = true) (hword : ∀ c ∈ word, isNameChar c = true)
    (hc : isSpace c = true) : lex ('@' :: (word ++ c :: rest))
      = ⟨.atKeyword (String.ofList word), '@' :: word⟩ :: lex (c :: rest) := by
  refine lex_of_scan ?_
  rw [scan, if_neg (by decide), if_neg (by decide), if_neg (by decide), if_pos rfl, if_pos hstart,
    name_append hword (name_of_isSpace hc rest)]

/-- The inside of a string without escapes and line breaks, up to its quote. -/
theorem quoted_append {quote : Char} {text : List Char} (rest : List Char)
    (hquote : quote ∉ text) (hescape : '\\' ∉ text) (hbreak : ∀ c ∈ text, isLineBreak c = false)
    (hnul : '\x00' ∉ text) :
    quoted quote (text ++ quote :: rest) = (some text, text.length + 1) := by
  induction text with
  | nil => rw [List.nil_append, quoted, if_pos rfl]; rfl
  | cons c text ih =>
    rw [List.mem_cons, not_or] at hquote hescape hnul
    obtain ⟨hq, hquote⟩ := hquote
    obtain ⟨he, hescape⟩ := hescape
    obtain ⟨hn, hnul⟩ := hnul
    have hb := hbreak c List.mem_cons_self
    rw [List.cons_append, quoted, if_neg (Ne.symm hq), if_neg (by simp [hb]), if_neg (Ne.symm he),
      ih hquote hescape (fun d hd => hbreak d (List.mem_cons_of_mem _ hd)) hnul,
      if_neg (Ne.symm hn)]
    rfl

/-- **A quoted text is one token.** -/
theorem lex_quoted {quote : Char} {text : List Char} (rest : List Char)
    (hq : quote = '"' ∨ quote = '\'') (hquote : quote ∉ text) (hescape : '\\' ∉ text)
    (hbreak : ∀ c ∈ text, isLineBreak c = false) (hnul : '\x00' ∉ text) :
    lex (quote :: (text ++ quote :: rest))
      = ⟨.str (String.ofList text), quote :: (text ++ [quote])⟩ :: lex rest := by
  have hscan : scan quote ((text ++ [quote]) ++ rest)
      = (.str (String.ofList text), (text ++ [quote]).length) := by
    have hspace : isSpace quote = false := by
      rcases hq with rfl | rfl <;> decide
    rw [scan, if_neg (by simp [hspace]), if_pos (by rcases hq with rfl | rfl <;> rfl),
      List.append_assoc, List.singleton_append, quoted_append rest hquote hescape hbreak hnul,
      List.length_append]
    rfl
  have h := lex_of_scan hscan
  rwa [List.append_assoc] at h

/-- The lexemes of a text that starts with a token of one character. -/
theorem lex_of_single {c : Char} {rest : List Char} {t : Token} (h : scan c rest = (t, 0)) :
    lex (c :: rest) = ⟨t, [c]⟩ :: lex rest :=
  @lex_of_scan c [] rest t h

/-- A semicolon is a token in front of anything. -/
theorem lex_semicolon (rest : List Char) : lex (';' :: rest) = ⟨.semicolon, [';']⟩ :: lex rest :=
  lex_of_single rfl

/-! ## Blocks

Components are read with a stack of the blocks that are open. What was read
before them stays at the bottom of the stack and is put in front at the end.
So it may be taken away, and a list of lexemes be read from where it stands. -/

namespace Component

/-- What stands at the bottom is in front when all blocks are closed. -/
theorem closeAll_append (pre level : List Component) (os : List Open) (o : Lexeme)
    (before : List Component) : closeAll level (os ++ [⟨o, before ++ pre⟩])
      = pre.reverse ++ closeAll level (os ++ [⟨o, before⟩]) := by
  induction os generalizing level with
  | nil => simp [closeAll, Open.close]
  | cons p os ih => exact ih _

/-- What stands before the outermost level that is read changes nothing
behind it. -/
theorem nest_append (pre : List Component) (ls : List Lexeme) :
    (∀ level, nest (level ++ pre) [] ls = pre.reverse ++ nest level [] ls)
      ∧ ∀ level os o before, nest level (os ++ [⟨o, before ++ pre⟩]) ls
          = pre.reverse ++ nest level (os ++ [⟨o, before⟩]) ls := by
  -- with and without open blocks at once, as a bracket leads from one to the other
  induction ls with
  | nil =>
    refine ⟨fun level => ?_, fun level os o before => ?_⟩
    · show (level ++ pre).reverse = pre.reverse ++ level.reverse
      exact List.reverse_append
    · rw [nest, nest]
      exact closeAll_append pre level os o before
  | cons l ls ih =>
    obtain ⟨ihflat, ihdeep⟩ := ih
    refine ⟨fun level => ?_, fun level os o before => ?_⟩
    · rw [nest, nest]
      split
      · exact ihdeep [] [] l level
      · exact ihflat (.leaf l :: level)
    · cases os with
      | nil =>
        rw [List.nil_append, List.nil_append, nest, nest]
        split
        · exact ihflat (.block o level.reverse l.text :: before)
        · split
          · exact ihdeep [] [⟨l, level⟩] o before
          · exact ihdeep (.leaf l :: level) [] o before
      | cons p os =>
        rw [List.cons_append, List.cons_append, nest, nest]
        split
        · exact ihdeep (p.close level l.text) os o before
        · split
          · exact ihdeep [] (⟨l, level⟩ :: p :: os) o before
          · exact ihdeep (.leaf l :: level) (p :: os) o before

/-- **A lexeme that opens no block is a component**, and the rest is read by
itself. -/
theorem ofLexemes_cons {l : Lexeme} (h : l.token.opens = none) (ls : List Lexeme) :
    ofLexemes (l :: ls) = .leaf l :: ofLexemes ls := by
  rw [ofLexemes, nest, h]
  exact (nest_append [.leaf l] ls).1 []

/-- So are several lexemes that open no block. -/
theorem ofLexemes_append {front : List Lexeme} (h : ∀ l ∈ front, l.token.opens = none)
    (rest : List Lexeme) : ofLexemes (front ++ rest) = front.map .leaf ++ ofLexemes rest := by
  induction front with
  | nil => rfl
  | cons l front ih =>
    rw [List.cons_append, ofLexemes_cons (h l List.mem_cons_self),
      ih fun k hk => h k (List.mem_cons_of_mem _ hk)]
    rfl

end Component

/-! ## Rules

A rule is cut out by three tests of components, one for each of its ends.
For an at-rule with a semicolon each cut is known when its parts are. -/

namespace Node

/-- Only the one keyword names a target. -/
theorem importTarget?_of_ne {name : String} (h : name ≠ "import") (prelude : List Value) :
    importTarget? name prelude = none := if_neg h

/-- **Which imports are read does not depend on whether a rule came
before.** -/
theorem importTargets_ofComponents (first : Bool) (cs : List Component) :
    importTargets (ofComponents first cs) = importTargets (ofComponents false cs) := by
  cases first with
  | false => rfl
  | true =>
    rw [ofComponents, ofComponents]
    split
    · rfl
    · rename_i c rest _
      split
      · rename_i keyword _
        -- only a charset rule asks whether a rule came before, and it imports nothing
        by_cases hname : Text.lower keyword = "charset"
        · have hne : Text.lower keyword ≠ "import" := by
            rw [hname]
            decide
          have hgroup : "charset" ∉ groupingNames := by decide
          simp only [hname, Bool.true_and, Bool.false_and, decide_true, if_true]
          rw [hname] at hne
          split <;> simp [importTargets, targetsOf, targetsInside, importTarget?_of_ne hne, hgroup]
        · simp only [hname, decide_false, Bool.and_false]
      · rfl

section AtRule

variable {between prelude after : List Component} {keyword : String} {text : List Char}
  {semicolon : Lexeme}

/-- What stands between two rules ends where an at-rule starts. -/
theorem dropWhile_isBetweenRules (hbetween : ∀ c ∈ between, isBetweenRules c = true)
    (rest : List Component) :
    (between ++ .leaf ⟨.atKeyword keyword, text⟩ :: rest).dropWhile isBetweenRules
      = .leaf ⟨.atKeyword keyword, text⟩ :: rest := by
  rw [List.dropWhile_append_of_pos hbetween]
  exact List.dropWhile_cons_of_neg (by simp [isBetweenRules, Component.isGap,
    Component.isComment, Component.token])

/-- A semicolon ends a prelude. -/
theorem endsAtPrelude_semicolon (hsemicolon : semicolon.token = .semicolon) :
    endsAtPrelude (.leaf semicolon) = true := by
  simp [endsAtPrelude, Component.isSemicolon, Component.token, hsemicolon]

/-- The prelude is what stands before its end. -/
theorem takeWhile_prelude (hprelude : ∀ c ∈ prelude, endsAtPrelude c = false)
    (hsemicolon : semicolon.token = .semicolon) :
    (prelude ++ .leaf semicolon :: after).takeWhile (!endsAtPrelude ·) = prelude := by
  rw [List.takeWhile_append_of_pos (by simpa using hprelude),
    List.takeWhile_cons_of_neg (by simp [endsAtPrelude_semicolon hsemicolon]), List.append_nil]

/-- Behind the prelude, reading goes on with its end. -/
theorem dropWhile_prelude (hprelude : ∀ c ∈ prelude, endsAtPrelude c = false)
    (hsemicolon : semicolon.token = .semicolon) :
    (prelude ++ .leaf semicolon :: after).dropWhile (!endsAtPrelude ·)
      = .leaf semicolon :: after := by
  rw [List.dropWhile_append_of_pos (by simpa using hprelude),
    List.dropWhile_cons_of_neg (by simp [endsAtPrelude_semicolon hsemicolon])]

/-- An at-rule that ends in a semicolon, and what follows it. -/
theorem ofComponents_atRule (first : Bool)
    (hbetween : ∀ c ∈ between, isBetweenRules c = true)
    (hprelude : ∀ c ∈ prelude, endsAtPrelude c = false) (hsemicolon : semicolon.token = .semicolon)
    (hname : Text.lower keyword ≠ "charset") :
    ofComponents first (between ++ .leaf ⟨.atKeyword keyword, text⟩ ::
        (prelude ++ .leaf semicolon :: after))
      = .atRule (Text.lower keyword) (Value.ofComponents [] prelude) none
          :: ofComponents false after := by
  have hdrop : (between ++ .leaf ⟨.atKeyword keyword, text⟩ ::
      (prelude ++ .leaf semicolon :: after)).dropWhile isBetweenRules
        = .leaf ⟨.atKeyword keyword, text⟩ :: (prelude ++ .leaf semicolon :: after) :=
    dropWhile_isBetweenRules hbetween _
  have hrest : (prelude ++ .leaf semicolon :: after).dropWhile (!endsAtPrelude ·)
      = .leaf semicolon :: after := dropWhile_prelude hprelude hsemicolon
  rw [ofComponents]
  split
  · rename_i hnil
    rw [hdrop] at hnil
    cases hnil
  · rename_i c rest hcons
    rw [hdrop] at hcons
    obtain ⟨rfl, rfl⟩ := List.cons.inj hcons
    -- the rule starts here, and what ends its prelude is looked at
    dsimp only [Component.token]
    split
    · rename_i hnil
      rw [hrest] at hnil
      cases hnil
    · rename_i hleaf
      rw [hrest] at hleaf
      obtain ⟨-, rfl⟩ := List.cons.inj hleaf
      rw [takeWhile_prelude hprelude hsemicolon, if_neg (by simp [hname])]
    · rename_i hblock
      rw [hrest] at hblock
      cases hblock

end AtRule

end Node

end Stylebook.Css
