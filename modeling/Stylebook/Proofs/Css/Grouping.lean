import Stylebook.Proofs.Css.AtKeyword
import Stylebook.Proofs.Css.Trailing

/-!
# Grouping at-rules

The block of a grouping at-rule is read as a sheet. `Grouping` is such a
rule without its block, and `Grouping.wrap` puts a text in the block. When
the text is whole – nothing in it is open, and its brackets are balanced
(`IsWhole`) – the block ends at the bracket behind the text. The text is
then between spaces, and these change no rule and no import of it
(`IsWhole.exists_lexemes`). So a wrapped text is whole again and has the
rules and the imports of the text (`Grouping.isWhole_wrap`,
`Grouping.sameContent_wrap`), and so has one that is wrapped any number of
times (`Grouping.sameContent_wrapAll`).
-/

namespace Stylebook.Css

/-! ## Whole texts

Both halves of being whole are needed, and neither gives the other. A string
that is open would take in the bracket behind the text, and a bracket that
is open would be closed by it. -/

/-- **A text in which everything is closed and properly nested**: no string,
comment, address or escape is open at its end, and its brackets are
balanced. -/
structure IsWhole (cs : List Char) : Prop where
  closed : IsClosed cs
  balanced : Balanced (lex cs)

/-- The two halves as a conjunction, to decide it. -/
theorem isWhole_iff {cs : List Char} : IsWhole cs ↔ IsClosed cs ∧ Balanced (lex cs) :=
  ⟨fun h => ⟨h.closed, h.balanced⟩, fun h => ⟨h.1, h.2⟩⟩

instance : DecidablePred IsWhole := fun _ => decidable_of_iff _ isWhole_iff.symm

open Component (ofLexemes ofText)
open Node (SameContent endsAtPrelude)

namespace Node

/-- Reading starts behind what stands between rules. -/
theorem ofComponents_congr {cs cs' : List Component}
    (h : cs.dropWhile isBetweenRules = cs'.dropWhile isBetweenRules) (first : Bool) :
    ofComponents first cs = ofComponents first cs' := by
  cases hcs : cs.dropWhile isBetweenRules with
  | nil => rw [ofComponents_eq_nil hcs, ofComponents_eq_nil (h ▸ hcs)]
  | cons c rest =>
    by_cases hkeyword : ∃ keyword, c.token = .atKeyword keyword
    · obtain ⟨keyword, hc⟩ := hkeyword
      rw [ofComponents_of_atKeyword hcs hc, ofComponents_of_atKeyword (h ▸ hcs) hc]
    · rw [ofComponents_of_other hcs (not_exists.mp hkeyword),
        ofComponents_of_other (h ▸ hcs) (not_exists.mp hkeyword)]

/-- White space in front of a sheet is skipped. -/
theorem ofComponents_blank (first : Bool) (text : List Char) (cs : List Component) :
    ofComponents first (.leaf ⟨.blank, text⟩ :: cs) = ofComponents first cs :=
  ofComponents_congr (List.dropWhile_cons_of_pos rfl) first

/-- A prelude ends at a semicolon or at a curly bracket. -/
theorem endsAtPrelude_eq_false_iff {c : Component} :
    endsAtPrelude c = false ↔ c.token ≠ .semicolon ∧ c.token ≠ .opening .curly := by
  simp [endsAtPrelude, Component.isSemicolon, Component.isCurly]

end Node

/-- **A whole text between spaces, in front of a curly bracket**, is read by
itself. It has the content that it has alone, and ends a prelude only if it
does so alone. -/
theorem IsWhole.exists_lexemes {cs : List Char} (h : IsWhole cs) :
    ∃ ls, Balanced ls ∧ (∀ w, AtCurly w → lex (' ' :: (cs ++ ' ' :: w)) = ls ++ lex w)
      ∧ SameContent (Node.ofComponents true (ofText cs)) (Node.ofComponents true (ofLexemes ls))
      ∧ ((∀ c ∈ ofText cs, endsAtPrelude c = false) →
        ∀ c ∈ ofLexemes ls, endsAtPrelude c = false) := by
  obtain ⟨hclosed, text, rest, hlex, hrest⟩ := h.closed.exists_lex_cons
  obtain ⟨ls, hspaced, hls⟩ := hclosed.exists_lex_append
  -- alone, the text has white space of its own in front, or none
  have halone : Balanced rest ∧ (ofText cs = ofLexemes rest
      ∨ ∃ text', ofText cs = .leaf ⟨.blank, text'⟩ :: ofLexemes rest) := by
    rcases hrest with rfl | ⟨text', hrest⟩
    · exact ⟨h.balanced, .inl rfl⟩
    · rw [ofText, hrest, Component.ofLexemes_cons rfl]
      exact ⟨(Balanced.cons_iff rfl).mp (hrest ▸ h.balanced), .inr ⟨text', rfl⟩⟩
  obtain ⟨hbalanced, halone⟩ := halone
  obtain ⟨hbalanced', htrailed⟩ :=
    hspaced.trailed (hlex ▸ (Balanced.cons_iff rfl).mpr hbalanced)
  rw [hlex, Component.ofLexemes_cons rfl] at htrailed
  refine ⟨ls, hbalanced', hls, ?_, fun hall => ?_⟩
  · have hcontent := Node.sameContent_of_trailed htrailed true
    rw [Node.ofComponents_blank] at hcontent
    rcases halone with halone | ⟨text', halone⟩
    · rwa [halone]
    · rwa [halone, Node.ofComponents_blank]
  · simp only [Node.endsAtPrelude_eq_false_iff] at hall ⊢
    have hblank : Token.blank ≠ .semicolon ∧ Token.blank ≠ .opening .curly := by decide
    refine htrailed.forall_token (q := fun t => t ≠ .semicolon ∧ t ≠ .opening .curly) hblank
      (List.forall_mem_cons.mpr ⟨hblank, ?_⟩)
    rcases halone with halone | ⟨text', halone⟩
    · exact halone ▸ hall
    · exact (List.forall_mem_cons.mp (halone ▸ hall)).2

/-! ## Wrapping a text

The text stands between spaces in the block. The spaces are there to keep
the statement simple: without them the last token of the text would stand in
front of a bracket and the first one behind another, and neither matters,
but each would need a proof. -/

/-- **A grouping at-rule without its block.** Its prelude is whole; and
outside of brackets, it has no semicolon and no curly bracket. -/
structure Grouping where
  name : String
  prelude : String
  isGrouping : name ∈ groupingNames
  isWhole : IsWhole prelude.toList
  noEnd : ∀ c ∈ ofText prelude.toList, endsAtPrelude c = false

/-- A curly bracket that opens is a token in front of anything. -/
theorem lex_openCurly (rest : List Char) :
    lex ('{' :: rest) = ⟨.opening .curly, ['{']⟩ :: lex rest :=
  lex_of_single rfl

/-- A curly bracket that closes is a token in front of anything. -/
theorem lex_closeCurly (rest : List Char) :
    lex ('}' :: rest) = ⟨.closing .curly, ['}']⟩ :: lex rest :=
  lex_of_single rfl

/-- **A prelude without the characters** that could end it is not ended by a
component. -/
theorem Node.endsAtPrelude_of_notMem {cs : List Char} (hsemicolon : ';' ∉ cs) (hcurly : '{' ∉ cs) :
    ∀ c ∈ ofText cs, endsAtPrelude c = false := by
  have htokens : ∀ l ∈ lex cs, l.token ≠ .semicolon ∧ l.token ≠ .opening .curly := by
    intro l hl
    obtain ⟨c, rest, rfl⟩ := exists_scan_of_mem_lex hl
    have hc : c ∈ cs := (text_infix_of_mem_lex hl).subset List.mem_cons_self
    rw [← not_or]
    intro htoken
    rcases eq_or_eq_of_scan htoken with rfl | rfl
    · exact hsemicolon hc
    · exact hcurly hc
  intro c hc
  rw [Node.endsAtPrelude_eq_false_iff]
  exact Component.forall_tokens_ofText (p := fun t => t ≠ .semicolon ∧ t ≠ .opening .curly) htokens
    c.token (Component.mem_tokens.mpr ⟨c, hc, Component.token_mem_tokensOne c⟩)

/-- What a name of a grouping rule is read as. -/
theorem of_mem_groupingNames : ∀ name ∈ groupingNames, startsIdent name.toList = true
    ∧ name.toList.all isNameChar = true ∧ Text.lower name = name
    ∧ name ≠ "charset" ∧ name ≠ "import" := by
  decide

/-- **A grouping rule is read as its block.** -/
theorem Node.ofComponents_grouping (first : Bool) {name : String} {text : List Char}
    {prelude body : List Component} {opener : Lexeme} {closer : List Char}
    (hname : name ∈ groupingNames) (hopener : opener.token = .opening .curly)
    (hprelude : ∀ c ∈ prelude, endsAtPrelude c = false) :
    ofComponents first (.leaf ⟨.atKeyword name, text⟩ :: (prelude ++ [.block opener body closer]))
      = [.atRule name (Value.ofComponents [] prelude) (some (ofComponents true body))] := by
  obtain ⟨-, -, hlower, hcharset, -⟩ := of_mem_groupingNames name hname
  have hall : prelude.dropWhile (!endsAtPrelude ·) = [] :=
    List.dropWhile_eq_nil_iff.mpr fun c hc => congrArg (!·) (hprelude c hc)
  obtain ⟨hdrop, htake⟩ := cut_append_of_nil hall (ends_of_curly hopener body closer).2.1 []
  have hskip : ¬(first && decide (name = "charset")) = true := by
    rw [decide_eq_false hcharset, Bool.and_false]
    exact Bool.false_ne_true
  have hgroup : groupingNames.contains name = true := List.contains_iff_mem.mpr hname
  have hstart : ∀ rest, (.leaf ⟨.atKeyword name, text⟩ :: rest).dropWhile isBetweenRules
      = .leaf ⟨.atKeyword name, text⟩ :: rest :=
    dropWhile_isBetweenRules (List.forall_mem_nil _)
  rw [ofComponents_of_atKeyword (hstart _) rfl, hdrop, htake, hlower]
  dsimp only
  rw [if_neg hskip, if_pos hgroup]
  exact congrArg _ (ofComponents_eq_nil rfl)

namespace Grouping

/-- The rule with a prelude that has no character for a semicolon or a curly
bracket. -/
def ofPrelude (name prelude : String) (hname : name ∈ groupingNames)
    (hwhole : IsWhole prelude.toList) (hsemicolon : ';' ∉ prelude.toList)
    (hcurly : '{' ∉ prelude.toList) : Grouping where
  name := name
  prelude := prelude
  isGrouping := hname
  isWhole := hwhole
  noEnd := Node.endsAtPrelude_of_notMem hsemicolon hcurly

/-- **A text in the block of a grouping at-rule.** -/
def wrap (g : Grouping) (text : String) : String :=
  "@" ++ g.name ++ " " ++ g.prelude ++ " \x7b " ++ text ++ " \x7d"

variable (g : Grouping) {text : String}

/-- The characters of a wrapped text. -/
theorem toList_wrap (text : String) : (g.wrap text).toList
    = '@' :: (g.name.toList ++ ' ' :: (g.prelude.toList
      ++ ' ' :: '{' :: ' ' :: (text.toList ++ [' ', '}']))) := by
  simp [wrap]

/-- **What a wrapped text is read as**, whatever comes behind. -/
theorem exists_lexemes (h : IsWhole text.toList) : ∃ front body, Balanced front ∧ Balanced body
    ∧ (∀ rest, lex ((g.wrap text).toList ++ rest)
      = ⟨.atKeyword g.name, '@' :: g.name.toList⟩ :: (front ++ ⟨.opening .curly, ['{']⟩
        :: (body ++ ⟨.closing .curly, ['}']⟩ :: lex rest)))
    ∧ (∀ c ∈ ofLexemes front, endsAtPrelude c = false)
    ∧ SameContent (Node.ofComponents true (ofText text.toList))
      (Node.ofComponents true (ofLexemes body)) := by
  obtain ⟨front, hfront, hlex, -, hend⟩ := g.isWhole.exists_lexemes
  obtain ⟨body, hbody, hlex', hcontent, -⟩ := h.exists_lexemes
  refine ⟨front, body, hfront, hbody, fun rest => ?_, hend g.noEnd, hcontent⟩
  obtain ⟨hstarts, hchars, -⟩ := of_mem_groupingNames g.name g.isGrouping
  have hname := (startsIdent_append (.inl rfl) g.name.toList (g.prelude.toList
    ++ ' ' :: '{' :: ' ' :: (text.toList ++ ' ' :: '}' :: rest))).trans hstarts
  rw [toList_wrap, List.cons_append]
  simp only [List.append_assoc, List.cons_append, List.nil_append]
  rw [lex_atKeyword hname (List.all_eq_true.mp hchars) rfl, String.ofList_toList,
    hlex _ ⟨_, _, .inl rfl, rfl⟩, lex_openCurly, hlex' _ ⟨_, _, .inr rfl, rfl⟩, lex_closeCurly]

/-- **A wrapped text is whole.** -/
theorem isWhole_wrap (h : IsWhole text.toList) : IsWhole (g.wrap text).toList := by
  obtain ⟨front, body, hfront, hbody, hlex, -, -⟩ := g.exists_lexemes h
  have halone := hlex []
  rw [List.append_nil, lex_nil] at halone
  constructor
  · rw [IsClosed, hlex, halone, lex_closeCurly, lex_nil]
    simp
  · rw [halone]
    exact .flat _ rfl (hfront.append (.block _ _ rfl rfl hbody .nil))

/-- **A wrapped text has the rules and the imports of the text.** -/
theorem sameContent_wrap (h : IsWhole text.toList) :
    SameContent (Node.ofComponents true (ofText (g.wrap text).toList))
      (Node.ofComponents true (ofText text.toList)) := by
  obtain ⟨front, body, hfront, hbody, hlex, hend, hrules, himports⟩ := g.exists_lexemes h
  obtain ⟨-, -, -, -, himport⟩ := of_mem_groupingNames g.name g.isGrouping
  have halone := hlex []
  rw [List.append_nil, lex_nil] at halone
  have hread : Node.ofComponents true (ofText (g.wrap text).toList)
      = [.atRule g.name (Value.ofComponents [] (ofLexemes front))
        (some (Node.ofComponents true (ofLexemes body)))] := by
    rw [ofText, halone, Component.ofLexemes_cons rfl, hfront.ofLexemes_append,
      hbody.ofLexemes_block rfl rfl]
    exact Node.ofComponents_grouping true g.isGrouping rfl hend
  rw [hread]
  constructor
  · rw [hrules]
    exact List.append_nil _
  · rw [himports, Node.importTargets, Node.targetsOf_atRule_of_ne himport]
    exact List.append_nil _

/-- A text in the blocks of grouping at-rules, the outermost first. -/
def wrapAll (gs : List Grouping) (text : String) : String := gs.foldr wrap text

/-- **A text that is wrapped any number of times** has the rules and the
imports of the text. -/
theorem sameContent_wrapAll (gs : List Grouping) (h : IsWhole text.toList) :
    IsWhole (wrapAll gs text).toList
      ∧ SameContent (Node.ofComponents true (ofText (wrapAll gs text).toList))
        (Node.ofComponents true (ofText text.toList)) := by
  induction gs with
  | nil => exact ⟨h, rfl, rfl⟩
  | cons g gs ih =>
    obtain ⟨hwhole, hrules, himports⟩ := ih
    obtain ⟨hrules', himports'⟩ := g.sameContent_wrap hwhole
    exact ⟨g.isWhole_wrap hwhole, hrules'.trans hrules, himports'.trans himports⟩

end Grouping

end Stylebook.Css
