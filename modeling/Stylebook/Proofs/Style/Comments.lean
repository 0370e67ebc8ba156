import Stylebook.Compile
import Stylebook.Proofs.Css.Comment
import Stylebook.Store.Memory

/-!
# Comments and what is compiled

A comment between two tokens in the declarations of a style rule does not
change what a stylesheet is compiled to, when no number comes next
(`compileSource_eq_of_comment`). A number is compiled as it is written, and
to the program it is written with the comments in front of it
(`compileSource_ne_of_comment`).
-/

namespace Stylebook

open Css

namespace Style.PlainDeclaration

mutual
/-- Function arguments do not ask for the text of a token without a kind. -/
theorem argumentText_erase (unit : String) :
    ∀ v : Value, argumentText unit v.erase = argumentText unit v
  | .function n args => by
    rw [Value.erase, argumentText, argumentText, functionText, functionText,
      argumentsText_eraseAll unit args]
  | .other _ => by rw [Value.erase, argumentText, argumentText]
  | .ident _ | .dimension _ _ | .number _ | .percentage _ | .hash _ | .str _ | .url _
  | .operator _ | .blank => by simp only [Value.erase]

/-- Comments do not show in the texts of several arguments. -/
theorem argumentsText_eraseAll (unit : String) :
    ∀ vs : List Value, argumentsText unit (Value.eraseAll vs) = argumentsText unit vs
  | [] => rfl
  | v :: vs => by
    rw [Value.eraseAll, argumentsText, argumentsText, argumentText_erase unit v,
      argumentsText_eraseAll unit vs]
end

/-- Comments do not show in the text of a value. -/
theorem elementText?_erase (unit : String) (v : Value) :
    elementText? unit v.erase = elementText? unit v := by
  cases v with
  | function n args =>
    rw [Value.erase, elementText?, elementText?, functionText, functionText,
      argumentsText_eraseAll]
  | _ => rfl

/-- **A plain declaration has no text of a token without a kind.** -/
theorem ofDeclaration?_erase (unit : String) (d : Declaration) :
    ofDeclaration? unit d.erase = ofDeclaration? unit d := by
  have htexts : d.erase.value.filterMap (elementText? unit)
      = d.value.filterMap (elementText? unit) := by
    rw [Declaration.erase, Value.eraseAll_eq_map, List.filterMap_map]
    exact congrArg (List.filterMap · d.value) (funext fun v => elementText?_erase unit v)
  rw [ofDeclaration?, ofDeclaration?, htexts]
  rfl

end Style.PlainDeclaration

namespace Compile

/-- So the properties of a rule have none either. -/
theorem ruleProperties_erase (unit : String) (r : StyleRule) :
    ruleProperties unit r.erase = ruleProperties unit r := by
  have hplain : r.erase.declarations.filterMap (Style.PlainDeclaration.ofDeclaration? unit)
      = r.declarations.filterMap (Style.PlainDeclaration.ofDeclaration? unit) := by
    rw [StyleRule.erase, List.filterMap_map]
    exact congrArg (List.filterMap · r.declarations)
      (funext fun d => Style.PlainDeclaration.ofDeclaration?_erase unit d)
  rw [ruleProperties, ruleProperties, hplain]

/-- **Rules are compiled without the texts of tokens without a kind.** -/
theorem rules_map_erase (path : Path) (unit : String) (imports : List String)
    (rs : List StyleRule) : rules path unit imports (rs.map StyleRule.erase)
      = rules path unit imports rs := by
  have hadd : ∀ (compiled : CompiledStylesheet) (r : StyleRule),
      addRule path unit compiled r.erase = addRule path unit compiled r := by
    intro compiled r
    rw [addRule, addRule, ruleProperties_erase]
    rfl
  rw [rules, rules, List.foldl_map]
  exact congrArg (List.foldl · _ rs) (funext fun compiled => funext fun r => hadd compiled r)

end Compile

variable {σ : Type} [FileStore σ] {source source' unit : String} {path : Path}

/-- A text without imports is compiled as it stands. -/
theorem compileSource_of_importTargets (store : σ) (unit : String) (path : Path)
    (h : (Stylesheet.ofText source).importTargets = []) : compileSource store unit path source
      = .ok (Compile.rules path unit [] (Stylesheet.ofText source).rules) := by
  have himports : importTargets source = [] := by
    rw [importTargets, h]
    exact ite_self []
  have hinline : inlineImports store path source = .ok source := by
    unfold inlineImports Import.inlineBelow
    dsimp only [Import.stripAll, List.foldl_nil]
    simp only [String.ofList_toList, himports, List.eraseDups_nil, List.foldlM_nil]
    split
    · rfl
    · exact congrArg Except.ok String.ofList_toList
  rw [compileSource, hinline, himports]
  rfl

/-- Sheets that agree are compiled to the same: the texts in which their
values differ are those of tokens without a kind, and no property is made of
them. -/
theorem compileSource_of_agree
    (h : Node.Agree (Component.ofText source.toList) (Component.ofText source'.toList))
    (himports : (Stylesheet.ofText source).importTargets = []) (store : σ) (unit : String)
    (path : Path) :
    compileSource store unit path source' = compileSource store unit path source := by
  have himports' : (Stylesheet.ofText source').importTargets = [] :=
    h.importTargets.symm.trans himports
  rw [compileSource_of_importTargets store unit path himports,
    compileSource_of_importTargets store unit path himports',
    ← Compile.rules_map_erase, ← Compile.rules_map_erase path unit [] (Stylesheet.rules _)]
  exact congrArg (fun rs => Except.ok (Compile.rules path unit [] rs)) h.rules.symm

/-- **A comment in declarations is compiled to nothing**, unless a number
comes next. Two texts have the same lexemes but for a comment; it stands in
the block of a style rule or of an at-rule that is ignored, at the top or in
the arguments of functions, and what comes next, behind further comments, is
no number. A text without imports is then compiled to the same styles and
diagnostics.

The trees differ by one more component in one list, and every reader of such
a list passes comments or drops them. The exception is that of a number: its
text is cut out of the source, from where the reader began to look for it,
and that is in front of the comments. -/
theorem compileSource_eq_of_comment {ls rs : List Lexeme} {c : Lexeme}
    (hsource : lex source.toList = ls ++ rs) (hsource' : lex source'.toList = ls ++ c :: rs)
    (hc : c.token = .comment) (hplace : InDeclarations (Component.openAfter ls))
    (hnext : ∀ l ∈ (rs.dropWhile fun l => l.token = .comment).head?, l.token.isNumeric = false)
    (himports : (Stylesheet.ofText source).importTargets = []) (store : σ) (unit : String)
    (path : Path) : compileSource store unit path source' = compileSource store unit path source := by
  have hagree : Node.Agree (Component.ofText source.toList) (Component.ofText source'.toList) := by
    rw [Component.ofText, Component.ofText, hsource, hsource']
    exact agree_of_comment hc hplace hnext
  exact compileSource_of_agree hagree himports store unit path

/-! ### Inside an argument

A place deep in a stylesheet: a function in a declaration, in a rule, in a
group. -/

/-- The lexemes of a text that ends in an argument: `@media
x{.a{color:rgb(1`. -/
def argumentOpening : List Lexeme :=
  [⟨.atKeyword "media", ['@', 'm', 'e', 'd', 'i', 'a']⟩, ⟨.blank, [' ']⟩, ⟨.ident "x", ['x']⟩,
    ⟨.opening .curly, ['\x7b']⟩, ⟨.delim '.', ['.']⟩, ⟨.ident "a", ['a']⟩,
    ⟨.opening .curly, ['\x7b']⟩, ⟨.ident "color", ['c', 'o', 'l', 'o', 'r']⟩, ⟨.colon, [':']⟩,
    ⟨.function "rgb", ['r', 'g', 'b', '(']⟩, ⟨.number, ['1']⟩]

/-- The lexemes that close it: `)}}`. -/
def argumentClosing : List Lexeme :=
  [⟨.closing .paren, [')']⟩, ⟨.closing .curly, ['\x7d']⟩, ⟨.closing .curly, ['\x7d']⟩]

/-- The function stands in a style rule, and the rule in a group. -/
theorem inDeclarations_argumentOpening : InDeclarations (Component.openAfter argumentOpening) := by
  refine Or.inl ⟨⟨"rgb", rfl⟩, Or.inr ⟨Or.inl ?style, List.forall_mem_singleton.mpr ?group⟩⟩
  case style =>
    refine ⟨[⟨[.cls "a"]⟩], [], fun body closer after => ?_⟩
    rw [Node.ofComponents]
    rfl
  case group =>
    refine ⟨"media", [.blank, .ident "x"], [], fun body closer after => ?_⟩
    rw [Node.ofComponents]
    rfl

/-- A comment behind the argument of a function, in a rule of a group. -/
theorem compileSource_eq_of_comment_of_argument :
    compileSource (⟨[], [], [], []⟩ : Memory) "px" ⟨"/p/a.css"⟩
        "@media x\x7b.a\x7bcolor:rgb(1/**/)\x7d\x7d"
      = compileSource (⟨[], [], [], []⟩ : Memory) "px" ⟨"/p/a.css"⟩
        "@media x\x7b.a\x7bcolor:rgb(1)\x7d\x7d" := by
  have hsource : lex "@media x\x7b.a\x7bcolor:rgb(1)\x7d\x7d".toList
      = argumentOpening ++ argumentClosing := by decide +kernel
  have hsource' : lex "@media x\x7b.a\x7bcolor:rgb(1/**/)\x7d\x7d".toList
      = argumentOpening ++ ⟨.comment, ['/', '*', '*', '/']⟩ :: argumentClosing := by
    decide +kernel
  exact compileSource_eq_of_comment hsource hsource' rfl inDeclarations_argumentOpening (by decide)
    (by decide +kernel) _ _ _

/-! ### In any block -/

/-- **The comment may stand in any block in curly brackets**, in the
arguments of functions or not, as long as grouping rules are around the
block and it is not that of a grouping rule itself. What the block is need
not be known: if it has no declarations, it is ignored. -/
theorem compileSource_of_comment_in_curly {ls rs : List Lexeme} {c : Lexeme}
    {fs outer : List Component.Open} {o : Component.Open}
    (hsource : lex source.toList = ls ++ rs) (hsource' : lex source'.toList = ls ++ c :: rs)
    (hc : c.token = .comment) (hopen : Component.openAfter ls = fs ++ o :: outer)
    (hfs : ∀ f ∈ fs, ∃ name, f.opener.token = .function name)
    (hcurly : o.opener.token = .opening .curly) (hnot : ¬o.IsGroup)
    (houter : ∀ g ∈ outer, g.IsGroup)
    (hnext : ∀ l ∈ (rs.dropWhile fun l => l.token = .comment).head?, l.token.isNumeric = false)
    (himports : (Stylesheet.ofText source).importTargets = []) (store : σ) (unit : String)
    (path : Path) :
    compileSource store unit path source' = compileSource store unit path source := by
  have hplace : InDeclarations (Component.openAfter ls) :=
    hopen ▸ inDeclarations_of_curly hfs hcurly hnot houter
  have hagree : Node.Agree (Component.ofText source.toList) (Component.ofText source'.toList) := by
    rw [Component.ofText, Component.ofText, hsource, hsource']
    exact agree_of_comment hc hplace hnext
  exact compileSource_of_agree hagree himports store unit path

/-! ### In front of a number

The text of a number is cut from the source where the value before it ended.
With a comment in between the comment is part of it, so the number is not
read as one any more, or it is written with the comment. -/

/-- The styles and the diagnostics of a text that stands alone. -/
def alone (source : String) : Option (StyleMap × List Diagnostic) :=
  (compileSource ({} : Memory) "px" ⟨"/p/a.css"⟩ source).toOption.map
    fun compiled => (compiled.styles, compiled.diagnostics)

/-- **A comment in front of a number is compiled into it.** The second text
of each pair has one comment more, in front of a number or a percentage, and
is compiled to something else: a margin with such a comment is not parsed
any more. -/
theorem compileSource_ne_of_comment :
    (∀ p ∈ [(".a\x7bmargin:1 2\x7d", ".a\x7bmargin:1 /**/2\x7d"),
        (".a\x7bwidth:5%\x7d", ".a\x7bwidth:/**/5%\x7d")],
      (lex p.2.toList).filter (fun l => l.token ≠ .comment) = lex p.1.toList
        ∧ ((lex p.2.toList).filter fun l => l.token = .comment).length = 1
        ∧ (alone p.1).isSome ∧ (alone p.2).isSome ∧ alone p.1 ≠ alone p.2)
      ∧ (alone ".a\x7bmargin:1 2\x7d").map Prod.snd = some []
      ∧ (alone ".a\x7bmargin:1 /**/2\x7d").map Prod.snd
        = some [⟨⟨"/p/a.css"⟩, ".a", "failed to parse declaration \"margin: 1 /**/2\""⟩] := by
  decide +kernel

end Stylebook
