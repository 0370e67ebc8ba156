import Stylebook.Css.Value
import Stylebook.Css.Selector

/-!
# Stylesheets

A stylesheet is a list of nodes: style rules and at-rules. Reading one never
fails. What is malformed is left out, up to the semicolon or the block that
ends it, and the rest of the sheet is kept.

* A style rule is a prelude up to the first block in curly brackets, with
  that block. One that starts as the declaration of a custom property does
  is malformed.
* An at-rule is a name, a prelude up to the first semicolon or block in
  curly brackets, and the block. Only the blocks of *grouping* at-rules hold
  rules.
* A declaration is a name, a colon and a value up to the next semicolon.
-/

namespace Stylebook.Css

/-- **A declaration**: a property in small letters and its value,
`!important` left out. -/
structure Declaration where
  property : String
  value : List Value
  deriving DecidableEq, Repr

/-- **A style rule**: a selector list and a block of declarations. -/
structure StyleRule where
  selectors : List Selector
  declarations : List Declaration
  deriving DecidableEq, Repr

/-- **A node of a stylesheet.** The name of an at-rule is in small letters;
only a grouping at-rule with a block has nodes of its own. -/
inductive Node where
  | style (rule : StyleRule)
  | atRule (name : String) (prelude : List Value) (block : Option (List Node))
  deriving Repr

/-- The at-rules whose block holds rules. -/
def groupingNames : List String := ["media", "supports", "layer", "document"]

mutual
/-- The size of one component: itself and what stands inside of it. -/
def Component.weightOne : Component → Nat
  | .leaf _ => 1
  | .block _ body _ => Component.weight body + 1

/-- **The size of a list of components**: every component counts, at every
depth. -/
def Component.weight : List Component → Nat
  | [] => 0
  | c :: cs => Component.weightOne c + Component.weight cs
end

/-- What is left of a list of components when a front is left out is no
heavier. -/
theorem Component.weight_le_of_dropWhile {p : Component → Bool} {cs rest : List Component}
    (h : cs.dropWhile p = rest) : weight rest ≤ weight cs := by
  subst h
  induction cs with
  | nil => simp
  | cons c cs ih =>
    by_cases h : p c
    · have h1 : weight cs ≤ weight (c :: cs) := by simp only [weight]; omega
      simp only [h, List.dropWhile_cons_of_pos]
      omega
    · simp [h]

/-- The components after one are lighter than with it. -/
theorem Component.weight_lt_weight_cons (c : Component) (cs : List Component) :
    weight cs < weight (c :: cs) := by
  cases c <;> simp only [weight, weightOne] <;> omega

/-- What is left of a list when a front is left out is no longer. -/
theorem Component.length_dropWhile_le (p : Component → Bool) (cs : List Component) :
    (cs.dropWhile p).length ≤ cs.length :=
  (List.dropWhile_sublist p).length_le

namespace Declaration

/-- A declaration of a property whose name is followed by `cs`, if a colon
comes first. -/
def ofRest? (property : String) (cs : List Component) : Option Declaration :=
  match cs.dropWhile Component.isGap with
  | .leaf l :: value =>
    if l.token = .colon then
      some ⟨Text.lower property, Value.dropImportant (Value.ofComponents [] value)⟩
    else none
  | _ => none

/-- **The declarations of a block.** What is no declaration is left out up
to the next semicolon; an at-rule also ends with its block. -/
def ofBody : List Component → List Declaration
  | [] => []
  | c :: cs =>
    if c.isGap || c.isSemicolon then ofBody cs
    else
      match c.token with
      | .atKeyword _ => ofBody ((cs.dropWhile fun d => !d.isSemicolon && !d.isCurly).drop 1)
      | .ident property =>
        let rest := ofBody ((cs.dropWhile fun d => !d.isSemicolon).drop 1)
        match ofRest? property (cs.takeWhile fun d => !d.isSemicolon) with
        | some d => d :: rest
        | none => rest
      | _ => ofBody (((c :: cs).dropWhile fun d => !d.isSemicolon).drop 1)
termination_by cs => cs.length
decreasing_by
  · simp
  · have h := Component.length_dropWhile_le (fun d => !d.isSemicolon && !d.isCurly) cs
    simp only [List.length_cons, List.length_drop]
    omega
  · have h := Component.length_dropWhile_le (fun d => !d.isSemicolon) cs
    simp only [List.length_cons, List.length_drop]
    omega
  · have h := Component.length_dropWhile_le (fun d => !d.isSemicolon) (c :: cs)
    simp only [List.length_cons] at h
    simp only [List.length_cons, List.length_drop]
    omega

end Declaration

namespace Node

/-- What may stand between rules. -/
def isBetweenRules (c : Component) : Bool := c.isGap || c.token = .embedMark

/-- What ends the prelude of an at-rule. -/
def endsAtPrelude (c : Component) : Bool := c.isSemicolon || c.isCurly

/-- Whether a prelude starts as the declaration of a custom property does:
with a name that has two hyphens in front, and a colon. -/
def namesCustomProperty (prelude : List Component) : Bool :=
  match prelude.dropWhile Component.isGap with
  | c :: rest =>
    match c.token, rest.dropWhile Component.isGap with
    | .ident name, d :: _ => name.toList.take 2 = ['-', '-'] && d.token = .colon
    | _, _ => false
  | [] => false

/-- **The nodes of a list of components.** `first` says that no rule came
before: a `@charset` there is skipped. -/
def ofComponents (first : Bool) (cs : List Component) : List Node :=
  match _hcs : cs.dropWhile isBetweenRules with
  | [] => []
  | c :: rest =>
    match c.token with
    | .atKeyword keyword =>
      let prelude := rest.takeWhile (!endsAtPrelude ·)
      let name := Text.lower keyword
      let skipped := first && name = "charset"
      match _hrest : rest.dropWhile (!endsAtPrelude ·) with
      | [] => if skipped then [] else [.atRule name (Value.ofComponents [] prelude) none]
      | .leaf _ :: after =>
        if skipped then ofComponents false after
        else .atRule name (Value.ofComponents [] prelude) none :: ofComponents false after
      | .block _ body _ :: after =>
        if skipped then ofComponents false after
        else
          let block :=
            if groupingNames.contains name then some (ofComponents true body) else none
          .atRule name (Value.ofComponents [] prelude) block :: ofComponents false after
    | _ =>
      let prelude := (c :: rest).takeWhile (!Component.isCurly ·)
      match _hrest : (c :: rest).dropWhile (!Component.isCurly ·) with
      | .block _ body _ :: after =>
        if namesCustomProperty prelude then ofComponents false after
        else
          .style ⟨Selector.ofPrelude prelude, Declaration.ofBody body⟩ :: ofComponents false after
      | _ => []
termination_by Component.weight cs
decreasing_by
  all_goals
    have outer := Component.weight_le_of_dropWhile _hcs
    have tail := Component.weight_lt_weight_cons c rest
    have inner := Component.weight_le_of_dropWhile _hrest
    simp only [Component.weight, Component.weightOne] at outer tail inner
    omega

mutual
/-- The style rules of one node. -/
def rulesOf : Node → List StyleRule
  | .style r => [r]
  | .atRule _ _ block => rulesInside block

/-- The style rules in the block of an at-rule, if it holds rules. -/
def rulesInside : Option (List Node) → List StyleRule
  | none => []
  | some ns => rules ns

/-- **The style rules below a list of nodes**, in document order. -/
def rules : List Node → List StyleRule
  | [] => []
  | n :: ns => rulesOf n ++ rules ns
end

/-- The target of an import: a string right at the start of the prelude of
`@import`. An address in `url(…)` is no such target. -/
def importTarget? (name : String) (prelude : List Value) : Option String :=
  if name = "import" then
    match prelude.dropWhile Value.isBlank with
    | .str target :: _ => some target
    | _ => none
  else none

mutual
/-- The import targets of one node: its own and those inside of it. -/
def targetsOf : Node → List String
  | .style _ => []
  | .atRule name prelude block => (importTarget? name prelude).toList ++ targetsInside block

/-- The import targets in the block of an at-rule, if it holds rules. -/
def targetsInside : Option (List Node) → List String
  | none => []
  | some ns => importTargets ns

/-- **The import targets below a list of nodes**, in document order. -/
def importTargets : List Node → List String
  | [] => []
  | n :: ns => targetsOf n ++ importTargets ns
end

end Node

/-- **A stylesheet**: its nodes in document order. -/
structure Stylesheet where
  nodes : List Node
  deriving Repr

namespace Stylesheet

/-- The stylesheet that a text stands for. -/
def ofText (text : String) : Stylesheet :=
  ⟨Node.ofComponents true (Component.ofText text.toList)⟩

/-- All style rules in document order, those inside of grouping at-rules
too. -/
def rules (s : Stylesheet) : List StyleRule := Node.rules s.nodes

/-- The quoted targets of all imports in document order. -/
def importTargets (s : Stylesheet) : List String := Node.importTargets s.nodes

end Stylesheet

end Stylebook.Css
