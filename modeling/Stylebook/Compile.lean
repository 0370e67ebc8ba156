import Stylebook.Import.Inline
import Stylebook.Style.Transform

/-!
# Compiling a stylesheet

A stylesheet is compiled by inlining its imports, reading its rules and
writing the properties of each rule under each of its selectors. The table
of a selector comes in when the first rule names it. A rule that has no
meaning writes nothing and leaves a diagnostic for each of its selectors.
-/

namespace Stylebook

open Style (Properties)

/-- **A rule that has no meaning to the framework**, for one of its
selectors. -/
structure Diagnostic where
  path : Path
  selector : String
  message : String
  deriving DecidableEq, Repr

/-- Properties by canonical selector, in the order of first appearance. -/
abbrev StyleMap := Table Properties

/-- **What compiling a stylesheet gives.** The imports are the targets of
its own statements, as written. -/
structure CompiledStylesheet where
  styles : StyleMap
  imports : List String
  diagnostics : List Diagnostic
  deriving Repr

namespace Compile

/-- The properties of a rule: its declarations in plain form, transformed. A
font weight is a text in any case. -/
def ruleProperties (defaultUnit : String) (rule : Css.StyleRule) :
    Except Style.TransformError Properties := do
  let plain := rule.declarations.filterMap (Style.PlainDeclaration.ofDeclaration? defaultUnit)
  let properties ← Style.transform defaultUnit plain
  return match properties.get? "fontWeight" with
    | some weight => properties.insert "fontWeight" weight.asText
    | none => properties

/-- Gives each selector a table, if it has none. -/
def declare (styles : StyleMap) (selectors : List String) : StyleMap :=
  selectors.foldl (fun m s => m.insertNew s ∅) styles

/-- Writes properties over those of each selector. -/
def merge (styles : StyleMap) (selectors : List String) (properties : Properties) : StyleMap :=
  selectors.foldl
    (fun m s => m.insert s (((m.get? s).getD ∅).insertAll properties.entries)) styles

/-- **Compiles one rule** into what was compiled before. -/
def addRule (path : Path) (defaultUnit : String) (compiled : CompiledStylesheet)
    (rule : Css.StyleRule) : CompiledStylesheet :=
  let selectors := Css.Selector.canonicalTexts rule.selectors
  if selectors.isEmpty then compiled
  else
    let styles := declare compiled.styles selectors
    match ruleProperties defaultUnit rule with
    | .ok properties => { compiled with styles := merge styles selectors properties }
    | .error e =>
      { compiled with
        styles := styles
        diagnostics :=
          compiled.diagnostics ++ selectors.map fun s => ⟨path, s, e.message⟩ }

/-- Compiles rules in document order. -/
def rules (path : Path) (defaultUnit : String) (imports : List String)
    (rules : List Css.StyleRule) : CompiledStylesheet :=
  rules.foldl (addRule path defaultUnit) ⟨∅, imports, []⟩

end Compile

variable {σ : Type} [FileStore σ]

/-- **Compiles the text of a stylesheet** that stands at `path`. -/
def compileSource (store : σ) (defaultUnit : String) (path : Path) (source : String) :
    Except Stop CompiledStylesheet := do
  let inlined ← inlineImports store path source
  return Compile.rules path defaultUnit (importTargets source) (Css.Stylesheet.ofText inlined).rules

/-- **Reads a stylesheet and compiles it.** -/
def compileFile (store : σ) (defaultUnit : String) (path : Path) :
    Except Stop CompiledStylesheet := do
  compileSource store defaultUnit path (← FileStore.fetch store path)

end Stylebook
