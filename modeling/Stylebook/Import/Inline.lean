import Stylebook.Import.Statement
import Stylebook.Css.Stylesheet
import Stylebook.Store.Basic

/-!
# Inlining imports

`inlineImports` replaces the import statements of a stylesheet by the texts
that they name, and so on inside those. What keeps a cycle from going on
forever is the list of *enclosing* targets: inside the text that a statement
brings in, every statement of an enclosing target is taken out before
anything is looked up. A reference back to an enclosing file is thereby
dropped. Two spellings of one path are two targets.

Not every cycle is dropped. A statement may name its target without being of
the form that is taken out, as one without a semicolon is. It is then found
again inside of the text that it brings in, and inlining has no end: the
program goes deeper and deeper, and crashes.

Whether it does can be told in advance. Below a statement, what a file
contributes is its text without the statements of the enclosing targets. A
further target either takes something out of some file or leaves all of them
as they are. If one file is met twice with nothing taken out of any file in
between, it is met again and again. A nesting deeper than `FileStore.extent`
contains such a repetition, so this is the depth at which the definitions
here stop to look and say that there is no end.
-/

namespace Stylebook

/-- **The import targets that a stylesheet names**, as written, in document
order. -/
def importTargets (source : String) : List String :=
  if Text.hasInfix Import.keyword source.toList then
    (Css.Stylesheet.ofText source).importTargets
  else []

/-- **The path of an import target**, seen from the directory of the
importing file. -/
def importPath (importer : Path) (target : String) : Path :=
  ((importer.parent?.getD ⟨""⟩).join ⟨target⟩).normalize

namespace Import

/-- A text without the statements of the targets, one target after the
other. -/
def stripAll (targets : List String) (text : List Char) : List Char :=
  targets.foldl (fun t target => strip target.toList t) text

variable {σ : Type} [FileStore σ]

/-- Inlines the imports of a text inside of the statements of the enclosing
targets, with at most `depth` further statements inside of each other. Where
more are asked for, they are taken to have no end, which is right for every
depth from `FileStore.extent` on. -/
def inlineBelow (store : σ) : (depth : Nat) → List String → Path → String → Except Stop String
  | depth, enclosing, origin, source =>
    let text := stripAll enclosing source.toList
    if !Text.hasInfix keyword text then .ok (String.ofList text)
    else
      match depth with
      | 0 => .error (.crashed .endlessImports)
      | depth + 1 => do
        let targets := (importTargets (String.ofList text)).eraseDups
        let inlined ← targets.foldlM (fun text target => do
          let path := importPath origin target
          let imported ← FileStore.fetch store path
          let inner ← inlineBelow store depth (enclosing ++ [target]) path imported
          return replaceAll target.toList inner.toList text) text
        return String.ofList inlined

end Import

/-- **The text of a stylesheet with its imports inlined**, for a stylesheet
at `origin`. The first import that cannot be read is the failure of all.
Imports without an end that come before it are a crash instead. -/
def inlineImports {σ : Type} [FileStore σ] (store : σ) (origin : Path) (source : String) :
    Except Stop String :=
  Import.inlineBelow store (FileStore.extent store + 1) [] origin source

end Stylebook
