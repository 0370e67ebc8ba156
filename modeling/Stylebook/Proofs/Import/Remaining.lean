import Stylebook.Proofs.Css.AtKeyword
import Stylebook.Proofs.Import.Expansion

/-!
# Imports that are left

An import has two readers. The parser reports its target, in whatever
spelling, and what it reports is looked up. The text that is to be replaced
is then found by its characters, and in one spelling only. Where both agree,
no import is left in what inlining gives: that is so for stylesheets with
their imports at the head whose bodies are importless
(`importTargets_inlineImports`). Where they do not agree, the file is read,
the text stays as it was, and the import is reported for it again
(`leavesImport_spellings`).
-/

namespace Stylebook

open Import

namespace SheetMemory

variable {l : SheetMemory}

/-- Sealed and importless texts in a row are importless. -/
theorem importless_flatten {parts : List (List Char)}
    (h : ∀ part ∈ parts, Sealed part ∧ Css.Importless part) : Css.Importless parts.flatten := by
  induction parts with
  | nil => exact Css.Importless.nil
  | cons part parts ih =>
    rw [List.forall_mem_cons] at h
    exact h.1.2.append (ih h.2) h.1.1.closed

/-- **What is expanded has no import in it**, when no body has one. -/
theorem importless_expand (hbare : ∀ e ∈ l.sheets, Css.Importless e.2.body) (E : List String)
    (origin : Path) (h : Headed) (hbody : Css.Importless h.body) :
    Css.Importless (l.expand E origin h) := by
  induction E, origin, h using l.expandInduction with
  | step E origin h ih =>
    have hparts : ∀ part ∈ (h.targets.filter fun t => t ∉ E).map (l.expandAt E origin),
        Sealed part ∧ Css.Importless part := by
      intro part hpart
      obtain ⟨t, ht, rfl⟩ := List.mem_map.mp hpart
      obtain ⟨htargets, hnot⟩ := List.mem_filter.mp ht
      refine ⟨l.sealed_expandAt E origin t, ?_⟩
      rw [expandAt]
      cases hsheet : l.sheet? (importPath origin t) with
      | none => exact Css.Importless.nil
      | some h' =>
        obtain ⟨e, he, rfl⟩ := exists_mem_of_sheet? hsheet
        exact ih t htargets (by simpa using hnot) _ hsheet (hbare e he)
    rw [expand_eq, List.flatMap_def]
    exact (importless_flatten hparts).append hbody
      (Sealed.flatten fun part hpart => (hparts part hpart).1).closed

/-- What stands in the place of a target is a part of the whole. -/
theorem expandAt_isInfix (origin : Path) {h : Headed} {t : String} (ht : t ∈ h.targets) :
    l.expandAt [] origin t <:+: l.expand [] origin h := by
  rw [expand_eq, List.flatMap_def]
  have hmem : l.expandAt [] origin t
      ∈ (h.targets.filter fun t => t ∉ ([] : List String)).map (l.expandAt [] origin) :=
    List.mem_map_of_mem (List.mem_filter.mpr ⟨ht, by simp⟩)
  exact (List.infix_of_mem_flatten hmem).trans (List.prefix_append _ _).isInfix

/-- A target is looked up. -/
theorem importPath_mem_visits (origin : Path) {h : Headed} {t : String} (ht : t ∈ h.targets) :
    importPath origin t ∈ l.visits [] origin h := by
  rw [visits_eq, List.mem_flatMap]
  refine ⟨t, List.mem_eraseDups.mpr (List.mem_filter.mpr ⟨ht, by simp⟩), ?_⟩
  rw [visitsAt]
  exact List.mem_cons_self

end SheetMemory

/-- **No import is left where each is written as a statement at the head**:
the parser reports none in what inlining gives. Each one that it reports for
the source has its file, and what this file expands to is a part of the
result.

What inlining gives for such a source is the bodies of stylesheets one
behind the other (`inlineImports_eq_report`). No body has an import, and
that no import comes from two of them together is what being importless says
of a text. -/
theorem importTargets_inlineImports {l : SheetMemory} (hclear : ∀ e ∈ l.sheets, e.2.IsClear)
    (hbare : ∀ e ∈ l.sheets, Css.Importless e.2.body) {origin : Path} {h : Headed}
    (hsource : h.IsClear) (hbody : Css.Importless h.body) {text : String}
    (hresult : inlineImports l.toMemory origin h.source = .ok text) :
    (Css.Stylesheet.ofText text).importTargets = []
      ∧ ∀ t ∈ importTargets h.source, ∃ h', l.sheet? (importPath origin t) = some h'
        ∧ l.expand [t] (importPath origin t) h' <:+: text.toList := by
  obtain ⟨bound, hbound⟩ := SheetMemory.exists_result_eq hclear [] origin h (by simp) hsource
  have hends : ¬Endless (Call.result l.toMemory bound ⟨[], origin, h.source⟩) := by
    rw [hbound]
    exact SheetMemory.not_endless_report _ _
  rw [Call.inlineImports_eq_of_result rfl hends, hbound, SheetMemory.report_eq_ok] at hresult
  obtain ⟨hread, rfl⟩ := hresult
  refine ⟨Css.importTargets_of_importless ?_, fun t ht => ?_⟩
  · rw [String.toList_ofList]
    exact SheetMemory.importless_expand hbare [] origin h hbody
  · rw [Headed.importTargets_source hsource] at ht
    obtain ⟨h', hsheet⟩ := hread _ (SheetMemory.importPath_mem_visits origin ht)
    have hpart := SheetMemory.expandAt_isInfix (l := l) origin ht
    rw [SheetMemory.expandAt, hsheet] at hpart
    rw [String.toList_ofList]
    exact ⟨h', hsheet, hpart⟩

/-- Of the two files that import each other, one with its imports inlined. -/
theorem importTargets_inlineImports_of_cycle :
    (Css.Stylesheet.ofText ".x{}.y{}.x{}").importTargets = []
      ∧ ∀ t ∈ importTargets (sheetX ["b.css"] (by decide)).source,
        ∃ h', cyclicSheets.sheet? (importPath ⟨"/p/a.css"⟩ t) = some h'
          ∧ cyclicSheets.expand [t] (importPath ⟨"/p/a.css"⟩ t) h' <:+: ".x{}.y{}.x{}".toList :=
  importTargets_inlineImports isClear_cyclicSheets (by decide) (Headed.isClear_usual (by decide))
    (by decide) (by decide +kernel)

/-! ## Other spellings

Here the two readers part. The parser goes by the grammar, which lets a
statement be written in many ways; the replacement goes by the letters of
one of them. -/

/-- **Inlining leaves an import**: the parser reports its target for the
source, and inlining succeeds, but the parser reports the target for the
result again. -/
def LeavesImport (m : Memory) (origin : Path) (source target : String) : Prop :=
  target ∈ importTargets source ∧ ∃ text, inlineImports m origin source = .ok text
    ∧ target ∈ (Css.Stylesheet.ofText text).importTargets

/-- A text that stays as it is keeps its imports. -/
theorem leavesImport_of_unchanged {m : Memory} {origin : Path} {source target : String}
    (htarget : target ∈ importTargets source)
    (hresult : inlineImports m origin source = .ok source) :
    LeavesImport m origin source target := by
  refine ⟨htarget, source, hresult, ?_⟩
  rw [importTargets] at htarget
  split at htarget
  · exact htarget
  · cases htarget

/-- A file with a rule. -/
def ruleFile : Memory := .ofList [(⟨"/p/b.css"⟩, ".b{}")]

/-- **An import that is not written as a statement stays.** The parser takes
all of these for imports of the file: without a semicolon at the end of the
text, with a comment or nothing in front of the quote, with an escape in the
target, and with a condition behind it. -/
theorem leavesImport_spellings :
    LeavesImport ruleFile ⟨"/p/a.css"⟩ "@import \"b.css\"" "b.css"
      ∧ LeavesImport ruleFile ⟨"/p/a.css"⟩ "@import/**/\"b.css\";" "b.css"
      ∧ LeavesImport ruleFile ⟨"/p/a.css"⟩ "@import\"b.css\";" "b.css"
      ∧ LeavesImport ruleFile ⟨"/p/a.css"⟩ "@import \"b\\.css\";" "b.css"
      ∧ LeavesImport ruleFile ⟨"/p/a.css"⟩ "@import \"b.css\" screen;" "b.css" :=
  ⟨leavesImport_of_unchanged (by decide +kernel) (by decide +kernel),
    leavesImport_of_unchanged (by decide +kernel) (by decide +kernel),
    leavesImport_of_unchanged (by decide +kernel) (by decide +kernel),
    leavesImport_of_unchanged (by decide +kernel) (by decide +kernel),
    leavesImport_of_unchanged (by decide +kernel) (by decide +kernel)⟩

end Stylebook
