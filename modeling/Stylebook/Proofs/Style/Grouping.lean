import Stylebook.Proofs.Css.Grouping
import Stylebook.Proofs.Style.Comments

/-!
# Grouping rules and what is compiled

Grouping at-rules are transparent: a whole text in the blocks of grouping
rules, one in another and in any number, has the rules that it has alone,
and without imports it is compiled to the same styles and diagnostics
(`rules_wrapAll`). Where the text stands makes no difference to what is
malformed in it either: what is left out alone is left out in a block.
-/

namespace Stylebook

open Css

/-- **Grouping rules are transparent.** A text in which everything is closed
and properly nested has the same rules in the blocks of any grouping rules
as alone, in the same order; and if it has no imports, it is compiled to the
same.

That the text is closed says that its last token ends where it ends, so the
bracket behind it is read as a bracket; that it is nested, that this bracket
closes the block of the grouping rule and no other one. The block is then
read as the sheet is. -/
theorem rules_wrapAll (gs : List Grouping) {text : String} (h : IsWhole text.toList) :
    (Stylesheet.ofText (Grouping.wrapAll gs text)).rules = (Stylesheet.ofText text).rules
      ∧ ((Stylesheet.ofText text).importTargets = [] →
        ∀ {σ : Type} [FileStore σ] (store : σ) (unit : String) (path : Path),
          compileSource store unit path (Grouping.wrapAll gs text)
            = compileSource store unit path text) := by
  obtain ⟨-, hrules, himports⟩ := Grouping.sameContent_wrapAll gs h
  have hrules : (Stylesheet.ofText (Grouping.wrapAll gs text)).rules
      = (Stylesheet.ofText text).rules := hrules
  refine ⟨hrules, fun hfree σ _ store unit path => ?_⟩
  have hfree' : (Stylesheet.ofText (Grouping.wrapAll gs text)).importTargets = [] :=
    himports.trans hfree
  rw [compileSource_of_importTargets store unit path hfree,
    compileSource_of_importTargets store unit path hfree', hrules]

/-- A text with brackets in a string and in a comment, a group of its own,
and a rule without a block. -/
def cards : String := ".a\x7bcontent: \"\x7d\"; color: rgb(1, 2, 3)\x7d /* \x7d */ "
  ++ "@supports (gap: 1px)\x7b.b\x7bbackground: url(i.png)\x7d\x7d .c"

/-- The rules around it. -/
def cardGroups : List Grouping :=
  [.ofPrelude "media" "screen and (min-width: 10px)" (by decide) (by decide +kernel) (by decide)
      (by decide),
    .ofPrelude "layer" "base" (by decide) (by decide +kernel) (by decide) (by decide)]

/-- A text in the block of a rule in the block of another one. -/
theorem rules_wrapAll_of_cards :
    (Stylesheet.ofText ("@media screen and (min-width: 10px) \x7b @layer base \x7b " ++ cards
        ++ " \x7d \x7d")).rules = (Stylesheet.ofText cards).rules
      ∧ ((Stylesheet.ofText cards).rules.map StyleRule.selectors).length = 2
      ∧ compileSource ({} : Memory) "px" ⟨"/p/a.css"⟩
          ("@media screen and (min-width: 10px) \x7b @layer base \x7b " ++ cards ++ " \x7d \x7d")
        = compileSource ({} : Memory) "px" ⟨"/p/a.css"⟩ cards := by
  have hwrap : "@media screen and (min-width: 10px) \x7b @layer base \x7b " ++ cards ++ " \x7d \x7d"
      = Grouping.wrapAll cardGroups cards := by
    decide +kernel
  have hwhole : IsWhole cards.toList := by decide +kernel
  have hfree : (Stylesheet.ofText cards).importTargets = [] := by decide +kernel
  obtain ⟨hrules, hcompile⟩ := rules_wrapAll cardGroups hwhole
  rw [hwrap]
  exact ⟨hrules, by decide +kernel, hcompile hfree _ _ _⟩

end Stylebook
