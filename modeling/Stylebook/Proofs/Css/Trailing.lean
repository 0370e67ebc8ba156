import Stylebook.Proofs.Css.Balanced

/-!
# White space at the end of a sheet

White space at the end of components is one component more, or it belongs to
the text of the last one, when this is white space itself or ends with an
escape (`Trailed`). A rule or an import that is complete does not come to
the end. One that is not goes up to the end: a style rule without its block
is left out, and of an at-rule without its end only the name and the prelude
are read, where white space counts for nothing. So the rules and the imports
of a sheet do not depend on white space at its end
(`Node.sameContent_of_trailed`).
-/

namespace Stylebook.Css

namespace Component

/-- **The same components with white space at the end.** -/
inductive Trailed : List Component → List Component → Prop
  | nil : Trailed [] []
  | blank (text : List Char) : Trailed [] [.leaf ⟨.blank, text⟩]
  | last (l : Lexeme) (text : List Char) : Trailed [.leaf l] [.leaf ⟨l.token, text⟩]
  | cons {cs cs' : List Component} (c : Component) (h : Trailed cs cs') :
    Trailed (c :: cs) (c :: cs')

/-- Two components that are the same but for the text of a single lexeme. -/
def SameButForText (c d : Component) : Prop :=
  c = d ∨ ∃ l l' : Lexeme, c = .leaf l ∧ d = .leaf l' ∧ l.token = l'.token

/-- Such components have the same token. -/
theorem SameButForText.token_eq {c d : Component} (h : SameButForText c d) : c.token = d.token := by
  obtain rfl | ⟨l, l', rfl, rfl, hl⟩ := h
  · rfl
  · exact hl

/-- **A test that asks for the token of a component only, and that white
space passes.** -/
structure PassesBlanks (p : Component → Bool) : Prop where
  congr : ∀ c d : Component, c.token = d.token → p c = p d
  blank : ∀ c : Component, c.token = .blank → p c = true

/-- What is between rules is such a test. -/
theorem passesBlanks_isBetweenRules : PassesBlanks Node.isBetweenRules where
  congr c d h := by
    unfold Node.isBetweenRules isGap isComment
    rw [h]
  blank c h := by
    unfold Node.isBetweenRules isGap
    rw [h]
    rfl

/-- The test for the end of a prelude passes white space. -/
theorem passesBlanks_not_endsAtPrelude : PassesBlanks fun c => !Node.endsAtPrelude c where
  congr c d h := by
    unfold Node.endsAtPrelude isSemicolon isCurly
    rw [h]
  blank c h := by
    unfold Node.endsAtPrelude isSemicolon isCurly
    rw [h]
    rfl

/-- The test for a curly bracket passes white space. -/
theorem passesBlanks_not_isCurly : PassesBlanks fun c => !isCurly c where
  congr c d h := by
    unfold isCurly
    rw [h]
  blank c h := by
    unfold isCurly
    rw [h]
    rfl

namespace Trailed

variable {cs cs' : List Component} {p : Component → Bool}

/-- Components in front are the same on both sides. -/
theorem append_left (h : Trailed cs cs') (front : List Component) :
    Trailed (front ++ cs) (front ++ cs') := by
  induction front with
  | nil => exact h
  | cons c front ih => exact cons c ih

/-- Components that come first are the same but for a text, and have the
same behind them. -/
theorem of_cons {c c' : Component} (h : Trailed (c :: cs) (c' :: cs')) :
    SameButForText c c' ∧ Trailed cs cs' := by
  cases h with
  | last l text => exact ⟨.inr ⟨l, _, rfl, rfl, rfl⟩, nil⟩
  | cons c h => exact ⟨.inl rfl, h⟩

/-- **White space at the end is behind a cut**, or nothing is cut at all. -/
theorem cut (h : Trailed cs cs') (hp : PassesBlanks p) :
    cs.dropWhile p = [] ∧ cs'.dropWhile p = [] ∧ Trailed (cs.takeWhile p) (cs'.takeWhile p)
      ∨ ∃ d ds d' ds', cs.dropWhile p = d :: ds ∧ cs'.dropWhile p = d' :: ds'
        ∧ cs.takeWhile p = cs'.takeWhile p ∧ Trailed (d :: ds) (d' :: ds') := by
  induction h with
  | nil => exact .inl ⟨rfl, rfl, nil⟩
  | blank text =>
    have hblank : p (.leaf ⟨.blank, text⟩) = true := hp.blank _ rfl
    refine .inl ⟨rfl, List.dropWhile_cons_of_pos hblank, ?_⟩
    rw [List.takeWhile_cons_of_pos hblank]
    exact blank text
  | last l text =>
    have hsame : p (.leaf l) = p (.leaf ⟨l.token, text⟩) := hp.congr _ _ rfl
    by_cases hl : p (.leaf l) = true
    · rw [List.dropWhile_cons_of_pos hl, List.dropWhile_cons_of_pos (hsame ▸ hl),
        List.takeWhile_cons_of_pos hl, List.takeWhile_cons_of_pos (hsame ▸ hl)]
      exact .inl ⟨rfl, rfl, last l text⟩
    · rw [List.dropWhile_cons_of_neg hl, List.dropWhile_cons_of_neg (hsame ▸ hl),
        List.takeWhile_cons_of_neg hl, List.takeWhile_cons_of_neg (hsame ▸ hl)]
      exact .inr ⟨_, _, _, _, rfl, rfl, rfl, last l text⟩
  | cons c h ih =>
    by_cases hc : p c = true
    · rw [List.dropWhile_cons_of_pos hc, List.dropWhile_cons_of_pos hc,
        List.takeWhile_cons_of_pos hc, List.takeWhile_cons_of_pos hc]
      rcases ih with ⟨hnil, hnil', htake⟩ | ⟨d, ds, d', ds', hcons, hcons', htake, hrest⟩
      · exact .inl ⟨hnil, hnil', cons c htake⟩
      · exact .inr ⟨d, ds, d', ds', hcons, hcons', congrArg (c :: ·) htake, hrest⟩
    · rw [List.dropWhile_cons_of_neg hc, List.dropWhile_cons_of_neg hc,
        List.takeWhile_cons_of_neg hc, List.takeWhile_cons_of_neg hc]
      exact .inr ⟨c, _, c, _, rfl, rfl, rfl, cons c h⟩

/-- What is said of tokens is said of white space at the end too. -/
theorem forall_token {q : Token → Prop} (h : Trailed cs cs') (hblank : q .blank)
    (hall : ∀ c ∈ cs, q c.token) : ∀ c ∈ cs', q c.token := by
  induction h with
  | nil => exact hall
  | blank text => exact List.forall_mem_singleton.mpr hblank
  | last l text => exact List.forall_mem_singleton.mpr (List.forall_mem_singleton.mp hall :)
  | cons c _ ih =>
    obtain ⟨hc, hcs⟩ := List.forall_mem_cons.mp hall
    exact List.forall_mem_cons.mpr ⟨hc, ih hcs⟩

end Trailed

end Component

open Component (Trailed ofLexemes)

/-- **A space behind balanced lexemes** is white space at the end of their
components. -/
theorem Spaced.trailed {ls ls' : List Lexeme} (h : Spaced ls ls') (hls : Balanced ls) :
    Balanced ls' ∧ Trailed (ofLexemes ls) (ofLexemes ls') := by
  have hleaf : ∀ l : Lexeme, l.token.isFlat = true → ofLexemes [l] = [.leaf l] := by
    rintro ⟨t, text⟩ hl
    cases t <;> first | rfl | cases hl
  cases h with
  | blank =>
    refine ⟨(Balanced.concat_iff rfl).mpr hls, ?_⟩
    have htrailed := Trailed.append_left (.blank [' ']) (ofLexemes ls)
    rwa [List.append_nil, ← hleaf _ rfl, ← hls.ofLexemes_append] at htrailed
  | last ls l text hl =>
    have hl' : (⟨l.token, text⟩ : Lexeme).token.isFlat = true := hl
    have hls := (Balanced.concat_iff hl).mp hls
    refine ⟨(Balanced.concat_iff hl').mpr hls, ?_⟩
    rw [hls.ofLexemes_append, hls.ofLexemes_append, hleaf l hl, hleaf _ hl']
    exact Trailed.append_left (.last l text) (ofLexemes ls)

/-! ## The target of an import

The prelude of an import that has no semicolon goes up to the end, so the
white space is in it. There it is the last value, and the target is the
first. -/

namespace Node

/-- Behind a value that is not white space, nothing is looked at. -/
theorem importTarget?_cons {v : Value} (h : ¬v.isBlank = true) (name : String)
    (vs ws : List Value) : importTarget? name (v :: vs) = importTarget? name (v :: ws) := by
  unfold importTarget?
  rw [List.dropWhile_cons_of_neg h, List.dropWhile_cons_of_neg h]
  cases v <;> rfl

/-- A token by itself is a target or none, whatever its text is. -/
theorem importTarget?_ofToken (t : Token) (name : String) (text text' : List Char) :
    importTarget? name [Value.ofToken text t] = importTarget? name [Value.ofToken text' t] := by
  cases t <;> rfl

/-- **White space at the end of a prelude is no part of the target.** -/
theorem importTarget?_of_trailed {cs cs' : List Component} (h : Trailed cs cs') (name : String)
    (unread : List Char) : importTarget? name (Value.ofComponents unread cs)
      = importTarget? name (Value.ofComponents unread cs') := by
  induction h generalizing unread with
  | nil => rfl
  | blank text => rfl
  | last l text =>
    obtain ⟨t, text'⟩ := l
    by_cases ht : t = .comment
    · subst ht
      rfl
    · have hleaf : ∀ text, Value.ofComponent unread (.leaf ⟨t, text⟩)
          = (some (Value.ofToken (unread ++ text) t), []) := by
        intro text
        rw [Value.ofComponent]
        cases t <;> first | rfl | exact absurd rfl ht
      rw [Value.ofComponents, Value.ofComponents, hleaf, hleaf]
      exact importTarget?_ofToken _ _ _ _
  | cons c _ ih =>
    rw [Value.ofComponents, Value.ofComponents]
    obtain ⟨value, rest⟩ := Value.ofComponent unread c
    cases value with
    | none => exact ih rest
    | some v =>
      by_cases hv : v.isBlank = true
      · cases v with
        | blank => exact ih rest
        | _ => cases hv
      · exact importTarget?_cons hv name _ _

/-! ## Rules and imports

Most of a sheet is cut before the white space comes in sight. What is left
then is a last rule that goes up to the end, and this is a question of one
rule: it has no block, so it gives no style rule, and what it imports it
imports by its prelude. -/

/-- Nodes with the same rules and the same imports. -/
def SameContent (ns ns' : List Node) : Prop :=
  rules ns = rules ns' ∧ importTargets ns = importTargets ns'

/-- A node in front is the same on both sides. -/
theorem SameContent.cons {ns ns' : List Node} (h : SameContent ns ns') (n : Node) :
    SameContent (n :: ns) (n :: ns') :=
  ⟨by rw [rules, rules, h.1], by rw [importTargets, importTargets, h.2]⟩

/-- What is left behind the first component of a rule. -/
theorem length_lt_of_dropWhile {p : Component → Bool} {cs rest : List Component} {c : Component}
    (h : cs.dropWhile p = c :: rest) : rest.length < cs.length := by
  have hle := Component.length_dropWhile_le p cs
  rwa [h] at hle

section Trailed

variable {cs cs' rest rest' : List Component} {c c' : Component} (first : Bool)
  (hcons : cs.dropWhile isBetweenRules = c :: rest)
  (hcons' : cs'.dropWhile isBetweenRules = c' :: rest')
  (hall : Trailed (c :: rest) (c' :: rest'))
  (ih : ∀ {after after' : List Component}, after.length < cs.length → Trailed after after' →
    SameContent (ofComponents false after) (ofComponents false after'))
include hcons hcons' hall ih

/-- What goes on behind an at-rule; one that goes up to the end has white
space in its prelude. -/
theorem sameContent_of_atKeyword {keyword : String} (hc : c.token = .atKeyword keyword) :
    SameContent (ofComponents first cs) (ofComponents first cs') := by
  obtain ⟨hsame, htrailed⟩ := hall.of_cons
  have hc' : c'.token = .atKeyword keyword := hsame.token_eq ▸ hc
  rw [ofComponents_of_atKeyword hcons hc, ofComponents_of_atKeyword hcons' hc']
  rcases htrailed.cut Component.passesBlanks_not_endsAtPrelude with
    ⟨hnil, hnil', htake⟩ | ⟨d, after, d', after', hend, hend', htake, hbehind⟩
  · -- without a block there are no rules, and only the target of an import counts
    rw [hnil, hnil']
    dsimp only
    split
    · exact ⟨rfl, rfl⟩
    · refine ⟨rfl, ?_⟩
      simp only [importTargets, targetsOf, importTarget?_of_trailed htake]
  · obtain ⟨hsame, htrailed⟩ := hbehind.of_cons
    have hafter : after.length < cs.length :=
      Nat.lt_trans (length_lt_of_dropWhile hend) (length_lt_of_dropWhile hcons)
    have hcontent := ih hafter htrailed
    rw [hend, hend', htake]
    obtain rfl | ⟨l, l', rfl, rfl, -⟩ := hsame
    · cases d <;> (dsimp only; split)
      · exact hcontent
      · exact hcontent.cons _
      · exact hcontent
      · exact hcontent.cons _
    · dsimp only
      split
      · exact hcontent
      · exact hcontent.cons _

/-- What goes on behind a style rule; one that goes up to the end has no
block. -/
theorem sameContent_of_other (hc : ∀ keyword, c.token ≠ .atKeyword keyword) :
    SameContent (ofComponents first cs) (ofComponents first cs') := by
  have hc' : ∀ keyword, c'.token ≠ .atKeyword keyword := hall.of_cons.1.token_eq ▸ hc
  rw [ofComponents_of_other hcons hc, ofComponents_of_other hcons' hc']
  rcases hall.cut Component.passesBlanks_not_isCurly with
    ⟨hnil, hnil', -⟩ | ⟨d, after, d', after', hend, hend', htake, hbehind⟩
  · rw [hnil, hnil']
    exact ⟨rfl, rfl⟩
  · obtain ⟨hsame, htrailed⟩ := hbehind.of_cons
    have hafter : after.length < cs.length :=
      Nat.lt_of_lt_of_le (length_lt_of_dropWhile hend) (length_lt_of_dropWhile hcons)
    have hcontent := ih hafter htrailed
    rw [hend, hend', htake]
    obtain rfl | ⟨l, l', rfl, rfl, -⟩ := hsame
    · cases d with
      | leaf l => exact ⟨rfl, rfl⟩
      | block o body closer =>
        dsimp only
        split
        · exact hcontent
        · exact hcontent.cons _
    · exact ⟨rfl, rfl⟩

end Trailed

/-- **White space at the end changes no rule and no import.** -/
theorem sameContent_of_trailed {cs cs' : List Component} (h : Trailed cs cs') (first : Bool) :
    SameContent (ofComponents first cs) (ofComponents first cs') := by
  induction hlength : cs.length using Nat.strongRecOn generalizing first cs cs' with
  | ind n ih =>
  subst hlength
  rcases h.cut Component.passesBlanks_isBetweenRules with
    ⟨hnil, hnil', -⟩ | ⟨c, rest, c', rest', hcons, hcons', -, hall⟩
  · rw [ofComponents_eq_nil hnil, ofComponents_eq_nil hnil']
    exact ⟨rfl, rfl⟩
  · have ih' : ∀ {after after' : List Component}, after.length < cs.length → Trailed after after' →
        SameContent (ofComponents false after) (ofComponents false after') :=
      fun hlt htrailed => ih _ hlt htrailed false rfl
    by_cases hkeyword : ∃ keyword, c.token = .atKeyword keyword
    · obtain ⟨keyword, hc⟩ := hkeyword
      exact sameContent_of_atKeyword first hcons hcons' hall ih' hc
    · exact sameContent_of_other first hcons hcons' hall ih' (not_exists.mp hkeyword)

end Node

end Stylebook.Css
