import Mathlib.Data.List.TakeWhile
import Stylebook.Css.Stylesheet

/-!
# What a block is read as

A sheet is read from its start, and what a block in curly brackets becomes
depends on what stands before it only. `Node.Reads` says so: a block behind
components is read as `f` of its body, whatever the body is and whatever
comes behind.

There are three kinds of such blocks: those of style rules, those of
grouping rules, and those that make no difference (`blockKind_of_curly`).
-/

namespace Stylebook.Css

namespace Node

/-- **A block is read as** `f` of what stands in it, behind components and
whatever comes next. -/
def Reads (first : Bool) (before : List Component) (opener : Lexeme)
    (f : List Component → List Node) : Prop :=
  ∃ ns, ∀ body closer after, ofComponents first (before ++ .block opener body closer :: after)
    = ns ++ (f body ++ ofComponents false after)

/-- **A block is ignored**: what stands in it makes no difference, whatever
comes next. -/
def Ignores (first : Bool) (before : List Component) (opener : Lexeme) : Prop :=
  ∀ body body' closer closer' after,
    ofComponents first (before ++ .block opener body closer :: after)
      = ofComponents first (before ++ .block opener body' closer' :: after)

/-- A block that is read as nothing is ignored. -/
theorem Reads.ignores {first : Bool} {before : List Component} {opener : Lexeme} {ns : List Node}
    (h : Reads first before opener fun _ => ns) : Ignores first before opener := by
  obtain ⟨front, hread⟩ := h
  intro body body' closer closer' after
  rw [hread, hread]

/-! ## Reading up to a block

A rule is cut from the components by tests that run from left to right. With
a block put behind, a test that found its end before the block finds the
same end, and one that did not comes to the block. The three equations below
are the reader with its tests laid open. -/

section Cut

variable {first : Bool} {cs rest : List Component} {c : Component}

/-- Where there is no rule nothing is read. -/
theorem ofComponents_eq_nil (h : cs.dropWhile isBetweenRules = []) :
    ofComponents first cs = [] := by
  rw [ofComponents]
  split
  · rfl
  · rename_i hcons
    rw [h] at hcons
    cases hcons

/-- **An at-rule** goes up to what ends its prelude. -/
theorem ofComponents_of_atKeyword {keyword : String} (h : cs.dropWhile isBetweenRules = c :: rest)
    (hc : c.token = .atKeyword keyword) : ofComponents first cs
      = match rest.dropWhile (!endsAtPrelude ·) with
        | [] =>
          if first && Text.lower keyword = "charset" then []
          else [.atRule (Text.lower keyword)
            (Value.ofComponents [] (rest.takeWhile (!endsAtPrelude ·))) none]
        | .leaf _ :: after =>
          if first && Text.lower keyword = "charset" then ofComponents false after
          else .atRule (Text.lower keyword)
            (Value.ofComponents [] (rest.takeWhile (!endsAtPrelude ·))) none
              :: ofComponents false after
        | .block _ body _ :: after =>
          if first && Text.lower keyword = "charset" then ofComponents false after
          else .atRule (Text.lower keyword)
            (Value.ofComponents [] (rest.takeWhile (!endsAtPrelude ·)))
            (if groupingNames.contains (Text.lower keyword) then some (ofComponents true body)
              else none) :: ofComponents false after := by
  rw [ofComponents]
  split
  · rename_i hnil
    rw [h] at hnil
    cases hnil
  · rename_i hcons
    obtain ⟨rfl, rfl⟩ := List.cons.inj (h.symm.trans hcons)
    rw [hc]
    dsimp only
    split <;> rename_i hrest <;> rw [hrest]

/-- **A style rule** goes up to the first block in curly brackets. -/
theorem ofComponents_of_other (h : cs.dropWhile isBetweenRules = c :: rest)
    (hc : ∀ keyword, c.token ≠ .atKeyword keyword) : ofComponents first cs
      = match (c :: rest).dropWhile (!Component.isCurly ·) with
        | .block _ body _ :: after =>
          if namesCustomProperty ((c :: rest).takeWhile (!Component.isCurly ·)) then
            ofComponents false after
          else .style ⟨Selector.ofPrelude ((c :: rest).takeWhile (!Component.isCurly ·)),
            Declaration.ofBody body⟩ :: ofComponents false after
        | _ => [] := by
  rw [ofComponents]
  split
  · rename_i hnil
    rw [h] at hnil
    cases hnil
  · rename_i hcons
    obtain ⟨rfl, rfl⟩ := List.cons.inj (h.symm.trans hcons)
    split
    · rename_i keyword hk
      exact absurd hk (hc keyword)
    · dsimp only
      split
      · rename_i hrest
        rw [hrest]
      · rename_i hrest
        split
        · rename_i hblock
          exact absurd hblock (hrest _ _ _ _)
        · rfl

/-! What is cut from a front is cut from all of it, when the cut is in the front. -/

variable {p : Component → Bool} {front : List Component}

/-- A cut that was found is found with more behind it. -/
theorem dropWhile_append_of_cons (h : front.dropWhile p = c :: rest) (cs : List Component) :
    (front ++ cs).dropWhile p = c :: (rest ++ cs) := by
  rw [List.dropWhile_append, h]
  rfl

/-- What stands in front of a cut is the same with more behind it. -/
theorem takeWhile_append_of_cons (h : front.dropWhile p = c :: rest) (cs : List Component) :
    (front ++ cs).takeWhile p = front.takeWhile p := by
  induction front with
  | nil => cases h
  | cons d front ih =>
    rw [List.cons_append]
    by_cases hd : p d = true
    · rw [List.dropWhile_cons_of_pos hd] at h
      rw [List.takeWhile_cons_of_pos hd, List.takeWhile_cons_of_pos hd, ih h]
    · rw [List.takeWhile_cons_of_neg hd, List.takeWhile_cons_of_neg hd]

/-- A cut behind a front that it does not come to. -/
theorem cut_append_of_nil (h : front.dropWhile p = []) (hc : ¬p c = true) (cs : List Component) :
    (front ++ c :: cs).dropWhile p = c :: cs ∧ (front ++ c :: cs).takeWhile p = front := by
  have hall : ∀ d ∈ front, p d = true := List.dropWhile_eq_nil_iff.mp h
  rw [List.dropWhile_append_of_pos hall, List.dropWhile_cons_of_neg hc,
    List.takeWhile_append_of_pos hall, List.takeWhile_cons_of_neg hc, List.append_nil]
  exact ⟨rfl, rfl⟩

end Cut

/-! ## The three kinds of blocks

That there are three kinds, and which one a block is of, is a matter of what
stands before it alone. The proof goes over the rules that end before the
block, by induction on the length of what is left, until the block is part
of the first rule. Then it ends an at-rule or a style rule, or stands for
itself. -/

/-- **The kinds of blocks.** -/
inductive BlockKind (first : Bool) (before : List Component) (opener : Lexeme) : Prop
  | style (selectors : List Selector) (h : Reads first before opener
      fun body => [.style ⟨selectors, Declaration.ofBody body⟩])
  | group (name : String) (prelude : List Value) (h : Reads first before opener
      fun body => [.atRule name prelude (some (ofComponents true body))])
  | ignored (h : Ignores first before opener)

/-- **A front with a rule of its own** is read up to the end of that rule,
and from there on as if it started there. -/
def ReadsUpTo (first : Bool) (before after : List Component) : Prop :=
  ∃ ns, ∀ cs, ofComponents first (before ++ cs) = ns ++ ofComponents false (after ++ cs)

section Kinds

variable {first : Bool} {before rest after : List Component} {c d : Component} {opener : Lexeme}
  {keyword : String}

/-- What a block behind the front is read as, it is read as behind both. -/
theorem ReadsUpTo.reads (h : ReadsUpTo first before after) {f : List Component → List Node}
    (hafter : Reads false after opener f) : Reads first before opener f := by
  obtain ⟨ns, hfront⟩ := h
  obtain ⟨ns', hread⟩ := hafter
  exact ⟨ns ++ ns', fun body closer cs => by rw [hfront, hread, List.append_assoc]⟩

/-- A rule that ends before a block has no part in its kind. -/
theorem ReadsUpTo.blockKind (h : ReadsUpTo first before after)
    (hafter : BlockKind false after opener) : BlockKind first before opener := by
  cases hafter with
  | style selectors hread => exact .style selectors (h.reads hread)
  | group name prelude hread => exact .group name prelude (h.reads hread)
  | ignored hignores =>
    obtain ⟨ns, hfront⟩ := h
    refine .ignored fun body body' closer closer' cs => ?_
    rw [hfront, hfront, hignores body body' closer closer' cs]

/-- An at-rule that ends in the front. -/
theorem readsUpTo_of_atKeyword (h : before.dropWhile isBetweenRules = c :: rest)
    (hc : c.token = .atKeyword keyword)
    (hend : rest.dropWhile (!endsAtPrelude ·) = d :: after) : ReadsUpTo first before after := by
  have hread := fun cs => @ofComponents_of_atKeyword first _ _ c keyword
    (dropWhile_append_of_cons h cs) hc
  simp only [dropWhile_append_of_cons hend, takeWhile_append_of_cons hend] at hread
  by_cases hskip : (first && Text.lower keyword = "charset") = true
  · refine ⟨[], fun cs => (hread cs).trans ?_⟩
    cases d <;> exact if_pos hskip
  · cases d with
    | leaf l => exact ⟨[_], fun cs => (hread cs).trans (if_neg hskip)⟩
    | block o body closer => exact ⟨[_], fun cs => (hread cs).trans (if_neg hskip)⟩

/-- A style rule that ends in the front. -/
theorem readsUpTo_of_other {o : Lexeme} {body : List Component} {closer : List Char}
    (h : before.dropWhile isBetweenRules = c :: rest)
    (hc : ∀ keyword, c.token ≠ .atKeyword keyword)
    (hend : (c :: rest).dropWhile (!Component.isCurly ·) = .block o body closer :: after) :
    ReadsUpTo first before after := by
  have hread := fun cs => @ofComponents_of_other first _ _ c (dropWhile_append_of_cons h cs) hc
  simp only [← List.cons_append, dropWhile_append_of_cons hend, takeWhile_append_of_cons hend]
    at hread
  by_cases hcustom : namesCustomProperty ((c :: rest).takeWhile (!Component.isCurly ·)) = true
  · exact ⟨[], fun cs => (hread cs).trans (if_pos hcustom)⟩
  · exact ⟨[_], fun cs => (hread cs).trans (if_neg hcustom)⟩

variable (hopener : opener.token = .opening .curly)
include hopener

/-- A block in curly brackets ends any prelude. -/
theorem ends_of_curly (body : List Component) (closer : List Char) :
    (¬isBetweenRules (.block opener body closer) = true)
      ∧ (¬(!endsAtPrelude (.block opener body closer)) = true)
      ∧ ¬(!Component.isCurly (.block opener body closer)) = true := by
  simp [isBetweenRules, endsAtPrelude, Component.isGap, Component.isComment, Component.isSemicolon,
    Component.isCurly, Component.token, hopener]

/-- Where nothing stands before it, a block has the declarations of a style
rule. -/
theorem blockKind_of_nil (h : before.dropWhile isBetweenRules = []) :
    BlockKind first before opener := by
  refine .style (Selector.ofPrelude []) ⟨[], fun body closer cs => ?_⟩
  obtain ⟨hbetween, -, hcurly⟩ := ends_of_curly hopener body closer
  have hc : ∀ keyword, (Component.block opener body closer).token ≠ .atKeyword keyword := by
    simp [Component.token, hopener]
  have hdrop : (.block opener body closer :: cs).dropWhile (!Component.isCurly ·)
      = .block opener body closer :: cs := List.dropWhile_cons_of_neg hcurly
  have htake : (.block opener body closer :: cs).takeWhile (!Component.isCurly ·) = [] :=
    List.takeWhile_cons_of_neg hcurly
  rw [ofComponents_of_other (cut_append_of_nil h hbetween cs).1 hc, hdrop, htake]
  rfl

/-- The block that ends an at-rule is read if the at-rule is a grouping one. -/
theorem blockKind_of_atKeyword (h : before.dropWhile isBetweenRules = c :: rest)
    (hc : c.token = .atKeyword keyword) (hend : rest.dropWhile (!endsAtPrelude ·) = []) :
    BlockKind first before opener := by
  have hread := fun body closer cs => @ofComponents_of_atKeyword first _ _ c keyword
    (dropWhile_append_of_cons h (.block opener body closer :: cs)) hc
  have hcut := fun body closer => cut_append_of_nil hend (ends_of_curly hopener body closer).2.1
  simp only [hcut] at hread
  by_cases hskip : (first && Text.lower keyword = "charset") = true
  · refine .ignored (@Reads.ignores _ _ _ [] ⟨[], fun body closer cs => ?_⟩)
    exact (hread body closer cs).trans (if_pos hskip)
  · by_cases hgroup : groupingNames.contains (Text.lower keyword) = true
    · refine .group (Text.lower keyword) (Value.ofComponents [] rest)
        ⟨[], fun body closer cs => ?_⟩
      rw [hread, if_neg hskip, if_pos hgroup]
      rfl
    · refine .ignored (@Reads.ignores _ _ _
        [.atRule (Text.lower keyword) (Value.ofComponents [] rest) none]
        ⟨[], fun body closer cs => ?_⟩)
      rw [hread, if_neg hskip, if_neg hgroup]
      rfl

/-- The block that ends a style rule has its declarations, or nothing. -/
theorem blockKind_of_other (h : before.dropWhile isBetweenRules = c :: rest)
    (hc : ∀ keyword, c.token ≠ .atKeyword keyword)
    (hend : (c :: rest).dropWhile (!Component.isCurly ·) = []) :
    BlockKind first before opener := by
  have hread := fun body closer cs => @ofComponents_of_other first _ _ c
    (dropWhile_append_of_cons h (.block opener body closer :: cs)) hc
  have hcut := fun body closer => cut_append_of_nil hend (ends_of_curly hopener body closer).2.2
  simp only [← List.cons_append, hcut] at hread
  by_cases hcustom : namesCustomProperty (c :: rest) = true
  · exact .ignored (@Reads.ignores _ _ _ []
      ⟨[], fun body closer cs => (hread body closer cs).trans (if_pos hcustom)⟩)
  · exact .style (Selector.ofPrelude (c :: rest))
      ⟨[], fun body closer cs => (hread body closer cs).trans (if_neg hcustom)⟩

/-- **Each block in curly brackets is of one of the kinds**, by what stands
before it. A block that nothing is read from, as that of an unknown at-rule,
is ignored together with everything in it, comments and brackets included. -/
theorem blockKind_of_curly (first : Bool) (before : List Component) :
    BlockKind first before opener := by
  induction hlength : before.length using Nat.strongRecOn generalizing first before with
  | ind n ih =>
    subst hlength
    -- a rule that ends before the block leaves a shorter front
    have hstep : ∀ {after : List Component}, after.length < before.length →
        ReadsUpTo first before after → BlockKind first before opener :=
      fun hshorter hupTo => hupTo.blockKind (ih _ hshorter false _ rfl)
    cases hcut : before.dropWhile isBetweenRules with
    | nil => exact blockKind_of_nil hopener hcut
    | cons c rest =>
      have hrest : (c :: rest).length ≤ before.length :=
        hcut ▸ Component.length_dropWhile_le isBetweenRules before
      by_cases hc : ∃ keyword, c.token = .atKeyword keyword
      · obtain ⟨keyword, hc⟩ := hc
        cases hend : rest.dropWhile (!endsAtPrelude ·) with
        | nil => exact blockKind_of_atKeyword hopener hcut hc hend
        | cons d after =>
          have hafter : (d :: after).length ≤ rest.length :=
            hend ▸ Component.length_dropWhile_le _ rest
          exact hstep (Nat.lt_of_lt_of_le (Nat.lt_succ_of_lt hafter) hrest)
            (readsUpTo_of_atKeyword hcut hc hend)
      · have hc : ∀ keyword, c.token ≠ .atKeyword keyword := not_exists.mp hc
        cases hend : (c :: rest).dropWhile (!Component.isCurly ·) with
        | nil => exact blockKind_of_other hopener hcut hc hend
        | cons d after =>
          have hafter : (d :: after).length ≤ (c :: rest).length :=
            hend ▸ Component.length_dropWhile_le _ (c :: rest)
          cases d with
          | leaf l =>
            -- a bracket without a block, from which on nothing is read
            refine .ignored fun body body' closer closer' cs => ?_
            rw [ofComponents_of_other (dropWhile_append_of_cons hcut _) hc,
              ofComponents_of_other (dropWhile_append_of_cons hcut _) hc, ← List.cons_append,
              ← List.cons_append, dropWhile_append_of_cons hend, dropWhile_append_of_cons hend]
          | block o body closer =>
            exact hstep (Nat.lt_of_lt_of_le hafter hrest) (readsUpTo_of_other hcut hc hend)

end Kinds

end Node

end Stylebook.Css
