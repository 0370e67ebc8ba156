import Stylebook.Proofs.Css.AtKeyword
import Stylebook.Proofs.Css.Commented

/-!
# What is read from the blocks of a stylesheet

The tree of blocks has everything that a stylesheet says: a style rule is
read from a block and what stands in front of it
(`Node.exists_of_mem_rules`), a declaration from components in that block,
and a function in its value, at any depth, from a block of its own. So each
function of a stylesheet has a block in the tree, with its name and its
arguments (`Stylesheet.Declares.exists_block`).
-/

namespace Stylebook.Css

variable {cs cs' : List Component}

/-- **A component somewhere in a list**: among the members of the list, or
in a block. -/
inductive Component.IsIn (b : Component) : List Component → Prop
  | here {cs : List Component} (h : b ∈ cs) : IsIn b cs
  | inside {cs body : List Component} {o : Lexeme} {closer : List Char}
    (h : .block o body closer ∈ cs) (hb : IsIn b body) : IsIn b cs

namespace Component.IsIn

variable {b : Component}

/-- A component that is somewhere in a list is also in a longer one. -/
theorem mono (h : b.IsIn cs) (hsub : cs ⊆ cs') : b.IsIn cs' := by
  cases h with
  | here h => exact .here (hsub h)
  | inside h hb => exact .inside (hsub h) hb

/-- What is in a block of a list is in the list. -/
theorem trans {o : Lexeme} {body : List Component} {closer : List Char}
    (h : (Component.block o body closer).IsIn cs) (hb : b.IsIn body) : b.IsIn cs := by
  induction h with
  | here h => exact .inside h hb
  | inside h _ ih => exact .inside h ih

end Component.IsIn

/-! ## Rules -/

/-- What is left of a list when a front is left out is a part of it. -/
theorem Component.subset_of_dropWhile {p : Component → Bool} {c : Component}
    (h : cs.dropWhile p = c :: cs') : c ∈ cs ∧ cs' ⊆ cs :=
  List.cons_subset.mp (h ▸ (List.dropWhile_sublist p).subset)

/-- **Every rule was read from a prelude and a block.** The block may be
anywhere in the tree, since rules stand in grouping rules at any depth. That
is why `Component.IsIn` is about depth and the claim on one list would not
go through the induction. -/
theorem Node.exists_of_mem_rules {first : Bool} {r : StyleRule}
    (h : r ∈ rules (ofComponents first cs)) :
    ∃ prelude o body closer, (Component.block o body closer).IsIn cs
      ∧ r = ⟨Selector.ofPrelude prelude, Declaration.ofBody body⟩ := by
  have hlift : ∀ {cs after : List Component}, after ⊆ cs →
      (∃ prelude o body closer, (Component.block o body closer).IsIn after
        ∧ r = ⟨Selector.ofPrelude prelude, Declaration.ofBody body⟩) →
      ∃ prelude o body closer, (Component.block o body closer).IsIn cs
        ∧ r = ⟨Selector.ofPrelude prelude, Declaration.ofBody body⟩ := by
    rintro cs after hsub ⟨prelude, o, body, closer, hin, heq⟩
    exact ⟨prelude, o, body, closer, hin.mono hsub, heq⟩
  fun_induction ofComponents first cs with
  | case1 => cases h
  | case2 => cases h
  | case3 => simp [rules, rulesOf, rulesInside] at h
  | case4 first cs c rest hcs keyword htoken name skipped l after hrest hskipped ih =>
    have hafter := List.Subset.trans (Component.subset_of_dropWhile hrest).2
      (Component.subset_of_dropWhile hcs).2
    exact hlift hafter (ih h)
  | case5 first cs c rest hcs keyword htoken prelude name skipped l after hrest hskipped ih =>
    have hafter := List.Subset.trans (Component.subset_of_dropWhile hrest).2
      (Component.subset_of_dropWhile hcs).2
    exact hlift hafter (ih (by simpa [rules, rulesOf, rulesInside] using h))
  | case6 first cs c rest hcs keyword htoken name skipped o body closer after hrest hskipped ih =>
    have hafter := List.Subset.trans (Component.subset_of_dropWhile hrest).2
      (Component.subset_of_dropWhile hcs).2
    exact hlift hafter (ih h)
  | case7 first cs c rest hcs keyword htoken prelude name skipped o body closer after hrest
      hskipped block ihbody ihafter =>
    obtain ⟨hmem, hafter⟩ := Component.subset_of_dropWhile hrest
    have hsub := (Component.subset_of_dropWhile hcs).2
    rw [rules, rulesOf, List.mem_append] at h
    rcases h with h | h
    · -- only the block of a grouping rule is read
      change r ∈ rulesInside (if groupingNames.contains name = true
        then some (ofComponents true body) else none) at h
      split at h
      · obtain ⟨prelude, o', body', closer', hin, heq⟩ := ihbody h
        exact ⟨prelude, o', body', closer', .inside (hsub hmem) hin, heq⟩
      · cases h
    · exact hlift (List.Subset.trans hafter hsub) (ihafter h)
  | case8 first cs c rest hcs prelude o body closer after hrest hcustom hnot ih =>
    have hsub := List.cons_subset.mpr (Component.subset_of_dropWhile hcs)
    exact hlift (List.Subset.trans (Component.subset_of_dropWhile hrest).2 hsub) (ih h)
  | case9 first cs c rest hcs prelude o body closer after hrest hcustom hnot ih =>
    obtain ⟨hmem, hafter⟩ := Component.subset_of_dropWhile hrest
    have hsub := List.cons_subset.mpr (Component.subset_of_dropWhile hcs)
    rw [rules, rulesOf, List.singleton_append, List.mem_cons] at h
    rcases h with rfl | h
    · exact ⟨prelude, o, body, closer, .here (hsub hmem), rfl⟩
    · exact hlift (List.Subset.trans hafter hsub) (ih h)
  | case10 => cases h

/-! ## Declarations -/

/-- **Every declaration was read from a name and components of the block.** -/
theorem Declaration.exists_of_mem_ofBody {d : Declaration} (h : d ∈ ofBody cs) :
    ∃ property value, value ⊆ cs
      ∧ d = ⟨Text.lower property, Value.dropImportant (Value.ofComponents [] value)⟩ := by
  have hlift : ∀ {cs after : List Component}, after ⊆ cs →
      (∃ property value, value ⊆ after
        ∧ d = ⟨Text.lower property, Value.dropImportant (Value.ofComponents [] value)⟩) →
      ∃ property value, value ⊆ cs
        ∧ d = ⟨Text.lower property, Value.dropImportant (Value.ofComponents [] value)⟩ := by
    rintro cs after hsub ⟨property, value, hvalue, heq⟩
    exact ⟨property, value, List.Subset.trans hvalue hsub, heq⟩
  have hrest : ∀ (p : Component → Bool) (cs : List Component), (cs.dropWhile p).drop 1 ⊆ cs :=
    fun p cs => ((List.drop_sublist 1 _).trans (List.dropWhile_sublist p)).subset
  -- each step goes on with an end of the block, of which the components are in it
  fun_induction ofBody cs with
  | case1 => cases h
  | case2 c cs hgap ih => exact hlift (List.subset_cons_self c cs) (ih h)
  | case3 c cs hgap name htoken ih =>
    exact hlift (List.Subset.trans (hrest _ cs) (List.subset_cons_self c cs)) (ih h)
  | case4 c cs hgap property htoken rest e he ih =>
    rcases List.mem_cons.mp h with rfl | h
    · unfold ofRest? at he
      split at he
      · next l value hvalue =>
        split at he
        · cases he
          have hsub := List.Subset.trans (Component.subset_of_dropWhile hvalue).2
            (List.takeWhile_sublist _).subset
          exact ⟨property, value, List.Subset.trans hsub (List.subset_cons_self c cs), rfl⟩
        · cases he
      · cases he
    · exact hlift (List.Subset.trans (hrest _ cs) (List.subset_cons_self c cs)) (ih h)
  | case5 c cs hgap property htoken rest hnone ih =>
    exact hlift (List.Subset.trans (hrest _ cs) (List.subset_cons_self c cs)) (ih h)
  | case6 c cs hgap hnot hnot' ih => exact hlift (hrest _ (c :: cs)) (ih h)

/-! ## Values -/

namespace Value

/-- **A value somewhere among values**: one of them, or an argument of a
function. -/
inductive IsIn (v : Value) : List Value → Prop
  | here {vs : List Value} (h : v ∈ vs) : IsIn v vs
  | inside {vs args : List Value} {n : String} (h : .function n args ∈ vs) (hv : IsIn v args) :
    IsIn v vs

/-- Leaving out the mark of importance adds no values. Here the values are
seen from the end, as the mark is. -/
theorem dropImportantReversed_subset (vs : List Value) : dropImportantReversed vs ⊆ vs := by
  unfold dropImportantReversed
  split
  · next word rest hword =>
    split
    · next bang front hbang =>
      split
      · have hfront : bang :: front ⊆ rest := hbang ▸ (List.dropWhile_sublist isBlank).subset
        have hrest : word :: rest ⊆ vs := hword ▸ (List.dropWhile_sublist isBlank).subset
        exact List.Subset.trans (List.cons_subset.mp hfront).2 (List.cons_subset.mp hrest).2
      · exact List.Subset.refl vs
    · exact List.Subset.refl vs
  · exact List.Subset.refl vs

/-- Leaving out the mark of importance adds no values. -/
theorem dropImportant_subset (vs : List Value) : dropImportant vs ⊆ vs := by
  intro v hv
  exact List.mem_reverse.mp (dropImportantReversed_subset _ (List.mem_reverse.mp hv))

/-- A function is read from a block that its name opens. -/
theorem exists_of_function {unread : List Char} {n : String} {args : List Value}
    (h : .function n args ∈ ofComponents unread cs) :
    ∃ o body closer, .block o body closer ∈ cs
      ∧ ofComponents [] [.block o body closer] = [.function n args]
      ∧ args = ofComponents [] body := by
  induction cs generalizing unread with
  | nil => cases h
  | cons c cs ih =>
    rw [ofComponents] at h
    rcases List.mem_append.mp h with h | h
    · have hvalue : (ofComponent unread c).1 = some (.function n args) := by simpa using h
      cases c with
      | leaf l =>
        obtain ⟨t, text⟩ := l
        cases t <;> simp [ofComponent, ofToken] at hvalue
      | block o body closer =>
        rw [ofComponent] at hvalue
        split at hvalue
        · next name hname =>
          have hvalue := Option.some.inj hvalue
          refine ⟨o, body, closer, List.mem_cons_self, ?_, ?_⟩
          · simp [ofComponents, ofComponent, hname, hvalue]
          · unfold ofFunction at hvalue
            split at hvalue
            · cases hvalue
            · cases hvalue
              rfl
        · next t hnot =>
          exfalso
          obtain ⟨t, text⟩ := o
          cases t <;> simp [ofToken] at hvalue hnot
    · obtain ⟨o, body, closer, hmem, hrest⟩ := ih h
      exact ⟨o, body, closer, List.mem_cons_of_mem c hmem, hrest⟩

/-- **A function at any depth is read from a block**, at the same depth.
Values are cut at the mark of importance before they are kept, so what is
left is asked to be some of the values and not all. -/
theorem IsIn.exists_block {unread : List Char} {n : String} {args vs : List Value}
    (h : (Value.function n args).IsIn vs) (hvs : vs ⊆ ofComponents unread cs) :
    ∃ b : Component, b.IsIn cs ∧ ofComponents [] [b] = [.function n args] := by
  induction h generalizing cs unread with
  | here h =>
    obtain ⟨o, body, closer, hmem, hvalue, -⟩ := exists_of_function (hvs h)
    exact ⟨_, .here hmem, hvalue⟩
  | inside h _ ih =>
    obtain ⟨o, body, closer, hmem, -, rfl⟩ := exists_of_function (hvs h)
    obtain ⟨b, hb, hvalue⟩ := ih (List.Subset.refl _)
    exact ⟨b, .inside hmem hb, hvalue⟩

end Value

/-- **A stylesheet declares a function**: one of its rules has a declaration
that has the function in its value, at whatever depth. -/
def Stylesheet.Declares (text : String) (n : String) (args : List Value) : Prop :=
  ∃ r ∈ (ofText text).rules, ∃ d ∈ r.declarations, (Value.function n args).IsIn d.value

/-- **Every function that a stylesheet declares has a block in its tree**,
from which it is read. -/
theorem Stylesheet.Declares.exists_block {text n : String} {args : List Value}
    (h : Declares text n args) : ∃ b : Component, b.IsIn (Component.ofText text.toList)
      ∧ Value.ofComponents [] [b] = [.function n args] := by
  obtain ⟨r, hr, d, hd, h⟩ := h
  obtain ⟨prelude, o, body, closer, hin, rfl⟩ := Node.exists_of_mem_rules hr
  obtain ⟨property, value, hsub, rfl⟩ := Declaration.exists_of_mem_ofBody hd
  obtain ⟨b, hb, hvalue⟩ := h.exists_block (Value.dropImportant_subset _)
  exact ⟨b, hin.trans (hb.mono hsub), hvalue⟩

end Stylebook.Css
