import Stylebook.Proofs.Style.Declarations

/-!
# Declarations that are overridden

A declaration whose property is declared again later in the list is
*overridden*. What it set is then replaced under every name that the later
one sets. Most properties set the same names whatever their value is
(`names_of_expands`), so of an overridden declaration nothing stays and it
can as well be left out. For `border`, `border-radius` and `flex` the names
depend on the value, and a name that no later declaration sets survives
(`Survives`), as the shorter `flex` does not clear the basis of the longer
one.

`transform_erase` compares the two lists: the one without the overridden
declaration has a meaning too, and the tables differ at most under the names
that survive.
-/

namespace Stylebook.Style

variable {unit name property value : String} {d d' : PlainDeclaration}
  {before between after later : List PlainDeclaration} {es : List (String × StyleValue)}
  {t t' : Properties}

/-! ## The names that a declaration sets

For most properties the names can be told without looking at the value, so
two declarations of one property set the same. What the names are is not
needed beyond that. -/

/-- The shorthands that set other names for other values. -/
def varyingProperties : List String := ["border", "border-radius", "flex"]

/-- **The names that a property sets**, for the others. -/
def namesOf (property : String) : List String :=
  (Entries.find? property boxNames).getD [camelCase property]

/-- A shorthand sets the names of its properties. -/
theorem namesOf_of_mem {names : List String} (h : (property, names) ∈ boxNames) :
    namesOf property = names := by
  have hnodup : (Entries.names boxNames).Nodup := by decide
  rw [namesOf, Entries.find?_of_mem hnodup h, Option.getD_some]

/-- A property that is no shorthand sets its own name. -/
theorem namesOf_of_notMem (h : property ∉ Entries.names boxNames) :
    namesOf property = [camelCase property] := by
  rw [namesOf, Entries.find?_eq_none_iff.mpr h, Option.getD_none]

/-- **The names do not depend on the value**, except for the varying
properties. -/
theorem names_of_expands (h : Expands unit property value es)
    (hvarying : property ∉ varyingProperties) : Entries.names es = namesOf property := by
  cases h with
  | box hnames hcount _ =>
    rw [namesOf_of_mem hnames]
    exact List.map_fst_zip (Nat.le_of_eq (hcount.symm.trans (List.length_map _).symm))
  | length hproperty _ =>
    have hall : ∀ p ∈ lengthProperties, p ∉ Entries.names boxNames := by decide +kernel
    rcases hproperty with rfl | hproperty
    · exact absurd (.tail _ (.head _)) hvarying
    · rw [namesOf_of_notMem (hall property hproperty)]
      rfl
  | border hproperty _ => exact absurd (hproperty ▸ .head _) hvarying
  | flex hproperty _ => exact absurd (hproperty ▸ .tail _ (.tail _ (.head _))) hvarying
  | number hproperty _ | word hproperty _ _ =>
    have hall : ∀ p ∈ numericProperties, p ∉ Entries.names boxNames := by decide +kernel
    rw [namesOf_of_notMem (hall property hproperty)]
    rfl
  | other hproperty =>
    have hknown : ∀ p ∈ Entries.names boxNames, p ∈ knownProperties := by decide +kernel
    rw [namesOf_of_notMem fun hmem => hproperty (hknown property hmem)]
    rfl

/-- A declaration sets a name or does not. -/
theorem valueIn_eq_none_iff : valueIn unit name d = none ↔ name ∉ Entries.names (entriesOf unit d) := by
  rw [valueIn, Entries.find?_eq_none_iff, Entries.names, List.map_reverse, List.mem_reverse]
  rfl

/-- Declarations of one property set the same names, except for the varying
properties. -/
theorem valueIn_eq_none_congr (hd : HasMeaning unit d) (hd' : HasMeaning unit d')
    (hsame : d'.property = d.property) (hvarying : d.property ∉ varyingProperties) :
    valueIn unit name d' = none ↔ valueIn unit name d = none := by
  obtain ⟨es, hes⟩ := hd
  obtain ⟨es', hes'⟩ := hd'
  have hnames := names_of_expands (expands_of_expand hes) hvarying
  have hnames' := names_of_expands (expands_of_expand hes') (hsame ▸ hvarying)
  rw [valueIn_eq_none_iff, valueIn_eq_none_iff, entriesOf_of_ok hes, entriesOf_of_ok hes', hnames,
    hnames', hsame]

/-! ## Leaving a declaration out

A table is looked at name by name. If a later declaration sets the name, the
value is that one's; if not, it is that of the declaration, or else of an
earlier one. -/

/-- **What survives of a declaration**: the names that no later one sets. -/
def Survives (unit name : String) (d : PlainDeclaration) (later : List PlainDeclaration) : Prop :=
  valueIn unit name d ≠ none ∧ ∀ e ∈ later, valueIn unit name e = none

/-- The value of a name by the three parts of a list. -/
theorem get?_transform_append (h : transform unit (before ++ d :: later) = .ok t) :
    t.get? name = (later.reverse.findSome? (valueIn unit name)).or
      ((valueIn unit name d).or (before.reverse.findSome? (valueIn unit name))) := by
  rw [get?_transform h, List.reverse_append, List.reverse_cons, List.findSome?_append,
    List.findSome?_append, List.findSome?_singleton, Option.or_assoc]

/-- What survives keeps its value. -/
theorem get?_of_survives (h : transform unit (before ++ d :: later) = .ok t)
    (hsurvives : Survives unit name d later) : t.get? name = valueIn unit name d := by
  have hnone : later.reverse.findSome? (valueIn unit name) = none :=
    List.findSome?_eq_none_iff.mpr fun e he => hsurvives.2 e (List.mem_reverse.mp he)
  obtain ⟨v, hv⟩ := Option.ne_none_iff_exists'.mp hsurvives.1
  rw [get?_transform_append h, hnone, Option.none_or, hv, Option.some_or]

/-- Under the other names the declaration can be left out. -/
theorem get?_of_not_survives (h : transform unit (before ++ d :: later) = .ok t)
    (h' : transform unit (before ++ later) = .ok t') (hsurvives : ¬Survives unit name d later) :
    t.get? name = t'.get? name := by
  rw [get?_transform_append h, get?_transform h', List.reverse_append, List.findSome?_append]
  cases hlater : later.reverse.findSome? (valueIn unit name) with
  | some v => rw [Option.some_or, Option.some_or]
  | none =>
    have hnone : valueIn unit name d = none := by
      by_contra hne
      exact hsurvives ⟨hne, fun e he =>
        List.findSome?_eq_none_iff.mp hlater e (List.mem_reverse.mpr he)⟩
    rw [hnone, Option.none_or]

/-- **An overridden declaration can be left out**, up to what survives of
it. The list without it has a meaning too. The tables agree under every name
that the later declarations set again, and under every name that the earlier
one did not set; under the others the value of the earlier one stays. There
are no others if the property is not a varying one: then the tables have the
same values.

The value under a name is that of the last declaration that sets it. So the
earlier one can only be seen under a name that it sets and no later one, and
the later one of the same property sets all of its names, unless these
depend on the value. -/
theorem transform_erase (h : transform unit (before ++ d :: (between ++ d' :: after)) = .ok t)
    (hsame : d'.property = d.property) :
    ∃ t', transform unit (before ++ (between ++ d' :: after)) = .ok t'
      ∧ (∀ name, ¬Survives unit name d (between ++ d' :: after) → t.get? name = t'.get? name)
      ∧ (∀ name, Survives unit name d (between ++ d' :: after) → t.get? name = valueIn unit name d)
      ∧ (d.property ∉ varyingProperties → ∀ name, t.get? name = t'.get? name) := by
  have hmeaning := (transform_eq_ok_iff.mp h).1
  have h' : transform unit (before ++ (between ++ d' :: after))
      = .ok (.ofList ((before ++ (between ++ d' :: after)).flatMap (entriesOf unit))) :=
    transform_eq_ok_iff.mpr ⟨fun e he => hmeaning e
      (((List.sublist_cons_self d _).append_left before).subset he), rfl⟩
  refine ⟨_, h', fun name => get?_of_not_survives h h', fun name => get?_of_survives h, ?_⟩
  intro hvarying name
  refine get?_of_not_survives h h' fun hsurvives => hsurvives.1 ?_
  -- the later declaration sets the same names
  have hd : HasMeaning unit d := hmeaning d (by simp)
  have hd' : HasMeaning unit d' := hmeaning d' (by simp)
  exact (valueIn_eq_none_congr hd hd' hsame hvarying).mp (hsurvives.2 d' (by simp))

/-- A margin that is declared again with other parts. -/
theorem transform_erase_of_margin :
    ∃ t t', transform "px" [⟨"margin", "1 2 3"⟩, ⟨"color", "red"⟩, ⟨"margin", "auto"⟩] = .ok t
      ∧ transform "px" [⟨"color", "red"⟩, ⟨"margin", "auto"⟩] = .ok t'
      ∧ ∀ name, t.get? name = t'.get? name := by
  obtain ⟨t, h⟩ := Except.exists_eq_ok (r := transform "px" ([] ++ ⟨"margin", "1 2 3"⟩
    :: ([⟨"color", "red"⟩] ++ ⟨"margin", "auto"⟩ :: []))) (by decide +kernel)
  obtain ⟨t', h', -, -, hall⟩ := transform_erase h rfl
  exact ⟨t, t', h, h', hall (by decide)⟩

/-- **The basis of a longer `flex` survives** the shorter one behind it. -/
theorem flexBasis_of_overridden :
    ∃ t t', transform "px" [⟨"flex", "1 1 10px"⟩, ⟨"flex", "2"⟩] = .ok t
      ∧ transform "px" [⟨"flex", "2"⟩] = .ok t'
      ∧ t.get? "flexBasis" = some (.text "10px") ∧ t'.get? "flexBasis" = none := by
  obtain ⟨t, h⟩ := Except.exists_eq_ok (r := transform "px" [⟨"flex", "1 1 10px"⟩, ⟨"flex", "2"⟩])
    (by decide +kernel)
  obtain ⟨t', h'⟩ := Except.exists_eq_ok (r := transform "px" [⟨"flex", "2"⟩]) (by decide +kernel)
  refine ⟨t, t', h, h', ?_⟩
  rw [get?_transform h, get?_transform h']
  decide +kernel

end Stylebook.Style
