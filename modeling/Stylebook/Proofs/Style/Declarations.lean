import Stylebook.Proofs.Style.Expansion
import Stylebook.Proofs.Style.Precedence

/-!
# Which declaration a value comes from

The properties of a list of declarations are those of its members, written
one after the other: the list has a meaning when each member has one
(`transform_eq_ok_iff`), and what it sets for a name is what the last member
with that name sets (`get?_transform`). So the declarations do not see each
other.

The rules of a stylesheet are lists of declarations, and one style map takes
them all. A value of a selector in the map comes from the last declaration
with its name among all declarations that count for the selector
(`Compile.valueAt_rules_eq`), those of the rules that name the selector and
have a meaning.
-/

namespace Stylebook

/-! ## Writing entries -/

namespace Table

variable {β : Type}

/-- Entries may be written in two goes. -/
theorem insertAll_append (t : Table β) (es es' : List (String × β)) :
    t.insertAll (es ++ es') = (t.insertAll es).insertAll es' := List.foldl_append

end Table

namespace Style

variable {unit name : String} {d : PlainDeclaration} {ds : List PlainDeclaration}

/-! ## Lists of declarations

A declaration is worked out by itself, and then it writes its properties
over what is there. The table that it writes into is not looked at. -/

/-- A declaration has a meaning if it sets properties. -/
def HasMeaning (unit : String) (d : PlainDeclaration) : Prop := ∃ es, expand unit d = .ok es

/-- The properties that a declaration sets, if it has a meaning. -/
def entriesOf (unit : String) (d : PlainDeclaration) : List (String × StyleValue) :=
  match expand unit d with
  | .ok es => es
  | .error _ => []

/-- **What a declaration sets for a name.** -/
def valueIn (unit name : String) (d : PlainDeclaration) : Option StyleValue :=
  Entries.find? name (entriesOf unit d).reverse

/-- They are those that it sets. -/
theorem entriesOf_of_ok {es : List (String × StyleValue)} (h : expand unit d = .ok es) :
    entriesOf unit d = es := by
  rw [entriesOf, h]

/-- So it is when properties are there already. -/
theorem transformInto_eq_ok_iff {t u : Properties} : transformInto unit t ds = .ok u
    ↔ (∀ d ∈ ds, HasMeaning unit d) ∧ u = t.insertAll (ds.flatMap (entriesOf unit)) := by
  induction ds generalizing t with
  | nil =>
    have hnil : transformInto unit t [] = .ok t := rfl
    rw [hnil, Except.ok.injEq]
    exact ⟨fun h => ⟨List.forall_mem_nil _, h.symm⟩, fun h => h.2.symm⟩
  | cons d ds ih =>
    rw [transformInto, Except.bind_eq_ok, List.forall_mem_cons, List.flatMap_cons]
    constructor
    · rintro ⟨es, hes, h⟩
      obtain ⟨hds, rfl⟩ := ih.mp h
      rw [entriesOf_of_ok hes, Table.insertAll_append]
      exact ⟨⟨⟨es, hes⟩, hds⟩, rfl⟩
    · rintro ⟨⟨⟨es, hes⟩, hds⟩, rfl⟩
      refine ⟨es, hes, ih.mpr ⟨hds, ?_⟩⟩
      rw [entriesOf_of_ok hes, Table.insertAll_append]

/-- **A list of declarations has a meaning when each one has**, and then
their properties are written one after the other. -/
theorem transform_eq_ok_iff {u : Properties} : transform unit ds = .ok u
    ↔ (∀ d ∈ ds, HasMeaning unit d) ∧ u = .ofList (ds.flatMap (entriesOf unit)) :=
  transformInto_eq_ok_iff

/-- The properties of declarations are worked out one after the other and
then written. -/
theorem transformInto_eq_mapM (unit : String) (t : Properties) (ds : List PlainDeclaration) :
    transformInto unit t ds = do return t.insertAll (← ds.mapM (expand unit)).flatten := by
  induction ds generalizing t with
  | nil => rfl
  | cons d ds ih =>
    rw [transformInto, Except.mapM_cons, bind_assoc]
    refine bind_congr fun es => ?_
    rw [ih, bind_assoc]
    refine bind_congr fun ess => ?_
    rw [← Table.insertAll_append]
    rfl

/-- So they may be worked out before any is written. -/
theorem transform_eq_mapM (unit : String) (ds : List PlainDeclaration) :
    transform unit ds = do return .ofList (← ds.mapM (expand unit)).flatten :=
  transformInto_eq_mapM unit ∅ ds

/-- The last entry with a name is that of the last declaration that has one. -/
theorem find?_reverse_flatMap (ds : List PlainDeclaration) :
    Entries.find? name (ds.flatMap (entriesOf unit)).reverse
      = ds.reverse.findSome? (valueIn unit name) := by
  induction ds with
  | nil => rfl
  | cons d ds ih =>
    rw [List.flatMap_cons, List.reverse_append, Entries.find?_append, ih, List.reverse_cons,
      List.findSome?_append, List.findSome?_singleton, valueIn]

/-- **The last declaration with a name wins.** -/
theorem get?_transform {t : Properties} (h : transform unit ds = .ok t) (name : String) :
    t.get? name = ds.reverse.findSome? (valueIn unit name) := by
  obtain ⟨-, rfl⟩ := transform_eq_ok_iff.mp h
  refine (Table.get?_foldl_insert ∅ _ name).trans ?_
  rw [find?_reverse_flatMap, Table.get?_empty, Option.or_none]

/-- A value that a declaration sets is one of its entries. -/
theorem exists_of_valueIn {v : StyleValue} (h : valueIn unit name d = some v) :
    ∃ es, expand unit d = .ok es ∧ (name, v) ∈ es := by
  have hmem := List.mem_reverse.mp (Entries.mem_of_find? h)
  unfold entriesOf at hmem
  split at hmem
  · exact ⟨_, ‹_›, hmem⟩
  · cases hmem

end Style

/-! ## Rules

A rule of which one declaration has no meaning counts for nothing as a
whole. So to tell which declaration a value comes from, the declarations of
such rules are left out first. -/

namespace Compile

open Style (StyleValue PlainDeclaration valueIn)

variable {unit selector : String} {rs : List Css.StyleRule} {d : PlainDeclaration}

/-- The declarations of a rule that count for a selector: all, if the rule
names the selector and has a meaning. -/
def declarationsOf (unit selector : String) (rule : Css.StyleRule) : List PlainDeclaration :=
  if selector ∈ selectorsOf rule then
    match Style.transform unit (plainOf unit rule) with
    | .ok _ => plainOf unit rule
    | .error _ => []
  else []

/-- **The declarations that count for a selector**, in document order. -/
def declarationsFor (unit selector : String) (rs : List Css.StyleRule) : List PlainDeclaration :=
  rs.flatMap (declarationsOf unit selector)

/-- A value of a property as a style map holds it. -/
def coerced (property : String) (v : StyleValue) : StyleValue :=
  if property = "fontWeight" then v.asText else v

/-- A declaration that counts for a selector is one of a rule that names it. -/
theorem mem_declarationsFor (h : d ∈ declarationsFor unit selector rs) :
    ∃ rule ∈ rs, selector ∈ selectorsOf rule ∧ d ∈ plainOf unit rule := by
  obtain ⟨rule, hrule, hd⟩ := List.mem_flatMap.mp h
  unfold declarationsOf at hd
  split at hd
  · rename_i hselector
    split at hd
    · exact ⟨rule, hrule, hselector, hd⟩
    · cases hd
  · cases hd

/-- Every declaration that counts has a meaning. -/
theorem hasMeaning_of_mem (h : d ∈ declarationsFor unit selector rs) : Style.HasMeaning unit d := by
  obtain ⟨rule, -, hd⟩ := List.mem_flatMap.mp h
  unfold declarationsOf at hd
  split at hd
  · split at hd
    · exact (Style.transform_eq_ok_iff.mp ‹_›).1 d hd
    · cases hd
  · cases hd

/-- What a rule gives to a property is what the last of its declarations
sets. -/
theorem valueFrom_eq (unit selector property : String) (rule : Css.StyleRule) :
    valueFrom unit selector property rule
      = ((declarationsOf unit selector rule).reverse.findSome? (valueIn unit property)).map
        (coerced property) := by
  unfold valueFrom declarationsOf
  split
  · cases htransform : Style.transform unit (plainOf unit rule) with
    | error e => rfl
    | ok properties =>
      show (properties.get? property).map (coerced property) = _
      rw [Style.get?_transform htransform]
  · rfl

/-- **The last declaration with a name wins** among all those that count for
the selector. -/
theorem valueAt_rules_eq (path : Path) (imports : List String) (property : String) :
    valueAt (rules path unit imports rs).styles selector property
      = ((declarationsFor unit selector rs).reverse.findSome? (valueIn unit property)).map
        (coerced property) := by
  rw [valueAt_rules]
  induction rs with
  | nil => rfl
  | cons rule rs ih =>
    rw [List.reverse_cons, List.findSome?_append, List.findSome?_singleton, ih, valueFrom_eq,
      ← Option.map_or, ← List.findSome?_append, ← List.reverse_append]
    rfl

end Compile

end Stylebook
