import Stylebook.Compile
import Stylebook.Proofs.Import.Call
import Stylebook.Proofs.Style.Table
import Stylebook.Store.Memory

/-!
# Which rule a value comes from

Rules are compiled one after the other into one style map. What the map
holds in the end can be read off the list of the rules: its selectors are
those that the rules name, each where it comes first, and a property of a
selector has its value from the last rule that gives it one. A rule that has
no meaning still names its selectors, but it gives no values and leaves a
diagnostic for each of them.

Compiling a rule touches the map in three steps, and each has its effect on
names and values: the selectors are declared, the declarations are
transformed, and the properties are merged into the tables of the selectors.
`addRule` is the three of them together, and what a list of rules does
follows by induction from its end.
-/

namespace Stylebook

open Style (Properties StyleValue)

namespace Compile

/-! ## What a rule says

What a rule says of one property of one selector is told without a map. That
is enough, because no rule looks at what another one said. -/

/-- The selectors that a rule is compiled for. -/
def selectorsOf (rule : Css.StyleRule) : List String :=
  Css.Selector.canonicalTexts rule.selectors

/-- The declarations of a rule in plain form. -/
def plainOf (unit : String) (rule : Css.StyleRule) : List Style.PlainDeclaration :=
  rule.declarations.filterMap (Style.PlainDeclaration.ofDeclaration? unit)

/-- **The value that a rule gives to a property of a selector.** There is
none if the rule does not name the selector, has no meaning or does not set
the property. A font weight is a text in any case. -/
def valueFrom (unit selector property : String) (rule : Css.StyleRule) : Option StyleValue :=
  if selector ∈ selectorsOf rule then
    match Style.transform unit (plainOf unit rule) with
    | .ok properties =>
      (properties.get? property).map fun v => if property = "fontWeight" then v.asText else v
    | .error _ => none
  else none

/-- **The diagnostics of a rule**: one for each of its selectors, if it has
no meaning. -/
def diagnosticsOf (path : Path) (unit : String) (rule : Css.StyleRule) : List Diagnostic :=
  match Style.transform unit (plainOf unit rule) with
  | .ok _ => []
  | .error e => (selectorsOf rule).map fun s => ⟨path, s, e.message⟩

/-- The value of a property of a selector. -/
def valueAt (styles : StyleMap) (selector property : String) : Option StyleValue :=
  (styles.get? selector).bind fun properties => properties.get? property

variable (path : Path) (unit : String)

/-- A rule without a meaning has no properties. -/
theorem ruleProperties_of_error {rule : Css.StyleRule} {e : Style.TransformError}
    (h : Style.transform unit (plainOf unit rule) = .error e) :
    ruleProperties unit rule = .error e := by
  show (Style.transform unit (plainOf unit rule) >>= _) = _
  rw [h]
  rfl

/-- The properties of a rule with a meaning have the font weight made a
text. -/
theorem ruleProperties_of_ok {rule : Css.StyleRule} {properties : Properties}
    (h : Style.transform unit (plainOf unit rule) = .ok properties) :
    ∃ coerced : Properties, ruleProperties unit rule = .ok coerced
      ∧ coerced.names = properties.names
      ∧ ∀ p, coerced.get? p
        = (properties.get? p).map fun v => if p = "fontWeight" then v.asText else v := by
  cases hweight : properties.get? "fontWeight" with
  | none =>
    have hbind : ruleProperties unit rule = .ok properties := by
      show (Style.transform unit (plainOf unit rule) >>= _) = _
      rw [h]
      show Except.ok _ = _
      rw [hweight]
    refine ⟨_, hbind, rfl, fun p => ?_⟩
    by_cases hp : p = "fontWeight"
    · simp [hp, hweight]
    · simp [hp]
  | some weight =>
    have hbind : ruleProperties unit rule
        = .ok (properties.insert "fontWeight" weight.asText) := by
      show (Style.transform unit (plainOf unit rule) >>= _) = _
      rw [h]
      show Except.ok _ = _
      rw [hweight]
    have hmem : "fontWeight" ∈ properties.names := by
      rw [← Table.isSome_get?_iff, hweight]
      rfl
    refine ⟨_, hbind, ?_, fun p => ?_⟩
    · rw [Table.names_insert, Entries.eraseDups_concat, if_pos hmem, Table.eraseDups_names]
    by_cases hp : p = "fontWeight"
    · simp [hp, hweight, Table.get?_insert]
    · simp [hp, Table.get?_insert]

/-! ## Declaring and merging

A rule names its selectors before it is known whether its declarations have
a meaning. That is why a selector can be in the map without any property. -/

/-- Declaring brings names in, each once, -/
theorem names_declare (styles : StyleMap) (selectors : List String) :
    (declare styles selectors).names = (styles.names ++ selectors).eraseDups := by
  have h := Table.names_foldl (fun m s => Table.names_insertNew m s ∅) styles selectors
  rwa [List.map_id'] at h

/-- A selector that is declared has a table, an empty one if it is new. -/
theorem get?_declare (styles : StyleMap) (ss : List String) (s : String) :
    (declare styles ss).get? s
      = if s ∈ ss then some ((styles.get? s).getD ∅) else styles.get? s := by
  rw [declare]
  induction ss generalizing styles with
  | nil => rfl
  | cons u ss ih =>
    rw [List.foldl_cons, ih, Table.get?_insertNew]
    by_cases hs : s = u
    · subst hs
      simp
    · simp [hs]

/-- A selector that is only declared has no values. -/
theorem valueAt_declare (styles : StyleMap) (selectors : List String) (s p : String) :
    valueAt (declare styles selectors) s p = valueAt styles s p := by
  rw [valueAt, valueAt, get?_declare]
  split
  · cases styles.get? s <;> rfl
  · rfl

/-- Merging adds to the selectors those of the rule. -/
theorem names_merge (styles : StyleMap) (selectors : List String) (properties : Properties) :
    (merge styles selectors properties).names = (styles.names ++ selectors).eraseDups := by
  have h := Table.names_foldl (fun m s => Table.names_insert m s
    (((m.get? s).getD ∅).insertAll properties.entries)) styles selectors
  rwa [List.map_id'] at h

/-- A selector that comes again is merged again, which changes nothing. -/
theorem get?_merge (styles : StyleMap) (ss : List String) (properties : Properties) (s : String) :
    (merge styles ss properties).get? s
      = if s ∈ ss then some (((styles.get? s).getD ∅).insertAll properties.entries)
        else styles.get? s := by
  rw [merge]
  induction ss generalizing styles with
  | nil => rfl
  | cons u ss ih =>
    rw [List.foldl_cons, ih, Table.get?_insert]
    by_cases hs : s = u
    · subst hs
      simp [Table.insertAll_self]
    · simp [hs]

/-- **Merging overwrites** the values of the selectors, as far as there are
new ones. -/
theorem valueAt_merge (styles : StyleMap) (selectors : List String) (properties : Properties)
    (s p : String) : valueAt (merge styles selectors properties) s p
      = (if s ∈ selectors then properties.get? p else none).or (valueAt styles s p) := by
  rw [valueAt, valueAt, get?_merge]
  split
  · rw [Option.bind_some, Table.get?_insertAll]
    cases styles.get? s <;> rfl
  · rw [Option.none_or]

/-! ## One rule

The three steps together. A selector that a rule names twice is merged
twice, with the same result. -/

variable (compiled : CompiledStylesheet) (rule : Css.StyleRule)

/-- A rule for no selector does nothing. -/
theorem addRule_of_nil (h : selectorsOf rule = []) :
    addRule path unit compiled rule = compiled := by
  rw [selectorsOf] at h
  simp [addRule, h]

/-- A rule with a meaning writes its properties. -/
theorem addRule_of_ok (h : selectorsOf rule ≠ []) {properties : Properties}
    (hok : ruleProperties unit rule = .ok properties) :
    addRule path unit compiled rule = { compiled with
      styles := merge (declare compiled.styles (selectorsOf rule)) (selectorsOf rule)
        properties } := by
  rw [selectorsOf] at h ⊢
  simp [addRule, h, hok]

/-- A rule without a meaning leaves diagnostics. -/
theorem addRule_of_error (h : selectorsOf rule ≠ []) {e : Style.TransformError}
    (herror : ruleProperties unit rule = .error e) :
    addRule path unit compiled rule = { compiled with
      styles := declare compiled.styles (selectorsOf rule)
      diagnostics := compiled.diagnostics
        ++ (selectorsOf rule).map fun s => ⟨path, s, e.message⟩ } := by
  rw [selectorsOf] at h ⊢
  simp [addRule, h, herror]

/-- **The selectors of a rule come in**, as far as they are new. -/
theorem names_addRule : (addRule path unit compiled rule).styles.names
    = (compiled.styles.names ++ selectorsOf rule).eraseDups := by
  by_cases hnil : selectorsOf rule = []
  · rw [addRule_of_nil path unit compiled rule hnil, hnil, List.append_nil, Table.eraseDups_names]
  cases htransform : Style.transform unit (plainOf unit rule) with
  | error e =>
    rw [addRule_of_error path unit compiled rule hnil (ruleProperties_of_error unit htransform)]
    exact names_declare compiled.styles (selectorsOf rule)
  | ok properties =>
    obtain ⟨coerced, hcoerced, -⟩ := ruleProperties_of_ok unit htransform
    rw [addRule_of_ok path unit compiled rule hnil hcoerced]
    -- merging names the selectors once more, when they are all there
    rw [names_merge, names_declare, Entries.eraseDups_eraseDups_append,
      Entries.eraseDups_append_append_self]

/-- **A value of the rule replaces the one before.** -/
theorem valueAt_addRule (s p : String) : valueAt (addRule path unit compiled rule).styles s p
    = (valueFrom unit s p rule).or (valueAt compiled.styles s p) := by
  by_cases hnil : selectorsOf rule = []
  · have hnone : valueFrom unit s p rule = none := by simp [valueFrom, hnil]
    rw [addRule_of_nil path unit compiled rule hnil, hnone, Option.none_or]
  cases htransform : Style.transform unit (plainOf unit rule) with
  | error e =>
    have hnone : valueFrom unit s p rule = none := by simp [valueFrom, htransform]
    rw [addRule_of_error path unit compiled rule hnil (ruleProperties_of_error unit htransform),
      hnone, Option.none_or]
    exact valueAt_declare compiled.styles (selectorsOf rule) s p
  | ok properties =>
    obtain ⟨coerced, hcoerced, -, hget⟩ := ruleProperties_of_ok unit htransform
    rw [addRule_of_ok path unit compiled rule hnil hcoerced]
    show valueAt (merge _ _ _) s p = _
    rw [valueAt_merge, valueAt_declare, hget, valueFrom, htransform]

/-- The diagnostics of a rule come behind those that are there. -/
theorem diagnostics_addRule : (addRule path unit compiled rule).diagnostics
    = compiled.diagnostics ++ diagnosticsOf path unit rule := by
  by_cases hnil : selectorsOf rule = []
  · have hnone : diagnosticsOf path unit rule = [] := by
      rw [diagnosticsOf, hnil]
      split <;> rfl
    rw [addRule_of_nil path unit compiled rule hnil, hnone, List.append_nil]
  cases htransform : Style.transform unit (plainOf unit rule) with
  | error e =>
    rw [addRule_of_error path unit compiled rule hnil (ruleProperties_of_error unit htransform),
      diagnosticsOf, htransform]
  | ok properties =>
    obtain ⟨coerced, hcoerced, -⟩ := ruleProperties_of_ok unit htransform
    rw [addRule_of_ok path unit compiled rule hnil hcoerced, diagnosticsOf, htransform,
      List.append_nil]

/-! ## A list of rules

The induction is from the end of the list, as the last rule is the one that
counts. -/

variable (imports : List String) (rs : List Css.StyleRule)

/-- The last rule is added last. -/
theorem rules_concat (rule : Css.StyleRule) : rules path unit imports (rs ++ [rule])
    = addRule path unit (rules path unit imports rs) rule := by
  rw [rules, List.foldl_append]
  rfl

/-- **The selectors of the rules**, each where it comes first. -/
theorem names_rules :
    (rules path unit imports rs).styles.names = (rs.flatMap selectorsOf).eraseDups := by
  induction rs using List.reverseRecOn with
  | nil => rfl
  | append_singleton rs rule ih =>
    rw [rules_concat, names_addRule, ih, Entries.eraseDups_eraseDups_append, List.flatMap_append,
      List.flatMap_singleton]

/-- **The last rule wins** that gives the property of the selector a value. -/
theorem valueAt_rules (s p : String) : valueAt (rules path unit imports rs).styles s p
    = rs.reverse.findSome? (valueFrom unit s p) := by
  induction rs using List.reverseRecOn with
  | nil => rfl
  | append_singleton rs rule ih =>
    rw [rules_concat, valueAt_addRule, ih, List.reverse_append, List.findSome?_append]
    simp

/-- **The diagnostics of the rules**, in order. -/
theorem diagnostics_rules :
    (rules path unit imports rs).diagnostics = rs.flatMap (diagnosticsOf path unit) := by
  induction rs using List.reverseRecOn with
  | nil => rfl
  | append_singleton rs rule ih =>
    rw [rules_concat, diagnostics_addRule, ih, List.flatMap_append, List.flatMap_singleton]

end Compile

/-! ## Compiling a text

With imports inlined there is one text, and the order of its rules is the
order in which they count. Imports come where their statements stood. -/

/-- **The last declared rule wins.** Of a stylesheet that compiles, take the
rules of its text with the imports inlined, in document order. The style map
has the selectors that they name, each where it comes first. A property of a
selector has the value of the last rule that gives it one, or none if no
rule does. And the diagnostics are those of the rules without a meaning, one
for each selector that they name.

The style map is filled rule by rule, and a rule that comes later writes
over what is there and keeps the place. What a rule writes does not depend
on what is there, which is why one rule after the other is enough. -/
theorem styles_eq_of_compileSource {σ : Type} [FileStore σ] {store : σ} {unit : String} {path : Path}
    {source : String} {compiled : CompiledStylesheet}
    (h : compileSource store unit path source = .ok compiled) :
    ∃ inlined, inlineImports store path source = .ok inlined
      ∧ compiled.styles.names
        = ((Css.Stylesheet.ofText inlined).rules.flatMap Compile.selectorsOf).eraseDups
      ∧ (∀ s p, Compile.valueAt compiled.styles s p
        = (Css.Stylesheet.ofText inlined).rules.reverse.findSome? (Compile.valueFrom unit s p))
      ∧ compiled.diagnostics
        = (Css.Stylesheet.ofText inlined).rules.flatMap (Compile.diagnosticsOf path unit) := by
  obtain ⟨inlined, hinlined, hcompiled⟩ := Except.bind_eq_ok.mp h
  cases hcompiled
  exact ⟨inlined, hinlined, Compile.names_rules path unit _ _, Compile.valueAt_rules path unit _ _,
    Compile.diagnostics_rules path unit _ _⟩

/-- A stylesheet with a selector that is named again, inside of an at-rule
too, and with two rules that have no meaning. -/
def overridden : String :=
  ".a{color:red;font-weight:7}@media x{.b,.a{color:blue}}.b{top:x}.a,.a{color:tan;top:x}"

/-- Of its three colours the one inside of the at-rule wins, as the last
rule has no meaning. -/
theorem styles_eq_of_compileSource_of_overridden :
    ∃ compiled, compileSource ({} : Memory) "px" ⟨"/p/a.css"⟩ overridden = .ok compiled
      ∧ compiled.styles.names = [".a", ".b"]
      ∧ Compile.valueAt compiled.styles ".a" "color" = some (.text "blue")
      ∧ Compile.valueAt compiled.styles ".a" "fontWeight" = some (.text "7")
      ∧ compiled.diagnostics.map Diagnostic.selector = [".b", ".a", ".a"] := by
  obtain ⟨compiled, h⟩ := Except.exists_eq_ok (r := compileSource ({} : Memory) "px"
    ⟨"/p/a.css"⟩ overridden) (by decide +kernel)
  have hinline : inlineImports ({} : Memory) ⟨"/p/a.css"⟩ overridden = .ok overridden :=
    Except.eq_ok_of_toOption (by decide +kernel)
  obtain ⟨inlined, hinlined, hnames, hvalues, hdiagnostics⟩ := styles_eq_of_compileSource h
  obtain rfl : overridden = inlined := Except.ok.inj (hinline.symm.trans hinlined)
  refine ⟨compiled, h, ?_⟩
  rw [hnames, hvalues, hvalues, hdiagnostics]
  decide +kernel

end Stylebook
