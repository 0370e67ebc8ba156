import Stylebook.Proofs.Style.Declarations
import Stylebook.Proofs.Style.Length
import Stylebook.Proofs.Style.Naming

/-!
# Which values are checked

Some properties of the framework have checked values: `opacity` and `zIndex`
are numbers, and what stands under the name of a length is a length
(`Admits`). The check belongs to the property as the stylesheet spells it,
and the value is then written under its name in camel case. So a value that
was not checked comes under a checked name in one way only: its property is
not a known one, but its camel case is that of a known one. By the lemmas on
names this needs a hyphen that leaves no trace in camel case
(`HasIdleHyphen`), as in `opacity-` or `min--width`.

`Compile.admits_or_idle` says this of what is compiled from a text. The idle
hyphens are not a reserve of the proof: `opacity-: red` does put a word
under `opacity` (`opacity_of_idle`).
-/

namespace Stylebook

namespace Style

/-- **A value that may stand under a name** of the framework. -/
structure Admits (unit key : String) (v : StyleValue) : Prop where
  number : key = "opacity" ∨ key = "zIndex" → ∃ n, v = .number n
  length : ∀ name ∈ lengthProperties, camelCase name = key →
    ∃ text, v = .text text ∧ IsLength (autoProperties.contains name) unit text

/-- The properties whose values are checked. -/
def checkedProperties : List String := strictNumericProperties ++ lengthProperties

variable {unit property value key : String} {v : StyleValue} {es : List (String × StyleValue)}

/-! ## Names

What stands under a name was set by a declaration whose property has another
spelling. The lemmas on hyphens lead from the name to the property, unless a
hyphen left no trace. -/

/-- The names of numbers are those of properties that are checked. -/
theorem exists_of_numberKey (h : key = "opacity" ∨ key = "zIndex") :
    ∃ name ∈ strictNumericProperties, camelCase name = key := by
  rcases h with rfl | rfl
  · exact ⟨"opacity", .head _, by decide +kernel⟩
  · exact ⟨"z-index", .tail _ (.head _), by decide +kernel⟩

/-- The checked properties are known ones. -/
theorem mem_known_of_mem_checked {name : String} (h : name ∈ checkedProperties) :
    name ∈ knownProperties := by
  have hstrict : ∀ p ∈ strictNumericProperties, p ∈ numericProperties := by decide
  rcases List.mem_append.mp h with h | h
  · exact List.mem_append_right _ (hstrict name h)
  · exact List.mem_append_left _ (List.mem_append_right _ h)

/-- A property has the name of a checked one only if it is the same. -/
theorem eq_of_mem_checked {name : String} (hname : name ∈ checkedProperties)
    (hread : hyphenate (camelCase property).toList = property.toList)
    (h : camelCase name = camelCase property) : name = property :=
  eq_of_camelCase_eq (hyphenate_of_mem_known (mem_known_of_mem_checked hname)) hread h

/-- A property that is not checked admits every value, if its hyphens can be
read off. -/
theorem Admits.of_notMem_checked (hread : hyphenate (camelCase property).toList = property.toList)
    (hnot : property ∉ checkedProperties) : Admits unit (camelCase property) v where
  number hkey := by
    obtain ⟨name, hname, h⟩ := exists_of_numberKey hkey
    have hchecked := List.mem_append_left lengthProperties hname
    exact absurd (eq_of_mem_checked hchecked hread h ▸ hchecked) hnot
  length name hname h := by
    have hchecked := List.mem_append_right strictNumericProperties hname
    exact absurd (eq_of_mem_checked hchecked hread h ▸ hchecked) hnot

/-! ## Declarations

The seven ways to set properties are gone through once. For each it is
looked up in the tables which check the value has passed, and whether it is
the check of the name under which the value is written. -/

/-- A length may stand under its own name. -/
theorem Admits.of_length {l part : String} (hproperty : property ∈ lengthProperties)
    (h : length? (autoProperties.contains property) unit part = some l) :
    Admits unit (camelCase property) (.text l) := by
  have hread := hyphenate_of_mem_known
    (mem_known_of_mem_checked (List.mem_append_right _ hproperty))
  refine ⟨fun hkey => ?_, fun name hname hkey => ?_⟩
  · -- the two numbers are no lengths
    have hdisjoint : ∀ p ∈ strictNumericProperties, p ∉ lengthProperties := by decide +kernel
    obtain ⟨name, hname, hsame⟩ := exists_of_numberKey hkey
    obtain rfl := eq_of_mem_checked (List.mem_append_left _ hname) hread hsame
    exact absurd hproperty (hdisjoint name hname)
  · obtain rfl := eq_of_mem_checked (List.mem_append_right _ hname) hread hkey
    exact ⟨l, rfl, isLength_of_length? h⟩

/-- No number is a length by its name. -/
theorem notMem_lengthProperties : ∀ p ∈ numericProperties, p ∉ lengthProperties := by
  decide +kernel

/-- A number may stand under its own name. -/
theorem Admits.of_number {n : Number} (hproperty : property ∈ numericProperties) :
    Admits unit (camelCase property) (.number n) := by
  have hread := hyphenate_of_mem_known (List.mem_append_right _ hproperty)
  refine ⟨fun _ => ⟨n, rfl⟩, fun name hname hkey => ?_⟩
  obtain rfl := eq_of_mem_checked (List.mem_append_right _ hname) hread hkey
  exact absurd hname (notMem_lengthProperties name hproperty)

/-- A shorthand allows `auto` exactly when the properties that it stands for
do. -/
theorem of_mem_longhands : ∀ b ∈ longhands, ∀ name ∈ b.2,
    name ∈ lengthProperties ∧ autoProperties.contains name = autoProperties.contains b.1 := by
  decide +kernel

/-- A shorthand of lengths sets what may stand under each of its names. -/
theorem Admits.of_box {names : List String} {l part : String}
    (hnames : (property, names) ∈ boxNames) (hkey : key ∈ names)
    (h : length? (autoProperties.contains property) unit part = some l) :
    Admits unit key (.text l) := by
  rw [boxNames_eq] at hnames
  obtain ⟨b, hb, hbox⟩ := List.mem_map.mp hnames
  obtain ⟨rfl, rfl⟩ := Prod.mk.inj hbox
  obtain ⟨name, hname, rfl⟩ := List.mem_map.mp hkey
  obtain ⟨hlength, hauto⟩ := of_mem_longhands b hb name hname
  exact .of_length hlength (hauto ▸ h)

/-- The properties that shorthands set besides the checked ones. -/
def looseParts : List String :=
  ["border-radius", "border-width", "border-style", "border-color", "flex", "flex-grow",
    "flex-shrink"]

/-- The parts of borders and the factors of a `flex` are not checked. -/
theorem Admits.of_loosePart (hkey : key ∈ looseParts.map camelCase) : Admits unit key v := by
  have hall : ∀ name ∈ looseParts, name ∉ checkedProperties
      ∧ hyphenate (camelCase name).toList = name.toList := by decide +kernel
  obtain ⟨name, hname, rfl⟩ := List.mem_map.mp hkey
  exact .of_notMem_checked (hall name hname).2 (hall name hname).1

/-- **What a known property sets was checked.** -/
theorem Admits.of_expands (h : Expands unit property value es) (he : (key, v) ∈ es) :
    Admits unit key v
      ∨ property ∉ knownProperties ∧ camelCase property = key ∧ v = .text value := by
  cases h with
  | box hnames _ hlengths =>
    obtain ⟨hkey, hv⟩ := List.of_mem_zip he
    obtain ⟨l, hl, rfl⟩ := List.mem_map.mp hv
    obtain ⟨part, hpart⟩ := hlengths l hl
    exact Or.inl (.of_box hnames hkey hpart)
  | length hproperty hlength =>
    obtain ⟨rfl, rfl⟩ := Prod.mk.inj (List.mem_singleton.mp he)
    refine Or.inl ?_
    rcases hproperty with rfl | hproperty
    · exact .of_loosePart (.head _)
    · exact .of_length hproperty hlength
  | border _ b =>
    have hloose : ["borderWidth", "borderStyle", "borderColor"] ⊆ looseParts.map camelCase := by
      decide +kernel
    exact Or.inl (.of_loosePart (hloose (mem_names_border he)))
  | flex _ hentries =>
    refine Or.inl ?_
    cases hentries _ he with
    | whole => exact .of_loosePart (by decide +kernel)
    | factor hname =>
      have hloose : ["flexGrow", "flexShrink"] ⊆ looseParts.map camelCase := by decide +kernel
      exact .of_loosePart (hloose hname)
    | basis hlength =>
      have hname : camelCase "flex-basis" = "flexBasis" := by decide +kernel
      exact hname ▸ .of_length (by decide +kernel) hlength
  | number hproperty _ =>
    obtain ⟨rfl, rfl⟩ := Prod.mk.inj (List.mem_singleton.mp he)
    exact Or.inl (.of_number hproperty)
  | word hproperty hstrict _ =>
    obtain ⟨rfl, rfl⟩ := Prod.mk.inj (List.mem_singleton.mp he)
    have hread := hyphenate_of_mem_known (List.mem_append_right _ hproperty)
    -- words pass only where the property asks for no number
    refine Or.inl (.of_notMem_checked hread fun hchecked => ?_)
    rcases List.mem_append.mp hchecked with hmem | hmem
    · exact hstrict hmem
    · exact notMem_lengthProperties property hproperty hmem
  | other hproperty =>
    obtain ⟨rfl, rfl⟩ := Prod.mk.inj (List.mem_singleton.mp he)
    exact Or.inr ⟨hproperty, rfl, rfl⟩

end Style

/-! ## Stylesheets

A value in a style map is that of some declaration of some rule, and it was
checked with this declaration. Merging rules brings in no new values. -/

namespace Compile

open Style (Admits HasIdleHyphen StyleValue)

/-- The coercion of font weights does not touch checked values. -/
theorem admits_coerced {unit key : String} {v : StyleValue} (h : Admits unit key v) :
    Admits unit key (coerced key v) := by
  unfold coerced
  split
  · rename_i hkey
    have hweight : key = Style.camelCase "font-weight" := hkey.trans (by decide +kernel)
    rw [hweight]
    exact .of_notMem_checked (Style.hyphenate_of_mem_known (by decide +kernel)) (by decide +kernel)
  · exact h

/-- **A value of a style map was checked, or its property has an idle
hyphen.** In what a text compiles to, every value under `opacity` or
`zIndex` is a number, and every value under the name of a length is a
length, `auto` where that is allowed or a decimal number with the default
unit or a known one. The only others come from a declaration of a rule that
names the selector, whose property is not a known one but has the same camel
case as one by a hyphen that leaves no trace; such a value is that of the
declaration as it stands.

What is checked is decided by the property as it is written, and where the
value goes by its camel case. Without idle hyphens the camel case tells the
property (`hyphenate_camelCase`), so that nothing gets under the name of a
property with a check that was not checked. -/
theorem admits_or_idle {σ : Type} [FileStore σ] {store : σ} {unit : String} {path : Path}
    {source : String} {compiled : CompiledStylesheet} {selector key : String} {v : StyleValue}
    (hcompiled : compileSource store unit path source = .ok compiled)
    (hvalue : valueAt compiled.styles selector key = some v) :
    Admits unit key v
      ∨ ∃ inlined, inlineImports store path source = .ok inlined
        ∧ ∃ rule ∈ (Css.Stylesheet.ofText inlined).rules, selector ∈ selectorsOf rule
          ∧ ∃ d ∈ plainOf unit rule, d.property ∉ Style.knownProperties
            ∧ HasIdleHyphen d.property.toList ∧ Style.camelCase d.property = key
            ∧ v = .text (Text.trim d.value) := by
  obtain ⟨inlined, hinlined, hrules⟩ := Except.bind_eq_ok.mp hcompiled
  cases hrules
  rw [valueAt_rules_eq, Option.map_eq_some_iff] at hvalue
  obtain ⟨w, hw, rfl⟩ := hvalue
  obtain ⟨d, hd, hset⟩ := List.exists_of_findSome?_eq_some hw
  obtain ⟨rule, hrule, hselector, hplain⟩ := mem_declarationsFor (List.mem_reverse.mp hd)
  obtain ⟨es, hes, hmem⟩ := Style.exists_of_valueIn hset
  rcases Admits.of_expands (Style.expands_of_expand hes) hmem with hadmits | ⟨hnot, rfl, rfl⟩
  · exact Or.inl (admits_coerced hadmits)
  by_cases hidle : HasIdleHyphen d.property.toList
  · have hsame : coerced (Style.camelCase d.property) (.text (Text.trim d.value))
        = .text (Text.trim d.value) := by
      unfold coerced
      split <;> rfl
    exact Or.inr ⟨inlined, hinlined, rule, hrule, hselector, d, hplain, hnot, hidle, rfl, hsame⟩
  · have hread := Style.hyphenate_camelCase (isSmall_of_mem_plainOf hrule hplain) hidle
    exact Or.inl (admits_coerced (.of_notMem_checked hread fun hchecked =>
      hnot (Style.mem_known_of_mem_checked hchecked)))

/-- A stylesheet with a shorthand, and with a property that has an idle
hyphen. -/
def respelled : String := ".a{margin:1.50 auto}@media x{.a{opacity-:red}}"

/-- What the shorthand sets was checked, as its name has no idle hyphen. -/
theorem admits_or_idle_of_respelled :
    ∃ compiled, compileSource ({} : Memory) "px" ⟨"/p/a.css"⟩ respelled = .ok compiled
      ∧ valueAt compiled.styles ".a" "marginTop" = some (.text "1.50px")
      ∧ Admits "px" "marginTop" (.text "1.50px") := by
  obtain ⟨compiled, h⟩ := Except.exists_eq_ok (r := compileSource ({} : Memory) "px"
    ⟨"/p/a.css"⟩ respelled) (by decide +kernel)
  have hinline : inlineImports ({} : Memory) ⟨"/p/a.css"⟩ respelled = .ok respelled :=
    Except.eq_ok_of_toOption (by decide +kernel)
  have hvalue : ((compileSource ({} : Memory) "px" ⟨"/p/a.css"⟩ respelled).toOption.bind fun c =>
      valueAt c.styles ".a" "marginTop") = some (.text "1.50px") := by decide +kernel
  rw [h] at hvalue
  refine ⟨compiled, h, hvalue, ?_⟩
  rcases admits_or_idle h hvalue with hadmits | ⟨inlined, hinlined, rule, hrule, -, d, hd, hbad⟩
  · exact hadmits
  · obtain rfl : respelled = inlined := Except.ok.inj (hinline.symm.trans hinlined)
    have hnot : ∀ rule ∈ (Css.Stylesheet.ofText respelled).rules, ∀ d ∈ plainOf "px" rule,
        Style.camelCase d.property ≠ "marginTop" := by decide +kernel
    exact absurd hbad.2.2.1 (hnot rule hrule d hd)

/-- **The check can be passed by**: a hyphen at the end of the name is
enough. -/
theorem opacity_of_idle :
    ∃ compiled, compileSource ({} : Memory) "px" ⟨"/p/a.css"⟩ ".a{opacity-:red}" = .ok compiled
      ∧ valueAt compiled.styles ".a" "opacity" = some (.text "red")
      ∧ ¬Admits "px" "opacity" (.text "red") := by
  obtain ⟨compiled, h⟩ := Except.exists_eq_ok (r := compileSource ({} : Memory) "px"
    ⟨"/p/a.css"⟩ ".a{opacity-:red}") (by decide +kernel)
  have hvalue : ((compileSource ({} : Memory) "px" ⟨"/p/a.css"⟩
      ".a{opacity-:red}").toOption.bind fun c => valueAt c.styles ".a" "opacity")
        = some (.text "red") := by decide +kernel
  rw [h] at hvalue
  refine ⟨compiled, h, hvalue, fun hadmits => ?_⟩
  obtain ⟨n, hn⟩ := hadmits.number (Or.inl rfl)
  cases hn

end Compile

end Stylebook
