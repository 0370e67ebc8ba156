import Stylebook.Proofs.Style.Declarations
import Stylebook.Proofs.Style.Naming
import Stylebook.Store.Memory
import Stylebook.Text.Json

/-!
# Font weights

The framework takes a font weight as a text, while `font-weight: 700` reads
as a number. A rule makes its own weight a text before its properties are
merged with those of other rules. The name `fontWeight` is that of more than
one property, as `font-weight-` has the same camel case, but no shorthand
sets it. So the weight of a selector is that of the last declaration with
this camel case, and always a text (`Compile.weight_of_compileSource`).
-/

namespace Stylebook

namespace Style

/-- **The text of a font weight**: of `font-weight` itself the number in
JSON if its value is one, and else the value as it stands. -/
def weightText (property value : String) : String :=
  match if property = "font-weight" then number? value else none with
  | some n => (Json.number n).render
  | none => value

variable {unit property value name : String} {v : StyleValue} {es : List (String × StyleValue)}

/-- The JSON of a number is its spelling. -/
theorem render_number (n : Number) : (Json.number n).render = n.spell :=
  String.ofList_toList

/-- A weight that is a number is written as JSON writes it. -/
theorem weightText_of_number {n : Number} (h : number? value = some n) :
    weightText "font-weight" value = (Json.number n).render := by
  rw [weightText, if_pos rfl, h]

/-- A value that is no number, or one of another property, stays as it is. -/
theorem weightText_of_none (h : property = "font-weight" → number? value = none) :
    weightText property value = value := by
  unfold weightText
  split
  · rename_i n hn
    split at hn
    · rw [h ‹_›] at hn
      cases hn
    · cases hn
  · rfl

/-- A single entry has its name. -/
theorem find?_singleton : Entries.find? name [(camelCase property, v)].reverse
    = if camelCase property = name then some v else none := rfl

/-- What sets other names only sets no font weight. -/
theorem weight_of_forall_ne (hproperty : camelCase property ≠ "fontWeight")
    (h : ∀ e ∈ es, e.1 ≠ "fontWeight") :
    (Entries.find? "fontWeight" es.reverse).map StyleValue.asText
      = if camelCase property = "fontWeight" then some (.text (weightText property value))
        else none := by
  have hnone : Entries.find? "fontWeight" es.reverse = none := by
    rw [Entries.find?_eq_none_iff, Entries.names, List.map_reverse, List.mem_reverse, List.mem_map]
    rintro ⟨e, he, hname⟩
    exact h e he hname
  rw [if_neg hproperty, hnone]
  rfl

/-- Of the known properties only `font-weight` has the name. -/
theorem camelCase_ne_fontWeight (hknown : property ∈ knownProperties)
    (hne : property ≠ "font-weight") : camelCase property ≠ "fontWeight" := by
  have hname : camelCase "font-weight" = "fontWeight" := by decide +kernel
  rw [← hname]
  exact fun h => hne (eq_of_mem_known hknown (by decide +kernel) h)

/-- No shorthand of lengths sets a font weight. -/
theorem fontWeight_notMem_of_mem_boxNames {names : List String}
    (h : (property, names) ∈ boxNames) :
    camelCase property ≠ "fontWeight" ∧ "fontWeight" ∉ names := by
  have hall : ∀ b ∈ longhands, (b.1 ∈ knownProperties ∧ b.1 ≠ "font-weight")
      ∧ ∀ name ∈ b.2, name ∈ lengthProperties ∧ name ≠ "font-weight" := by decide +kernel
  rw [boxNames_eq] at h
  obtain ⟨b, hb, heq⟩ := List.mem_map.mp h
  obtain ⟨rfl, rfl⟩ := Prod.mk.inj heq
  obtain ⟨⟨hknown, hne⟩, hnames⟩ := hall b hb
  refine ⟨camelCase_ne_fontWeight hknown hne, fun hmem => ?_⟩
  obtain ⟨name, hname, hcamel⟩ := List.mem_map.mp hmem
  obtain ⟨hlength, hne⟩ := hnames name hname
  exact camelCase_ne_fontWeight
    (List.mem_append_left _ (List.mem_append_right _ hlength)) hne hcamel

/-- **The font weight of a declaration.** -/
theorem weight_of_expands (h : Expands unit property value es) :
    (Entries.find? "fontWeight" es.reverse).map StyleValue.asText
      = if camelCase property = "fontWeight" then some (.text (weightText property value))
        else none := by
  cases h with
  | box hnames _ _ =>
    obtain ⟨hne, hnot⟩ := fontWeight_notMem_of_mem_boxNames hnames
    refine weight_of_forall_ne hne ?_
    rintro ⟨k, w⟩ he rfl
    exact hnot (List.of_mem_zip he).1
  | length hproperty _ =>
    have hne : camelCase property ≠ "fontWeight" := by
      rcases hproperty with rfl | hproperty
      · exact camelCase_ne_fontWeight (by decide +kernel) (by decide)
      · refine camelCase_ne_fontWeight
          (List.mem_append_left _ (List.mem_append_right _ hproperty)) ?_
        rintro rfl
        exact absurd hproperty (by decide +kernel)
    exact weight_of_forall_ne hne (List.forall_mem_singleton.mpr hne)
  | border hproperty b =>
    have hne : camelCase property ≠ "fontWeight" := by
      rw [hproperty]
      exact camelCase_ne_fontWeight (by decide) (by decide)
    have hall : ∀ k ∈ ["borderWidth", "borderStyle", "borderColor"], k ≠ "fontWeight" := by decide
    exact weight_of_forall_ne hne fun e he => hall _ (mem_names_border he)
  | flex hproperty hentries =>
    have hne : camelCase property ≠ "fontWeight" := by
      rw [hproperty]
      exact camelCase_ne_fontWeight (by decide) (by decide)
    have hall : ∀ k ∈ ["flex", "flexGrow", "flexShrink", "flexBasis"], k ≠ "fontWeight" := by decide
    exact weight_of_forall_ne hne fun e he => hall _ (hentries e he).mem_names
  | number hproperty hnumber =>
    by_cases hcamel : camelCase property = "fontWeight"
    · obtain rfl : property = "font-weight" := by
        by_contra hne
        exact camelCase_ne_fontWeight (List.mem_append_right _ hproperty) hne hcamel
      rw [find?_singleton, if_pos hcamel, if_pos hcamel, weightText_of_number hnumber,
        render_number]
      rfl
    · exact weight_of_forall_ne hcamel (List.forall_mem_singleton.mpr hcamel)
  | word _ _ hnumber =>
    rw [find?_singleton, weightText_of_none fun _ => hnumber]
    split <;> rfl
  | other hproperty =>
    have hne : property ≠ "font-weight" := by
      rintro rfl
      exact hproperty (by decide +kernel)
    rw [find?_singleton, weightText_of_none fun heq => absurd heq hne]
    split <;> rfl

end Style

/-! ## Stylesheets

The weight is made a text for each rule by itself, before rules are merged.
So it is a text wherever it comes from, and the last one stays as it is with
all properties. -/

namespace Compile

open Style (PlainDeclaration StyleValue camelCase weightText)

variable {unit : String} {rs : List Css.StyleRule}

/-- **The declaration that sets the font weight** of a selector: the last
one with its name. -/
def lastWeight (unit selector : String) (rs : List Css.StyleRule) : Option PlainDeclaration :=
  (declarationsFor unit selector rs).reverse.find? fun d => camelCase d.property = "fontWeight"

/-- It is found where no other one follows. -/
theorem lastWeight_eq_some {selector : String} {before after : List PlainDeclaration}
    {d : PlainDeclaration} (hsplit : declarationsFor unit selector rs = before ++ d :: after)
    (hd : camelCase d.property = "fontWeight")
    (hafter : ∀ e ∈ after, camelCase e.property ≠ "fontWeight") :
    lastWeight unit selector rs = some d := by
  have hnone : after.reverse.find? (fun d => camelCase d.property = "fontWeight") = none :=
    List.find?_eq_none.mpr fun e he => by simpa using hafter e (List.mem_reverse.mp he)
  rw [lastWeight, hsplit, List.reverse_append, List.reverse_cons, List.append_assoc,
    List.find?_append, hnone, Option.none_or, List.singleton_append]
  exact List.find?_cons_of_pos (decide_eq_true hd)

/-- **The font weight of a selector** is the text of the last declaration
that sets it. -/
theorem weightAt_rules (path : Path) (imports : List String) (selector : String) :
    valueAt (rules path unit imports rs).styles selector "fontWeight"
      = (lastWeight unit selector rs).map fun d =>
          .text (weightText d.property (Text.trim d.value)) := by
  have hone : ∀ d ∈ (declarationsFor unit selector rs).reverse,
      (Style.valueIn unit "fontWeight" d).map (coerced "fontWeight")
        = (Option.guard (fun d => camelCase d.property = "fontWeight") d).map fun d =>
            .text (weightText d.property (Text.trim d.value)) := by
    intro d hd
    obtain ⟨es, hes⟩ := hasMeaning_of_mem (List.mem_reverse.mp hd)
    rw [Style.valueIn, Style.entriesOf_of_ok hes]
    refine (Style.weight_of_expands (Style.expands_of_expand hes)).trans ?_
    by_cases hcamel : camelCase d.property = "fontWeight" <;> simp [Option.guard, hcamel]
  rw [valueAt_rules_eq, lastWeight, List.find?_eq_findSome?_guard, List.map_findSome?,
    List.map_findSome?, ← List.head?_filterMap, ← List.head?_filterMap]
  exact congrArg List.head? (List.filterMap_congr hone)

/-- **A font weight is a text.** Of a stylesheet that compiles, take the
declarations that count for a selector, those of its rules and of the
imported ones. Every value under `fontWeight` is a text; it is that of the
last declaration whose camel case is `fontWeight`; and when this is a
`font-weight` whose value is a number, it is the number as it stands in
JSON.

Each rule makes its weight a text before it is merged with others. The order
of the two makes no difference, since merging moves values and does not look
at them. -/
theorem weight_of_compileSource {σ : Type} [FileStore σ] {store : σ} {path : Path}
    {source : String} {compiled : CompiledStylesheet}
    (h : compileSource store unit path source = .ok compiled) (selector : String) :
    (∀ v, valueAt compiled.styles selector "fontWeight" = some v → ∃ text, v = .text text)
      ∧ ∃ inlined, inlineImports store path source = .ok inlined
        ∧ valueAt compiled.styles selector "fontWeight"
          = (lastWeight unit selector (Css.Stylesheet.ofText inlined).rules).map
            (fun d => .text (weightText d.property (Text.trim d.value)))
        ∧ ∀ before d after n,
          declarationsFor unit selector (Css.Stylesheet.ofText inlined).rules
            = before ++ d :: after →
          (∀ e ∈ after, camelCase e.property ≠ "fontWeight") → d.property = "font-weight" →
          Style.number? (Text.trim d.value) = some n →
          valueAt compiled.styles selector "fontWeight" = some (.text (Json.number n).render) := by
  obtain ⟨inlined, hinlined, hrules⟩ := Except.bind_eq_ok.mp h
  cases hrules
  refine ⟨fun v hv => ?_, inlined, hinlined, weightAt_rules _ _ _, ?_⟩
  · rw [weightAt_rules, Option.map_eq_some_iff] at hv
    obtain ⟨d, -, rfl⟩ := hv
    exact ⟨_, rfl⟩
  · intro before d after n hsplit hafter hproperty hnumber
    have hcamel : camelCase d.property = "fontWeight" := by
      rw [hproperty]
      decide +kernel
    rw [weightAt_rules, lastWeight_eq_some hsplit hcamel hafter, Option.map_some, hproperty,
      Style.weightText_of_number hnumber]

/-- A stylesheet that sets a weight under two names and after an import, and
another one in a rule that has no meaning. -/
def weighty : String :=
  "@import \"b.css\";.a{font-weight-:9;font-weight:7.50}.a{font-weight:x;width:z}"

/-- The files of a stylesheet and of the one that it imports. -/
def weightyFiles : Memory :=
  .ofList [(⟨"/p/a.css"⟩, weighty), (⟨"/p/b.css"⟩, ".a,.b{font-weight:+0700}")]

/-- The last rule does not count, and the number before it stands as JSON
has it. -/
theorem weight_of_compileSource_of_weighty :
    ∃ compiled, compileSource weightyFiles "px" ⟨"/p/a.css"⟩ weighty = .ok compiled
      ∧ valueAt compiled.styles ".a" "fontWeight" = some (.text "7.5")
      ∧ valueAt compiled.styles ".b" "fontWeight" = some (.text "700") := by
  obtain ⟨compiled, h⟩ := Except.exists_eq_ok (r := compileSource weightyFiles "px"
    ⟨"/p/a.css"⟩ weighty) (by decide +kernel)
  have hinline : inlineImports weightyFiles ⟨"/p/a.css"⟩ weighty
      = .ok (".a,.b{font-weight:+0700}"
        ++ ".a{font-weight-:9;font-weight:7.50}.a{font-weight:x;width:z}") :=
    Except.eq_ok_of_toOption (by decide +kernel)
  obtain ⟨inlined, hinlined, ha, -⟩ := (weight_of_compileSource h ".a").2
  obtain ⟨inlined', hinlined', hb, -⟩ := (weight_of_compileSource h ".b").2
  obtain rfl := Except.ok.inj (hinline.symm.trans hinlined)
  obtain rfl := Except.ok.inj (hinline.symm.trans hinlined')
  refine ⟨compiled, h, ?_⟩
  rw [ha, hb]
  decide +kernel

end Compile

end Stylebook
