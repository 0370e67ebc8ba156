import Stylebook.Proofs.Except
import Stylebook.Style.Transform

/-!
# What one declaration sets

A declaration that has a meaning sets properties in one of seven ways
(`Expands`): four lengths under the names of a shorthand, a single length,
the parts of a border, those of a flex, a number, a word in place of a
number, or its value as it stands. Which way it is hangs on the name of the
property, so a declaration of a property that is not among `knownProperties`
is always of the last kind.

`expands_of_expand` is the only place where `expand` is taken apart by its
cases. Which lengths there are is `length?`, and it is left alone here.
-/

namespace Stylebook.Style

/-- The shorthands of four lengths, each with the names that it sets. -/
def boxNames : List (String × List String) :=
  [("margin", sides.map fun s => camelCase "margin" ++ s),
    ("padding", sides.map fun s => camelCase "padding" ++ s),
    ("border-width", sides.map fun s => "border" ++ s ++ "Width"),
    ("border-radius", corners.map fun s => "border" ++ s ++ "Radius")]

/-- The shorthands of four lengths, each with the properties that it stands
for. -/
def longhands : List (String × List String) :=
  [("margin", ["margin-top", "margin-right", "margin-bottom", "margin-left"]),
    ("padding", ["padding-top", "padding-right", "padding-bottom", "padding-left"]),
    ("border-width", ["border-top-width", "border-right-width", "border-bottom-width",
      "border-left-width"]),
    ("border-radius", ["border-top-left-radius", "border-top-right-radius",
      "border-bottom-right-radius", "border-bottom-left-radius"])]

/-- The names that a shorthand sets are those of its properties. -/
theorem boxNames_eq : boxNames = longhands.map fun b => (b.1, b.2.map camelCase) := by
  decide +kernel

/-- **The properties that are treated on their own.** The value of any other
one stays as it is. -/
def knownProperties : List String :=
  ["margin", "padding", "border-width", "border-radius", "border", "flex"] ++ lengthProperties
    ++ numericProperties

/-- What may be set by a `flex`. -/
inductive FlexEntry (unit : String) : String × StyleValue → Prop
  | whole (v : StyleValue) : FlexEntry unit ("flex", v)
  | factor {name : String} (hname : name ∈ ["flexGrow", "flexShrink"]) (n : Number) :
      FlexEntry unit (name, .number n)
  | basis {part l : String}
      (hlength : length? (autoProperties.contains "flex-basis") unit part = some l) :
      FlexEntry unit ("flexBasis", .text l)

/-- **What a declaration sets**, for a value without white space around it. -/
inductive Expands (unit property value : String) : List (String × StyleValue) → Prop
  /-- Four lengths under the names of a shorthand. -/
  | box {names lengths : List String} (hnames : (property, names) ∈ boxNames)
      (hcount : lengths.length = names.length)
      (hlengths : ∀ l ∈ lengths, ∃ part,
        length? (autoProperties.contains property) unit part = some l) :
      Expands unit property value (names.zip (lengths.map .text))
  /-- A single length. -/
  | length {l : String} (hproperty : property = "border-radius" ∨ property ∈ lengthProperties)
      (hlength : length? (autoProperties.contains property) unit value = some l) :
      Expands unit property value [(camelCase property, .text l)]
  | border (hproperty : property = "border") (b : BorderParts) :
      Expands unit property value b.entries
  | flex {es : List (String × StyleValue)} (hproperty : property = "flex")
      (hentries : ∀ e ∈ es, FlexEntry unit e) : Expands unit property value es
  /-- A number. -/
  | number {n : Number} (hproperty : property ∈ numericProperties)
      (hnumber : number? value = some n) :
      Expands unit property value [(camelCase property, .number n)]
  /-- A word where a number is not necessary. -/
  | word (hproperty : property ∈ numericProperties)
      (hstrict : property ∉ strictNumericProperties) (hnumber : number? value = none) :
      Expands unit property value [(camelCase property, .text value)]
  /-- The value of any other property. -/
  | other (hproperty : property ∉ knownProperties) :
      Expands unit property value [(camelCase property, .text value)]

/-! ## The names that borders and flexes set

Both set some of a few names. Which of them is a matter of their parts. -/

/-- A border sets no other names than these. -/
theorem mem_names_border {b : BorderParts} {e : String × StyleValue} (h : e ∈ b.entries) :
    e.1 ∈ ["borderWidth", "borderStyle", "borderColor"] := by
  obtain ⟨⟨name, part⟩, hmem, hpart⟩ := List.mem_filterMap.mp h
  obtain ⟨text, -, rfl⟩ := Option.map_eq_some_iff.mp hpart
  exact List.mem_map_of_mem (f := Prod.fst) hmem

/-- A flex sets no other names than these. -/
theorem FlexEntry.mem_names {unit : String} {e : String × StyleValue} (h : FlexEntry unit e) :
    e.1 ∈ ["flex", "flexGrow", "flexShrink", "flexBasis"] := by
  cases h with
  | whole => exact .head _
  | factor hname =>
    have hsub : ["flexGrow", "flexShrink"] ⊆ ["flex", "flexGrow", "flexShrink", "flexBasis"] := by
      decide
    exact hsub hname
  | basis => exact List.mem_of_getLast? rfl

/-! ## The parts of declarations

Each way to set properties has its own check and its own failures. Here only
what succeeds is looked at, and for this each way is one lemma. -/

variable {d : PlainDeclaration} {unit : String} {parts : List String}
  {es : List (String × StyleValue)}

/-- A part is a length if it passes the check of its property. -/
theorem lengthFor_eq_ok {longhand part l : String} :
    lengthFor d unit longhand part = .ok l
      ↔ length? (autoProperties.contains longhand) unit part = some l := by
  unfold lengthFor
  cases length? (autoProperties.contains longhand) unit part <;> simp

/-- What a part gives that is read as a number is a number. -/
theorem numberFor_eq_ok {part : String} {v : StyleValue} (h : numberFor d part = .ok v) :
    ∃ n, v = .number n := by
  unfold numberFor at h
  split at h
  · exact ⟨_, (Except.ok.inj h).symm⟩
  · cases h

/-- The parts of a box shorthand are made four. -/
theorem length_of_fourParts {four : List String} (h : fourParts d parts = .ok four) :
    four.length = 4 := by
  unfold fourParts at h
  split at h <;> cases h <;> rfl

/-- A box shorthand sets a length under each of its names. -/
theorem expands_of_expandBox {names : List String} (h : expandBox d unit names parts = .ok es)
    (hcount : names.length = 4) (hnames : (d.property, names) ∈ boxNames) :
    Expands unit d.property d.value es := by
  obtain ⟨four, hfour, h⟩ := Except.bind_eq_ok.mp h
  obtain ⟨lengths, hlengths, h⟩ := Except.bind_eq_ok.mp h
  cases h
  refine .box hnames ?_ fun l hl => ?_
  · rw [← (Except.mapM_eq_ok hlengths).length_eq, length_of_fourParts hfour, hcount]
  · obtain ⟨part, -, hpart⟩ := Except.exists_of_mem_mapM hlengths hl
    exact ⟨part, lengthFor_eq_ok.mp hpart⟩

/-- A single length is set under the name of the property. -/
theorem expands_of_expandLength
    (hproperty : d.property = "border-radius" ∨ d.property ∈ lengthProperties)
    (h : expandLength d unit = .ok es) : Expands unit d.property d.value es := by
  obtain ⟨l, hl, h⟩ := Except.bind_eq_ok.mp h
  cases h
  exact .length hproperty (lengthFor_eq_ok.mp hl)

/-- A border sets its parts. -/
theorem expands_of_expandBorder (hproperty : d.property = "border")
    (h : expandBorder d unit parts = .ok es) : Expands unit d.property d.value es := by
  unfold expandBorder at h
  split at h
  · cases h
  · split at h <;> cases h
    exact .border hproperty _

/-- A `flex` sets itself, or its factors and its basis. -/
theorem flexEntry_of_expandFlex (h : expandFlex d unit parts = .ok es) :
    ∀ e ∈ es, FlexEntry unit e := by
  have hfactor : ∀ {name part : String} {v : StyleValue}, name ∈ ["flexGrow", "flexShrink"] →
      numberFor d part = .ok v → FlexEntry unit (name, v) := by
    intro name part v hname hv
    obtain ⟨n, rfl⟩ := numberFor_eq_ok hv
    exact .factor hname n
  have hbasis : ∀ {part l : String}, lengthFor d unit "flex-basis" part = .ok l →
      FlexEntry unit ("flexBasis", .text l) := fun hl => .basis (lengthFor_eq_ok.mp hl)
  unfold expandFlex at h
  split at h
  case h_1 => cases h
  case h_2 single =>
    split at h
    · cases h
      exact List.forall_mem_singleton.mpr (.whole _)
    · obtain ⟨v, -, h⟩ := Except.bind_eq_ok.mp h
      cases h
      exact List.forall_mem_singleton.mpr (.whole _)
  case h_3 grow second =>
    obtain ⟨g, hg, h⟩ := Except.bind_eq_ok.mp h
    split at h
    · cases h
      exact List.forall_mem_cons.mpr ⟨hfactor (.head _) hg,
        List.forall_mem_singleton.mpr (.factor (.tail _ (.head _)) _)⟩
    · obtain ⟨l, hl, h⟩ := Except.bind_eq_ok.mp h
      cases h
      exact List.forall_mem_cons.mpr ⟨hfactor (.head _) hg,
        List.forall_mem_singleton.mpr (hbasis hl)⟩
  case h_4 grow shrink basis =>
    obtain ⟨g, hg, h⟩ := Except.bind_eq_ok.mp h
    obtain ⟨s, hs, h⟩ := Except.bind_eq_ok.mp h
    obtain ⟨l, hl, h⟩ := Except.bind_eq_ok.mp h
    cases h
    exact List.forall_mem_cons.mpr ⟨hfactor (.head _) hg,
      List.forall_mem_cons.mpr ⟨hfactor (.tail _ (.head _)) hs,
        List.forall_mem_singleton.mpr (hbasis hl)⟩⟩
  case h_5 => cases h

/-- A value without white space around it sets what its property says. -/
theorem expands_of_expandTrimmed (h : expandTrimmed d unit = .ok es) :
    Expands unit d.property d.value es := by
  unfold expandTrimmed at h
  dsimp only at h
  -- the tests in the order of the program, each of which leaves the rest to the next one
  by_cases hbox : (decide (d.property = "margin") || decide (d.property = "padding")) = true
  · rw [if_pos hbox] at h
    rw [Bool.or_eq_true, decide_eq_true_eq, decide_eq_true_eq] at hbox
    refine expands_of_expandBox h (List.length_map _) ?_
    rcases hbox with hbox | hbox <;> rw [hbox]
    · exact .head _
    · exact .tail _ (.head _)
  rw [if_neg hbox] at h
  by_cases hwidth : d.property = "border-width"
  · rw [if_pos hwidth] at h
    refine expands_of_expandBox h (List.length_map _) ?_
    rw [hwidth]
    exact .tail _ (.tail _ (.head _))
  rw [if_neg hwidth] at h
  by_cases hradius : d.property = "border-radius"
  · rw [if_pos hradius] at h
    split at h
    · refine expands_of_expandBox h (List.length_map _) ?_
      rw [hradius]
      exact .tail _ (.tail _ (.tail _ (.head _)))
    · exact expands_of_expandLength (Or.inl hradius) h
  rw [if_neg hradius] at h
  by_cases hborder : d.property = "border"
  · rw [if_pos hborder] at h
    exact expands_of_expandBorder hborder h
  rw [if_neg hborder] at h
  by_cases hflex : d.property = "flex"
  · rw [if_pos hflex] at h
    exact .flex hflex (flexEntry_of_expandFlex h)
  rw [if_neg hflex] at h
  by_cases hheight : d.property = "line-height"
  · rw [if_pos hheight] at h
    split at h
    · cases h
    · exact expands_of_expandLength (Or.inr (by simp [hheight, lengthProperties])) h
  rw [if_neg hheight] at h
  by_cases hlength : lengthProperties.contains d.property = true
  · rw [if_pos hlength] at h
    split at h
    · exact expands_of_expandLength (Or.inr (List.contains_iff_mem.mp hlength)) h
    · cases h
  rw [if_neg hlength] at h
  by_cases hnumeric : numericProperties.contains d.property = true
  · rw [if_pos hnumeric] at h
    have hproperty := List.contains_iff_mem.mp hnumeric
    cases hnumber : number? d.value with
    | some n =>
      rw [hnumber] at h
      cases h
      exact .number hproperty hnumber
    | none =>
      rw [hnumber] at h
      dsimp only at h
      split at h
      · cases h
      · rename_i hstrict
        cases h
        exact .word hproperty (fun hmem => hstrict (List.contains_iff_mem.mpr hmem)) hnumber
  rw [if_neg hnumeric] at h
  cases h
  -- no test held, so the property is not one that is known
  refine .other ?_
  rw [List.contains_iff_mem] at hlength hnumeric
  simp_all [knownProperties]

/-- **The ways in which a declaration sets properties.** -/
theorem expands_of_expand (h : expand unit d = .ok es) :
    Expands unit d.property (Text.trim d.value) es :=
  expands_of_expandTrimmed h

end Stylebook.Style
