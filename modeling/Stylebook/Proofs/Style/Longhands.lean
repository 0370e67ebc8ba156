import Stylebook.Proofs.Style.Validation
import Stylebook.Proofs.Text.Words

/-!
# Shorthands and their longhands

A shorthand of lengths gives one to each side or corner of a box, and a
`flex` one to its factors and its basis. Each of these parts has a property
of its own, the longhand, which could as well be declared by itself
(`StandsFor`). The names and the checks of the two ways are not the same
text: a shorthand puts its keys together and goes by its own rule on `auto`,
a longhand takes the camel case of its name and goes by the table of
lengths.

They agree nevertheless. Both ways come down to reading the parts as lengths
(`toOption_expand_box`, `toOption_mapM_expand`), so one has a meaning
exactly when the other one has, and then they set the same properties in the
same order (`transform_eq_of_standsFor`).
-/

namespace Stylebook

namespace Style

variable {unit name part value : String} {d : PlainDeclaration} {parts : List String}

/-! ## What a shorthand stands for

The relation says for each form of a shorthand what one would write without
it. It is not asked that the parts are lengths: whether they are is to be
the same question for both. -/

/-- **The parts at the four sides of a box**, from the top and clockwise: a
missing one is as the one opposite, and one that has no opposite yet as the
one at the top. -/
def aroundBox : List String → List String
  | [] => []
  | top :: rest =>
    let right := rest[0]?.getD top
    [top, right, rest[1]?.getD top, rest[2]?.getD right]

/-- **The longhands that a shorthand stands for**, in order, with the parts
of its value. -/
inductive StandsFor : PlainDeclaration → List PlainDeclaration → Prop
  /-- Four lengths; of the radii there are two parts at least. -/
  | box {b : String × List String} {value : String} (hb : b ∈ longhands)
      (hsome : Text.words value ≠ []) (hfour : (Text.words value).length ≤ 4)
      (hradius : b.1 = "border-radius" → 2 ≤ (Text.words value).length) :
      StandsFor ⟨b.1, value⟩ (b.2.zipWith PlainDeclaration.mk (aroundBox (Text.words value)))
  /-- Two factors. -/
  | factors {value grow shrink : String} (hparts : Text.words value = [grow, shrink])
      (hgrow : (number? grow).isSome) (hshrink : (number? shrink).isSome) :
      StandsFor ⟨"flex", value⟩ [⟨"flex-grow", grow⟩, ⟨"flex-shrink", shrink⟩]
  /-- A factor and a basis. -/
  | basis {value grow basis : String} (hparts : Text.words value = [grow, basis])
      (hgrow : (number? grow).isSome) (hbasis : number? basis = none) :
      StandsFor ⟨"flex", value⟩ [⟨"flex-grow", grow⟩, ⟨"flex-basis", basis⟩]
  /-- Two factors and a basis. -/
  | flex {value grow shrink basis : String} (hparts : Text.words value = [grow, shrink, basis])
      (hgrow : (number? grow).isSome) (hshrink : (number? shrink).isSome) :
      StandsFor ⟨"flex", value⟩
        [⟨"flex-grow", grow⟩, ⟨"flex-shrink", shrink⟩, ⟨"flex-basis", basis⟩]

/-! ## Around a box -/

/-- The parts that a shorthand is given are made four in this way. -/
theorem fourParts_eq (d : PlainDeclaration) (hsome : parts ≠ []) (hfour : parts.length ≤ 4) :
    fourParts d parts = .ok (aroundBox parts) := by
  match parts, hsome, hfour with
  | [_], _, _ => rfl
  | [_, _], _, _ => rfl
  | [_, _, _], _, _ => rfl
  | [_, _, _, _], _, _ => rfl

/-- One to four parts go around a box as four. -/
theorem length_aroundBox (h : parts ≠ []) : (aroundBox parts).length = 4 := by
  cases parts with
  | nil => exact absurd rfl h
  | cons top rest => rfl

/-- Each part that goes around a box is one of those that are there. -/
theorem mem_of_mem_aroundBox (h : part ∈ aroundBox parts) : part ∈ parts := by
  have hgetD : ∀ {rest : List String} {i : Nat} {top other : String}, other ∈ top :: rest →
      rest[i]?.getD other ∈ top :: rest := by
    intro rest i top other hother
    cases hi : rest[i]? with
    | none => exact hother
    | some p => exact List.mem_cons_of_mem top (List.mem_of_getElem? hi)
  cases parts with
  | nil => cases h
  | cons top rest =>
    have hall : ∀ p ∈ aroundBox (top :: rest), p ∈ top :: rest := by
      unfold aroundBox
      simp only [List.forall_mem_cons]
      exact ⟨List.mem_cons_self, hgetD List.mem_cons_self, hgetD List.mem_cons_self,
        hgetD (hgetD List.mem_cons_self), List.forall_mem_nil _⟩
    exact hall part h

/-! ## One declaration

The program looks at the name of a property in several tables, in a certain
order. These lemmas say which table decides, for the names that are needed. -/

/-- A part is checked as its longhand is. -/
theorem toOption_lengthFor (d : PlainDeclaration) (unit longhand part : String) :
    (lengthFor d unit longhand part).toOption
      = length? (autoProperties.contains longhand) unit part := by
  unfold lengthFor
  cases length? (autoProperties.contains longhand) unit part <;> rfl

/-- The shorthands of lengths share one way. -/
theorem expandTrimmed_of_mem_boxNames {names : List String} (h : (d.property, names) ∈ boxNames)
    (hradius : d.property = "border-radius" → 2 ≤ (Text.words d.value).length) :
    expandTrimmed d unit = expandBox d unit names (Text.words d.value) := by
  obtain ⟨property, value⟩ := d
  simp only [boxNames, List.mem_cons, List.not_mem_nil, or_false, Prod.mk.injEq] at h
  rcases h with ⟨rfl, rfl⟩ | ⟨rfl, rfl⟩ | ⟨rfl, rfl⟩ | ⟨rfl, rfl⟩
  · rfl
  · rfl
  · rfl
  · exact if_pos (hradius rfl)

/-- No length and no number is a shorthand. -/
theorem ne_of_mem_tables : ∀ name ∈ lengthProperties ++ numericProperties,
    name ≠ "margin" ∧ name ≠ "padding" ∧ name ≠ "border-width" ∧ name ≠ "border-radius"
      ∧ name ≠ "border" ∧ name ≠ "flex" := by
  decide +kernel

/-- A single length goes by the table of lengths. -/
theorem expandTrimmed_of_length (hlength : d.property ∈ lengthProperties)
    (hheight : d.property ≠ "line-height") (hone : (Text.words d.value).length = 1) :
    expandTrimmed d unit = expandLength d unit := by
  obtain ⟨hmargin, hpadding, hwidth, hradius, hborder, hflex⟩ :=
    ne_of_mem_tables _ (List.mem_append_left _ hlength)
  unfold expandTrimmed
  simp only [hmargin, hpadding, hwidth, hradius, hborder, hflex, hheight, hone,
    List.contains_iff_mem.mpr hlength, decide_false, Bool.or_false, Bool.false_eq_true, if_false,
    if_true]

/-- A number goes by the table of numbers. -/
theorem expandTrimmed_of_number (hnumeric : d.property ∈ numericProperties) {n : Number}
    (hn : number? d.value = some n) :
    expandTrimmed d unit = .ok [(camelCase d.property, .number n)] := by
  obtain ⟨hmargin, hpadding, hwidth, hradius, hborder, hflex⟩ :=
    ne_of_mem_tables _ (List.mem_append_right _ hnumeric)
  have hnot := notMem_lengthProperties _ hnumeric
  have hheight : d.property ≠ "line-height" := by
    intro h
    rw [h] at hnot
    exact hnot (by decide +kernel)
  have hlength : lengthProperties.contains d.property = false :=
    Bool.eq_false_iff.mpr fun h => hnot (List.contains_iff_mem.mp h)
  unfold expandTrimmed
  simp only [hmargin, hpadding, hwidth, hradius, hborder, hflex, hheight, hlength, hn,
    List.contains_iff_mem.mpr hnumeric, decide_false, Bool.or_false, Bool.false_eq_true, if_false,
    if_true]

/-! ## The parts as longhands -/

/-- A part that is a length is one under the name of its longhand. -/
theorem toOption_expand_length (hlength : name ∈ lengthProperties) (hheight : name ≠ "line-height")
    (hpart : part ∈ Text.words value) : (expand unit ⟨name, part⟩).toOption
      = (length? (autoProperties.contains name) unit part).map fun l =>
          [(camelCase name, .text l)] := by
  have htrimmed : PlainDeclaration.trimmed ⟨name, part⟩ = ⟨name, part⟩ :=
    congrArg (PlainDeclaration.mk name) (Text.trim_of_mem_words hpart)
  have hone : (Text.words part).length = 1 := by
    rw [Text.words_of_mem_words hpart]
    rfl
  rw [expand, htrimmed, expandTrimmed_of_length (d := ⟨name, part⟩) hlength hheight hone,
    expandLength, Except.toOption_bind, toOption_lengthFor]
  cases length? (autoProperties.contains name) unit part <;> rfl

/-- A part that is a number is one under the name of its longhand. -/
theorem expand_number (hnumeric : name ∈ numericProperties) (hpart : part ∈ Text.words value)
    {n : Number} (hn : number? part = some n) :
    expand unit ⟨name, part⟩ = .ok [(camelCase name, .number n)] := by
  have htrimmed : PlainDeclaration.trimmed ⟨name, part⟩ = ⟨name, part⟩ :=
    congrArg (PlainDeclaration.mk name) (Text.trim_of_mem_words hpart)
  rw [expand, htrimmed]
  exact expandTrimmed_of_number (d := ⟨name, part⟩) hnumeric hn

/-- **Longhands of one kind** have a meaning when their parts are lengths. -/
theorem toOption_mapM_expand {names : List String} {allowsAuto : Bool}
    (hnames : ∀ name ∈ names, name ∈ lengthProperties ∧ name ≠ "line-height"
      ∧ autoProperties.contains name = allowsAuto)
    (hparts : ∀ part ∈ parts, part ∈ Text.words value) (hcount : names.length = parts.length) :
    ((names.zipWith PlainDeclaration.mk parts).mapM (expand unit)).toOption
      = (parts.mapM (length? allowsAuto unit)).map fun ls =>
          (names.zip ls).map fun e => [(camelCase e.1, .text e.2)] := by
  rw [Except.toOption_mapM]
  induction names generalizing parts with
  | nil =>
    rw [List.eq_nil_of_length_eq_zero hcount.symm]
    rfl
  | cons name names ih =>
    cases parts with
    | nil => cases hcount
    | cons part parts =>
      obtain ⟨⟨hlength, hheight, hauto⟩, hnames⟩ := List.forall_mem_cons.mp hnames
      obtain ⟨hpart, hparts⟩ := List.forall_mem_cons.mp hparts
      rw [List.zipWith_cons_cons, List.mapM_cons, List.mapM_cons,
        toOption_expand_length hlength hheight hpart, hauto,
        ih hnames hparts (Nat.succ.inj hcount)]
      cases length? allowsAuto unit part with
      | none => rfl
      | some l => cases parts.mapM (length? allowsAuto unit) <;> rfl

/-! ## Shorthands

The two ways meet in the middle. What is left of either of them is the list
of the parts as lengths, with names that go with them. -/

/-- **A shorthand of lengths** has a meaning when its parts are lengths. -/
theorem toOption_expand_box {names : List String} (hnames : (name, names) ∈ boxNames)
    (hsome : Text.words value ≠ []) (hfour : (Text.words value).length ≤ 4)
    (hradius : name = "border-radius" → 2 ≤ (Text.words value).length) :
    (expand unit ⟨name, value⟩).toOption
      = ((aroundBox (Text.words value)).mapM
          (length? (autoProperties.contains name) unit)).map fun ls =>
            names.zip (ls.map .text) := by
  have hwords : Text.words (PlainDeclaration.trimmed ⟨name, value⟩).value = Text.words value :=
    Text.words_trim value
  have hexpand : expand unit ⟨name, value⟩
      = expandBox (PlainDeclaration.trimmed ⟨name, value⟩) unit names (Text.words value) := by
    rw [← hwords] at hradius ⊢
    exact expandTrimmed_of_mem_boxNames hnames hradius
  have hlengths : ((aroundBox (Text.words value)).mapM
      (lengthFor (PlainDeclaration.trimmed ⟨name, value⟩) unit name)).toOption
      = (aroundBox (Text.words value)).mapM (length? (autoProperties.contains name) unit) := by
    rw [Except.toOption_mapM]
    exact congrArg (fun f => (aroundBox (Text.words value)).mapM f)
      (funext (toOption_lengthFor _ unit name))
  rw [hexpand, expandBox, fourParts_eq _ hsome hfour, ← hlengths]
  show ((aroundBox (Text.words value)).mapM
    (lengthFor (PlainDeclaration.trimmed ⟨name, value⟩) unit name) >>= _).toOption = _
  rw [Except.toOption_bind, Option.map_eq_bind]
  rfl

/-! ## Lists of declarations

A shorthand is one declaration where its longhands are several. So the
comparison is one of lists, of all that they set. -/

/-- A list of declarations has a meaning if each of them has one, and then
it sets what they set. -/
theorem toOption_transform (unit : String) (ds : List PlainDeclaration) :
    (transform unit ds).toOption
      = (ds.mapM (expand unit)).toOption.map fun ess => .ofList ess.flatten := by
  rw [transform_eq_mapM, Except.toOption_bind, Option.map_eq_bind]
  rfl

/-- A single declaration sets what it says. -/
theorem toOption_transform_singleton (unit : String) (d : PlainDeclaration) :
    (transform unit [d]).toOption = (expand unit d).toOption.map .ofList := by
  rw [toOption_transform, Except.mapM_cons]
  cases expand unit d with
  | error e => rfl
  | ok es =>
    show some (Table.ofList (es ++ [])) = _
    rw [List.append_nil]
    rfl

/-- **Shorthands of lengths agree with their longhands.** -/
theorem transform_eq_of_box {b : String × List String} (hb : b ∈ longhands)
    (hsome : Text.words value ≠ []) (hfour : (Text.words value).length ≤ 4)
    (hradius : b.1 = "border-radius" → 2 ≤ (Text.words value).length) :
    (transform unit [⟨b.1, value⟩]).toOption = (transform unit
      (b.2.zipWith PlainDeclaration.mk (aroundBox (Text.words value)))).toOption := by
  have hbox : (b.1, b.2.map camelCase) ∈ boxNames := by
    rw [boxNames_eq]
    exact List.mem_map_of_mem hb
  have hheight : ∀ b ∈ longhands, b.2.length = 4 ∧ ∀ name ∈ b.2, name ≠ "line-height" := by
    decide +kernel
  have hnames : ∀ name ∈ b.2, name ∈ lengthProperties ∧ name ≠ "line-height"
      ∧ autoProperties.contains name = autoProperties.contains b.1 := by
    intro name hname
    obtain ⟨hlength, hauto⟩ := of_mem_longhands b hb name hname
    exact ⟨hlength, (hheight b hb).2 name hname, hauto⟩
  have hcount : b.2.length = (aroundBox (Text.words value)).length :=
    (hheight b hb).1.trans (length_aroundBox hsome).symm
  rw [toOption_transform_singleton, toOption_expand_box hbox hsome hfour hradius,
    toOption_transform, toOption_mapM_expand hnames (fun part => mem_of_mem_aroundBox) hcount,
    Option.map_map, Option.map_map]
  refine congrArg (Option.map · _) (funext fun ls => congrArg Table.ofList ?_)
  show (b.2.map camelCase).zip (ls.map StyleValue.text)
    = ((b.2.zip ls).map fun e => [(camelCase e.1, StyleValue.text e.2)]).flatten
  rw [List.zip_map, ← List.flatMap_def, ← List.map_eq_flatMap]
  rfl

/-! ## The parts of a flex

A flex has parts of two kinds, told by whether they are numbers. So a last
part that is no number is a basis, and it may still be no length. -/

/-- A part that is a number is read as that. -/
theorem numberFor_of_number {n : Number} (h : number? part = some n) (d : PlainDeclaration) :
    numberFor d part = .ok (.number n) := by
  rw [numberFor, h]

/-- The names of the parts of a flex. -/
theorem camelCase_flex : camelCase "flex-grow" = "flexGrow"
    ∧ camelCase "flex-shrink" = "flexShrink" ∧ camelCase "flex-basis" = "flexBasis" := by
  decide +kernel

/-- A flex sets what its parts say. -/
theorem expand_flex (unit value : String) : expand unit ⟨"flex", value⟩
    = expandFlex (PlainDeclaration.trimmed ⟨"flex", value⟩) unit (Text.words value) := by
  have htrimmed : ∀ v, expandTrimmed ⟨"flex", v⟩ unit
      = expandFlex ⟨"flex", v⟩ unit (Text.words v) := fun _ => rfl
  rw [expand, PlainDeclaration.trimmed, htrimmed, Text.words_trim]

/-- The first part of a `flex` is a factor by itself. -/
theorem expand_grow {grow : String} (hgrow : grow ∈ Text.words value) {g : Number}
    (hg : number? grow = some g) :
    expand unit ⟨"flex-grow", grow⟩ = .ok [("flexGrow", .number g)] := by
  rw [← camelCase_flex.1]
  exact expand_number (by decide) hgrow hg

/-- The second part is one too, if it is a number. -/
theorem expand_shrink {shrink : String} (hshrink : shrink ∈ Text.words value) {g : Number}
    (hg : number? shrink = some g) :
    expand unit ⟨"flex-shrink", shrink⟩ = .ok [("flexShrink", .number g)] := by
  rw [← camelCase_flex.2.1]
  exact expand_number (by decide) hshrink hg

/-- The last part is a length by itself. -/
theorem toOption_expand_basis {basis : String} (hbasis : basis ∈ Text.words value) :
    (expand unit ⟨"flex-basis", basis⟩).toOption
      = (length? (autoProperties.contains "flex-basis") unit basis).map fun l =>
          [("flexBasis", .text l)] := by
  rw [← camelCase_flex.2.2]
  exact toOption_expand_length (by decide +kernel) (by decide) hbasis

/-- **A `flex` with two factors agrees with them.** -/
theorem transform_eq_of_factors {grow shrink : String}
    (hparts : Text.words value = [grow, shrink]) {g s : Number} (hg : number? grow = some g)
    (hs : number? shrink = some s) : transform unit [⟨"flex", value⟩]
      = transform unit [⟨"flex-grow", grow⟩, ⟨"flex-shrink", shrink⟩] := by
  obtain ⟨hgrow, hshrink⟩ : grow ∈ Text.words value ∧ shrink ∈ Text.words value := by
    simp [hparts]
  rw [transform_eq_mapM, transform_eq_mapM, Except.mapM_cons, Except.mapM_cons, Except.mapM_cons,
    expand_grow hgrow hg, expand_shrink hshrink hs, expand_flex, hparts, expandFlex,
    numberFor_of_number hg, hs]
  rfl

/-- **A `flex` with a factor and a basis agrees with them.** -/
theorem transform_eq_of_basis {grow basis : String} (hparts : Text.words value = [grow, basis])
    {g : Number} (hg : number? grow = some g) (hnone : number? basis = none) :
    (transform unit [⟨"flex", value⟩]).toOption
      = (transform unit [⟨"flex-grow", grow⟩, ⟨"flex-basis", basis⟩]).toOption := by
  obtain ⟨hgrow, hbasis⟩ : grow ∈ Text.words value ∧ basis ∈ Text.words value := by
    simp [hparts]
  have hflex : (expand unit ⟨"flex", value⟩).toOption
      = (length? (autoProperties.contains "flex-basis") unit basis).map fun l =>
        [("flexGrow", .number g), ("flexBasis", .text l)] := by
    rw [expand_flex, hparts, expandFlex, numberFor_of_number hg, hnone,
      ← toOption_lengthFor (PlainDeclaration.trimmed ⟨"flex", value⟩)]
    cases lengthFor (PlainDeclaration.trimmed ⟨"flex", value⟩) unit "flex-basis" basis <;> rfl
  rw [toOption_transform_singleton, hflex, toOption_transform, Except.toOption_mapM,
    List.mapM_cons, List.mapM_cons, expand_grow hgrow hg, toOption_expand_basis hbasis]
  cases length? (autoProperties.contains "flex-basis") unit basis <;> rfl

/-- **A `flex` with two factors and a basis agrees with them.** -/
theorem transform_eq_of_flex {grow shrink basis : String}
    (hparts : Text.words value = [grow, shrink, basis]) {g s : Number}
    (hg : number? grow = some g) (hs : number? shrink = some s) :
    (transform unit [⟨"flex", value⟩]).toOption = (transform unit
      [⟨"flex-grow", grow⟩, ⟨"flex-shrink", shrink⟩, ⟨"flex-basis", basis⟩]).toOption := by
  obtain ⟨hgrow, hshrink, hbasis⟩ :
      grow ∈ Text.words value ∧ shrink ∈ Text.words value ∧ basis ∈ Text.words value := by
    simp [hparts]
  have hflex : (expand unit ⟨"flex", value⟩).toOption
      = (length? (autoProperties.contains "flex-basis") unit basis).map fun l =>
        [("flexGrow", .number g), ("flexShrink", .number s), ("flexBasis", .text l)] := by
    rw [expand_flex, hparts, expandFlex, numberFor_of_number hg, numberFor_of_number hs,
      ← toOption_lengthFor (PlainDeclaration.trimmed ⟨"flex", value⟩)]
    cases lengthFor (PlainDeclaration.trimmed ⟨"flex", value⟩) unit "flex-basis" basis <;> rfl
  rw [toOption_transform_singleton, hflex, toOption_transform, Except.toOption_mapM,
    List.mapM_cons, List.mapM_cons, List.mapM_cons, expand_grow hgrow hg,
    expand_shrink hshrink hs, toOption_expand_basis hbasis]
  cases length? (autoProperties.contains "flex-basis") unit basis <;> rfl

/-- **Shorthands agree with their longhands.** A shorthand has a meaning
exactly when the list of the longhands that it stands for has one, and then
both set the same properties, in the same order. The parts are checked as
those of the longhands are, with one check for both, and only the messages
of their failures tell which of the two was written. -/
theorem transform_eq_of_standsFor {d : PlainDeclaration} {ds : List PlainDeclaration}
    (h : StandsFor d ds) (unit : String) :
    (transform unit [d]).toOption = (transform unit ds).toOption := by
  cases h with
  | box hb hsome hfour hradius => exact transform_eq_of_box hb hsome hfour hradius
  | factors hparts hgrow hshrink =>
    obtain ⟨g, hg⟩ := Option.isSome_iff_exists.mp hgrow
    obtain ⟨s, hs⟩ := Option.isSome_iff_exists.mp hshrink
    exact congrArg Except.toOption (transform_eq_of_factors hparts hg hs)
  | basis hparts hgrow hbasis =>
    obtain ⟨g, hg⟩ := Option.isSome_iff_exists.mp hgrow
    exact transform_eq_of_basis hparts hg hbasis
  | flex hparts hgrow hshrink =>
    obtain ⟨g, hg⟩ := Option.isSome_iff_exists.mp hgrow
    obtain ⟨s, hs⟩ := Option.isSome_iff_exists.mp hshrink
    exact transform_eq_of_flex hparts hg hs

/-- The longhands of a margin with three parts. -/
def margins : List PlainDeclaration :=
  [⟨"margin-top", "1"⟩, ⟨"margin-right", "AUTO"⟩, ⟨"margin-bottom", "2%"⟩,
    ⟨"margin-left", "AUTO"⟩]

/-- The longhands of a `flex` with three parts, the last of which is no
length. -/
def flexes : List PlainDeclaration :=
  [⟨"flex-grow", "1"⟩, ⟨"flex-shrink", "2"⟩, ⟨"flex-basis", "x"⟩]

/-- A margin that is accepted, and a `flex` that is not because of its
basis. -/
theorem transform_eq_of_standsFor_of_margins :
    ((transform "px" [⟨"margin", " 1 AUTO  2%"⟩]).toOption = (transform "px" margins).toOption
        ∧ (transform "px" margins).toOption.isSome)
      ∧ (transform "px" [⟨"flex", "1 2 x"⟩]).toOption = (transform "px" flexes).toOption
        ∧ (transform "px" flexes).toOption = none := by
  have hlonghands : ["margin-top", "margin-right", "margin-bottom", "margin-left"].zipWith
      PlainDeclaration.mk (aroundBox (Text.words " 1 AUTO  2%")) = margins := by decide +kernel
  have hmargin : StandsFor ⟨"margin", " 1 AUTO  2%"⟩ margins := by
    rw [← hlonghands]
    exact .box (b := ("margin", _)) (.head _) (by decide +kernel) (by decide +kernel) (by decide)
  refine ⟨⟨transform_eq_of_standsFor hmargin "px", by decide +kernel⟩,
    transform_eq_of_standsFor (.flex ?_ ?_ ?_) "px", by decide +kernel⟩
  · decide +kernel
  · decide +kernel
  · decide +kernel

end Style

end Stylebook
