import Stylebook.Proofs.Style.Declarations

/-!
# Splitting a rule

Declarations write into a table one after the other, and a table that is
written over another one keeps what it overwrites in its place. So a list of
declarations may be cut anywhere: the tables of its two parts, the second
one written over the first, are the table of the list, with the names in the
same order (`Style.transform_append`). What fails is the first part that has
no meaning.

A rule is one such list. Its font weight is made a text before its
properties are merged, and they are merged under each of its selectors.
Neither of the two notices the cut (`Compile.addRule_append`). So a
stylesheet may have two rules in the place of one, as long as each of them
has a meaning (`styles_eq_of_cut`).
-/

namespace Stylebook

/-! ## Lists of declarations

That it may be cut anywhere rests on how a table is written: what is written
again keeps its place, so the order of names does not tell where the cut
was. -/

namespace Style

/-- **The table of two lists** is that of the first with that of the second
written over it, if both have a meaning. -/
theorem transform_append (unit : String) (a b : List PlainDeclaration) :
    transform unit (a ++ b) = do
      let t ← transform unit a
      let u ← transform unit b
      return t.insertAll u.entries := by
  have hover : ∀ es es' : List (String × StyleValue),
      Table.ofList (es ++ es') = (Table.ofList es).insertAll (Table.ofList es').entries := by
    intro es es'
    rw [Table.ofList, Table.insertAll_append, Table.ofList, Table.ofList, Table.insertAll_insertAll]
    rfl
  rw [transform_eq_mapM, transform_eq_mapM, transform_eq_mapM, List.mapM_append, bind_assoc,
    bind_assoc]
  refine bind_congr fun as => ?_
  rw [bind_assoc, pure_bind, bind_assoc]
  refine bind_congr fun bs => ?_
  rw [pure_bind, pure_bind, List.flatten_append, hover]

end Style

/-! ## Rules

A rule adds more to it than its declarations. It names selectors and has a
weight, and if it has no meaning it leaves a diagnostic. With two rules
there would be two diagnostics, or one rule that counts and one that does
not; hence both parts are to have a meaning. -/

namespace Compile

open Style (Properties transform)

variable {unit : String} {selectors : List Css.Selector} {a b : List Css.Declaration}

/-- Declarations are made plain one by one. -/
theorem plainOf_append (unit : String) (selectors : List Css.Selector)
    (a b : List Css.Declaration) : plainOf unit ⟨selectors, a ++ b⟩
      = plainOf unit ⟨selectors, a⟩ ++ plainOf unit ⟨selectors, b⟩ := List.filterMap_append

/-- **The properties of two rules**, their font weights as texts, are those
of the rule that has the declarations of both. -/
theorem ruleProperties_append {t u : Properties}
    (ha : transform unit (plainOf unit ⟨selectors, a⟩) = .ok t)
    (hb : transform unit (plainOf unit ⟨selectors, b⟩) = .ok u) :
    ∃ t' u' : Properties, ruleProperties unit ⟨selectors, a⟩ = .ok t'
      ∧ ruleProperties unit ⟨selectors, b⟩ = .ok u'
      ∧ ruleProperties unit ⟨selectors, a ++ b⟩ = .ok (t'.insertAll u'.entries) := by
  have hab : transform unit (plainOf unit ⟨selectors, a ++ b⟩) = .ok (t.insertAll u.entries) := by
    rw [plainOf_append, Style.transform_append, ha, hb]
    rfl
  obtain ⟨t', ht', hnames, hget⟩ := ruleProperties_of_ok unit ha
  obtain ⟨u', hu', hnames', hget'⟩ := ruleProperties_of_ok unit hb
  obtain ⟨w, hw, hwnames, hwget⟩ := ruleProperties_of_ok unit hab
  have heq : w = t'.insertAll u'.entries := by
    refine Table.eq_of_names_of_get? ?_ fun name => ?_
    · rw [hwnames, Table.names_insertAll, Table.names_insertAll, hnames]
      exact congrArg (fun names => (t.names ++ names).eraseDups) hnames'.symm
    · rw [hwget, Table.get?_insertAll, Table.get?_insertAll, hget, hget', Option.map_or]
  exact ⟨t', u', ht', hu', heq ▸ hw⟩

/-- **Merging twice under the same selectors** is merging once what is
written over. -/
theorem merge_merge (styles : StyleMap) (ss : List String) (t u : Properties) :
    merge (declare (merge (declare styles ss) ss t) ss) ss u
      = merge (declare styles ss) ss (t.insertAll u.entries) := by
  refine Table.eq_of_names_of_get? ?_ fun s => ?_
  · simp only [names_merge, names_declare, Entries.eraseDups_eraseDups_append,
      Entries.eraseDups_append_append_self]
  · simp only [get?_merge, get?_declare]
    by_cases hs : s ∈ ss
    · simp [hs, Table.insertAll_insertAll]
    · simp [hs]

/-- **Two rules do what the rule with the declarations of both does.** -/
theorem addRule_append (path : Path) (compiled : CompiledStylesheet) {t u : Properties}
    (ha : transform unit (plainOf unit ⟨selectors, a⟩) = .ok t)
    (hb : transform unit (plainOf unit ⟨selectors, b⟩) = .ok u) :
    addRule path unit (addRule path unit compiled ⟨selectors, a⟩) ⟨selectors, b⟩
      = addRule path unit compiled ⟨selectors, a ++ b⟩ := by
  obtain ⟨t', u', ht', hu', hab⟩ := ruleProperties_append ha hb
  by_cases hnil : Css.Selector.canonicalTexts selectors = []
  · have hnone : ∀ ds compiled, addRule path unit compiled ⟨selectors, ds⟩ = compiled :=
      fun ds compiled => addRule_of_nil path unit compiled _ hnil
    rw [hnone, hnone, hnone]
  · have hmerges : ∀ ds properties compiled,
        ruleProperties unit ⟨selectors, ds⟩ = .ok properties →
        addRule path unit compiled ⟨selectors, ds⟩ = { compiled with
          styles := merge (declare compiled.styles (Css.Selector.canonicalTexts selectors))
            (Css.Selector.canonicalTexts selectors) properties } :=
      fun ds properties compiled => addRule_of_ok path unit compiled ⟨selectors, ds⟩ hnil
    rw [hmerges a t' _ ht', hmerges b u' _ hu', hmerges (a ++ b) _ _ hab, merge_merge]

/-- The imports are carried along. -/
theorem addRule_imports (path : Path) (unit : String) (compiled : CompiledStylesheet)
    (imports : List String) (rule : Css.StyleRule) :
    addRule path unit { compiled with imports := imports } rule
      = { addRule path unit compiled rule with imports := imports } := by
  unfold addRule
  dsimp only
  split
  · rfl
  · split <;> rfl

/-- So they are by all rules. -/
theorem rules_imports (path : Path) (unit : String) (imports imports' : List String)
    (rs : List Css.StyleRule) : rules path unit imports' rs
      = { rules path unit imports rs with imports := imports' } := by
  induction rs using List.reverseRecOn with
  | nil => rfl
  | append_singleton rs rule ih => rw [rules_concat, rules_concat, ih, addRule_imports]

/-- **One rule is cut in two**, each of which has a meaning: in the place of
a rule stand two with its selectors, the first one with the first
declarations and the second one with the others. -/
inductive Cut (unit : String) : List Css.StyleRule → List Css.StyleRule → Prop
  | intro {selectors : List Css.Selector} {a b : List Css.Declaration} {t u : Properties}
      (ha : transform unit (plainOf unit ⟨selectors, a⟩) = .ok t)
      (hb : transform unit (plainOf unit ⟨selectors, b⟩) = .ok u)
      (before after : List Css.StyleRule) :
      Cut unit (before ++ ⟨selectors, a ++ b⟩ :: after)
        (before ++ ⟨selectors, a⟩ :: ⟨selectors, b⟩ :: after)

/-- The rules before and behind the cut are the same, so nothing changes. -/
theorem Cut.rules_eq {rs rs' : List Css.StyleRule} (h : Cut unit rs rs') (path : Path)
    (imports : List String) : rules path unit imports rs' = rules path unit imports rs := by
  obtain ⟨ha, hb, before, after⟩ := h
  rw [rules, rules, List.foldl_append, List.foldl_append, List.foldl_cons, List.foldl_cons,
    List.foldl_cons, addRule_append path _ ha hb]

end Compile

/-! ## Stylesheets

Two sources may come to the same rules in many ways. What is asked is only
that their inlined texts have these rules, so nothing is said of where a cut
stands in a text. -/

/-- **Declarations may be cut anywhere.** The table of two lists of
declarations is that of the first, with the entries of the second written
over it in order; it fails as the first list does, or else as the second
one. So if two stylesheets with their imports inlined have the same rules,
but for one that is cut in two which both have a meaning, they compile to
the same styles, the texts of font weights included, with the same
diagnostics.

Both parts of a cut need a meaning: a rule without one is left out as a
whole, and of two rules the other one would stay. -/
theorem styles_eq_of_cut (unit : String) :
    (∀ a b : List Style.PlainDeclaration, Style.transform unit (a ++ b) = do
      let t ← Style.transform unit a
      let u ← Style.transform unit b
      return t.insertAll u.entries)
      ∧ ∀ {σ σ' : Type} [FileStore σ] [FileStore σ'] {store : σ} {store' : σ'} {path : Path}
        {source source' inlined inlined' : String},
        inlineImports store path source = .ok inlined →
        inlineImports store' path source' = .ok inlined' →
        Compile.Cut unit (Css.Stylesheet.ofText inlined).rules
          (Css.Stylesheet.ofText inlined').rules →
        ∃ compiled compiled', compileSource store unit path source = .ok compiled
          ∧ compileSource store' unit path source' = .ok compiled'
          ∧ compiled'.styles = compiled.styles
          ∧ compiled'.diagnostics = compiled.diagnostics := by
  refine ⟨Style.transform_append unit, ?_⟩
  intro σ σ' _ _ store store' path source source' inlined inlined' hinlined hinlined' hcut
  have hsource : compileSource store unit path source
      = .ok (Compile.rules path unit (importTargets source)
        (Css.Stylesheet.ofText inlined).rules) := by
    rw [compileSource, hinlined]
    rfl
  have hsource' : compileSource store' unit path source'
      = .ok (Compile.rules path unit (importTargets source')
        (Css.Stylesheet.ofText inlined').rules) := by
    rw [compileSource, hinlined']
    rfl
  refine ⟨_, _, hsource, hsource', ?_, ?_⟩
  · rw [hcut.rules_eq, Compile.rules_imports path unit (importTargets source)]
  · rw [hcut.rules_eq, Compile.rules_imports path unit (importTargets source)]

/-- A flex and a font weight. -/
def firstDeclarations : List Css.Declaration :=
  [⟨"flex", [.number "1", .blank, .number "2"]⟩, ⟨"font-weight", [.number "7"]⟩]

/-- A part of the flex again, and a colour. -/
def secondDeclarations : List Css.Declaration :=
  [⟨"flex-grow", [.number "3"]⟩, ⟨"color", [.ident "tan"]⟩]

/-- The rule in front of the others, which has no meaning. -/
def idleRule : Css.StyleRule := ⟨[⟨[.cls "b"]⟩], [⟨"top", [.ident "x"]⟩]⟩

/-- All the declarations in one rule, inside of an at-rule. -/
def uncut : String :=
  ".b\x7btop:x\x7d@media x\x7b.a,.a\x7bflex:1 2;font-weight:7;flex-grow:3;color:tan\x7d\x7d"

/-- The same declarations in two rules. -/
def twofold : String :=
  ".b\x7btop:x\x7d@media x\x7b.a,.a\x7bflex:1 2;font-weight:7\x7d" ++
    ".a,.a\x7bflex-grow:3;color:tan\x7d\x7d"

/-- **The cut does not show**, although the second rule sets a name of the
first one again. -/
theorem styles_eq_of_cut_of_twofold :
    ∃ compiled compiled', compileSource ({} : Memory) "px" ⟨"/p/a.css"⟩ uncut = .ok compiled
      ∧ compileSource ({} : Memory) "px" ⟨"/p/a.css"⟩ twofold = .ok compiled'
      ∧ compiled'.styles = compiled.styles
      ∧ compiled'.diagnostics = compiled.diagnostics := by
  have hinlined : inlineImports ({} : Memory) ⟨"/p/a.css"⟩ uncut = .ok uncut :=
    Except.eq_ok_of_toOption (by decide +kernel)
  have hinlined' : inlineImports ({} : Memory) ⟨"/p/a.css"⟩ twofold = .ok twofold :=
    Except.eq_ok_of_toOption (by decide +kernel)
  have hrules : (Css.Stylesheet.ofText uncut).rules = [idleRule]
      ++ [⟨[⟨[.cls "a"]⟩, ⟨[.cls "a"]⟩], firstDeclarations ++ secondDeclarations⟩] := by
    decide +kernel
  have hrules' : (Css.Stylesheet.ofText twofold).rules = [idleRule]
      ++ [⟨[⟨[.cls "a"]⟩, ⟨[.cls "a"]⟩], firstDeclarations⟩,
        ⟨[⟨[.cls "a"]⟩, ⟨[.cls "a"]⟩], secondDeclarations⟩] := by
    decide +kernel
  obtain ⟨t, ht⟩ := Except.exists_eq_ok (r := Style.transform "px" (Compile.plainOf "px"
    ⟨[⟨[.cls "a"]⟩, ⟨[.cls "a"]⟩], firstDeclarations⟩)) (by decide +kernel)
  obtain ⟨u, hu⟩ := Except.exists_eq_ok (r := Style.transform "px" (Compile.plainOf "px"
    ⟨[⟨[.cls "a"]⟩, ⟨[.cls "a"]⟩], secondDeclarations⟩)) (by decide +kernel)
  refine (styles_eq_of_cut "px").2 hinlined hinlined' ?_
  rw [hrules, hrules']
  exact .intro ht hu [idleRule] []

end Stylebook
