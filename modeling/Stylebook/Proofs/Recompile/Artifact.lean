import Stylebook.Proofs.Path.Below
import Stylebook.Proofs.Recompile.Step
import Stylebook.Settings.Project

/-!
# The modules of different stylesheets

The module of a stylesheet stands below the cache directory as the
stylesheet stands below the root, under its stem and the extension of
modules (`Settings.HasModule`). The extension of the stylesheet is
forgotten, and stylesheets are told by it in any letter case. So two
stylesheets of which the paths differ in that letter case alone have one
module for both. All others have modules of their own, and what compiling or
removing one of them does is not seen in the module of the other
(`Settings.exists_keepsApart`).

The names of two points and an extension are left out: such a stem is a
point, and the path of the module ends in a step up. Without an extension
for modules it is the same with two points as a stem.
-/

namespace Stylebook

open Stylebook.Path

/-- **Two paths differ in the letter case of their extension**, or not at
all. -/
structure Path.SameButForCase (p q : Path) : Prop where
  directory : p.components.dropLast = q.components.dropLast
  stem : p.stem? = q.stem?
  extension : ∃ e e', p.extension? = some e ∧ q.extension? = some e'
    ∧ Text.sameIgnoringCase e e' = true

namespace Settings

variable {s : Settings} {root p q a b : Path} {dirs dirs' : List String}
  {stem stem' ext ext' : List Char}

/-- **A stylesheet below the root**, as normalizing leaves its path. -/
structure IsSheetBelow (s : Settings) (root p : Path) : Prop where
  normal : p.normalize = p
  below : p.IsBelow root
  sheet : s.isStylesheet p = true

/-- **The stem of a stylesheet names its module**: it is not a point, and
not two of them when modules have no extension. -/
def NamesModule (s : Settings) (p : Path) : Prop :=
  p.stem? ≠ some ['.'] ∧ (s.moduleExtension = "" → p.stem? ≠ some ['.', '.'])

instance (s : Settings) (p : Path) : Decidable (s.NamesModule p) :=
  inferInstanceAs (Decidable (_ ∧ (_ → _)))

/-- **A stylesheet has its module** below the cache directory, in the
directories that the stylesheet is in below the root. -/
structure HasModule (s : Settings) (root p a : Path) (dirs : List String)
    (stem ext : List Char) : Prop where
  artifact : (s.layout root).artifact p = .ok a
  directory : p.components.dropLast = root.components ++ dirs.map .name
  stem?_eq : p.stem? = some stem
  stem_ne_nil : stem ≠ []
  extension?_eq : p.extension? = some (String.ofList ext)
  components : a.components = (s.layout root).directory.components ++ dirs.map .name
    ++ [ofPiece (renamed stem s.moduleExtension)]

/-- The name of a stylesheet has a stem, since it has an extension. -/
theorem exists_stem_of_isStylesheet {name : List Char} (hsheet : s.isStylesheet p = true)
    (hfile : p.fileName? = some name) : ∃ stem ext, splitName name = (stem, some ext) := by
  rw [isStylesheet, extension?, hfile] at hsheet
  cases hsplit : splitName name with
  | mk stem ext? =>
    cases ext? with
    | none => simp [hsplit] at hsheet
    | some ext => exact ⟨stem, ext, rfl⟩

/-- **The module of a file below the root** stands in the directories that
the file is in, below the cache directory. -/
theorem exists_artifact (hext : '/' ∉ s.moduleExtension.toList) (hnormal : p.normalize = p)
    (hbelow : p.IsBelow root) : ∃ (a : Path) (dirs : List String) (name : String),
      (s.layout root).artifact p = .ok a
      ∧ p.components = root.components ++ dirs.map .name ++ [.name name]
      ∧ (Component.name name).IsStep
      ∧ a.components = (s.layout root).directory.components ++ dirs.map .name
        ++ [ofPiece (renamed (splitName name.toList).1 s.moduleExtension)] := by
  obtain ⟨names, hne, hnames⟩ := hbelow
  have hrelative := relativeTo?_of_names hnormal hne hnames
  have hsteps := isStep_of_names hnames
  obtain ⟨dirs, name, rfl⟩ := List.eq_nil_or_concat names |>.resolve_left hne
  rw [List.concat_eq_append, List.map_append, List.map_singleton] at hrelative hsteps hnames
  rw [← List.append_assoc] at hnames
  have hartifact : (s.layout root).artifact p = .ok (((s.layout root).directory.join
      (ofComponents (dirs.map .name ++ [.name name]))).withExtension s.moduleExtension) := by
    rw [CacheLayout.artifact, show p.relativeTo? (s.layout root).root = _ from hrelative]
    exact if_neg hext
  exact ⟨_, dirs, name, hartifact, hnames, hsteps _ (by simp),
    components_join_withExtension _ hsteps hext⟩

/-- **Every stylesheet below the root has its module.** -/
theorem exists_hasModule (hext : '/' ∉ s.moduleExtension.toList) (h : s.IsSheetBelow root p) :
    ∃ a dirs stem ext, s.HasModule root p a dirs stem ext := by
  obtain ⟨a, dirs, name, hartifact, hnames, -, hcomponents⟩ :=
    exists_artifact hext h.normal h.below
  have hfile := fileName?_of_components hnames
  obtain ⟨stem, ext, hsplit⟩ := exists_stem_of_isStylesheet h.sheet hfile
  obtain ⟨-, hstem, -⟩ := splitName_eq_some_iff.mp hsplit
  rw [hsplit] at hcomponents
  refine ⟨a, dirs, stem, ext, hartifact, ?_, ?_, hstem, ?_, hcomponents⟩
  · rw [hnames, List.dropLast_concat]
  · rw [stem?, hfile, Option.map_some, hsplit]
  · rw [extension?, hfile, Option.bind_some, hsplit]
    rfl

/-- The stem names the module exactly if the module does not end in two
points. -/
theorem HasModule.namesModule_iff (h : s.HasModule root p a dirs stem ext) :
    s.NamesModule p ↔ renamed stem s.moduleExtension ≠ ['.', '.'] := by
  simp [NamesModule, h.stem?_eq, renamed_eq_points_iff h.stem_ne_nil]

/-- **A module that is named** is below the cache directory. -/
theorem HasModule.isBelow (h : s.HasModule root p a dirs stem ext) (hname : s.NamesModule p) :
    a.IsBelow (s.layout root).directory := by
  have hpoints := h.namesModule_iff.mp hname
  refine ⟨dirs ++ [String.ofList (renamed stem s.moduleExtension)], by simp, ?_⟩
  rw [h.components, ofPiece_of_ne (renamed_ne_point h.stem_ne_nil) hpoints, List.map_append,
    List.append_assoc]
  rfl

/-- **Two modules are the same** exactly if the stylesheets differ in the
letter case of their extensions at most. -/
theorem HasModule.same_iff (hp : s.HasModule root p a dirs stem ext)
    (hq : s.HasModule root q b dirs' stem' ext') (hsheetp : s.isStylesheet p = true)
    (hsheetq : s.isStylesheet q = true) (hname : s.NamesModule p ∨ s.NamesModule q) :
    a.same b = true ↔ p.SameButForCase q := by
  have hextension : Text.sameIgnoringCase (String.ofList ext) (String.ofList ext') = true := by
    rw [isStylesheet, hp.extension?_eq] at hsheetp
    rw [isStylesheet, hq.extension?_eq] at hsheetq
    simp only [Text.sameIgnoringCase, beq_iff_eq] at hsheetp hsheetq ⊢
    rw [hsheetp, hsheetq]
  rw [Path.same_iff, hp.components, hq.components]
  constructor
  · intro h
    obtain ⟨hdirs, hlast⟩ := List.append_inj' h rfl
    have hrenamed := ofPiece_injective (List.singleton_inj.mp hlast)
    -- where the module is a step up, its name does not tell the stem
    have hpoints : renamed stem s.moduleExtension ≠ ['.', '.'] := by
      rcases hname with hname | hname
      · exact hp.namesModule_iff.mp hname
      · rw [hrenamed]
        exact hq.namesModule_iff.mp hname
    refine ⟨?_, ?_, _, _, hp.extension?_eq, hq.extension?_eq, hextension⟩
    · rw [hp.directory, hq.directory, List.append_cancel_left hdirs]
    · rw [hp.stem?_eq, hq.stem?_eq, renamed_inj hpoints hrenamed]
  · intro h
    have hdirs := h.directory
    rw [hp.directory, hq.directory, List.append_cancel_left_eq] at hdirs
    have hstem := h.stem
    rw [hp.stem?_eq, hq.stem?_eq, Option.some.injEq] at hstem
    rw [hdirs, hstem]

/-- **Two stylesheets have their modules apart**, as far as their stems name
these: below the cache directory, and at two paths, unless the stylesheets
differ in the letter case of their extensions alone. Then the files of a
compilation of the one, or of the removal of its module, have the module of
the other as it was. -/
structure KeepsApart (s : Settings) (root p q a b : Path) : Prop where
  left : (s.layout root).artifact p = .ok a
  right : (s.layout root).artifact q = .ok b
  left_below : s.NamesModule p → a.IsBelow (s.layout root).directory
  right_below : s.NamesModule q → b.IsBelow (s.layout root).directory
  same_iff : s.NamesModule p ∨ s.NamesModule q → (a.same b = true ↔ p.SameButForCase q)
  unaffected : s.NamesModule p ∨ s.NamesModule q → ¬ p.SameButForCase q → ∀ m : Memory,
    PathMap.get? ((s.project root).compileAndWrite m p).2.files b = PathMap.get? m.files b
      ∧ PathMap.get? ((s.project root).removeModule m p).2.files b = PathMap.get? m.files b

/-- **Stylesheets have their modules apart**, unless their paths differ in
the letter case of the extension alone. A module stands in the cache
directory as its stylesheet stands below the root, with the module extension
in the place of the other one. So its path tells the directories and the
stem of the stylesheet, and of the extension only that it is that of a
stylesheet, which is asked without regard to letter case. -/
theorem exists_keepsApart (hext : '/' ∉ s.moduleExtension.toList) (hp : s.IsSheetBelow root p)
    (hq : s.IsSheetBelow root q) : ∃ a b, s.KeepsApart root p q a b := by
  obtain ⟨a, dirs, stem, ext, ha⟩ := exists_hasModule hext hp
  obtain ⟨b, dirs', stem', ext', hb⟩ := exists_hasModule hext hq
  have hsame := ha.same_iff hb hp.sheet hq.sheet
  have hother : s.NamesModule p ∨ s.NamesModule q → ¬ p.SameButForCase q →
      ∀ r ∈ [p], ∀ output, (s.project root).layout.artifact r = .ok output →
        output.same b = false := by
    intro hname hcase r hr output houtput
    obtain rfl := List.mem_singleton.mp hr
    obtain rfl := Except.ok.inj (ha.artifact.symm.trans houtput)
    exact Bool.eq_false_iff.mpr fun heq => hcase ((hsame hname).mp heq)
  refine ⟨a, b, ha.artifact, hb.artifact, ha.isBelow, hb.isBelow, hsame, ?_⟩
  intro hname hcase m
  have hfiles := hother hname hcase
  exact ⟨(Project.OnlyModules.compileAndWrite List.mem_cons_self m).files b hfiles,
    (Project.OnlyModules.removeModule List.mem_cons_self m).files b hfiles⟩

/-- A name with two points, and a name that starts with one. -/
theorem exists_keepsApart_of_points :
    '/' ∉ ({ cacheDirectory := ⟨".cache"⟩ } : Settings).moduleExtension.toList
      ∧ ({ cacheDirectory := ⟨".cache"⟩ } : Settings).IsSheetBelow ⟨"/p"⟩ ⟨"/p/x/a.b.css"⟩
      ∧ ({ cacheDirectory := ⟨".cache"⟩ } : Settings).IsSheetBelow ⟨"/p"⟩ ⟨"/p/x/.a.CSS"⟩
      ∧ ∃ a b, ({ cacheDirectory := ⟨".cache"⟩ } : Settings).KeepsApart ⟨"/p"⟩
          ⟨"/p/x/a.b.css"⟩ ⟨"/p/x/.a.CSS"⟩ a b ∧ a.same b = false := by
  have hext : '/' ∉ ({ cacheDirectory := ⟨".cache"⟩ } : Settings).moduleExtension.toList := by
    decide
  have hp : ({ cacheDirectory := ⟨".cache"⟩ } : Settings).IsSheetBelow ⟨"/p"⟩ ⟨"/p/x/a.b.css"⟩ :=
    ⟨by decide +kernel, ⟨["x", "a.b.css"], by simp, by decide +kernel⟩, by decide +kernel⟩
  have hq : ({ cacheDirectory := ⟨".cache"⟩ } : Settings).IsSheetBelow ⟨"/p"⟩ ⟨"/p/x/.a.CSS"⟩ :=
    ⟨by decide +kernel, ⟨["x", ".a.CSS"], by simp, by decide +kernel⟩, by decide +kernel⟩
  obtain ⟨a, b, h⟩ := exists_keepsApart hext hp hq
  refine ⟨hext, hp, hq, a, b, h, Bool.eq_false_iff.mpr fun heq => ?_⟩
  have hstem := ((h.same_iff (Or.inl (by decide +kernel))).mp heq).stem
  exact absurd hstem (by decide +kernel)

/-- **Letter case and points bring modules together.** Two stylesheets with
their extension in small letters and in capitals have one module. A
stylesheet of which the stem is a point has a module that is not below the
cache directory, and without an extension for modules a stylesheet with two
points as its stem has the same one. -/
theorem artifact_of_capitals_and_points :
    (({ cacheDirectory := ⟨".cache"⟩ } : Settings).IsSheetBelow ⟨"/p"⟩ ⟨"/p/a.css"⟩
        ∧ ({ cacheDirectory := ⟨".cache"⟩ } : Settings).IsSheetBelow ⟨"/p"⟩ ⟨"/p/a.CSS"⟩
        ∧ (({ cacheDirectory := ⟨".cache"⟩ } : Settings).layout ⟨"/p"⟩).artifact ⟨"/p/a.css"⟩
          = .ok ⟨"/p/.cache/a.js"⟩
        ∧ (({ cacheDirectory := ⟨".cache"⟩ } : Settings).layout ⟨"/p"⟩).artifact ⟨"/p/a.CSS"⟩
          = .ok ⟨"/p/.cache/a.js"⟩)
      ∧ (({ cacheDirectory := ⟨".cache"⟩ } : Settings).IsSheetBelow ⟨"/p"⟩ ⟨"/p/..css"⟩
        ∧ (({ cacheDirectory := ⟨".cache"⟩ } : Settings).layout ⟨"/p"⟩).artifact ⟨"/p/..css"⟩
          = .ok ⟨"/p/.cache/.."⟩
        ∧ ¬ (⟨"/p/.cache/.."⟩ : Path).IsBelow ⟨"/p/.cache"⟩)
      ∧ ({ cacheDirectory := ⟨".cache"⟩, moduleExtension := "" } : Settings).IsSheetBelow ⟨"/p"⟩
          ⟨"/p/...css"⟩
        ∧ (({ cacheDirectory := ⟨".cache"⟩, moduleExtension := "" } : Settings).layout
          ⟨"/p"⟩).artifact ⟨"/p/...css"⟩ = .ok ⟨"/p/.cache/.."⟩ := by
  refine ⟨⟨⟨by decide +kernel, ⟨["a.css"], by simp, by decide +kernel⟩, by decide +kernel⟩,
      ⟨by decide +kernel, ⟨["a.CSS"], by simp, by decide +kernel⟩, by decide +kernel⟩,
      by decide +kernel, by decide +kernel⟩,
    ⟨⟨by decide +kernel, ⟨["..css"], by simp, by decide +kernel⟩, by decide +kernel⟩,
      by decide +kernel, ?_⟩,
    ⟨by decide +kernel, ⟨["...css"], by simp, by decide +kernel⟩, by decide +kernel⟩,
    by decide +kernel⟩
  rintro ⟨names, hne, hnames⟩
  have hup : (⟨"/p/.cache/.."⟩ : Path).components
      = (⟨"/p/.cache"⟩ : Path).components ++ [.up] := by decide +kernel
  rw [hup, List.append_cancel_left_eq] at hnames
  have hmem : Component.up ∈ names.map Component.name := hnames ▸ List.mem_cons_self
  simp at hmem

end Settings

end Stylebook
