import Stylebook.Proofs.Path.Relative
import Stylebook.Proofs.Recompile.Artifact
import Stylebook.Watch.Notification

/-!
# What is left out

A path below the root is left out when the components of the cache directory
come first in its relative path, or when a name in it is an excluded one
(`Settings.isExcluded_iff`). For this the cache directory is taken as it is
written, and a relative path has names alone. So a cache directory that is
written with points, steps up or a slash in front is not left out, wherever
it leads, although the layout of modules follows that spelling from the
root. The generated modules are then sources themselves, as far as the
extension of modules is that of stylesheets.

Written with names alone, the cache directory is where the layout has it,
and every module that a stem names is left out
(`Settings.exists_isExcluded_artifact_iff`).
-/

namespace Stylebook

namespace Path

open Component

variable {p root : Path} {cs : List Component} {names : List String}

/-! ## Following names

A path below the root that has names alone is followed by putting them on a
stack. No step up undoes any of it, so the components of the root stay at
the bottom. -/

/-- A name is put on the stack. -/
theorem follow_name (stack : List Component) (n : String) :
    follow stack (.name n) = .name n :: stack := by
  unfold follow
  split <;> simp_all

/-- A step up is put on the stack, or takes the component on top of it. -/
theorem follow_up (stack : List Component) :
    follow stack .up = .up :: stack ∨ ∃ c, stack = c :: follow stack .up := by
  unfold follow
  split <;> simp_all

/-- **Names are followed one by one.** -/
theorem foldl_follow_names (stack : List Component) (names : List String) :
    (names.map Component.name).foldl follow stack = (names.map .name).reverse ++ stack := by
  induction names generalizing stack with
  | nil => rfl
  | cons n names ih =>
    rw [List.map_cons, List.foldl_cons, follow_name, ih, List.reverse_cons, List.append_assoc]
    rfl

/-- What a normal path starts with is followed component by component. -/
theorem foldl_follow_of_normal (hp : p.normalize = p)
    (h : p.components = root.components ++ names.map .name) :
    root.components.foldl follow [] = root.components.reverse := by
  have hcomponents := components_normalize p
  rw [hp, h, List.foldl_append, foldl_follow_names, List.reverse_append, List.reverse_reverse]
    at hcomponents
  rw [← List.reverse_reverse (root.components.foldl follow []),
    ← List.append_cancel_right hcomponents]

end Path

namespace Settings

open Stylebook.Path

variable {s : Settings} {root p a : Path} {names dirs cache : List String} {c : Component}

/-- **What is left out**, by the names below the root. -/
theorem isExcluded_iff (h : p.components = root.components ++ names.map .name) :
    s.isExcluded root p = true
      ↔ s.cacheDirectory.components <+: names.map .name ∨ ∃ n ∈ names, n ∈ s.exclude := by
  obtain ⟨r, hr, hcomponents⟩ := exists_relativeTo? h
  unfold isExcluded
  rw [hr, Option.getD_some, Bool.or_eq_true, startsWith_iff, hcomponents]
  simp [Component.text]

/-! ## The spelling of the cache directory

The layout follows the cache directory component by component, and the test
compares it as it is written. So they are about one directory only if there
is nothing to follow: no points, no steps up and no slash in front. -/

/-- **The filter can tell the cache directory** by its spelling: it is
written with names alone. -/
def TellsCache (s : Settings) : Prop :=
  ∃ names : List String, s.cacheDirectory.components = names.map .name

/-- Below the root, only a cache directory of names comes first. -/
theorem tellsCache_of_prefix (h : s.cacheDirectory.components <+: names.map .name) :
    s.TellsCache := by
  refine ⟨names.take s.cacheDirectory.components.length, ?_⟩
  rw [List.map_take, ← List.prefix_iff_eq_take.mp h]

/-- **The layout follows the names of the cache directory** from the root. -/
theorem components_directory (h : s.cacheDirectory.components = cache.map .name) :
    (s.layout root).directory.components = root.components ++ cache.map .name := by
  have habs : s.cacheDirectory.isAbsolute = false := by
    rw [← Bool.not_eq_true, isAbsolute_iff, h]
    simp
  show (root.join s.cacheDirectory).components = _
  rw [components_join_of_notMem habs (by rw [h]; simp), h]

section Module

variable (hnormal : p.normalize = p) (hbelow : p.IsBelow root)
  (hcache : s.cacheDirectory.components = cache.map .name)
  (ha : a.components = (s.layout root).directory.components ++ dirs.map .name ++ [c])
include hnormal hbelow hcache ha

/-- Normalizing a module follows its last component from the directory that
it is in. -/
theorem components_normalize_module : a.normalize.components
    = (follow (root.components ++ (cache ++ dirs).map Component.name).reverse c).reverse := by
  obtain ⟨names, -, hnames⟩ := hbelow
  rw [components_normalize, ha, components_directory hcache, List.append_assoc root.components,
    ← List.map_append, List.foldl_append, List.foldl_append,
    foldl_follow_of_normal hnormal hnames, foldl_follow_names, ← List.reverse_append]
  rfl

/-- **A module that has a name** is below the cache directory. -/
theorem components_normalize_of_name {n : String} (hc : c = .name n) :
    a.normalize.components = root.components ++ (cache ++ dirs ++ [n]).map Component.name := by
  have hmap : (cache ++ dirs ++ [n]).map Component.name
      = (cache ++ dirs).map Component.name ++ [.name n] := List.map_append
  rw [components_normalize_module hnormal hbelow hcache ha, hc, follow_name, List.reverse_cons,
    List.reverse_reverse, List.append_assoc, hmap]

/-- **A module that ends in a step up** is one directory higher. -/
theorem components_normalize_of_up (hc : c = .up) (hdirs : dirs ≠ []) :
    a.normalize.components = root.components ++ (cache ++ dirs.dropLast).map Component.name := by
  obtain ⟨ds, d, rfl⟩ := List.eq_nil_or_concat dirs |>.resolve_left hdirs
  rw [components_normalize_module hnormal hbelow hcache ha, hc, List.concat_eq_append,
    List.dropLast_concat, ← List.append_assoc, List.map_append, List.map_singleton,
    ← List.append_assoc, List.reverse_concat]
  show (root.components ++ (cache ++ ds).map Component.name).reverse.reverse = _
  rw [List.reverse_reverse]

/-- **A step up leaves the cache directory**, when no directory is in
between. -/
theorem not_prefix_of_up (hc : c = .up) (hdirs : dirs = [])
    (hnames : a.normalize.components = root.components ++ names.map .name) :
    ¬ s.cacheDirectory.components <+: names.map Component.name := by
  rw [components_normalize_module hnormal hbelow hcache ha, hc, hdirs, List.append_nil] at hnames
  rw [hcache]
  rintro ⟨rest, hrest⟩
  rw [← hrest, ← List.append_assoc] at hnames
  rcases follow_up (root.components ++ cache.map Component.name).reverse with hup | ⟨d, hup⟩
  · rw [hup, List.reverse_cons, List.reverse_reverse] at hnames
    have hmem : Component.up ∈ names.map Component.name := by
      rw [← hrest, ← List.append_cancel_left hnames]
      simp
    simp at hmem
  · have hlength := congrArg List.length hup
    have hlength' := congrArg List.length hnames
    simp only [List.length_reverse, List.length_append, List.length_cons] at hlength hlength'
    omega

/-- **A module is inside the cache directory** unless it steps up from it. -/
theorem prefix_module_iff (hc : c = .up ∨ ∃ n, c = .name n)
    (hnames : a.normalize.components = root.components ++ names.map .name) :
    s.cacheDirectory.components <+: names.map Component.name ↔ c ≠ .up ∨ dirs ≠ [] := by
  rcases hc with hup | ⟨n, hname⟩
  · by_cases hdirs : dirs = []
    · simp [hup, hdirs, not_prefix_of_up hnormal hbelow hcache ha hup hdirs hnames]
    · rw [components_normalize_of_up hnormal hbelow hcache ha hup hdirs] at hnames
      rw [hcache, ← List.append_cancel_left hnames]
      simp [hdirs]
  · rw [components_normalize_of_name hnormal hbelow hcache ha hname] at hnames
    rw [hcache, ← List.append_cancel_left hnames]
    simp [hname]

end Module

/-- **Whether a module is left out.** Every file below the root has a
module. When it is below the root as well, then it is left out if the cache
directory is written with names alone, unless the file is in the root itself
under a stem that names no module. Otherwise it takes an excluded name to
leave it out. The modules that stems name are below the root and no sources
if the cache directory is written with names alone.

A path is made normal before it is compared, and the cache directory is
compared as it is written. A point or a step up in it is in no normal path,
so that nothing starts with it. -/
theorem exists_isExcluded_artifact_iff (hext : '/' ∉ s.moduleExtension.toList)
    (hnormal : p.normalize = p) (hbelow : p.IsBelow root) :
    ∃ a, (s.layout root).artifact p = .ok a
      ∧ (∀ names : List String, a.normalize.components = root.components ++ names.map .name →
        (s.isExcluded root a.normalize = true
          ↔ s.TellsCache ∧ (s.NamesModule p ∨ p.components.dropLast ≠ root.components)
            ∨ ∃ n ∈ names, n ∈ s.exclude))
      ∧ (s.TellsCache → s.NamesModule p →
        a.normalize.IsBelow root ∧ s.isSource root a.normalize = false) := by
  obtain ⟨a, dirs, name, hartifact, hcomponents, hname, ha⟩ := exists_artifact hext hnormal hbelow
  have hdirs : p.components.dropLast ≠ root.components ↔ dirs ≠ [] := by
    rw [hcomponents, List.dropLast_concat]
    simp
  have hstem : p.stem? = some (splitName name.toList).1 := by
    rw [stem?, fileName?_of_components hcomponents]
    rfl
  have hne : (splitName name.toList).1 ≠ [] := (stem_starts _).2 hname.1
  -- the last component of the module is its name or a step up
  obtain ⟨last, hlast, hcase, hpoints⟩ : ∃ last, (last = .up ∨ ∃ n, last = .name n)
      ∧ ofPiece (renamed (splitName name.toList).1 s.moduleExtension) = last
      ∧ (s.NamesModule p ↔ last ≠ .up) := by
    have hnames : s.NamesModule p
        ↔ renamed (splitName name.toList).1 s.moduleExtension ≠ ['.', '.'] := by
      simp [NamesModule, hstem, renamed_eq_points_iff hne]
    by_cases hpoints : renamed (splitName name.toList).1 s.moduleExtension = ['.', '.']
    · exact ⟨.up, .inl rfl, by rw [hpoints]; rfl, by simp [hnames, hpoints]⟩
    · exact ⟨_, .inr ⟨_, rfl⟩, ofPiece_of_ne (renamed_ne_point hne) hpoints,
        by simp [hnames, hpoints]⟩
  rw [hcase] at ha
  refine ⟨a, hartifact, ?_, ?_⟩
  · intro names hnames
    rw [isExcluded_iff hnames, hpoints, hdirs]
    refine or_congr ⟨fun h => ?_, ?_⟩ Iff.rfl
    · obtain ⟨cache, hcache⟩ := tellsCache_of_prefix h
      exact ⟨⟨cache, hcache⟩, (prefix_module_iff hnormal hbelow hcache ha hlast hnames).mp h⟩
    · rintro ⟨⟨cache, hcache⟩, h⟩
      exact (prefix_module_iff hnormal hbelow hcache ha hlast hnames).mpr h
  · rintro ⟨cache, hcache⟩ hnamed
    obtain ⟨n, rfl⟩ := hlast.resolve_left (hpoints.mp hnamed)
    have hmodule := components_normalize_of_name hnormal hbelow hcache ha rfl
    refine ⟨⟨_, by simp, hmodule⟩, ?_⟩
    have hexcluded : s.isExcluded root a.normalize = true := by
      rw [isExcluded_iff hmodule]
      exact .inl ((prefix_module_iff hnormal hbelow hcache ha (.inr ⟨n, rfl⟩) hmodule).mpr
        (.inl (by simp)))
    rw [isSource, hexcluded, Bool.not_true, Bool.and_false]

/-- A file without an extension, and a cache directory of two names. -/
theorem exists_isExcluded_artifact_iff_of_names :
    '/' ∉ ({ cacheDirectory := ⟨"x//.cache/"⟩, moduleExtension := "css" } :
          Settings).moduleExtension.toList
      ∧ (⟨"/p/d/a"⟩ : Path).normalize = ⟨"/p/d/a"⟩ ∧ (⟨"/p/d/a"⟩ : Path).IsBelow ⟨"/p"⟩
      ∧ ∃ a, (({ cacheDirectory := ⟨"x//.cache/"⟩, moduleExtension := "css" } :
            Settings).layout ⟨"/p"⟩).artifact ⟨"/p/d/a"⟩ = .ok a
        ∧ a.normalize.IsBelow ⟨"/p"⟩
        ∧ ({ cacheDirectory := ⟨"x//.cache/"⟩, moduleExtension := "css" } :
            Settings).isSource ⟨"/p"⟩ a.normalize = false := by
  have hext : '/' ∉ ({ cacheDirectory := ⟨"x//.cache/"⟩, moduleExtension := "css" } :
      Settings).moduleExtension.toList := by decide
  have hnormal : (⟨"/p/d/a"⟩ : Path).normalize = ⟨"/p/d/a"⟩ := by decide +kernel
  have hbelow : (⟨"/p/d/a"⟩ : Path).IsBelow ⟨"/p"⟩ := ⟨["d", "a"], by simp, by decide +kernel⟩
  obtain ⟨a, hartifact, -, hmodule⟩ := exists_isExcluded_artifact_iff hext hnormal hbelow
  exact ⟨hext, hnormal, hbelow, a, hartifact,
    hmodule ⟨["x", ".cache"], by decide +kernel⟩ (by decide +kernel)⟩

/-- **Points and slashes in the cache directory** keep it from being left
out, and so does a step up in the name of a module. -/
theorem isExcluded_of_spelling :
    (∀ cache ∈ ["./.cache", "x/../.cache", "/p/.cache"],
      ((({ cacheDirectory := ⟨cache⟩, moduleExtension := "css" } : Settings).layout
          ⟨"/p"⟩).artifact ⟨"/p/a.css"⟩).toOption.map normalize = some ⟨"/p/.cache/a.css"⟩
        ∧ ({ cacheDirectory := ⟨cache⟩, moduleExtension := "css" } : Settings).isExcluded
          ⟨"/p"⟩ ⟨"/p/.cache/a.css"⟩ = false
        ∧ ({ cacheDirectory := ⟨cache⟩, moduleExtension := "css" } : Settings).isSource
          ⟨"/p"⟩ ⟨"/p/.cache/a.css"⟩ = true)
      ∧ ((({ cacheDirectory := ⟨"x/y"⟩ } : Settings).layout ⟨"/p"⟩).artifact
          ⟨"/p/..css"⟩).toOption.map normalize = some ⟨"/p/x"⟩
      ∧ ({ cacheDirectory := ⟨"x/y"⟩ } : Settings).isExcluded ⟨"/p"⟩ ⟨"/p/x"⟩ = false
      ∧ (⟨"/p/a.css"⟩ : Path).normalize = ⟨"/p/a.css"⟩
      ∧ (⟨"/p/..css"⟩ : Path).normalize = ⟨"/p/..css"⟩ := by
  decide +kernel

end Settings

end Stylebook
