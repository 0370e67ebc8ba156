import Stylebook.Artifact

/-!
# Settings

The settings of a project say which files are stylesheets, which directories
are left out, where modules go, which unit bare lengths have, and how long
to wait for changes to end.
-/

namespace Stylebook

/-- **The settings of a project.** -/
structure Settings where
  /-- The extension of stylesheets, without its point. -/
  extension : String := "css"
  /-- The names of directories that are left out. -/
  exclude : List String := ["node_modules"]
  /-- The directory of modules, seen from the project root. -/
  cacheDirectory : Path := ⟨"node_modules/@areslabs/babel-plugin-import-css/rncsscache"⟩
  /-- The extension of modules, without its point. -/
  moduleExtension : String := "js"
  /-- The unit of bare lengths. -/
  defaultUnit : String := "px"
  /-- The milliseconds without a change after which changes are handled. -/
  debounce : Nat := 100
  deriving DecidableEq, Repr

namespace Settings

/-- **Whether a path has the extension of stylesheets**, in any case. -/
def isStylesheet (s : Settings) (p : Path) : Bool :=
  match p.extension? with
  | some e => Text.sameIgnoringCase e s.extension
  | none => false

/-- **Whether a path is left out**: it lies in the cache directory, or one
of its components below the root has an excluded name. -/
def isExcluded (s : Settings) (root p : Path) : Bool :=
  let relative := (p.relativeTo? root).getD p
  relative.startsWith s.cacheDirectory ||
    relative.components.any fun c => s.exclude.contains c.text

/-- The layout of the module cache of a project. -/
def layout (s : Settings) (root : Path) : CacheLayout :=
  CacheLayout.new root s.cacheDirectory s.moduleExtension

end Settings

end Stylebook
