import Stylebook.Failure

/-!
# Where modules are written

Every stylesheet below the project root has one module. It stands at the
same relative path below the cache directory, with the extension of modules
in place of its own. A stylesheet elsewhere has none, which is a failure of
that stylesheet.

An extension is a part of a file name. One that has a slash in it cannot be
given to any path, and a program that tries to crashes at the first
stylesheet that it asks about.
-/

namespace Stylebook

/-- **The layout of the module cache.** -/
structure CacheLayout where
  root : Path
  /-- The directory of the modules, already seen from the root. -/
  directory : Path
  /-- The extension of modules, without its point. -/
  extension : String
  deriving DecidableEq, Repr

namespace CacheLayout

/-- The layout of a project; a relative cache directory is one below the
root. -/
def new (root directory : Path) (extension : String) : CacheLayout :=
  ⟨root, root.join directory, extension⟩

/-- **The path of the module of a stylesheet.** The stylesheet is located
before its extension is replaced: outside of the root it fails, whatever the
extension is. -/
def artifact (l : CacheLayout) (source : Path) : Except Stop Path :=
  match source.relativeTo? l.root with
  | none => .error (.failed (.pathOutsideRoot source l.root))
  | some relative =>
    if '/' ∈ l.extension.toList then .error (.crashed .slashInExtension)
    else .ok ((l.directory.join relative).withExtension l.extension)

end CacheLayout

end Stylebook
