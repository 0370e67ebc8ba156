import Stylebook.Path.Basic

/-!
# Failures and crashes

Two kinds of things can go wrong with a file as a whole. A `Failure` belongs
to the file: it is reported, and everything else goes on. A `Crash` is
nothing that anybody could report. It ends the program where it stands, in
the middle of a batch if need be, and what the program would have done next
is not done. A `Stop` is one or the other, and the reason why a step that
was begun has no result.

That a rule of a stylesheet has no meaning is neither of them: it is
reported as a diagnostic of the stylesheet.
-/

namespace Stylebook

/-- **Why a file could not be handled.** A `cause` is the text that the file
store gives. -/
inductive Failure where
  /-- A stylesheet or one of its imports could not be read. -/
  | read (path : Path) (cause : String)
  /-- A source is not below the project root, so there is no place for its
  module. -/
  | pathOutsideRoot (path root : Path)
  /-- The configuration file has no meaning. -/
  | invalidConfig (file : Path) (message : String)
  /-- A file could not be written, removed or looked at. -/
  | io (cause : String)
  deriving DecidableEq, Repr

namespace Failure

/-- **The wording of a failure.** -/
def message : Failure → String
  | .read p cause => "failed to read " ++ p.text ++ ": " ++ cause
  | .pathOutsideRoot p root =>
    "path '" ++ p.text ++ "' is outside project root '" ++ root.text ++ "'"
  | .invalidConfig file m => "invalid config in " ++ file.text ++ ": " ++ m
  | .io cause => "IO error: " ++ cause

/-- The cause that lies below a failure, where it has one of its own. -/
def cause? : Failure → Option String
  | .read _ cause => some cause
  | .io cause => some cause
  | _ => none

end Failure

/-- **Why the program has ended where it stood.** There is no event for a
crash: whoever would report it is gone. -/
inductive Crash where
  /-- The imports of a stylesheet have no end. Inlining goes into one
  statement after the other, until there is no room for a further one. -/
  | endlessImports
  /-- The extension of modules has a slash in it. A path takes no such
  extension. -/
  | slashInExtension
  deriving DecidableEq, Repr

/-- **Why a step has no result**: something has failed, or the program has
ended. -/
inductive Stop where
  /-- The file at hand has failed. Others can still be handled. -/
  | failed (failure : Failure)
  /-- The program has ended. Nothing else is handled. -/
  | crashed (crash : Crash)
  deriving DecidableEq, Repr

end Stylebook
