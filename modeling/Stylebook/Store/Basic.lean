import Stylebook.Failure

/-!
# File stores

Everything above this module sees files only through a `FileStore`: a value
that stands for all files at one moment. Reading looks at it, writing and
removing give the value afterwards, also when they fail.
-/

namespace Stylebook

/-- **A value that stands for the files of one moment.** -/
class FileStore (σ : Type) where
  /-- The text of a file, or why it cannot be read. -/
  read : σ → Path → Except String String
  /-- Writes a file, and makes the directories above it. -/
  write : σ → Path → String → Except String Unit × σ
  /-- Removes a file. -/
  remove : σ → Path → Except String Unit × σ
  /-- Whether there is something at a path. -/
  holds : σ → Path → Bool
  /-- Whether a path is that of a directory. -/
  isDirectory : σ → Path → Bool
  /-- A bound on how many files can be read, with what can be taken out of
  their texts. -/
  extent : σ → Nat

namespace FileStore

variable {σ : Type} [FileStore σ]

/-- Reads a file that is needed. That it cannot be read is a failure, with
the path and the cause in it, whether the file is the stylesheet itself or
one that it imports. -/
def fetch (s : σ) (p : Path) : Except Stop String :=
  match read s p with
  | .ok text => .ok text
  | .error cause => .error (.failed (.read p cause))

end FileStore

end Stylebook
