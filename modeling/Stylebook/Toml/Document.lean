import Stylebook.Toml.Reader

/-!
# TOML documents

The statements of a document are put together into one tree of tables, one
statement after the other. The first statement that cannot be added is the
complaint about the document, unless it cannot even be read that far.
-/

namespace Stylebook.Toml

/-- **The document so far**: its tables, and the path of the table that
assignments go to. -/
structure Document where
  entries : Entries := []
  current : List String := []
  deriving Repr, Inhabited

namespace Document

/-- Adds one statement. -/
def add (d : Document) : Statement → Except Conflict Document
  | .assignment _ k i => do
    let es ← Entries.change false (fun _ es => Entries.assign (some d.current) k i .headed es) []
      d.current .headed d.entries
    return { d with entries := es }
  | .header place path =>
    match path.getLast? with
    | none => .ok d
    | some k => do
      let es ← Entries.change false (Entries.openTable path k place) [] path.dropLast .headed
        d.entries
      return ⟨es, path⟩
  | .arrayHeader place path =>
    match path.getLast? with
    | none => .ok d
    | some k => do
      let es ← Entries.change false (Entries.openArrayTable path k place) [] path.dropLast
        .headed d.entries
      return ⟨es, path⟩

/-- The complaint about a statement that cannot be added. -/
def problem (s : Statement) (c : Conflict) : Place × String :=
  match s with
  | .assignment place _ _ => (place, c.message)
  | .header place _ => (place, "invalid table header\n" ++ c.message)
  | .arrayHeader place _ => (place, "invalid table header\n" ++ c.message)

/-- Adds statements up to the first conflict. -/
def addAll : Document → List Statement → Except (Place × String) Document
  | d, [] => .ok d
  | d, s :: ss =>
    match d.add s with
    | .ok d => addAll d ss
    | .error c => .error (problem s c)

/-- A byte order mark at the start of a text does not count. -/
def withoutMark : List Char → List Char
  | '\ufeff' :: cs => cs
  | cs => cs

/-- A place that was measured from the end of a text of `length` characters,
measured from its start. -/
def fromStart (length : Nat) (p : Place) : Place := ⟨length - p.start, p.length⟩

/-- A complaint about one character, `left` characters before the end of a
text. -/
def problemAt (text : List Char) (left : Nat) (message : String) : Problem :=
  let start := text.length - left
  ⟨⟨start, Text.byteLength ((text.drop start).take 1)⟩, message⟩

/-- **The tables of a text**, or the first complaint about it. Places are
still measured from the end. -/
def ofText (text : String) : Except Problem Entries :=
  let cs := text.toList
  let (ss, fault) := statements (cs.length + 1) (withoutMark cs)
  match addAll {} ss, fault with
  | .error (place, message), _ => .error (problemAt cs place.start message)
  | .ok _, some f => .error (problemAt cs f.left f.message)
  | .ok d, none => .ok d.entries

end Document

end Stylebook.Toml
