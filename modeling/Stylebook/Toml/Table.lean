import Stylebook.Toml.Item

/-!
# TOML tables

Entries come into a table one after the other, and nothing is ever defined
twice: a key has one value, a header opens a table that is not there or that
was only implied, a dotted key adds only to tables that dotted keys made,
and a table in curly brackets is finished where it is closed.
-/

namespace Stylebook.Toml

/-- **Why something cannot be added to a table.** -/
inductive Conflict where
  /-- The key is there already; the table is named where it is known. -/
  | duplicate (key : String) (table : Option (List String))
  /-- A part of the key is no table. -/
  | notATable (key : List String) (kind : String)
  deriving DecidableEq, Repr

namespace Conflict

/-- The wording of a conflict. -/
def message : Conflict → String
  | .duplicate k none => "duplicate key `" ++ k ++ "`"
  | .duplicate k (some []) => "duplicate key `" ++ k ++ "` in document root"
  | .duplicate k (some path) =>
    "duplicate key `" ++ k ++ "` in table `" ++ Text.join "." path ++ "`"
  | .notATable path kind =>
    "dotted key `" ++ Text.join "." path ++ "` attempted to extend non-table type (" ++
      kind ++ ")"

end Conflict

namespace Entries

/-- Puts a new item in place of the one under a key. -/
def replace (k : String) (i : Item) (es : Entries) : Entries :=
  es.map fun e => if e.1 = k then (k, i) else e

/-- **Changes the table at the end of a path.** Tables that are not there
come in on the way, as parts of a dotted key or of a header. Of several
tables under one header the last one counts. `walked` is the path so far. -/
def change (dotted : Bool) (f : TableKind → Entries → Except Conflict Entries) :
    (walked path : List String) → TableKind → Entries → Except Conflict Entries
  | _, [], kind, es => f kind es
  | walked, k :: path, outer, es => do
    let walked := walked ++ [k]
    match es.lookup k with
    | none =>
      let kind := if dotted then TableKind.dotted else .implied
      let inner ← change dotted f walked path kind []
      return es ++ [(k, .table ⟨0, 0⟩ kind inner)]
    | some (.table place kind inner) =>
      if kind = .inlined then
        throw (if outer = .inlined then .duplicate k none else .notATable walked "inline table")
      if dotted && kind = .headed then throw (.duplicate k none)
      let inner ← change dotted f walked path kind inner
      return replace k (.table place kind inner) es
    | some (.tables place ts) =>
      match ts.getLast? with
      | some last =>
        let last ← change dotted f walked path .headed last
        return replace k (.tables place (ts.dropLast ++ [last])) es
      | none => throw (.duplicate k none)
    | some other => throw (.notATable walked other.kindName)

/-- Adds an item under a key that is not there. `named` is the table's name
for a conflict, and `viaDots` whether the table was reached by a dotted key. -/
def add (k : String) (i : Item) (named : Option (List String)) (viaDots : Bool)
    (kind : TableKind) (es : Entries) : Except Conflict Entries :=
  if viaDots && kind ≠ .dotted then .error (.duplicate k none)
  else if (es.lookup k).isSome then .error (.duplicate k named)
  else .ok (es ++ [(k, i)])

/-- **Assigns an item to a dotted key.** -/
def assign (named : Option (List String)) (path : List String) (i : Item) (kind : TableKind)
    (es : Entries) : Except Conflict Entries :=
  match path.getLast? with
  | none => .ok es
  | some k => change true (add k i named (1 < path.length)) [] path.dropLast kind es

/-- **The entries of a table in curly brackets**: its pairs, added to the
entries before. -/
def ofPairs : List (List String × Item) → Entries → Except Conflict Entries
  | [], es => .ok es
  | (path, i) :: ps, es => do ofPairs ps (← assign none path i .inlined es)

/-- Opens the table of a header under a key: a new one, or one that was only
implied. The table moves to the end. -/
def openTable (path : List String) (k : String) (place : Place) (_ : TableKind) (es : Entries) :
    Except Conflict Entries :=
  match es.lookup k with
  | none => .ok (es ++ [(k, .table place .headed [])])
  | some (.table _ .implied inner) =>
    .ok ((es.filter fun e => e.1 ≠ k) ++ [(k, .table place .headed inner)])
  | some _ => .error (.duplicate k (some path.dropLast))

/-- Opens one more table of a header in double brackets. -/
def openArrayTable (path : List String) (k : String) (place : Place) (_ : TableKind)
    (es : Entries) : Except Conflict Entries :=
  match es.lookup k with
  | none => .ok (es ++ [(k, .tables place [[]])])
  | some (.tables p ts) => .ok (replace k (.tables p (ts ++ [[]])) es)
  | some _ => .error (.duplicate k (some path.dropLast))

end Entries

end Stylebook.Toml
