import Stylebook.Settings.Basic
import Stylebook.Terminal.Capabilities
import Stylebook.Text.Distance
import Stylebook.Toml.Document

/-!
# Reading settings

Settings come from a TOML document with one table per group of keys, and
then from the environment. A key that is not known is no error: it leaves a
warning with the line that assigns it and the known key that it may stand
for. A value of the wrong kind makes the whole document invalid.
-/

namespace Stylebook

namespace Settings

/-- **A value of the wrong kind.** -/
structure Mismatch where
  place : Toml.Place
  message : String
  deriving DecidableEq, Repr

/-- A text as it is shown in a complaint. -/
def shown (s : String) : String :=
  "\"" ++ String.ofList (s.toList.flatMap fun c =>
    if c = '"' then ['\\', '"']
    else if c = '\\' then ['\\', '\\']
    else if c = '\n' then ['\\', 'n']
    else if c = '\r' then ['\\', 'r']
    else if c = '\t' then ['\\', 't']
    else if c = '\x00' then ['\\', '0']
    else if c.toNat < 0x20 || (0x7F ≤ c.toNat && c.toNat < 0xA0) then
      ['\\', 'u', '\x7b'] ++ Nat.toDigits 16 c.toNat ++ ['\x7d']
    else [c]) ++ "\""

/-- What an item is, in the words of a complaint. -/
def found : Toml.Item → String
  | .str _ s => "string " ++ shown s
  | .int _ n => "integer `" ++ toString n ++ "`"
  | .float _ t => "floating point `" ++ t ++ "`"
  | .bool _ b => "boolean `" ++ toString b ++ "`"
  | .date _ => "map"
  | .array .. => "sequence"
  | .table .. => "map"
  | .tables .. => "sequence"

/-- The complaint that an item is not what was expected. -/
def mismatch {α : Type} (i : Toml.Item) (expected : String) : Except Mismatch α :=
  .error ⟨i.place, "invalid type: " ++ found i ++ ", expected " ++ expected⟩

/-- An item that is to be a text. -/
def asText (expected : String) (i : Toml.Item) : Except Mismatch String :=
  match i with
  | .str _ s => .ok s
  | _ => mismatch i expected

/-- An item that is to be a list of texts. -/
def asTexts (i : Toml.Item) : Except Mismatch (List String) :=
  match i with
  | .array _ is => is.mapM (asText "a string")
  | .tables p ts => ts.mapM fun es => asText "a string" (.table p .headed es)
  | _ => mismatch i "a sequence"

/-- An item that is to be a natural number. -/
def asNat (i : Toml.Item) : Except Mismatch Nat :=
  match i with
  | .int p n =>
    if n < 0 then .error ⟨p, "invalid value: integer `" ++ toString n ++ "`, expected u64"⟩
    else .ok n.toNat
  | _ => mismatch i "u64"

/-- **A known key**: its name and how its value goes into the settings. -/
structure Field where
  name : String
  set : Settings → Toml.Item → Except Mismatch Settings

/-- **A group of known keys**, under the name of its table. -/
structure Group where
  name : String
  /-- The word for the group in complaints. -/
  typeName : String
  fields : List Field

/-- **All known keys.** -/
def groups : List Group :=
  [⟨"source", "struct SourceConfig",
      [⟨"extension", fun s i => do return { s with extension := ← asText "a string" i }⟩,
        ⟨"exclude", fun s i => do return { s with exclude := ← asTexts i }⟩]⟩,
    ⟨"cache", "struct CacheConfig",
      [⟨"dir", fun s i => do return { s with cacheDirectory := ⟨← asText "path string" i⟩ }⟩,
        ⟨"module_extension",
          fun s i => do return { s with moduleExtension := ← asText "a string" i }⟩]⟩,
    ⟨"compile", "struct CompileConfig",
      [⟨"default_unit", fun s i => do return { s with defaultUnit := ← asText "a string" i }⟩]⟩,
    ⟨"watch", "struct WatchConfig",
      [⟨"debounce_ms", fun s i => do return { s with debounce := ← asNat i }⟩]⟩]

/-- The settings so far, and the names of the keys that were not known, with
the names of their tables in front. -/
abbrev Loaded := Settings × List String

/-- The key that the parts of a date stand under, where a date stands for a
table. -/
def dateKey : String := "$__toml_private_datetime"

/-- Takes one entry of a group's table. -/
def Group.takeEntry (g : Group) (l : Loaded) (e : String × Toml.Item) : Except Mismatch Loaded :=
  match g.fields.find? fun f => f.name = e.1 with
  | some f => do return (← f.set l.1 e.2, l.2)
  | none => .ok (l.1, l.2 ++ [g.name ++ "." ++ e.1])

/-- **Takes the value of a group.** It is a table, or a list of the values
of the first known keys in their order. -/
def Group.take (g : Group) (l : Loaded) (i : Toml.Item) : Except Mismatch Loaded :=
  let takeList (is : List Toml.Item) : Except Mismatch Loaded := do
    let s ← (g.fields.zip is).foldlM (fun s fi => fi.1.set s fi.2) l.1
    return (s, l.2)
  match i with
  | .table _ _ es => es.foldlM g.takeEntry l
  | .date _ => .ok (l.1, l.2 ++ [g.name ++ "." ++ dateKey])
  | .array _ is => takeList is
  | .tables p ts => takeList (ts.map fun es => .table p .headed es)
  | _ => mismatch i g.typeName

/-- Takes one entry of a document. -/
def takeEntry (l : Loaded) (e : String × Toml.Item) : Except Mismatch Loaded :=
  match groups.find? fun g => g.name = e.1 with
  | some g => g.take l e.2
  | none => .ok (l.1, l.2 ++ [e.1])

/-- The settings of a document, and its unknown keys in order. -/
def ofEntries (es : Toml.Entries) : Except Mismatch Loaded := es.foldlM takeEntry ({}, [])

/-- **A key that is not known**, with the line that assigns it and the key
it may stand for. -/
structure Warning where
  key : String
  line : Option Nat
  suggestion : Option String
  deriving DecidableEq, Repr

/-- The lines of a text, without their line breaks. -/
def lines : List Char → List (List Char)
  | [] => []
  | c :: cs =>
    if c = '\n' then [] :: lines cs
    else
      match cs, lines cs with
      | [], _ => [[c]]
      | d :: _, l :: ls => if d = '\n' && c = '\r' then l :: ls else (c :: l) :: ls
      | _ :: _, [] => [[c]]

/-- Whether a line assigns a key: the key, white space and an equals sign
come first. -/
def assigns (key line : List Char) : Bool :=
  match Text.dropFront? key (Text.trimLeft line) with
  | some rest => (Text.trimLeft rest).head? = some '='
  | none => false

/-- **The number of the first line that assigns a key**, from one. -/
def assignmentLine? (text : String) (key : String) : Option Nat :=
  ((lines text.toList).findIdx? (assigns key.toList)).map (· + 1)

/-- The known keys of a table, or the tables themselves where there is no
table. -/
def knownKeys (table : Option String) : List String :=
  match table with
  | none => groups.map Group.name
  | some t =>
    match groups.find? fun g => g.name = t with
    | some g => g.fields.map Field.name
    | none => []

/-- The edit distance of two texts, byte by byte. -/
def textDistance (s t : String) : Nat := Text.editDistance s.toUTF8.toList t.toUTF8.toList

/-- The better one of two suggestions: the nearer one, and of two equally
near ones the first in alphabetical order. -/
def better (key s t : String) : String :=
  let d := textDistance key s
  let e := textDistance key t
  if e < d || (e = d && t < s) then t else s

/-- **The known key of a table that an unknown one may stand for**: the
nearest one within an edit distance of two. -/
def suggestion? (table : Option String) (key : String) : Option String :=
  match (knownKeys table).filter fun k => textDistance key k ≤ 2 with
  | [] => none
  | k :: ks => some (ks.foldl (better key) k)

/-- A name cut at its last point. -/
def splitLastPoint (name : List Char) : Option (List Char) × List Char :=
  let key := (name.reverse.takeWhile (· ≠ '.')).reverse
  match name.reverse.dropWhile (· ≠ '.') with
  | _ :: table => (some table.reverse, key)
  | [] => (none, key)

/-- **The warning about an unknown key**, from its name with the names of
its tables. -/
def warning (text name : String) : Warning :=
  let (table, key) := splitLastPoint name.toList
  let key := String.ofList key
  ⟨key, assignmentLine? text key, suggestion? (table.map String.ofList) key⟩

/-- **The settings that a text stands for**, with the warnings about its
unknown keys. -/
def ofText (text : String) : Except Toml.Problem (Settings × List Warning) :=
  match Toml.Document.ofText text with
  | .error p => .error p
  | .ok entries =>
    match ofEntries entries with
    | .error m => .error ⟨Toml.Document.fromStart text.length m.place, m.message⟩
    | .ok (s, unknown) => .ok (s, unknown.map (warning text))

/-- A variable whose value is not only white space, trimmed. -/
def trimmed? (env : Environment) (name : String) : Option String :=
  match env.get? name with
  | some v => if (Text.trim v).isEmpty then none else some (Text.trim v)
  | none => none

/-- A natural number of 64 bits: digits, with a plus sign or without. -/
def natOfText? (s : String) : Option Nat :=
  let digits := match s.toList with
    | '+' :: cs => cs
    | cs => cs
  let n := Number.natOfDigits digits
  if digits.isEmpty || !digits.all Char.isDigit || Nat.pow 2 64 ≤ n then none else some n

/-- **The settings with what the environment says instead.** A value that
cannot be used counts as not set. -/
def override (s : Settings) (env : Environment) : Settings :=
  { s with
    cacheDirectory := ((trimmed? env "RNCSS_CACHE_DIR").map Path.mk).getD s.cacheDirectory
    defaultUnit := (trimmed? env "RNCSS_DEFAULT_UNIT").getD s.defaultUnit
    debounce :=
      ((env.get? "RNCSS_DEBOUNCE_MS").bind fun v => natOfText? (Text.trim v)).getD s.debounce }

end Settings

end Stylebook
