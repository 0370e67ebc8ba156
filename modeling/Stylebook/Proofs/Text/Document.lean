import Mathlib.Data.List.TakeWhile
import Mathlib.Tactic.SplitIfs
import Stylebook.Proofs.Number.Numeral
import Stylebook.Style.Table
import Stylebook.Text.Json

/-!
# Reading JSON

What a JSON text stands for is told by a reader for the whole format
(`Document.read?`), not only for the texts that the program writes: white
space between the lexemes, every escape, characters written as surrogate
pairs, numerals of every form. It refuses what is not JSON, such as a
control character in a quoted string. A document keeps the members of an
object in order, those with a name that was there as well, and it keeps a
number as it is spelled.

The reader is the measure here and not what is measured. A writer may be
proved right with the reader that fits it, and nothing would be said of how
others read the text. So this one takes more than is written, and it keeps
what other readers may treat differently: whether the last or the first of
two members of one name counts, and how a number is rounded. Texts that
leave such a choice can be told, and what is written is not among them
(`Document.NoRepeats`).

Reading what a value was written as gives the value back
(`Document.read?_render`). The two stages of the reader are treated apart:
the characters of a value are cut into its lexemes, and these are built up
to the value again.
-/

namespace Stylebook

/-- **A JSON document.** -/
inductive Document where
  | null
  | bool (value : Bool)
  | number (spelling : String)
  | str (text : String)
  | array (elements : List Document)
  | object (members : List (String × Document))

namespace Document

/-! ## Quoted strings

Strings are read character by character, and an escape is one character
whatever its length. A code point beyond the first plane is written as two
escapes, which are read as a pair or not at all. -/

/-- The value of a hexadecimal digit. -/
def hexValue? (c : Char) : Option Nat :=
  if '0' ≤ c ∧ c ≤ '9' then some (c.toNat - 48)
  else if 'a' ≤ c ∧ c ≤ 'f' then some (c.toNat - 87)
  else if 'A' ≤ c ∧ c ≤ 'F' then some (c.toNat - 55)
  else none

/-- The number that four hexadecimal digits stand for, and the rest. -/
def unit? : List Char → Option (Nat × List Char)
  | a :: b :: c :: d :: rest => do
    let a ← hexValue? a
    let b ← hexValue? b
    let c ← hexValue? c
    let d ← hexValue? d
    return (((a * 16 + b) * 16 + c) * 16 + d, rest)
  | _ => none

/-- What a letter behind a backslash stands for. -/
def letter? (c : Char) : Option Char :=
  if c = '"' || c = '\\' || c = '/' then some c
  else if c = 'b' then some '\x08'
  else if c = 'f' then some '\x0c'
  else if c = 'n' then some '\n'
  else if c = 'r' then some '\r'
  else if c = 't' then some '\t'
  else none

/-- The second half of a surrogate pair, and the character of the pair. -/
def pair? (high : Nat) : List Char → Option (Char × List Char)
  | '\\' :: 'u' :: cs =>
    (unit? cs).bind fun (low, rest) =>
      if 0xDC00 ≤ low && low < 0xE000 then
        some (Char.ofNat (0x10000 + (high - 0xD800) * 0x400 + (low - 0xDC00)), rest)
      else none
  | _ => none

/-- **The character of an escape**, behind its backslash, and the rest. Half
of a surrogate pair is no character. -/
def escape? : List Char → Option (Char × List Char)
  | 'u' :: cs =>
    (unit? cs).bind fun (n, rest) =>
      if n < 0xD800 || 0xE000 ≤ n then some (Char.ofNat n, rest)
      else if n < 0xDC00 then pair? n rest
      else none
  | c :: cs => (letter? c).map fun d => (d, cs)
  | [] => none

/-- Each step of the reader takes characters, which is why it ends. -/
theorem length_of_unit? {cs rest : List Char} {n : Nat} (h : unit? cs = some (n, rest)) :
    rest.length < cs.length := by
  unfold unit? at h
  split at h
  · obtain ⟨_, -, h⟩ := Option.bind_eq_some_iff.mp h
    obtain ⟨_, -, h⟩ := Option.bind_eq_some_iff.mp h
    obtain ⟨_, -, h⟩ := Option.bind_eq_some_iff.mp h
    obtain ⟨_, -, h⟩ := Option.bind_eq_some_iff.mp h
    cases h
    simp only [List.length_cons]
    omega
  · cases h

theorem length_of_pair? {high : Nat} {cs rest : List Char} {c : Char}
    (h : pair? high cs = some (c, rest)) : rest.length < cs.length := by
  unfold pair? at h
  split at h
  · obtain ⟨⟨low, rest'⟩, hunit, h⟩ := Option.bind_eq_some_iff.mp h
    have := length_of_unit? hunit
    dsimp only at h
    split at h
    · obtain ⟨-, rfl⟩ := Prod.mk.inj (Option.some.inj h)
      simp only [List.length_cons]
      omega
    · cases h
  · cases h

theorem length_of_escape? {cs rest : List Char} {c : Char} (h : escape? cs = some (c, rest)) :
    rest.length < cs.length := by
  unfold escape? at h
  split at h
  · obtain ⟨⟨n, rest'⟩, hunit, h⟩ := Option.bind_eq_some_iff.mp h
    have := length_of_unit? hunit
    dsimp only at h
    split at h
    · cases h
      exact Nat.lt_succ_of_lt this
    · split at h
      · have := length_of_pair? h
        simp only [List.length_cons]
        omega
      · cases h
  · obtain ⟨d, -, hrest⟩ := Option.map_eq_some_iff.mp h
    cases hrest
    exact Nat.lt_succ_self _
  · cases h

/-- **The text of a quoted string**, behind its first quote, and the rest. -/
def quoted? : List Char → Option (List Char × List Char)
  | [] => none
  | c :: cs =>
    if c = '"' then some ([], cs)
    else if c = '\\' then
      match hescape : escape? cs with
      | none => none
      | some (d, rest) =>
        have := length_of_escape? hescape
        (quoted? rest).map fun (text, rest) => (d :: text, rest)
    else if c.toNat < 0x20 then none
    else (quoted? cs).map fun (text, rest) => (c :: text, rest)
termination_by cs => cs.length
decreasing_by
  · simp only [List.length_cons]
    omega
  · exact Nat.lt_succ_self _

/-- So a string ends. -/
theorem length_of_quoted? {cs text rest : List Char} (h : quoted? cs = some (text, rest)) :
    rest.length < cs.length := by
  fun_induction quoted? cs generalizing text with
  | case1 => cases h
  | case2 cs =>
    cases h
    exact Nat.lt_succ_self _
  | case3 => cases h
  | case4 cs _ d rest' hescape hlt ih =>
    obtain ⟨⟨text', rest''⟩, hquoted, heq⟩ := Option.map_eq_some_iff.mp h
    cases heq
    have := ih hquoted
    simp only [List.length_cons]
    omega
  | case5 => cases h
  | case6 c cs _ _ _ ih =>
    obtain ⟨⟨text', rest''⟩, hquoted, heq⟩ := Option.map_eq_some_iff.mp h
    cases heq
    exact Nat.lt_succ_of_lt (ih hquoted)

/-! ## Lexemes

Cutting into lexemes is what makes white space free. A word goes as far as
it can, so that a literal name is not found at the front of a longer word. -/

/-- **A lexeme of JSON**: a bracket, a comma or a colon, a quoted string, or
a word. -/
inductive Lexeme where
  | mark (c : Char)
  | quoted (text : String)
  | word (value : Document)

/-- White space between lexemes. -/
def isSpace (c : Char) : Bool := c = ' ' || c = '\t' || c = '\n' || c = '\r'

/-- A bracket, a comma or a colon. -/
def isMark (c : Char) : Bool :=
  c = '{' || c = '}' || c = '[' || c = ']' || c = ',' || c = ':'

/-- A character of literal names and numerals. -/
def isWordChar (c : Char) : Bool := c.isAlphanum || c = '+' || c = '-' || c = '.'

/-- **The value of a word**: a literal name or a numeral. -/
def word? (cs : List Char) : Option Document :=
  if cs = ['n', 'u', 'l', 'l'] then some .null
  else if cs = ['t', 'r', 'u', 'e'] then some (.bool true)
  else if cs = ['f', 'a', 'l', 's', 'e'] then some (.bool false)
  else if isNumeral cs then some (.number (String.ofList cs))
  else none

/-- **The lexemes of a text.** A word goes as far as its characters do. -/
def lexemes? : List Char → Option (List Lexeme)
  | [] => some []
  | c :: cs =>
    if isSpace c then lexemes? cs
    else if isMark c then (lexemes? cs).map (.mark c :: ·)
    else if c = '"' then
      match hquoted : quoted? cs with
      | none => none
      | some (text, rest) =>
        have := length_of_quoted? hquoted
        (lexemes? rest).map (.quoted (String.ofList text) :: ·)
    else
      match word? (c :: cs.takeWhile isWordChar) with
      | none => none
      | some d => (lexemes? (cs.dropWhile isWordChar)).map (.word d :: ·)
termination_by cs => cs.length
decreasing_by
  · exact Nat.lt_succ_self _
  · exact Nat.lt_succ_self _
  · simp only [List.length_cons]
    omega
  · exact Nat.lt_succ_of_le (List.length_dropWhile_le ..)

/-! ## Values

Values are built up with the containers that are open as a stack. The reader
has one state for a value to come and one for what may follow it, and so a
comma is taken only where another value must follow. -/

/-- **A container that is open**, with what it holds so far; an object
is open at the value of a name. -/
inductive Frame where
  | array (elements : List Document)
  | object (members : List (String × Document)) (name : String)

mutual
/-- Reads a value inside of the open containers, and what follows it. -/
def value? : List Frame → List Lexeme → Option Document
  | frames, .word d :: ls => after? d frames ls
  | frames, .quoted s :: ls => after? (.str s) frames ls
  | frames, .mark '[' :: .mark ']' :: ls => after? (.array []) frames ls
  | frames, .mark '[' :: ls => value? (.array [] :: frames) ls
  | frames, .mark '{' :: .mark '}' :: ls => after? (.object []) frames ls
  | frames, .mark '{' :: .quoted name :: .mark ':' :: ls => value? (.object [] name :: frames) ls
  | _, _ => none

/-- Reads what follows a value inside of the open containers. -/
def after? (d : Document) : List Frame → List Lexeme → Option Document
  | [], [] => some d
  | .array es :: frames, .mark ',' :: ls => value? (.array (es ++ [d]) :: frames) ls
  | .array es :: frames, .mark ']' :: ls => after? (.array (es ++ [d])) frames ls
  | .object ms name :: frames, .mark ',' :: .quoted name' :: .mark ':' :: ls =>
    value? (.object (ms ++ [(name, d)]) name' :: frames) ls
  | .object ms name :: frames, .mark '}' :: ls => after? (.object (ms ++ [(name, d)])) frames ls
  | _, _ => none
end

/-- **The document of a JSON text**, if it is one. -/
def read? (text : String) : Option Document := (lexemes? text.toList).bind (value? [])

/-! ## Following keys

A place in a document is told by the names that lead to it. If a name comes
twice, where it leads to is a choice of the reader; the first one is taken
here, and `NoRepeats` says that there is no such choice. -/

/-- **No object of a document repeats a name.** -/
inductive NoRepeats : Document → Prop where
  | null : NoRepeats .null
  | bool (value : Bool) : NoRepeats (.bool value)
  | number (spelling : String) : NoRepeats (.number spelling)
  | str (text : String) : NoRepeats (.str text)
  | array {elements : List Document} (helements : ∀ e ∈ elements, NoRepeats e) :
      NoRepeats (.array elements)
  | object {members : List (String × Document)} (hnames : (Entries.names members).Nodup)
      (hmembers : ∀ m ∈ members, NoRepeats m.2) : NoRepeats (.object members)

/-- The members of a document that is an object. -/
def members? : Document → Option (List (String × Document))
  | .object ms => some ms
  | _ => none

/-- **Where keys lead to**, one after the other, from a document. -/
def follow? : Document → List String → Option Document
  | d, [] => some d
  | d, key :: keys => (d.members?.bind (Entries.find? key)).bind fun e => e.follow? keys

/-- The members of the object that keys lead to. -/
def objectAt? (d : Document) (keys : List String) : Option (List (String × Document)) :=
  (d.follow? keys).bind members?

/-- Keys may be followed in two goes. -/
theorem follow?_append (d : Document) (keys keys' : List String) :
    d.follow? (keys ++ keys') = (d.follow? keys).bind fun e => e.follow? keys' := by
  induction keys generalizing d with
  | nil => rfl
  | cons key keys ih =>
    rw [List.cons_append, follow?, follow?, funext ih, ← Option.bind_assoc]

/-! ## Reading what was written

The first stage: the characters of a value are those of its lexemes. A word
needs a character behind it that ends it, and there always is one inside of
a container. -/

section Quoted

variable {cs : List Char}

/-- A digit that was written is read as its value. -/
theorem hexValue?_hexDigit {n : Nat} (h : n < 16) : hexValue? (Json.hexDigit n) = some n := by
  revert n
  decide

/-- The escape of a control character is read as that character. -/
theorem escape?_control {c : Char} (h : c.toNat < 0x20) :
    escape? ('u' :: '0' :: '0' :: Json.hexDigit (c.toNat / 16)
      :: Json.hexDigit (c.toNat % 16) :: cs) = some (c, cs) := by
  have hzero : hexValue? '0' = some 0 := rfl
  have hvalue : ((0 * 16 + 0) * 16 + c.toNat / 16) * 16 + c.toNat % 16 = c.toNat := by omega
  have hsmall : (c.toNat < 0xD800 || 0xE000 ≤ c.toNat) = true := by simp; omega
  unfold escape? unit?
  simp only [hzero, hexValue?_hexDigit (show c.toNat / 16 < 16 by omega),
    hexValue?_hexDigit (Nat.mod_lt c.toNat (by decide)), bind, Option.bind_some, pure, hvalue,
    hsmall, if_true, Char.ofNat_toNat]

/-- Behind a backslash the reader takes an escape. -/
theorem quoted?_backslash {c : Char} {rest : List Char} (h : escape? cs = some (c, rest)) :
    quoted? ('\\' :: cs) = (quoted? rest).map fun r => (c :: r.1, r.2) := by
  rw [quoted?, if_neg (by decide), if_pos rfl]
  split
  · rename_i hnone
    rw [h] at hnone
    cases hnone
  · rename_i hsome
    obtain ⟨rfl, rfl⟩ := Prod.mk.inj (Option.some.inj (h.symm.trans hsome))
    rfl

/-- **A character of a quoted string is read as it was written.** -/
theorem quoted?_escapeChar_append (c : Char) (cs : List Char) :
    quoted? (Json.escapeChar c ++ cs) = (quoted? cs).map fun r => (c :: r.1, r.2) := by
  -- a letter that stands for a character
  have hletter : ∀ {d : Char}, d ≠ 'u' → letter? d = some c →
      quoted? ('\\' :: d :: cs) = (quoted? cs).map fun r => (c :: r.1, r.2) := by
    intro d hd hc
    refine quoted?_backslash ?_
    rw [escape?.eq_2 _ _ (by simpa using hd), hc]
    rfl
  unfold Json.escapeChar
  split_ifs with hquote hbackslash hb hf hn hr ht hcontrol
  · exact hletter (d := '"') (by decide) (by rw [hquote]; rfl)
  · exact hletter (d := '\\') (by decide) (by rw [hbackslash]; rfl)
  · exact hletter (d := 'b') (by decide) (by rw [hb]; rfl)
  · exact hletter (d := 'f') (by decide) (by rw [hf]; rfl)
  · exact hletter (d := 'n') (by decide) (by rw [hn]; rfl)
  · exact hletter (d := 'r') (by decide) (by rw [hr]; rfl)
  · exact hletter (d := 't') (by decide) (by rw [ht]; rfl)
  · exact quoted?_backslash (escape?_control hcontrol)
  · show quoted? (c :: cs) = _
    rw [quoted?, if_neg hquote, if_neg hbackslash, if_neg hcontrol]

/-- So a string is read as it was written, up to its quote. -/
theorem quoted?_flatMap_append (text : List Char) (cs : List Char) :
    quoted? (text.flatMap Json.escapeChar ++ '"' :: cs) = some (text, cs) := by
  induction text with
  | nil =>
    show quoted? ('"' :: cs) = _
    rw [quoted?, if_pos rfl]
  | cons c text ih =>
    rw [List.flatMap_cons, List.append_assoc, quoted?_escapeChar_append, ih]
    rfl

end Quoted

section Words

variable {cs : List Char}

/-- White space ends a word. -/
theorem isWordChar_of_isSpace {c : Char} (h : isSpace c = true) : isWordChar c = false := by
  simp only [isSpace, Bool.or_eq_true, decide_eq_true_eq] at h
  obtain ((rfl | rfl) | rfl) | rfl := h <;> rfl

/-- A mark ends a word. -/
theorem isWordChar_of_isMark {c : Char} (h : isMark c = true) : isWordChar c = false := by
  simp only [isMark, Bool.or_eq_true, decide_eq_true_eq] at h
  obtain ((((rfl | rfl) | rfl) | rfl) | rfl) | rfl := h <;> rfl

/-- Digits do not end a word. -/
theorem isWordChar_of_isDigits (h : isDigits cs = true) : ∀ c ∈ cs, isWordChar c = true := by
  intro c hc
  have hdigit : c.isDigit = true := (isDigits_iff.mp h).2 c hc
  simp [isWordChar, Char.isAlphanum, hdigit]

theorem isWordChar_of_isExponent (h : isExponent cs = true) : ∀ c ∈ cs, isWordChar c = true := by
  cases cs with
  | nil => simp
  | cons e cs =>
    unfold isExponent at h
    simp only [Bool.and_eq_true, Bool.or_eq_true, decide_eq_true_eq] at h
    obtain ⟨he, hdigits⟩ := h
    have hword := isWordChar_of_isDigits hdigits
    refine List.forall_mem_cons.mpr ⟨by rcases he with rfl | rfl <;> rfl, ?_⟩
    unfold Number.takeSign at hword
    split at hword
    · exact List.forall_mem_cons.mpr ⟨rfl, hword⟩
    · exact List.forall_mem_cons.mpr ⟨rfl, hword⟩
    · exact hword

theorem isWordChar_of_isFraction (h : isFraction cs = true) : ∀ c ∈ cs, isWordChar c = true := by
  unfold isFraction at h
  split at h
  · rename_i cs
    obtain ⟨hdigits, hexponent⟩ := Bool.and_eq_true_iff.mp h
    rw [← List.takeWhile_append_dropWhile (p := Char.isDigit) (l := cs)]
    exact List.forall_mem_cons.mpr ⟨rfl, List.forall_mem_append.mpr
      ⟨isWordChar_of_isDigits hdigits, isWordChar_of_isExponent hexponent⟩⟩
  · exact isWordChar_of_isExponent h

/-- **A numeral is a word.** -/
theorem isWordChar_of_isNumeral (h : isNumeral cs = true) : ∀ c ∈ cs, isWordChar c = true := by
  have hunsigned : ∀ {cs}, isUnsigned cs = true → ∀ c ∈ cs, isWordChar c = true := by
    intro cs h
    obtain ⟨hwhole, hfraction⟩ := Bool.and_eq_true_iff.mp h
    have hdigits := (Bool.and_eq_true_iff.mp hwhole).1
    rw [← List.takeWhile_append_dropWhile (p := Char.isDigit) (l := cs)]
    exact List.forall_mem_append.mpr
      ⟨isWordChar_of_isDigits hdigits, isWordChar_of_isFraction hfraction⟩
  unfold isNumeral at h
  split at h
  · exact List.forall_mem_cons.mpr ⟨rfl, hunsigned h⟩
  · exact hunsigned h

/-- A numeral is the number that it spells. -/
theorem word?_of_isNumeral (h : isNumeral cs = true) :
    word? cs = some (.number (String.ofList cs)) := by
  have hname : ∀ {name : List Char}, isNumeral name = false → cs ≠ name :=
    fun hname heq => absurd (heq ▸ h) (by simp [hname])
  unfold word?
  rw [if_neg (hname rfl), if_neg (hname rfl), if_neg (hname rfl), if_pos h]

/-- **A word is read as its value**, when no character of words follows. -/
theorem lexemes?_word_append {w : List Char} {d : Document} (hd : word? w = some d)
    (hw : ∀ c ∈ w, isWordChar c = true) (hcs : ∀ c ∈ cs.head?, isWordChar c = false) :
    lexemes? (w ++ cs) = (lexemes? cs).map (.word d :: ·) := by
  cases w with
  | nil => cases hd
  | cons c w =>
    obtain ⟨hc, hw⟩ := List.forall_mem_cons.mp hw
    have hspace : ¬isSpace c = true := fun h => absurd hc (by simp [isWordChar_of_isSpace h])
    have hmark : ¬isMark c = true := fun h => absurd hc (by simp [isWordChar_of_isMark h])
    have hquote : c ≠ '"' := fun h => absurd hc (by rw [h]; decide)
    have htake := Text.takeWhile_append_eq hw hcs
    have hdrop := Text.dropWhile_append_eq hw hcs
    rw [List.cons_append, lexemes?, if_neg hspace, if_neg hmark, if_neg hquote, htake, hdrop, hd]

end Words

/-- **A quoted string is read as its text.** -/
theorem lexemes?_quote_append (s : String) (cs : List Char) :
    lexemes? (Json.quote s ++ cs) = (lexemes? cs).map (.quoted s :: ·) := by
  have hquoted := quoted?_flatMap_append s.toList cs
  unfold Json.quote
  rw [List.cons_append, List.append_assoc, lexemes?, if_neg (by decide), if_neg (by decide),
    if_pos rfl]
  split
  · rename_i hnone
    exact absurd (hnone.symm.trans hquoted) (by simp)
  · rename_i hsome
    obtain ⟨rfl, rfl⟩ := Prod.mk.inj (Option.some.inj (hquoted.symm.trans hsome))
    rw [String.ofList_toList]

/-- A mark is a lexeme by itself. -/
theorem lexemes?_mark_cons {c : Char} (hspace : isSpace c = false) (hmark : isMark c = true)
    (cs : List Char) : lexemes? (c :: cs) = (lexemes? cs).map (.mark c :: ·) := by
  rw [lexemes?, hspace, if_neg Bool.false_ne_true, if_pos hmark]

end Document

/-! ## The lexemes of a value

The second stage: the lexemes of a value are built up to it, inside of any
containers. The induction is on the value, and elements and members have
statements of their own, since a list of them is built up in the container
that is open. -/

namespace Json

open Document

mutual
/-- The lexemes of the text of a value. -/
def lexemes : Json → List Lexeme
  | .null => [.word .null]
  | .bool b => [.word (.bool b)]
  | .number n => [.word (.number n.spell)]
  | .str s => [.quoted s]
  | .array [] => [.mark '[', .mark ']']
  | .array (e :: es) => .mark '[' :: (lexemes e ++ elementLexemes es ++ [.mark ']'])
  | .object [] => [.mark '\x7b', .mark '\x7d']
  | .object ((name, v) :: ms) =>
    .mark '\x7b' :: .quoted name :: .mark ':' :: (lexemes v ++ memberLexemes ms ++ [.mark '\x7d'])

/-- The lexemes of further elements. -/
def elementLexemes : List Json → List Lexeme
  | [] => []
  | e :: es => .mark ',' :: (lexemes e ++ elementLexemes es)

/-- The lexemes of further members. -/
def memberLexemes : List (String × Json) → List Lexeme
  | [] => []
  | (name, v) :: ms => .mark ',' :: .quoted name :: .mark ':' :: (lexemes v ++ memberLexemes ms)
end

mutual
/-- A value as a document. -/
def document : Json → Document
  | .null => .null
  | .bool b => .bool b
  | .number n => .number n.spell
  | .str s => .str s
  | .array es => .array (elementDocuments es)
  | .object ms => .object (memberDocuments ms)

/-- Elements as documents. -/
def elementDocuments : List Json → List Document
  | [] => []
  | e :: es => document e :: elementDocuments es

/-- Members as documents, with their names. -/
def memberDocuments : List (String × Json) → List (String × Document)
  | [] => []
  | (name, v) :: ms => (name, document v) :: memberDocuments ms
end

/-- Members are read with their names. -/
theorem memberDocuments_eq_map (ms : List (String × Json)) :
    memberDocuments ms = ms.map fun m => (m.1, m.2.document) := by
  induction ms with
  | nil => rfl
  | cons m ms ih => rw [memberDocuments, ih, List.map_cons]

/-! ### From characters to lexemes

The text of a value ends where its last lexeme does. For a word this has to
be told by what follows, so what follows must not be a character of words.
Inside of a container it is a mark. -/

/-- No character of words is in front. -/
def Delimits (cs : List Char) : Prop := ∀ c ∈ cs.head?, isWordChar c = false

/-- Behind an element comes a comma, or what follows all of them. -/
theorem delimits_elementChars (es : List Json) {cs : List Char} (h : Delimits cs) :
    Delimits (elementChars es ++ cs) := by
  cases es with
  | nil => exact h
  | cons e es =>
    rintro _ ⟨⟩
    rfl

/-- Behind a member comes a comma, or what follows all of them. -/
theorem delimits_memberChars (ms : List (String × Json)) {cs : List Char} (h : Delimits cs) :
    Delimits (memberChars ms ++ cs) := by
  cases ms with
  | nil => exact h
  | cons m ms =>
    rintro _ ⟨⟩
    rfl

/-- A mark delimits. -/
theorem delimits_cons {c : Char} (h : isWordChar c = false) (cs : List Char) :
    Delimits (c :: cs) := by
  rintro _ ⟨⟩
  exact h

mutual
/-- **The text of a value is cut into its lexemes**, when no character of
words follows. -/
theorem lexemes?_chars_append (j : Json) {cs : List Char} (hcs : Delimits cs) :
    lexemes? (j.chars ++ cs) = (lexemes? cs).map (j.lexemes ++ ·) := by
  match j with
  | .null => exact lexemes?_word_append rfl (List.all_eq_true.mp rfl) hcs
  | .bool true => exact lexemes?_word_append rfl (List.all_eq_true.mp rfl) hcs
  | .bool false => exact lexemes?_word_append rfl (List.all_eq_true.mp rfl) hcs
  | .number n =>
    have hnumeral := n.isNumeral_spell
    have hword := word?_of_isNumeral hnumeral
    rw [String.ofList_toList] at hword
    exact lexemes?_word_append hword (isWordChar_of_isNumeral hnumeral) hcs
  | .str s => exact lexemes?_quote_append s cs
  | .array [] =>
    show lexemes? ('[' :: ']' :: cs) = _
    rw [lexemes?_mark_cons rfl rfl, lexemes?_mark_cons rfl rfl, Option.map_map]
    rfl
  | .array (e :: es) =>
    -- read up to the bracket that closes, then behind it
    have hclose : Delimits (']' :: cs) := delimits_cons rfl cs
    have hrest := delimits_elementChars es hclose
    have hshape : (Json.array (e :: es)).chars ++ cs
        = '[' :: (e.chars ++ (elementChars es ++ ']' :: cs)) := by
      simp [chars]
    rw [hshape, lexemes?_mark_cons rfl rfl, lexemes?_chars_append e hrest,
      lexemes?_elementChars_append es hclose, lexemes?_mark_cons rfl rfl]
    cases lexemes? cs <;> simp [lexemes]
  | .object [] =>
    show lexemes? ('\x7b' :: '\x7d' :: cs) = _
    rw [lexemes?_mark_cons rfl rfl, lexemes?_mark_cons rfl rfl, Option.map_map]
    rfl
  | .object ((name, v) :: ms) =>
    have hclose : Delimits ('\x7d' :: cs) := delimits_cons rfl cs
    have hrest := delimits_memberChars ms hclose
    have hshape : (Json.object ((name, v) :: ms)).chars ++ cs
        = '\x7b' :: (quote name ++ ':' :: (v.chars ++ (memberChars ms ++ '\x7d' :: cs))) := by
      simp [chars]
    rw [hshape, lexemes?_mark_cons rfl rfl, lexemes?_quote_append, lexemes?_mark_cons rfl rfl,
      lexemes?_chars_append v hrest, lexemes?_memberChars_append ms hclose,
      lexemes?_mark_cons rfl rfl]
    cases lexemes? cs <;> simp [lexemes]

/-- Further elements are read with their commas. -/
theorem lexemes?_elementChars_append (es : List Json) {cs : List Char} (hcs : Delimits cs) :
    lexemes? (elementChars es ++ cs) = (lexemes? cs).map (elementLexemes es ++ ·) := by
  match es with
  | [] => simp [elementChars, elementLexemes]
  | e :: es =>
    have hshape : elementChars (e :: es) ++ cs = ',' :: (e.chars ++ (elementChars es ++ cs)) := by
      simp [elementChars]
    rw [hshape, lexemes?_mark_cons rfl rfl, lexemes?_chars_append e (delimits_elementChars es hcs),
      lexemes?_elementChars_append es hcs]
    cases lexemes? cs <;> simp [elementLexemes]

/-- Further members are read with their commas and names. -/
theorem lexemes?_memberChars_append (ms : List (String × Json)) {cs : List Char}
    (hcs : Delimits cs) :
    lexemes? (memberChars ms ++ cs) = (lexemes? cs).map (memberLexemes ms ++ ·) := by
  match ms with
  | [] => simp [memberChars, memberLexemes]
  | (name, v) :: ms =>
    have hshape : memberChars ((name, v) :: ms) ++ cs
        = ',' :: (quote name ++ ':' :: (v.chars ++ (memberChars ms ++ cs))) := by
      simp [memberChars]
    rw [hshape, lexemes?_mark_cons rfl rfl, lexemes?_quote_append, lexemes?_mark_cons rfl rfl,
      lexemes?_chars_append v (delimits_memberChars ms hcs), lexemes?_memberChars_append ms hcs]
    cases lexemes? cs <;> simp [memberLexemes]
end

/-! ### From lexemes to the document

A value is read in the same way in whatever containers. What differs is only
what is done with it behind, and that is the state of the reader that comes
next. -/

/-- Behind an opening bracket there is a value, not the closing bracket. -/
theorem value?_openSquare (e : Json) (frames : List Frame) (ls : List Lexeme) :
    value? frames (.mark '[' :: (e.lexemes ++ ls))
      = value? (.array [] :: frames) (e.lexemes ++ ls) := by
  match e with
  | .null => rfl
  | .bool _ => rfl
  | .number _ => rfl
  | .str _ => rfl
  | .array [] => rfl
  | .array (_ :: _) => rfl
  | .object [] => rfl
  | .object (_ :: _) => rfl

mutual
/-- **The lexemes of a value are read as its document**, inside of any
containers. -/
theorem value?_lexemes_append (j : Json) (frames : List Frame) (ls : List Lexeme) :
    value? frames (j.lexemes ++ ls) = after? j.document frames ls := by
  match j with
  | .null => rfl
  | .bool _ => rfl
  | .number _ => rfl
  | .str _ => rfl
  | .array [] => rfl
  | .array (e :: es) =>
    have hshape : (Json.array (e :: es)).lexemes ++ ls
        = .mark '[' :: (e.lexemes ++ (elementLexemes es ++ .mark ']' :: ls)) := by
      simp [lexemes]
    rw [hshape, value?_openSquare, value?_lexemes_append e, after?_elementLexemes_append es]
    rfl
  | .object [] => rfl
  | .object ((name, v) :: ms) =>
    have hshape : (Json.object ((name, v) :: ms)).lexemes ++ ls
        = .mark '\x7b' :: .quoted name :: .mark ':' ::
          (v.lexemes ++ (memberLexemes ms ++ .mark '\x7d' :: ls)) := by
      simp [lexemes]
    rw [hshape, value?, value?_lexemes_append v, after?_memberLexemes_append]
    rfl

/-- Further elements come behind those that an array has. -/
theorem after?_elementLexemes_append (es : List Json) (d : Document) (before : List Document)
    (frames : List Frame) (ls : List Lexeme) :
    after? d (.array before :: frames) (elementLexemes es ++ .mark ']' :: ls)
      = after? (.array (before ++ d :: elementDocuments es)) frames ls := by
  match es with
  | [] => rfl
  | e :: es =>
    have hshape : elementLexemes (e :: es) ++ .mark ']' :: ls
        = .mark ',' :: (e.lexemes ++ (elementLexemes es ++ .mark ']' :: ls)) := by
      simp [elementLexemes]
    rw [hshape, after?, value?_lexemes_append e, after?_elementLexemes_append es]
    simp [elementDocuments]

/-- Further members come behind those that an object has. -/
theorem after?_memberLexemes_append (ms : List (String × Json)) (d : Document)
    (before : List (String × Document)) (name : String) (frames : List Frame)
    (ls : List Lexeme) :
    after? d (.object before name :: frames) (memberLexemes ms ++ .mark '\x7d' :: ls)
      = after? (.object (before ++ (name, d) :: memberDocuments ms)) frames ls := by
  match ms with
  | [] => rfl
  | (name', v) :: ms =>
    have hshape : memberLexemes ((name', v) :: ms) ++ .mark '\x7d' :: ls
        = .mark ',' :: .quoted name' :: .mark ':' ::
          (v.lexemes ++ (memberLexemes ms ++ .mark '\x7d' :: ls)) := by
      simp [memberLexemes]
    rw [hshape, after?, value?_lexemes_append v, after?_memberLexemes_append ms]
    simp [memberDocuments]
end

end Json

/-- **Reading what a value was written as gives the value back.** -/
theorem Document.read?_render (j : Json) : read? j.render = some j.document := by
  have hend : Json.Delimits [] := by
    rintro _ ⟨⟩
  have hlexemes := j.lexemes?_chars_append hend
  have hvalue := j.value?_lexemes_append [] []
  rw [List.append_nil, lexemes?] at hlexemes
  unfold read? Json.render
  rw [String.toList_ofList, hlexemes]
  exact hvalue

end Stylebook
