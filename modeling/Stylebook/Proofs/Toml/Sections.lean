import Mathlib.Data.List.TakeWhile
import Stylebook.Proofs.Toml.Reader
import Stylebook.Toml.Document

/-!
# Documents in sections

A document is mostly a list of sections. A section is the header of a table
and below it the keys of that table, each one assigned in a line of its own.
`LaidOut` says that the statements of a text are those of a list of
sections.

Of such a document both sides are known. Its tables are its sections, one by
one (`entries_ofText`): no header opens a table twice, and an assignment
goes to the table whose header it stands below. And each of its assignments
stands at a known place of the text (`exists_of_mem_assignments`): behind a
line break and space within the line, and what follows is its key, space and
an equals sign, if the key is written without quotes.
-/

namespace Stylebook.Toml

/-- **A key with its value**, as it stands in a section. -/
structure Assignment where
  place : Place
  key : String
  value : Item

/-- **A section**: the header of a table, and the assignments below it. -/
structure Section where
  place : Place
  name : String
  assignments : List Assignment

namespace Assignment

/-- The assignment among the statements of a document. -/
def statement (a : Assignment) : Statement := .assignment a.place [a.key] a.value

/-- The assignment among the entries of its table. -/
def entry (a : Assignment) : String × Item := (a.key, a.value)

/-- The key is written without quotes. -/
def IsBare (text : String) (a : Assignment) : Prop :=
  (text.toList.drop (text.toList.length - a.place.start)).head?.any isBare = true

instance (text : String) (a : Assignment) : Decidable (a.IsBare text) :=
  inferInstanceAs (Decidable (_ = true))

end Assignment

namespace Section

/-- The statements of a section. -/
def statements (s : Section) : List Statement :=
  .header s.place [s.name] :: s.assignments.map Assignment.statement

/-- The table of a section among the entries of the document. -/
def entry (s : Section) : String × Item :=
  (s.name, .table s.place .headed (s.assignments.map Assignment.entry))

end Section

/-- **A text that is laid out in sections**: its statements are theirs. -/
def LaidOut (text : String) (sections : List Section) : Prop :=
  (statements (text.toList.length + 1) (Document.withoutMark text.toList)).1
    = sections.flatMap Section.statements

/-- **The line in which a place is**, from one. -/
def Place.line (text : String) (p : Place) : Nat :=
  (text.toList.take (text.toList.length - p.start)).count '\n' + 1

/-! ### Where statements stand

Statements are read one by one, with space, comments and empty lines between
them. A statement other than the first has a line break before it, since the
one before it ended with its line. -/

/-- **A statement that stands in a text**, behind a line break and space
within the line. The parts of the text are named, because the line of the
statement will be counted in the first of them. -/
def StandsIn (cs : List Char) (s : Statement) : Prop :=
  ∃ front space start rest, cs = front ++ '\n' :: (space ++ start) ∧
    (∀ c ∈ space, isSpace c = true) ∧ statement start = .ok (s, rest)

/-- What reading the statements of a text comes to next: no statement at
all, another line, or a statement behind space. -/
theorem statements_cases (fuel : Nat) (cs : List Char) :
    (statements (fuel + 1) cs).1 = [] ∨
      (∃ rest, StartsLine cs rest ∧ (statements (fuel + 1) cs).1 = (statements fuel rest).1) ∨
      ∃ space start s rest, cs = space ++ start ∧ (∀ c ∈ space, isSpace c = true) ∧
        statement start = .ok (s, rest) ∧ StartsLine cs rest ∧
        (statements (fuel + 1) cs).1 = s :: (statements fuel rest).1 := by
  have hstart : cs.dropWhile isSpace <:+ cs := List.dropWhile_suffix _
  rw [statements]
  dsimp only
  split
  · exact Or.inl rfl
  · next hbreak _ =>
    exact Or.inr (Or.inl ⟨_, StartsLine.of_suffix
      (Or.inr (exists_of_afterLineBreak? hbreak)) hstart, rfl⟩)
  · split
    · next hend => exact Or.inr (Or.inl ⟨_, (startsLine_of_lineEnd hend).of_suffix hstart, rfl⟩)
    · exact Or.inl rfl
  · split
    · next s rest hs =>
      exact Or.inr (Or.inr ⟨cs.takeWhile isSpace, _, s, rest, List.takeWhile_append_dropWhile.symm,
        fun _ hc => List.mem_takeWhile_imp hc, hs, (startsLine_of_statement hs).of_suffix hstart, rfl⟩)
    · exact Or.inl rfl

/-- Nothing stands in an empty text. -/
theorem statements_nil (fuel : Nat) : (statements fuel []).1 = [] := by
  cases fuel with
  | zero => rfl
  | succ fuel => rfl

/-- From the start of a line on, every statement stands in the text. -/
theorem standsIn_of_startsLine {cs rest : List Char} {fuel : Nat} (h : StartsLine cs rest) :
    ∀ s ∈ (statements fuel rest).1, StandsIn cs s := by
  induction fuel generalizing rest with
  | zero => exact fun _ hs => absurd hs List.not_mem_nil
  | succ fuel ih =>
    obtain rfl | ⟨line, rfl⟩ := h
    · rw [statements_nil]
      exact fun _ hs => absurd hs List.not_mem_nil
    have hrest : rest <:+ line ++ '\n' :: rest :=
      (List.suffix_cons _ _).trans (List.suffix_append _ _)
    obtain hnone | ⟨next, hnext, heq⟩ | ⟨space, start, s, next, rfl, hspace, hs, hnext, heq⟩ :=
      statements_cases fuel rest
    · rw [hnone]
      exact fun _ hs => absurd hs List.not_mem_nil
    · rw [heq]
      exact ih (hnext.of_suffix hrest)
    · rw [heq, List.forall_mem_cons]
      exact ⟨⟨line, space, start, next, rfl, hspace, hs⟩, ih (hnext.of_suffix hrest)⟩

/-- **Every statement but the first one stands behind a line break.** -/
theorem standsIn_of_mem_tail {cs ds : List Char} (fuel : Nat) (hds : ds <:+ cs) :
    ∀ s ∈ (statements fuel ds).1.tail, StandsIn cs s := by
  cases fuel with
  | zero => exact fun _ hs => absurd hs List.not_mem_nil
  | succ fuel =>
    obtain hnone | ⟨next, hnext, heq⟩ | ⟨space, start, s, next, -, -, -, hnext, heq⟩ :=
      statements_cases fuel ds
    · rw [hnone]
      exact fun _ hs => absurd hs List.not_mem_nil
    · rw [heq]
      exact fun s hs => standsIn_of_startsLine (hnext.of_suffix hds) s (List.mem_of_mem_tail hs)
    · rw [heq]
      exact standsIn_of_startsLine (hnext.of_suffix hds)

/-- A mark of the byte order is left out at the start only. -/
theorem withoutMark_suffix (cs : List Char) : Document.withoutMark cs <:+ cs := by
  unfold Document.withoutMark
  split
  · exact List.suffix_cons _ _
  · exact List.suffix_refl _

/-! ### Keys without quotes

A key may be written in quotes and with escapes, and then its text is not
the key. Without quotes it is. -/

/-- A dotted key of a single part ends where that part ends. -/
theorem rest_of_moreKeyParts {fuel : Nat} {cs rest : List Char}
    (h : moreKeyParts fuel cs = .ok ([], rest)) : rest = cs := by
  unfold moreKeyParts at h
  split at h
  · split at h
    · obtain ⟨⟨parts, after⟩, -, h⟩ := Except.bind_eq_ok.mp h
      cases h
    · split at h
      · cases h
        rfl
      · cases h
  · cases h
    rfl

/-- A character of such a key is no space. -/
theorem isSpace_of_isBare {c : Char} (h : isBare c = true) : isSpace c = false := by
  rw [Bool.eq_false_iff]
  intro hspace
  have hcases : c = ' ' ∨ c = '\t' := by simpa [isSpace] using hspace
  rcases hcases with rfl | rfl <;> exact absurd h (by decide)

/-- **A key without quotes** is what stands there, up to the space behind
it. -/
theorem eq_append_of_key {cs rest : List Char} {k : String} (hbare : cs.head?.any isBare = true)
    (h : key cs = .ok ([k], rest)) :
    ∃ gap, cs = k.toList ++ (gap ++ rest) ∧ (∀ c ∈ gap, isSpace c = true) ∧
      k.toList.head?.any isBare = true ∧ ∀ c ∈ k.toList, isBare c = true := by
  obtain ⟨c, cs, rfl⟩ : ∃ d ds, cs = d :: ds := by
    cases cs with
    | nil => cases hbare
    | cons d ds => exact ⟨d, ds, rfl⟩
  have hbare : isBare c = true := hbare
  have hspace : (c :: cs).dropWhile isSpace = c :: cs :=
    List.dropWhile_cons_of_neg (by simp [isSpace_of_isBare hbare])
  have htake : (c :: cs).takeWhile isBare = c :: cs.takeWhile isBare :=
    List.takeWhile_cons_of_pos hbare
  have hpart : keyPart (c :: cs)
      = .ok (String.ofList ((c :: cs).takeWhile isBare), (c :: cs).dropWhile isBare) := by
    unfold keyPart
    split
    · next heq =>
      cases heq
      exact absurd hbare (by decide)
    · next heq =>
      cases heq
      exact absurd hbare (by decide)
    · rw [htake]
      rfl
  unfold key at h
  rw [hspace, hpart] at h
  obtain ⟨⟨part, after⟩, hpart, h⟩ := Except.bind_eq_ok.mp h
  cases hpart
  obtain ⟨⟨parts, after⟩, hmore, h⟩ := Except.bind_eq_ok.mp h
  dsimp only at h
  split at h
  · cases h
  cases h
  have hrest := rest_of_moreKeyParts hmore
  refine ⟨((c :: cs).dropWhile isBare).takeWhile isSpace, ?_,
    fun _ hd => List.mem_takeWhile_imp hd, ?_, ?_⟩
  · rw [String.toList_ofList, hrest, List.takeWhile_append_dropWhile,
      List.takeWhile_append_dropWhile]
  · rw [String.toList_ofList, htake]
    exact hbare
  · rw [String.toList_ofList]
    exact fun _ hd => List.mem_takeWhile_imp hd

/-! ### The assignments of a document in sections

The two sides are put together for one assignment: what the document says of
it, and where it stands. -/

section LaidOut

variable {text : String} {sections : List Section}

/-- An assignment is not the first statement, since it has a header before
it. -/
theorem LaidOut.standsIn (h : LaidOut text sections) {s : Section} (hs : s ∈ sections)
    {a : Assignment} (ha : a ∈ s.assignments) : StandsIn text.toList a.statement := by
  have hmem : a.statement ∈ s.statements.tail := List.mem_map_of_mem ha
  have htail := standsIn_of_mem_tail (text.toList.length + 1) (withoutMark_suffix text.toList)
  rw [h] at htail
  refine htail _ ?_
  obtain ⟨before, after, rfl⟩ := List.append_of_mem hs
  cases before with
  | nil => exact List.mem_append_left _ hmem
  | cons first before =>
    refine List.mem_append_right _ (List.mem_flatMap.mpr ⟨s, ?_, List.mem_of_mem_tail hmem⟩)
    exact List.mem_append_right _ List.mem_cons_self

/-- **Where an assignment stands**: behind a line break and space within the
line there are its key, space and an equals sign, and its place is where its
key starts. -/
theorem LaidOut.exists_of_mem_assignments (h : LaidOut text sections) {s : Section}
    (hs : s ∈ sections) {a : Assignment} (ha : a ∈ s.assignments) (hbare : a.IsBare text) :
    ∃ front space gap more,
      text.toList = front ++ '\n' :: (space ++ (a.key.toList ++ (gap ++ '=' :: more))) ∧
      (∀ c ∈ space, isSpace c = true) ∧ (∀ c ∈ gap, isSpace c = true) ∧
      a.key.toList.head?.any isBare = true ∧ (∀ c ∈ a.key.toList, isBare c = true) ∧
      a.place.start = (a.key.toList ++ (gap ++ '=' :: more)).length := by
  obtain ⟨front, space, start, rest, htext, hspace, hread⟩ := h.standsIn hs ha
  have hnot : ∀ place k v, a.statement = .assignment place k v →
      assignment start = .ok (a.statement, rest) := by
    intro place k v heq
    unfold statement at hread
    split at hread
    · exact absurd heq ((exists_of_header hread).1 place k v)
    · cases hread
    · exact hread
  obtain ⟨k, more, v, after, hkey, heq, -, -⟩ := exists_of_assignment (hnot _ _ _ rfl)
  injection heq with hplace hk hv
  have hstart : a.place.start = start.length := by rw [hplace]; rfl
  have hdrop : text.toList.drop (text.toList.length - a.place.start) = start := by
    rw [hstart, htext, ← List.singleton_append, ← List.append_assoc, ← List.append_assoc,
      List.length_append, Nat.add_sub_cancel, List.drop_left]
  rw [Assignment.IsBare, hdrop] at hbare
  rw [← hk] at hkey
  obtain ⟨gap, rfl, hgap, hhead, hall⟩ := eq_append_of_key hbare hkey
  exact ⟨front, space, gap, more, htext, hspace, hgap, hhead, hall, hstart⟩

end LaidOut

/-! ### The tables of a document in sections

Putting a statement into a document may go wrong in several ways. As long as
nothing did, each header opened a table that was not there, and each
assignment added a key to it. -/

namespace Document

/-- Statements are put in one after the other. -/
theorem addAll_append {ss ts : List Statement} {d d' : Document}
    (h : addAll d (ss ++ ts) = .ok d') : ∃ d₁, addAll d ss = .ok d₁ ∧ addAll d₁ ts = .ok d' := by
  induction ss generalizing d with
  | nil => exact ⟨d, rfl, h⟩
  | cons s ss ih =>
    rw [List.cons_append, addAll] at h
    split at h
    · next hs =>
      obtain ⟨d₁, hss, hts⟩ := ih h
      exact ⟨d₁, by rw [addAll, hs]; exact hss, hts⟩
    · cases h

/-- Each statement is put into what those before it left. -/
theorem addAll_cons {s : Statement} {ss : List Statement} {d d' : Document}
    (h : addAll d (s :: ss) = .ok d') : ∃ d₁, d.add s = .ok d₁ ∧ addAll d₁ ss = .ok d' := by
  rw [addAll] at h
  split at h
  · next hs => exact ⟨_, hs, h⟩
  · cases h

/-- **A header opens a new table**: every table that is there has a header
of its own. -/
theorem add_header {place : Place} {name : String} {sections : List Section} {d d' : Document}
    (hd : d.entries = sections.map Section.entry) (h : d.add (.header place [name]) = .ok d') :
    d.entries.lookup name = none ∧
      d' = ⟨d.entries ++ [(name, .table place .headed [])], [name]⟩ := by
  obtain ⟨es, hes, h⟩ := Except.bind_eq_ok.mp h
  cases h
  have hes : Entries.openTable [name] name place .headed d.entries = .ok es := hes
  unfold Entries.openTable at hes
  split at hes
  · next hlookup =>
    cases hes
    exact ⟨hlookup, rfl⟩
  · next hlookup =>
    obtain ⟨before, after, heq, -⟩ := List.lookup_eq_some_iff.mp hlookup
    have hmem := heq ▸ List.mem_append_right before List.mem_cons_self
    rw [hd] at hmem
    obtain ⟨s, -, heq⟩ := List.mem_map.mp hmem
    cases heq
  · cases hes

/-- A table that was not there is found at the end. -/
theorem lookup_append_of_none {name : String} {es : Entries} {i : Item}
    (h : es.lookup name = none) : (es ++ [(name, i)]).lookup name = some i := by
  rw [List.lookup_append, h, Option.none_or, List.lookup_cons, beq_self_eq_true]

/-- A table that was not there is changed at the end. -/
theorem replace_append_of_none {name : String} {es : Entries} {i j : Item}
    (h : es.lookup name = none) :
    Entries.replace name j (es ++ [(name, i)]) = es ++ [(name, j)] := by
  have hes : Entries.replace name j es = es := by
    unfold Entries.replace
    refine (List.map_congr_left fun e he => if_neg ?_).trans (List.map_id _)
    rintro rfl
    have hne := List.lookup_eq_none_iff.mp h e he
    rw [bne_self_eq_false] at hne
    cases hne
  unfold Entries.replace at hes ⊢
  rw [List.map_append, hes, List.map_singleton, if_pos rfl]

/-- **An assignment goes to the last table**, the one whose header it stands
below. -/
theorem add_assignment {a : Assignment} {place : Place} {name : String} {es inner : Entries}
    {d' : Document} (hes : es.lookup name = none)
    (h : add ⟨es ++ [(name, .table place .headed inner)], [name]⟩ a.statement = .ok d') :
    d' = ⟨es ++ [(name, .table place .headed (inner ++ [a.entry]))], [name]⟩ := by
  obtain ⟨es', hchange, h⟩ := Except.bind_eq_ok.mp h
  cases h
  unfold Entries.change at hchange
  rw [lookup_append_of_none hes] at hchange
  obtain ⟨inner', hinner, hchange⟩ := Except.bind_eq_ok.mp hchange
  cases hchange
  have hinner : Entries.add a.key a.value (some [name]) false .headed inner = .ok inner' := hinner
  unfold Entries.add at hinner
  split at hinner
  · cases hinner
  split at hinner
  · cases hinner
  · cases hinner
    rw [replace_append_of_none hes]
    rfl

/-- The assignments of a section all go to its table, in their order. -/
theorem addAll_assignments {as : List Assignment} {place : Place} {name : String}
    {es inner : Entries} {d' : Document} (hes : es.lookup name = none)
    (h : addAll ⟨es ++ [(name, .table place .headed inner)], [name]⟩
      (as.map Assignment.statement) = .ok d') :
    d'.entries = es ++ [(name, .table place .headed (inner ++ as.map Assignment.entry))] := by
  induction as generalizing inner with
  | nil =>
    cases h
    rw [List.map_nil, List.append_nil]
  | cons a as ih =>
    obtain ⟨d₁, ha, h⟩ := addAll_cons h
    rw [add_assignment hes ha] at h
    rw [ih h, List.map_cons, List.append_assoc, List.singleton_append]

/-- Sections put their tables behind those that are there. -/
theorem addAll_sections {sections : List Section} {d d' : Document} (done : List Section)
    (hd : d.entries = done.map Section.entry)
    (h : addAll d (sections.flatMap Section.statements) = .ok d') :
    d'.entries = (done ++ sections).map Section.entry := by
  induction sections generalizing done d with
  | nil =>
    cases h
    rw [hd, List.append_nil]
  | cons s sections ih =>
    obtain ⟨d₂, hs, h⟩ := addAll_append h
    obtain ⟨d₁, hheader, hs⟩ := addAll_cons hs
    obtain ⟨hnew, rfl⟩ := add_header hd hheader
    have hentries : d₂.entries = (done ++ [s]).map Section.entry := by
      rw [addAll_assignments hnew hs, hd, List.nil_append, List.map_append]
      rfl
    rw [ih (done ++ [s]) hentries h, List.append_assoc, List.singleton_append]

/-- **The tables of a document in sections** are those of its sections. -/
theorem entries_ofText {text : String} {sections : List Section} {es : Entries}
    (hlaid : LaidOut text sections) (h : ofText text = .ok es) :
    es = sections.map Section.entry := by
  unfold ofText at h
  dsimp only at h
  rw [show (statements _ _).1 = _ from hlaid] at h
  split at h
  · cases h
  · cases h
  · next d hd _ =>
    cases h
    exact addAll_sections [] rfl hd

end Document

end Stylebook.Toml
