import Mathlib
import Stylebook.Proofs.Toml.Sections
import Stylebook.Settings.Load

/-!
# Where warnings point

A key of a settings file that is not known leaves a warning, with the line
that assigns the key. That line is searched for in the text: it is the first
one that has the key and an equals sign in front. Which table the key is in
does not count, nor whether the line is one of a text in triple quotes.

So a warning need not point to the key that it is about. Another table above
may have a key of the same name, even a known one (`misleads_of_namesake`).
What holds of every file that is laid out in sections is `warnings_ofText`:
there is one warning for each unknown key of a known table, in order, and
each one points to the line of its key exactly if no line above looks like
an assignment of that key. Otherwise it points to a line above.
-/

namespace Stylebook

namespace Settings

variable {text : String}

/-! ### The lines of a text

The lines are counted in the text by one function, and the place of a
statement is counted by another one. That they agree is not only a matter of
line feeds: a carriage return before one belongs to the break. -/

section Lines

variable {cs front rest key : List Char}

/-- A text with characters has a line. -/
theorem lines_ne_nil (h : cs ≠ []) : lines cs ≠ [] := by
  cases cs with
  | nil => exact absurd rfl h
  | cons c cs =>
    unfold lines
    split
    · exact List.cons_ne_nil _ _
    · split
      · exact List.cons_ne_nil _ _
      · split <;> exact List.cons_ne_nil _ _
      · exact List.cons_ne_nil _ _

/-- A line feed is the end of an empty line. -/
theorem lines_break (cs : List Char) : lines ('\n' :: cs) = [] :: lines cs := rfl

/-- A character that is no line feed goes to the line behind it, or else to
the break. -/
theorem lines_cons_cons {c : Char} (hc : c ≠ '\n') {d : Char} {l : List Char}
    {ls : List (List Char)} (hl : lines (d :: cs) = l :: ls) :
    lines (c :: d :: cs) = (if d = '\n' ∧ c = '\r' then l else c :: l) :: ls := by
  conv_lhs => unfold lines
  rw [if_neg hc, hl]
  by_cases hbreak : d = '\n' ∧ c = '\r'
  · simp [hbreak]
  · simp only [if_neg hbreak]
    exact if_neg (by simpa using hbreak)

/-- A character that is no part of a line break comes to the front of the
first line. -/
theorem exists_lines_cons {c : Char} (hbreak : c ≠ '\n') (hreturn : c ≠ '\r') (cs : List Char) :
    ∃ l, lines (c :: cs) = (c :: l) :: (lines cs).tail ∧ ∀ l' ∈ (lines cs).head?, l = l' := by
  cases cs with
  | nil => exact ⟨[], if_neg hbreak, fun _ h => nomatch h⟩
  | cons d cs =>
    obtain ⟨l, ls, hl⟩ := List.exists_cons_of_ne_nil (lines_ne_nil (List.cons_ne_nil d cs))
    refine ⟨l, ?_, fun l' h => ?_⟩
    · rw [lines_cons_cons hbreak hl, if_neg fun h => hreturn h.2, hl, List.tail_cons]
    · rw [hl] at h
      exact Option.some.inj h

/-- **A line break ends a line**: the lines in front of it and the lines
behind it are those of the two parts of the text. -/
theorem lines_append_break (front rest : List Char) :
    lines (front ++ '\n' :: rest) = lines (front ++ ['\n']) ++ lines rest := by
  induction front with
  | nil => rfl
  | cons c front ih =>
    by_cases hc : c = '\n'
    · rw [hc, List.cons_append, List.cons_append, lines_break, lines_break, ih, List.cons_append]
    obtain ⟨d, hd⟩ : ∃ d, ∀ cs, ∃ ds, front ++ '\n' :: cs = d :: ds := by
      cases front with
      | nil => exact ⟨'\n', fun cs => ⟨cs, rfl⟩⟩
      | cons d front => exact ⟨d, fun cs => ⟨front ++ '\n' :: cs, rfl⟩⟩
    obtain ⟨ds, hds⟩ := hd rest
    obtain ⟨es, hes⟩ := hd []
    obtain ⟨l, ls, hl⟩ := List.exists_cons_of_ne_nil (lines_ne_nil (List.cons_ne_nil d es))
    rw [hds, hes, hl, List.cons_append] at ih
    rw [List.cons_append, List.cons_append, hds, hes, lines_cons_cons hc ih, lines_cons_cons hc hl,
      List.cons_append]

/-- A text that ends in a line break has as many lines as line breaks. -/
theorem length_lines_break (front : List Char) :
    (lines (front ++ ['\n'])).length = front.count '\n' + 1 := by
  induction front with
  | nil => rfl
  | cons c front ih =>
    by_cases hc : c = '\n'
    · rw [hc, List.cons_append, lines_break, List.length_cons, ih, List.count_cons_self]
    · obtain ⟨d, ds, hds⟩ := List.exists_cons_of_ne_nil
        (List.append_ne_nil_of_right_ne_nil front (List.cons_ne_nil '\n' []))
      obtain ⟨l, ls, hl⟩ := List.exists_cons_of_ne_nil (lines_ne_nil (List.cons_ne_nil d ds))
      rw [hds, hl] at ih
      rw [List.cons_append, hds, lines_cons_cons hc hl, List.count_cons_of_ne hc, ← ih]
      rfl

/-- The first line goes at least as far as there is no part of a line break. -/
theorem exists_lines_append (hfront : ∀ c ∈ front, c ≠ '\n' ∧ c ≠ '\r') (rest : List Char) :
    ∃ l ls, lines (front ++ '=' :: rest) = (front ++ '=' :: l) :: ls := by
  induction front with
  | nil =>
    obtain ⟨l, hl, -⟩ := exists_lines_cons (c := '=') (by decide) (by decide) rest
    exact ⟨l, _, hl⟩
  | cons c front ih =>
    obtain ⟨hc, hfront⟩ := List.forall_mem_cons.mp hfront
    obtain ⟨l, ls, hl⟩ := ih hfront
    obtain ⟨l', hl', heq⟩ := exists_lines_cons hc.1 hc.2 (front ++ '=' :: rest)
    have hhead : l' = front ++ '=' :: l := heq _ (by rw [hl]; rfl)
    exact ⟨l, ls, by rw [List.cons_append, hl', hl, hhead, List.tail_cons, List.cons_append]⟩

/-- **A line that assigns a key**: space, the key, space and an equals sign. -/
theorem assigns_append {space gap : List Char} (hspace : ∀ c ∈ space, Text.isBlank c = true)
    (hgap : ∀ c ∈ gap, Text.isBlank c = true) (hkey : ∀ c ∈ key.head?, Text.isBlank c = false)
    (hne : key ≠ []) : assigns key (space ++ (key ++ (gap ++ '=' :: rest))) = true := by
  have htrim : Text.trimLeft (space ++ (key ++ (gap ++ '=' :: rest)))
      = key ++ (gap ++ '=' :: rest) := by
    refine Text.dropWhile_append_eq hspace ?_
    rwa [List.head?_append_of_ne_nil _ hne]
  have htrimgap : Text.trimLeft (gap ++ '=' :: rest) = '=' :: rest := by
    refine Text.dropWhile_append_eq hgap ?_
    rintro c ⟨⟩
    rfl
  rw [assigns, htrim, Text.dropFront?_append]
  dsimp only
  rw [htrimgap]
  rfl

end Lines

/-- **The line that is found** for a key is the first one that assigns it,
so none behind a line that does. -/
theorem assignmentLine?_of_lines {key : String} {before after : List (List Char)}
    {own : List Char} (hlines : lines text.toList = before ++ own :: after)
    (hown : assigns key.toList own = true) :
    ∃ m, assignmentLine? text key = some m ∧ m ≤ before.length + 1 ∧
      (m = before.length + 1 ↔ ∀ l ∈ before, assigns key.toList l = false) := by
  unfold assignmentLine?
  rw [hlines, List.findIdx?_append, List.findIdx?_cons, if_pos hown]
  cases hfind : before.findIdx? (assigns key.toList) with
  | none =>
    refine ⟨before.length + 1, by simp, Nat.le_refl _, iff_of_true rfl ?_⟩
    exact List.findIdx?_eq_none_iff.mp hfind
  | some i =>
    obtain ⟨hlt, hassigns, -⟩ := List.findIdx?_eq_some_iff_getElem.mp hfind
    refine ⟨i + 1, rfl, by omega, iff_of_false (by omega) fun hnone => ?_⟩
    have hnot := hnone _ (List.getElem_mem hlt)
    rw [hassigns] at hnot
    cases hnot

/-! ### The line of an assignment

A bare key cannot hide from the search. It has no space in it and none of
the characters that end it, so its own line does look like an assignment of
it. The line that is found is then not behind it; and in front of it there
may be a line that looks the same. -/

/-- Space within a line is white space. -/
theorem isBlank_of_isSpace {c : Char} (h : Toml.isSpace c = true) : Text.isBlank c = true := by
  have hcases : c = ' ' ∨ c = '\t' := by simpa [Toml.isSpace] using h
  rcases hcases with rfl | rfl <;> decide

/-- The characters of a bare key are within these bounds. -/
theorem bounds_of_isBare {c : Char} (h : Toml.isBare c = true) : 45 ≤ c.toNat ∧ c.toNat ≤ 122 := by
  simp only [Toml.isBare, Char.isAlphanum, Char.isAlpha, Char.isUpper, Char.isLower,
    Char.isDigit, Bool.or_eq_true, Bool.and_eq_true, decide_eq_true_eq,
    UInt32.le_iff_toNat_le, ge_iff_le] at h
  have hval : c.toNat = c.val.toNat := rfl
  have hletters : 'A'.val.toNat = 65 ∧ 'Z'.val.toNat = 90 ∧ 'a'.val.toNat = 97
    ∧ 'z'.val.toNat = 122 ∧ '0'.val.toNat = 48 ∧ '9'.val.toNat = 57 := by decide
  rcases h with (((h | h) | h) | rfl) | rfl
  · omega
  · omega
  · omega
  · decide
  · decide

/-- No character of a bare key is white space. -/
theorem isBlank_of_isBare {c : Char} (h : Toml.isBare c = true) : Text.isBlank c = false := by
  have hbounds := bounds_of_isBare h
  simp [Text.isBlank]
  omega

/-- **The line that is found for an assignment** is not behind its own line,
and it is its own line exactly if no line in front looks like an assignment
of the key. -/
theorem exists_assignmentLine? {sections : List Toml.Section} (hlaid : Toml.LaidOut text sections)
    {c : Toml.Section} (hc : c ∈ sections) {a : Toml.Assignment} (ha : a ∈ c.assignments)
    (hbare : a.IsBare text) :
    ∃ m, assignmentLine? text a.key = some m ∧ m ≤ a.place.line text ∧
      (m = a.place.line text ↔
        ∀ l ∈ (lines text.toList).take (a.place.line text - 1),
          assigns a.key.toList l = false) := by
  obtain ⟨front, space, gap, more, htext, hspace, hgap, hhead, hall, hplace⟩ :=
    hlaid.exists_of_mem_assignments hc ha hbare
  -- Nothing up to the equals sign is a part of a line break.
  have hplain : ∀ d ∈ space ++ (a.key.toList ++ gap), d ≠ '\n' ∧ d ≠ '\r' := by
    have hof : ∀ d, Toml.isSpace d = true ∨ Toml.isBare d = true → d ≠ '\n' ∧ d ≠ '\r' := by
      intro d hd
      constructor <;> rintro rfl <;> revert hd <;> decide
    intro d hd
    rcases List.mem_append.mp hd with hd | hd
    · exact hof d (Or.inl (hspace d hd))
    rcases List.mem_append.mp hd with hd | hd
    · exact hof d (Or.inr (hall d hd))
    · exact hof d (Or.inl (hgap d hd))
  obtain ⟨l, after, hown⟩ := exists_lines_append hplain more
  simp only [List.append_assoc] at hown
  have hne : a.key.toList ≠ [] := fun hnil => by
    rw [hnil] at hhead
    cases hhead
  have hassigns : assigns a.key.toList (space ++ (a.key.toList ++ (gap ++ '=' :: l))) = true := by
    refine assigns_append (fun d hd => isBlank_of_isSpace (hspace d hd))
      (fun d hd => isBlank_of_isSpace (hgap d hd)) (fun d hd => ?_) hne
    exact isBlank_of_isBare (hall d (List.mem_of_mem_head? hd))
  have hlines : lines text.toList
      = lines (front ++ ['\n']) ++ (space ++ (a.key.toList ++ (gap ++ '=' :: l))) :: after := by
    rw [htext, lines_append_break, hown]
  have hline : a.place.line text = (lines (front ++ ['\n'])).length + 1 := by
    have htake : text.toList.take (text.toList.length - a.place.start)
        = front ++ '\n' :: space := by
      rw [hplace, htext, ← List.cons_append, ← List.append_assoc, List.length_append,
        Nat.add_sub_cancel, List.take_left]
    have hnone : space.count '\n' = 0 :=
      List.count_eq_zero.mpr fun hmem => (hplain _ (List.mem_append_left _ hmem)).1 rfl
    rw [Toml.Place.line, htake, length_lines_break, List.count_append, List.count_cons_self, hnone]
  have hbefore : (lines text.toList).take (a.place.line text - 1) = lines (front ++ ['\n']) := by
    rw [hline, Nat.add_sub_cancel, hlines, List.take_left]
  rw [hbefore, hline]
  exact assignmentLine?_of_lines hlines hassigns

/-! ### The keys that are not known

Loading goes through the tables and notes what it does not know. A note has
the name of the table, so it can be told where it comes from. -/

/-- Whether a group has a key of this name. -/
def Group.knows (g : Group) (key : String) : Bool :=
  (g.fields.find? fun f => f.name = key).isSome

/-- Steps that each note some keys note all of them, in order. -/
theorem snd_of_foldlM {α : Type} {f : Loaded → α → Except Mismatch Loaded}
    {noted : α → List String} (hstep : ∀ l a l', f l a = .ok l' → l'.2 = l.2 ++ noted a)
    {as : List α} {l l' : Loaded} (h : as.foldlM f l = .ok l') :
    l'.2 = l.2 ++ as.flatMap noted := by
  induction as generalizing l with
  | nil =>
    cases h
    rw [List.flatMap_nil, List.append_nil]
  | cons a as ih =>
    rw [List.foldlM_cons] at h
    obtain ⟨l₁, ha, h⟩ := Except.bind_eq_ok.mp h
    rw [ih h, hstep l a l₁ ha, List.append_assoc, List.flatMap_cons]

/-- What the table of a group notes of one entry: its key, if this is not
known. -/
theorem snd_of_takeEntry {g : Group} {l l' : Loaded} {e : String × Toml.Item}
    (h : g.takeEntry l e = .ok l') :
    l'.2 = l.2 ++ if g.knows e.1 then [] else [g.name ++ "." ++ e.1] := by
  unfold Group.takeEntry at h
  unfold Group.knows
  split at h
  · next hfind =>
    obtain ⟨s, -, h⟩ := Except.bind_eq_ok.mp h
    cases h
    rw [hfind]
    exact (List.append_nil _).symm
  · next hfind =>
    cases h
    rw [hfind]
    rfl

/-- **The unknown keys of a section**, with the name of its table, or else
the name of a table that is not known. -/
def unknownOf (c : Toml.Section) : List String :=
  match groups.find? fun g => g.name = c.name with
  | some g =>
    (c.assignments.filter fun a => !g.knows a.key).map fun a => g.name ++ "." ++ a.key
  | none => [c.name]

/-- The table of a section notes its unknown keys, or its own name. -/
theorem snd_of_take {l l' : Loaded} {c : Toml.Section} (h : takeEntry l c.entry = .ok l') :
    l'.2 = l.2 ++ unknownOf c := by
  unfold takeEntry at h
  unfold unknownOf
  split at h
  · next g hfind =>
    rw [show (groups.find? fun g => g.name = c.name) = some g from hfind]
    have hfold : (c.assignments.map Toml.Assignment.entry).foldlM g.takeEntry l = .ok l' := h
    have hnoted := snd_of_foldlM (fun _ _ _ h => snd_of_takeEntry h) hfold
    rw [hnoted, List.flatMap_map]
    congr 1
    induction c.assignments with
    | nil => rfl
    | cons a as ih =>
      rw [List.flatMap_cons, ih]
      cases hknows : g.knows a.key <;> simp [Toml.Assignment.entry, hknows]
  · next hfind =>
    rw [show (groups.find? fun g => g.name = c.name) = none from hfind]
    cases h
    rfl

/-- The name of a key is cut where the name of its table ends. -/
theorem splitLastPoint_append {key : List Char} (h : '.' ∉ key) (table : List Char) :
    splitLastPoint (table ++ '.' :: key) = (some table, key) := by
  have hrev : (table ++ '.' :: key).reverse = key.reverse ++ '.' :: table.reverse := by simp
  have hall : ∀ c ∈ key.reverse, decide (c ≠ '.') = true := by
    intro c hc
    rw [decide_eq_true_iff]
    rintro rfl
    exact h (List.mem_reverse.mp hc)
  have hpoint : ∀ c ∈ ('.' :: table.reverse).head?, decide (c ≠ '.') = false := by
    rintro c ⟨⟩
    rfl
  unfold splitLastPoint
  rw [hrev, Text.takeWhile_append_eq hall hpoint, Text.dropWhile_append_eq hall hpoint,
    List.reverse_reverse]
  dsimp only
  rw [List.reverse_reverse]

/-- A note of a key is taken apart at its last point, and a bare key has
none. -/
theorem warning_of_key {group key : String} (h : '.' ∉ key.toList) :
    warning text (group ++ "." ++ key)
      = ⟨key, assignmentLine? text key, suggestion? (some group) key⟩ := by
  have hname : (group ++ "." ++ key).toList = group.toList ++ '.' :: key.toList := by
    simp [String.toList_append]
  unfold warning
  rw [hname, splitLastPoint_append h]
  simp

/-! ### The warnings of a settings file

For files in sections all that the warnings depend on is known: which keys
there are, in which tables, and where they stand. So the statement is an
exact one. It says when the line is right, and that it is never too far
down. -/

/-- **The warnings about a section**: one for each key that its table does
not know, or one for the table, if this is not known itself. -/
def warningsOf (text : String) (c : Toml.Section) : List Warning :=
  match groups.find? fun g => g.name = c.name with
  | some g =>
    (c.assignments.filter fun a => !g.knows a.key).map fun a =>
      ⟨a.key, assignmentLine? text a.key, suggestion? (some g.name) a.key⟩
  | none => [warning text c.name]

/-- What is noted of a section becomes the warnings about it. -/
theorem map_warning_unknownOf {c : Toml.Section}
    (hkeys : ∀ a ∈ c.assignments, '.' ∉ a.key.toList) :
    (unknownOf c).map (warning text) = warningsOf text c := by
  unfold unknownOf warningsOf
  split
  · rw [List.map_map]
    exact List.map_congr_left fun a ha => warning_of_key (hkeys a (List.mem_of_mem_filter ha))
  · rfl

/-- **The warnings of a settings file in sections**, whose keys are written
without quotes. For each unknown key of a known table there is one warning,
in the order of the keys, and it never points below the line of that key. It
points to this line exactly if no line above it looks like an assignment of
a key of the same name.

The line of a key is searched for from the top of the text, and what the
search looks for is less than an assignment of the key in its table. The
line of the key itself is found if no other one is, since a bare key stands
on it as the search expects it. -/
theorem warnings_ofText {s : Settings} {ws : List Warning} {sections : List Toml.Section}
    (htext : ofText text = .ok (s, ws)) (hlaid : Toml.LaidOut text sections)
    (hbare : ∀ c ∈ sections, ∀ a ∈ c.assignments, a.IsBare text) :
    ws = sections.flatMap (warningsOf text) ∧
      ∀ c ∈ sections, ∀ a ∈ c.assignments, ∃ m, assignmentLine? text a.key = some m ∧
        m ≤ a.place.line text ∧
        (m = a.place.line text ↔
          ∀ l ∈ (lines text.toList).take (a.place.line text - 1),
            assigns a.key.toList l = false) := by
  refine ⟨?_, fun c hc a ha => exists_assignmentLine? hlaid hc ha (hbare c hc a ha)⟩
  have hkeys : ∀ c ∈ sections, ∀ a ∈ c.assignments, '.' ∉ a.key.toList := by
    intro c hc a ha hpoint
    obtain ⟨-, -, -, -, -, -, -, -, hall, -⟩ :=
      hlaid.exists_of_mem_assignments hc ha (hbare c hc a ha)
    exact absurd (hall _ hpoint) (by decide)
  unfold ofText at htext
  split at htext
  · cases htext
  next es hes =>
  obtain rfl := Toml.Document.entries_ofText hlaid hes
  split at htext
  · cases htext
  next s' unknown hunknown =>
  cases htext
  have hnoted : unknown = sections.flatMap unknownOf := by
    rw [ofEntries, List.foldlM_map] at hunknown
    exact snd_of_foldlM (fun _ _ _ h => snd_of_take h) hunknown
  rw [hnoted, List.map_flatMap]
  exact List.flatMap_congr fun c hc => map_warning_unknownOf (hkeys c hc)

/-- A settings file with a misspelled key. -/
def misspelled : String := "[compile]\ndefault_unti = \"px\"\n\n[watch]\ndebounce_ms = 50\n"

/-- Its sections. -/
def misspelledSections : List Toml.Section :=
  [⟨⟨56, 9⟩, "compile", [⟨⟨46, 19⟩, "default_unti", .str ⟨31, 4⟩ "px"⟩]⟩,
    ⟨⟨25, 7⟩, "watch", [⟨⟨17, 16⟩, "debounce_ms", .int ⟨3, 2⟩ 50⟩]⟩]

/-- That it is laid out in these sections can be evaluated. -/
theorem laidOut_misspelled : Toml.LaidOut misspelled misspelledSections := by
  unfold Toml.LaidOut
  cbv

/-- Its one warning points to the line of the key, which has no namesake
above. -/
theorem warnings_ofText_of_misspelled :
    ∃ s, ofText misspelled = .ok (s, [⟨"default_unti", some 2, some "default_unit"⟩]) ∧
      Toml.LaidOut misspelled misspelledSections ∧
      (∀ c ∈ misspelledSections, ∀ a ∈ c.assignments, a.IsBare misspelled) ∧
      [⟨"default_unti", some 2, some "default_unit"⟩]
        = misspelledSections.flatMap (warningsOf misspelled) ∧
      ∀ c ∈ misspelledSections, ∀ a ∈ c.assignments,
        ∃ m, assignmentLine? misspelled a.key = some m ∧ m ≤ a.place.line misspelled ∧
          (m = a.place.line misspelled ↔
            ∀ l ∈ (lines misspelled.toList).take (a.place.line misspelled - 1),
              assigns a.key.toList l = false) := by
  have htext : ofText misspelled
      = .ok ({ debounce := 50 }, [⟨"default_unti", some 2, some "default_unit"⟩]) :=
    Except.eq_ok_of_toOption (by decide +kernel)
  have hbare : ∀ c ∈ misspelledSections, ∀ a ∈ c.assignments, a.IsBare misspelled := by
    decide +kernel
  exact ⟨_, htext, laidOut_misspelled, hbare, warnings_ofText htext laidOut_misspelled hbare⟩

/-- **A settings file that misleads**: it is laid out in sections, and the
warning about an unknown key of a known table does not point to the line of
that key. -/
def Misleads (text : String) : Prop :=
  ∃ s ws sections, ofText text = .ok (s, ws) ∧ Toml.LaidOut text sections ∧
    (∀ c ∈ sections, ∀ a ∈ c.assignments, a.IsBare text) ∧
    ∃ c ∈ sections, ∃ g ∈ groups, g.name = c.name ∧ ∃ a ∈ c.assignments, g.knows a.key = false ∧
      ∀ w ∈ ws, w.key = a.key → w.line ≠ some (a.place.line text)

/-- A line of a text in triple quotes looks like an assignment, and so does
that of a known key of the same name in another table. -/
theorem misleads_of_namesake :
    Misleads "[compile]\ndefault_unit = \"\"\"\nunti = 1\n\"\"\"\nunti = 2\n" ∧
      Misleads "[cache]\ndir = \"x\"\n\n[watch]\ndir = 1\n" := by
  constructor
  · refine ⟨{ defaultUnit := "unti = 1\n" }, [⟨"unti", some 3, none⟩],
      [⟨⟨51, 9⟩, "compile", [⟨⟨41, 31⟩, "default_unit", .str ⟨26, 16⟩ "unti = 1\n"⟩,
        ⟨⟨9, 8⟩, "unti", .int ⟨2, 1⟩ 2⟩]⟩],
      Except.eq_ok_of_toOption (by decide +kernel), ?_, by decide +kernel,
      _, List.mem_cons_self, _, List.mem_of_getElem? (i := 2) rfl, rfl,
      _, List.mem_of_getElem? (i := 1) rfl, by decide +kernel, by decide +kernel⟩
    unfold Toml.LaidOut
    cbv
  · refine ⟨{ cacheDirectory := ⟨"x"⟩ }, [⟨"dir", some 2, none⟩],
      [⟨⟨35, 7⟩, "cache", [⟨⟨27, 9⟩, "dir", .str ⟨21, 3⟩ "x"⟩]⟩,
        ⟨⟨16, 7⟩, "watch", [⟨⟨8, 7⟩, "dir", .int ⟨2, 1⟩ 1⟩]⟩],
      Except.eq_ok_of_toOption (by decide +kernel), ?_, by decide +kernel,
      _, List.mem_of_getElem? (i := 1) rfl, _, List.mem_of_getElem? (i := 3) rfl, rfl,
      _, List.mem_cons_self, by decide +kernel, by decide +kernel⟩
    unfold Toml.LaidOut
    cbv

end Settings

end Stylebook
