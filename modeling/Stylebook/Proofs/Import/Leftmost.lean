import Mathlib.Data.List.Induction
import Mathlib.Data.String.Basic
import Stylebook.Proofs.Import.Replacement

/-!
# Replacing from left to right

`replaceAll` goes through a text once and asks at every character whether a
statement starts there. What this makes of the text is told here without
going through it: the text is *cut* at statements, each with all the white
space in front of it, and no statement starts in what lies between (`Cut`).
Then what lies between is kept, and the replacement stands for each
statement with its white space (`Cut.replaceAll_eq`). Every text can be cut
(`exists_cut`), and the cut does not depend on the replacement, so it is a
fact about the text and the target alone.

Statements can overlap: a target can hold the keyword and quotes itself, and
then a statement that starts in the target of another would be one too if
the first were not there. That none *starts* in what is kept, not even
to end in a later piece, is what makes the cut the leftmost one (`Quiet`).
To ask only that no statement lies inside of what is kept would leave a
choice.

The white space of a match is all that stands there. It may reach back to
the match before, which ends in a semicolon, and never into it. So what
stands before a match ends in another character, whether that belongs to
what is kept or to the match before (`Cut.maximal`).

The places of the matches are told in bytes as well (`Match.ranges`), for a
search that counts bytes; `Stylebook.Proofs.Import.Positions` is about that
search.
-/

namespace Stylebook.Import

open Text (isBlank)

/-! ## Statements in a text

A statement is a piece of a text here, told by what it is made of. Whether
one *starts* at a place is another question than whether one lies inside of
a piece: it may start in the piece and end behind it. -/

/-- **A statement of a target**: the keyword, white space, the quoted
target, white space and a semicolon. -/
def IsStatement (target cs : List Char) : Prop :=
  ∃ gap quote tail, gap ≠ [] ∧ (∀ c ∈ gap, isBlank c = true) ∧ IsQuote quote
    ∧ (∀ c ∈ tail, isBlank c = true)
    ∧ cs = keyword ++ (gap ++ quote :: (target ++ quote :: (tail ++ [';'])))

/-- A statement stands at the front of a text. -/
def Starts (target cs : List Char) : Prop := ∃ s, IsStatement target s ∧ s <+: cs

/-- **No statement starts in a text**, whatever of it stands in the rest
behind the text. -/
def Quiet (target cs rest : List Char) : Prop :=
  ∀ v, v <:+ cs → v ≠ [] → ¬Starts target (v ++ rest)

variable {target cs rest : List Char}

/-- What is looked for at a place is a statement with the rest behind it. -/
theorem afterStatement?_eq_some_iff :
    afterStatement? target cs = some rest ↔ ∃ s, IsStatement target s ∧ cs = s ++ rest := by
  rw [afterStatement?_eq_some]
  constructor
  · rintro ⟨gap, quote, tail, hne, hgap, hquote, htail, rfl⟩
    exact ⟨_, ⟨gap, quote, tail, hne, hgap, hquote, htail, rfl⟩, by simp⟩
  · rintro ⟨_, ⟨gap, quote, tail, hne, hgap, hquote, htail, rfl⟩, rfl⟩
    exact ⟨gap, quote, tail, hne, hgap, hquote, htail, by simp⟩

/-- Nothing is found at a place exactly if no statement starts there. -/
theorem afterStatement?_eq_none_iff : afterStatement? target cs = none ↔ ¬Starts target cs := by
  rw [Option.eq_none_iff_forall_ne_some]
  constructor
  · rintro h ⟨s, hs, rest, hrest⟩
    exact h rest (afterStatement?_eq_some_iff.mpr ⟨s, hs, hrest.symm⟩)
  · intro h rest hrest
    obtain ⟨s, hs, hcs⟩ := afterStatement?_eq_some_iff.mp hrest
    exact h ⟨s, hs, rest, hcs.symm⟩

/-- A statement has characters. -/
theorem IsStatement.ne_nil (h : IsStatement target cs) : cs ≠ [] := by
  obtain ⟨gap, quote, tail, -, -, -, -, rfl⟩ := h
  simp [keyword]

/-- A statement ends in its semicolon. -/
theorem IsStatement.eq_append (h : IsStatement target cs) : ∃ front, cs = front ++ [';'] := by
  obtain ⟨gap, quote, tail, -, -, -, -, rfl⟩ := h
  exact ⟨keyword ++ (gap ++ quote :: (target ++ quote :: tail)), by simp⟩

/-- No statement starts in nothing. -/
theorem quiet_nil : Quiet target [] rest := fun _ hv hne => absurd (List.suffix_nil.mp hv) hne

/-- A text is quiet if none starts at its first character nor behind it. -/
theorem quiet_cons {c : Char} :
    Quiet target (c :: cs) rest ↔ ¬Starts target (c :: (cs ++ rest)) ∧ Quiet target cs rest := by
  constructor
  · intro h
    exact ⟨h _ (List.suffix_refl _) (List.cons_ne_nil c cs),
      fun v hv hne => h v (hv.trans (List.suffix_cons c cs)) hne⟩
  · rintro ⟨hhere, hrest⟩ v hv hne
    rcases List.suffix_cons_iff.mp hv with rfl | hv
    · exact hhere
    · exact hrest v hv hne

/-- In a quiet text there is no statement. -/
theorem Quiet.not_infix {s : List Char} (h : Quiet target cs rest) (hs : IsStatement target s) :
    ¬s <:+: cs := by
  rintro ⟨front, back, rfl⟩
  refine h (s ++ back) ⟨front, by simp⟩ (by simp [hs.ne_nil]) ⟨s, hs, ?_⟩
  rw [List.append_assoc]
  exact List.prefix_append s _

/-- A front of a quiet text is quiet. -/
theorem Quiet.of_append {as bs : List Char} (h : Quiet target (as ++ bs) rest) :
    Quiet target as (bs ++ rest) := by
  rintro v ⟨front, rfl⟩ hne
  rw [← List.append_assoc]
  exact h (v ++ bs) ⟨front, by simp⟩ (by simp [hne])

/-- No statement starts in white space. -/
theorem quiet_of_isBlank (h : ∀ c ∈ cs, isBlank c = true) : Quiet target cs rest := by
  induction cs with
  | nil => exact quiet_nil
  | cons c cs ih =>
    obtain ⟨hc, hcs⟩ := List.forall_mem_cons.mp h
    have hne : c ≠ '@' := by
      rintro rfl
      cases hc
    exact quiet_cons.mpr ⟨afterStatement?_eq_none_iff.mp (afterStatement?_cons hne), ih hcs⟩

/-- Two quiet texts in a row are quiet, if the first one is so in front of
the second. -/
theorem Quiet.append {as bs : List Char} (has : Quiet target as (bs ++ rest))
    (hbs : Quiet target bs rest) : Quiet target (as ++ bs) rest := by
  induction as with
  | nil => exact hbs
  | cons c as ih =>
    obtain ⟨hhere, has⟩ := quiet_cons.mp has
    rw [List.cons_append]
    exact quiet_cons.mpr ⟨by rwa [List.append_assoc], ih has⟩

/-- **The first statement of a text**, if there is one. -/
theorem quiet_or_first (target cs : List Char) : Quiet target cs []
    ∨ ∃ front s rest, cs = front ++ (s ++ rest) ∧ IsStatement target s
      ∧ Quiet target front (s ++ rest) := by
  induction cs with
  | nil => exact Or.inl quiet_nil
  | cons c cs ih =>
    by_cases hstarts : Starts target (c :: cs)
    · obtain ⟨s, hs, rest, hrest⟩ := hstarts
      exact Or.inr ⟨[], s, rest, hrest.symm, hs, quiet_nil⟩
    · rcases ih with hquiet | ⟨front, s, rest, rfl, hs, hquiet⟩
      · exact Or.inl (quiet_cons.mpr ⟨by rwa [List.append_nil], hquiet⟩)
      · exact Or.inr ⟨c :: front, s, rest, rfl, hs, quiet_cons.mpr ⟨hstarts, hquiet⟩⟩

/-- White space at the end of a text, and what stands before it. -/
theorem exists_trimmed (cs : List Char) : ∃ kept space, cs = kept ++ space
    ∧ (∀ c ∈ space, isBlank c = true) ∧ ∀ c ∈ kept.getLast?, isBlank c = false := by
  induction cs using List.reverseRecOn with
  | nil => exact ⟨[], [], rfl, by simp, by simp⟩
  | append_singleton cs c ih =>
    by_cases hc : isBlank c = true
    · obtain ⟨kept, space, rfl, hspace, hkept⟩ := ih
      refine ⟨kept, space ++ [c], by simp, ?_, hkept⟩
      exact List.forall_mem_append.mpr ⟨hspace, List.forall_mem_singleton.mpr hc⟩
    · exact ⟨cs ++ [c], [], by simp, by simp, by simpa using hc⟩

/-! ## The cut

A cut is data, the list of its matches, and a property of them. The text can
be put together from the data again, and so can the text with replacements. -/

/-- **A match in a text**: a statement with the white space in front of it,
and the text that is kept between the match before and this one. -/
structure Match where
  kept : List Char
  space : List Char
  statement : List Char

namespace Match

/-- The text of a match. -/
def text (m : Match) : List Char := m.space ++ m.statement

/-- The text of what is kept and of the matches, and of what is last. -/
def whole (ms : List Match) (last : List Char) : List Char :=
  ms.flatMap (fun m => m.kept ++ m.text) ++ last

/-- **What is kept, with a replacement for each match.** -/
def replaced (replacement : List Char) (ms : List Match) (last : List Char) : List Char :=
  ms.flatMap (fun m => m.kept ++ replacement) ++ last

end Match

open Match (whole replaced)

/-- **A text cut from left to right** at the statements of a target. The
conditions on a piece look at the text behind it, so that a statement which
starts in the piece and reaches into the next one is not overlooked. This is
what makes the cut unique although statements may overlap. -/
inductive Cut (target : List Char) : (ms : List Match) → (last : List Char) → Prop
  /-- No statement starts any more. -/
  | last {cs : List Char} (quiet : Quiet target cs []) : Cut target [] cs
  /-- The first statement, with all the white space before it. -/
  | cons {m : Match} {ms : List Match} {last : List Char}
      (space : ∀ c ∈ m.space, isBlank c = true) (statement : IsStatement target m.statement)
      (trimmed : ∀ c ∈ m.kept.getLast?, isBlank c = false)
      (quiet : Quiet target m.kept (m.text ++ whole ms last)) (rest : Cut target ms last) :
      Cut target (m :: ms) last

namespace Match

/-- The text of a first match and of those behind it. -/
theorem whole_cons (m : Match) (ms : List Match) (last : List Char) :
    whole (m :: ms) last = m.kept ++ (m.text ++ whole ms last) := by
  simp [whole]

/-- The text with a first match and those behind it replaced. -/
theorem replaced_cons (replacement : List Char) (m : Match) (ms : List Match) (last : List Char) :
    replaced replacement (m :: ms) last
      = m.kept ++ (replacement ++ replaced replacement ms last) := by
  simp [replaced]

end Match

/-- **Every text can be cut.** Look for the first statement, cut off the
white space in front of it, and go on behind the statement. The text gets
shorter each time. -/
theorem exists_cut (target cs : List Char) :
    ∃ ms last, Cut target ms last ∧ cs = whole ms last := by
  induction hlength : cs.length using Nat.strongRecOn generalizing cs with
  | ind n ih =>
    subst hlength
    rcases quiet_or_first target cs with hquiet | ⟨front, s, rest, rfl, hs, hquiet⟩
    · exact ⟨[], cs, .last hquiet, rfl⟩
    · have hlt : rest.length < (front ++ (s ++ rest)).length := by
        have := List.length_pos_iff.mpr hs.ne_nil
        simp only [List.length_append]
        omega
      obtain ⟨ms, last, hcut, hrest⟩ := ih _ hlt rest rfl
      obtain ⟨kept, space, rfl, hspace, hkept⟩ := exists_trimmed front
      have hkeptquiet : Quiet target kept ((space ++ s) ++ whole ms last) := by
        rw [← hrest, List.append_assoc]
        exact hquiet.of_append
      refine ⟨⟨kept, space, s⟩ :: ms, last, .cons hspace hs hkept hkeptquiet hcut, ?_⟩
      rw [Match.whole_cons, ← hrest]
      simp [Match.text]

/-! ## Replacing

Replacing goes over a cut text match by match. Within what is kept it finds
nothing, as the piece is quiet. The white space of a match is held back when
the statement is found, and dropped with it. -/

/-- A text in which no statement starts stays as it is. -/
theorem replaceFrom_of_quiet {spaces : List Char} (replacement : List Char)
    (h : Quiet target cs []) :
    replaceFrom target replacement spaces cs = spaces.reverse ++ cs := by
  induction cs generalizing spaces with
  | nil => rw [replaceFrom_nil, List.append_nil]
  | cons c cs ih =>
    obtain ⟨hhere, hcs⟩ := quiet_cons.mp h
    rw [List.append_nil] at hhere
    rw [replaceFrom_of_none replacement (afterStatement?_eq_none_iff.mpr hhere), ih hcs, ih hcs]
    split <;> simp

/-- What is kept in front of a match is passed over. -/
theorem replaceFrom_kept {kept : List Char} (replacement : List Char)
    (h : Quiet target kept rest) (htrimmed : ∀ c ∈ kept.getLast?, isBlank c = false) :
    replaceFrom target replacement [] (kept ++ rest)
      = kept ++ replaceFrom target replacement [] rest := by
  rcases List.eq_nil_or_concat kept with rfl | ⟨front, c, rfl⟩
  · rfl
  · have hc : isBlank c = false := htrimmed c (by simp)
    rw [List.concat_eq_append, List.append_assoc, List.append_assoc]
    refine replaceFrom_append replacement (fun v hv => ?_) hc
    refine afterStatement?_eq_none_iff.mpr ?_
    have hv' : v ++ [c] <:+ front.concat c := by
      obtain ⟨pre, rfl⟩ := hv
      exact ⟨pre, by simp⟩
    have hstarts := h (v ++ [c]) hv' (by simp)
    rwa [List.append_assoc] at hstarts

/-- **A text that is cut is replaced match by match.** -/
theorem Cut.replaceAll_eq {ms : List Match} {last : List Char} (h : Cut target ms last)
    (replacement : List Char) :
    replaceAll target replacement (whole ms last) = replaced replacement ms last := by
  unfold replaceAll
  induction h with
  | last hquiet => exact replaceFrom_of_quiet replacement hquiet
  | @cons m ms last hspace hstatement htrimmed hquiet hrest ih =>
    have hmatch : replaceFrom target replacement [] (m.text ++ whole ms last)
        = replacement ++ replaceFrom target replacement [] (whole ms last) := by
      rw [Match.text, List.append_assoc, replaceFrom_blanks replacement hspace]
      exact replaceFrom_of_some replacement
        (afterStatement?_eq_some_iff.mpr ⟨_, hstatement, rfl⟩)
    rw [Match.whole_cons, Match.replaced_cons, replaceFrom_kept replacement hquiet htrimmed,
      hmatch, ih]

/-! ## What a cut says

A cut says of each match what stands behind it. For what stands before it,
the matches in front are gone through. -/

/-- From each of its matches on, a cut is one. -/
theorem Cut.of_append {before after : List Match} {m : Match} {last : List Char}
    (h : Cut target (before ++ m :: after) last) : Cut target (m :: after) last := by
  induction before with
  | nil => exact h
  | cons _ before ih =>
    cases h with
    | cons _ _ _ _ hrest => exact ih hrest

/-- In what is last no statement starts. -/
theorem Cut.quiet_last {ms : List Match} {last : List Char} (h : Cut target ms last) :
    Quiet target last [] := by
  induction h with
  | last hquiet => exact hquiet
  | cons _ _ _ _ _ ih => exact ih

/-- **The white space of a match is all that stands there**: what stands
before it ends in another character. Where nothing is kept between two
matches this is the semicolon of the first one. -/
theorem Cut.maximal {before after : List Match} {m : Match} {last : List Char}
    (h : Cut target (before ++ m :: after) last) :
    ∀ c ∈ (whole before m.kept).getLast?, isBlank c = false := by
  induction before with
  | nil =>
    cases h with
    | cons _ _ htrimmed _ _ => exact htrimmed
  | cons m' before ih =>
    cases h with
    | cons _ hstatement _ _ hrest =>
      obtain ⟨front, hfront⟩ := hstatement.eq_append
      intro c hc
      rw [Match.whole_cons, Match.text, hfront, List.getLast?_append, List.getLast?_append,
        List.getLast?_append, List.getLast?_append] at hc
      cases hlast : (whole before m.kept).getLast? with
      | none =>
        -- the match before ends here, and its last character is the semicolon
        rw [hlast] at hc
        obtain rfl : ';' = c := by simpa using hc
        decide
      | some d =>
        rw [hlast] at hc
        obtain rfl : d = c := by simpa using hc
        exact ih hrest d hlast

/-! ## Places in bytes

Characters have one to four bytes, so a place in bytes may be in the middle
of one. That the places of matches are not is seen from how they come about:
they are the sizes of fronts of the text. -/

open String (utf8Len)

namespace Match

/-- **Where the matches stand**: the bytes at which each starts and ends,
where `start` bytes stand before all of them. -/
def ranges (start : Nat) : List Match → List (Nat × Nat)
  | [] => []
  | m :: ms =>
    (start + utf8Len m.kept, start + utf8Len m.kept + utf8Len m.text)
      :: ranges (start + utf8Len m.kept + utf8Len m.text) ms

end Match

open Match (ranges)

/-- Behind the characters of a front stands the end of a character. -/
theorem isValid_utf8Len (as bs : List Char) :
    String.Pos.Raw.IsValid (String.ofList (as ++ bs)) ⟨utf8Len as⟩ := by
  refine String.Pos.Raw.isValid_iff_exists_append.mpr
    ⟨String.ofList as, String.ofList bs, String.ofList_append, ?_⟩
  rw [String.rawEndPos, String.utf8ByteSize_ofList]

/-- **The matches stand between characters.** -/
theorem isValid_of_mem_ranges (front : List Char) {ms : List Match} {last : List Char}
    {r : Nat × Nat} (hr : r ∈ ranges (utf8Len front) ms) :
    String.Pos.Raw.IsValid (String.ofList (front ++ whole ms last)) ⟨r.1⟩
      ∧ String.Pos.Raw.IsValid (String.ofList (front ++ whole ms last)) ⟨r.2⟩ := by
  induction ms generalizing front with
  | nil => cases hr
  | cons m ms ih =>
    have hkept : utf8Len front + utf8Len m.kept = utf8Len (front ++ m.kept) :=
      (String.utf8Len_append _ _).symm
    have htext : utf8Len (front ++ m.kept) + utf8Len m.text = utf8Len (front ++ m.kept ++ m.text) :=
      (String.utf8Len_append _ _).symm
    have hwhole : front ++ whole (m :: ms) last = front ++ m.kept ++ m.text ++ whole ms last := by
      simp [Match.whole_cons]
    rw [ranges, hkept, htext] at hr
    rw [hwhole]
    rcases List.mem_cons.mp hr with rfl | hr
    · refine ⟨?_, isValid_utf8Len _ _⟩
      rw [List.append_assoc (front ++ m.kept)]
      exact isValid_utf8Len _ _
    · exact ih _ hr

/-- A match is not before the start. -/
theorem le_of_mem_ranges {start : Nat} {ms : List Match} {r : Nat × Nat}
    (hr : r ∈ ranges start ms) : start ≤ r.1 := by
  induction ms generalizing start with
  | nil => cases hr
  | cons m ms ih =>
    rcases List.mem_cons.mp hr with rfl | hr
    · exact Nat.le_add_right _ _
    · have := ih hr
      omega

/-- **The matches come one after the other** and do not overlap. -/
theorem pairwise_ranges (start : Nat) (ms : List Match) :
    (ranges start ms).Pairwise fun r s => r.2 ≤ s.1 := by
  induction ms generalizing start with
  | nil => exact List.Pairwise.nil
  | cons m ms ih => exact List.Pairwise.cons (fun s hs => le_of_mem_ranges hs) (ih _)

/-- It has bytes. -/
theorem Cut.lt_of_mem_ranges {ms : List Match} {last : List Char} (h : Cut target ms last)
    {start : Nat} {r : Nat × Nat} (hr : r ∈ ranges start ms) : r.1 < r.2 := by
  induction h generalizing start with
  | last => cases hr
  | @cons m ms last _ hstatement _ _ _ ih =>
    rcases List.mem_cons.mp hr with rfl | hr
    · have hpos : utf8Len m.text ≠ 0 := by
        rw [Ne, String.utf8Len_eq_zero, Match.text, List.append_eq_nil_iff]
        exact fun hnil => hstatement.ne_nil hnil.2
      dsimp only
      omega
    · exact ih hr

/-! ## The leftmost replacement

What is to be said of a cut, without the way in which it was made. -/

/-- **The matches of a text from left to right**, and what is kept between
them. -/
structure IsLeftmost (target text : List Char) (ms : List Match) (last : List Char) : Prop where
  text_eq : text = whole ms last
  space : ∀ m ∈ ms, ∀ c ∈ m.space, isBlank c = true
  statement : ∀ m ∈ ms, IsStatement target m.statement
  /-- The white space of a match is all that stands there. -/
  maximal : ∀ before m after, ms = before ++ m :: after →
    ∀ c ∈ (whole before m.kept).getLast?, isBlank c = false
  trimmed : ∀ m ∈ ms, ∀ c ∈ m.kept.getLast?, isBlank c = false
  /-- No statement lies inside of what is kept. -/
  clean : ∀ cs ∈ ms.map Match.kept ++ [last], ∀ s, IsStatement target s → ¬s <:+: cs
  /-- Not even the start of a statement does. -/
  leftmost : ∀ before m after, ms = before ++ m :: after →
    Quiet target m.kept (m.text ++ whole after last)
  leftmost_last : Quiet target last []
  /-- The bytes of the matches are in order and apart. -/
  increasing : ∀ r ∈ ranges 0 ms, r.1 < r.2
  apart : (ranges 0 ms).Pairwise fun r s => r.2 ≤ s.1
  /-- No character is cut through. -/
  boundaries : ∀ r ∈ ranges 0 ms, String.Pos.Raw.IsValid (String.ofList text) ⟨r.1⟩
    ∧ String.Pos.Raw.IsValid (String.ofList text) ⟨r.2⟩

/-- A cut has the matches of its text from left to right. -/
theorem Cut.isLeftmost {ms : List Match} {last : List Char} (h : Cut target ms last) :
    IsLeftmost target (whole ms last) ms last := by
  -- each match is the first one of a cut of what is left
  have hfrom : ∀ m ∈ ms, ∃ after, Cut target (m :: after) last := by
    intro m hm
    obtain ⟨before, after, rfl⟩ := List.append_of_mem hm
    exact ⟨after, h.of_append⟩
  constructor
  case text_eq => rfl
  case space =>
    intro m hm
    obtain ⟨after, hcut⟩ := hfrom m hm
    cases hcut with
    | cons hspace _ _ _ _ => exact hspace
  case statement =>
    intro m hm
    obtain ⟨after, hcut⟩ := hfrom m hm
    cases hcut with
    | cons _ hstatement _ _ _ => exact hstatement
  case maximal =>
    rintro before m after rfl
    exact h.maximal
  case trimmed =>
    intro m hm
    obtain ⟨after, hcut⟩ := hfrom m hm
    cases hcut with
    | cons _ _ htrimmed _ _ => exact htrimmed
  case clean =>
    intro cs hcs s hs
    rcases List.mem_append.mp hcs with hcs | hcs
    · obtain ⟨m, hm, rfl⟩ := List.mem_map.mp hcs
      obtain ⟨after, hcut⟩ := hfrom m hm
      cases hcut with
      | cons _ _ _ hquiet _ => exact hquiet.not_infix hs
    · obtain rfl := List.mem_singleton.mp hcs
      exact h.quiet_last.not_infix hs
  case leftmost =>
    rintro before m after rfl
    cases h.of_append with
    | cons _ _ _ hquiet _ => exact hquiet
  case leftmost_last => exact h.quiet_last
  case increasing => exact fun r hr => h.lt_of_mem_ranges hr
  case apart => exact pairwise_ranges 0 ms
  case boundaries => exact fun r hr => isValid_of_mem_ranges [] hr

end Stylebook.Import
