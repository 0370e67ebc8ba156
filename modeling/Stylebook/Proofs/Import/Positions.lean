import Stylebook.Import.Search
import Stylebook.Proofs.Import.Leftmost
import Stylebook.Proofs.Import.Stripping

/-!
# The search by bytes finds the cut

The search for a statement in the bytes of a text (`findAll`) and the
reading of it character by character (`replaceAll`) look at the text in
different ways, and they agree: what is found are the bytes of the cut of
the text, and what is copied around them is the text with each match
replaced (`replaceAll_isLeftmost`).

The proof goes along the cut. The keyword does not overlap itself, so the
places of it can be looked up character by character, like everything else
(`keywordsFrom_cons`), although the search goes on behind each. A quiet text
is passed without a find, whatever keywords are in it (`findFrom_quiet`),
and so are the keywords inside a statement, since the floor is its end
(`findFrom_below`). At a statement the slice back to the floor is what is
kept and the white space behind it, and of those the white space is counted,
no more, because what is kept ends in another character. Every slice on this
way starts and ends where a piece of the cut does, which is why none of them
fails.
-/

namespace Stylebook.Import

open Match (whole replaced ranges)
open String (utf8Len)
open Text (isBlank dropFront?)

variable {target cs rest : List Char}

/-! ## Slices

Between places that are sizes of fronts a slice is a piece of the text.
Everything below is in terms of pieces, and this is where bytes are turned
into them. -/

/-- Between two pieces of a text there is a slice. -/
theorem slice?_append (as bs cs : List Char) :
    slice? (String.ofList (as ++ bs ++ cs)) (utf8Len as) (utf8Len as + utf8Len bs)
      = some (String.ofList bs) := by
  have hstart : String.Pos.Raw.IsValid (String.ofList (as ++ bs ++ cs)) ⟨utf8Len as⟩ := by
    rw [List.append_assoc]
    exact isValid_utf8Len as (bs ++ cs)
  have hstop : String.Pos.Raw.IsValid (String.ofList (as ++ bs ++ cs))
      ⟨utf8Len as + utf8Len bs⟩ := by
    rw [← String.utf8Len_append]
    exact isValid_utf8Len (as ++ bs) cs
  rw [slice?, if_pos ⟨Nat.le_add_right _ _, hstart, hstop⟩, String.extract_of_valid]

/-- From the end of a piece on there is a slice. -/
theorem slice?_rest (as bs : List Char) :
    slice? (String.ofList (as ++ bs)) (utf8Len as) (String.ofList (as ++ bs)).utf8ByteSize
      = some (String.ofList bs) := by
  have h := slice?_append as bs []
  rw [List.append_nil] at h
  rwa [String.utf8ByteSize_ofList, String.utf8Len_append]

/-! ## Places of the keyword

The search for the keyword goes on behind each find, and the reading goes on
by one character. The two would differ for a word that overlaps itself. The
keyword starts with its only at sign, so it does not. -/

/-- In an empty text there is no place. -/
theorem keywordsFrom_nil (start : Nat) : keywordsFrom start [] = [] := by
  rw [keywordsFrom]

/-- Where the keyword does not stand, the next character is looked at. -/
theorem keywordsFrom_of_absent {c : Char} (start : Nat) (h : ¬keyword <+: c :: cs) :
    keywordsFrom start (c :: cs) = keywordsFrom (start + c.utf8Size) cs := by
  rw [keywordsFrom]
  split
  · next rest hrest => exact absurd ⟨rest, (Text.append_of_dropFront? hrest).symm⟩ h
  · rfl

/-- Behind the first letter of a keyword no other starts before its end. -/
theorem keywordsFrom_tail (start : Nat) (rest : List Char) :
    keywordsFrom (start + 1) (keyword.tail ++ rest) = keywordsFrom (start + 7) rest := by
  have hstep : ∀ (c : Char) (cs : List Char) (n : Nat), c ≠ '@' → c.utf8Size = 1 →
      keywordsFrom n (c :: cs) = keywordsFrom (n + 1) cs := by
    intro c cs n hc hsize
    rw [keywordsFrom_of_absent n (fun h => hc (List.cons_prefix_cons.mp h).1.symm), hsize]
  show keywordsFrom (start + 1) ('i' :: 'm' :: 'p' :: 'o' :: 'r' :: 't' :: rest) = _
  rw [hstep 'i' _ _ (by decide) (by decide), hstep 'm' _ _ (by decide) (by decide),
    hstep 'p' _ _ (by decide) (by decide), hstep 'o' _ _ (by decide) (by decide),
    hstep 'r' _ _ (by decide) (by decide), hstep 't' _ _ (by decide) (by decide)]

/-- **The keyword does not overlap itself**: though the search goes on
behind each, no place of it is missed when the text is read character by
character. -/
theorem keywordsFrom_cons (start : Nat) (c : Char) (cs : List Char) :
    keywordsFrom start (c :: cs)
      = (if keyword <+: c :: cs then [start] else []) ++ keywordsFrom (start + c.utf8Size) cs := by
  split
  · next hprefix =>
    obtain ⟨rest, hrest⟩ := hprefix
    obtain ⟨rfl, rfl⟩ : '@' = c ∧ keyword.tail ++ rest = cs := List.cons.inj hrest
    rw [show ('@').utf8Size = 1 from rfl, keywordsFrom_tail, keywordsFrom]
    split
    · next rest' hrest' =>
      obtain rfl : rest = rest' :=
        Option.some.inj ((Text.dropFront?_append keyword rest).symm.trans hrest')
      rfl
    · next hnone =>
      exact absurd ((Text.dropFront?_append keyword rest).symm.trans hnone)
        (Option.some_ne_none rest)
  · next hnot => exact keywordsFrom_of_absent start hnot

/-! ## One place

Behind a keyword the bytes are taken as a text, and this is trimmed and
compared. The one thing told by numbers is whether white space stood there:
then trimming made the text shorter. -/

/-- White space in front is seen in the number of bytes. -/
theorem utf8Len_dropWhile_isBlank (cs : List Char) :
    utf8Len (cs.dropWhile isBlank) = utf8Len cs ↔ (cs.head?.map isBlank).getD false = false := by
  cases cs with
  | nil => simp
  | cons c cs =>
    have hle := String.utf8Len_le_of_sublist (List.dropWhile_sublist isBlank (l := cs))
    have hpos := c.utf8Size_pos
    by_cases hc : isBlank c = true
    · rw [List.dropWhile_cons_of_pos hc, String.utf8Len_cons]
      simp only [List.head?_cons, Option.map_some, Option.getD_some, hc]
      constructor
      · omega
      · intro h
        cases h
    · rw [List.dropWhile_cons_of_neg hc]
      simpa using hc

/-- **At a place of the keyword the bytes tell what the characters tell**:
whether a statement stands there, and where it ends. -/
theorem endAfterKeyword?_eq (target front cs : List Char) :
    endAfterKeyword? target (String.ofList (front ++ (keyword ++ cs)))
        (utf8Len front + (String.ofList keyword).utf8ByteSize)
      = some ((afterStatement? target (keyword ++ cs)).map fun left =>
          utf8Len (front ++ (keyword ++ cs)) - utf8Len left) := by
  have hslice := slice?_rest (front ++ keyword) cs
  rw [List.append_assoc, String.utf8Len_append, ← String.utf8ByteSize_ofList keyword] at hslice
  rw [endAfterKeyword?, hslice, afterStatement?, Text.dropFront?_append]
  simp only [Option.bind_eq_bind, Option.bind_some, String.toList_ofList,
    String.utf8ByteSize_ofList, utf8Len_dropWhile_isBlank]
  cases hblank : (cs.head?.map isBlank).getD false with
  | false => rfl
  | true =>
    simp only [Bool.true_eq_false, if_false, if_true]
    cases htrimmed : cs.dropWhile isBlank with
    | nil => rfl
    | cons quote after =>
      by_cases hquote : quote = '"' ∨ quote = '\''
      · rcases hquote with rfl | rfl <;> rfl
      · obtain ⟨hdouble, hsingle⟩ := not_or.mp hquote
        simp [hdouble, hsingle]

/-- **A statement is seen to its end.** -/
theorem endAfterKeyword?_of_statement {s : List Char} (front rest : List Char)
    (h : IsStatement target s) :
    endAfterKeyword? target (String.ofList (front ++ (s ++ rest)))
        (utf8Len front + (String.ofList keyword).utf8ByteSize)
      = some (some (utf8Len front + utf8Len s)) := by
  have hafter : afterStatement? target (s ++ rest) = some rest :=
    afterStatement?_eq_some_iff.mpr ⟨s, h, rfl⟩
  obtain ⟨gap, quote, tail, -, -, -, -, rfl⟩ := h
  rw [List.append_assoc] at hafter ⊢
  rw [endAfterKeyword?_eq, hafter, Option.map_some]
  simp only [String.utf8Len_append, Option.some.injEq]
  omega

/-! ## One search

The search has a floor, the end of the last match. Keywords in front of it
are passed, and the white space of the next match is counted back to it. So
at each moment the state of the search is a place between two matches of the
cut. -/

/-- Where no statement stands, nothing is found. -/
theorem findFrom_of_none {front : List Char} {floor : Nat} (places : List Nat)
    (h : afterStatement? target (keyword ++ cs) = none) :
    findFrom target (String.ofList (front ++ (keyword ++ cs))) floor (utf8Len front :: places)
      = findFrom target (String.ofList (front ++ (keyword ++ cs))) floor places := by
  rw [findFrom]
  split
  · rfl
  · rw [endAfterKeyword?_eq, h]
    rfl

/-- **A text without a statement is passed**, whatever keywords are in it. -/
theorem findFrom_quiet (front : List Char) (floor : Nat) (h : Quiet target cs rest) :
    findFrom target (String.ofList (front ++ (cs ++ rest))) floor
        (keywordsFrom (utf8Len front) (cs ++ rest))
      = findFrom target (String.ofList (front ++ (cs ++ rest))) floor
        (keywordsFrom (utf8Len (front ++ cs)) rest) := by
  induction cs generalizing front with
  | nil => rw [List.append_nil, List.nil_append]
  | cons c cs ih =>
    obtain ⟨hhere, hcs⟩ := quiet_cons.mp h
    have hsize : utf8Len front + c.utf8Size = utf8Len (front ++ [c]) := by simp
    have htext : front ++ (c :: cs ++ rest) = front ++ [c] ++ (cs ++ rest) := by simp
    have hplaces : utf8Len (front ++ c :: cs) = utf8Len (front ++ [c] ++ cs) := by simp
    have hnext := ih (front ++ [c]) hcs
    rw [List.cons_append, keywordsFrom_cons, hsize]
    split
    · next hkeyword =>
      obtain ⟨behind, hbehind⟩ := hkeyword
      rw [← hbehind] at hhere
      rw [List.singleton_append, ← hbehind,
        findFrom_of_none _ (afterStatement?_eq_none_iff.mpr hhere), hbehind, ← List.cons_append,
        htext, hplaces]
      exact hnext
    · rw [List.nil_append, ← List.cons_append, htext, hplaces]
      exact hnext

/-- **Keywords in front of the floor are passed.** -/
theorem findFrom_below {start floor : Nat} (target : List Char) (text : String)
    (as bs : List Char) (h : start + utf8Len as ≤ floor) :
    findFrom target text floor (keywordsFrom start (as ++ bs))
      = findFrom target text floor (keywordsFrom (start + utf8Len as) bs) := by
  induction as generalizing start with
  | nil => rfl
  | cons c as ih =>
    rw [String.utf8Len_cons] at h
    have hpos := c.utf8Size_pos
    have hnext := @ih (start + c.utf8Size) (by omega)
    have hstart : start + c.utf8Size + utf8Len as = start + utf8Len (c :: as) := by
      rw [String.utf8Len_cons]
      omega
    rw [List.cons_append, keywordsFrom_cons, ← hstart, ← hnext]
    split
    · have hlt : start < floor := by omega
      rw [List.singleton_append, findFrom, if_pos hlt]
    · rfl

/-- A statement is a place of the keyword, and those inside it are passed
once its end is the floor: the target may hold the keyword. -/
theorem exists_keywordsFrom_statement {s : List Char} (start : Nat) (rest : List Char)
    (h : IsStatement target s) :
    ∃ inside, keywordsFrom start (s ++ rest) = start :: inside
      ∧ ∀ text, findFrom target text (start + utf8Len s) inside
          = findFrom target text (start + utf8Len s) (keywordsFrom (start + utf8Len s) rest) := by
  obtain ⟨more, rfl⟩ : ∃ more, s = '@' :: (keyword.tail ++ more) := by
    obtain ⟨gap, quote, tail, -, -, -, -, heq⟩ := h
    exact ⟨_, heq⟩
  have hkeyword : keyword <+: '@' :: (keyword.tail ++ more ++ rest) :=
    ⟨more ++ rest, by simp [keyword]⟩
  have hsize : start + 1 + utf8Len (keyword.tail ++ more)
      = start + utf8Len ('@' :: (keyword.tail ++ more)) := by
    rw [String.utf8Len_cons, show ('@').utf8Size = 1 from rfl]
    omega
  refine ⟨keywordsFrom (start + 1) (keyword.tail ++ more ++ rest), ?_, fun text => ?_⟩
  · rw [List.cons_append, keywordsFrom_cons, if_pos hkeyword]
    rfl
  · rw [findFrom_below target text (keyword.tail ++ more) rest hsize.le, hsize]

/-- The white space at the end of a text, read backwards. -/
theorem takeWhile_reverse_of_trimmed {kept space : List Char}
    (hspace : ∀ c ∈ space, isBlank c = true) (hkept : ∀ c ∈ kept.getLast?, isBlank c = false) :
    (kept ++ space).reverse.takeWhile isBlank = space.reverse := by
  rw [List.reverse_append, List.takeWhile_append_of_pos (by simpa using hspace)]
  cases hreverse : kept.reverse with
  | nil => simp
  | cons c cs =>
    have hlast : kept.getLast? = some c := by
      rw [← List.head?_reverse, hreverse, List.head?_cons]
    rw [List.takeWhile_cons_of_neg (by simp [hkept c hlast]), List.append_nil]

/-- **At a statement the search finds the match**: the white space is
counted back to what is kept, and the search goes on with the end of the
statement as its floor. The slice from the floor to the statement is not
empty of meaning even where nothing is kept: it is then all white space, up
to the semicolon of the match before. -/
theorem findFrom_statement (front rest : List Char) {m : Match}
    (hspace : ∀ c ∈ m.space, isBlank c = true) (hstatement : IsStatement target m.statement)
    (htrimmed : ∀ c ∈ m.kept.getLast?, isBlank c = false) :
    findFrom target (String.ofList (front ++ (m.kept ++ m.space) ++ (m.statement ++ rest)))
        (utf8Len front)
        (keywordsFrom (utf8Len (front ++ (m.kept ++ m.space))) (m.statement ++ rest))
      = (findFrom target (String.ofList (front ++ (m.kept ++ m.space) ++ (m.statement ++ rest)))
          (utf8Len front + utf8Len m.kept + utf8Len m.text)
          (keywordsFrom (utf8Len front + utf8Len m.kept + utf8Len m.text) rest)).map
        ((utf8Len front + utf8Len m.kept, utf8Len front + utf8Len m.kept + utf8Len m.text)
          :: ·) := by
  have hend : utf8Len (front ++ (m.kept ++ m.space)) + utf8Len m.statement
      = utf8Len front + utf8Len m.kept + utf8Len m.text := by
    simp only [Match.text, String.utf8Len_append]
    omega
  have hleading : utf8Len (front ++ (m.kept ++ m.space)) - utf8Len m.space.reverse
      = utf8Len front + utf8Len m.kept := by
    simp only [String.utf8Len_append, String.utf8Len_reverse]
    omega
  have hfloor : ¬utf8Len (front ++ (m.kept ++ m.space)) < utf8Len front := by
    rw [String.utf8Len_append]
    omega
  have hslice : slice? (String.ofList (front ++ (m.kept ++ m.space) ++ (m.statement ++ rest)))
      (utf8Len front) (utf8Len (front ++ (m.kept ++ m.space)))
        = some (String.ofList (m.kept ++ m.space)) := by
    rw [String.utf8Len_append front]
    exact slice?_append front (m.kept ++ m.space) (m.statement ++ rest)
  obtain ⟨inside, hplaces, hinside⟩ :=
    exists_keywordsFrom_statement (utf8Len (front ++ (m.kept ++ m.space))) rest hstatement
  rw [hend] at hinside
  rw [hplaces, findFrom, if_neg hfloor, endAfterKeyword?_of_statement _ rest hstatement, hend]
  simp only [Option.bind_eq_bind, Option.bind_some, hslice, String.toList_ofList,
    takeWhile_reverse_of_trimmed hspace htrimmed, String.utf8ByteSize_ofList, hleading, hinside]
  exact (Option.map_eq_bind ..).symm

/-! ## The whole search

One induction along the cut for the search, and another one for the copying.
Neither speaks of a single byte, only of the sizes of pieces. -/

/-- **What is found are the matches of the cut**, when the search starts
behind `front`. -/
theorem Cut.findFrom_eq {ms : List Match} {last : List Char} (h : Cut target ms last)
    (front : List Char) :
    findFrom target (String.ofList (front ++ whole ms last)) (utf8Len front)
        (keywordsFrom (utf8Len front) (whole ms last))
      = some (ranges (utf8Len front) ms) := by
  induction h generalizing front with
  | @last cs hquiet =>
    have h := findFrom_quiet front (utf8Len front) hquiet
    rw [List.append_nil, keywordsFrom_nil] at h
    exact h
  | @cons m ms last hspace hstatement htrimmed hquiet hrest ih =>
    have hwhole : whole (m :: ms) last
        = m.kept ++ m.space ++ (m.statement ++ whole ms last) := by
      rw [Match.whole_cons, Match.text]
      simp
    have hfront : front ++ (m.kept ++ m.space) ++ (m.statement ++ whole ms last)
        = front ++ m.kept ++ m.text ++ whole ms last := by
      rw [Match.text]
      simp
    have hend : utf8Len front + utf8Len m.kept + utf8Len m.text
        = utf8Len (front ++ m.kept ++ m.text) := by
      simp only [String.utf8Len_append]
    have hpassed : Quiet target (m.kept ++ m.space) (m.statement ++ whole ms last) := by
      rw [Match.text, List.append_assoc] at hquiet
      exact hquiet.append (quiet_of_isBlank hspace)
    rw [hwhole, findFrom_quiet front _ hpassed, ← List.append_assoc front,
      findFrom_statement front _ hspace hstatement htrimmed, hend, hfront, ih, ranges, hend]
    rfl

/-- **What is copied around the matches is the text with each of them
replaced.** -/
theorem copyAround_ranges (front replacement : List Char) (ms : List Match) (last : List Char) :
    copyAround (String.ofList (front ++ whole ms last)) (String.ofList replacement) (utf8Len front)
      (ranges (utf8Len front) ms) = some (String.ofList (replaced replacement ms last)) := by
  induction ms generalizing front with
  | nil => exact slice?_rest front last
  | cons m ms ih =>
    have hkept := slice?_append front m.kept (m.text ++ whole ms last)
    have hrest := ih (front ++ m.kept ++ m.text)
    rw [String.utf8Len_append, String.utf8Len_append] at hrest
    have hwhole : front ++ whole (m :: ms) last = front ++ m.kept ++ (m.text ++ whole ms last) := by
      simp [Match.whole_cons]
    rw [hwhole, ranges, copyAround, hkept, ← List.append_assoc, hrest, Match.replaced_cons,
      String.ofList_append, String.ofList_append, ← String.append_assoc]
    rfl

/-- From the start of a text, all of its matches are found. -/
theorem Cut.findAll_eq {ms : List Match} {last : List Char} (h : Cut target ms last) :
    findAll target (String.ofList (whole ms last)) = some (ranges 0 ms) := by
  rw [findAll, String.toList_ofList]
  exact h.findFrom_eq []

/-- If there are any, the text is copied around them, and else it is
returned as it is, which is the same. -/
theorem Cut.replaceBytes_eq {ms : List Match} {last : List Char} (h : Cut target ms last)
    (replacement : List Char) :
    replaceBytes target (String.ofList (whole ms last)) (String.ofList replacement)
      = some (String.ofList (replaced replacement ms last)) := by
  rw [replaceBytes, h.findAll_eq]
  cases ms with
  | nil => rfl
  | cons m ms => exact copyAround_ranges [] replacement (m :: ms) last

/-- **Replacing is replacing the leftmost matches.** Every text has them,
whatever stands in it and in the target, and they do not depend on the
replacement: with each replacement what is kept stays, and the replacement
stands for each match. The search for their bytes finds them and nothing
else, and copying around these bytes gives the same text. No slice fails on
the way, because each of them starts and ends where a match or the text
does, and a match ends in a semicolon and starts behind a whole character.
Without a replacement no text gets longer, since characters are only left
out. -/
theorem replaceAll_isLeftmost (target text : List Char) :
    ∃ ms last, IsLeftmost target text ms last
      ∧ (∀ replacement, replaceAll target replacement text = replaced replacement ms last)
      ∧ findAll target (String.ofList text) = some (ranges 0 ms)
      ∧ (∀ replacement, replaceBytes target (String.ofList text) (String.ofList replacement)
          = some (String.ofList (replaceAll target replacement text)))
      ∧ utf8Len (strip target text) ≤ utf8Len text := by
  obtain ⟨ms, last, hcut, rfl⟩ := exists_cut target text
  refine ⟨ms, last, hcut.isLeftmost, hcut.replaceAll_eq, hcut.findAll_eq, fun replacement => ?_,
    String.utf8Len_le_of_sublist (strip_sublist target _)⟩
  rw [hcut.replaceAll_eq]
  exact hcut.replaceBytes_eq replacement

end Stylebook.Import
