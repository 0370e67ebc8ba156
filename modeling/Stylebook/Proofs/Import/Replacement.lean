import Stylebook.Import.Statement
import Stylebook.Proofs.Text.Infix

/-!
# Replacing statements in a text

What `afterStatement?` finds is a statement of the target and nothing else
(`afterStatement?_eq_some`): the keyword, white space, the quoted target,
white space and a semicolon. Replacing reads a text from left to right, so
its effect on a text that is put together of pieces follows from its effect
on each piece, with the right text behind it. A piece in which no statement
starts is passed over (`replaceFrom_append`). That holds with any text
behind it for a *sealed* one, which is all that inlining ever puts in the
place of a statement.
-/

namespace Stylebook.Import

open Text (isBlank dropFront? hasInfix)

/-! ## What a statement is

Statements are found in the text and not among the rules. What is found is
described here once, as an equation between texts, and nothing else is used
of how it is looked for. -/

/-- The quotes of a target. -/
def IsQuote (c : Char) : Prop := c = '"' ∨ c = '\''

instance (c : Char) : Decidable (IsQuote c) := inferInstanceAs (Decidable (_ ∨ _))

/-- A quote is no white space. -/
theorem IsQuote.isBlank {c : Char} (h : IsQuote c) : isBlank c = false := by
  rcases h with rfl | rfl <;> decide

/-- A quote is not in the keyword. -/
theorem IsQuote.notMem_keyword {c : Char} (h : IsQuote c) : c ∉ keyword := by
  rcases h with rfl | rfl <;> decide

/-- White space and what stands behind it. -/
theorem dropWhile_isBlank {gap rest : List Char} {c : Char} (hgap : ∀ d ∈ gap, isBlank d = true)
    (hc : isBlank c = false) : (gap ++ c :: rest).dropWhile isBlank = c :: rest := by
  rw [List.dropWhile_append_of_pos hgap, List.dropWhile_cons_of_neg (by simp [hc])]

/-- Any text starts with a gap, which may be empty. -/
theorem takeWhile_append_dropWhile_isBlank (cs : List Char) :
    ∃ gap, (∀ c ∈ gap, isBlank c = true) ∧ cs = gap ++ cs.dropWhile isBlank :=
  ⟨cs.takeWhile isBlank, List.all_eq_true.mp List.all_takeWhile,
    List.takeWhile_append_dropWhile.symm⟩

/-- A text that starts with white space starts with a gap. -/
theorem exists_gap_of_head? {cs : List Char} (h : (cs.head?.map isBlank).getD false = true) :
    ∃ gap, gap ≠ [] ∧ (∀ c ∈ gap, isBlank c = true) ∧ cs = gap ++ cs.dropWhile isBlank := by
  cases cs with
  | nil => cases h
  | cons d cs =>
    change isBlank d = true at h
    obtain ⟨gap, hgap, heq⟩ := takeWhile_append_dropWhile_isBlank cs
    refine ⟨d :: gap, List.cons_ne_nil d gap, List.forall_mem_cons.mpr ⟨h, hgap⟩, ?_⟩
    rw [List.dropWhile_cons_of_pos h, List.cons_append, ← heq]

/-- What stands behind the first quote is the target with its quote, white
space and a semicolon. -/
theorem afterQuote?_eq_some {quote : Char} {target cs rest : List Char} :
    afterQuote? quote target cs = some rest
      ↔ ∃ tail, (∀ c ∈ tail, isBlank c = true)
        ∧ cs = target ++ quote :: (tail ++ ';' :: rest) := by
  unfold afterQuote?
  simp only [Option.bind_eq_bind, Option.bind_eq_some_iff, Text.dropFront?_eq_some]
  constructor
  · rintro ⟨_, rfl, r, rfl, h⟩
    obtain ⟨tail, htail, hr⟩ := takeWhile_append_dropWhile_isBlank r
    rw [h] at hr
    exact ⟨tail, htail, by rw [hr]; rfl⟩
  · rintro ⟨tail, htail, rfl⟩
    exact ⟨_, rfl, _, rfl, dropWhile_isBlank htail (by decide)⟩

/-- **What stands at the front is a statement of the target**, and the rest
is behind it. -/
theorem afterStatement?_eq_some {target cs rest : List Char} :
    afterStatement? target cs = some rest
      ↔ ∃ gap quote tail, gap ≠ [] ∧ (∀ c ∈ gap, isBlank c = true) ∧ IsQuote quote
        ∧ (∀ c ∈ tail, isBlank c = true)
        ∧ cs = keyword ++ (gap ++ quote :: (target ++ quote :: (tail ++ ';' :: rest))) := by
  constructor
  · intro h
    unfold afterStatement? at h
    split at h
    · cases h
    · rename_i behind hbehind
      rw [Text.dropFront?_eq_some] at hbehind
      split at h
      · rename_i hblank
        obtain ⟨gap, hne, hgap, heq⟩ := exists_gap_of_head? hblank
        split at h
        · rename_i after hafter
          obtain ⟨tail, htail, rfl⟩ := afterQuote?_eq_some.mp h
          exact ⟨gap, _, tail, hne, hgap, Or.inl rfl, htail, by rw [hbehind, heq, hafter]⟩
        · rename_i after hafter
          obtain ⟨tail, htail, rfl⟩ := afterQuote?_eq_some.mp h
          exact ⟨gap, _, tail, hne, hgap, Or.inr rfl, htail, by rw [hbehind, heq, hafter]⟩
        · cases h
      · cases h
  · rintro ⟨gap, quote, tail, hne, hgap, hquote, htail, rfl⟩
    -- the gap has a first character, which is the one that is looked at
    obtain ⟨c, gap, rfl⟩ := List.exists_cons_of_ne_nil hne
    unfold afterStatement?
    rw [Text.dropFront?_eq_some.mpr rfl]
    show (if isBlank c = true then _ else none) = _
    rw [if_pos (hgap c List.mem_cons_self), dropWhile_isBlank hgap hquote.isBlank]
    rcases hquote with rfl | rfl
    · exact afterQuote?_eq_some.mpr ⟨tail, htail, rfl⟩
    · exact afterQuote?_eq_some.mpr ⟨tail, htail, rfl⟩

/-- A statement starts with the keyword, -/
theorem keyword_prefix_of_afterStatement? {target cs rest : List Char}
    (h : afterStatement? target cs = some rest) : keyword <+: cs := by
  obtain ⟨gap, quote, tail, -, -, -, -, rfl⟩ := afterStatement?_eq_some.mp h
  exact List.prefix_append _ _

/-- Where the keyword does not stand, no statement does. -/
theorem afterStatement?_of_not_prefix {target cs : List Char} (h : ¬keyword <+: cs) :
    afterStatement? target cs = none :=
  Option.eq_none_iff_forall_ne_some.mpr fun _ hrest => h (keyword_prefix_of_afterStatement? hrest)

/-- A statement starts with the first character of the keyword only. -/
theorem afterStatement?_cons {target cs : List Char} {c : Char} (h : c ≠ '@') :
    afterStatement? target (c :: cs) = none := by
  refine afterStatement?_of_not_prefix fun hprefix => h ?_
  exact (List.cons_prefix_cons.mp hprefix).1.symm

/-! ## Passing over pieces

Replacing looks at each place of a text. Where a statement stands it jumps
behind it, and elsewhere it goes on by one character. White space is held
back until it is known what stands behind it, for a statement takes the
white space in front of it along. -/

section Passing

variable (target replacement : List Char)

/-- White space at the end of the text stays. -/
theorem replaceFrom_nil (spaces : List Char) :
    replaceFrom target replacement spaces [] = spaces.reverse := by
  rw [replaceFrom]

variable {target}

/-- White space in front of a statement is replaced with it. -/
theorem replaceFrom_of_some {spaces cs rest : List Char}
    (h : afterStatement? target cs = some rest) : replaceFrom target replacement spaces cs
      = replacement ++ replaceFrom target replacement [] rest := by
  cases cs with
  | nil => cases (keyword_prefix_of_afterStatement? h).length_le
  | cons c cs =>
    rw [replaceFrom]
    split
    · rename_i rest' h'
      rw [h] at h'
      cases h'
      rfl
    · rename_i h'
      rw [h] at h'
      cases h'

/-- White space before any other character stays. -/
theorem replaceFrom_of_none {spaces cs : List Char} {c : Char}
    (h : afterStatement? target (c :: cs) = none) :
    replaceFrom target replacement spaces (c :: cs)
      = if isBlank c = true then replaceFrom target replacement (c :: spaces) cs
        else spaces.reverse ++ c :: replaceFrom target replacement [] cs := by
  rw [replaceFrom]
  split
  · rename_i h'
    rw [h] at h'
    cases h'
  · rfl

/-- White space waits for what stands behind it. -/
theorem replaceFrom_blanks {spaces lead : List Char} (h : ∀ c ∈ lead, isBlank c = true)
    (rest : List Char) : replaceFrom target replacement spaces (lead ++ rest)
      = replaceFrom target replacement (lead.reverse ++ spaces) rest := by
  induction lead generalizing spaces with
  | nil => rfl
  | cons c lead ih =>
    have hc : isBlank c = true := h c List.mem_cons_self
    have hne : c ≠ '@' := by
      rintro rfl
      exact absurd hc (by decide)
    rw [List.cons_append, replaceFrom_of_none replacement (afterStatement?_cons hne), if_pos hc,
      ih fun d hd => h d (List.mem_cons_of_mem _ hd), List.reverse_cons, List.append_assoc]
    rfl

/-- **A piece in which no statement starts is passed over**, when it does
not end in white space. -/
theorem replaceFrom_append {spaces front rest : List Char} {c : Char}
    (h : ∀ v, v <:+ front → afterStatement? target (v ++ c :: rest) = none)
    (hc : isBlank c = false) : replaceFrom target replacement spaces (front ++ c :: rest)
      = spaces.reverse ++ front ++ c :: replaceFrom target replacement [] rest := by
  induction front generalizing spaces with
  | nil =>
    rw [List.nil_append, List.append_nil,
      replaceFrom_of_none replacement (h [] (List.suffix_refl _)), if_neg (by simp [hc])]
  | cons d front ih =>
    have hrest : ∀ v, v <:+ front → afterStatement? target (v ++ c :: rest) = none :=
      fun v hv => h v (hv.trans (List.suffix_cons d front))
    have hhere : afterStatement? target (d :: (front ++ c :: rest)) = none :=
      h _ (List.suffix_refl _)
    rw [List.cons_append, replaceFrom_of_none replacement hhere]
    split
    · rw [ih hrest, List.reverse_cons, List.append_assoc, List.append_assoc, List.append_assoc]
      rfl
    · rw [ih hrest, List.reverse_nil, List.nil_append, List.append_assoc spaces.reverse]
      rfl

end Passing

/-! ## Sealed texts

What is put in the place of a statement is read over again when the next
target is replaced. So it should have no statements of its own, neither in
itself nor together with what follows. The bracket at its end is what keeps
it apart from the text behind. -/

/-- **A text without the keyword that is empty or ends in a closing
bracket.** No statement reaches into it from outside. -/
structure Sealed (cs : List Char) : Prop where
  quiet : ¬keyword <:+: cs
  closed : ∀ c ∈ cs.getLast?, c = '}'

instance (cs : List Char) : Decidable (Sealed cs) :=
  have : Decidable (keyword <:+: cs) := decidable_of_iff _ Text.hasInfix_iff
  have : Decidable (∀ c ∈ cs.getLast?, c = '}') := Option.decidableForallMem _
  decidable_of_iff (¬keyword <:+: cs ∧ ∀ c ∈ cs.getLast?, c = '}')
    ⟨fun h => ⟨h.1, h.2⟩, fun h => ⟨h.quiet, h.closed⟩⟩

namespace Sealed

/-- Nothing is sealed. -/
theorem nil : Sealed [] := ⟨by decide, by simp⟩

/-- Sealed texts may be put together. -/
theorem append {as bs : List Char} (has : Sealed as) (hbs : Sealed bs) : Sealed (as ++ bs) := by
  refine ⟨Text.not_infix_append has.quiet hbs.quiet fun c hc => ?_, fun c hc => ?_⟩
  · rw [has.closed c hc]
    decide
  · rw [List.getLast?_append] at hc
    cases hlast : bs.getLast? with
    | none =>
      rw [hlast] at hc
      exact has.closed c hc
    | some d =>
      rw [hlast] at hc
      cases hc
      exact hbs.closed _ hlast

/-- Any number of sealed texts may be put together. -/
theorem flatten {parts : List (List Char)} (h : ∀ part ∈ parts, Sealed part) :
    Sealed parts.flatten := by
  induction parts with
  | nil => exact nil
  | cons part parts ih =>
    rw [List.flatten_cons]
    exact (h part List.mem_cons_self).append (ih fun p hp => h p (List.mem_cons_of_mem _ hp))

/-- **A sealed text stays as it is.** -/
theorem replaceFrom_append {cs : List Char} (h : Sealed cs) (target replacement rest : List Char) :
    replaceFrom target replacement [] (cs ++ rest)
      = cs ++ replaceFrom target replacement [] rest := by
  rcases List.eq_nil_or_concat cs with rfl | ⟨front, c, rfl⟩
  · rfl
  · have hc : c = '}' := h.closed c (by simp)
    subst hc
    rw [List.concat_eq_append, List.append_assoc, List.append_assoc]
    -- the keyword has no bracket in it, so it cannot reach over the last character
    refine Import.replaceFrom_append replacement (fun v hv => ?_) (by decide)
    refine afterStatement?_of_not_prefix fun hprefix => h.quiet ?_
    have hv' : keyword <+: v := Text.prefix_of_notMem hprefix (by decide)
    rw [List.concat_eq_append]
    exact (hv'.isInfix.trans hv.isInfix).trans (List.prefix_append _ _).isInfix

/-- So it is when nothing follows. -/
theorem replaceAll_eq {cs : List Char} (h : Sealed cs) (target replacement : List Char) :
    replaceAll target replacement cs = cs := by
  have happend := h.replaceFrom_append target replacement []
  rwa [List.append_nil, replaceFrom_nil, List.reverse_nil, List.append_nil] at happend

end Sealed

end Stylebook.Import
