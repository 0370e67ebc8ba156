import Mathlib.Data.List.Basic
import Stylebook.Text.Blank

/-!
# Where a text stands in another one

Looking for a text at the front or anywhere inside of another one answers
what the lists of characters say. A text is cut in one way at its first
character of a kind, and a scan for characters of a kind ends there.
-/

namespace Stylebook.Text

variable {part cs rest : List Char}

/-- A text at the front is dropped exactly if it stands there. -/
theorem dropFront?_eq_some : dropFront? part cs = some rest ↔ cs = part ++ rest := by
  refine ⟨append_of_dropFront?, ?_⟩
  rintro rfl
  exact dropFront?_append part rest

theorem isSome_dropFront?_iff : (dropFront? part cs).isSome = true ↔ part <+: cs := by
  rw [Option.isSome_iff_exists]
  exact exists_congr fun rest => dropFront?_eq_some.trans eq_comm

/-- **Whether a text stands somewhere in another one.** -/
theorem hasInfix_iff : hasInfix part cs = true ↔ part <:+: cs := by
  induction cs with
  | nil => rw [hasInfix, List.isEmpty_iff, List.infix_nil]
  | cons c cs ih => rw [hasInfix, Bool.or_eq_true, isSome_dropFront?_iff, ih, List.infix_cons_iff]

/-- A scan ends where its kind of characters ends. -/
theorem takeWhile_append_eq {p : Char → Bool} (hcs : ∀ c ∈ cs, p c = true)
    (hrest : ∀ c ∈ rest.head?, p c = false) : (cs ++ rest).takeWhile p = cs := by
  rw [List.takeWhile_append_of_pos hcs]
  cases rest with
  | nil => exact List.append_nil cs
  | cons c rest => rw [List.takeWhile_cons_of_neg (by simp [hrest c rfl]), List.append_nil]

/-- And what is left starts there. -/
theorem dropWhile_append_eq {p : Char → Bool} (hcs : ∀ c ∈ cs, p c = true)
    (hrest : ∀ c ∈ rest.head?, p c = false) : (cs ++ rest).dropWhile p = rest := by
  rw [List.dropWhile_append_of_pos hcs]
  cases rest with
  | nil => rfl
  | cons c rest => exact List.dropWhile_cons_of_neg (by simp [hrest c rfl])

/-- **A text is cut in one way** at its first character of a kind. -/
theorem append_cons_inj {p : Char → Prop} {as as' bs bs' : List Char} {c c' : Char}
    (has : ∀ a ∈ as, ¬p a) (has' : ∀ a ∈ as', ¬p a) (hc : p c) (hc' : p c')
    (h : as ++ c :: bs = as' ++ c' :: bs') : as = as' ∧ c = c' ∧ bs = bs' := by
  induction as generalizing as' with
  | nil =>
    cases as' with
    | nil =>
      obtain ⟨rfl, rfl⟩ := List.cons.inj h
      exact ⟨rfl, rfl, rfl⟩
    | cons a as' =>
      obtain ⟨rfl, -⟩ := List.cons.inj h
      exact absurd hc (has' _ List.mem_cons_self)
  | cons a as ih =>
    cases as' with
    | nil =>
      obtain ⟨rfl, -⟩ := List.cons.inj h
      exact absurd hc' (has _ List.mem_cons_self)
    | cons a' as' =>
      obtain ⟨rfl, hrest⟩ := List.cons.inj h
      obtain ⟨rfl, rfl, rfl⟩ := ih (fun b hb => has b (List.mem_cons_of_mem _ hb))
        (fun b hb => has' b (List.mem_cons_of_mem _ hb)) hrest
      exact ⟨rfl, rfl, rfl⟩

/-- A text without a character that stands at a front of the text up to that
character. -/
theorem prefix_of_notMem {as bs : List Char} {c : Char} (h : part <+: as ++ c :: bs)
    (hc : c ∉ part) : part <+: as := by
  rcases List.prefix_or_prefix_of_prefix h (List.prefix_append as (c :: bs)) with hle | ⟨more, rfl⟩
  · exact hle
  · rw [List.prefix_append_right_inj] at h
    cases more with
    | nil => simp
    | cons d more =>
      obtain ⟨rfl, -⟩ := List.cons_prefix_cons.mp h
      simp at hc

/-- An end of a concatenation is an end of its second part, or has all of it
behind an end of the first one. -/
theorem suffix_append_cases {as bs cs : List Char} (h : cs <:+ as ++ bs) :
    cs <:+ bs ∨ ∃ us, us ≠ [] ∧ us <:+ as ∧ cs = us ++ bs := by
  obtain ⟨front, hfront⟩ := h
  rcases List.append_eq_append_iff.mp hfront with ⟨us, rfl, rfl⟩ | ⟨us, -, rfl⟩
  · cases us with
    | nil => exact Or.inl (List.suffix_refl _)
    | cons u us => exact Or.inr ⟨u :: us, List.cons_ne_nil u us, List.suffix_append _ _, rfl⟩
  · exact Or.inl (List.suffix_append _ _)

/-- A text stands in no concatenation of two that it does not stand in, if
it does not have the last character of the first one. -/
theorem not_infix_append {as bs : List Char} (has : ¬part <:+: as) (hbs : ¬part <:+: bs)
    (hlast : ∀ c ∈ as.getLast?, c ∉ part) : ¬part <:+: as ++ bs := by
  rw [List.infix_append_iff_ne_nil]
  rintro (h | h | ⟨front, back, hfront, -, rfl, hsuffix, -⟩)
  · exact has h
  · exact hbs h
  · have hmem : front.getLast hfront ∈ as.getLast? := by
      obtain ⟨pre, rfl⟩ := hsuffix
      rw [List.getLast?_append_of_ne_nil _ hfront, List.getLast?_eq_some_getLast hfront]
      rfl
    exact hlast _ hmem (List.mem_append_left _ (List.getLast_mem hfront))

end Stylebook.Text
