import Mathlib.Data.List.TakeWhile
import Stylebook.Text.Blank

/-!
# The words of a text

Words are what stands between white space. So words with a space between
them are found again, as long as they are words: not empty, and without
white space of their own. The words of a text are such words, and white
space at either end of the text does not count.
-/

namespace Stylebook.Text

/-- **A word**: characters that are not blank, one at least. -/
def IsWord (w : List Char) : Prop := w ≠ [] ∧ ∀ c ∈ w, isBlank c = false

instance : DecidablePred IsWord := fun w =>
  decidable_of_iff (w ≠ [] ∧ (w.all fun c => !isBlank c) = true) (by simp [IsWord])

/-- The words with one more character in front: it is left out, starts a
word of its own, or comes to the front of the first word. Which of these it
is depends on the next character as well, since a word ends where white
space follows. -/
theorem wordChars_cons (c : Char) (cs : List Char) : wordChars (c :: cs)
    = if isBlank c then wordChars cs
      else
        match cs, wordChars cs with
        | d :: _, w :: ws => if isBlank d then [c] :: w :: ws else (c :: w) :: ws
        | _, ws => [c] :: ws := rfl

/-- White space in front does not count. -/
theorem wordChars_of_isBlank {c : Char} (h : isBlank c = true) (cs : List Char) :
    wordChars (c :: cs) = wordChars cs := by
  rw [wordChars_cons, if_pos h]

/-- A word ends where white space follows, or nothing. -/
theorem wordChars_append {w rest : List Char} (hw : IsWord w)
    (hrest : ∀ c ∈ rest.head?, isBlank c = true) : wordChars (w ++ rest) = w :: wordChars rest := by
  obtain ⟨hne, hblank⟩ := hw
  induction w with
  | nil => exact absurd rfl hne
  | cons c w ih =>
    rw [List.forall_mem_cons] at hblank
    cases w with
    | nil =>
      rw [List.singleton_append, wordChars_cons, if_neg (by simp [hblank.1])]
      cases rest with
      | nil => rfl
      | cons d rest =>
        cases wordChars (d :: rest) with
        | nil => rfl
        | cons v vs => exact if_pos (hrest d rfl)
    | cons d w =>
      have hd : isBlank d = false := hblank.2 d List.mem_cons_self
      have hrun := ih (List.cons_ne_nil d w) hblank.2
      rw [List.cons_append] at hrun
      rw [List.cons_append, List.cons_append, wordChars_cons, if_neg (by simp [hblank.1]), hrun]
      exact if_neg (by simp [hd])

/-- A word by itself has no other words. -/
theorem wordChars_of_isWord {w : List Char} (h : IsWord w) : wordChars w = [w] := by
  have hlast : wordChars (w ++ []) = w :: wordChars [] := wordChars_append h (by simp)
  rwa [List.append_nil] at hlast

/-- **Words with a space between them are the words of their text.** -/
theorem wordChars_intercalate {ws : List (List Char)} (h : ∀ w ∈ ws, IsWord w) :
    wordChars ([' '].intercalate ws) = ws := by
  induction ws with
  | nil => rfl
  | cons w ws ih =>
    rw [List.forall_mem_cons] at h
    cases ws with
    | nil =>
      rw [List.intercalate_singleton]
      exact wordChars_of_isWord h.1
    | cons v ws =>
      rw [List.intercalate_cons_cons, List.append_assoc, wordChars_append h.1 (by simp [isBlank]),
        List.singleton_append, wordChars_of_isBlank (by decide), ih h.2]

/-- So it is for words as texts. -/
theorem words_join {ws : List String} (h : ∀ w ∈ ws, IsWord w.toList) :
    words (join " " ws) = ws := by
  have hwords : ∀ w ∈ ws.map String.toList, IsWord w := by
    intro w hw
    obtain ⟨s, hs, rfl⟩ := List.mem_map.mp hw
    exact h s hs
  rw [words, join, String.toList_intercalate]
  show (wordChars ([' '].intercalate (ws.map String.toList))).map String.ofList = ws
  rw [wordChars_intercalate hwords, List.map_map]
  simp

/-- **The words of a text are words.** -/
theorem isWord_of_mem_wordChars {cs w : List Char} (h : w ∈ wordChars cs) : IsWord w := by
  induction cs generalizing w with
  | nil => cases h
  | cons c cs ih =>
    rw [wordChars_cons] at h
    split at h
    · exact ih h
    · rename_i hc
      have hone : IsWord [c] :=
        ⟨List.cons_ne_nil _ _, List.forall_mem_singleton.mpr (Bool.eq_false_iff.mpr hc)⟩
      split at h
      · rename_i v vs hwords
        have hrest : ∀ u ∈ v :: vs, IsWord u := fun u hu => ih (hwords ▸ hu)
        split at h
        · exact (List.forall_mem_cons.mpr ⟨hone, hrest⟩) w h
        · have hlonger : IsWord (c :: v) :=
            ⟨List.cons_ne_nil _ _, List.forall_mem_cons.mpr
              ⟨Bool.eq_false_iff.mpr hc, (hrest v List.mem_cons_self).2⟩⟩
          exact (List.forall_mem_cons.mpr
            ⟨hlonger, fun u hu => hrest u (List.mem_cons_of_mem v hu)⟩) w h
      · exact (List.forall_mem_cons.mpr ⟨hone, fun u hu => ih hu⟩) w h

/-! ## White space at the ends

Selectors are trimmed at several places before they are cut into words. None
of this makes a difference to the words. -/

/-- White space at the start does not count. -/
theorem wordChars_trimLeft (cs : List Char) : wordChars (trimLeft cs) = wordChars cs := by
  unfold trimLeft
  induction cs with
  | nil => rfl
  | cons c cs ih =>
    by_cases hc : isBlank c = true
    · rw [List.dropWhile_cons_of_pos hc, ih, wordChars_of_isBlank hc]
    · rw [List.dropWhile_cons_of_neg hc]

/-- White space at the end does not count. -/
theorem wordChars_append_blanks {bs : List Char} (h : ∀ c ∈ bs, isBlank c = true)
    (cs : List Char) : wordChars (cs ++ bs) = wordChars cs := by
  induction cs with
  | nil =>
    have hnone : wordChars bs = wordChars (trimLeft bs) := (wordChars_trimLeft bs).symm
    rw [List.nil_append, hnone, trimLeft, List.dropWhile_eq_nil_iff.mpr h]
  | cons c cs ih =>
    rw [List.cons_append, wordChars_cons, wordChars_cons, ih]
    cases cs with
    | cons d cs =>
      rw [List.cons_append]
      cases wordChars (d :: cs) <;> rfl
    | nil =>
      -- the last word ends at the white space
      cases bs with
      | nil => rfl
      | cons b bs => rfl

/-- **White space around a text does not count for its words.** -/
theorem words_trim (s : String) : words (trim s) = words s := by
  have hblank : ∀ c ∈ ((trimLeft s.toList).reverse.takeWhile isBlank).reverse,
      isBlank c = true := by
    intro c hc
    exact List.all_eq_true.mp List.all_takeWhile c (List.mem_reverse.mp hc)
  have hsplit : trimChars s.toList
      ++ ((trimLeft s.toList).reverse.takeWhile isBlank).reverse = trimLeft s.toList := by
    rw [trimChars, trimRight, ← List.reverse_append, List.takeWhile_append_dropWhile,
      List.reverse_reverse]
  rw [words, words, trim, String.toList_ofList, ← wordChars_trimLeft s.toList, ← hsplit,
    wordChars_append_blanks hblank]

/-- A word has nothing to trim. -/
theorem trimChars_of_isWord {w : List Char} (h : IsWord w) : trimChars w = w := by
  have hkeeps : ∀ cs : List Char, (∀ c ∈ cs, isBlank c = false) → cs.dropWhile isBlank = cs :=
    fun cs hcs => List.dropWhile_eq_self_iff.mpr fun hlt => by simp [hcs _ (List.getElem_mem hlt)]
  rw [trimChars, trimLeft, hkeeps w h.2, trimRight,
    hkeeps w.reverse fun c hc => h.2 c (List.mem_reverse.mp hc), List.reverse_reverse]

variable {s w : String}

/-- So a word of a text stays when it is trimmed. -/
theorem trim_of_mem_words (h : w ∈ words s) : trim w = w := by
  obtain ⟨cs, hcs, rfl⟩ := List.mem_map.mp h
  rw [trim, String.toList_ofList, trimChars_of_isWord (isWord_of_mem_wordChars hcs)]

/-- A word of a text is the only word of itself. -/
theorem words_of_mem_words (h : w ∈ words s) : words w = [w] := by
  obtain ⟨cs, hcs, rfl⟩ := List.mem_map.mp h
  rw [words, String.toList_ofList, wordChars_of_isWord (isWord_of_mem_wordChars hcs)]
  rfl

end Stylebook.Text
