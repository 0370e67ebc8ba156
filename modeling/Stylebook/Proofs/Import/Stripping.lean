import Mathlib.Data.List.Basic
import Stylebook.Import.Inline

/-!
# Taking statements out

Taking the statements of a target out of a text leaves a part of it: no
character is new and none changes its place. So a text from which something
is taken gets shorter, and one that keeps its length keeps all of itself.
That is what bounds the inlining of imports.

It is an argument by length because there is no other one. What is left of a
text may have statements in it that were not there before, when two parts
come together where a statement stood. Counting statements or targets would
therefore not show that anything comes to an end.
-/

namespace Stylebook.Import

/-- What follows a statement is an end of the text. -/
theorem sublist_of_afterQuote? {quote : Char} {target cs rest : List Char}
    (h : afterQuote? quote target cs = some rest) : rest.Sublist cs := by
  unfold afterQuote? at h
  simp only [Option.bind_eq_bind, Option.bind_eq_some_iff] at h
  obtain ⟨r₁, h₁, r₂, h₂, h₃⟩ := h
  have s₁ : r₁.Sublist cs := Text.append_of_dropFront? h₁ ▸ List.sublist_append_right _ _
  have s₂ : r₂.Sublist r₁ := Text.append_of_dropFront? h₂ ▸ List.sublist_append_right _ _
  have s₃ : rest.Sublist (r₂.dropWhile Text.isBlank) :=
    Text.append_of_dropFront? h₃ ▸ List.sublist_append_right _ _
  exact s₃.trans ((List.dropWhile_sublist _).trans (s₂.trans s₁))

/-- So it is behind the whole of it. -/
theorem sublist_of_afterStatement? {target cs rest : List Char}
    (h : afterStatement? target cs = some rest) : rest.Sublist cs := by
  unfold afterStatement? at h
  split at h
  · cases h
  · rename_i r hr
    have hsub : (r.dropWhile Text.isBlank).Sublist cs :=
      (List.dropWhile_sublist _).trans
        (Text.append_of_dropFront? hr ▸ List.sublist_append_right _ _)
    split at h
    · split at h
      · rename_i heq
        rw [heq] at hsub
        exact (sublist_of_afterQuote? h).trans ((List.sublist_cons_self _ _).trans hsub)
      · rename_i heq
        rw [heq] at hsub
        exact (sublist_of_afterQuote? h).trans ((List.sublist_cons_self _ _).trans hsub)
      · cases h
    · cases h

/-- Putting nothing in the place of statements leaves a part of the text,
and of the white space that waits in front of it. -/
theorem replaceFrom_nil_sublist (target spaces cs : List Char) :
    (replaceFrom target [] spaces cs).Sublist (spaces.reverse ++ cs) := by
  fun_induction replaceFrom target [] spaces cs with
  | case1 spaces => simp
  | case2 spaces c cs rest h hlt ih =>
    rw [List.nil_append]
    exact ih.trans ((sublist_of_afterStatement? h).trans (List.sublist_append_right _ _))
  | case3 spaces c cs h hblank ih =>
    rw [List.reverse_cons, List.append_assoc, List.singleton_append] at ih
    exact ih
  | case4 spaces c cs h hblank ih =>
    exact (List.Sublist.refl _).append (ih.cons_cons c)

/-- **What is left is a part of the text.** -/
theorem strip_sublist (target text : List Char) : (strip target text).Sublist text := by
  simpa [strip, replaceAll] using replaceFrom_nil_sublist target [] text

/-- Targets are taken out one after the other. -/
theorem stripAll_append (targets more : List String) (text : List Char) :
    stripAll (targets ++ more) text = stripAll more (stripAll targets text) :=
  List.foldl_append

/-- What is left when targets are taken out is a part of the text. -/
theorem stripAll_sublist (targets : List String) (text : List Char) :
    (stripAll targets text).Sublist text := by
  induction targets generalizing text with
  | nil => exact List.Sublist.refl _
  | cons t targets ih => exact (ih _).trans (strip_sublist _ _)

/-- With more targets there is not more left. -/
theorem length_stripAll_append_le (targets more : List String) (text : List Char) :
    (stripAll (targets ++ more) text).length ≤ (stripAll targets text).length := by
  rw [stripAll_append]
  exact (stripAll_sublist _ _).length_le

/-- A text that keeps its length when more is taken out keeps all of itself. -/
theorem stripAll_append_eq {targets more : List String} {text : List Char}
    (h : (stripAll targets text).length ≤ (stripAll (targets ++ more) text).length) :
    stripAll (targets ++ more) text = stripAll targets text := by
  rw [stripAll_append] at h ⊢
  exact (stripAll_sublist _ _).eq_of_length_le h

end Stylebook.Import
