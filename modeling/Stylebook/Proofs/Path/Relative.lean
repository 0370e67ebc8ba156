import Stylebook.Proofs.Path.Below

/-!
# Relative paths, however they are written

Normalizing leaves one way to write a path, and of a path so written the
relative path is known as a text (`relativeTo?_of_names`). Paths that a walk
puts together are not normal when the directory that it starts from is not.
Of these the relative path still has the names that follow the components of
the directory (`exists_relativeTo?`): repeated slashes and points are left
out with the pieces that do not count, and what counts keeps its order.

The paths of a walk are those of locations below its root (`below`).
-/

namespace Stylebook

namespace Path

open Component

variable {p base : Path} {names : List String}

/-- **The path of a location** below a path: name by name. -/
def below (p : Path) (location : List String) : Path :=
  location.foldl (fun p n => p.join ⟨n⟩) p

/-- A name that is joined is one component more. -/
theorem components_join_name (p : Path) {n : String} (h : (Component.name n).IsStep) :
    (p.join ⟨n⟩).components = p.components ++ [.name n] := by
  have hname : ofComponents [.name n] = ⟨n⟩ := by
    simp [ofComponents, Text.join, Component.text]
  rw [← hname]
  exact components_join_steps p (by simpa using h)

/-- **A location adds its names.** -/
theorem components_below (p : Path) {location : List String}
    (h : ∀ n ∈ location, (Component.name n).IsStep) :
    (p.below location).components = p.components ++ location.map .name := by
  induction location generalizing p with
  | nil => simp [below]
  | cons n location ih =>
    obtain ⟨hn, hlocation⟩ := List.forall_mem_cons.mp h
    show ((p.join ⟨n⟩).below location).components = _
    rw [ih _ hlocation, components_join_name p hn, List.append_assoc]
    rfl

/-! ## The relative path

The program takes a relative path from the text, so that slashes and points
of the path stay as they were written. It counts components while it drops
pieces, and pieces that are no components are dropped along. The lemmas go
through the same steps and look only at what counts. -/

/-- The pieces of a path behind the first one are idle or components. -/
theorem of_mem_tail_pieces {q : List Char × Bool} (h : q ∈ p.pieces.tail) :
    q.2 = !isIdle q.1 ∧ '/' ∉ q.1 := by
  refine ⟨?_, ?_⟩
  · unfold pieces at h
    split at h
    · obtain ⟨w, -, rfl⟩ := List.mem_map.mp h
      rfl
    · exact absurd h List.not_mem_nil
  · have hcut : q.1 ∈ cut p.text.toList := by
      rw [← map_fst_pieces]
      exact List.mem_map_of_mem (List.mem_of_mem_tail h)
    exact notMem_of_mem_cut hcut

/-- The first piece of a relative path is one of its components, unless the
path is empty. -/
theorem pieces_of_relative (h : p.isAbsolute = false) :
    p.pieces = [([], false)] ∨ ∃ w qs, p.pieces = (w, true) :: qs ∧ w ≠ [] ∧ '/' ∉ w := by
  obtain ⟨w, ws, hcut⟩ := List.exists_cons_of_ne_nil (cut_ne_nil p.text.toList)
  have hpieces : p.pieces = (w, decide (w ≠ [])) :: ws.map fun q => (q, !isIdle q) := by
    rw [pieces, hcut, h]
    rfl
  have hslash : '/' ∉ w := notMem_of_mem_cut (hcut ▸ List.mem_cons_self)
  by_cases hw : w = []
  · subst hw
    refine Or.inl ?_
    cases ws with
    | nil => exact hpieces
    | cons v ws =>
      -- an empty piece with a slash behind it makes the path absolute
      have htext : p.text.toList.head? = some '/' := by
        rw [← glue_cut p.text.toList, hcut]
        rfl
      simp [isAbsolute, htext] at h
  · exact Or.inr ⟨w, _, by simpa [hw] using hpieces, hw, hslash⟩

/-- The first piece of an absolute path is none of its components. -/
theorem pieces_of_absolute (h : p.isAbsolute = true) : ∃ w qs, p.pieces = (w, false) :: qs := by
  obtain ⟨w, ws, hcut⟩ := List.exists_cons_of_ne_nil (cut_ne_nil p.text.toList)
  exact ⟨w, _, by rw [pieces, hcut, h]; rfl⟩

/-- **Pieces put together** are components again, if the first one is. -/
theorem components_ofPieces {qs : List (List Char × Bool)}
    (h : ∀ q ∈ qs, q.2 = !isIdle q.1 ∧ '/' ∉ q.1) (hhead : ∀ q ∈ qs.head?, q.2 = true) :
    (ofPieces false qs).components = (qs.filter (·.2)).map fun q => ofPiece q.1 := by
  cases qs with
  | nil => rfl
  | cons q qs =>
    obtain ⟨w, flag⟩ := q
    obtain rfl : flag = true := hhead _ rfl
    obtain ⟨⟨hidle, hslash⟩, hqs⟩ := List.forall_mem_cons.mp h
    have hne : w ≠ [] := by
      rintro rfl
      simp [isIdle] at hidle
    have hcut : cut (ofPieces false ((w, true) :: qs)).text.toList = w :: qs.map Prod.fst := by
      show cut (String.ofList (glue (w :: qs.map Prod.fst))).toList = _
      rw [String.toList_ofList, glue_eq_intercalate, cut_intercalate]
      intro v hv
      rcases List.mem_cons.mp hv with rfl | hv
      · exact hslash
      · obtain ⟨q, hq, rfl⟩ := List.mem_map.mp hv
        exact (hqs q hq).2
    have habs : (ofPieces false ((w, true) :: qs)).isAbsolute = false := by
      obtain ⟨c, cs, rfl⟩ := List.exists_cons_of_ne_nil hne
      have hc : c ≠ '/' := fun hc => hslash (hc ▸ List.mem_cons_self)
      have htext : (ofPieces false ((c :: cs, true) :: qs)).text.toList.head? = some c := by
        show (String.ofList (glue ((c :: cs) :: qs.map Prod.fst))).toList.head? = _
        rw [String.toList_ofList]
        cases qs <;> rfl
      simpa [isAbsolute, htext] using hc
    have hinner : inner (qs.map Prod.fst) = (qs.filter (·.2)).map fun q => ofPiece q.1 := by
      rw [inner, List.filter_map, List.map_map]
      refine congrArg (List.map _) (List.filter_congr fun q hq => ?_)
      exact (hqs q hq).1.symm
    rw [components_of_cut hcut, hinner, top, habs, List.filter_cons_of_pos rfl]
    simp [hne]

/-! What is left out does not count, and what counts is left in order. -/

/-- The pieces that count do not change when others are left out in front. -/
theorem filter_dropWhile (ps : List (List Char × Bool)) :
    (ps.dropWhile (!·.2)).filter (·.2) = ps.filter (·.2) := by
  induction ps with
  | nil => rfl
  | cons q ps ih =>
    obtain ⟨w, flag⟩ := q
    cases flag with
    | true => rfl
    | false => rw [List.dropWhile_cons_of_pos rfl, ih, List.filter_cons_of_neg (by simp)]

/-- The idle pieces at the end are left out. -/
theorem trimmed_prefix (p : Path) : p.piecesReversed.reverse <+: p.pieces := by
  rw [← List.reverse_suffix, List.reverse_reverse]
  exact List.dropWhile_suffix _

/-- They count for nothing. -/
theorem filter_trimmed (p : Path) :
    p.piecesReversed.reverse.filter (·.2) = p.pieces.filter (·.2) := by
  rw [List.filter_reverse, piecesReversed, filter_dropWhile, List.filter_reverse,
    List.reverse_reverse]

/-- Leaving out pieces leaves out as many components. -/
theorem filter_dropPieces (k : Nat) (ps : List (List Char × Bool)) :
    (dropPieces k ps).filter (·.2) = (ps.filter (·.2)).drop k := by
  fun_induction dropPieces k ps with
  | case1 ps => rfl
  | case2 k => rfl
  | case3 k w ps ih => rw [ih, List.filter_cons_of_pos rfl, List.drop_succ_cons]
  | case4 k w ps ih => rw [ih, List.filter_cons_of_neg (by simp)]

/-- What remains when pieces are left out are pieces of the path. -/
theorem dropPieces_sublist (k : Nat) (ps : List (List Char × Bool)) :
    List.Sublist (dropPieces k ps) ps := by
  fun_induction dropPieces k ps with
  | case1 ps => exact .refl _
  | case2 k => exact .refl _
  | case3 k w ps ih => exact ih.cons _
  | case4 k w ps ih => exact ih.cons _

/-- The first piece is left out with the first component. -/
theorem dropPieces_succ_sublist (k : Nat) (ps : List (List Char × Bool)) :
    List.Sublist (dropPieces (k + 1) ps) ps.tail := by
  cases ps with
  | nil => exact .refl _
  | cons q ps =>
    obtain ⟨w, flag⟩ := q
    cases flag with
    | true => exact dropPieces_sublist k ps
    | false => exact dropPieces_sublist (k + 1) ps

/-- **The components behind the first ones**, as a path. -/
theorem components_behind {ps : List (List Char × Bool)} (h : ∀ q ∈ ps, q ∈ p.pieces.tail) :
    (ofPieces false (ps.dropWhile (!·.2))).components
      = (ps.filter (·.2)).map fun q => ofPiece q.1 := by
  rw [components_ofPieces, filter_dropWhile]
  · exact fun q hq => of_mem_tail_pieces (h q ((List.dropWhile_sublist _).subset hq))
  · intro q hq
    have hnot := List.head?_dropWhile_not (!·.2) ps
    rw [hq] at hnot
    simpa using hnot

/-- Whether a list stands in front of another one is decided by dropping it. -/
theorem isSome_dropFront?_iff {α : Type} [DecidableEq α] (as bs : List α) :
    (dropFront? as bs).isSome = true ↔ as <+: bs := by
  induction as generalizing bs with
  | nil => simp [dropFront?]
  | cons a as ih =>
    cases bs with
    | nil => simp [dropFront?]
    | cons b bs =>
      rw [dropFront?, List.cons_prefix_cons]
      by_cases h : a = b <;> simp [h, ih]

/-- **A path starts with another** when its components do. -/
theorem startsWith_iff : p.startsWith base = true ↔ base.components <+: p.components :=
  isSome_dropFront?_iff _ _

section Relative

variable (h : p.components = base.components ++ names.map .name)
include h

/-- Below the empty path, a path is left as it is. -/
theorem components_trimmed (hbase : base.components = []) :
    (ofPieces p.isAbsolute p.piecesReversed.reverse).components = names.map .name := by
  rw [hbase, List.nil_append] at h
  have habs : p.isAbsolute = false := by
    rw [← Bool.not_eq_true, isAbsolute_iff, h]
    simp
  have hcomponents : (p.pieces.filter (·.2)).map (fun q => ofPiece q.1) = names.map .name := by
    rw [components, habs] at h
    exact h
  obtain ⟨idle, hidle⟩ := trimmed_prefix p
  have hmem : ∀ q ∈ p.piecesReversed.reverse, q ∈ p.pieces :=
    fun q hq => hidle ▸ List.mem_append_left idle hq
  rcases pieces_of_relative habs with hempty | ⟨w, qs, hpieces, hne, hslash⟩
  · -- nothing is left of the empty path
    have hnil : p.piecesReversed.reverse = [] := by
      rw [piecesReversed, hempty]
      rfl
    rw [habs, hnil, ← hcomponents, hempty]
    rfl
  · rw [habs, components_ofPieces, filter_trimmed, hcomponents]
    · intro q hq
      have hq := hmem q hq
      rw [hpieces] at hq
      rcases List.mem_cons.mp hq with rfl | hq
      · -- the first piece is a name and no point
        have hname : ofPiece w ∈ names.map .name := by
          rw [← hcomponents, hpieces]
          exact List.mem_cons_self
        have hpoint : w ≠ ['.'] := by
          rintro rfl
          simp [ofPiece] at hname
        exact ⟨by simp [isIdle, hne, hpoint], hslash⟩
      · exact of_mem_tail_pieces (p := p) (by rw [hpieces]; exact hq)
    · intro q hq
      obtain ⟨qs', hqs'⟩ := List.head?_eq_some_iff.mp hq
      rw [hqs', hpieces, List.cons_append] at hidle
      rw [(List.cons.inj hidle).1]

/-- **The relative path** is one of the names that follow. -/
theorem exists_relativeTo? : ∃ r, p.relativeTo? base = some r ∧ r.components = names.map .name := by
  have hstarts : p.startsWith base = true := by
    rw [startsWith, h, dropFront?_append]
    rfl
  obtain ⟨idle, hidle⟩ := trimmed_prefix p
  have htail : ∀ q ∈ p.piecesReversed.reverse.tail, q ∈ p.pieces.tail := by
    intro q hq
    rw [← hidle]
    cases hp : p.piecesReversed.reverse with
    | nil => rw [hp] at hq; cases hq
    | cons r rs => rw [hp] at hq; exact List.mem_append_left _ hq
  unfold relativeTo?
  rw [hstarts]
  simp only [Bool.not_true, Bool.false_eq_true, if_false]
  cases hlength : base.components.length with
  | zero => exact ⟨_, rfl, components_trimmed h (List.length_eq_zero_iff.mp hlength)⟩
  | succ n =>
    refine ⟨_, rfl, ?_⟩
    have hcomponents : p.top ++ (p.pieces.filter (·.2)).map (fun q => ofPiece q.1)
        = base.components ++ names.map .name := h
    rw [top] at hcomponents
    -- an absolute path has a piece in front of its components, the empty one
    by_cases habs : p.isAbsolute = true
    · simp only [habs, if_true] at hcomponents ⊢
      obtain ⟨c, cs, hbase⟩ := List.exists_cons_of_length_eq_add_one hlength
      obtain ⟨w, qs, hpieces⟩ := pieces_of_absolute habs
      have hdrop : (p.piecesReversed.reverse.drop 1).filter (·.2) = p.pieces.filter (·.2) := by
        rw [← filter_trimmed]
        cases htrimmed : p.piecesReversed.reverse with
        | nil => rfl
        | cons r rs =>
          rw [htrimmed, hpieces, List.cons_append] at hidle
          rw [(List.cons.inj hidle).1]
          rfl
      rw [components_behind (p := p) fun q hq => htail q ?_, filter_dropPieces, hdrop,
        List.map_drop]
      · rw [hbase, List.singleton_append, List.cons_append] at hcomponents
        rw [hbase] at hlength
        rw [(List.cons.inj hcomponents).2, List.drop_left' (by simpa using hlength)]
      · rw [← List.drop_one]
        exact (dropPieces_sublist n _).subset hq
    · rw [Bool.not_eq_true] at habs
      simp only [habs, Bool.false_eq_true, if_false] at hcomponents ⊢
      rw [components_behind (p := p) fun q hq => htail q ?_, filter_dropPieces, filter_trimmed,
        List.map_drop]
      · rw [show (p.pieces.filter (·.2)).map (fun q => ofPiece q.1) = _ from hcomponents,
          List.drop_left' hlength]
      · exact (dropPieces_succ_sublist n _).subset hq

end Relative

end Path

end Stylebook
