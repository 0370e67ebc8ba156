import Mathlib.Data.Prod.Lex
import Mathlib.Data.String.Basic
import Stylebook.Proofs.Text.Distance
import Stylebook.Settings.Load

/-!
# The suggestion for an unknown key

The warning about a key that is not known suggests a known one. Which one is
settled by two things, the edit distance and then the alphabet, so the known
keys of a table are ranked by pairs of these in lexicographic order: the
better one of two keys is the one of the lower rank (`rank_better`), and
going through the keys finds the lowest (`isNearest_foldl_better`).

The main result is `suggests_nearest_by_edits`: the distance is the least
number of bytes to insert, delete or substitute, and what is suggested is
the nearest key, the alphabetically first one where several are equally
near, as long as it is within two edits. A table that has such a key always
gets a suggestion, and no other one does.
-/

namespace Stylebook

namespace Settings

/-! ### Distances of texts

Distances are taken of bytes, and so that a distance of zero tells equal
texts, equal bytes have to be equal texts. -/

/-- The loop that lists the bytes of an array puts those from its index on
behind those that it has passed. -/
theorem toList_loop (bs : ByteArray) (i : Nat) (r : List UInt8) :
    ByteArray.toList.loop bs i r = r.reverse ++ bs.data.toList.drop i := by
  fun_induction ByteArray.toList.loop bs i r with
  | case1 i r h ih =>
    have hlt : i < bs.data.toList.length := h
    have hget : bs.get! i = bs.data.toList[i] := getElem!_pos bs.data i h
    rw [ih, List.reverse_cons, List.append_assoc, List.singleton_append, hget,
      List.cons_getElem_drop_succ]
  | case2 i r h =>
    have hle : bs.data.toList.length ≤ i := Nat.le_of_not_lt h
    rw [List.drop_eq_nil_of_le hle, List.append_nil]

/-- The list of the bytes of an array has all of them. -/
theorem toList_bytes (bs : ByteArray) : bs.toList = bs.data.toList := by
  rw [ByteArray.toList, toList_loop, List.reverse_nil, List.nil_append, List.drop_zero]

/-- Different texts have different bytes. -/
theorem toList_toUTF8_inj {s t : String} : s.toUTF8.toList = t.toUTF8.toList ↔ s = t := by
  rw [toList_bytes, toList_bytes, Array.toList_inj]
  exact ⟨fun h => String.toByteArray_inj.mp (ByteArray.ext h), fun h => h ▸ rfl⟩

/-- Only the same text is at no distance. -/
theorem textDistance_eq_zero_iff {s t : String} : textDistance s t = 0 ↔ s = t := by
  rw [textDistance, Text.editDistance_eq_zero_iff, toList_toUTF8_inj]

/-! ### The nearest key

Two keys are compared by one rule, and the rule is an order. Once that is
seen, the key that is kept at the end is the least, and neither the order in
which the keys are gone through nor repeats among them matter. -/

variable {key k r : String} {ks : List String} {table : Option String}

/-- **The nearest one of some keys**, and of several that are equally near
the first in alphabetical order. -/
structure IsNearest (key : String) (ks : List String) (k : String) : Prop where
  mem : k ∈ ks
  distance_le : ∀ other ∈ ks, textDistance key k ≤ textDistance key other
  le_of_distance_eq : ∀ other ∈ ks, textDistance key other = textDistance key k → k ≤ other

/-- The rank of a key: its distance, and the key itself where distances are
equal. -/
def rank (key s : String) : Nat ×ₗ String := toLex (textDistance key s, s)

/-- A lower rank is a smaller distance, or the same one and an earlier place
in the alphabet. -/
theorem rank_lt_iff {s t : String} : rank key t < rank key s ↔
    textDistance key t < textDistance key s ∨
      textDistance key t = textDistance key s ∧ t < s :=
  Prod.Lex.toLex_lt_toLex

/-- So it is with ranks that may be the same. -/
theorem rank_le_iff {s t : String} : rank key s ≤ rank key t ↔
    textDistance key s < textDistance key t ∨
      textDistance key s = textDistance key t ∧ s ≤ t :=
  Prod.Lex.toLex_le_toLex

/-- The nearest key is the one of the lowest rank. -/
theorem isNearest_iff_rank :
    IsNearest key ks k ↔ k ∈ ks ∧ ∀ other ∈ ks, rank key k ≤ rank key other := by
  constructor
  · refine fun h => ⟨h.mem, fun other hother => rank_le_iff.mpr ?_⟩
    rcases (h.distance_le other hother).lt_or_eq with hlt | heq
    · exact Or.inl hlt
    · exact Or.inr ⟨heq, h.le_of_distance_eq other hother heq.symm⟩
  · rintro ⟨hmem, hle⟩
    refine ⟨hmem, fun other hother => ?_, fun other hother heq => ?_⟩
    · rcases rank_le_iff.mp (hle other hother) with hlt | ⟨heq, -⟩
      · exact hlt.le
      · exact heq.le
    · rcases rank_le_iff.mp (hle other hother) with hlt | ⟨-, hfirst⟩
      · exact absurd heq hlt.ne'
      · exact hfirst

/-- There is one nearest key at most. -/
theorem IsNearest.unique (hk : IsNearest key ks k) (hr : IsNearest key ks r) : k = r := by
  have hle := (isNearest_iff_rank.mp hk).2 r hr.mem
  have hge := (isNearest_iff_rank.mp hr).2 k hk.mem
  exact congrArg (fun p => (ofLex p).2) (hle.antisymm hge)

/-- **The better one of two keys** is the one of the lower rank. -/
theorem rank_better (key s t : String) :
    rank key (better key s t) = min (rank key s) (rank key t) := by
  have hcond : (decide (textDistance key t < textDistance key s) ||
      decide (textDistance key t = textDistance key s) && decide (t < s)) = true
        ↔ rank key t < rank key s := by
    rw [rank_lt_iff, Bool.or_eq_true, Bool.and_eq_true, decide_eq_true_iff, decide_eq_true_iff,
      decide_eq_true_iff]
  unfold better
  dsimp only
  by_cases h : rank key t < rank key s
  · rw [if_pos (hcond.mpr h), min_eq_right h.le]
  · rw [if_neg (mt hcond.mp h), min_eq_left (not_lt.mp h)]

/-- The better one is one of the two. -/
theorem better_eq_or (key s t : String) : better key s t = s ∨ better key s t = t := by
  unfold better
  dsimp only
  split
  · exact Or.inr rfl
  · exact Or.inl rfl

/-- **Going through keys** and keeping the better one finds the nearest. -/
theorem isNearest_foldl_better (key k : String) (ks : List String) :
    IsNearest key (k :: ks) (ks.foldl (better key) k) := by
  rw [isNearest_iff_rank]
  induction ks generalizing k with
  | nil => exact ⟨List.mem_cons_self, fun other h => (List.mem_singleton.mp h) ▸ le_refl _⟩
  | cons next ks ih =>
    obtain ⟨hmem, hle⟩ := ih (better key k next)
    rw [List.foldl_cons]
    refine ⟨?_, fun other hother => ?_⟩
    · rcases List.mem_cons.mp hmem with heq | htail
      · rw [heq]
        rcases better_eq_or key k next with hbetter | hbetter <;> simp [hbetter]
      · exact List.mem_cons_of_mem _ (List.mem_cons_of_mem _ htail)
    · have hfirst := hle _ List.mem_cons_self
      rw [rank_better, le_min_iff] at hfirst
      rcases List.mem_cons.mp hother with rfl | hother
      · exact hfirst.1
      rcases List.mem_cons.mp hother with rfl | hother
      · exact hfirst.2
      · exact hle other (List.mem_cons_of_mem _ hother)

/-! ### The suggestion

Keys too far away are left out before the nearest is looked for. It could as
well be done behind: the nearest of all keys is near enough, or none is. -/

/-- Keys that are too far do not change which one is the nearest of those
that are not. -/
theorem isNearest_filter_iff : IsNearest key (ks.filter fun k => textDistance key k ≤ 2) k ↔
    textDistance key k ≤ 2 ∧ IsNearest key ks k := by
  simp only [isNearest_iff_rank, List.mem_filter, decide_eq_true_iff]
  constructor
  · rintro ⟨⟨hmem, hnear⟩, hle⟩
    refine ⟨hnear, hmem, fun other hother => ?_⟩
    by_cases h : textDistance key other ≤ 2
    · exact hle other ⟨hother, h⟩
    · exact rank_le_iff.mpr (Or.inl (by omega))
  · rintro ⟨hnear, hmem, hle⟩
    exact ⟨⟨hmem, hnear⟩, fun other hother => hle other hother.1⟩

/-- There is no suggestion exactly if all keys are too far. -/
theorem suggestion?_eq_none_iff :
    suggestion? table key = none ↔ ∀ k ∈ knownKeys table, 2 < textDistance key k := by
  have hnil : ((knownKeys table).filter fun k => textDistance key k ≤ 2) = []
      ↔ ∀ k ∈ knownKeys table, 2 < textDistance key k := by
    simp [List.filter_eq_nil_iff]
  rw [← hnil]
  unfold suggestion?
  cases (knownKeys table).filter fun k => textDistance key k ≤ 2 <;> simp

/-- The suggestion is the nearest key, and of several the first one in
alphabetical order. -/
theorem suggestion?_eq_some_iff : suggestion? table key = some k ↔
    textDistance key k ≤ 2 ∧ IsNearest key (knownKeys table) k := by
  rw [← isNearest_filter_iff]
  unfold suggestion?
  cases (knownKeys table).filter fun k => textDistance key k ≤ 2 with
  | nil => exact iff_of_false nofun fun h => nomatch h.mem
  | cons first rest =>
    have hnearest := isNearest_foldl_better key first rest
    constructor
    · rintro ⟨⟩
      exact hnearest
    · exact fun h => congrArg some (hnearest.unique h)

/-- **The suggestion for an unknown key.** The edit distance that is
computed row by row is the one by recursion, and it is the least number of
elements to insert, delete or substitute so that one list of bytes becomes
the other. It is the same in both directions, and zero only for equal lists,
so for equal texts. For every table and every key, the suggestion is the
known key of the table that is nearest, the first one of several in
alphabetical order, if it is within two edits; and there is none if all
known keys of the table are farther.

Only one row is kept at a time, and it is the one of the distances from what
was read of the first list to all fronts of the second. The choice of a key
is a fold that keeps the better one of two. Distance and key together are an
order without ties, so what it ends in does not depend on where the keys
stand. -/
theorem suggests_nearest_by_edits :
    (∀ a b : List UInt8,
      Text.editDistance a b = Text.levenshtein a b ∧
        IsLeast {n | Text.EditedIn n a b} (Text.editDistance a b) ∧
        Text.editDistance a b = Text.editDistance b a ∧
        (Text.editDistance a b = 0 ↔ a = b)) ∧
      (∀ s t : String, textDistance s t = 0 ↔ s = t) ∧
      ∀ (table : Option String) (key : String),
        (∀ k, suggestion? table key = some k ↔
          textDistance key k ≤ 2 ∧ IsNearest key (knownKeys table) k) ∧
        (suggestion? table key = none ↔ ∀ k ∈ knownKeys table, 2 < textDistance key k) := by
  refine ⟨fun a b => ⟨?_, ?_, ?_, ?_⟩, fun s t => textDistance_eq_zero_iff, fun table key => ?_⟩
  · exact Text.editDistance_eq_levenshtein a b
  · exact Text.isLeast_editDistance a b
  · exact Text.editDistance_comm a b
  · exact Text.editDistance_eq_zero_iff
  · exact ⟨fun k => suggestion?_eq_some_iff, suggestion?_eq_none_iff⟩

-- Two edits lead from `xach` to `cache`, and two to `watch`.
example : suggestion? none "xach" = some "cache" := by decide +kernel

end Settings

end Stylebook
