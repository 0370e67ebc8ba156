import Stylebook.Path.Map

/-!
# Paths as keys

Sets and maps of paths compare paths by their components. This module says
what that means for the reader of a set or a map: `Path.same` is an
equivalence, membership and look-up do not see the spelling of a path, and
each operation on a map changes what is found under one key and under no
other.
-/

namespace Stylebook

namespace Path

variable {p q r : Path} {ps : List Path}

/-- Two paths are the same if their components are. -/
theorem same_iff : p.same q = true ↔ p.components = q.components := by
  simp [same]

/-- A path is the same as itself. -/
@[simp] theorem same_refl (p : Path) : p.same p = true := same_iff.mpr rfl

/-- Being the same is symmetric. -/
theorem same_comm (p q : Path) : p.same q = q.same p := by
  simp only [same, eq_comm]

/-- Being the same is transitive. -/
theorem same_trans (h : p.same q = true) (h' : q.same r = true) : p.same r = true :=
  same_iff.mpr ((same_iff.mp h).trans (same_iff.mp h'))

/-- Two spellings of one path compare alike with every other path. -/
theorem same_congr_left (h : p.same q = true) (r : Path) : p.same r = q.same r := by
  simp only [same, same_iff.mp h]

/-- So it is on the other side. -/
theorem same_congr_right (h : p.same q = true) (r : Path) : r.same p = r.same q := by
  rw [same_comm r p, same_comm r q, same_congr_left h]

/-- A path is in a list if it is the same as one of its members, however
that is spelled. -/
theorem isIn_iff : p.isIn ps = true ↔ ∃ q ∈ ps, p.same q = true := by
  simp [isIn]

/-- A member is in the list. -/
theorem isIn_of_mem (h : p ∈ ps) : p.isIn ps = true := isIn_iff.mpr ⟨p, h, same_refl p⟩

/-- Being in a list does not see how the path is spelled. -/
theorem isIn_congr (h : p.same q = true) (ps : List Path) : p.isIn ps = q.isIn ps := by
  unfold isIn
  exact congrArg ps.any (funext fun r => same_congr_left h r)

/-- A path is in two lists together if it is in one of them. -/
theorem isIn_append {ps qs : List Path} :
    p.isIn (ps ++ qs) = true ↔ p.isIn ps = true ∨ p.isIn qs = true := by
  simp [isIn]

/-- A path is in a list if it is the first one or in the others. -/
theorem isIn_cons {ps : List Path} :
    p.isIn (q :: ps) = true ↔ p.same q = true ∨ p.isIn ps = true := by
  simp [isIn]

end Path

namespace PathSet

open Stylebook.Path

variable {p q : Path} {s : PathSet}

/-- Inserting adds one path. -/
theorem isIn_insert : q.isIn (insert s p) = true ↔ q.isIn s = true ∨ q.same p = true := by
  unfold insert
  by_cases h : p.isIn s = true
  · rw [if_pos h]
    refine ⟨Or.inl, fun hq => hq.elim id fun hqp => ?_⟩
    rw [isIn_congr hqp]
    exact h
  · rw [if_neg h, isIn_append]
    simp [isIn]

/-- Erasing takes one path away, in all of its spellings. -/
theorem isIn_erase : q.isIn (erase s p) = true ↔ q.isIn s = true ∧ q.same p = false := by
  simp only [isIn_iff, erase, List.mem_filter, Bool.not_eq_true']
  constructor
  · rintro ⟨r, ⟨hr, hrp⟩, hqr⟩
    exact ⟨⟨r, hr, hqr⟩, by rw [same_congr_left hqr]; exact hrp⟩
  · rintro ⟨⟨r, hr, hqr⟩, hqp⟩
    exact ⟨r, ⟨hr, by rw [← same_congr_left hqr]; exact hqp⟩, hqr⟩

/-- As texts, the members are those from before and the one that came in. -/
theorem mem_insert {r : Path} (h : r ∈ insert s p) : r ∈ s ∨ r = p := by
  unfold insert at h
  split at h
  · exact Or.inl h
  · simpa using h

/-- As texts, the members that are left were there. -/
theorem mem_of_mem_erase {r : Path} (h : r ∈ erase s p) : r ∈ s := (List.mem_filter.mp h).1

end PathSet

namespace PathMap

open Stylebook.Path

variable {β : Type} {m : PathMap β} {p q : Path} {b : β}

/-- Look-up does not see how a path is spelled. -/
theorem get?_congr (h : p.same q = true) (m : PathMap β) : get? m p = get? m q := by
  unfold get?
  rw [show (fun e : Path × β => e.1.same p) = fun e => e.1.same q from
    funext fun e => same_congr_right h e.1]

/-- The first entry of the same path is found. -/
theorem get?_cons (e : Path × β) (m : PathMap β) (q : Path) :
    get? (e :: m) q = if e.1.same q = true then some e.2 else get? m q := by
  unfold get?
  by_cases h : e.1.same q = true <;> simp [h]

/-- **Writing a path changes what is found there**, and nowhere else. -/
theorem get?_set (m : PathMap β) (p q : Path) (b : β) :
    get? (set m p b) q = if p.same q = true then some b else get? m q := by
  induction m with
  | nil => rw [set, get?_cons]
  | cons e m ih =>
    obtain ⟨r, c⟩ := e
    by_cases h : r.same p = true
    · rw [set, if_pos h, get?_cons, get?_cons, same_congr_left h]
      by_cases hq : p.same q = true <;> simp [hq]
    · rw [set, if_neg h, get?_cons, get?_cons, ih]
      by_cases hq : r.same q = true
      · have hpq : ¬p.same q = true := fun hpq =>
          h (same_trans hq (by rw [same_comm]; exact hpq))
        rw [if_pos hq, if_neg hpq, if_pos hq]
      · rw [if_neg hq, if_neg hq]

/-- **Taking a path out** leaves nothing there, and everything else as it
was. -/
theorem get?_erase (m : PathMap β) (p q : Path) :
    get? (erase m p) q = if p.same q = true then none else get? m q := by
  induction m with
  | nil => simp [erase, get?]
  | cons e m ih =>
    have hcons : erase (e :: m) p
        = if e.1.same p = true then erase m p else e :: erase m p := by
      unfold erase
      by_cases h : e.1.same p = true <;> simp [h]
    rw [hcons]
    by_cases h : e.1.same p = true
    · rw [if_pos h, ih, get?_cons, same_congr_left h]
      by_cases hq : p.same q = true <;> simp [hq]
    · rw [if_neg h, get?_cons, get?_cons, ih]
      by_cases hq : e.1.same q = true
      · have hpq : ¬p.same q = true := fun hpq =>
          h (same_trans hq (by rw [same_comm]; exact hpq))
        rw [if_pos hq, if_neg hpq, if_pos hq]
      · rw [if_neg hq, if_neg hq]

/-- What is found under a path is one of the entries of the map. -/
theorem mem_of_get? (h : get? m p = some b) : ∃ q, (q, b) ∈ m ∧ q.same p = true := by
  unfold get? at h
  obtain ⟨e, he, rfl⟩ := Option.map_eq_some_iff.mp h
  exact ⟨e.1, List.mem_of_find?_eq_some he, by simpa using List.find?_some he⟩

/-- The entries of a map are those from before and the one that was written. -/
theorem mem_set {e : Path × β} (h : e ∈ set m p b) : e.2 = b ∨ e ∈ m := by
  induction m with
  | nil => exact Or.inl (by simpa [set] using congrArg Prod.snd (List.mem_singleton.mp h))
  | cons d m ih =>
    obtain ⟨r, c⟩ := d
    rw [set] at h
    split at h
    · rcases List.mem_cons.mp h with rfl | h
      · exact Or.inl rfl
      · exact Or.inr (List.mem_cons_of_mem _ h)
    · rcases List.mem_cons.mp h with rfl | h
      · exact Or.inr List.mem_cons_self
      · exact (ih h).imp id (List.mem_cons_of_mem _)

/-- The entries that are left in a map were there. -/
theorem mem_of_mem_erase {e : Path × β} (h : e ∈ erase m p) : e ∈ m := (List.mem_filter.mp h).1

end PathMap

end Stylebook
