import Stylebook.Proofs.Path.Normal

/-!
# Reading a path that was put together

A path is cut at its slashes, so the pieces of two texts with a slash
between them are the pieces of the one and then those of the other. Only the
first piece of a path is read in a way of its own: it may be a point. So a
path below another one has the components of both, without the point that
the second one may start with (`components_join`).
-/

namespace Stylebook

namespace Path

variable {p q : Path}

/-- The slash of an absolute path, as a component. -/
def top (p : Path) : List Component := if p.isAbsolute = true then [.root] else []

/-- The components of the pieces behind the first one. -/
def inner (ws : List (List Char)) : List Component := (ws.filter (!isIdle ·)).map ofPiece

@[simp] theorem inner_nil : inner [] = [] := rfl

/-- Of each piece there is a component or none. -/
theorem inner_cons (w : List Char) (ws : List (List Char)) :
    inner (w :: ws) = (if isIdle w = true then [] else [ofPiece w]) ++ inner ws := by
  unfold inner
  by_cases h : isIdle w = true <;> simp [h]

/-- The components of pieces may be read in two goes. -/
theorem inner_append (vs ws : List (List Char)) : inner (vs ++ ws) = inner vs ++ inner ws := by
  simp [inner]

/-- No point is among them: it is a component only at the start of a path. -/
theorem here_notMem_inner (ws : List (List Char)) : Component.here ∉ inner ws := by
  intro h
  obtain ⟨w, hw, hpiece⟩ := List.mem_map.mp h
  obtain ⟨-, hidle⟩ := List.mem_filter.mp hw
  unfold ofPiece at hpiece
  split at hpiece
  · rename_i hpoint
    rw [hpoint] at hidle
    exact absurd hidle (by decide)
  · split at hpiece <;> cases hpiece

/-- Even an empty text has a piece, the empty one. -/
theorem cut_ne_nil (cs : List Char) : cut cs ≠ [] := by
  cases cs with
  | nil => exact List.cons_ne_nil _ _
  | cons c cs =>
    rw [cut]
    split
    · exact List.cons_ne_nil _ _
    · split <;> exact List.cons_ne_nil _ _

/-- **Texts with a slash between them are cut apart there.** -/
theorem cut_append (as bs : List Char) : cut (as ++ '/' :: bs) = cut as ++ cut bs := by
  induction as with
  | nil => simp [cut]
  | cons c as ih =>
    rw [List.cons_append, cut, ih, cut]
    by_cases hc : c = '/'
    · rw [if_pos hc, if_pos hc, List.cons_append]
    · obtain ⟨w, ws, hcut⟩ := List.exists_cons_of_ne_nil (cut_ne_nil as)
      rw [if_neg hc, if_neg hc, hcut]
      rfl

/-- **The components of a path**, from its first piece and those behind it. -/
theorem components_of_cut {w : List Char} {ws : List (List Char)}
    (h : cut p.text.toList = w :: ws) : p.components
      = p.top ++ (if p.isAbsolute = false ∧ w ≠ [] then [ofPiece w] else []) ++ inner ws := by
  have hinner : ((ws.map fun q => (q, !isIdle q)).filter (·.2)).map (fun q => ofPiece q.1)
      = inner ws := by
    rw [inner, List.filter_map, List.map_map]
    rfl
  unfold components pieces top
  rw [h]
  cases habs : p.isAbsolute with
  | true => simp [hinner]
  | false => by_cases hw : w = [] <;> simp [hw, hinner]

/-- The pieces of a relative path, all read as inner ones, do not give its
first point. -/
theorem inner_cut (h : p.isAbsolute = false) :
    inner (cut p.text.toList) = p.components.filter (· ≠ .here) := by
  obtain ⟨w, ws, hcut⟩ := List.exists_cons_of_ne_nil (cut_ne_nil p.text.toList)
  have hws : (inner ws).filter (· ≠ .here) = inner ws :=
    List.filter_eq_self.mpr fun c hc => by
      have hne : c ≠ .here := fun heq => here_notMem_inner ws (heq ▸ hc)
      simpa using hne
  rw [components_of_cut hcut, hcut, inner_cons, List.filter_append, hws, top, h]
  by_cases hempty : w = []
  · simp [hempty, isIdle]
  · by_cases hpoint : w = ['.']
    · simp [hpoint, isIdle, ofPiece]
    · have hne : ofPiece w ≠ .here := by
        rw [ofPiece, if_neg hpoint]
        split <;> simp
      simp [hempty, hpoint, isIdle, hne]

/-- The text of a path below another one. -/
theorem toList_join (hq : q.isAbsolute = false) : (p.join q).text.toList
    = if p.text.toList = [] ∨ p.text.toList.getLast? = some '/'
      then p.text.toList ++ q.text.toList else p.text.toList ++ '/' :: q.text.toList := by
  unfold join
  rw [hq]
  by_cases hnil : p.text.toList = []
  · simp [hnil]
  · by_cases hlast : p.text.toList.getLast? = some '/'
    · simp [hlast]
    · simp [hnil, hlast]

/-- Nothing stands before a path below the empty one. -/
theorem join_of_empty (hp : p.text = "") (hq : q.isAbsolute = false) : p.join q = q := by
  unfold join
  simp [hp, hq]

/-- A path below another one starts as that one does. -/
theorem isAbsolute_join (hq : q.isAbsolute = false) :
    (p.join q).isAbsolute = p.isAbsolute := by
  rcases List.eq_nil_or_concat p.text.toList with hnil | ⟨as, c, hconcat⟩
  · have hp : p.text = "" := by simpa using hnil
    rw [join_of_empty hp hq, hq, isAbsolute, hnil]
    rfl
  · rw [isAbsolute, isAbsolute, toList_join hq, hconcat]
    cases as <;> split <;> simp

/-- **A path below another one has the components of both**, without a point
in between. -/
theorem components_join (hp : p.text ≠ "") (hq : q.isAbsolute = false) :
    (p.join q).components = p.components ++ q.components.filter (· ≠ .here) := by
  have hne : p.text.toList ≠ [] := by simpa using hp
  have htop : (p.join q).top = p.top := by rw [top, top, isAbsolute_join hq]
  -- up to the slash before the second path, both have the same pieces
  obtain ⟨as, hjoin, hself⟩ : ∃ as, (p.join q).text.toList = as ++ '/' :: q.text.toList
      ∧ inner (cut p.text.toList).tail = inner (cut as).tail
      ∧ (cut p.text.toList).head? = (cut as).head? := by
    rw [toList_join hq]
    by_cases hlast : p.text.toList.getLast? = some '/'
    · obtain ⟨as, has⟩ := List.getLast?_eq_some_iff.mp hlast
      obtain ⟨w, ws, hcut⟩ := List.exists_cons_of_ne_nil (cut_ne_nil as)
      refine ⟨as, by rw [if_pos (Or.inr hlast), has]; simp, ?_⟩
      rw [has, cut_append, hcut]
      exact ⟨by simp [inner_append, cut, inner_cons, isIdle], rfl⟩
    · exact ⟨p.text.toList, by rw [if_neg (by simp [hne, hlast])], rfl, rfl⟩
  obtain ⟨w, ws, hcut⟩ := List.exists_cons_of_ne_nil (cut_ne_nil as)
  obtain ⟨v, vs, hcutp⟩ := List.exists_cons_of_ne_nil (cut_ne_nil p.text.toList)
  have hcutjoin : cut (p.join q).text.toList = w :: (ws ++ cut q.text.toList) := by
    rw [hjoin, cut_append, hcut, List.cons_append]
  rw [hcut, hcutp] at hself
  obtain ⟨hinner, hhead⟩ := hself
  obtain rfl : v = w := by simpa using hhead
  rw [components_of_cut hcutjoin, components_of_cut hcutp, htop, isAbsolute_join hq, inner_append,
    inner_cut hq, show inner vs = inner ws from hinner, List.append_assoc, List.append_assoc,
    List.append_assoc]

end Path

end Stylebook
