import Mathlib.Data.List.Basic
import Mathlib.Data.List.Induction
import Stylebook.Style.Table

/-!
# What a table holds after writing

A table is known by two things: its names in order, and the value under each
name. For each way of writing into a table, this module says what becomes of
both. A name that is written again keeps its place, so the names are those
of all writes, each where it came in first. Of several values under one
name, the last one stays where writing overwrites (`get?_insertAll`), and
the first one where it does not (`get?_foldl_insertNew`).
-/

namespace Stylebook

namespace Entries

/-! ## Names, each where it comes first

The order of the names is that in which they came first, whatever is written
later. Names are told by one list with the later repeats taken out. These
equations say where it makes no difference when they are taken out. -/

section FirstOccurrences

variable {α : Type} [BEq α] [LawfulBEq α]

/-- A name at the end counts if it did not come before. -/
theorem eraseDups_concat [DecidableEq α] (as : List α) (a : α) :
    (as ++ [a]).eraseDups = if a ∈ as then as.eraseDups else as.eraseDups ++ [a] := by
  have hone : [a].eraseDups = [a] := by simp [List.eraseDups_cons]
  rw [List.eraseDups_append]
  by_cases h : a ∈ as
  · simp [List.removeAll, h]
  · simp [List.removeAll, h, hone]

/-- Where no name comes again, all count. -/
theorem eraseDups_of_nodup {as : List α} (h : as.Nodup) : as.eraseDups = as := by
  induction as with
  | nil => rfl
  | cons a as ih =>
    obtain ⟨hnot, hnodup⟩ := List.nodup_cons.mp h
    have hfilter : as.filter (fun b => !b == a) = as := by
      refine List.filter_eq_self.mpr fun b hb => ?_
      simpa using fun hba : b = a => hnot (hba ▸ hb)
    rw [List.eraseDups_cons, hfilter, ih hnodup]

/-- Leaving out the repeated ones of a front first changes nothing. -/
theorem eraseDups_eraseDups_append [DecidableEq α] (as bs : List α) :
    (as.eraseDups ++ bs).eraseDups = (as ++ bs).eraseDups := by
  induction bs using List.reverseRecOn with
  | nil =>
    rw [List.append_nil, List.append_nil]
    induction as using List.reverseRecOn with
    | nil => rfl
    | append_singleton as a ih =>
      rw [eraseDups_concat]
      split
      · exact ih
      · rename_i h
        rw [eraseDups_concat, ih, if_neg (by simpa using h)]
  | append_singleton bs b ih =>
    rw [← List.append_assoc, ← List.append_assoc, eraseDups_concat, eraseDups_concat, ih]
    simp

/-- Leaving out the repeated ones of a back first changes nothing. -/
theorem eraseDups_append_eraseDups [DecidableEq α] (as bs : List α) :
    (as ++ bs.eraseDups).eraseDups = (as ++ bs).eraseDups := by
  induction bs using List.reverseRecOn with
  | nil => rfl
  | append_singleton bs b ih =>
    rw [eraseDups_concat, ← List.append_assoc, eraseDups_concat]
    by_cases h : b ∈ bs
    · rw [if_pos h, if_pos (List.mem_append_right as h), ih]
    · rw [if_neg h, ← List.append_assoc, eraseDups_concat, ih]
      simp

/-- Names that come again do not count. -/
theorem eraseDups_append_append_self [DecidableEq α] (as bs : List α) :
    (as ++ bs ++ bs).eraseDups = (as ++ bs).eraseDups := by
  have hagain : bs.removeAll (as ++ bs) = [] :=
    List.filter_eq_nil_iff.mpr fun b hb => by simp [hb]
  rw [List.eraseDups_append, hagain, List.eraseDups_nil, List.append_nil]

end FirstOccurrences

/-! ## Entries

Entries are a list of names with values. Of two entries with one name the
first one is found, so to write over a name is to change its first entry. -/

variable {β : Type}

/-- A name that is there keeps its place, and a new one comes last. -/
theorem names_put (name : String) (value : β) (es : List (String × β)) :
    names (put name value es) = if name ∈ names es then names es else names es ++ [name] := by
  induction es with
  | nil => rfl
  | cons e es ih =>
    obtain ⟨m, b⟩ := e
    by_cases hm : m = name
    · simp [put, names, hm]
    · have hname : name ∈ names ((m, b) :: es) ↔ name ∈ names es := by
        simp [names, Ne.symm hm]
      have hcons : names (put name value ((m, b) :: es)) = m :: names (put name value es) := by
        simp [put, names, hm]
      rw [hcons, ih, if_congr hname rfl rfl]
      split <;> rfl

/-- A name is found exactly if it is one of the names. -/
theorem isSome_find?_iff {name : String} {es : List (String × β)} :
    (find? name es).isSome = true ↔ name ∈ names es := by
  induction es with
  | nil => simp [find?, names]
  | cons e es ih =>
    obtain ⟨m, b⟩ := e
    by_cases hm : m = name
    · simp [find?, names, hm]
    · rw [find?, if_neg hm, ih]
      simp [names, Ne.symm hm]

theorem find?_eq_none_iff {name : String} {es : List (String × β)} :
    find? name es = none ↔ name ∉ names es := by
  rw [← Option.not_isSome_iff_eq_none, isSome_find?_iff]

/-- What is found is one of the entries. -/
theorem mem_of_find? {name : String} {b : β} {es : List (String × β)}
    (h : find? name es = some b) : (name, b) ∈ es := by
  induction es with
  | nil => cases h
  | cons e es ih =>
    rw [find?] at h
    split at h
    · rename_i hname
      obtain rfl := Option.some.inj h
      exact hname ▸ List.mem_cons_self
    · exact List.mem_cons_of_mem _ (ih h)

/-- **Entries are known by their names in order and by what is found under
each.** -/
theorem eq_of_names_of_find? {es es' : List (String × β)} (hnodup : (names es).Nodup)
    (hnames : names es = names es') (hfind : ∀ name, find? name es = find? name es') :
    es = es' := by
  induction es generalizing es' with
  | nil =>
    cases es' with
    | nil => rfl
    | cons e es' => cases hnames
  | cons e es ih =>
    cases es' with
    | nil => cases hnames
    | cons e' es' =>
      obtain ⟨hname, hrest⟩ := List.cons.inj hnames
      obtain ⟨hnot, hnodup⟩ := List.nodup_cons.mp hnodup
      have hvalue : e.2 = e'.2 := by
        have hfirst := hfind e.1
        rw [find?, find?, if_pos rfl, if_pos hname.symm] at hfirst
        exact Option.some.inj hfirst
      rw [Prod.ext hname hvalue]
      refine congrArg (e' :: ·) (ih hnodup hrest fun name => ?_)
      by_cases h : e.1 = name
      · -- the name of the first entry does not come again
        have hnone : ∀ {ds : List (String × β)}, names es = names ds → find? name ds = none :=
          fun hds => find?_eq_none_iff.mpr (hds ▸ h ▸ hnot)
        rw [hnone rfl, hnone hrest]
      · have hlater := hfind name
        rwa [find?, find?, if_neg h, if_neg (hname ▸ h)] at hlater

/-- In two lists a name is looked up in the first one first. -/
theorem find?_append (name : String) (es es' : List (String × β)) :
    find? name (es ++ es') = (find? name es).or (find? name es') := by
  induction es with
  | nil => rfl
  | cons e es ih =>
    rw [List.cons_append, find?, find?]
    split
    · rfl
    · exact ih

/-- When no name comes twice, the last entry with a name is the first one. -/
theorem find?_reverse {es : List (String × β)} (h : (names es).Nodup) (name : String) :
    find? name es.reverse = find? name es := by
  induction es with
  | nil => rfl
  | cons e es ih =>
    obtain ⟨hnot, hnodup⟩ := List.nodup_cons.mp h
    rw [List.reverse_cons, find?_append, ih hnodup]
    by_cases hname : e.1 = name
    · have hnone : find? name es = none := find?_eq_none_iff.mpr (hname ▸ hnot)
      simp [find?, hname, hnone]
    · simp [find?, hname]

/-- Looking up does not see what becomes of the values. -/
theorem find?_map {γ : Type} (name : String) (f : β → γ) (es : List (String × β)) :
    find? name (es.map fun e => (e.1, f e.2)) = (find? name es).map f := by
  induction es with
  | nil => rfl
  | cons e es ih =>
    rw [List.map_cons, find?, find?]
    split
    · rfl
    · exact ih

end Entries

/-! ## Tables

A table is a list of entries without repeats. Two tables with the same names
in order and the same values are one table, and all that follows is proved
by this. -/

namespace Table

variable {β : Type}

@[simp] theorem get?_empty (name : String) : (∅ : Table β).get? name = none := rfl

@[simp] theorem names_empty : (∅ : Table β).names = [] := rfl

/-- A table has a value for each of its names and for no others. -/
theorem isSome_get?_iff {t : Table β} {name : String} :
    (t.get? name).isSome = true ↔ name ∈ t.names :=
  Entries.isSome_find?_iff

/-- No name of a table comes twice. -/
theorem eraseDups_names (t : Table β) : t.names.eraseDups = t.names :=
  Entries.eraseDups_of_nodup t.nodup

/-- A name that is there keeps its place, and a new one comes last. -/
theorem names_insert (t : Table β) (name : String) (value : β) :
    (t.insert name value).names = (t.names ++ [name]).eraseDups := by
  rw [Entries.eraseDups_concat, eraseDups_names]
  exact Entries.names_put name value t.entries

/-- So it is when only new names are written. -/
theorem names_insertNew (t : Table β) (name : String) (value : β) :
    (t.insertNew name value).names = (t.names ++ [name]).eraseDups := by
  rw [insertNew]
  split
  · rename_i h
    rw [Entries.eraseDups_concat, if_pos (isSome_get?_iff.mp h), eraseDups_names]
  · exact names_insert t name value

/-- **Writing entries one after the other.** The last one with a name stays. -/
theorem get?_foldl_insert (t : Table β) (es : List (String × β)) (name : String) :
    (es.foldl (fun t e => t.insert e.1 e.2) t).get? name
      = (Entries.find? name es.reverse).or (t.get? name) := by
  induction es generalizing t with
  | nil => rfl
  | cons e es ih =>
    rw [List.foldl_cons, ih, get?_insert, List.reverse_cons, Entries.find?_append, Option.or_assoc]
    by_cases hname : name = e.1
    · simp [Entries.find?, hname]
    · simp [Entries.find?, hname, Ne.symm hname]

/-- **Writing one table into another.** What is written stays, and the rest
is what was there. -/
theorem get?_insertAll (t u : Table β) (name : String) :
    (t.insertAll u.entries).get? name = (u.get? name).or (t.get? name) := by
  rw [insertAll, get?_foldl_insert, Entries.find?_reverse u.nodup]
  rfl

/-- **Writing one name after the other**, in whatever way a name is written. -/
theorem names_foldl {α : Type} {write : Table β → α → Table β} {name : α → String}
    (hwrite : ∀ t a, (write t a).names = (t.names ++ [name a]).eraseDups) (t : Table β)
    (as : List α) : (as.foldl write t).names = (t.names ++ as.map name).eraseDups := by
  induction as generalizing t with
  | nil => rw [List.foldl_nil, List.map_nil, List.append_nil, eraseDups_names]
  | cons a as ih =>
    rw [List.foldl_cons, ih, hwrite, Entries.eraseDups_eraseDups_append, List.append_assoc,
      List.singleton_append, List.map_cons]

/-- Names come in where they are written first. -/
theorem names_insertAll (t : Table β) (es : List (String × β)) :
    (t.insertAll es).names = (t.names ++ Entries.names es).eraseDups :=
  names_foldl (fun t e => names_insert t e.1 e.2) t es

/-- **A table is known by its names in order and by the value under each.** -/
theorem eq_of_names_of_get? {t u : Table β} (hnames : t.names = u.names)
    (hget : ∀ name, t.get? name = u.get? name) : t = u := by
  have hentries := Entries.eq_of_names_of_find? t.nodup hnames hget
  cases t
  cases u
  cases hentries
  rfl

/-- **Writing into a table that is written into another one** is writing
both, one after the other. -/
theorem insertAll_insertAll (t u : Table β) (es : List (String × β)) :
    t.insertAll (u.insertAll es).entries = (t.insertAll u.entries).insertAll es := by
  refine eq_of_names_of_get? ?_ fun name => ?_
  · rw [names_insertAll, names_insertAll, names_insertAll]
    show (t.names ++ (u.insertAll es).names).eraseDups = _
    rw [names_insertAll, Entries.eraseDups_append_eraseDups, Entries.eraseDups_eraseDups_append,
      List.append_assoc]
    rfl
  · have hlast : ∀ t : Table β, (t.insertAll es).get? name
        = (Entries.find? name es.reverse).or (t.get? name) := fun t => get?_foldl_insert t es name
    rw [get?_insertAll, hlast, hlast, get?_insertAll, Option.or_assoc]

/-- A table that is written again changes nothing. -/
theorem insertAll_self (t u : Table β) :
    (t.insertAll u.entries).insertAll u.entries = t.insertAll u.entries := by
  have hself : u.insertAll u.entries = u := by
    refine eq_of_names_of_get? ?_ fun name => ?_
    · rw [names_insertAll]
      exact (Entries.eraseDups_append_append_self [] u.names).trans (eraseDups_names u)
    · rw [get?_insertAll, Option.or_self]
  rw [← insertAll_insertAll, hself]

/-- **Writing only what is not there.** What was there stays. -/
theorem get?_foldl_insertNew (t : Table β) (es : List (String × β)) (name : String) :
    (es.foldl (fun t e => t.insertNew e.1 e.2) t).get? name
      = (t.get? name).or (Entries.find? name es) := by
  induction es generalizing t with
  | nil => simp [Entries.find?]
  | cons e es ih =>
    rw [List.foldl_cons, ih, get?_insertNew, Entries.find?]
    by_cases hname : e.1 = name
    · subst hname
      cases t.get? e.1 <;> simp
    · simp [hname, Ne.symm hname]

/-- So it is when only new names are written. -/
theorem names_foldl_insertNew (t : Table β) (es : List (String × β)) :
    (es.foldl (fun t e => t.insertNew e.1 e.2) t).names
      = (t.names ++ Entries.names es).eraseDups :=
  names_foldl (fun t e => names_insertNew t e.1 e.2) t es

end Table

end Stylebook
