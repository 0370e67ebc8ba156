/-!
# Tables

A `Table` is a finite map from names that remembers the order in which its
names first came in. Writing a name again replaces its value where it
stands. Two lists of entries in different order are different tables: the
order shows in the rendered module.
-/

namespace Stylebook

namespace Entries

variable {β : Type}

/-- The names of entries. -/
def names (es : List (String × β)) : List String := es.map Prod.fst

/-- The value under a name. -/
def find? (name : String) : List (String × β) → Option β
  | [] => none
  | (n, b) :: es => if n = name then some b else find? name es

/-- Writes a value under a name, in place of the one that is there. -/
def put (name : String) (value : β) : List (String × β) → List (String × β)
  | [] => [(name, value)]
  | (n, b) :: es => if n = name then (name, value) :: es else (n, b) :: put name value es

theorem mem_names_put {name n : String} {value : β} {es : List (String × β)} :
    n ∈ names (put name value es) ↔ n = name ∨ n ∈ names es := by
  induction es with
  | nil => simp [put, names]
  | cons e es ih =>
    obtain ⟨m, b⟩ := e
    by_cases h : m = name
    · simp [put, names, h]
    · simp only [put, h, if_false, names, List.map_cons, List.mem_cons] at ih ⊢
      rw [ih]
      constructor
      · rintro (h | h | h) <;> simp [h]
      · rintro (h | h | h) <;> simp [h]

theorem nodup_names_put {name : String} {value : β} {es : List (String × β)}
    (h : (names es).Nodup) : (names (put name value es)).Nodup := by
  induction es with
  | nil => simp [put, names]
  | cons e es ih =>
    obtain ⟨m, b⟩ := e
    simp only [names, List.map_cons, List.nodup_cons] at h
    by_cases hm : m = name
    · subst hm
      simpa [put, names] using h
    · simp only [put, hm, if_false, names, List.map_cons, List.nodup_cons]
      refine ⟨fun hmem => ?_, ih h.2⟩
      rcases mem_names_put.1 hmem with h' | h'
      · exact hm h'
      · exact h.1 h'

theorem find?_put (name n : String) (value : β) (es : List (String × β)) :
    find? n (put name value es) = if n = name then some value else find? n es := by
  induction es with
  | nil =>
    by_cases h : n = name
    · simp [put, find?, h]
    · simp [put, find?, h, Ne.symm h]
  | cons e es ih =>
    obtain ⟨m, b⟩ := e
    by_cases hm : m = name
    · subst hm
      by_cases hn : n = m
      · simp [put, find?, hn]
      · simp [put, find?, hn, Ne.symm hn]
    · by_cases hmn : m = n
      · subst hmn
        simp [put, find?, hm]
      · simp [put, find?, hm, hmn, ih]

theorem find?_of_mem {e : String × β} {es : List (String × β)} (h : (names es).Nodup)
    (he : e ∈ es) : find? e.1 es = some e.2 := by
  induction es with
  | nil => cases he
  | cons d es ih =>
    simp only [names, List.map_cons, List.nodup_cons] at h
    rcases List.mem_cons.mp he with rfl | he
    · simp [find?]
    · have hne : d.1 ≠ e.1 := fun heq => h.1 (heq ▸ List.mem_map_of_mem he)
      rw [find?, if_neg hne, ih h.2 he]

end Entries

/-- **A finite map from names, in the order of first insertion.** -/
structure Table (β : Type) where
  entries : List (String × β)
  nodup : (Entries.names entries).Nodup

namespace Table

variable {β : Type}

instance [DecidableEq β] : DecidableEq (Table β) := fun s t =>
  decidable_of_iff (s.entries = t.entries)
    ⟨fun h => by cases s; cases t; simp_all, fun h => h ▸ rfl⟩

instance [Repr β] : Repr (Table β) := ⟨fun t _ => repr t.entries⟩

/-- The table without names. -/
def empty : Table β := ⟨[], by simp [Entries.names]⟩

instance : EmptyCollection (Table β) := ⟨empty⟩

instance : Inhabited (Table β) := ⟨empty⟩

/-- The names of a table, in order. -/
def names (t : Table β) : List String := Entries.names t.entries

/-- The value under a name. -/
def get? (t : Table β) (name : String) : Option β := Entries.find? name t.entries

/-- **Writes a value under a name.** A name that is there keeps its place. -/
def insert (t : Table β) (name : String) (value : β) : Table β :=
  ⟨Entries.put name value t.entries, Entries.nodup_names_put t.nodup⟩

/-- Writes a value under a name that is not there yet. -/
def insertNew (t : Table β) (name : String) (value : β) : Table β :=
  if (t.get? name).isSome then t else t.insert name value

/-- **Writes entries one after the other.** -/
def insertAll (t : Table β) (entries : List (String × β)) : Table β :=
  entries.foldl (fun t e => t.insert e.1 e.2) t

/-- The table that a list of entries leaves when they are written one after
the other. -/
def ofList (entries : List (String × β)) : Table β := empty.insertAll entries

theorem get?_insert (t : Table β) (name n : String) (value : β) :
    (t.insert name value).get? n = if n = name then some value else t.get? n :=
  Entries.find?_put name n value t.entries

theorem get?_insertNew (t : Table β) (name n : String) (value : β) :
    (t.insertNew name value).get? n =
      if n = name then some ((t.get? name).getD value) else t.get? n := by
  unfold insertNew
  by_cases hn : n = name
  · subst hn
    cases h : t.get? n with
    | none => simp [get?_insert]
    | some b => simp [h]
  · cases h : t.get? name with
    | none => simp [get?_insert, hn]
    | some b => simp [hn]

/-- The value of an entry. -/
theorem get?_of_mem (t : Table β) {e : String × β} (he : e ∈ t.entries) :
    t.get? e.1 = some e.2 :=
  Entries.find?_of_mem t.nodup he

end Table

end Stylebook
