import Stylebook.Store.Memory
import Stylebook.Proofs.Path.Keys

/-!
# Reading and writing files in memory

What is read at a path depends on the text at that path alone, in whatever
spelling it is stored. Writing one file leaves every other one as it was.
-/

namespace Stylebook

namespace Memory

open Stylebook.Path

variable {m m' : Memory} {p q : Path} {text : String}

/-- A file may be read unless that is denied, and then it is there or not. -/
theorem fetch_eq (m : Memory) (p : Path) : FileStore.fetch m p
    = if p.isIn m.deniedReads = true then .error (.failed (.read p "read denied"))
      else match PathMap.get? m.files p with
        | some text => .ok text
        | none => .error (.failed (.read p "File not found")) := by
  by_cases h : p.isIn m.deniedReads = true
  · have hread : FileStore.read m p = .error "read denied" := if_pos h
    rw [if_pos h, FileStore.fetch, hread]
  · have hread : FileStore.read m p = match PathMap.get? m.files p with
        | some text => .ok text
        | none => .error "File not found" := if_neg h
    rw [if_neg h, FileStore.fetch, hread]
    cases PathMap.get? m.files p <;> rfl

/-- What is read is the text at the path. -/
theorem get?_of_fetch (h : FileStore.fetch m p = .ok text) :
    PathMap.get? m.files p = some text := by
  rw [fetch_eq] at h
  split at h
  · cases h
  · cases hget : PathMap.get? m.files p with
    | none =>
      rw [hget] at h
      cases h
    | some t =>
      rw [hget] at h
      cases h
      rfl

/-- And a text at the path is read, if that is allowed. -/
theorem fetch_of_get? (hdenied : p.isIn m.deniedReads = false)
    (hget : PathMap.get? m.files p = some text) : FileStore.fetch m p = .ok text := by
  rw [fetch_eq, hdenied, hget]
  rfl

/-- What is read is one of the files. -/
theorem exists_mem_of_fetch (h : FileStore.fetch m p = .ok text) :
    ∃ e ∈ m.files, e.1.same p = true ∧ e.2 = text := by
  obtain ⟨q, hq, hsame⟩ := PathMap.mem_of_get? (get?_of_fetch h)
  exact ⟨(q, text), hq, hsame, rfl⟩

/-- Two stores with the same at a path read the same there, or fail for the
same reason. -/
theorem fetch_congr (hdenied : m'.deniedReads = m.deniedReads)
    (hget : PathMap.get? m'.files p = PathMap.get? m.files p) :
    FileStore.fetch m' p = FileStore.fetch m p := by
  rw [fetch_eq, fetch_eq, hdenied, hget]

/-- Writing a file changes what is at its path and nowhere else. -/
@[simp] theorem get?_put (m : Memory) (p q : Path) (text : String) :
    PathMap.get? (m.put p text).files q
      = if p.same q = true then some text else PathMap.get? m.files q :=
  PathMap.get?_set _ _ _ _

/-- Deleting a file leaves nothing at its path and all others as they are. -/
@[simp] theorem get?_delete (m : Memory) (p q : Path) :
    PathMap.get? (m.delete p).files q
      = if p.same q = true then none else PathMap.get? m.files q :=
  PathMap.get?_erase _ _ _

/-- The files of a list have the texts of the list. -/
theorem exists_mem_of_mem_ofList {files : List (Path × String)} {e : Path × String}
    (he : e ∈ (ofList files).files) : ∃ d ∈ files, e.2 = d.2 := by
  suffices h : ∀ old : PathMap String, e ∈ files.foldl (fun m d => PathMap.set m d.1 d.2) old →
      e ∈ old ∨ ∃ d ∈ files, e.2 = d.2 from (h [] he).resolve_left (by simp)
  clear he
  induction files with
  | nil => exact fun old h => Or.inl h
  | cons d files ih =>
    intro old h
    rcases ih _ h with h | ⟨d', hd', heq⟩
    · rcases PathMap.mem_set h with h | h
      · exact Or.inr ⟨d, List.mem_cons_self, h⟩
      · exact Or.inl h
    · exact Or.inr ⟨d', List.mem_cons_of_mem _ hd', heq⟩

/-- The files after some of them are written, one after the other. -/
def overwrite (m : Memory) (files : List (Path × String)) : Memory :=
  files.foldl (fun m e => m.put e.1 e.2) m

/-- Writing files does not change what may be read. -/
theorem deniedReads_overwrite (m : Memory) (files : List (Path × String)) :
    (m.overwrite files).deniedReads = m.deniedReads := by
  unfold overwrite
  induction files generalizing m with
  | nil => rfl
  | cons e files ih => exact ih _

/-- Files that are not written stay as they are. -/
theorem get?_overwrite {files : List (Path × String)} (h : p.isIn (files.map Prod.fst) = false)
    (m : Memory) : PathMap.get? (m.overwrite files).files p = PathMap.get? m.files p := by
  unfold overwrite
  induction files generalizing m with
  | nil => rfl
  | cons e files ih =>
    rw [← Bool.not_eq_true, List.map_cons, isIn_cons, not_or, Bool.not_eq_true,
      Bool.not_eq_true] at h
    refine (ih h.2 _).trans ?_
    rw [get?_put, same_comm, h.1]
    rfl

end Memory

end Stylebook
