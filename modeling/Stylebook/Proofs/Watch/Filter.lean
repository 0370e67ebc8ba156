import Stylebook.Proofs.Path.Keys
import Stylebook.Watch.Notification

/-!
# What passes for a change

A watch looks at the stylesheets that notifications name, and a look passes
for a change when it finds something else than the look at that path before
it. This module keeps the list of all `Look`s, and says from it what a look
is to be compared with (`IsNews`). The digests that a watch remembers are
those of the last looks (`Recalls`), so that it passes exactly the looks
that are news (`Recalls.lookAll`), as long as different texts have different
digests. What is remembered of a path that does not pass is kept
(`get?_lookAll_of_not_passed`).
-/

namespace Stylebook

namespace FileStore

variable {σ : Type} [FileStore σ]

/-- **What is at a path**: the text of a file, or nothing. -/
def text? (store : σ) (p : Path) : Option String :=
  if holds store p then (read store p).toOption else none

/-- What there is at a path can be read. -/
def IsReadable (store : σ) (p : Path) : Prop :=
  holds store p = true → ∃ text, read store p = .ok text

end FileStore

/-- **A look at a path**: the text of the file that was there, or nothing. -/
structure Look where
  path : Path
  text? : Option String
  deriving DecidableEq, Repr

namespace Look

/-- The look at a path in a store. -/
def of {σ : Type} [FileStore σ] (store : σ) (p : Path) : Look := ⟨p, FileStore.text? store p⟩

/-- The digest of what was seen. -/
def digest? (l : Look) : Option String := l.text?.map Digest.ofText

/-- The last of the looks at a path. -/
def last? (past : List Look) (p : Path) : Option Look := past.reverse.find? fun l => l.path.same p

/-- The last look at a path is the last one in the list that is at it. -/
theorem last?_concat (past : List Look) (l : Look) (p : Path) :
    last? (past ++ [l]) p = if l.path.same p = true then some l else last? past p := by
  rw [last?, List.reverse_concat, List.find?_cons]
  by_cases h : l.path.same p = true <;> simp [h, last?]

/-- It is one of the looks. -/
theorem mem_of_last? {past : List Look} {p : Path} {l : Look} (h : last? past p = some l) :
    l ∈ past := List.mem_reverse.mp (List.mem_of_find?_eq_some h)

/-- **Looks tell texts by their digests.** -/
def DistinctDigests (looks : List Look) : Prop :=
  ∀ l ∈ looks, ∀ l' ∈ looks, l.digest? = l'.digest? → l.text? = l'.text?

end Look

open FileStore Look

/-! ## News

What passes is told from the list of all looks. The watch itself has no
list; it has a table with one digest for each path, which it changes as it
looks. -/

/-- **A look finds something else** than the look at its path before it. A
path that was not looked at before is compared with the digest in a table,
or with nothing there. -/
def IsNews (seed : LastSeen) (past : List Look) (l : Look) : Prop :=
  match last? past l.path with
  | some before => l.text? ≠ before.text?
  | none => l.digest? ≠ PathMap.get? seed l.path

instance (seed : LastSeen) (past : List Look) (l : Look) : Decidable (IsNews seed past l) := by
  unfold IsNews
  cases last? past l.path <;> exact inferInstance

/-- **The paths of the looks that find something else**, each look compared
with all those before it. -/
def news (seed : LastSeen) : (past looks : List Look) → List Path
  | _, [] => []
  | past, l :: ls =>
    if IsNews seed past l then l.path :: news seed (past ++ [l]) ls
    else news seed (past ++ [l]) ls

/-- **The digests that are remembered are those of the last looks**, and for
the paths that were not looked at those of a table. -/
def Recalls (seed : LastSeen) (past : List Look) (seen : LastSeen) : Prop :=
  ∀ p, PathMap.get? seen p = (last? past p).elim (PathMap.get? seed p) Look.digest?

namespace LastSeen

variable {σ : Type} [FileStore σ] {store : σ} {seed seen : LastSeen} {past : List Look}
  {p q : Path} {ps : List Path}

/-- Where there is a file, the look has the digest of its text. -/
theorem digest?_of_holds {text : String} (hholds : holds store p = true)
    (hread : FileStore.read store p = .ok text) :
    (Look.of store p).digest? = some (Digest.ofText text) := by
  rw [Look.digest?, Look.of, FileStore.text?, if_pos hholds, hread]
  rfl

/-- Where there is no file, the look has no digest. -/
theorem digest?_of_not_holds (hholds : ¬holds store p = true) :
    (Look.of store p).digest? = none := by
  rw [Look.digest?, Look.of, FileStore.text?, if_neg hholds]
  rfl

/-- A look at a file remembers its digest, and passes if another one was
remembered. -/
theorem look_of_holds {text : String} (hholds : holds store p = true)
    (hread : FileStore.read store p = .ok text) (seen : LastSeen) : look store seen p
      = if PathMap.get? seen p = some (Digest.ofText text) then (false, seen)
        else (true, PathMap.set seen p (Digest.ofText text)) := by
  rw [look, if_pos hholds, digest?, hread]

/-- A look at nothing forgets the path, and passes if it was remembered. -/
theorem look_of_not_holds (hholds : ¬holds store p = true) (seen : LastSeen) :
    look store seen p = ((PathMap.get? seen p).isSome, PathMap.erase seen p) := if_neg hholds

/-- **A look passes when another digest is there.** -/
theorem look_fst (h : IsReadable store p) (seen : LastSeen) : (look store seen p).1 = true
    ↔ (Look.of store p).digest? ≠ PathMap.get? seen p := by
  by_cases hholds : holds store p = true
  · obtain ⟨text, hread⟩ := h hholds
    rw [look_of_holds hholds hread, digest?_of_holds hholds hread]
    split
    · rename_i hseen
      simp [hseen]
    · rename_i hseen
      exact ⟨fun _ => Ne.symm hseen, fun _ => rfl⟩
  · rw [look_of_not_holds hholds, digest?_of_not_holds hholds]
    cases PathMap.get? seen p <;> simp

/-- **A look is remembered**, and no other path is touched. -/
theorem get?_look (h : IsReadable store p) (seen : LastSeen) (q : Path) :
    PathMap.get? (look store seen p).2 q
      = if p.same q = true then (Look.of store p).digest? else PathMap.get? seen q := by
  by_cases hholds : holds store p = true
  · obtain ⟨text, hread⟩ := h hholds
    rw [look_of_holds hholds hread, digest?_of_holds hholds hread]
    split
    · rename_i hseen
      split
      · rename_i hsame
        rw [← PathMap.get?_congr hsame, hseen]
      · rfl
    · exact PathMap.get?_set _ _ _ _
  · rw [look_of_not_holds hholds, digest?_of_not_holds hholds]
    exact PathMap.get?_erase _ _ _

/-- **A path that does not pass is remembered as before**, readable or not. -/
theorem get?_look_of_not_passed
    (h : ¬(p.same q = true ∧ (look store seen p).1 = true)) :
    PathMap.get? (look store seen p).2 q = PathMap.get? seen q := by
  unfold look at h ⊢
  split
  · split
    · rfl
    · split
      · rfl
      · simp_all [PathMap.get?_set]
  · rw [PathMap.get?_erase]
    split
    · rename_i hholds hsame
      rw [if_neg hholds] at h
      rw [← PathMap.get?_congr hsame]
      cases hget : PathMap.get? seen p with
      | none => rfl
      | some d => exact absurd ⟨hsame, by rw [hget]; rfl⟩ h
    · rfl

/-! ## Looking at paths one after the other

A notification may name a path twice. The second look is compared with the
first one, and so it does not pass. -/

/-- The first path is looked at first, and the others with what it leaves. -/
theorem lookAll_cons (store : σ) (seen : LastSeen) (p : Path) (ps : List Path) :
    lookAll store seen (p :: ps)
      = (if (look store seen p).1 = true then p :: (lookAll store (look store seen p).2 ps).1
          else (lookAll store (look store seen p).2 ps).1,
        (lookAll store (look store seen p).2 ps).2) := rfl

/-- What does not pass at all does not pass at the first look nor behind it. -/
theorem not_passed_cons (h : q.isIn (lookAll store seen (p :: ps)).1 = false) :
    q.isIn (lookAll store (look store seen p).2 ps).1 = false
      ∧ ¬(p.same q = true ∧ (look store seen p).1 = true) := by
  rw [lookAll_cons] at h
  dsimp only at h
  split at h
  · rw [← Bool.not_eq_true, Path.isIn_cons, not_or, Path.same_comm] at h
    exact ⟨by simpa using h.2, fun hp => h.1 hp.1⟩
  · exact ⟨h, fun hp => absurd hp.2 ‹_›⟩

/-- **What does not pass is remembered as before.** -/
theorem get?_lookAll_of_not_passed (h : q.isIn (lookAll store seen ps).1 = false) :
    PathMap.get? (lookAll store seen ps).2 q = PathMap.get? seen q := by
  induction ps generalizing seen with
  | nil => rfl
  | cons p ps ih =>
    obtain ⟨hrest, hfirst⟩ := not_passed_cons h
    rw [lookAll_cons, ih hrest, get?_look_of_not_passed hfirst]

/-- **A path that does not pass is as it is remembered.** -/
theorem digest?_of_not_passed (hmem : p ∈ ps) (hread : IsReadable store p)
    (h : p.isIn (lookAll store seen ps).1 = false) :
    (Look.of store p).digest? = PathMap.get? seen p := by
  induction ps generalizing seen with
  | nil => cases hmem
  | cons q qs ih =>
    obtain ⟨hrest, hfirst⟩ := not_passed_cons h
    rcases List.mem_cons.mp hmem with rfl | hmem
    · exact Decidable.byContradiction fun hne =>
        hfirst ⟨Path.same_refl p, (look_fst hread seen).mpr hne⟩
    · rw [ih hmem hrest, get?_look_of_not_passed hfirst]

end LastSeen

namespace Recalls

open LastSeen

variable {σ : Type} [FileStore σ] {store : σ} {seed seen : LastSeen} {past : List Look}
  {p : Path} {ps : List Path}

/-- A table recalls itself. -/
theorem refl (seed : LastSeen) : Recalls seed [] seed := fun _ => rfl

/-- The last look comes first to mind. -/
theorem look (h : Recalls seed past seen) (hread : IsReadable store p) :
    Recalls seed (past ++ [Look.of store p]) (look store seen p).2 := by
  intro q
  rw [get?_look hread, last?_concat]
  by_cases hsame : p.same q = true
  · rw [if_pos hsame, if_pos (show (Look.of store p).path.same q = true from hsame)]
    rfl
  · rw [if_neg hsame, if_neg (show ¬(Look.of store p).path.same q = true from hsame), h q]

/-- **A look passes exactly when it is news.** -/
theorem look_fst_iff (h : Recalls seed past seen) (hread : IsReadable store p)
    (hdistinct : DistinctDigests (past ++ [Look.of store p])) :
    (LastSeen.look store seen p).1 = true ↔ IsNews seed past (Look.of store p) := by
  have hpath : (Look.of store p).path = p := rfl
  rw [look_fst hread, h p, IsNews, hpath]
  cases hlast : last? past p with
  | none => exact Iff.rfl
  | some before =>
    have hbefore := List.mem_append_left [Look.of store p] (mem_of_last? hlast)
    have hnow := List.mem_append_right past (List.mem_singleton_self (Look.of store p))
    exact not_congr ⟨hdistinct _ hnow _ hbefore, congrArg (Option.map Digest.ofText)⟩

/-- **Of paths that are looked at one after the other, the news pass.** -/
theorem lookAll (h : Recalls seed past seen) (hread : ∀ p ∈ ps, IsReadable store p)
    (hdistinct : DistinctDigests (past ++ ps.map (Look.of store))) :
    (lookAll store seen ps).1 = news seed past (ps.map (Look.of store))
      ∧ Recalls seed (past ++ ps.map (Look.of store)) (lookAll store seen ps).2 := by
  induction ps generalizing past seen with
  | nil =>
    rw [List.map_nil, List.append_nil]
    exact ⟨rfl, h⟩
  | cons p ps ih =>
    rw [List.forall_mem_cons] at hread
    rw [List.map_cons, List.append_cons] at hdistinct ⊢
    have hfirst : DistinctDigests (past ++ [Look.of store p]) := fun l hl l' hl' =>
      hdistinct l (List.mem_append_left _ hl) l' (List.mem_append_left _ hl')
    obtain ⟨hpassed, hrecalls⟩ := ih (h.look hread.1) hread.2 hdistinct
    refine ⟨?_, hrecalls⟩
    rw [lookAll_cons, news, hpassed]
    simp only [h.look_fst_iff hread.1 hfirst]
    rfl

end Recalls

end Stylebook
