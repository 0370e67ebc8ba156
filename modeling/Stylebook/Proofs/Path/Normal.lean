import Stylebook.Proofs.Path.Keys

/-!
# Normal paths have one spelling

`Path.normalize` puts a path into a normal spelling: its components with
single slashes between them. Reading that spelling gives the components
back, so two normal paths that are the same file name are the same text.
An import path is always normal, which is why one file has one key in
the import graph however an import statement spells it.
-/

namespace Stylebook

namespace Component

/-- A component that may stand anywhere in a normal path: a step up, or a
name that a text between slashes stands for. -/
def IsStep : Component → Prop
  | .up => True
  | .name s => s.toList ≠ [] ∧ '/' ∉ s.toList ∧ s.toList ≠ ['.'] ∧ s.toList ≠ ['.', '.']
  | _ => False

/-- A component that reading a path can give. -/
def IsRead (c : Component) : Prop := c = .root ∨ c = .here ∨ c.IsStep

end Component

namespace Path

open Component

/-! ## Reading what was written

A normal path is written from components, and reading it cuts the text at
slashes. No piece is lost, since none is empty or a point, and that is also
why a component is read as itself. -/

/-- The pieces of slashes put between pieces without slashes are those
pieces. -/
theorem cut_append_slash {w : List Char} (hw : '/' ∉ w) (cs : List Char) :
    cut (w ++ '/' :: cs) = w :: cut cs := by
  induction w with
  | nil => simp [cut]
  | cons c w ih =>
    have hc : c ≠ '/' := fun h => hw (h ▸ List.mem_cons_self)
    have hrest := ih fun h => hw (List.mem_cons_of_mem _ h)
    rw [List.cons_append, cut, if_neg hc, hrest]

/-- Without a slash there is one piece. -/
theorem cut_of_notMem {w : List Char} (hw : '/' ∉ w) : cut w = [w] := by
  induction w with
  | nil => rfl
  | cons c w ih =>
    have hc : c ≠ '/' := fun h => hw (h ▸ List.mem_cons_self)
    rw [cut, if_neg hc, ih fun h => hw (List.mem_cons_of_mem _ h)]

/-- Pieces with slashes between them are cut into these pieces. -/
theorem cut_intercalate {w : List Char} {ws : List (List Char)}
    (h : ∀ v ∈ w :: ws, '/' ∉ v) : cut (List.intercalate ['/'] (w :: ws)) = w :: ws := by
  induction ws generalizing w with
  | nil => simpa using cut_of_notMem (h w List.mem_cons_self)
  | cons v ws ih =>
    rw [List.intercalate_cons_cons, List.append_assoc, List.singleton_append,
      cut_append_slash (h w List.mem_cons_self), ih fun u hu => h u (List.mem_cons_of_mem _ hu)]

/-- No piece has a slash. -/
theorem notMem_of_mem_cut {cs w : List Char} (h : w ∈ cut cs) : '/' ∉ w := by
  induction cs generalizing w with
  | nil => simp_all [cut]
  | cons c cs ih =>
    rw [cut] at h
    split at h
    · rcases List.mem_cons.mp h with rfl | h
      · exact List.not_mem_nil
      · exact ih h
    · rename_i hc
      split at h
      · rename_i p ps hcut
        rcases List.mem_cons.mp h with rfl | h
        · intro hmem
          rcases List.mem_cons.mp hmem with rfl | hmem
          · exact hc rfl
          · exact ih (hcut ▸ List.mem_cons_self) hmem
        · exact ih (hcut ▸ List.mem_cons_of_mem _ h)
      · intro hmem
        rw [List.mem_singleton.mp h, List.mem_singleton] at hmem
        exact hc hmem.symm

/-- A step is read from its own text, and its text is never idle. -/
theorem ofPiece_text {c : Component} (h : c.IsStep) :
    ofPiece c.text.toList = c ∧ c.text.toList ≠ [] ∧ '/' ∉ c.text.toList
      ∧ isIdle c.text.toList = false := by
  cases c with
  | root => exact h.elim
  | here => exact h.elim
  | up => decide +kernel
  | name s =>
    obtain ⟨hne, hslash, hpoint, hpoints⟩ := h
    refine ⟨?_, hne, hslash, ?_⟩
    · rw [ofPiece, Component.text, if_neg hpoint, if_neg hpoints, String.ofList_toList]
    · simp [isIdle, Component.text, hne, hpoint]

/-- The pieces that steps are written as. -/
def stepPieces (cs : List Component) : List (List Char × Bool) :=
  cs.map fun c => (c.text.toList, true)

/-- The pieces of steps are none of them idle. -/
theorem map_isIdle_steps {cs : List Component} (h : ∀ c ∈ cs, c.IsStep) :
    ((cs.map Component.text).map String.toList).map (fun w => (w, !isIdle w))
      = stepPieces cs := by
  rw [stepPieces, List.map_map, List.map_map]
  refine List.map_congr_left fun c hc => ?_
  show (c.text.toList, !isIdle c.text.toList) = (c.text.toList, true)
  rw [(ofPiece_text (h c hc)).2.2.2]
  rfl

/-- The pieces of steps, as components. -/
theorem map_ofPiece_stepPieces {cs : List Component} (h : ∀ c ∈ cs, c.IsStep) :
    ((stepPieces cs).filter (·.2)).map (fun q => ofPiece q.1) = cs := by
  induction cs with
  | nil => rfl
  | cons c cs ih =>
    rw [stepPieces, List.map_cons, List.filter_cons_of_pos rfl, List.map_cons,
      (ofPiece_text (h c List.mem_cons_self)).1]
    exact congrArg (c :: ·) (ih fun d hd => h d (List.mem_cons_of_mem _ hd))

/-- Texts with slashes between them, as characters. -/
theorem toList_join_slash (cs : List Component) :
    (Text.join "/" (cs.map Component.text)).toList
      = List.intercalate ['/'] ((cs.map Component.text).map String.toList) := by
  rw [Text.join, String.toList_intercalate]
  rfl

/-- The text of a step has no slash. -/
theorem slash_notMem_steps {cs : List Component} (h : ∀ c ∈ cs, c.IsStep) :
    ∀ w ∈ (cs.map Component.text).map String.toList, '/' ∉ w := by
  intro w hw
  obtain ⟨s, hs, rfl⟩ := List.mem_map.mp hw
  obtain ⟨c, hc, rfl⟩ := List.mem_map.mp hs
  exact (ofPiece_text (h c hc)).2.2.1

/-- The text of the root and steps. -/
theorem toList_text_root (cs : List Component) : (ofComponents (.root :: cs)).text.toList
    = '/' :: List.intercalate ['/'] ((cs.map Component.text).map String.toList) := by
  rw [ofComponents, String.toList_append, toList_join_slash]
  rfl

/-- A path that starts with the root is absolute. -/
theorem isAbsolute_ofComponents_root (cs : List Component) :
    (ofComponents (.root :: cs)).isAbsolute = true := by
  rw [isAbsolute, toList_text_root]
  rfl

/-- The pieces of the root and steps: nothing stands before the first slash. -/
theorem pieces_ofComponents_root {cs : List Component} (h : ∀ c ∈ cs, c.IsStep) (hne : cs ≠ []) :
    (ofComponents (.root :: cs)).pieces = ([], false) :: stepPieces cs := by
  obtain ⟨c, cs, rfl⟩ := List.exists_cons_of_ne_nil hne
  have hcut : cut (ofComponents (.root :: c :: cs)).text.toList
      = [] :: ((c :: cs).map Component.text).map String.toList := by
    rw [toList_text_root, cut, if_pos rfl, List.map_cons, List.map_cons,
      cut_intercalate (slash_notMem_steps h)]
  rw [pieces, hcut, isAbsolute_ofComponents_root, ← map_isIdle_steps h]
  rfl

/-- The path of the root and steps is read back. -/
theorem components_ofComponents_root {cs : List Component} (h : ∀ c ∈ cs, c.IsStep) :
    (ofComponents (.root :: cs)).components = .root :: cs := by
  by_cases hne : cs = []
  · rw [hne]
    rfl
  · rw [components, isAbsolute_ofComponents_root, pieces_ofComponents_root h hne]
    exact congrArg (Component.root :: ·) (map_ofPiece_stepPieces h)

/-- The text of steps is their texts with separators between them. -/
theorem toList_text_steps {cs : List Component} (h : ∀ c ∈ cs, c.IsStep) :
    (ofComponents cs).text.toList
      = List.intercalate ['/'] ((cs.map Component.text).map String.toList) := by
  have hpath : ofComponents cs = ⟨Text.join "/" (cs.map Component.text)⟩ := by
    cases cs with
    | nil => rfl
    | cons c cs =>
      cases c with
      | root => exact (h _ List.mem_cons_self).elim
      | _ => rfl
  rw [hpath, toList_join_slash]

/-- Steps do not start with a separator. -/
theorem isAbsolute_ofComponents_steps {cs : List Component} (h : ∀ c ∈ cs, c.IsStep) :
    (ofComponents cs).isAbsolute = false := by
  rw [isAbsolute, toList_text_steps h]
  cases cs with
  | nil => rfl
  | cons c cs =>
    obtain ⟨-, hne, hslash, -⟩ := ofPiece_text (h c List.mem_cons_self)
    obtain ⟨d, ds, hd⟩ := List.exists_cons_of_ne_nil hne
    have hdne : d ≠ '/' := by
      rintro rfl
      exact hslash (hd ▸ List.mem_cons_self)
    cases cs with
    | nil => simpa [hd] using hdne
    | cons e es => simpa [List.intercalate_cons_cons, hd] using hdne

/-- The pieces of steps. -/
theorem pieces_ofComponents_steps {cs : List Component} (h : ∀ c ∈ cs, c.IsStep) (hne : cs ≠ []) :
    (ofComponents cs).pieces = stepPieces cs := by
  have habs := isAbsolute_ofComponents_steps h
  obtain ⟨c, cs, rfl⟩ := List.exists_cons_of_ne_nil hne
  have hcut : cut (ofComponents (c :: cs)).text.toList
      = ((c :: cs).map Component.text).map String.toList := by
    rw [toList_text_steps h, List.map_cons, List.map_cons, cut_intercalate (slash_notMem_steps h)]
  -- the first piece is kept for another reason than the others
  have hfirst : c.text.toList ≠ [] := (ofPiece_text (h c List.mem_cons_self)).2.1
  have hrest := map_isIdle_steps fun d hd => h d (List.mem_cons_of_mem c hd)
  rw [pieces, hcut, habs]
  simp only [List.map_cons, Bool.false_eq_true, if_false, hfirst, ne_eq, not_false_eq_true,
    decide_true, hrest]
  rfl

/-- The path of steps is read back. -/
theorem components_ofComponents_steps {cs : List Component} (h : ∀ c ∈ cs, c.IsStep) :
    (ofComponents cs).components = cs := by
  by_cases hne : cs = []
  · rw [hne]
    rfl
  · rw [components, isAbsolute_ofComponents_steps h, pieces_ofComponents_steps h hne]
    exact map_ofPiece_stepPieces h

/-! ## What normalizing leaves

Following components keeps a stack of those that count. Whatever the path
was, the stack is steps with the root below them or not, and such a stack is
written and read back. -/

/-- A piece that is not idle has characters, and no separator among them. -/
theorem of_mem_pieces {p : Path} {q : List Char × Bool} (h : q ∈ p.pieces) (hflag : q.2 = true) :
    '/' ∉ q.1 ∧ q.1 ≠ [] := by
  unfold pieces at h
  split at h
  · rename_i first rest hcut
    rcases List.mem_cons.mp h with rfl | h
    · refine ⟨notMem_of_mem_cut (hcut ▸ List.mem_cons_self), ?_⟩
      rintro rfl
      simp at hflag
    · obtain ⟨w, hw, rfl⟩ := List.mem_map.mp h
      refine ⟨notMem_of_mem_cut (hcut ▸ List.mem_cons_of_mem _ hw), ?_⟩
      rintro rfl
      simp [isIdle] at hflag
  · exact absurd h List.not_mem_nil

/-- What reading a piece can give. -/
theorem isRead_ofPiece {cs : List Char} (hslash : '/' ∉ cs) (hne : cs ≠ []) :
    (ofPiece cs).IsRead := by
  unfold ofPiece
  split
  · exact Or.inr (Or.inl rfl)
  · rename_i hpoint
    split
    · exact Or.inr (Or.inr trivial)
    · rename_i hpoints
      refine Or.inr (Or.inr ⟨?_, ?_, ?_, ?_⟩) <;> rw [String.toList_ofList]
      · exact hne
      · exact hslash
      · exact hpoint
      · exact hpoints

/-- What reading a path can give. -/
theorem isRead_of_mem_components {p : Path} {c : Component} (h : c ∈ p.components) : c.IsRead := by
  unfold components at h
  rcases List.mem_append.mp h with h | h
  · split at h
    · exact Or.inl (List.mem_singleton.mp h)
    · exact absurd h List.not_mem_nil
  · obtain ⟨q, hq, rfl⟩ := List.mem_map.mp h
    obtain ⟨hq, hflag⟩ := List.mem_filter.mp hq
    obtain ⟨hslash, hne⟩ := of_mem_pieces hq hflag
    exact isRead_ofPiece hslash hne

/-- Steps, with the root below them or not; the last component comes first. -/
def IsStack (stack : List Component) : Prop :=
  ∃ steps : List Component, (∀ c ∈ steps, c.IsStep) ∧
    (stack = steps ∨ stack = steps ++ [.root])

/-- A step may come on top of a stack. -/
theorem IsStack.push {stack : List Component} {c : Component} (h : IsStack stack)
    (hc : c.IsStep) : IsStack (c :: stack) := by
  obtain ⟨steps, hsteps, hstack⟩ := h
  refine ⟨c :: steps, ?_, hstack.imp (congrArg _) (congrArg _)⟩
  intro d hd
  rcases List.mem_cons.mp hd with rfl | hd
  · exact hc
  · exact hsteps d hd

/-- The top of a stack may be taken off. -/
theorem IsStack.pop {stack : List Component} {c : Component} (h : IsStack (c :: stack)) :
    IsStack stack := by
  obtain ⟨steps, hsteps, hstack⟩ := h
  cases steps with
  | nil =>
    rcases hstack with hstack | hstack
    · cases hstack
    · obtain ⟨-, rfl⟩ := List.cons_eq_cons.mp hstack
      exact ⟨[], by simp, Or.inl rfl⟩
  | cons d steps =>
    refine ⟨steps, fun e he => hsteps e (List.mem_cons_of_mem _ he), ?_⟩
    exact hstack.imp (fun h => (List.cons_eq_cons.mp h).2) (fun h => (List.cons_eq_cons.mp h).2)

/-- Following one more component keeps the stack in shape. -/
theorem IsStack.follow {stack : List Component} {c : Component} (h : IsStack stack)
    (hc : c.IsRead) : IsStack (Path.follow stack c) := by
  cases c with
  | here =>
    rw [Path.follow]
    exact h
  | root =>
    have hroot : Path.follow stack .root = [.root] := by
      unfold Path.follow
      split <;> simp_all
    rw [hroot]
    exact ⟨[], by simp, Or.inr rfl⟩
  | name s =>
    have hname : Path.follow stack (.name s) = .name s :: stack := by
      unfold Path.follow
      split <;> simp_all
    rw [hname]
    exact h.push (hc.resolve_left (by simp) |>.resolve_left (by simp))
  | up =>
    unfold Path.follow
    split
    · exact h
    · exact h.push trivial
    · exact h.push trivial
    · exact h.pop
    · simp_all
    · exact h.push trivial

/-- So it is for all components of a path. -/
theorem isStack_foldl_follow {cs : List Component} (h : ∀ c ∈ cs, c.IsRead)
    {stack : List Component} (hstack : IsStack stack) : IsStack (cs.foldl Path.follow stack) := by
  induction cs generalizing stack with
  | nil => exact hstack
  | cons c cs ih =>
    exact ih (fun d hd => h d (List.mem_cons_of_mem _ hd)) (hstack.follow (h c List.mem_cons_self))

/-- **The components of a normal path** are what following those of the path
leaves. -/
theorem components_normalize (p : Path) :
    p.normalize.components = (p.components.foldl Path.follow []).reverse := by
  have hempty : IsStack [] := ⟨[], by simp, Or.inl rfl⟩
  obtain ⟨steps, hsteps, hstack⟩ :=
    isStack_foldl_follow (fun c hc => isRead_of_mem_components (p := p) hc) hempty
  have hrev : ∀ c ∈ steps.reverse, c.IsStep := fun c hc => hsteps c (List.mem_reverse.mp hc)
  rcases hstack with hstack | hstack
  · rw [normalize, hstack, components_ofComponents_steps hrev]
  · rw [normalize, hstack, List.reverse_append, List.reverse_singleton, List.singleton_append,
      components_ofComponents_root hrev]

/-- **A normal path spells its components.** -/
theorem ofComponents_components_normalize (p : Path) :
    ofComponents p.normalize.components = p.normalize := by
  rw [components_normalize, normalize]

/-- **Normal paths have one spelling.** -/
theorem normalize_eq_of_same {p q : Path} (h : p.normalize.same q.normalize = true) :
    p.normalize = q.normalize := by
  rw [← ofComponents_components_normalize p, same_iff.mp h, ofComponents_components_normalize]

/-- Two paths that are normal and the same file name are equal. -/
theorem eq_of_same {p q : Path} (hp : p.normalize = p) (hq : q.normalize = q)
    (h : p.same q = true) : p = q := by
  rw [← hp, ← hq] at h
  rw [← hp, ← hq]
  exact normalize_eq_of_same h

end Path

end Stylebook
