import Stylebook.Proofs.Path.Descent
import Stylebook.Proofs.Path.Extension

/-!
# Paths below a directory

A path is below a directory when names follow the components of the
directory (`IsBelow`). Of a normal path below a directory, the relative path
is the path of these names (`relativeTo?_of_names`). Below any other
directory these names stand just so, and a new extension changes no more
than the last of them (`components_join_withExtension`).
-/

namespace Stylebook

namespace Path

open Component

variable {p root : Path} {names : List String}

/-- **A path is below a directory**: names follow the components of the
directory. -/
def IsBelow (p dir : Path) : Prop :=
  ∃ names : List String, names ≠ [] ∧ p.components = dir.components ++ names.map .name

/-- A name that is read is a step. -/
theorem isStep_of_mem_components {s : String} (h : .name s ∈ p.components) :
    (Component.name s).IsStep :=
  (isRead_of_mem_components h).resolve_left (by simp) |>.resolve_left (by simp)

/-- A normal path is its root, if it has one, and steps. -/
theorem exists_steps_of_normal (hp : p.normalize = p) :
    ∃ cs, p.components = p.top ++ cs ∧ ∀ c ∈ cs, c.IsStep := by
  have hcomponents := components_normalize_eq p
  rw [hp] at hcomponents
  refine ⟨_, hcomponents, fun c hc => ?_⟩
  have hmem : c ∈ p.components := hcomponents ▸ List.mem_append_right _ hc
  rcases List.mem_append.mp hc with hc | hc
  · unfold leftClimbs at hc
    split at hc
    · rw [List.mem_singleton.mp hc]
      trivial
    · exact absurd hc List.not_mem_nil
  · obtain ⟨s, -, rfl⟩ := List.mem_map.mp hc
    exact isStep_of_mem_components hmem

/-- **The pieces of a normal path** are its components as they are written,
behind the empty piece before its first slash. -/
theorem pieces_of_normal (hp : p.normalize = p) {cs : List Component} (hne : cs ≠ [])
    (hcs : p.components = p.top ++ cs) :
    p.pieces = (if p.isAbsolute = true then [([], false)] else []) ++ stepPieces cs := by
  obtain ⟨steps, hsteps, hall⟩ := exists_steps_of_normal hp
  obtain rfl : cs = steps := List.append_cancel_left (hcs.symm.trans hsteps)
  have hspelled : ofComponents p.components = p := by
    have h := ofComponents_components_normalize p
    rwa [hp] at h
  rw [top] at hcs
  by_cases habs : p.isAbsolute = true
  · rw [if_pos habs] at hcs
    rw [if_pos habs, ← hspelled, hcs]
    exact pieces_ofComponents_root hall hne
  · rw [if_neg habs] at hcs
    rw [if_neg habs, ← hspelled, hcs]
    exact pieces_ofComponents_steps hall hne

/-- What stands behind a front is what dropping it leaves. -/
theorem dropFront?_append {α : Type} [DecidableEq α] (as bs : List α) :
    dropFront? as (as ++ bs) = some bs := by
  induction as with
  | nil => rfl
  | cons a as ih => rw [List.cons_append, dropFront?, if_pos rfl, ih]

/-- Of steps as many pieces as components are dropped. -/
theorem dropPieces_stepPieces (cs ds : List Component) :
    dropPieces cs.length (stepPieces (cs ++ ds)) = stepPieces ds := by
  induction cs with
  | nil =>
    cases ds <;> rfl
  | cons c cs ih => exact ih

/-- Pieces are put together with slashes between them. -/
theorem glue_eq_intercalate (ws : List (List Char)) : glue ws = List.intercalate ['/'] ws := by
  induction ws with
  | nil => rfl
  | cons w ws ih =>
    cases ws with
    | nil => simp [glue]
    | cons v ws =>
      rw [glue_cons (List.cons_ne_nil _ _), ih, List.intercalate_cons_cons, List.append_assoc]
      rfl

/-- The pieces of steps, put together. -/
theorem ofPieces_stepPieces {cs : List Component} (h : ∀ c ∈ cs, c.IsStep) :
    ofPieces false (stepPieces cs) = ofComponents cs := by
  have htext := toList_text_steps h
  have hpieces : (stepPieces cs).map Prod.fst = (cs.map Component.text).map String.toList := by
    rw [stepPieces, List.map_map, List.map_map]
    rfl
  rw [ofPieces, Bool.false_and, if_neg Bool.false_ne_true, hpieces, glue_eq_intercalate, ← htext,
    String.ofList_toList]

/-- Behind steps, nothing is idle. -/
theorem reverse_piecesReversed {ps : List (List Char × Bool)} {cs : List Component}
    (h : p.pieces = ps ++ stepPieces cs) (hne : cs ≠ []) : p.piecesReversed.reverse = p.pieces := by
  obtain ⟨ds, c, rfl⟩ := List.eq_nil_or_concat cs |>.resolve_left hne
  have hlast : p.pieces = (ps ++ stepPieces ds) ++ [(c.text.toList, true)] := by
    rw [h, stepPieces, List.concat_eq_append, List.map_append, ← List.append_assoc]
    rfl
  rw [piecesReversed_of_pieces hlast, hlast, List.reverse_cons, List.reverse_reverse]

/-- What is left behind steps, without the idle pieces in front, is as it
was written. -/
theorem ofPieces_behind (cs : List Component) {ds : List Component} (h : ∀ c ∈ ds, c.IsStep) :
    ofPieces false ((dropPieces cs.length (stepPieces (cs ++ ds))).dropWhile (!·.2))
      = ofComponents ds := by
  have hidle : (stepPieces ds).dropWhile (!·.2) = stepPieces ds := by cases ds <;> rfl
  rw [dropPieces_stepPieces, hidle, ofPieces_stepPieces h]

/-- The names below a directory are steps. -/
theorem isStep_of_names (h : p.components = root.components ++ names.map .name) :
    ∀ c ∈ names.map Component.name, c.IsStep := by
  intro c hc
  have hmem : c ∈ p.components := h ▸ List.mem_append_right _ hc
  obtain ⟨s, -, rfl⟩ := List.mem_map.mp hc
  exact isStep_of_mem_components hmem

/-- **The relative path of a normal path** is the path of the names below
the directory. -/
theorem relativeTo?_of_names (hp : p.normalize = p) (hne : names ≠ [])
    (h : p.components = root.components ++ names.map .name) :
    p.relativeTo? root = some (ofComponents (names.map .name)) := by
  have hsteps := isStep_of_names h
  have hnames : names.map Component.name ≠ [] := by simpa using hne
  have hstarts : p.startsWith root = true := by
    rw [startsWith, h, dropFront?_append]
    rfl
  unfold relativeTo?
  rw [hstarts]
  simp only [Bool.not_true, Bool.false_eq_true, if_false]
  by_cases habs : p.isAbsolute = true
  · -- the directory starts with the same slash, which is no piece of its own
    have hmem : .root ∈ root.components := by
      have hmem := isAbsolute_iff.mp habs
      rw [h, List.mem_append] at hmem
      exact hmem.resolve_right (by simp)
    obtain ⟨ds, hroot, -⟩ := exists_components_eq root
    rw [top, if_pos (isAbsolute_iff.mpr hmem)] at hroot
    have hpieces := pieces_of_normal hp (List.append_ne_nil_of_right_ne_nil ds hnames)
      (show p.components = p.top ++ (ds ++ names.map .name) by simp [top, habs, h, hroot])
    simp only [habs, if_true] at hpieces ⊢
    rw [reverse_piecesReversed hpieces (List.append_ne_nil_of_right_ne_nil ds hnames), hpieces,
      hroot]
    exact congrArg some (ofPieces_behind ds hsteps)
  · rw [Bool.not_eq_true] at habs
    have hpieces := pieces_of_normal hp (List.append_ne_nil_of_right_ne_nil _ hnames)
      (show p.components = p.top ++ (root.components ++ names.map .name) by simp [top, habs, h])
    simp only [habs, Bool.false_eq_true, if_false] at hpieces ⊢
    rw [reverse_piecesReversed hpieces (List.append_ne_nil_of_right_ne_nil _ hnames), hpieces,
      List.nil_append]
    cases hroot : root.components with
    | nil =>
      refine congrArg some ?_
      rw [List.nil_append, ofPieces_stepPieces hsteps]
    | cons c ds => exact congrArg some (ofPieces_behind (c :: ds) hsteps)

/-! ## The same names below another directory

A module stands below the cache directory as its stylesheet stands below the
root. The program puts it there by texts: the relative path, joined to
another directory, with another extension. By components this is one
equation. -/

/-- What slashes are put between ends in the last piece, which is a whole
one. -/
theorem exists_intercalate_concat (ws : List (List Char)) (w : List Char) :
    ∃ front, List.intercalate ['/'] (ws ++ [w]) = front ++ w
      ∧ (front = [] ∨ front.getLast? = some '/') := by
  induction ws with
  | nil => exact ⟨[], by simp, Or.inl rfl⟩
  | cons v ws ih =>
    obtain ⟨front, hfront, hlast⟩ := ih
    obtain ⟨u, us, hus⟩ := List.exists_cons_of_ne_nil (List.append_ne_nil_of_right_ne_nil ws
      (List.cons_ne_nil w []))
    refine ⟨v ++ '/' :: front, ?_, Or.inr ?_⟩
    · rw [List.cons_append, hus, List.intercalate_cons_cons, ← hus, hfront, List.append_assoc,
        List.append_assoc]
      rfl
    · rcases hlast with rfl | hlast
      · simp
      · rw [List.getLast?_append, List.getLast?_cons, hlast]
        rfl

/-- The path of steps ends in the last one of them. -/
theorem endsIn_ofComponents {cs : List Component} {c : Component}
    (h : ∀ d ∈ cs ++ [c], d.IsStep) :
    ∃ front, (ofComponents (cs ++ [c])).EndsIn front c.text.toList := by
  have htext := toList_text_steps h
  rw [List.map_append, List.map_append] at htext
  obtain ⟨front, hfront, hlast⟩ := exists_intercalate_concat
    ((cs.map Component.text).map String.toList) c.text.toList
  obtain ⟨-, hne, hslash, hidle⟩ := ofPiece_text (h c (by simp))
  refine ⟨front, htext.trans hfront, hlast, hslash, hne, ?_⟩
  intro hpoint
  rw [hpoint] at hidle
  exact absurd hidle (by decide)

/-- **Below a directory**, a path that no point starts adds all of its
components. -/
theorem components_join_of_notMem {dir q : Path} (hq : q.isAbsolute = false)
    (hpoint : .here ∉ q.components) :
    (dir.join q).components = dir.components ++ q.components := by
  by_cases hdir : dir.text = ""
  · rw [join_of_empty hdir hq, show dir = ⟨""⟩ from congrArg Path.mk hdir]
    rfl
  · have hkept : q.components.filter (· ≠ .here) = q.components :=
      List.filter_eq_self.mpr fun c hc => by simpa using fun heq : c = .here => hpoint (heq ▸ hc)
    rw [components_join hdir hq, hkept]

/-- **Steps below a directory** follow its components. -/
theorem components_join_steps (dir : Path) {cs : List Component} (h : ∀ c ∈ cs, c.IsStep) :
    (dir.join (ofComponents cs)).components = dir.components ++ cs := by
  have hpoint : .here ∉ (ofComponents cs).components := by
    rw [components_ofComponents_steps h]
    exact fun hmem => h .here hmem
  rw [components_join_of_notMem (isAbsolute_ofComponents_steps h) hpoint,
    components_ofComponents_steps h]

/-- **Below another directory and with another extension**, a path of steps
keeps all of them but the last one. -/
theorem components_join_withExtension (dir : Path) {cs : List Component} {name extension : String}
    (h : ∀ c ∈ cs ++ [.name name], c.IsStep) (hext : '/' ∉ extension.toList) :
    ((dir.join (ofComponents (cs ++ [.name name]))).withExtension extension).components
      = dir.components ++ cs ++ [ofPiece (renamed (splitName name.toList).1 extension)] := by
  have hname : (Component.name name).IsStep := h _ (by simp)
  obtain ⟨front, hends⟩ := endsIn_ofComponents h
  obtain ⟨base, hbase⟩ := hends.join (isAbsolute_ofComponents_steps h) dir
  refine components_withExtension hbase hname.2.2.2 hext ?_
  rw [show ofPiece (Component.name name).text.toList = .name name from (ofPiece_text hname).1,
    List.append_assoc]
  exact components_join_steps dir h

end Path

end Stylebook
