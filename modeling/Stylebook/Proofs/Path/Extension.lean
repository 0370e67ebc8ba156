import Mathlib.Data.List.TakeWhile
import Stylebook.Proofs.Path.Join

/-!
# The name at the end of a path

A name is cut at its last point into stem and extension, and neither part is
lost: the two with a point between them are the name
(`splitName_eq_some_iff`). A path of which the text ends in a name
(`EndsIn`) is a directory and that name, so a new extension changes its last
component and no other (`components_withExtension`). The new name depends on
the stem alone.
-/

namespace Stylebook

namespace Path

variable {p q : Path} {front name stem ext : List Char} {extension : String}

/-! ## The file name

A component is a piece of the text and keeps its characters. So pieces and
components may be exchanged where a name is concerned. -/

/-- A piece that is no point and not two of them is a name. -/
theorem ofPiece_of_ne (hpoint : name ≠ ['.']) (hpoints : name ≠ ['.', '.']) :
    ofPiece name = .name (String.ofList name) := by
  rw [ofPiece, if_neg hpoint, if_neg hpoints]

/-- A component is written as the piece that it stands for. -/
theorem toList_text_ofPiece (name : List Char) : (ofPiece name).text.toList = name := by
  unfold ofPiece
  split
  · rename_i hpoint
    exact hpoint.symm
  · split
    · rename_i hpoints
      exact hpoints.symm
    · exact String.toList_ofList

/-- **Pieces are told apart** by the components that they stand for. -/
theorem ofPiece_injective : Function.Injective ofPiece := by
  intro v w h
  rw [← toList_text_ofPiece v, h, toList_text_ofPiece]

/-- **The file name is the last component**, if that is a name. -/
theorem fileName?_of_components {cs : List Component} {s : String}
    (h : p.components = cs ++ [.name s]) : p.fileName? = some s.toList := by
  have hlast : ((p.pieces.filter (·.2)).map fun q => ofPiece q.1).getLast? = some (.name s) := by
    have htop : p.top.getLast? ≠ some (.name s) := by
      unfold top
      split <;> simp
    have hwhole : (p.top ++ (p.pieces.filter (·.2)).map fun q => ofPiece q.1).getLast?
        = some (.name s) := by
      show p.components.getLast? = some (.name s)
      rw [h, List.getLast?_concat]
    rw [List.getLast?_append, Option.or_eq_some_iff] at hwhole
    exact hwhole.resolve_right fun hnone => htop hnone.2
  rw [List.getLast?_map, Option.map_eq_some_iff] at hlast
  obtain ⟨q, hq, hpiece⟩ := hlast
  have hfirst : p.piecesReversed.head? = some q := by
    rw [piecesReversed, ← List.find?_eq_head?_dropWhile_not, ← List.head?_filter,
      List.filter_reverse, List.head?_reverse, hq]
  obtain ⟨rest, hrest⟩ := List.head?_eq_some_iff.mp hfirst
  have hname : q.1 = s.toList := by
    rw [← toList_text_ofPiece q.1, hpiece]
    rfl
  have hpoint : q.1 ≠ ['.'] := fun heq => by simp [heq, ofPiece] at hpiece
  have hpoints : q.1 ≠ ['.', '.'] := fun heq => by simp [heq, ofPiece] at hpiece
  unfold fileName?
  rw [hrest]
  simp [← hname, hpoint, hpoints]

/-! ## Stem and extension

Where a name is cut is told by the result: what stands before the cut, a
point, and what stands behind. Two ways of looking at it agree, the search
from the end and this equation. -/

/-- **A name has a stem and an extension** exactly if a point stands between
them that is its last one and not its first character. -/
theorem splitName_eq_some_iff :
    splitName name = (stem, some ext) ↔ name = stem ++ '.' :: ext ∧ stem ≠ [] ∧ '.' ∉ ext := by
  constructor
  · intro h
    unfold splitName at h
    have hreverse := List.takeWhile_append_dropWhile (p := (· ≠ '.')) (l := name.reverse)
    cases hdrop : name.reverse.dropWhile (· ≠ '.') with
    | nil =>
      rw [hdrop] at h
      cases h
    | cons c rest =>
      have hpoint : c = '.' := by
        have hhead := List.head?_dropWhile_not (· ≠ '.') name.reverse
        rw [hdrop] at hhead
        simpa using hhead
      rw [hdrop, hpoint] at hreverse
      rw [hdrop] at h
      dsimp only at h
      split at h
      · cases h
      · rename_i hrest
        obtain ⟨rfl, hext⟩ := Prod.mk.inj h
        obtain rfl := Option.some.inj hext
        refine ⟨?_, by simpa using hrest, fun hmem => ?_⟩
        · have hname := congrArg List.reverse hreverse
          rw [List.reverse_append, List.reverse_cons, List.reverse_reverse, List.append_assoc,
            List.singleton_append] at hname
          exact hname.symm
        · have hother := List.mem_takeWhile_imp (List.mem_reverse.mp hmem)
          exact absurd hother (by decide)
  · rintro ⟨rfl, hstem, hext⟩
    have hall : ∀ c ∈ ext.reverse, decide (c ≠ '.') = true := by
      intro c hc
      have hne : c ≠ '.' := fun heq => hext (heq ▸ List.mem_reverse.mp hc)
      exact decide_eq_true hne
    have hreverse : (stem ++ '.' :: ext).reverse = ext.reverse ++ '.' :: stem.reverse := by simp
    have htake : (ext.reverse ++ '.' :: stem.reverse).takeWhile (· ≠ '.') = ext.reverse := by
      rw [List.takeWhile_append_of_pos hall]
      simp
    have hdrop : (ext.reverse ++ '.' :: stem.reverse).dropWhile (· ≠ '.')
        = '.' :: stem.reverse := by
      rw [List.dropWhile_append_of_pos hall]
      simp
    unfold splitName
    rw [hreverse, htake, hdrop]
    simp [hstem]

/-- A name without an extension is its own stem. -/
theorem stem_eq_of_none (h : (splitName name).2 = none) : (splitName name).1 = name := by
  unfold splitName at h ⊢
  split
  · split <;> simp_all
  · rfl

/-- **The stem of a name** comes first in it, and something stands in it. -/
theorem stem_starts (name : List Char) :
    (splitName name).1 <+: name ∧ (name ≠ [] → (splitName name).1 ≠ []) := by
  cases hext : (splitName name).2 with
  | none =>
    rw [stem_eq_of_none hext]
    exact ⟨List.prefix_rfl, id⟩
  | some ext =>
    obtain ⟨hname, hstem, -⟩ := splitName_eq_some_iff.mp (Prod.ext rfl hext)
    exact ⟨⟨_, hname.symm⟩, fun _ => hstem⟩

/-- The stem of the name at the end of a path. -/
def stem? (p : Path) : Option (List Char) := p.fileName?.map fun name => (splitName name).1

/-! ## The text of a path that ends in a name

Slashes and points may stand behind the last component of a path, and then
the text does not end in a name. Where it does, front and name are found
again by the program: they are what it takes for directory and file name. -/

/-- **The text of a path ends in a name**, at its start or behind a slash. -/
structure EndsIn (p : Path) (front name : List Char) : Prop where
  text : p.text.toList = front ++ name
  /-- The name is a whole piece. -/
  front : front = [] ∨ front.getLast? = some '/'
  slash : '/' ∉ name
  ne_nil : name ≠ []
  ne_point : name ≠ ['.']

/-- The pieces of a path are its text, cut at slashes. -/
theorem map_fst_pieces (p : Path) : p.pieces.map Prod.fst = cut p.text.toList := by
  unfold pieces
  split
  · rename_i first rest hcut
    rw [hcut, List.map_cons, List.map_map]
    exact congrArg (first :: ·) (List.map_id' rest)
  · rename_i hcut
    exact absurd hcut (cut_ne_nil _)

/-- A first piece and the others have a slash between them. -/
theorem glue_cons {w : List Char} {ws : List (List Char)} (h : ws ≠ []) :
    glue (w :: ws) = w ++ '/' :: glue ws := by
  cases ws with
  | nil => exact absurd rfl h
  | cons v ws => rfl

/-- **A text is its pieces with slashes between them.** -/
theorem glue_cut (cs : List Char) : glue (cut cs) = cs := by
  induction cs with
  | nil => rfl
  | cons c cs ih =>
    rw [cut]
    by_cases hc : c = '/'
    · rw [if_pos hc, glue_cons (cut_ne_nil cs), ih, hc]
      rfl
    · obtain ⟨w, ws, hcut⟩ := List.exists_cons_of_ne_nil (cut_ne_nil cs)
      rw [if_neg hc, hcut]
      rw [hcut] at ih
      cases ws with
      | nil => exact congrArg (c :: ·) ih
      | cons v ws =>
        rw [glue_cons (List.cons_ne_nil _ _)] at ih ⊢
        exact congrArg (c :: ·) ih

/-- The last component is the first one from behind. -/
theorem piecesReversed_of_pieces {ps : List (List Char × Bool)}
    (h : p.pieces = ps ++ [(name, true)]) : p.piecesReversed = (name, true) :: ps.reverse := by
  unfold piecesReversed
  rw [h, List.reverse_append]
  rfl

namespace EndsIn

/-- The name is the last piece. -/
theorem cut_eq (h : p.EndsIn front name) : ∃ ws, cut p.text.toList = ws ++ [name] := by
  rw [h.text]
  rcases h.front with rfl | hlast
  · exact ⟨[], cut_of_notMem h.slash⟩
  · obtain ⟨as, rfl⟩ := List.getLast?_eq_some_iff.mp hlast
    refine ⟨cut as, ?_⟩
    rw [List.append_assoc, List.singleton_append, cut_append, cut_of_notMem h.slash]

/-- The name is a component. -/
theorem pieces_eq (h : p.EndsIn front name) : ∃ ps, p.pieces = ps ++ [(name, true)] := by
  have hidle : isIdle name = false := by simp [isIdle, h.ne_nil, h.ne_point]
  obtain ⟨ws, hcut⟩ := h.cut_eq
  cases ws with
  | nil =>
    -- a path that is one name does not start with a slash
    have habs : p.isAbsolute = false := by
      have htext : p.text.toList = name := by
        rw [← glue_cut p.text.toList, hcut]
        rfl
      rw [isAbsolute, htext]
      have hhead : name.head? ≠ some '/' := fun hhead => h.slash (List.mem_of_mem_head? hhead)
      simpa using hhead
    refine ⟨[], ?_⟩
    rw [pieces, hcut, habs]
    simp [h.ne_nil]
  | cons w ws =>
    refine ⟨(w, if p.isAbsolute then false else w ≠ []) :: ws.map fun v => (v, !isIdle v), ?_⟩
    rw [pieces, hcut, List.cons_append]
    simp [hidle]

/-- Nothing stands behind the name. -/
theorem aroundName_eq (h : p.EndsIn front name) : p.aroundName name = (front, 0) := by
  obtain ⟨ps, hps⟩ := h.pieces_eq
  have htrimmed : glue (p.piecesReversed.reverse.map Prod.fst) = p.text.toList := by
    rw [piecesReversed_of_pieces hps, List.reverse_cons, List.reverse_reverse, ← hps,
      map_fst_pieces, glue_cut]
  unfold aroundName
  rw [htrimmed, h.text]
  simp

/-- **A path that ends in a name** has the components of what stands before,
and the name. -/
theorem components_eq (h : p.EndsIn front name) : p.components
    = (⟨String.ofList front⟩ : Path).components ++ [ofPiece name] := by
  obtain ⟨text⟩ := p
  have htext : text = String.ofList (front ++ name) := by rw [← h.text, String.ofList_toList]
  rcases h.front with rfl | hlast
  · have habs : (⟨text⟩ : Path).isAbsolute = false := by
      have hhead : name.head? ≠ some '/' := fun hhead => h.slash (List.mem_of_mem_head? hhead)
      simpa [isAbsolute, htext] using hhead
    have hcut : cut text.toList = [name] := by
      rw [h.text, List.nil_append, cut_of_notMem h.slash]
    rw [components_of_cut hcut, top, habs]
    simp [h.ne_nil, components, pieces, isAbsolute, cut]
  · obtain ⟨as, rfl⟩ := List.getLast?_eq_some_iff.mp hlast
    obtain ⟨w, ws, hcut⟩ := List.exists_cons_of_ne_nil (cut_ne_nil as)
    have habs : (⟨text⟩ : Path).isAbsolute
        = (⟨String.ofList (as ++ ['/'])⟩ : Path).isAbsolute := by
      rw [isAbsolute, isAbsolute, htext, String.toList_ofList, String.toList_ofList]
      cases as <;> rfl
    have hwhole : cut text.toList = w :: (ws ++ [name]) := by
      rw [h.text, List.append_assoc, List.singleton_append, cut_append, hcut,
        cut_of_notMem h.slash]
      rfl
    have hfront : cut (String.ofList (as ++ ['/'])).toList = w :: (ws ++ [[]]) := by
      rw [String.toList_ofList, cut_append, hcut]
      rfl
    rw [components_of_cut hwhole, components_of_cut (p := ⟨String.ofList (as ++ ['/'])⟩) hfront,
      top, top, habs, inner_append, inner_append]
    simp [inner_cons, isIdle, h.ne_nil, h.ne_point]

/-- Its file name is that name. -/
theorem fileName?_eq (h : p.EndsIn front name) (hpoints : name ≠ ['.', '.']) :
    p.fileName? = some name := by
  have hcomponents := h.components_eq
  rw [ofPiece_of_ne h.ne_point hpoints] at hcomponents
  rw [fileName?_of_components hcomponents, String.toList_ofList]

/-- A path below another one ends as it does. -/
theorem join (h : q.EndsIn front name) (hq : q.isAbsolute = false) (p : Path) :
    ∃ base, (p.join q).EndsIn base name := by
  have htext := toList_join (p := p) hq
  split at htext
  · rename_i hends
    refine ⟨p.text.toList ++ front, ⟨by rw [htext, h.text, List.append_assoc], ?_, h.slash,
      h.ne_nil, h.ne_point⟩⟩
    rcases h.front with rfl | hlast
    · simpa using hends
    · exact Or.inr (by rw [List.getLast?_append, hlast]; rfl)
  · refine ⟨p.text.toList ++ '/' :: front, ⟨by rw [htext, h.text, List.append_assoc]; rfl,
      Or.inr ?_, h.slash, h.ne_nil, h.ne_point⟩⟩
    rcases h.front with rfl | hlast
    · simp
    · rw [List.getLast?_append, List.getLast?_cons, hlast]
      rfl

end EndsIn

/-! ## Another extension

The text changes behind the stem only, so the new path ends in the new name,
in front of which nothing changed. What there is to take care of is a new
name that is no name: a point, or two of them. -/

/-- **The name that a stem gets** with a new extension. A stem that is a
point becomes two of them, whatever the extension. -/
def renamed (stem : List Char) (extension : String) : List Char :=
  if stem = ['.'] then ['.', '.'] else stem ++ (withExtension.suffix extension).toList

/-- An extension that is not empty comes with a point. -/
theorem suffix_eq (extension : String) : (withExtension.suffix extension).toList
    = if extension = "" then [] else '.' :: extension.toList := by
  unfold withExtension.suffix
  by_cases h : extension = ""
  · simp [h]
  · simp [h]

/-- A point alone is no new name. -/
theorem renamed_ne_point (hstem : stem ≠ []) : renamed stem extension ≠ ['.'] := by
  unfold renamed
  split
  · decide
  · rename_i hpoint
    intro h
    obtain ⟨c, cs, rfl⟩ := List.exists_cons_of_ne_nil hstem
    simp_all

/-- Two points are the new name of a point, and of two points without an
extension. -/
theorem renamed_eq_points_iff (hstem : stem ≠ []) : renamed stem extension = ['.', '.']
    ↔ stem = ['.'] ∨ extension = "" ∧ stem = ['.', '.'] := by
  unfold renamed
  rw [suffix_eq]
  by_cases hpoint : stem = ['.']
  · simp [hpoint]
  · rw [if_neg hpoint]
    by_cases hext : extension = ""
    · simp [hext, hpoint]
    · rw [if_neg hext]
      simp only [hpoint, hext, false_and, or_self, iff_false]
      intro h
      have hchars : extension.toList ≠ [] := by simpa using hext
      have hlength := congrArg List.length h
      have hstemlength := List.length_pos_iff.mpr hstem
      have hextlength := List.length_pos_iff.mpr hchars
      simp at hlength
      omega

/-- **Stems keep apart** under a new extension, unless two points come out. -/
theorem renamed_inj {stem' : List Char} (hpoints : renamed stem extension ≠ ['.', '.'])
    (h : renamed stem extension = renamed stem' extension) : stem = stem' := by
  have hpoints' : renamed stem' extension ≠ ['.', '.'] := h ▸ hpoints
  unfold renamed at h hpoints hpoints'
  have hpoint : stem ≠ ['.'] := fun heq => hpoints (if_pos heq)
  have hpoint' : stem' ≠ ['.'] := fun heq => hpoints' (if_pos heq)
  rw [if_neg hpoint, if_neg hpoint'] at h
  exact List.append_cancel_right h

/-- **The text of a path with another extension.** -/
theorem toList_withExtension (h : p.EndsIn front name) (hpoints : name ≠ ['.', '.'])
    (extension : String) : (p.withExtension extension).text.toList
      = front ++ renamed (splitName name).1 extension := by
  unfold withExtension renamed
  rw [h.fileName?_eq hpoints]
  dsimp only
  rw [h.aroundName_eq]
  dsimp only
  split
  · rename_i heq
    simp [heq]
  · rename_i stem ext? hne heq
    have hpoint : stem ≠ ['.'] := by
      rintro rfl
      cases ext? with
      | some ext => exact hne ext rfl rfl
      | none =>
        have hstem : (splitName name).1 = name := stem_eq_of_none (by rw [heq])
        rw [heq] at hstem
        exact h.ne_point hstem.symm
    rw [heq, if_neg hpoint, String.toList_append, String.toList_ofList, List.append_assoc]

/-- **A path with another extension** ends in its new name. -/
theorem endsIn_withExtension (h : p.EndsIn front name) (hpoints : name ≠ ['.', '.'])
    (hext : '/' ∉ extension.toList) :
    (p.withExtension extension).EndsIn front (renamed (splitName name).1 extension) := by
  obtain ⟨hname, hstem⟩ := stem_starts name
  have hstem := hstem h.ne_nil
  refine ⟨toList_withExtension h hpoints extension, h.front, ?_, ?_, renamed_ne_point hstem⟩
  · have hslash : '/' ∉ (splitName name).1 := fun hmem => h.slash (hname.subset hmem)
    unfold renamed
    rw [suffix_eq]
    split
    · decide
    · split <;> simp [hslash, hext]
  · unfold renamed
    split <;> simp [hstem]

/-- **A new extension changes the last component** and no other. -/
theorem components_withExtension (h : p.EndsIn front name) (hpoints : name ≠ ['.', '.'])
    (hext : '/' ∉ extension.toList) {cs : List Component}
    (hcs : p.components = cs ++ [ofPiece name]) : (p.withExtension extension).components
      = cs ++ [ofPiece (renamed (splitName name).1 extension)] := by
  have hfront : cs = (⟨String.ofList front⟩ : Path).components :=
    List.append_cancel_right (hcs.symm.trans h.components_eq)
  rw [(endsIn_withExtension h hpoints hext).components_eq, hfront]

end Path

end Stylebook
