import Mathlib.Data.List.Basic
import Stylebook.Proofs.Css.AtKeyword
import Stylebook.Proofs.Css.Inside

/-!
# Selectors and their compounds

A selector that was read is a row of compounds with white space between
them, none of them empty: white space at either end was left out, and a run
of it counts once. This module gives the compounds of a selector as parts
(`Selector.compounds`), and the text that a supported selector has by its
parts.
-/

namespace Stylebook.Css

namespace SelectorPart

/-- Whether a part is a class. -/
def isClass : SelectorPart → Bool
  | .cls _ => true
  | _ => false

/-- The characters of a part in a canonical selector. -/
def chars : SelectorPart → List Char
  | .cls n => '.' :: n.toList
  | .element n => n.toList
  | .blank => [' ']
  | _ => []

end SelectorPart

namespace Selector

open SelectorPart

/-- **The compounds of a selector**: the parts between its white space. -/
def compounds (s : Selector) : List (List SelectorPart) :=
  splitAtNone (s.parts.map fun p => if p = .blank then none else some p)

/-- A compound has parts, and none of them is white space. -/
def IsCompound (c : List SelectorPart) : Prop := c ≠ [] ∧ .blank ∉ c

variable {c : List SelectorPart} {cs : List (List SelectorPart)} {s : Selector}

/-! ## What squeezing leaves

White space of a selector is squeezed while it is read, with one bit that
tells whether white space came last. The bit is what the second half of the
statement is about: a compound may already have begun. -/

/-- A part that is no white space is kept. -/
theorem squeeze_cons_of_ne {p : SelectorPart} (h : p ≠ .blank) (afterBlank : Bool)
    (ps : List SelectorPart) : squeeze afterBlank (p :: ps) = p :: squeeze false ps := by
  cases p with
  | blank => exact absurd rfl h
  | _ => rfl

/-- **Squeezed parts are a row of compounds**, with white space at the end
or without. The second half says it of parts that stand behind the start of
a compound. -/
theorem exists_compounds_squeeze (ps : List SelectorPart) :
    (∃ cs ending, (∀ c ∈ cs, IsCompound c) ∧ (ending = [] ∨ ending = [.blank] ∧ cs ≠ [])
        ∧ squeeze true ps = [.blank].intercalate cs ++ ending)
      ∧ ∀ c, IsCompound c → ∃ cs ending, (∀ c ∈ cs, IsCompound c)
        ∧ (ending = [] ∨ ending = [.blank] ∧ cs ≠ [])
        ∧ c ++ squeeze false ps = [.blank].intercalate cs ++ ending := by
  induction ps with
  | nil =>
    exact ⟨⟨[], [], by simp, Or.inl rfl, rfl⟩,
      fun c hc => ⟨[c], [], by simpa using hc, Or.inl rfl, by simp [squeeze]⟩⟩
  | cons p ps ih =>
    obtain ⟨ihstart, ihinside⟩ := ih
    by_cases hp : p = .blank
    · subst hp
      refine ⟨ihstart, fun c hc => ?_⟩
      obtain ⟨cs, ending, hcs, hending, heq⟩ := ihstart
      have hblank : squeeze false (.blank :: ps) = .blank :: squeeze true ps := rfl
      rw [hblank, heq]
      cases cs with
      | nil =>
        -- white space that nothing follows is an ending
        obtain rfl := hending.resolve_right fun h => h.2 rfl
        exact ⟨[c], [.blank], by simpa using hc, Or.inr ⟨rfl, List.cons_ne_nil c []⟩, by simp⟩
      | cons d cs =>
        refine ⟨c :: d :: cs, ending, List.forall_mem_cons.mpr ⟨hc, hcs⟩,
          hending.imp_right fun h => ⟨h.1, List.cons_ne_nil c _⟩, ?_⟩
        rw [List.intercalate_cons_cons]
        simp
    · rw [squeeze_cons_of_ne hp, squeeze_cons_of_ne hp]
      refine ⟨ihinside [p] ⟨List.cons_ne_nil p [], by simpa using Ne.symm hp⟩, fun c hc => ?_⟩
      have hlonger : IsCompound (c ++ [p]) :=
        ⟨by simp, by simpa using ⟨hc.2, Ne.symm hp⟩⟩
      obtain ⟨cs, ending, hcs, hending, heq⟩ := ihinside (c ++ [p]) hlonger
      exact ⟨cs, ending, hcs, hending, by rw [← heq]; simp⟩

/-- A row of compounds does not end in white space. -/
theorem getLast?_intercalate_ne (h : ∀ c ∈ cs, IsCompound c) :
    ([.blank].intercalate cs).getLast? ≠ some .blank := by
  induction cs with
  | nil => simp
  | cons c cs ih =>
    obtain ⟨hc, hcs⟩ := List.forall_mem_cons.mp h
    cases cs with
    | nil =>
      rw [List.intercalate_singleton]
      exact fun hlast => hc.2 (List.mem_of_getLast? hlast)
    | cons d cs =>
      have hne : [SelectorPart.blank].intercalate (d :: cs) ≠ [] := by
        have hd := (hcs d List.mem_cons_self).1
        cases cs with
        | nil => rwa [List.intercalate_singleton]
        | cons e cs => rw [List.intercalate_cons_cons]; simp
      rw [List.intercalate_cons_cons, List.getLast?_append_of_ne_nil _ hne]
      exact ih hcs

/-- **A selector that was read is a row of compounds.** -/
theorem exists_compounds (ps : List SelectorPart) : ∃ cs, (∀ c ∈ cs, IsCompound c)
    ∧ (ofParts ps).parts = [.blank].intercalate cs := by
  obtain ⟨⟨cs, ending, hcs, hending, heq⟩, -⟩ := exists_compounds_squeeze ps
  refine ⟨cs, hcs, ?_⟩
  unfold ofParts
  dsimp only
  rw [heq]
  rcases hending with rfl | ⟨rfl, -⟩
  · rw [List.append_nil, if_neg (getLast?_intercalate_ne hcs)]
  · rw [if_pos (by simp), List.dropLast_concat]

/-! ## Cutting a row of compounds

Cutting at white space gives back the compounds because none of them has
any. There is always one piece more than there are cuts, so the row may not
be empty: no compounds and one empty compound would be the same. -/

/-- There is one piece at least. -/
theorem splitAtNone_ne_nil {α : Type} (xs : List (Option α)) : splitAtNone xs ≠ [] := by
  unfold splitAtNone
  split
  · exact List.cons_ne_nil _ _
  · exact List.cons_ne_nil _ _
  · split <;> exact List.cons_ne_nil _ _

/-- What is no cut belongs to the first piece. -/
theorem splitAtNone_cons_some {α : Type} {xs : List (Option α)} {first : List α}
    {rest : List (List α)} (h : splitAtNone xs = first :: rest) (x : α) :
    splitAtNone (some x :: xs) = (x :: first) :: rest := by
  rw [splitAtNone, h]

/-- **A cut divides**: what stands before it and what stands behind it are
cut by themselves. -/
theorem splitAtNone_append {α : Type} (xs ys : List (Option α)) :
    splitAtNone (xs ++ none :: ys) = splitAtNone xs ++ splitAtNone ys := by
  induction xs with
  | nil => rfl
  | cons x xs ih =>
    cases x with
    | none => exact congrArg ([] :: ·) ih
    | some x =>
      obtain ⟨first, rest, h⟩ := List.exists_cons_of_ne_nil (splitAtNone_ne_nil xs)
      rw [List.cons_append, splitAtNone_cons_some h,
        splitAtNone_cons_some (show splitAtNone (xs ++ none :: ys)
          = first :: (rest ++ splitAtNone ys) by rw [ih, h]; rfl)]
      rfl

/-- Without a cut there is one piece. -/
theorem splitAtNone_map_some {α : Type} (xs : List α) : splitAtNone (xs.map some) = [xs] := by
  induction xs with
  | nil => rfl
  | cons x xs ih => exact splitAtNone_cons_some ih x

/-- **The compounds of a row are those that it was made of.** -/
theorem compounds_of_parts_eq (h : ∀ c ∈ cs, IsCompound c) (hne : cs ≠ [])
    (hparts : s.parts = [.blank].intercalate cs) : s.compounds = cs := by
  have hsome : ∀ c, IsCompound c →
      c.map (fun p => if p = SelectorPart.blank then none else some p) = c.map some := by
    intro c hc
    refine List.map_congr_left fun p hp => if_neg ?_
    rintro rfl
    exact hc.2 hp
  rw [compounds, hparts]
  clear hparts
  induction cs with
  | nil => exact absurd rfl hne
  | cons c cs ih =>
    obtain ⟨hc, hcs⟩ := List.forall_mem_cons.mp h
    cases cs with
    | nil => rw [List.intercalate_singleton, hsome c hc, splitAtNone_map_some]
    | cons d cs =>
      rw [List.intercalate_cons_cons, List.append_assoc, List.map_append, hsome c hc,
        List.singleton_append, List.map_cons, if_pos rfl, splitAtNone_append,
        splitAtNone_map_some, List.singleton_append, ih hcs (List.cons_ne_nil d cs)]

/-! ## Canonical texts

The dictionary knows a selector by its text, in which white space separates.
The parts know better what is a compound: a class may have white space in
its name, if it was written with an escape. -/

/-- A part is written as its characters. -/
theorem toList_canonical? {p : SelectorPart} {text : String} (h : p.canonical? = some text) :
    text.toList = p.chars := by
  cases p <;> simp only [SelectorPart.canonical?, Option.some.injEq, reduceCtorEq] at h <;> subst h
  · simp [chars]
  · rfl
  · rfl

/-- **The canonical text of a selector is that of its parts**, and there are
some. -/
theorem toList_of_canonical? {text : String} (h : s.canonical? = some text) :
    text.toList = s.parts.flatMap chars ∧ s.parts ≠ [] := by
  have hall : ∀ (ps : List SelectorPart) (texts : List String),
      ps.mapM SelectorPart.canonical? = some texts → texts.flatMap String.toList = ps.flatMap chars := by
    intro ps
    induction ps with
    | nil =>
      rintro texts heq
      cases heq
      rfl
    | cons p ps ih =>
      intro texts heq
      rw [List.mapM_cons] at heq
      obtain ⟨first, hfirst, heq⟩ := Option.bind_eq_some_iff.mp heq
      obtain ⟨rest, hrest, heq⟩ := Option.bind_eq_some_iff.mp heq
      cases heq
      rw [List.flatMap_cons, List.flatMap_cons, toList_canonical? hfirst, ih rest hrest]
  obtain ⟨texts, htexts, heq⟩ := Option.bind_eq_some_iff.mp h
  dsimp only at heq
  split at heq
  · cases heq
  · rename_i hne
    cases heq
    rw [String.toList_join, hall s.parts texts htexts]
    refine ⟨rfl, fun hnil => hne ?_⟩
    rw [hnil] at htexts
    cases htexts
    rfl

/-- The text of a row of compounds has a space between their texts. -/
theorem flatMap_chars_intercalate (cs : List (List SelectorPart)) :
    ([.blank].intercalate cs).flatMap chars = [' '].intercalate (cs.map (List.flatMap chars)) := by
  induction cs with
  | nil => rfl
  | cons c cs ih =>
    cases cs with
    | nil => simp
    | cons d cs =>
      rw [List.map_cons, List.map_cons, List.intercalate_cons_cons, List.intercalate_cons_cons,
        ← List.map_cons, ← ih]
      simp [chars]

end Selector

/-! ## The selectors of a stylesheet

Where a selector of a rule comes from, so that what is true of read
selectors is true of it. -/

/-- **Every selector of a stylesheet was read from parts.** -/
theorem Stylesheet.exists_ofParts {text : String} {r : StyleRule} {s : Selector}
    (hr : r ∈ (ofText text).rules) (hs : s ∈ r.selectors) : ∃ ps, s = Selector.ofParts ps := by
  obtain ⟨prelude, o, body, closer, -, rfl⟩ := Node.exists_of_mem_rules hr
  obtain ⟨ps, -, rfl⟩ := List.mem_map.mp hs
  exact ⟨ps, rfl⟩

end Stylebook.Css
