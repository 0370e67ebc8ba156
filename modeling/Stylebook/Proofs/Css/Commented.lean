import Stylebook.Css.Stylesheet

/-!
# Comments in a block of declarations

A comment is no value, but its text is not lost: the text of a number, and
of a token that has no kind of its own, starts where the value before it
ends. So a comment shows in a number behind it, and it shows in a token
without a kind, whose text nobody asks for.

`Commented` relates components to the same ones with more comments, at the
top or inside of functions, and none of them in front of a number. Then the
values are the same but for the texts of tokens without a kind
(`Value.eraseAll_ofComponents`), and so are the declarations of a block
(`Declaration.erase_ofBody`).
-/

namespace Stylebook.Css

/-- A number, with or without what is attached to it. -/
def Token.isNumeric : Token → Bool
  | .number | .percentage | .dimension _ => true
  | _ => false

/-! ## Values without the texts that nobody asks for

A token without a kind is kept with its text, and this text starts where the
last value ends. So it has any comment in it that stands in between. No
property ever looks at the text. Leaving it out makes the two readings
equal, which they are not as they stand. -/

namespace Value

mutual
/-- **A value without the texts of tokens without a kind.** -/
def erase : Value → Value
  | .function n args => .function n (eraseAll args)
  | .other _ => .other ""
  | v => v

/-- Values without the texts of tokens without a kind. -/
def eraseAll : List Value → List Value
  | [] => []
  | v :: vs => erase v :: eraseAll vs
end

/-- Comments are erased from each value by itself. -/
theorem eraseAll_eq_map (vs : List Value) : eraseAll vs = vs.map erase := by
  induction vs with
  | nil => rfl
  | cons v vs ih => rw [eraseAll, ih, List.map_cons]

theorem eraseAll_append (vs ws : List Value) : eraseAll (vs ++ ws) = eraseAll vs ++ eraseAll ws := by
  rw [eraseAll_eq_map, eraseAll_eq_map, eraseAll_eq_map, List.map_append]

/-- White space stays white space when comments are erased inside of values. -/
@[simp] theorem isBlank_erase (v : Value) : v.erase.isBlank = v.isBlank := by
  cases v <;> rfl

/-- The mark in front of `important` is known after erasing comments as
before. -/
@[simp] theorem isBang_erase (v : Value) : v.erase.isBang = v.isBang := by
  cases v <;> rfl

/-- The word `important` is known after erasing comments as before. -/
@[simp] theorem isImportant_erase (v : Value) : v.erase.isImportant = v.isImportant := by
  cases v <;> rfl

/-- The text that an import names stays as well. -/
theorem firstString_eraseAll (vs : List Value) : firstString (eraseAll vs) = firstString vs := by
  induction vs with
  | nil => rfl
  | cons v vs ih => cases v <;> first | rfl | exact ih

/-- The mark at the end of a value is no text without a kind. -/
theorem dropImportantReversed_map_erase (vs : List Value) :
    dropImportantReversed (vs.map erase) = (dropImportantReversed vs).map erase := by
  have hdrop : ∀ ws : List Value,
      (ws.map erase).dropWhile isBlank = (ws.dropWhile isBlank).map erase := by
    intro ws
    rw [List.dropWhile_map]
    exact congrArg (List.map erase ·) (congrArg (List.dropWhile · ws) (funext isBlank_erase))
  unfold dropImportantReversed
  rw [hdrop]
  cases vs.dropWhile isBlank with
  | nil => rfl
  | cons word rest =>
    simp only [List.map_cons, hdrop]
    cases rest.dropWhile isBlank with
    | nil => rfl
    | cons bang front =>
      simp only [List.map_cons, isImportant_erase, isBang_erase]
      split <;> rfl

/-- So it does not matter whether the texts or the mark of importance is
left out first. -/
theorem eraseAll_dropImportant (vs : List Value) :
    eraseAll (dropImportant vs) = dropImportant (eraseAll vs) := by
  simp only [eraseAll_eq_map, dropImportant, ← List.map_reverse, dropImportantReversed_map_erase]

/-- **Only a number asks for its text.** -/
theorem erase_ofToken {t : Token} (h : t.isNumeric = false) (text text' : List Char) :
    erase (ofToken text t) = erase (ofToken text' t) := by
  cases t <;> first | rfl | cases h

/-- A function is as its arguments are. -/
theorem erase_ofFunction {args args' : List Value} (h : eraseAll args = eraseAll args')
    (name : String) : erase (ofFunction name args) = erase (ofFunction name args') := by
  unfold ofFunction
  rw [← firstString_eraseAll args, ← firstString_eraseAll args', h]
  split
  · rfl
  · rw [erase, erase, h]

end Value

/-! ## More comments

The relation follows the components from left to right. It goes into
functions only, because no other block becomes a value with parts. A comment
is let in where no number comes next: it would be the start of the text of
the number, as `Style/Comments` shows that it then matters. -/

namespace Component

/-- What comes next, behind comments, is no number. -/
def NoNumberNext (cs : List Component) : Prop :=
  ∀ d ∈ (cs.dropWhile isComment).head?, d.token.isNumeric = false

/-- **The same components with more comments**: at the top or inside of
functions, and none of them in front of a number. -/
inductive Commented : List Component → List Component → Prop
  | nil : Commented [] []
  | comment {cs cs' : List Component} (l : Lexeme) (hl : l.token = .comment)
      (hnext : NoNumberNext cs') (h : Commented cs cs') : Commented cs (.leaf l :: cs')
  | cons {cs cs' : List Component} (c : Component) (h : Commented cs cs') :
      Commented (c :: cs) (c :: cs')
  | function {cs cs' body body' : List Component} {name : String} (o : Lexeme) (closer : List Char)
      (ho : o.token = .function name) (hbody : Commented body body') (h : Commented cs cs') :
      Commented (.block o body closer :: cs) (.block o body' closer :: cs')

/-- **A test that asks for the token of a component only, and that comments
pass.** -/
structure PassesComments (p : Component → Bool) : Prop where
  congr : ∀ c d : Component, c.token = d.token → p c = p d
  comment : ∀ c : Component, c.token = .comment → p c = true

/-- What separates values is such a test: white space and comments. -/
theorem passesComments_isGap : PassesComments isGap where
  congr c d h := by rw [isGap, isGap, isComment, isComment, h]
  comment c h := by rw [isGap, isComment, h]; rfl

/-- The test for a cut at a semicolon passes comments. -/
theorem passesComments_not_isSemicolon : PassesComments fun c => !c.isSemicolon where
  congr c d h := by rw [isSemicolon, isSemicolon, h]
  comment c h := by rw [isSemicolon, h]; rfl

/-- The test for a cut at a semicolon or a curly bracket passes comments. -/
theorem passesComments_not_endsAtRule :
    PassesComments fun c => !c.isSemicolon && !c.isCurly where
  congr c d h := by rw [isSemicolon, isSemicolon, isCurly, isCurly, h]
  comment c h := by rw [isSemicolon, isCurly, h]; rfl

/-- What comes next is the same in a part of the components. -/
theorem NoNumberNext.takeWhile {cs : List Component} (h : NoNumberNext cs)
    (p : Component → Bool) : NoNumberNext (cs.takeWhile p) := by
  induction cs with
  | nil => exact h
  | cons c cs ih =>
    by_cases hpass : p c = true
    · rw [List.takeWhile_cons_of_pos hpass]
      by_cases hc : c.isComment = true
      · unfold NoNumberNext at h ih ⊢
        rw [List.dropWhile_cons_of_pos hc] at h ⊢
        exact ih h
      · unfold NoNumberNext at h ⊢
        rwa [List.dropWhile_cons_of_neg hc] at h ⊢
    · rw [List.takeWhile_cons_of_neg hpass]
      exact fun d hd => nomatch hd

namespace Commented

variable {cs cs' : List Component} {p : Component → Bool}

/-- No comment need be added. -/
theorem refl (cs : List Component) : Commented cs cs := by
  induction cs with
  | nil => exact nil
  | cons c cs ih => exact cons c ih

/-- Components in front are the same on both sides. -/
theorem append_left (h : Commented cs cs') (pre : List Component) :
    Commented (pre ++ cs) (pre ++ cs') := by
  induction pre with
  | nil => exact h
  | cons c pre ih => exact cons c ih

/-- What comes first is a comment, or it has the token of what it was
before. -/
theorem cases_cons {c' : Component} (h : Commented cs (c' :: cs')) :
    c'.token = .comment ∧ Commented cs cs'
      ∨ ∃ c ds, cs = c :: ds ∧ c.token = c'.token ∧ Commented ds cs' := by
  cases h with
  | comment l hl _ h => exact Or.inl ⟨hl, h⟩
  | cons c h => exact Or.inr ⟨c', _, rfl, rfl, h⟩
  | function o closer ho hbody h => exact Or.inr ⟨_, _, rfl, rfl, h⟩

/-- **What is left of both starts with components of one kind**, and goes on
with more comments. -/
theorem dropWhile_cases (h : Commented cs cs') (hp : PassesComments p) :
    cs.dropWhile p = [] ∧ cs'.dropWhile p = []
      ∨ ∃ d ds d' ds', cs.dropWhile p = d :: ds ∧ cs'.dropWhile p = d' :: ds'
        ∧ (∀ l, d = .leaf l ↔ d' = .leaf l)
        ∧ Commented ds ds' := by
  induction h with
  | nil => exact Or.inl ⟨rfl, rfl⟩
  | comment l hl _ _ ih =>
    rwa [List.dropWhile_cons_of_pos (hp.comment (.leaf l) hl)]
  | @cons ds ds' c h ih =>
    by_cases hc : p c = true
    · rwa [List.dropWhile_cons_of_pos hc, List.dropWhile_cons_of_pos hc]
    · rw [List.dropWhile_cons_of_neg hc, List.dropWhile_cons_of_neg hc]
      exact Or.inr ⟨c, ds, c, ds', rfl, rfl, fun _ => Iff.rfl, h⟩
  | @function ds ds' body body' _ o closer ho hbody h _ ih =>
    have hpass : p (block o body closer) = p (block o body' closer) := hp.congr _ _ rfl
    by_cases hc : p (block o body' closer) = true
    · rwa [List.dropWhile_cons_of_pos (hpass.trans hc), List.dropWhile_cons_of_pos hc]
    · rw [List.dropWhile_cons_of_neg (by rwa [hpass]), List.dropWhile_cons_of_neg hc]
      exact Or.inr ⟨_, ds, _, ds', rfl, rfl, fun _ => ⟨nofun, nofun⟩, h⟩

/-- If there are more comments in a list, there are more comments behind a
cut. -/
theorem drop_dropWhile (h : Commented cs cs') (hp : PassesComments p) :
    Commented ((cs.dropWhile p).drop 1) ((cs'.dropWhile p).drop 1) := by
  rcases h.dropWhile_cases hp with ⟨hnil, hnil'⟩ | ⟨d, ds, d', ds', hcons, hcons', -, htail⟩
  · rw [hnil, hnil']
    exact nil
  · rw [hcons, hcons']
    exact htail

/-- If there are more comments in a list, there are more comments in front
of a cut. This is how a block is taken apart without asking where the
comments are. -/
theorem takeWhile (h : Commented cs cs') (hp : PassesComments p) :
    Commented (cs.takeWhile p) (cs'.takeWhile p) := by
  induction h with
  | nil => exact nil
  | comment l hl hnext _ ih =>
    rw [List.takeWhile_cons_of_pos (hp.comment (.leaf l) hl)]
    exact comment l hl (hnext.takeWhile p) ih
  | cons c h ih =>
    by_cases hc : p c = true
    · rw [List.takeWhile_cons_of_pos hc, List.takeWhile_cons_of_pos hc]
      exact cons c ih
    · rw [List.takeWhile_cons_of_neg hc, List.takeWhile_cons_of_neg hc]
      exact nil
  | @function _ _ body body' _ o closer ho hbody h _ ih =>
    have hpass : p (block o body closer) = p (block o body' closer) := hp.congr _ _ rfl
    by_cases hc : p (block o body' closer) = true
    · rw [List.takeWhile_cons_of_pos (hpass.trans hc), List.takeWhile_cons_of_pos hc]
      exact function o closer ho hbody ih
    · rw [List.takeWhile_cons_of_neg (by rwa [hpass]), List.takeWhile_cons_of_neg hc]
      exact nil

end Commented

end Component

open Component (Commented NoNumberNext)

/-! ## Values and declarations

Reading a value carries along the text that was not used yet. Two readings
with different such text come together again as soon as a token takes it: a
token that is no number forgets it. -/

/-- A component that is next is no number. -/
theorem Component.NoNumberNext.isNumeric_eq_false {c : Component} {cs : List Component}
    (h : NoNumberNext (c :: cs)) : c.token.isNumeric = false := by
  by_cases hc : c.isComment = true
  · rw [of_decide_eq_true hc]
    rfl
  · unfold NoNumberNext at h
    rw [List.dropWhile_cons_of_neg hc] at h
    exact h c rfl

/-- Behind a comment, the same comes next. -/
theorem Component.NoNumberNext.of_comment {c : Component} {cs : List Component}
    (h : NoNumberNext (c :: cs)) (hc : c.isComment = true) : NoNumberNext cs := by
  unfold NoNumberNext at h
  rwa [List.dropWhile_cons_of_pos hc] at h

namespace Value

/-- The first component leaves its value, and what it did not use is left
for the others. -/
theorem eraseAll_cons_ofComponents (unread : List Char) (c : Component) (cs : List Component) :
    eraseAll (ofComponents unread (c :: cs)) = ((ofComponent unread c).1.map erase).toList
      ++ eraseAll (ofComponents (ofComponent unread c).2 cs) := by
  rw [ofComponents, eraseAll_append]
  cases (ofComponent unread c).1 <;> rfl

/-- What a component leaves, whatever is unread before it. -/
theorem erase_ofComponent (c : Component) {unread unread' : List Char}
    (h : unread = unread' ∨ c.token.isNumeric = false) :
    (ofComponent unread c).1.map erase = (ofComponent unread' c).1.map erase
      ∧ ((ofComponent unread c).2 = (ofComponent unread' c).2 ∨ c.isComment = true) := by
  rcases h with rfl | h
  · exact ⟨rfl, Or.inl rfl⟩
  · cases c with
    | leaf l =>
      rw [ofComponent, ofComponent]
      split
      · rename_i hl
        exact ⟨rfl, Or.inr (decide_eq_true hl)⟩
      · exact ⟨congrArg some (erase_ofToken h _ _), Or.inl rfl⟩
    | block o body closer =>
      rw [ofComponent, ofComponent]
      split
      · exact ⟨rfl, Or.inl rfl⟩
      · exact ⟨congrArg some (erase_ofToken h _ _), Or.inl rfl⟩

/-- **Comments show in the texts of numbers only.** With the same text
unread, or with no number next, more comments give the same values but for
the texts of tokens without a kind. -/
theorem eraseAll_ofComponents {cs cs' : List Component} (h : Commented cs cs')
    (unread unread' : List Char) (hunread : unread = unread' ∨ NoNumberNext cs') :
    eraseAll (ofComponents unread cs) = eraseAll (ofComponents unread' cs') := by
  induction h generalizing unread unread' with
  | nil => rfl
  | comment l hl hnext _ ih =>
    have hcomment : ofComponent unread' (.leaf l) = (none, unread' ++ l.text) := by
      rw [ofComponent, hl]
    rw [ofComponents, hcomment]
    exact ih unread (unread' ++ l.text) (Or.inr hnext)
  | cons c h ih =>
    obtain ⟨hvalue, hrest⟩ := erase_ofComponent c
      (hunread.imp id fun hnext => hnext.isNumeric_eq_false)
    rw [eraseAll_cons_ofComponents, eraseAll_cons_ofComponents, hvalue]
    refine congrArg _ (ih _ _ ?_)
    rcases hrest with hrest | hcomment
    · exact Or.inl hrest
    · exact hunread.imp (fun heq => by rw [heq]) fun hnext => hnext.of_comment hcomment
  | @function _ _ body body' name o closer ho hbody h ihbody ih =>
    have hfunction : ∀ (unread : List Char) (body : List Component),
        ofComponent unread (.block o body closer)
          = (some (ofFunction name (ofComponents [] body)), []) := by
      intro unread body
      rw [ofComponent, ho]
    rw [eraseAll_cons_ofComponents, eraseAll_cons_ofComponents, hfunction, hfunction,
      Option.map_some, Option.map_some,
      erase_ofFunction (ihbody [] [] (Or.inl rfl)) name, ih [] [] (Or.inl rfl)]

end Value

namespace Declaration

/-- A declaration without the texts of tokens without a kind. -/
def erase (d : Declaration) : Declaration := ⟨d.property, Value.eraseAll d.value⟩

/-- What follows the name of a property is read alike. -/
theorem erase_ofRest? {cs cs' : List Component} (h : Commented cs cs') (property : String) :
    (ofRest? property cs).map erase = (ofRest? property cs').map erase := by
  unfold ofRest?
  rcases h.dropWhile_cases Component.passesComments_isGap with
    ⟨hnil, hnil'⟩ | ⟨d, ds, d', ds', hcons, hcons', hleaf, htail⟩
  · rw [hnil, hnil']
  · rw [hcons, hcons']
    cases d' with
    | leaf l =>
      rw [(hleaf l).mpr rfl]
      dsimp only
      split
      · have hvalue := Value.eraseAll_ofComponents htail [] [] (Or.inl rfl)
        rw [Option.map_some, Option.map_some, erase, erase, Value.eraseAll_dropImportant, hvalue,
          Value.eraseAll_dropImportant]
      · rfl
    | block o body closer =>
      cases d with
      | leaf l => exact nomatch (hleaf l).mp rfl
      | block o' body' closer' => rfl

/-- What counts for nothing between declarations. -/
def isBetween (c : Component) : Bool := c.isGap || c.isSemicolon

/-- Only the token of a component decides whether it is between
declarations. -/
theorem isBetween_congr {c d : Component} (h : c.token = d.token) : isBetween c = isBetween d := by
  unfold isBetween Component.isGap Component.isComment Component.isSemicolon
  rw [h]

/-- A comment is between declarations, like white space. -/
theorem isBetween_of_comment {c : Component} (h : c.token = .comment) : isBetween c = true := by
  unfold isBetween Component.isGap Component.isComment
  rw [h]
  rfl

/-- A component that counts for something was there before the comments
came. -/
theorem exists_cons_of_not_isBetween {c' : Component} {cs cs' : List Component}
    (h : Commented cs (c' :: cs')) (hbetween : ¬isBetween c' = true) :
    ∃ c ds, cs = c :: ds ∧ ¬isBetween c = true ∧ c.token = c'.token ∧ Commented ds cs' := by
  obtain ⟨c, ds, hcs, htoken, hds⟩ := h.cases_cons.resolve_left fun hcomment =>
    hbetween (isBetween_of_comment hcomment.1)
  exact ⟨c, ds, hcs, by rwa [isBetween_congr htoken], htoken, hds⟩

/-- A block is read in steps of one declaration. What is between
declarations is left out. -/
theorem ofBody_of_isBetween {c : Component} (h : isBetween c = true) (cs : List Component) :
    ofBody (c :: cs) = ofBody cs := by
  rw [ofBody]
  exact if_pos h

section Cons

variable {c : Component} (h : ¬isBetween c = true)
include h

/-- An at-rule in a block of declarations is skipped together with its own
block. -/
theorem ofBody_of_atKeyword {word : String} (hc : c.token = .atKeyword word)
    (cs : List Component) : ofBody (c :: cs)
      = ofBody ((cs.dropWhile fun d => !d.isSemicolon && !d.isCurly).drop 1) := by
  rw [ofBody, hc]
  exact if_neg h

/-- A name starts a declaration, which goes up to its semicolon. -/
theorem ofBody_of_ident {property : String} (hc : c.token = .ident property)
    (cs : List Component) : ofBody (c :: cs)
      = (ofRest? property (cs.takeWhile fun d => !d.isSemicolon)).toList
        ++ ofBody ((cs.dropWhile fun d => !d.isSemicolon).drop 1) := by
  rw [ofBody, hc]
  refine (if_neg h).trans ?_
  dsimp only
  split
  · rename_i hrest
    rw [hrest]
    rfl
  · rename_i hrest
    rw [hrest]
    rfl

/-- What can start neither a declaration nor an at-rule is skipped up to the
next semicolon. -/
theorem ofBody_of_other (hatKeyword : ∀ word, c.token ≠ .atKeyword word)
    (hident : ∀ property, c.token ≠ .ident property) (cs : List Component) :
    ofBody (c :: cs) = ofBody (((c :: cs).dropWhile fun d => !d.isSemicolon).drop 1) := by
  rw [ofBody]
  refine (if_neg h).trans ?_
  split
  · rename_i word hc
    exact absurd hc (hatKeyword word)
  · rename_i property hc
    exact absurd hc (hident property)
  · rfl

/-- More comments behind the name of a property. -/
theorem map_erase_of_ident {property : String} (hc : c.token = .ident property)
    {cs cs' : List Component} (hcs : Commented cs cs')
    (ih : ∀ {ds : List Component},
      Commented ds ((cs'.dropWhile fun d => !d.isSemicolon).drop 1) → (ofBody ds).map erase
        = (ofBody ((cs'.dropWhile fun d => !d.isSemicolon).drop 1)).map erase) :
    (ofBody (c :: cs)).map erase
      = ((ofRest? property (cs'.takeWhile fun d => !d.isSemicolon)).map erase).toList
        ++ (ofBody ((cs'.dropWhile fun d => !d.isSemicolon).drop 1)).map erase := by
  have hrest := erase_ofRest? (hcs.takeWhile Component.passesComments_not_isSemicolon) property
  rw [ofBody_of_ident h hc, List.map_append,
    ih (hcs.drop_dropWhile Component.passesComments_not_isSemicolon), ← hrest]
  cases ofRest? property (cs.takeWhile fun d => !d.isSemicolon) <;> rfl

end Cons

/-- **More comments in a block give the same declarations**, but for the
texts of tokens without a kind. -/
theorem erase_ofBody {cs cs' : List Component} (h : Commented cs cs') :
    (ofBody cs).map erase = (ofBody cs').map erase := by
  fun_induction ofBody cs' generalizing cs with
  | case1 =>
    cases h
    rw [ofBody]
  | case2 c' cs' hbetween ih =>
    rcases h.cases_cons with ⟨-, h⟩ | ⟨c, cs, rfl, htoken, h⟩
    · exact ih h
    · rw [ofBody_of_isBetween ((isBetween_congr htoken).trans hbetween)]
      exact ih h
  | case3 c' cs' hbetween word hc ih =>
    obtain ⟨c, cs, rfl, hc', htoken, h⟩ := exists_cons_of_not_isBetween h hbetween
    rw [ofBody_of_atKeyword hc' (htoken.trans hc)]
    exact ih (h.drop_dropWhile Component.passesComments_not_endsAtRule)
  | case4 c' cs' hbetween property hc rest d hd =>
    rename_i ih
    obtain ⟨c, cs, rfl, hc', htoken, h⟩ := exists_cons_of_not_isBetween h hbetween
    rw [map_erase_of_ident hc' (htoken.trans hc) h ih, hd]
    rfl
  | case5 c' cs' hbetween property hc rest hd =>
    rename_i ih
    obtain ⟨c, cs, rfl, hc', htoken, h⟩ := exists_cons_of_not_isBetween h hbetween
    rw [map_erase_of_ident hc' (htoken.trans hc) h ih, hd]
    rfl
  | case6 c' cs' hbetween hatKeyword hident ih =>
    obtain ⟨c, ds, rfl, hc', htoken, -⟩ := exists_cons_of_not_isBetween h hbetween
    rw [ofBody_of_other hc' (by rwa [htoken]) (by rwa [htoken])]
    exact ih (h.drop_dropWhile Component.passesComments_not_isSemicolon)

end Declaration

end Stylebook.Css
