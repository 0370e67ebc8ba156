import Stylebook.Proofs.Css.Closed
import Stylebook.Proofs.Css.Comment

/-!
# Balanced brackets

Lexemes are `Balanced` when each bracket that opens has its own closing
bracket and there are no other closing brackets; this can be decided with a
stack (`isNested_iff`). Reading them leaves the blocks around them as they
were, and adds their components to the innermost level, whatever that is
(`Balanced.foldl_read`). So the components of balanced lexemes and what
comes behind are those of each (`Balanced.ofLexemes_append`), and balanced
lexemes between brackets are one block (`Balanced.ofLexemes_block`).
-/

namespace Stylebook.Css

/-- **Balanced lexemes.** The induction goes from left to right: what comes
first is flat, or it opens a block, and then the body of this block and what
follows it are two parts, each of them balanced. -/
inductive Balanced : List Lexeme → Prop
  | nil : Balanced []
  | flat {ls : List Lexeme} (l : Lexeme) (hl : l.token.isFlat = true) (h : Balanced ls) :
    Balanced (l :: ls)
  | block {body ls : List Lexeme} {b : Bracket} (o c : Lexeme) (ho : o.token.opens = some b)
    (hc : c.token = .closing b) (hbody : Balanced body) (h : Balanced ls) :
    Balanced (o :: (body ++ c :: ls))

/-! ## A decision with a stack

Whether lexemes are balanced has to be decided for the texts of examples,
and to find the partner of a bracket by cutting the list would not do. The
stack has only the kinds of the brackets that are open. The tree of
components is not needed for it. -/

/-- Whether lexemes are balanced behind brackets that are open, innermost
first. -/
def isNested : List Bracket → List Lexeme → Bool
  | bs, [] => bs.isEmpty
  | bs, l :: ls =>
    match l.token with
    | .opening b => isNested (b :: bs) ls
    | .function _ => isNested (.paren :: bs) ls
    | .closing b => bs.head? = some b && isNested bs.tail ls
    | _ => isNested bs ls

section Nested

variable {bs : List Bracket} {b : Bracket} {l : Lexeme} {ls : List Lexeme}

/-- A bracket that opens is put on the stack. -/
theorem isNested_of_opens (h : l.token.opens = some b) :
    isNested bs (l :: ls) = isNested (b :: bs) ls := by
  obtain ⟨t, text⟩ := l
  cases t <;> cases h <;> rfl

/-- A bracket that closes takes its own kind from the top of the stack. -/
theorem isNested_of_closing (h : l.token = .closing b) :
    isNested bs (l :: ls) = (decide (bs.head? = some b) && isNested bs.tail ls) := by
  rw [isNested, h]

/-- Other lexemes leave the stack alone. -/
theorem isNested_of_flat (h : l.token.isFlat = true) :
    isNested bs (l :: ls) = isNested bs ls := by
  obtain ⟨t, text⟩ := l
  cases t <;> first | rfl | cases h

/-- A lexeme opens a block, closes one or is flat. -/
theorem Lexeme.cases_token (l : Lexeme) : (∃ b, l.token.opens = some b)
    ∨ (∃ b, l.token = .closing b) ∨ l.token.isFlat = true := by
  obtain ⟨t, text⟩ := l
  cases t <;> simp [Token.opens, Token.isFlat]

/-- A flat lexeme at the end changes nothing. -/
theorem isNested_concat (h : l.token.isFlat = true) (bs : List Bracket) (ls : List Lexeme) :
    isNested bs (ls ++ [l]) = isNested bs ls := by
  induction ls generalizing bs with
  | nil => exact isNested_of_flat h
  | cons k ls ih =>
    rw [List.cons_append]
    rcases k.cases_token with ⟨b, hb⟩ | ⟨b, hb⟩ | hk
    · rw [isNested_of_opens hb, isNested_of_opens hb, ih]
    · rw [isNested_of_closing hb, isNested_of_closing hb, ih]
    · rw [isNested_of_flat hk, isNested_of_flat hk, ih]

/-- Balanced lexemes leave the stack as it was, and never look below it. -/
theorem Balanced.isNested_append (h : Balanced ls) (bs : List Bracket) (rs : List Lexeme) :
    isNested bs (ls ++ rs) = isNested bs rs := by
  induction h generalizing bs rs with
  | nil => rfl
  | flat l hl _ ih => rw [List.cons_append, isNested_of_flat hl, ih]
  | @block body ls b o c ho hc _ _ ihbody ih =>
    rw [List.cons_append, List.append_assoc, isNested_of_opens ho, ihbody, List.cons_append,
      isNested_of_closing hc, ih]
    simp

/-- **What a stack accepts is balanced up to the bracket that closes the
innermost block**, or to the end if no block is open. -/
theorem exists_balanced_of_isNested (h : isNested bs ls = true) :
    match bs with
    | [] => Balanced ls
    | b :: bs => ∃ body c rest, Balanced body ∧ c.token = .closing b ∧ ls = body ++ c :: rest
        ∧ isNested bs rest = true := by
  -- on the length, as what stands behind a block is not the tail of the list
  induction hlength : ls.length using Nat.strongRecOn generalizing bs ls with
  | ind n ih =>
  subst hlength
  cases ls with
  | nil =>
    cases bs with
    | nil => exact .nil
    | cons b bs => cases h
  | cons l ls =>
    rcases l.cases_token with ⟨b, hb⟩ | ⟨b, hb⟩ | hl
    · rw [isNested_of_opens hb] at h
      obtain ⟨body, c, rest, hbody, hc, rfl, hrest⟩ := ih _ (Nat.lt_succ_self _) h rfl
      have htail := ih rest.length (by simp; omega) hrest rfl
      cases bs with
      | nil => exact .block l c hb hc hbody htail
      | cons b' bs =>
        obtain ⟨body', c', rest', hbody', hc', rfl, hrest'⟩ := htail
        have hblock : Balanced (l :: (body ++ c :: body')) := .block l c hb hc hbody hbody'
        exact ⟨_, c', rest', hblock, hc', by simp, hrest'⟩
    · rw [isNested_of_closing hb, Bool.and_eq_true, decide_eq_true_eq] at h
      obtain ⟨bs, rfl⟩ := List.head?_eq_some_iff.mp h.1
      exact ⟨[], l, ls, .nil, hb, rfl, h.2⟩
    · rw [isNested_of_flat hl] at h
      have htail := ih _ (Nat.lt_succ_self _) h rfl
      cases bs with
      | nil => exact .flat l hl htail
      | cons b bs =>
        obtain ⟨body, c, rest, hbody, hc, rfl, hrest⟩ := htail
        exact ⟨l :: body, c, rest, .flat l hl hbody, hc, rfl, hrest⟩

/-- **Balanced lexemes are those that a stack accepts.** -/
theorem isNested_iff : isNested [] ls = true ↔ Balanced ls := by
  refine ⟨exists_balanced_of_isNested, fun h => ?_⟩
  rw [← List.append_nil ls, h.isNested_append]
  rfl

instance : DecidablePred Balanced := fun _ => decidable_of_iff _ isNested_iff

/-- Balanced lexemes stay so side by side. -/
theorem Balanced.append {rs : List Lexeme} (hls : Balanced ls) (hrs : Balanced rs) :
    Balanced (ls ++ rs) := by
  rw [← isNested_iff, hls.isNested_append, isNested_iff]
  exact hrs

/-- A flat lexeme in front makes no difference. -/
theorem Balanced.cons_iff (hl : l.token.isFlat = true) : Balanced (l :: ls) ↔ Balanced ls := by
  rw [← isNested_iff, isNested_of_flat hl, isNested_iff]

/-- A flat lexeme at the end makes no difference. -/
theorem Balanced.concat_iff (hl : l.token.isFlat = true) : Balanced (ls ++ [l]) ↔ Balanced ls := by
  rw [← isNested_iff, isNested_concat hl, isNested_iff]

end Nested

/-! ## What is read

Reading has a stack too, which holds the blocks that are open with what they
have so far. What is true of lexemes in the middle of a text has to be said
for any stack. -/

section Reading

open Component (ofLexemes Open)

variable {b : Bracket} {l o c : Lexeme} {ls : List Lexeme}

namespace Component

/-- A bracket that opens starts a level. -/
theorem read_of_opens (h : l.token.opens = some b) (level : List Component) (os : List Open) :
    Component.read (level, os) l = ([], ⟨l, level⟩ :: os) := by
  cases os with
  | nil =>
    rw [Component.read, h]
    rfl
  | cons o os =>
    have hcloses : ¬closes l.token o.opener = true := by
      obtain ⟨t, text⟩ := l
      cases t <;> first | exact Bool.false_ne_true | cases h
    rw [Component.read, if_neg hcloses, h]
    rfl

/-- A bracket that closes the level makes it a block of the level around. -/
theorem read_of_closing (ho : o.token.opens = some b) (hc : c.token = .closing b)
    (level before : List Component) (os : List Open) :
    Component.read (level, ⟨o, before⟩ :: os) c
      = (.block o level.reverse c.text :: before, os) := by
  have hcloses : closes c.token o = true := by
    simp only [closes, hc, ho, decide_true]
  rw [Component.read, if_pos hcloses]
  rfl

/-- Any other lexeme is a component of the level that it is in. -/
theorem read_of_flat (h : l.token.isFlat = true) (level : List Component) (os : List Open) :
    Component.read (level, os) l = (.leaf l :: level, os) := by
  obtain ⟨t, text⟩ := l
  cases os <;> cases t <;> first | rfl | cases h

/-- The components of lexemes that leave no block open. -/
theorem ofLexemes_of_foldl_read {cs : List Component}
    (h : ls.foldl Component.read ([], []) = (cs.reverse, [])) : ofLexemes ls = cs := by
  rw [ofLexemes, ← List.append_nil ls, nest_append_lexemes, h, nest, closeAll, List.reverse_reverse]

end Component

namespace Balanced

/-- **Balanced lexemes add components to the innermost level**, and leave
the open blocks. The induction follows `Balanced`. In a block, its body is
read on a level of its own, of which nothing is left but the block. -/
theorem foldl_read (h : Balanced ls) (level : List Component) (os : List Open) :
    ls.foldl Component.read (level, os) = ((ofLexemes ls).reverse ++ level, os) := by
  -- the components are the same at every place, so they are those at the top
  suffices hread : ∃ cs : List Component, ∀ level os,
      ls.foldl Component.read (level, os) = (cs.reverse ++ level, os) by
    obtain ⟨cs, hcs⟩ := hread
    have htop : ls.foldl Component.read ([], []) = (cs.reverse, []) := by
      rw [hcs, List.append_nil]
    rw [Component.ofLexemes_of_foldl_read htop, hcs]
  clear level os
  induction h with
  | nil => exact ⟨[], fun _ _ => rfl⟩
  | flat l hl _ ih =>
    obtain ⟨cs, hcs⟩ := ih
    refine ⟨.leaf l :: cs, fun level os => ?_⟩
    rw [List.foldl_cons, Component.read_of_flat hl, hcs, List.reverse_cons, List.append_assoc]
    rfl
  | block o c ho hc _ _ ihbody ih =>
    obtain ⟨inner, hinner⟩ := ihbody
    obtain ⟨cs, hcs⟩ := ih
    refine ⟨.block o inner c.text :: cs, fun level os => ?_⟩
    rw [List.foldl_cons, Component.read_of_opens ho, List.foldl_append, hinner, List.foldl_cons,
      Component.read_of_closing ho hc, hcs, List.append_nil, List.reverse_reverse,
      List.reverse_cons, List.append_assoc]
    rfl

/-- **What comes behind balanced lexemes is read by itself.** -/
theorem ofLexemes_append (h : Balanced ls) (rs : List Lexeme) :
    ofLexemes (ls ++ rs) = ofLexemes ls ++ ofLexemes rs := by
  have hrest := (Component.nest_append (ofLexemes ls).reverse rs).1 []
  rw [ofLexemes, Component.nest_append_lexemes, h.foldl_read, List.append_nil]
  rwa [List.reverse_reverse] at hrest

/-- **Balanced lexemes between brackets are one block.** -/
theorem ofLexemes_block (h : Balanced ls) (ho : o.token.opens = some b)
    (hc : c.token = .closing b) :
    ofLexemes (o :: (ls ++ [c])) = [.block o (ofLexemes ls) c.text] := by
  refine Component.ofLexemes_of_foldl_read ?_
  rw [List.foldl_cons, Component.read_of_opens ho, List.foldl_append, h.foldl_read,
    List.foldl_cons, Component.read_of_closing ho hc, List.append_nil, List.reverse_reverse]
  rfl

end Balanced

end Reading

end Stylebook.Css
