import Mathlib.Data.List.Chain
import Stylebook.Proofs.Css.Comment
import Stylebook.Proofs.Css.Extent
import Stylebook.Proofs.Css.Inside

/-!
# The lexemes of a block

The tree of blocks keeps the order of the lexemes. Written down in this
order, each block with its brackets, the components of lexemes are these
lexemes again, and behind them the brackets that close what the end of the
text left open (`Component.exists_lexemesAll_ofLexemes`).

So the lexemes of a block stand in its text one behind the other: each one
was read in front of the next one, or in front of the end of the text, where
a bracket is missing (`Component.IsIn.isChain_lexemes`).
-/

namespace Stylebook.Css

/-- **The bracket that closes a block**, as a lexeme. -/
def Bracket.closer : Bracket → Lexeme
  | .paren => ⟨.closing .paren, [')']⟩
  | .square => ⟨.closing .square, [']']⟩
  | .curly => ⟨.closing .curly, ['}']⟩

/-- The text that closes a bracket is read as a token that closes it. -/
theorem Bracket.token_closer (b : Bracket) : b.closer.token = .closing b := by cases b <;> rfl

/-- The text that closes a bracket is read in front of anything. -/
theorem Bracket.isReadAt_closer (b : Bracket) (w : List Char) : b.closer.IsReadAt w := by
  cases b
  · exact ⟨')', [], rfl, rfl⟩
  · exact ⟨']', [], rfl, rfl⟩
  · exact ⟨'}', [], rfl, rfl⟩

/-- Brackets that are missing at the end of a text. -/
def AreMissing (ends : List Lexeme) : Prop := ∀ l ∈ ends, ∃ b, l = Bracket.closer b

namespace Component

/-! ## Components as lexemes

Writing the tree down undoes the reading, up to the brackets that the text
left out. To prove it, the lexemes of a reading that is under way are
written down as well: what the open blocks have so far, each with its
bracket, and then the innermost level. -/

/-- **The lexeme that closes a block.** It is the bracket that is missing
where the text ends first. -/
def closing (opener : Lexeme) (closer : List Char) : Lexeme :=
  let bracket := (opener.token.opens.getD .paren).closer
  if closer = [] then bracket else ⟨bracket.token, closer⟩

mutual
/-- **The lexemes of a component**, in their order. -/
def lexemes : Component → List Lexeme
  | .leaf l => [l]
  | .block o body closer => o :: lexemesAll body ++ [closing o closer]

/-- **The lexemes of a list of components**, in their order. -/
def lexemesAll : List Component → List Lexeme
  | [] => []
  | c :: cs => lexemes c ++ lexemesAll cs
end

/-- The lexemes of two lists come one behind the other. -/
theorem lexemesAll_append (cs ds : List Component) :
    lexemesAll (cs ++ ds) = lexemesAll cs ++ lexemesAll ds := by
  induction cs with
  | nil => rfl
  | cons c cs ih => rw [List.cons_append, lexemesAll, lexemesAll, ih, List.append_assoc]

/-- The lexemes that were read so far, given the innermost level, last
component first, and the blocks around it, innermost first. -/
def lexemesSoFar (level : List Component) : List Open → List Lexeme
  | [] => lexemesAll level.reverse
  | o :: os => lexemesSoFar o.before os ++ o.opener :: lexemesAll level.reverse

/-- A component comes behind all that was read. -/
theorem lexemesSoFar_cons (c : Component) (level : List Component) (os : List Open) :
    lexemesSoFar (c :: level) os = lexemesSoFar level os ++ c.lexemes := by
  have hlevel : lexemesAll (c :: level).reverse = lexemesAll level.reverse ++ c.lexemes := by
    rw [List.reverse_cons, lexemesAll_append, lexemesAll, lexemesAll, List.append_nil]
  cases os with
  | nil => exact hlevel
  | cons o os =>
    rw [lexemesSoFar, lexemesSoFar, hlevel, ← List.cons_append, ← List.append_assoc]

/-- The bracket of a block that is closed comes behind all that was read. -/
theorem lexemesSoFar_close (level : List Component) (o : Open) (closer : List Char)
    (os : List Open) : lexemesSoFar (o.close level closer) os
      = lexemesSoFar level (o :: os) ++ [closing o.opener closer] := by
  rw [Open.close, lexemesSoFar_cons, lexemesSoFar, lexemes, List.append_assoc]

/-- **One more lexeme comes behind those that were read.** -/
theorem lexemesSoFar_read {l : Lexeme} (hl : l.text ≠ []) (level : List Component)
    (os : List Open) : lexemesSoFar (read (level, os) l).1 (read (level, os) l).2
      = lexemesSoFar level os ++ [l] := by
  have hleaf : lexemesSoFar (.leaf l :: level) os = lexemesSoFar level os ++ [l] :=
    lexemesSoFar_cons (.leaf l) level os
  cases os with
  | nil =>
    rw [read]
    split
    · rfl
    · exact hleaf
  | cons o os =>
    rw [read]
    split
    · next hcloses =>
      have hclosing : closing o.opener l.text = l := by
        unfold closes at hcloses
        split at hcloses
        · next b b' htoken hopens =>
          obtain rfl := of_decide_eq_true hcloses
          rw [closing, if_neg hl, hopens, Option.getD_some, b.token_closer, ← htoken]
        · cases hcloses
      rw [lexemesSoFar_close, hclosing]
    · split
      · rfl
      · exact hleaf

/-- So do all lexemes that are read. -/
theorem lexemesSoFar_foldl_read {ls : List Lexeme} (hls : ∀ l ∈ ls, l.text ≠ [])
    (level : List Component) (os : List Open) :
    lexemesSoFar (ls.foldl read (level, os)).1 (ls.foldl read (level, os)).2
      = lexemesSoFar level os ++ ls := by
  induction ls generalizing level os with
  | nil => rw [List.foldl_nil, List.append_nil]
  | cons l ls ih =>
    obtain ⟨hl, hls⟩ := List.forall_mem_cons.mp hls
    have hrest := ih hls (read (level, os) l).1 (read (level, os) l).2
    rwa [lexemesSoFar_read hl, ← List.append_cons] at hrest

/-- Blocks that the end of the text closes have their brackets at the end. -/
theorem exists_lexemesAll_closeAll (level : List Component) (os : List Open) :
    ∃ ends, AreMissing ends ∧ lexemesAll (closeAll level os) = lexemesSoFar level os ++ ends := by
  induction os generalizing level with
  | nil => exact ⟨[], List.forall_mem_nil _, (List.append_nil _).symm⟩
  | cons o os ih =>
    obtain ⟨ends, hends, heq⟩ := ih (o.close level [])
    refine ⟨closing o.opener [] :: ends, List.forall_mem_cons.mpr ⟨⟨_, rfl⟩, hends⟩, ?_⟩
    rw [closeAll, heq, lexemesSoFar_close, List.append_assoc]
    rfl

/-- **The components of lexemes have these lexemes in their order**, and
behind them the brackets that are missing. -/
theorem exists_lexemesAll_ofLexemes {ls : List Lexeme} (hls : ∀ l ∈ ls, l.text ≠ []) :
    ∃ ends, AreMissing ends ∧ lexemesAll (ofLexemes ls) = ls ++ ends := by
  obtain ⟨ends, hends, heq⟩ := exists_lexemesAll_closeAll (ls.foldl read ([], [])).1
    (ls.foldl read ([], [])).2
  refine ⟨ends, hends, ?_⟩
  rw [ofLexemes, ← List.append_nil ls, nest_append_lexemes, nest, heq,
    lexemesSoFar_foldl_read hls, List.append_nil]
  rfl

/-! ## The lexemes of a block

A block that is in the tree at any depth has its lexemes in a row among
those of the text. So what is known of neighbours in the text is known of
neighbours in the block. -/

/-- The lexemes of a component are among those of a list that it is in. -/
theorem isInfix_lexemes_of_mem {b : Component} {cs : List Component} (h : b ∈ cs) :
    b.lexemes <:+: lexemesAll cs := by
  obtain ⟨front, back, rfl⟩ := List.append_of_mem h
  rw [lexemesAll_append, lexemesAll, ← List.append_assoc]
  exact List.infix_append _ _ _

/-- They are so at any depth. -/
theorem IsIn.isInfix_lexemes {b : Component} {cs : List Component} (h : b.IsIn cs) :
    b.lexemes <:+: lexemesAll cs := by
  induction h with
  | here h => exact isInfix_lexemes_of_mem h
  | @inside cs body o closer h _ ih =>
    have hbody : lexemesAll body <:+: (block o body closer).lexemes :=
      ⟨[o], [closing o closer], rfl⟩
    exact (ih.trans hbody).trans (isInfix_lexemes_of_mem h)

end Component

/-- **A lexeme that was read in front of another one**, or in front of
the end of the text, where the other one is missing. -/
def Lexeme.Precedes (l m : Lexeme) : Prop :=
  (∃ w, l.IsReadAt (m.text ++ w)) ∨ (∃ b, m = Bracket.closer b) ∧ l.IsReadAt []

/-- Brackets that are missing stand in front of each other. -/
theorem AreMissing.isChain {ends : List Lexeme} (h : AreMissing ends) :
    ends.IsChain Lexeme.Precedes := by
  induction ends with
  | nil => exact .nil
  | cons l ends ih =>
    obtain ⟨⟨b, rfl⟩, hends⟩ := List.forall_mem_cons.mp h
    exact List.isChain_cons.mpr ⟨fun m _ => .inl ⟨[], b.isReadAt_closer _⟩, ih hends⟩

/-- **The lexemes of a text were read one in front of the other.** -/
theorem isChain_lex (cs : List Char) {ends : List Lexeme} (hends : AreMissing ends) :
    (lex cs ++ ends).IsChain Lexeme.Precedes ∧ ∀ l ∈ lex cs ++ ends, ∃ w, l.IsReadAt w := by
  -- on the length, as a lexeme may take any number of characters
  induction hlength : cs.length using Nat.strongRecOn generalizing cs with
  | ind n ih =>
  subst hlength
  cases cs with
  | nil =>
    rw [lex_nil, List.nil_append]
    refine ⟨hends.isChain, fun l hl => ?_⟩
    obtain ⟨b, rfl⟩ := hends l hl
    exact ⟨[], b.isReadAt_closer []⟩
  | cons c cs =>
    obtain ⟨l, rest, hlex, -, hl, hlength⟩ := lex_cons c cs
    obtain ⟨hchain, hread⟩ := ih rest.length (Nat.lt_succ_of_le hlength) rest rfl
    rw [hlex, List.cons_append]
    refine ⟨List.isChain_cons.mpr ⟨fun m hm => ?_, hchain⟩,
      List.forall_mem_cons.mpr ⟨⟨rest, hl⟩, hread⟩⟩
    cases rest with
    | nil =>
      rw [lex_nil, List.nil_append] at hm
      exact .inr ⟨hends m (List.mem_of_mem_head? hm), hl⟩
    | cons d rest =>
      obtain ⟨k, after, hlex', htext, -⟩ := lex_cons d rest
      rw [hlex', List.cons_append, List.head?_cons] at hm
      obtain rfl := Option.some.inj hm
      rw [htext] at hl
      exact .inl ⟨after, hl⟩

/-- **The lexemes of a block were read one in front of the other.** -/
theorem Component.IsIn.isChain_lexemes {b : Component} {cs : List Char} (h : b.IsIn (ofText cs)) :
    b.lexemes.IsChain Lexeme.Precedes ∧ ∀ l ∈ b.lexemes, ∃ w, l.IsReadAt w := by
  have hne : ∀ l ∈ lex cs, l.text ≠ [] := by
    intro l hl
    obtain ⟨w, c, u, htext, -⟩ := (isChain_lex cs (List.forall_mem_nil _ : AreMissing [])).2 l
      (List.mem_append_left [] hl)
    rw [htext]
    exact List.cons_ne_nil c u
  obtain ⟨ends, hends, heq⟩ := exists_lexemesAll_ofLexemes hne
  obtain ⟨hchain, hread⟩ := isChain_lex cs hends
  have hpart := h.isInfix_lexemes
  rw [ofText, heq] at hpart
  refine ⟨?_, fun l hl => hread l (hpart.subset hl)⟩
  exact List.IsChain.infix hchain hpart

end Stylebook.Css
