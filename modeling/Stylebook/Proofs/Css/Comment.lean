import Stylebook.Proofs.Css.Block
import Stylebook.Proofs.Css.Commented
import Stylebook.Proofs.Css.Reading

/-!
# Where a comment stands

Lexemes are read into components with the blocks that are open on a stack.
So the place between two lexemes is told by the blocks that are open there
(`Component.openAfter`). A place is in declarations when the block of a
style rule is open there, or the block of an at-rule that is ignored, with
grouping blocks around it and nothing but functions inside of it
(`InDeclarations`).

What comes behind does not depend on what stands in an open block: it closes
that block at the same bracket (`Component.exists_nest_eq`). So a comment in
declarations, not in front of a number, comes between the components of one
block, and the sheet has the same rules and imports, but for the texts of
tokens without a kind (`agree_of_comment`).
-/

namespace Stylebook.Css

namespace Component

/-! ## Open blocks

A place in a text is told by what was read before it. Of that, the blocks
that are open matter, each with the components before it, and no others. -/

/-- The innermost level and the blocks around it after one more lexeme. -/
def read : List Component × List Open → Lexeme → List Component × List Open
  | (level, []), l => if l.token.opens.isSome then ([], [⟨l, level⟩]) else (.leaf l :: level, [])
  | (level, o :: outer), l =>
    if closes l.token o.opener then (o.close level l.text, outer)
    else if l.token.opens.isSome then ([], ⟨l, level⟩ :: o :: outer)
    else (.leaf l :: level, o :: outer)

/-- **The blocks that are open behind lexemes**, innermost first. -/
def openAfter (ls : List Lexeme) : List Open := (ls.foldl read ([], [])).2

/-- Reading goes on from where it stands. -/
theorem nest_append_lexemes (level : List Component) (os : List Open) (ls rs : List Lexeme) :
    nest level os (ls ++ rs)
      = nest (ls.foldl read (level, os)).1 (ls.foldl read (level, os)).2 rs := by
  induction ls generalizing level os with
  | nil => rfl
  | cons l ls ih =>
    rw [List.cons_append, List.foldl_cons, ← ih (read (level, os) l).1 (read (level, os) l).2]
    cases os with
    | nil =>
      rw [nest, read]
      split <;> rfl
    | cons o outer =>
      rw [nest, read]
      split
      · rfl
      · split <;> rfl

/-- The components behind a front of comments start like their lexemes. -/
def StartsWithin (cs : List Component) (ls : List Lexeme) : Prop :=
  ∀ d ∈ (cs.dropWhile isComment).head?,
    ∃ l ∈ (ls.dropWhile fun l => l.token = .comment).head?, d.token = l.token

/-- Where there are no components there is no condition. -/
theorem StartsWithin.nil (ls : List Lexeme) : StartsWithin [] ls := fun _ hd => nomatch hd

/-- A lexeme and the component that it starts. -/
theorem StartsWithin.cons {c : Component} {l : Lexeme} {cs : List Component} {ls : List Lexeme}
    (hc : c.token = l.token) (h : l.token = .comment → StartsWithin cs ls) :
    StartsWithin (c :: cs) (l :: ls) := by
  unfold StartsWithin
  by_cases hl : l.token = .comment
  · have hcomment : c.isComment = true := decide_eq_true (hc.trans hl)
    rw [List.dropWhile_cons_of_pos hcomment, List.dropWhile_cons_of_pos (by simpa using hl)]
    exact h hl
  · have hcomment : ¬c.isComment = true := fun hcomment => hl (hc ▸ of_decide_eq_true hcomment)
    rw [List.dropWhile_cons_of_neg hcomment, List.dropWhile_cons_of_neg (by simpa using hl)]
    exact fun d hd => ⟨l, rfl, by rw [← Option.some.inj hd, hc]⟩

/-- **A block that is open is closed at one place**, whatever stands in it
and around it. -/
theorem exists_nest_eq (opener : Lexeme) (rs : List Lexeme) : ∃ inner closer rest,
    rest.length ≤ rs.length ∧ StartsWithin inner rs ∧ ∀ level before outer,
      nest level (⟨opener, before⟩ :: outer) rs
        = nest (.block opener (level.reverse ++ inner) closer :: before) outer rest := by
  induction hlength : rs.length using Nat.strongRecOn generalizing opener rs with
  | ind n ih =>
    subst hlength
    cases rs with
    | nil =>
      refine ⟨[], [], [], Nat.le_refl _, .nil _, fun level before outer => ?_⟩
      rw [nest, nest, List.append_nil]
      rfl
    | cons r rs =>
      have hrs : rs.length < (r :: rs).length := Nat.lt_succ_self _
      by_cases hcloses : closes r.token opener = true
      · refine ⟨[], r.text, rs, Nat.le_of_lt hrs, .nil _, fun level before outer => ?_⟩
        rw [nest, if_pos hcloses, List.append_nil]
        rfl
      · by_cases hopens : r.token.opens.isSome = true
        · -- a block of its own comes first, and then the rest of this one
          obtain ⟨inner, closer, rest, hrest, -, heq⟩ := ih _ hrs r rs rfl
          obtain ⟨inner', closer', rest', hrest', -, heq'⟩ :=
            ih _ (Nat.lt_of_le_of_lt hrest hrs) opener rest rfl
          refine ⟨.block r inner closer :: inner', closer', rest',
            Nat.le_trans (Nat.le_trans hrest' hrest) (Nat.le_of_lt hrs),
            .cons rfl fun hcomment => ?_, fun level before outer => ?_⟩
          · rw [hcomment] at hopens
            cases hopens
          · rw [nest, if_neg hcloses, if_pos hopens, heq, heq', List.reverse_cons,
              List.append_assoc]
            rfl
        · obtain ⟨inner, closer, rest, hrest, hstarts, heq⟩ := ih _ hrs opener rs rfl
          refine ⟨.leaf r :: inner, closer, rest, Nat.le_trans hrest (Nat.le_of_lt hrs),
            .cons rfl fun _ => hstarts, fun level before outer => ?_⟩
          rw [nest, if_neg hcloses, if_neg hopens, heq, List.reverse_cons, List.append_assoc]
          rfl

end Component

open Component (Commented NoNumberNext nest openAfter)

/-! ## Sheets with the same rules

A sheet is compared up to what nobody asks for, and the comparison passes
from a block to the sheet around it. For each kind of block this is
one lemma: declarations pass on as declarations, a sheet in a grouping rule
as a sheet, and in an ignored block anything is the same. -/

/-- A rule without the texts of tokens without a kind. -/
def StyleRule.erase (r : StyleRule) : StyleRule :=
  ⟨r.selectors, r.declarations.map Declaration.erase⟩

namespace Node

/-- The rules of two sheets come one behind the other. -/
theorem rules_append (ns ms : List Node) : rules (ns ++ ms) = rules ns ++ rules ms := by
  induction ns with
  | nil => rfl
  | cons n ns ih => rw [List.cons_append, rules, rules, ih, List.append_assoc]

/-- The imports of two sheets come one behind the other. -/
theorem importTargets_append (ns ms : List Node) :
    importTargets (ns ++ ms) = importTargets ns ++ importTargets ms := by
  induction ns with
  | nil => rfl
  | cons n ns ih => rw [List.cons_append, importTargets, importTargets, ih, List.append_assoc]

/-- **Components that are read as the same sheet**: with the same rules, but
for the texts of tokens without a kind, and the same imports. -/
structure Agree (cs cs' : List Component) : Prop where
  rules : (rules (ofComponents true cs)).map StyleRule.erase
    = (Node.rules (ofComponents true cs')).map StyleRule.erase
  importTargets : importTargets (ofComponents true cs) = Node.importTargets (ofComponents true cs')

end Node

open Node (Agree)

namespace Component.Open

/-- The sheet up to an open block, with the block closed and what comes
behind. -/
def fill (o : Open) (body : List Component) (closer : List Char) (after : List Component) :
    List Component := o.before.reverse ++ .block o.opener body closer :: after

/-- **The block of a style rule**: it is read as declarations. -/
def IsStyle (o : Open) : Prop := ∃ selectors, Node.Reads true o.before.reverse o.opener
  fun body => [.style ⟨selectors, Declaration.ofBody body⟩]

/-- **The block of a grouping rule**: it is read as a sheet. -/
def IsGroup (o : Open) : Prop := ∃ name prelude, Node.Reads true o.before.reverse o.opener
  fun body => [.atRule name prelude (some (Node.ofComponents true body))]

/-- **The block of a rule that is ignored**: what stands in it makes no
difference. -/
def IsIgnored (o : Open) : Prop := Node.Ignores true o.before.reverse o.opener

variable {o : Open} {body body' : List Component}

/-- More comments in the block of a style rule change nothing. -/
theorem IsStyle.agree (h : o.IsStyle) (hbody : Commented body body') (closer : List Char)
    (after : List Component) : Agree (o.fill body closer after) (o.fill body' closer after) := by
  obtain ⟨selectors, ns, hread⟩ := h
  have hrule : (⟨selectors, Declaration.ofBody body⟩ : StyleRule).erase
      = (⟨selectors, Declaration.ofBody body'⟩ : StyleRule).erase :=
    congrArg (StyleRule.mk selectors) (Declaration.erase_ofBody hbody)
  unfold fill
  constructor
  · simp only [hread, Node.rules_append, Node.rules, Node.rulesOf, List.map_append, List.map_cons,
      hrule]
  · simp only [hread, Node.importTargets_append, Node.importTargets, Node.targetsOf]

/-- In the block of a grouping rule, sheets that agree may be exchanged. -/
theorem IsGroup.agree (h : o.IsGroup) (hbody : Agree body body') (closer : List Char)
    (after : List Component) : Agree (o.fill body closer after) (o.fill body' closer after) := by
  obtain ⟨name, prelude, ns, hread⟩ := h
  unfold fill
  constructor
  · simp only [hread, Node.rules_append, Node.rules, Node.rulesOf, Node.rulesInside,
      List.map_append, hbody.rules]
  · simp only [hread, Node.importTargets_append, Node.importTargets, Node.targetsOf,
      Node.targetsInside, hbody.importTargets]

/-- In a block that is ignored, anything may be exchanged for anything. -/
theorem IsIgnored.agree (h : o.IsIgnored) (body body' : List Component) (closer : List Char)
    (after : List Component) : Agree (o.fill body closer after) (o.fill body' closer after) := by
  have heq : Node.ofComponents true (o.fill body closer after)
      = Node.ofComponents true (o.fill body' closer after) := h body body' closer closer after
  constructor <;> rw [heq]

end Component.Open

/-! ## A comment in declarations

The argument goes from the inside to the outside. The comment comes between
the components of the innermost block, and each block around it is closed at
the bracket at which it was closed before. -/

/-- **A place in declarations**: the block of a style rule is open, or that
of a rule that is ignored, with grouping blocks around it and nothing but
functions inside of it. -/
def InDeclarations : List Component.Open → Prop
  | [] => False
  | o :: outer => (∃ name, o.opener.token = .function name) ∧ InDeclarations outer
    ∨ (o.IsStyle ∨ o.IsIgnored) ∧ ∀ g ∈ outer, g.IsGroup

/-- **No other block in curly brackets is left out**: in grouping blocks,
functions in such a block are a place in declarations, unless the block is
that of a grouping rule itself. For there are no more kinds of blocks than
these (`Node.blockKind_of_curly`). -/
theorem inDeclarations_of_curly {fs outer : List Component.Open} {o : Component.Open}
    (hfs : ∀ f ∈ fs, ∃ name, f.opener.token = .function name)
    (hcurly : o.opener.token = .opening .curly) (hnot : ¬o.IsGroup)
    (houter : ∀ g ∈ outer, g.IsGroup) : InDeclarations (fs ++ o :: outer) := by
  induction fs with
  | nil =>
    have hrule : o.IsStyle ∨ o.IsIgnored := by
      cases Node.blockKind_of_curly hcurly true o.before.reverse with
      | style selectors h => exact Or.inl ⟨selectors, h⟩
      | group name prelude h => exact absurd ⟨name, prelude, h⟩ hnot
      | ignored h => exact Or.inr h
    exact Or.inr ⟨hrule, houter⟩
  | cons f fs ih =>
    obtain ⟨hf, hfs⟩ := List.forall_mem_cons.mp hfs
    exact Or.inl ⟨hf, ih hfs⟩

/-- Sheets agree when they agree up to a place in grouping blocks, whatever
comes behind. -/
theorem agree_nest_groups {groups : List Component.Open} (hgroups : ∀ g ∈ groups, g.IsGroup)
    {level level' : List Component} (rs : List Lexeme)
    (h : ∀ after, Agree (level.reverse ++ after) (level'.reverse ++ after)) :
    Agree (nest level groups rs) (nest level' groups rs) := by
  induction groups generalizing level level' rs with
  | nil =>
    have hflat : ∀ level : List Component,
        nest level [] rs = level.reverse ++ nest [] [] rs :=
      fun level => (Component.nest_append level rs).1 []
    rw [hflat, hflat level']
    exact h _
  | cons g groups ih =>
    obtain ⟨hg, hgroups⟩ := List.forall_mem_cons.mp hgroups
    obtain ⟨inner, closer, rest, -, -, heq⟩ := Component.exists_nest_eq g.opener rs
    rw [heq level g.before groups, heq level' g.before groups]
    refine ih hgroups rest fun after => ?_
    rw [List.reverse_cons, List.reverse_cons, List.append_assoc, List.append_assoc]
    exact hg.agree (h inner) closer after

section Block

variable {o : Component.Open} {outer : List Component.Open} {body body' : List Component}

/-- Sheets agree when the block of a style rule has more comments, or the
block of a rule that is ignored. -/
theorem agree_nest_rule (hrule : o.IsStyle ∨ o.IsIgnored) (hgroups : ∀ g ∈ outer, g.IsGroup)
    (hbody : Commented body body') (closer : List Char) (rs : List Lexeme) :
    Agree (nest (.block o.opener body closer :: o.before) outer rs)
      (nest (.block o.opener body' closer :: o.before) outer rs) := by
  refine agree_nest_groups hgroups rs fun after => ?_
  rw [List.reverse_cons, List.reverse_cons, List.append_assoc, List.append_assoc]
  rcases hrule with hstyle | hignored
  · exact hstyle.agree hbody closer after
  · exact hignored.agree body body' closer after

/-- Sheets agree when a block in declarations has more comments. -/
theorem agree_nest_block (hplace : InDeclarations (o :: outer)) (hbody : Commented body body')
    (closer : List Char) (rs : List Lexeme) :
    Agree (nest (.block o.opener body closer :: o.before) outer rs)
      (nest (.block o.opener body' closer :: o.before) outer rs) := by
  induction outer generalizing o body body' closer rs with
  | nil =>
    obtain ⟨hrule, hgroups⟩ := hplace.resolve_left fun h => h.2
    exact agree_nest_rule hrule hgroups hbody closer rs
  | cons p outer ih =>
    rcases hplace with ⟨⟨name, hname⟩, houter⟩ | ⟨hrule, hgroups⟩
    · -- the block is a function, and a component of the block around it
      obtain ⟨inner, closer', rest, -, -, heq⟩ := Component.exists_nest_eq p.opener rs
      rw [heq _ p.before outer, heq _ p.before outer]
      refine ih houter ?_ closer' rest
      rw [List.reverse_cons, List.reverse_cons, List.append_assoc, List.append_assoc]
      exact Commented.append_left (.function o.opener closer hname hbody (.refl inner)) _
    · exact agree_nest_rule hrule hgroups hbody closer rs

end Block

/-- **A comment in declarations changes no rule and no import**, unless a
number comes next. For the number it is different, since its text starts
where the comment does. -/
theorem agree_of_comment {ls rs : List Lexeme} {c : Lexeme} (hc : c.token = .comment)
    (hplace : InDeclarations (openAfter ls))
    (hnext : ∀ l ∈ (rs.dropWhile fun l => l.token = .comment).head?, l.token.isNumeric = false) :
    Agree (Component.ofLexemes (ls ++ rs)) (Component.ofLexemes (ls ++ c :: rs)) := by
  rw [Component.ofLexemes, Component.ofLexemes, Component.nest_append_lexemes,
    Component.nest_append_lexemes]
  unfold openAfter at hplace
  cases hopen : (ls.foldl Component.read ([], [])).2 with
  | nil =>
    rw [hopen] at hplace
    exact hplace.elim
  | cons o outer =>
    rw [hopen] at hplace
    obtain ⟨inner, closer, rest, -, hstarts, heq⟩ := Component.exists_nest_eq o.opener rs
    -- the comment is one more component of the innermost open block
    have hcomment : ∀ level, nest level (o :: outer) (c :: rs)
        = nest (.leaf c :: level) (o :: outer) rs := by
      intro level
      have hcloses : ¬Component.closes c.token o.opener = true := by
        rw [hc]
        exact Bool.false_ne_true
      have hopens : ¬c.token.opens.isSome = true := by
        rw [hc]
        exact Bool.false_ne_true
      rw [nest, if_neg hcloses, if_neg hopens]
    rw [hcomment, heq _ o.before outer, heq _ o.before outer, List.reverse_cons, List.append_assoc]
    refine agree_nest_block hplace (Commented.append_left (.comment c hc ?_ (.refl inner)) _)
      closer rest
    intro d hd
    obtain ⟨l, hl, htoken⟩ := hstarts d hd
    rw [htoken]
    exact hnext l hl

end Stylebook.Css
