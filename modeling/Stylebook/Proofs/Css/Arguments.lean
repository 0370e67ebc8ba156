import Stylebook.Proofs.Css.Balanced
import Stylebook.Proofs.Css.Joined

/-!
# Functions and their marks

A function is *simple* when there are no comments, strings and addresses in
it, no blocks but other functions, and nothing is written with an escape
(`IsSimple`). Its marks (`Component.marks`) are its lexemes, with a gap
where white space stands or a token without a kind: what counts for nothing
in the text of a function.

The marks were read one in front of the other, but for the gaps
(`IsSimple.isChain_marks`). And without the gaps they are read as the values
of the function, white space and tokens without a kind left out at every
depth (`IsSimple.ofComponents_marks`).
-/

namespace Stylebook.Css

open Component (lexemesAll closing ofLexemes)

variable {cs : List Component}

/-! ## Simple functions

What is left out are the tokens whose text is not what was read. A comment
is dropped, a string loses its quotes and an address its name, so two
functions that differ in these may have one text. Everything else is written
as it was read. -/

/-- A token that stands for an argument, or for none. Strings and addresses
have a text of their own, and a comment is no token. -/
def Token.isSimple : Token → Bool
  | .comment | .str _ | .url _ => false
  | _ => true

/-- **Simple components**: tokens and functions without escapes, comments,
strings and addresses. -/
inductive IsSimple : List Component → Prop
  | nil : IsSimple []
  | leaf {cs : List Component} (l : Lexeme) (hl : l.token.isSimple = true) (hx : Unescaped l.text)
    (h : IsSimple cs) : IsSimple (.leaf l :: cs)
  | function {body cs : List Component} {closer : List Char} {name : String} (o : Lexeme)
    (ho : o.token = .function name) (hurl : Text.lower name ≠ "url") (hx : Unescaped o.text)
    (hcloser : Unescaped closer) (hbody : IsSimple body) (h : IsSimple cs) :
    IsSimple (.block o body closer :: cs)

mutual
/-- Whether one component is simple. -/
def isSimpleOne : Component → Bool
  | .leaf l => l.token.isSimple && decide (Unescaped l.text)
  | .block o body closer =>
    o.token.opens.isSome && o.token.isKept && decide (Unescaped o.text)
      && decide (Unescaped closer) && isSimple body

/-- Whether components are simple. -/
def isSimple : List Component → Bool
  | [] => true
  | c :: cs => isSimpleOne c && isSimple cs
end

/-- A token that opens a block and stands in the text of a function is the
name of another one. -/
theorem Token.isSome_opens_and_isKept_iff (t : Token) :
    (t.opens.isSome && t.isKept) = true ↔ ∃ name, t = .function name ∧ Text.lower name ≠ "url" := by
  constructor
  · intro h
    cases t with
    | function name => exact ⟨name, rfl, of_decide_eq_true h⟩
    | _ => cases h
  · rintro ⟨name, rfl, hurl⟩
    exact decide_eq_true hurl

mutual
/-- Whether one component is simple can be decided. -/
theorem isSimpleOne_iff : (c : Component) → (isSimpleOne c = true ↔ IsSimple [c])
  | .leaf l => by
    rw [isSimpleOne, Bool.and_eq_true, decide_eq_true_eq]
    exact ⟨fun h => .leaf l h.1 h.2 .nil, fun h => by cases h with | leaf l hl hx => exact ⟨hl, hx⟩⟩
  | .block o body closer => by
    rw [isSimpleOne, Bool.and_eq_true, Bool.and_eq_true, Bool.and_eq_true,
      Token.isSome_opens_and_isKept_iff, isSimple_iff body, decide_eq_true_eq, decide_eq_true_eq]
    constructor
    · rintro ⟨⟨⟨⟨name, ho, hurl⟩, hx⟩, hcloser⟩, hbody⟩
      exact .function o ho hurl hx hcloser hbody .nil
    · intro h
      cases h with
      | function o ho hurl hx hcloser hbody => exact ⟨⟨⟨⟨_, ho, hurl⟩, hx⟩, hcloser⟩, hbody⟩

/-- **Whether components are simple can be decided.** -/
theorem isSimple_iff : (cs : List Component) → (isSimple cs = true ↔ IsSimple cs)
  | [] => ⟨fun _ => .nil, fun _ => rfl⟩
  | c :: cs => by
    rw [isSimple, Bool.and_eq_true, isSimpleOne_iff c, isSimple_iff cs]
    constructor
    · rintro ⟨hc, hcs⟩
      cases hc with
      | leaf l hl hx => exact .leaf l hl hx hcs
      | function o ho hurl hx hcloser hbody => exact .function o ho hurl hx hcloser hbody hcs
    · intro h
      cases h with
      | leaf l hl hx h => exact ⟨.leaf l hl hx .nil, h⟩
      | function o ho hurl hx hcloser hbody h =>
        exact ⟨.function o ho hurl hx hcloser hbody .nil, h⟩
end

instance : DecidablePred IsSimple := fun cs => decidable_of_iff _ (isSimple_iff cs)

/-! ## Marks

A list with gaps says two things at once: which lexemes are neighbours in
the text of the function, and which of them were neighbours in the source.
The first is asked when the text is read again, the second is what is known. -/

mutual
/-- **The marks of a component**: its lexemes, with a gap where the text of
a function has nothing. A function is always closed. -/
def Component.marks : Component → List (Option Lexeme)
  | .leaf l => [if l.token.isKept && l.token.isFlat then some l else none]
  | .block o body _ => some o :: marksAll body ++ [some Bracket.paren.closer]

/-- **The marks of a list of components.** -/
def Component.marksAll : List Component → List (Option Lexeme)
  | [] => []
  | c :: cs => marks c ++ marksAll cs
end

open Component (marks marksAll)

/-- A lexeme with a mark stands in the text of a function. -/
def IsMarkOf (x : Option Lexeme) (l : Lexeme) : Prop :=
  ∀ k ∈ x, k = l ∧ k.token.isKept = true ∧ Unescaped k.text

/-- The parenthesis that closes a function is one, written or missing. -/
theorem closing_eq {o : Lexeme} {name : String} {closer : List Char}
    (ho : o.token = .function name) (hcloser : Unescaped closer)
    (hread : ∃ w, (closing o closer).IsReadAt w) : closing o closer = Bracket.paren.closer := by
  obtain ⟨w, hread⟩ := hread
  unfold closing at hread ⊢
  rw [ho] at hread ⊢
  dsimp only at hread ⊢
  split
  · rfl
  · next hne =>
    rw [if_neg hne] at hread
    exact congrArg (Lexeme.mk (.closing .paren)) (hread.isSpelled hcloser rfl)

/-- **Each mark stands for a lexeme**, in their order. -/
theorem IsSimple.forall₂_marks (h : IsSimple cs) (hread : ∀ l ∈ lexemesAll cs, ∃ w, l.IsReadAt w) :
    List.Forall₂ IsMarkOf (marksAll cs) (lexemesAll cs) := by
  induction h with
  | nil => exact .nil
  | leaf l hl hx _ ih =>
    refine .cons ?_ (ih fun k hk => hread k (List.mem_append_right _ hk))
    intro k hk
    split at hk
    · next hkept =>
      obtain rfl := Option.some.inj hk
      exact ⟨rfl, (Bool.and_eq_true_iff.mp hkept).1, hx⟩
    · cases hk
  | @function body cs closer name o ho hurl hx hcloser _ _ ihbody ih =>
    rw [lexemesAll, Component.lexemes] at hread
    have hbody := ihbody fun k hk =>
      hread k (List.mem_append_left _ (List.mem_append_left _ (List.mem_cons_of_mem o hk)))
    have hcs := ih fun k hk => hread k (List.mem_append_right _ hk)
    have hopener : IsMarkOf (some o) o := by
      intro k hk
      obtain rfl := Option.some.inj hk
      refine ⟨rfl, ?_, hx⟩
      rw [ho]
      exact decide_eq_true hurl
    have hclosing : IsMarkOf (some Bracket.paren.closer) (closing o closer) := by
      rw [closing_eq ho hcloser (hread _ (List.mem_append_left _
        (List.mem_append_right _ List.mem_cons_self)))]
      intro k hk
      obtain rfl := Option.some.inj hk
      exact ⟨rfl, rfl, by decide⟩
    exact List.rel_append (List.rel_append (.cons hopener hbody) (.cons hclosing .nil)) hcs

/-- **What has marks was read in front of what has the next mark**, and it
is kept. -/
theorem isChain_of_forall₂ {ms : List (Option Lexeme)} {ls : List Lexeme}
    (h : List.Forall₂ IsMarkOf ms ls) (hchain : ls.IsChain Lexeme.Precedes)
    (hread : ∀ l ∈ ls, ∃ w, l.IsReadAt w) :
    ms.IsChain Precede ∧ ∀ l, some l ∈ ms → l.IsKept := by
  induction h with
  | nil => exact ⟨.nil, fun l hl => absurd hl List.not_mem_nil⟩
  | @cons x l ms ls hx hrest ih =>
    obtain ⟨hnext, hchain⟩ := List.isChain_cons.mp hchain
    obtain ⟨hl, hread⟩ := List.forall_mem_cons.mp hread
    obtain ⟨hms, hkept⟩ := ih hchain hread
    refine ⟨List.isChain_cons.mpr ⟨fun y hy k hk m hm => ?_, hms⟩, fun k hk => ?_⟩
    · cases hrest with
      | nil => cases hy
      | cons hy' _ =>
        obtain rfl := Option.some.inj hy
        obtain rfl := (hx k hk).1
        obtain rfl := (hy' m hm).1
        exact hnext _ rfl
    · rcases List.mem_cons.mp hk with rfl | hk
      · obtain ⟨rfl, htoken, hunescaped⟩ := hx k rfl
        exact ⟨htoken, hunescaped, hl⟩
      · exact hkept k hk

/-- **The marks of a block in a text** were read one in front of the other,
but for the gaps. -/
theorem IsSimple.isChain_marks {b : Component} {text : List Char}
    (hb : b.IsIn (Component.ofText text)) (h : IsSimple [b]) :
    b.marks.IsChain Precede ∧ ∀ l, some l ∈ b.marks → l.IsKept := by
  obtain ⟨hchain, hread⟩ := hb.isChain_lexemes
  have hsame := h.forall₂_marks
  rw [lexemesAll, lexemesAll, List.append_nil, marksAll, marksAll, List.append_nil] at hsame
  exact isChain_of_forall₂ (hsame hread) hchain hread

/-! ## Values -/

mutual
/-- **A value without what has no text in a function**: white space and
tokens without a kind are left out, at every depth. -/
def Value.compact : Value → List Value
  | .blank | .other _ => []
  | .function n args => [.function n (compactAll args)]
  | v => [v]

/-- **Values without what has no text in a function.** -/
def Value.compactAll : List Value → List Value
  | [] => []
  | v :: vs => compact v ++ compactAll vs
end

/-- The value of a simple token stays if the token has a mark. -/
theorem Value.compact_ofToken {t : Token} (h : t.isSimple = true) (text : List Char) :
    compact (ofToken text t) = if t.isKept && t.isFlat then [ofToken text t] else [] := by
  cases t with
  | comment | str _ | url _ => cases h
  | closing b => cases b <;> rfl
  | function name => simp [ofToken, compact, Token.isFlat]
  | _ => rfl

/-- A token without blocks is a value by itself. -/
theorem Value.ofComponents_leaf {l : Lexeme} (h : l.token.isSimple = true) (cs : List Component) :
    ofComponents [] (.leaf l :: cs) = ofToken l.text l.token :: ofComponents [] cs := by
  obtain ⟨t, text⟩ := l
  cases t <;> first | rfl | cases h

/-- A function is one value, whose arguments are the values of its block. -/
theorem Value.ofComponents_function {o : Lexeme} {name : String} (ho : o.token = .function name)
    (hurl : Text.lower name ≠ "url") (body : List Component) (closer : List Char)
    (cs : List Component) : ofComponents [] (.block o body closer :: cs)
      = .function name (ofComponents [] body) :: ofComponents [] cs := by
  have hsame : Text.sameIgnoringCase name "url" = false := by
    have hlower : Text.lower "url" = "url" := by decide
    rw [Text.sameIgnoringCase, hlower]
    exact beq_false_of_ne hurl
  rw [ofComponents, ofComponent, ho]
  simp only [ofFunction, hsame]
  rfl

/-- **The marks of simple components are read as their values**, white space
and tokens without a kind left out. -/
theorem IsSimple.ofComponents_marks (h : IsSimple cs) : Balanced (marksAll cs).reduceOption
    ∧ Value.ofComponents [] (ofLexemes (marksAll cs).reduceOption)
      = Value.compactAll (Value.ofComponents [] cs) := by
  induction h with
  | nil => exact ⟨.nil, rfl⟩
  | @leaf cs l hl hx _ ih =>
    obtain ⟨hbalanced, hvalues⟩ := ih
    rw [marksAll, marks, List.singleton_append, Value.ofComponents_leaf hl, Value.compactAll,
      Value.compact_ofToken hl]
    by_cases hkept : (l.token.isKept && l.token.isFlat) = true
    · have hflat := (Bool.and_eq_true_iff.mp hkept).2
      rw [if_pos hkept, if_pos hkept, List.reduceOption_cons_of_some]
      refine ⟨.flat l hflat hbalanced, ?_⟩
      have hone : ofLexemes [l] = [.leaf l] :=
        Component.ofLexemes_of_foldl_read (Component.read_of_flat hflat [] [])
      rw [← List.singleton_append, (Balanced.flat l hflat .nil).ofLexemes_append, hone,
        List.singleton_append, Value.ofComponents_leaf hl, hvalues, List.singleton_append]
    · rw [if_neg hkept, if_neg hkept, List.reduceOption_cons_of_none]
      exact ⟨hbalanced, hvalues⟩
  | @function body cs closer name o ho hurl hx hcloser _ _ ihbody ih =>
    obtain ⟨hbody, hinner⟩ := ihbody
    obtain ⟨hbalanced, hvalues⟩ := ih
    have hopens : o.token.opens = some .paren := by rw [ho]; rfl
    have hblock : Balanced (o :: ((marksAll body).reduceOption ++ [Bracket.paren.closer])) :=
      .block o Bracket.paren.closer hopens rfl hbody .nil
    rw [marksAll, marks, List.cons_append, List.cons_append, List.reduceOption_cons_of_some,
      List.reduceOption_append, List.reduceOption_append, List.reduceOption_cons_of_some,
      List.reduceOption_nil, ← List.cons_append]
    refine ⟨hblock.append hbalanced, ?_⟩
    rw [hblock.ofLexemes_append, hbody.ofLexemes_block hopens rfl, List.singleton_append,
      Value.ofComponents_function ho hurl, Value.ofComponents_function ho hurl, hinner, hvalues]
    rfl

/-! ## Functions that keep their arguments apart

Everything comes together here. The block of a function stands in a text, so
its lexemes were read one in front of the other. The gaps are closed by the
condition on pairs. What is left can be read, and it is read as the function
without its white space. -/

/-- **A function keeps its arguments apart** when it is simple and any two
tokens with nothing but a gap between them are read as they are side by
side. -/
structure Component.KeepsApart (b : Component) : Prop where
  simple : IsSimple [b]
  apart : ∀ p ∈ parted b.marks, KeepApart p

instance : DecidablePred Component.KeepsApart := fun b =>
  decidable_of_iff (IsSimple [b] ∧ ∀ p ∈ parted b.marks, KeepApart p)
    ⟨fun h => ⟨h.1, h.2⟩, fun h => ⟨h.1, h.2⟩⟩

variable {b b' : Component} {n n' : String} {args args' : List Value}

/-- A function is closed by a parenthesis. -/
theorem IsSimple.getLast?_marks (h : IsSimple [b])
    (hvalue : Value.ofComponents [] [b] = [.function n args]) :
    b.marks.reduceOption.getLast? = some Bracket.paren.closer := by
  cases h with
  | leaf l hl =>
    rw [Value.ofComponents_leaf hl] at hvalue
    obtain ⟨t, text⟩ := l
    cases t <;> cases hvalue
  | function o =>
    rw [marks, List.reduceOption_append]
    exact List.getLast?_concat

/-- **The text without gaps is read as the function**, if this keeps its
arguments apart. -/
theorem Component.KeepsApart.readsOn {text : List Char} (h : b.KeepsApart)
    (hb : b.IsIn (Component.ofText text))
    (hvalue : Value.ofComponents [] [b] = [.function n args]) :
    ReadsOn b.marks.reduceOption ∧ ∀ l ∈ b.marks.reduceOption, l.IsKept := by
  obtain ⟨hchain, hkept⟩ := h.simple.isChain_marks hb
  refine ⟨readsOn_reduceOption hchain h.apart hkept fun l hl => ?_,
    fun l hl => hkept l (List.reduceOption_mem_iff.mp hl)⟩
  rw [h.simple.getLast?_marks hvalue] at hl
  exact (Option.some.inj hl).symm

/-- **Functions that keep their arguments apart can be told from their texts
without gaps**: they have one name, and the same arguments but for white
space and tokens without a kind. -/
theorem Component.KeepsApart.eq_of_text {text text' : List Char} (h : b.KeepsApart)
    (h' : b'.KeepsApart) (hb : b.IsIn (Component.ofText text))
    (hb' : b'.IsIn (Component.ofText text'))
    (hvalue : Value.ofComponents [] [b] = [.function n args])
    (hvalue' : Value.ofComponents [] [b'] = [.function n' args'])
    (heq : b.marks.reduceOption.flatMap Lexeme.text = b'.marks.reduceOption.flatMap Lexeme.text) :
    n = n' ∧ Value.compactAll args = Value.compactAll args' := by
  obtain ⟨hreads, hkept⟩ := h.readsOn hb hvalue
  obtain ⟨hreads', hkept'⟩ := h'.readsOn hb' hvalue'
  have hmarks := hreads.eq_of_text hreads' hkept hkept' heq
  have hone : ∀ c : Component, marksAll [c] = c.marks := fun c => List.append_nil _
  obtain ⟨-, hread⟩ := h.simple.ofComponents_marks
  obtain ⟨-, hread'⟩ := h'.simple.ofComponents_marks
  rw [hone, hvalue] at hread
  rw [hone, hvalue', ← hmarks, hread] at hread'
  injection hread' with hfunction
  exact Value.function.inj hfunction

end Stylebook.Css
