import Stylebook.Proofs.Css.Reading
import Stylebook.Proofs.Import.Call
import Stylebook.Proofs.Import.Replacement

/-!
# Stylesheets with their imports at the head

Most stylesheets name their imports first: a sequence of import statements,
and then a body without any. `Headed` is such a stylesheet, cut into its
statements and its body. Two things read its text. The parser reports the
targets of its statements (`Headed.importTargets_source`), and replacing
works on the text (`Headed.foldl_replaceAll`): one statement after the other
is replaced, and nothing else.

Both need the targets to be *clear*. A NUL in a target is read as another
character, and the quote behind a target that ends in the keyword and white
space opens what looks like another statement.
-/

namespace Stylebook.Import

open Text (isBlank)
open Css (isSpace)

/-- The white space of the parser is white space for replacing. The converse
does not hold: there are other blanks that only replacing knows. -/
theorem isBlank_of_isSpace {c : Char} (h : isSpace c = true) : isBlank c = true := by
  simp only [isSpace, Bool.or_eq_true, decide_eq_true_eq] at h
  rcases h with (((h | h) | h) | h) | h <;> subst h <;> decide

/-! ## Statements

A statement is given by its parts, with the conditions under which it can be
read back from its text. White space in it is that of the parser, since
otherwise the parser would find no statement. -/

/-- What the target of a statement is made of. -/
def IsFit (t : String) : Prop :=
  ∀ c ∈ t.toList, ¬IsQuote c ∧ c ≠ '\\' ∧ Css.isLineBreak c = false

instance (t : String) : Decidable (IsFit t) :=
  List.decidableBAll (fun c => ¬IsQuote c ∧ c ≠ '\\' ∧ Css.isLineBreak c = false) t.toList

/-- **An import statement**: white space, the keyword, white space, the
target in quotes, white space and a semicolon. -/
@[ext] structure Statement where
  lead : List Char
  gap : List Char
  quote : Char
  target : String
  tail : List Char
  lead_space : ∀ c ∈ lead, isSpace c = true
  gap_space : ∀ c ∈ gap, isSpace c = true
  gap_ne_nil : gap ≠ []
  isQuote : IsQuote quote
  target_fit : IsFit target
  tail_space : ∀ c ∈ tail, isSpace c = true

namespace Statement

/-- The statement as it is written. -/
def text (s : Statement) : List Char :=
  s.lead ++ (keyword ++ (s.gap ++ s.quote :: (s.target.toList ++ s.quote :: (s.tail ++ [';']))))

/-- The statement of a target in its usual spelling. -/
def usual (t : String) (h : IsFit t) : Statement where
  lead := []
  gap := [' ']
  quote := '"'
  target := t
  tail := []
  lead_space := by simp
  gap_space := List.forall_mem_singleton.mpr rfl
  gap_ne_nil := by decide
  isQuote := Or.inl rfl
  target_fit := h
  tail_space := by simp

/-- **A target that both readers read alike.** -/
structure IsClear (s : Statement) : Prop where
  nul : '\x00' ∉ s.target.toList
  open_end : ∀ gap, gap ≠ [] → (∀ c ∈ gap, isBlank c = true) →
    ¬keyword ++ gap <:+ s.target.toList

/-- A target without the first character of the keyword does not open a
statement. -/
theorem isClear_of_notMem {s : Statement} (hnul : '\x00' ∉ s.target.toList)
    (hat : '@' ∉ s.target.toList) : s.IsClear :=
  ⟨hnul, fun _ _ _ hsuffix => hat (hsuffix.subset (by simp [keyword]))⟩

variable (s : Statement)

/-- A quote does not stand in the target. -/
theorem quote_notMem_target {q : Char} (hq : IsQuote q) : q ∉ s.target.toList :=
  fun hmem => (s.target_fit q hmem).1 hq

/-- The gap behind the keyword is white space. -/
theorem gap_blank : ∀ c ∈ s.gap, isBlank c = true :=
  fun c hc => isBlank_of_isSpace (s.gap_space c hc)

/-- What stands before the semicolon is white space. -/
theorem tail_blank : ∀ c ∈ s.tail, isBlank c = true :=
  fun c hc => isBlank_of_isSpace (s.tail_space c hc)

variable {s} in
/-- **A text is cut into statements in one way.** -/
theorem text_append_inj {s' : Statement} {rest rest' : List Char}
    (h : s.text ++ rest = s'.text ++ rest') : s = s' ∧ rest = rest' := by
  have hspace : ∀ {cs : List Char}, (∀ c ∈ cs, isSpace c = true) →
      ∀ c ∈ cs, ¬isSpace c = false := fun hcs c hc => by simp [hcs c hc]
  have hquote : ∀ {q : Char}, IsQuote q → isSpace q = false := by
    rintro q (rfl | rfl) <;> decide
  simp only [text, keyword, List.append_assoc, List.cons_append, List.nil_append] at h
  obtain ⟨hlead, -, h⟩ := Text.append_cons_inj (hspace s.lead_space) (hspace s'.lead_space)
    (by decide) (by decide) h
  simp only [List.cons.injEq, true_and] at h
  obtain ⟨hgap, hq, h⟩ := Text.append_cons_inj (hspace s.gap_space) (hspace s'.gap_space)
    (hquote s.isQuote) (hquote s'.isQuote) h
  obtain ⟨htarget, -, h⟩ := Text.append_cons_inj (fun c hc => (s.target_fit c hc).1)
    (fun c hc => (s'.target_fit c hc).1) s.isQuote s'.isQuote h
  obtain ⟨htail, -, h⟩ := Text.append_cons_inj (hspace s.tail_space) (hspace s'.tail_space)
    (by decide) (by decide) h
  exact ⟨Statement.ext hlead hgap hq (String.toList_inj.mp htarget) htail, h⟩

/-- A statement with a text behind it, part by part. -/
theorem text_append (rest : List Char) : s.text ++ rest = s.lead ++ (keyword ++ (s.gap ++ s.quote ::
    (s.target.toList ++ s.quote :: (s.tail ++ ';' :: rest)))) := by simp [text]

/-- The keyword stands in it. -/
theorem keyword_infix_text (rest : List Char) : keyword <:+: s.text ++ rest := by
  rw [text, List.append_assoc, List.append_assoc]
  exact (List.prefix_append _ _).isInfix.trans (List.suffix_append _ _).isInfix

/-- What replacing finds where the statement stands: its own target only. -/
theorem afterStatement?_eq {t : String} (ht : ∀ c ∈ t.toList, ¬IsQuote c) (rest : List Char) :
    afterStatement? t.toList (keyword ++ (s.gap ++ s.quote ::
        (s.target.toList ++ s.quote :: (s.tail ++ ';' :: rest))))
      = if s.target = t then some rest else none := by
  by_cases heq : s.target = t
  · rw [if_pos heq, afterStatement?_eq_some]
    exact ⟨s.gap, s.quote, s.tail, s.gap_ne_nil, s.gap_blank, s.isQuote, s.tail_blank, by rw [heq]⟩
  · rw [if_neg heq]
    refine Option.eq_none_iff_forall_ne_some.mpr fun rest' hrest' => heq ?_
    obtain ⟨gap, quote, tail, -, hgap, hquote, -, h⟩ := afterStatement?_eq_some.mp hrest'
    rw [List.append_cancel_left_eq] at h
    obtain ⟨-, rfl, h⟩ := Text.append_cons_inj (p := fun c => isBlank c = false)
      (fun c hc => by simp [s.gap_blank c hc]) (fun c hc => by simp [hgap c hc])
      s.isQuote.isBlank hquote.isBlank h
    obtain ⟨htarget, -, -⟩ := Text.append_cons_inj (p := IsQuote)
      (fun c hc => (s.target_fit c hc).1) ht s.isQuote s.isQuote h
    exact String.toList_inj.mp htarget

/-- Behind its first character, a statement has the keyword in its target
only. -/
theorem suffix_target_of_head? {v : List Char} (hat : v.head? = some '@')
    (hv : v <:+ (['i', 'm', 'p', 'o', 'r', 't'] ++ (s.gap ++ [s.quote]))
      ++ (s.target.toList ++ s.quote :: s.tail)) :
    ∃ u, u <:+ s.target.toList ∧ v = u ++ s.quote :: s.tail := by
  have hspaces : ∀ {cs : List Char}, (∀ c ∈ cs, isBlank c = true) → '@' ∉ cs :=
    fun hcs hmem => absurd (hcs _ hmem) (by decide)
  have hquoteat : '@' ≠ s.quote := by
    rcases s.isQuote with hq | hq <;> rw [hq] <;> decide
  have hfront : '@' ∉ ['i', 'm', 'p', 'o', 'r', 't'] ++ (s.gap ++ [s.quote]) := by
    simp [hspaces s.gap_blank, hquoteat]
  have hback : '@' ∉ s.quote :: s.tail := by simp [hspaces s.tail_blank, hquoteat]
  rcases Text.suffix_append_cases hv with hv | ⟨u, hu, hsuffix, rfl⟩
  · rcases Text.suffix_append_cases hv with hv | ⟨u, -, hsuffix, rfl⟩
    · exact absurd (hv.subset (List.mem_of_mem_head? hat)) hback
    · exact ⟨u, hsuffix, rfl⟩
  · obtain ⟨c, u, rfl⟩ := List.exists_cons_of_ne_nil hu
    cases hat
    exact absurd (hsuffix.subset List.mem_cons_self) hfront

/-- Behind its first character, no other statement starts in a statement. -/
theorem afterStatement?_inside (hclear : s.IsClear) (t rest : List Char) {v : List Char}
    (hv : v <:+ (['i', 'm', 'p', 'o', 'r', 't'] ++ (s.gap ++ [s.quote]))
      ++ (s.target.toList ++ s.quote :: s.tail)) : afterStatement? t (v ++ ';' :: rest) = none := by
  refine Option.eq_none_iff_forall_ne_some.mpr fun rest' hrest' => ?_
  obtain ⟨gap, quote, tail, hne, hgap, hquote, -, h⟩ := afterStatement?_eq_some.mp hrest'
  have hat : v.head? = some '@' := by
    cases v with
    | nil => cases h
    | cons c v => rw [(List.cons.inj h).1]; rfl
  -- the keyword stands in the target, and the quote that it opens is the one behind the target
  obtain ⟨u, hu, rfl⟩ := s.suffix_target_of_head? hat hv
  rw [List.append_assoc, List.cons_append] at h
  have hprefix : keyword <+: u ++ s.quote :: (s.tail ++ ';' :: rest) := by
    rw [h]
    exact List.prefix_append _ _
  obtain ⟨w, rfl⟩ := Text.prefix_of_notMem hprefix s.isQuote.notMem_keyword
  rw [List.append_assoc, List.append_cancel_left_eq] at h
  have hplain : ∀ c ∈ w, ¬IsQuote c :=
    fun c hc => (s.target_fit c (hu.subset (List.mem_append_right _ hc))).1
  have hgapplain : ∀ c ∈ gap, ¬IsQuote c :=
    fun c hc hq => absurd (hgap c hc) (by simp [hq.isBlank])
  obtain ⟨rfl, -, -⟩ := Text.append_cons_inj hplain hgapplain s.isQuote hquote h
  exact hclear.open_end w hne hgap hu

/-- **What replacing does to a statement**: one of the target makes room for
the replacement, and any other one stays. -/
theorem replaceFrom_text (hclear : s.IsClear) {t : String} (ht : ∀ c ∈ t.toList, ¬IsQuote c)
    (replacement rest : List Char) :
    replaceFrom t.toList replacement [] (s.text ++ rest)
      = (if s.target = t then replacement else s.text)
          ++ replaceFrom t.toList replacement [] rest := by
  have hlead : ∀ c ∈ s.lead, isBlank c = true := fun c hc => isBlank_of_isSpace (s.lead_space c hc)
  have hafter := s.afterStatement?_eq ht rest
  rw [s.text_append, replaceFrom_blanks replacement hlead]
  by_cases heq : s.target = t
  · rw [if_pos heq] at hafter ⊢
    exact replaceFrom_of_some replacement hafter
  · rw [if_neg heq] at hafter ⊢
    have hsplit : keyword ++ (s.gap ++ s.quote :: (s.target.toList ++ s.quote ::
        (s.tail ++ ';' :: rest)))
          = '@' :: (((['i', 'm', 'p', 'o', 'r', 't'] ++ (s.gap ++ [s.quote]))
            ++ (s.target.toList ++ s.quote :: s.tail)) ++ ';' :: rest) := by simp [keyword]
    have hhead := hafter
    rw [hsplit] at hhead
    rw [hsplit, replaceFrom_of_none replacement hhead, if_neg (by decide),
      replaceFrom_append replacement (fun v hv => s.afterStatement?_inside hclear _ rest hv)
        (by decide)]
    simp [text, keyword]

/-- The lexemes of a statement. -/
def lexemes : List Css.Lexeme :=
  (if s.lead = [] then [] else [⟨.blank, s.lead⟩]) ++
    ⟨.atKeyword "import", keyword⟩ :: ((⟨.blank, s.gap⟩ ::
      ⟨.str s.target, s.quote :: (s.target.toList ++ [s.quote])⟩ ::
        if s.tail = [] then [] else [⟨.blank, s.tail⟩]) ++ [⟨.semicolon, [';']⟩])

/-- **How a statement is read**, whatever stands behind it. -/
theorem lex_text (hclear : s.IsClear) (rest : List Char) :
    Css.lex (s.text ++ rest) = s.lexemes ++ Css.lex rest := by
  have hquote : isSpace s.quote = false := by
    rcases s.isQuote with h | h <;> rw [h] <;> decide
  have htail : Css.lex (s.tail ++ ';' :: rest)
      = (if s.tail = [] then [] else [⟨.blank, s.tail⟩])
          ++ ⟨.semicolon, [';']⟩ :: Css.lex rest := by
    rw [Css.lex_space s.tail_space (by simp [Css.EndsSpace, isSpace]), Css.lex_semicolon]
  have htarget := Css.lex_quoted (s.tail ++ ';' :: rest) s.isQuote
    (s.quote_notMem_target s.isQuote) (fun h => (s.target_fit _ h).2.1 rfl)
    (fun c hc => (s.target_fit c hc).2.2) hclear.nul
  rw [String.ofList_toList] at htarget
  have hgap : Css.lex (s.gap ++ s.quote :: (s.target.toList ++ s.quote :: (s.tail ++ ';' :: rest)))
      = ⟨.blank, s.gap⟩ :: Css.lex (s.quote :: (s.target.toList ++ s.quote ::
          (s.tail ++ ';' :: rest))) := by
    rw [Css.lex_space s.gap_space (by simp [Css.EndsSpace, hquote]), if_neg s.gap_ne_nil]
    rfl
  obtain ⟨c, gap, hcons⟩ := List.exists_cons_of_ne_nil s.gap_ne_nil
  have hkeyword : Css.lex (keyword ++ (s.gap ++ s.quote :: (s.target.toList ++ s.quote ::
      (s.tail ++ ';' :: rest)))) = ⟨.atKeyword "import", keyword⟩ ::
        Css.lex (s.gap ++ s.quote :: (s.target.toList ++ s.quote :: (s.tail ++ ';' :: rest))) := by
    have hc : isSpace c = true := s.gap_space c (hcons ▸ List.mem_cons_self)
    rw [hcons]
    have hword : ∀ c ∈ ['i', 'm', 'p', 'o', 'r', 't'], Css.isNameChar c = true :=
      List.all_eq_true.mp (by decide)
    exact Css.lex_atKeyword rfl hword hc
  rw [s.text_append, Css.lex_space s.lead_space (by simp [Css.EndsSpace, keyword, isSpace]),
    hkeyword, hgap, htarget, htail]
  simp [lexemes]

/-- No lexeme of a statement opens a block. -/
theorem opens_of_mem_lexemes {l : Css.Lexeme} (hl : l ∈ s.lexemes) : l.token.opens = none := by
  simp only [lexemes, List.mem_append, List.mem_cons] at hl
  rcases hl with hl | rfl | (rfl | rfl | hl) | rfl | hl
  · split at hl <;> simp_all [Css.Token.opens]
  · rfl
  · rfl
  · rfl
  · split at hl <;> simp_all [Css.Token.opens]
  · rfl
  · cases hl

/-- So its lexemes are components by themselves. -/
theorem ofText_text (hclear : s.IsClear) (rest : List Char) :
    Css.Component.ofText (s.text ++ rest)
      = s.lexemes.map .leaf ++ Css.Component.ofText rest := by
  rw [Css.Component.ofText, s.lex_text hclear,
    Css.Component.ofLexemes_append fun l hl => s.opens_of_mem_lexemes hl]
  rfl

/-- **The parser reports the target of a statement**, and then those behind
it. -/
theorem importTargets_text (hclear : s.IsClear) (rest : List Char) (first : Bool) :
    Css.Node.importTargets (Css.Node.ofComponents first (Css.Component.ofText (s.text ++ rest)))
      = s.target :: Css.Node.importTargets
          (Css.Node.ofComponents false (Css.Component.ofText rest)) := by
  rw [s.ofText_text hclear, lexemes, List.map_append, List.map_cons, List.map_append,
    List.map_singleton, List.append_assoc, List.cons_append, List.append_assoc,
    List.singleton_append, Css.Node.ofComponents_atRule first ?_ ?_ rfl (by decide)]
  · have hname : Text.lower "import" = "import" := by decide
    have htarget : Css.Node.importTarget? "import" (Css.Value.ofComponents []
        (List.map .leaf (⟨.blank, s.gap⟩ ::
          ⟨.str s.target, s.quote :: (s.target.toList ++ [s.quote])⟩ ::
            if s.tail = [] then [] else [⟨.blank, s.tail⟩]))) = some s.target := rfl
    rw [Css.Node.importTargets, Css.Node.targetsOf, hname, htarget]
    rfl
  · -- only white space stands before the keyword
    intro c hc
    obtain ⟨l, hl, rfl⟩ := List.mem_map.mp hc
    split at hl
    · cases hl
    · rw [List.mem_singleton.mp hl]
      rfl
  · -- and no semicolon and no block between the keyword and the end
    intro c hc
    obtain ⟨l, hl, rfl⟩ := List.mem_map.mp hc
    simp only [List.mem_cons] at hl
    rcases hl with rfl | rfl | hl
    · rfl
    · rfl
    · split at hl
      · cases hl
      · rw [List.mem_singleton.mp hl]
        rfl

end Statement

/-! ## Stylesheets

The statements at the head, and a body that neither of the two readers finds
an import in. Both conditions on the body are needed: the parser may find a
statement that replacing does not, and the other way round. -/

/-- **A stylesheet with its imports at the head**: import statements, and a
body in which the keyword does not stand and the parser reports no import,
and which is empty or ends in a closing bracket. -/
@[ext] structure Headed where
  statements : List Statement
  body : List Char
  body_sealed : Sealed body
  body_silent : (Css.Stylesheet.ofText (String.ofList body)).importTargets = []

namespace Headed

variable (h : Headed)

/-- The stylesheet as it is written. -/
def text : List Char := h.statements.flatMap Statement.text ++ h.body

/-- The source text of the stylesheet. -/
def source : String := String.ofList h.text

/-- The targets of its statements, in order. -/
def targets : List String := h.statements.map Statement.target

/-- A stylesheet of statements in their usual spelling. -/
def usual (targets : List String) (body : String) (htargets : ∀ t ∈ targets, IsFit t)
    (hbody : Sealed body.toList) (hsilent : (Css.Stylesheet.ofText body).importTargets = []) :
    Headed where
  statements := targets.attach.map fun t => Statement.usual t.1 (htargets t.1 t.2)
  body := body.toList
  body_sealed := hbody
  body_silent := by rw [String.ofList_toList]; exact hsilent

/-- **A stylesheet whose targets are clear.** -/
def IsClear : Prop := ∀ s ∈ h.statements, s.IsClear

variable {h}

theorem isClear_usual {targets : List String} {body : String} {htargets : ∀ t ∈ targets, IsFit t}
    {hbody : Sealed body.toList} {hsilent : (Css.Stylesheet.ofText body).importTargets = []}
    (hplain : ∀ t ∈ targets, '\x00' ∉ t.toList ∧ '@' ∉ t.toList) :
    (usual targets body htargets hbody hsilent).IsClear := by
  intro s hs
  obtain ⟨t, -, rfl⟩ := List.mem_map.mp hs
  exact Statement.isClear_of_notMem (hplain t.1 t.2).1 (hplain t.1 t.2).2

/-- Statements and a body without the keyword are cut in one way. -/
theorem statements_append_inj {ss ss' : List Statement} {body body' : List Char}
    (hbody : ¬keyword <:+: body) (hbody' : ¬keyword <:+: body')
    (heq : ss.flatMap Statement.text ++ body = ss'.flatMap Statement.text ++ body') :
    ss = ss' ∧ body = body' := by
  induction ss generalizing ss' with
  | nil =>
    cases ss' with
    | nil => exact ⟨rfl, heq⟩
    | cons s' ss' =>
      rw [List.flatMap_nil, List.nil_append, List.flatMap_cons, List.append_assoc] at heq
      exact absurd (heq ▸ s'.keyword_infix_text _) hbody
  | cons s ss ih =>
    cases ss' with
    | nil =>
      rw [List.flatMap_nil, List.nil_append, List.flatMap_cons, List.append_assoc] at heq
      exact absurd (heq ▸ s.keyword_infix_text _) hbody'
    | cons s' ss' =>
      rw [List.flatMap_cons, List.flatMap_cons, List.append_assoc, List.append_assoc] at heq
      obtain ⟨rfl, hrest⟩ := Statement.text_append_inj heq
      obtain ⟨rfl, rfl⟩ := ih hrest
      exact ⟨rfl, rfl⟩

/-- **A source text is one stylesheet**: no other cut has statements and a
body. -/
theorem source_injective : Function.Injective source := by
  intro h h' heq
  obtain ⟨hstatements, hbody⟩ := statements_append_inj h.body_sealed.quiet h'.body_sealed.quiet
    (String.ofList_injective heq)
  exact Headed.ext hstatements hbody

theorem importTargets_statements {statements : List Statement}
    (hclear : ∀ s ∈ statements, s.IsClear) (body : List Char) (first : Bool) :
    Css.Node.importTargets (Css.Node.ofComponents first
        (Css.Component.ofText (statements.flatMap Statement.text ++ body)))
      = statements.map Statement.target
          ++ Css.Node.importTargets (Css.Node.ofComponents false (Css.Component.ofText body)) := by
  induction statements generalizing first with
  | nil => exact Css.Node.importTargets_ofComponents first _
  | cons s statements ih =>
    rw [List.flatMap_cons, List.append_assoc, s.importTargets_text (hclear s List.mem_cons_self),
      ih fun t ht => hclear t (List.mem_cons_of_mem _ ht)]
    rfl

/-- **The parser reports the targets of the statements.** -/
theorem importTargets_source (hclear : h.IsClear) : importTargets h.source = h.targets := by
  have hbody : Css.Node.importTargets
      (Css.Node.ofComponents false (Css.Component.ofText h.body)) = [] := by
    have hsilent := h.body_silent
    rw [Css.Stylesheet.importTargets, Css.Stylesheet.ofText, String.toList_ofList,
      Css.Node.importTargets_ofComponents] at hsilent
    exact hsilent
  rw [Stylebook.importTargets, source, String.toList_ofList, Css.Stylesheet.ofText,
    Css.Stylesheet.importTargets, String.toList_ofList, text, importTargets_statements hclear,
    hbody, List.append_nil]
  -- a text without the keyword is not parsed at all
  cases hstatements : h.statements with
  | nil =>
    have hquiet : Text.hasInfix keyword h.body = false := by
      rw [← Bool.not_eq_true, Text.hasInfix_iff]
      exact h.body_sealed.quiet
    rw [List.flatMap_nil, List.nil_append, hquiet, targets, hstatements]
    rfl
  | cons s statements =>
    have hkey : Text.hasInfix keyword
        ((s :: statements).flatMap Statement.text ++ h.body) = true := by
      rw [Text.hasInfix_iff, List.flatMap_cons, List.append_assoc]
      exact s.keyword_infix_text _
    rw [hkey, targets, hstatements]
    rfl

/-! ## Replacing -/

/-- The statements with some of them replaced, as `parts` has it. -/
def fill (parts : String → Option (List Char)) (statements : List Statement) : List Char :=
  statements.flatMap fun s => (parts s.target).getD s.text

/-- The parts that stand in the place of statements are sealed. -/
def SealedParts (parts : String → Option (List Char)) : Prop :=
  ∀ t part, parts t = some part → Sealed part

theorem SealedParts.or {parts : String → Option (List Char)} (h : SealedParts parts)
    {part : List Char} (hpart : Sealed part) (t : String) :
    SealedParts fun u => (parts u).or (if u = t then some part else none) := by
  intro u found hfound
  dsimp only at hfound
  cases hold : parts u with
  | some old =>
    rw [hold, Option.some_or] at hfound
    cases hfound
    exact h u _ hold
  | none =>
    rw [hold, Option.none_or] at hfound
    split at hfound
    · cases hfound
      exact hpart
    · cases hfound

/-- At first nothing is filled in. -/
theorem sealedParts_none : SealedParts fun _ => none := by simp [SealedParts]

/-- Replacing one target fills in its part, where no earlier one did. Parts
that stand there already are passed over, because they are sealed. -/
theorem replaceFrom_fill {parts : String → Option (List Char)} {statements : List Statement}
    (hclear : ∀ s ∈ statements, s.IsClear) (hparts : SealedParts parts)
    {t : String} (ht : ∀ c ∈ t.toList, ¬IsQuote c) (replacement rest : List Char) :
    replaceFrom t.toList replacement [] (fill parts statements ++ rest)
      = fill (fun u => (parts u).or (if u = t then some replacement else none)) statements
          ++ replaceFrom t.toList replacement [] rest := by
  induction statements with
  | nil => rfl
  | cons s statements ih =>
    have ih := ih fun u hu => hclear u (List.mem_cons_of_mem _ hu)
    rw [fill, fill, List.flatMap_cons, List.flatMap_cons, List.append_assoc, List.append_assoc]
    cases hpart : parts s.target with
    | some part =>
      rw [Option.getD_some, Option.some_or, Option.getD_some,
        (hparts _ _ hpart).replaceFrom_append]
      exact congrArg _ ih
    | none =>
      rw [Option.getD_none, Option.none_or, s.replaceFrom_text (hclear s List.mem_cons_self) ht]
      have hhere : (if s.target = t then replacement else s.text)
          = (if s.target = t then some replacement else none).getD s.text := by
        split <;> rfl
      rw [hhere]
      exact congrArg _ ih

/-- **Replacing one target after the other** fills in the parts of their
statements. -/
theorem foldl_replaceAll {statements : List Statement} {body : List Char}
    (hclear : ∀ s ∈ statements, s.IsClear) (hbody : Sealed body) (pairs : List (String × String))
    (hplain : ∀ e ∈ pairs, ∀ c ∈ e.1.toList, ¬IsQuote c)
    (hsealed : ∀ e ∈ pairs, Sealed e.2.toList) {parts : String → Option (List Char)}
    (hparts : SealedParts parts) :
    pairs.foldl (fun text e => replaceAll e.1.toList e.2.toList text)
        (fill parts statements ++ body)
      = fill (fun u => (parts u).or ((pairs.lookup u).map String.toList)) statements ++ body := by
  induction pairs generalizing parts with
  | nil => simp
  | cons e pairs ih =>
    have hstep : replaceAll e.1.toList e.2.toList (fill parts statements ++ body)
        = fill (fun u => (parts u).or (if u = e.1 then some e.2.toList else none)) statements
            ++ body := by
      rw [replaceAll, replaceFrom_fill hclear hparts (hplain e List.mem_cons_self)]
      exact congrArg _ (hbody.replaceAll_eq _ _)
    rw [List.foldl_cons, hstep, ih (fun d hd => hplain d (List.mem_cons_of_mem _ hd))
      (fun d hd => hsealed d (List.mem_cons_of_mem _ hd))
      (hparts.or (hsealed e List.mem_cons_self) e.1)]
    -- of two parts for one target, the first one stays
    refine congrArg (fun f => fill f statements ++ body) (funext fun u => ?_)
    rw [Option.or_assoc, List.lookup_cons]
    by_cases hu : u = e.1
    · simp [hu]
    · rw [beq_false_of_ne hu]
      simp [hu]

/-! ## Taking statements out

Taking out is replacing by nothing. So no second argument is needed: it is
filling in, with a part that is empty. -/

/-- A target as statements have it. -/
def IsPlain (t : String) : Prop := ∀ c ∈ t.toList, ¬IsQuote c

/-- The target of a statement is one of them. -/
theorem isPlain_append {E : List String} (hE : ∀ e ∈ E, IsPlain e) (s : Statement) :
    ∀ e ∈ E ++ [s.target], IsPlain e := by
  intro e he
  rcases List.mem_append.mp he with he | he
  · exact hE e he
  · rw [List.mem_singleton.mp he]
    exact fun c hc => (s.target_fit c hc).1

/-- So are all targets of a stylesheet. -/
theorem isPlain_of_mem_targets {t : String} (ht : t ∈ h.targets) : IsPlain t := by
  obtain ⟨s, -, rfl⟩ := List.mem_map.mp ht
  exact fun c hc => (s.target_fit c hc).1

/-- The stylesheet without the statements of some targets. -/
def without (h : Headed) (E : List String) : Headed where
  statements := h.statements.filter fun s => s.target ∉ E
  body := h.body
  body_sealed := h.body_sealed
  body_silent := h.body_silent

/-- Targets stay clear when statements are taken out. -/
theorem IsClear.without (hclear : h.IsClear) (E : List String) : (h.without E).IsClear :=
  fun s hs => hclear s (List.mem_filter.mp hs).1

/-- What is left has the other targets. -/
theorem mem_targets_without {E : List String} {t : String} :
    t ∈ (h.without E).targets ↔ t ∈ h.targets ∧ t ∉ E := by
  simp only [targets, Headed.without, List.mem_map, List.mem_filter, decide_eq_true_eq]
  constructor
  · rintro ⟨s, ⟨hs, hE⟩, rfl⟩
    exact ⟨⟨s, hs, rfl⟩, hE⟩
  · rintro ⟨⟨s, hs, rfl⟩, hE⟩
    exact ⟨s, ⟨hs, hE⟩, rfl⟩

/-- With nothing filled in the statements are as they were. -/
theorem fill_none (statements : List Statement) :
    fill (fun _ => none) statements = statements.flatMap Statement.text := rfl

/-- What is found in a list of texts paired with what they are to be
replaced by. -/
theorem lookup_map_pair (f : String → String) (E : List String) (t : String) :
    (E.map fun e => (e, f e)).lookup t = if t ∈ E then some (f t) else none := by
  induction E with
  | nil => rfl
  | cons e E ih =>
    rw [List.map_cons, List.lookup_cons, ih]
    by_cases heq : t = e
    · simp [heq]
    · rw [beq_false_of_ne heq]
      simp [heq]

/-- **Taking targets out of the text** takes their statements out of the
stylesheet. -/
theorem stripAll_text (hclear : h.IsClear) {E : List String} (hE : ∀ e ∈ E, IsPlain e) :
    stripAll E h.text = (h.without E).text := by
  have hpairs : stripAll E h.text = (E.map fun e => (e, "")).foldl
      (fun text e => replaceAll e.1.toList e.2.toList text) h.text := by
    rw [List.foldl_map]
    rfl
  rw [hpairs, text, ← fill_none, foldl_replaceAll hclear h.body_sealed _ ?_ ?_ sealedParts_none]
  · rw [text]
    refine congrArg (· ++ h.body) ?_
    rw [fill, Headed.without]
    dsimp only
    induction h.statements with
    | nil => rfl
    | cons s statements ih =>
      rw [List.flatMap_cons, ih, Option.none_or, lookup_map_pair]
      by_cases hmem : s.target ∈ E
      · simp [hmem]
      · simp [hmem]
  · intro e he
    obtain ⟨t, ht, rfl⟩ := List.mem_map.mp he
    exact hE t ht
  · intro e he
    obtain ⟨t, -, rfl⟩ := List.mem_map.mp he
    exact Sealed.nil

end Headed

end Stylebook.Import
