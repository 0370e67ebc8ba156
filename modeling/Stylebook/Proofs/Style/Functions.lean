import Mathlib
import Stylebook.Proofs.Css.Arguments
import Stylebook.Style.Plain

/-!
# The texts of functions

The text of a simple function is that of its marks one behind the other
(`toList_argumentsText`). So functions that keep their arguments apart and
have the same text have the same name and the same arguments, but for white
space and tokens without a kind (`eq_of_functionText_eq`).

Other functions can have one text: a space between two numbers is left out,
and so is a token without a kind (`collide_of_gap`).
-/

namespace Stylebook

open Css

namespace Css.Value

/-! ## Parts of a token

A number is kept as it was read, and its sign or unit is known by itself.
The number without them is got by cutting the text, by bytes in the case of
a unit. -/

/-- The percent sign is taken off the end. -/
theorem withoutPercent_concat {p : List Char} (h : '%' ∉ p) : withoutPercent (p ++ ['%']) = p := by
  have hkept : p.reverse.dropWhile (· = '%') = p.reverse := by
    rw [List.dropWhile_eq_self_iff]
    intro hpos hfirst
    exact h (of_decide_eq_true hfirst ▸ List.mem_reverse.mp (List.getElem_mem hpos))
  rw [withoutPercent, List.reverse_append, List.reverse_singleton, List.singleton_append,
    List.dropWhile_cons_of_pos (by decide), hkept, List.reverse_reverse]

/-- Taking off as many bytes as some characters have takes off these
characters. -/
theorem dropBytes?_go_append (cs ds : List Char) :
    dropBytes?.go (cs ++ ds) (String.utf8Len cs) = some ds.reverse := by
  induction cs with
  | nil => cases ds <;> rfl
  | cons c cs ih =>
    have hpos := c.utf8Size_pos
    have hne : String.utf8Len (c :: cs) ≠ 0 := by
      rw [String.utf8Len_cons]
      omega
    rw [List.cons_append, dropBytes?.go.eq_3 _ _ _ hne, String.utf8Len_cons,
      if_pos (Nat.le_add_left _ _), Nat.add_sub_cancel, ih]

/-- **The number of a dimension is the text in front of the unit.** -/
theorem numberOfDimension_append (p : List Char) (unit : String) :
    numberOfDimension (p ++ unit.toList) unit = p := by
  rw [numberOfDimension, dropBytes?, List.reverse_append, ← String.utf8Len_toList,
    ← String.utf8Len_reverse, dropBytes?_go_append, List.reverse_reverse]
  rfl

end Css.Value

namespace Style.PlainDeclaration

open Css.Component (lexemesAll marks marksAll)

variable {cs : List Css.Component} {unit : String}

/-! ## What the text of a function is made of

Argument by argument, the text that is written is the text that was read. A
name is written, and it was read from the same characters. -/

/-- **A token has its text as an argument** if it has a mark, and no text
else. -/
theorem toList_argumentText_ofToken {l : Lexeme} (hl : l.token.isSimple = true)
    (hspelled : l.token.isKept = true → l.token.IsSpelled l.text) :
    (argumentText unit (Value.ofToken l.text l.token)).toList
      = if l.token.isKept && l.token.isFlat then l.text else [] := by
  obtain ⟨t, text⟩ := l
  have hnone : ∀ v : Value, argumentText unit v = "" → (argumentText unit v).toList = [] :=
    fun v hv => hv ▸ String.toList_empty
  cases t with
  | comment | str _ | url _ => cases hl
  | ident name =>
    show (argumentText unit (.ident name)).toList = text
    rw [argumentText]
    exact (hspelled rfl).symm
  | number =>
    show (argumentText unit (.number (String.ofList text))).toList = text
    rw [argumentText, String.toList_ofList]
  | percentage =>
    obtain ⟨p, rfl, hp⟩ := hspelled rfl
    show (argumentText unit
      (.percentage (String.ofList (Value.withoutPercent (p ++ ['%']))))).toList = p ++ ['%']
    rw [Value.withoutPercent_concat hp, argumentText, String.toList_append, String.toList_ofList]
    rfl
  | dimension u =>
    obtain ⟨hne, p, rfl⟩ := hspelled rfl
    show (argumentText unit (.dimension (String.ofList (Value.numberOfDimension (p ++ u.toList) u))
      u)).toList = p ++ u.toList
    rw [Value.numberOfDimension_append, argumentText, withUnit, if_neg (by simpa using hne),
      String.toList_append, String.toList_ofList]
  | hash name =>
    show (argumentText unit (.hash name)).toList = text
    rw [argumentText, String.toList_append]
    exact (hspelled rfl).symm
  | comma =>
    show (argumentText unit (.operator ",")).toList = text
    rw [argumentText]
    exact (hspelled rfl).symm
  | delim d =>
    show (argumentText unit (.operator (String.singleton d))).toList = text
    rw [argumentText, String.toList_singleton]
    exact (hspelled rfl).symm
  -- the others have no text as arguments
  | closing b => cases b <;> exact hnone _ (argumentText.eq_def _ _)
  | function name =>
    rw [Token.isFlat, Bool.and_false]
    exact hnone _ (argumentText.eq_def _ _)
  | _ => exact hnone _ (argumentText.eq_def _ _)

/-- **The arguments of a simple function are written like its marks.** -/
theorem toList_argumentsText (h : IsSimple cs) (hread : ∀ l ∈ lexemesAll cs, ∃ w, l.IsReadAt w) :
    (argumentsText unit (Value.ofComponents [] cs)).toList
      = (marksAll cs).reduceOption.flatMap Lexeme.text := by
  induction h with
  | nil =>
    rw [Value.ofComponents, argumentsText]
    exact String.toList_empty
  | @leaf cs l hl hx _ ih =>
    obtain ⟨⟨w, hlread⟩, hread⟩ := List.forall_mem_cons.mp hread
    rw [Value.ofComponents_leaf hl, argumentsText, String.toList_append, ih hread,
      toList_argumentText_ofToken hl (hlread.isSpelled hx), marksAll, marks,
      List.singleton_append]
    split
    · rw [List.reduceOption_cons_of_some, List.flatMap_cons]
    · rw [List.reduceOption_cons_of_none, List.nil_append]
  | @function body cs closer name o ho hurl hx _ _ _ ihbody ih =>
    rw [lexemesAll, Css.Component.lexemes, List.cons_append, List.cons_append, List.append_assoc]
      at hread
    obtain ⟨⟨w, horead⟩, hread⟩ := List.forall_mem_cons.mp hread
    obtain ⟨hbody, hread⟩ := List.forall_mem_append.mp hread
    obtain ⟨-, hcs⟩ := List.forall_mem_append.mp hread
    have hopener : o.text = name.toList ++ ['('] := by
      have hspelled := horead.isSpelled hx (by rw [ho]; exact decide_eq_true hurl)
      rwa [ho] at hspelled
    rw [Value.ofComponents_function ho hurl, argumentsText, argumentText, functionText, marksAll,
      marks, List.reduceOption_append, List.reduceOption_append, List.reduceOption_cons_of_some,
      List.flatMap_append, List.flatMap_append, List.flatMap_cons, hopener, ← ihbody hbody,
      ← ih hcs]
    simp only [String.toList_append]
    rfl

/-- **The text of a function that is read from a block of a text.** -/
theorem toList_functionText {b : Css.Component} {text : List Char} {n : String} {args : List Value}
    (h : IsSimple [b]) (hb : b.IsIn (Css.Component.ofText text))
    (hvalue : Value.ofComponents [] [b] = [.function n args]) :
    (functionText unit n args).toList = b.marks.reduceOption.flatMap Lexeme.text := by
  have hone : marksAll [b] = b.marks := List.append_nil _
  have hread : ∀ l ∈ lexemesAll [b], ∃ w, l.IsReadAt w := by
    rw [lexemesAll, lexemesAll, List.append_nil]
    exact hb.isChain_lexemes.2
  have htext : (argumentsText unit (Value.ofComponents [] [b])).toList
      = (marksAll [b]).reduceOption.flatMap Lexeme.text := toList_argumentsText h hread
  rw [hvalue, hone, argumentsText, argumentsText, argumentText, String.append_empty] at htext
  exact htext

/-! ## Functions with one text

What was read can be told from what is written, if the written text can be
read again. It is read as a function with the same marks, and marks give the
arguments, but for what has none. -/

/-- **Functions keep their arguments apart.** Let two functions be read from
blocks in the trees of any stylesheets, at any depth; each function of a
declaration is (`Stylesheet.Declares.exists_block`). If both keep their
arguments apart and their texts are the same, they have the same name and
the same arguments at every depth, but for white space and tokens without a
kind.

The text of a function is that of its tokens with nothing in between. Being
the tokens of a stylesheet, each is read again from its own text; that they
are kept apart says that none goes on with the one behind it. So reading the
text again gives the tokens, and the brackets among them give the depth. -/
theorem eq_of_functionText_eq {text text' : String} {b b' : Css.Component} {n n' : String}
    {args args' : List Value} (hb : b.IsIn (Css.Component.ofText text.toList))
    (hb' : b'.IsIn (Css.Component.ofText text'.toList))
    (hvalue : Value.ofComponents [] [b] = [.function n args])
    (hvalue' : Value.ofComponents [] [b'] = [.function n' args'])
    (hapart : b.KeepsApart) (hapart' : b'.KeepsApart)
    (h : functionText unit n args = functionText unit n' args') :
    n = n' ∧ Value.compactAll args = Value.compactAll args' := by
  have htexts := congrArg String.toList h
  rw [toList_functionText hapart.simple hb hvalue, toList_functionText hapart'.simple hb' hvalue']
    at htexts
  exact hapart.eq_of_text hapart' hb hb' hvalue hvalue' htexts

/-- **Of two declared functions with one text** it is enough to look at the
blocks that they are read from: where both keep their arguments apart, the
functions are the same, white space and tokens without a kind ignored. -/
theorem exists_blocks_of_declares {text text' n n' : String} {args args' : List Value}
    (h : Stylesheet.Declares text n args) (h' : Stylesheet.Declares text' n' args')
    (htext : functionText unit n args = functionText unit n' args') :
    ∃ b b' : Css.Component, b.IsIn (Css.Component.ofText text.toList)
      ∧ b'.IsIn (Css.Component.ofText text'.toList)
      ∧ (b.KeepsApart → b'.KeepsApart → n = n' ∧ Value.compactAll args = Value.compactAll args') := by
  obtain ⟨b, hb, hvalue⟩ := h.exists_block
  obtain ⟨b', hb', hvalue'⟩ := h'.exists_block
  refine ⟨b, b', hb, hb', fun hapart hapart' => ?_⟩
  have htexts := congrArg String.toList htext
  rw [toList_functionText hapart.simple hb hvalue, toList_functionText hapart'.simple hb' hvalue']
    at htexts
  exact hapart.eq_of_text hapart' hb hb' hvalue hvalue' htexts

/-- A token by itself, as it is written. -/
def written (t : Token) (text : String) : Css.Component := .leaf ⟨t, text.toList⟩

/-- A product. -/
def product : Css.Component :=
  .block ⟨.function "calc", "calc(".toList⟩
    [written (.dimension "px") "2px", written (.delim '*') "*", written .number "3"] [')']

/-- The product with spaces in it. -/
def spacedProduct : Css.Component :=
  .block ⟨.function "calc", "calc(".toList⟩
    [written .blank " ", written (.dimension "px") "2px", written .blank " ",
      written (.delim '*') "*", written .blank " ", written .number "3"] [')']

/-- The smaller one of a length and a product. -/
def smaller : Css.Component :=
  .block ⟨.function "min", "min(".toList⟩
    [written (.dimension "px") "1px", written .comma ",", product] [')']

/-- The smaller one with spaces in it, and with a bracket that is missing. -/
def spacedSmaller : Css.Component :=
  .block ⟨.function "min", "min(".toList⟩
    [written (.dimension "px") "1px", written .blank " ", written .comma ",", written .blank " ",
      spacedProduct] []

/-- A function in another one, without spaces and with them. -/
theorem eq_of_functionText_eq_of_spaces : ∃ args args',
    smaller.IsIn (Css.Component.ofText ".a\x7bwidth:min(1px,calc(2px*3))\x7d".toList)
      ∧ spacedSmaller.IsIn (Css.Component.ofText "p\x7bwidth:min(1px , calc( 2px * 3)".toList)
      ∧ Value.ofComponents [] [smaller] = [.function "min" args]
      ∧ Value.ofComponents [] [spacedSmaller] = [.function "min" args']
      ∧ smaller.KeepsApart ∧ spacedSmaller.KeepsApart
      ∧ functionText "px" "min" args = functionText "px" "min" args'
      ∧ Value.compactAll args = Value.compactAll args' := by
  have hb : smaller.IsIn (Css.Component.ofText ".a\x7bwidth:min(1px,calc(2px*3))\x7d".toList) := by
    have htree : Css.Component.ofText ".a\x7bwidth:min(1px,calc(2px*3))\x7d".toList
        = [written (.delim '.') ".", written (.ident "a") "a",
          .block ⟨.opening .curly, ['\x7b']⟩
            [written (.ident "width") "width", written .colon ":", smaller] ['\x7d']] := by
      cbv
    rw [htree]
    exact .inside (List.mem_of_getElem? (i := 2) rfl) (.here (List.mem_of_getElem? (i := 2) rfl))
  have hb' : spacedSmaller.IsIn
      (Css.Component.ofText "p\x7bwidth:min(1px , calc( 2px * 3)".toList) := by
    have htree : Css.Component.ofText "p\x7bwidth:min(1px , calc( 2px * 3)".toList
        = [written (.ident "p") "p", .block ⟨.opening .curly, ['\x7b']⟩
            [written (.ident "width") "width", written .colon ":", spacedSmaller] []] := by
      cbv
    rw [htree]
    exact .inside (List.mem_of_getElem? (i := 1) rfl) (.here (List.mem_of_getElem? (i := 2) rfl))
  have hapart : smaller.KeepsApart := by decide +kernel
  have hapart' : spacedSmaller.KeepsApart := by decide +kernel
  have hvalue : Value.ofComponents [] [smaller] = [.function "min" [.dimension "1" "px",
      .operator ",", .function "calc" [.dimension "2" "px", .operator "*", .number "3"]]] := by
    decide +kernel
  have hvalue' : Value.ofComponents [] [spacedSmaller] = [.function "min" [.dimension "1" "px",
      .blank, .operator ",", .blank, .function "calc" [.blank, .dimension "2" "px", .blank,
        .operator "*", .blank, .number "3"]]] := by
    decide +kernel
  have htext : functionText "px" "min" [.dimension "1" "px",
      .operator ",", .function "calc" [.dimension "2" "px", .operator "*", .number "3"]]
    = functionText "px" "min" [.dimension "1" "px",
      .blank, .operator ",", .blank, .function "calc" [.blank, .dimension "2" "px", .blank,
        .operator "*", .blank, .number "3"]] := by
    cbv
  exact ⟨_, _, hb, hb', hvalue, hvalue', hapart, hapart', htext,
    (eq_of_functionText_eq hb hb' hvalue hvalue' hapart hapart' htext).2⟩

/-- The value of a declaration by itself. -/
def declaredValue (value : String) : List Value :=
  ((Stylesheet.ofText (".a\x7bcolor:" ++ value ++ "\x7d")).rules.flatMap
    StyleRule.declarations).flatMap Declaration.value

/-- **Two declared functions collide**: they have one text, but not the same
arguments, white space ignored. -/
structure Collide (value value' name : String) (args args' : List Value) : Prop where
  left : declaredValue value = [.function name args]
  right : declaredValue value' = [.function name args']
  text : functionText "px" name args = functionText "px" name args'
  arguments : args.filter (!·.isBlank) ≠ args'.filter (!·.isBlank)

/-- **Functions with different arguments can have one text.** Two numbers
with a space between them become one. A token without a kind is left out.
Where a NUL is read as another character, the unit of a dimension takes more
bytes than there are. -/
theorem collide_of_gap :
    Collide "rgb(1 23 4)" "rgb(12 3 4)" "rgb"
        [.number "1", .blank, .number "23", .blank, .number "4"]
        [.number "12", .blank, .number "3", .blank, .number "4"]
      ∧ Collide "f(a,:b)" "f(a,b)" "f" [.ident "a", .operator ",", .other ":", .ident "b"]
        [.ident "a", .operator ",", .ident "b"]
      ∧ Collide "f(1p\x00x)" "f(p\uFFFDx)" "f" [.dimension "" "p\uFFFDx"] [.ident "p\uFFFDx"] :=
  ⟨⟨by decide +kernel, by decide +kernel, by cbv, by decide⟩,
    ⟨by decide +kernel, by decide +kernel, by cbv, by decide⟩,
    ⟨by decide +kernel, by decide +kernel, by cbv, by decide⟩⟩

end Style.PlainDeclaration

end Stylebook
