import Stylebook.Proofs.Css.Closed

/-!
# How far tokens go

A scanner counts the characters that it takes, and it never counts more than
there are: not where an escape, a string, a comment or an address is open at
the end of the text. So a token ends within its text (`scan_le`), and the
lexemes of a text are read one behind the other, each one in front of the
text of those that follow (`Lexeme.IsReadAt`).

That is worth a proof because the reader does not check it. It drops as many
characters as the scanner counted, and where the count was too great the
drop would end at the end of the text without a word. The lexemes would then
not have the text between them, and no argument by the position of a lexeme
would hold.
-/

namespace Stylebook.Css

/-! ## What scanners count

One bound for each scanner, in the order in which they call each other. The
proofs follow the branches of the definition. A scanner that goes on by
itself is handled by its own induction, and the others by the bounds of what
they call. -/

/-- An escape at the end of the text is not longer than the backslash. -/
theorem escape_le (cs : List Char) : (escape cs).2 ≤ cs.length := by
  cases cs with
  | nil => exact Nat.le_refl _
  | cons c cs =>
    unfold escape
    dsimp only
    split
    · have hdigits := hexDigits_le (c :: cs) 6 0
      have hbreak := lineBreakLength_le ((c :: cs).drop (hexDigits 6 0 (c :: cs)).2)
      simp only [List.length_drop, List.length_cons] at hdigits hbreak
      split
      · next d rest hdrop =>
        have hlength := congrArg List.length hdrop
        simp only [List.length_drop, List.length_cons] at hlength
        split <;> simp only [List.length_cons] <;> omega
      · dsimp only
        omega
    · split <;> simp

/-- A name takes characters and escapes, one after the other. -/
theorem name_le (cs : List Char) : (name cs).2 ≤ cs.length := by
  fun_induction name cs with
  | case1 => exact Nat.le_refl _
  | case2 c cs _ v n hname ih =>
    rw [hname] at ih
    exact Nat.succ_le_succ ih
  | case3 cs v n hname _ ih =>
    rw [hname] at ih
    exact Nat.succ_le_succ ih
  | case4 c cs _ _ _ d k hescape v n hname ih =>
    have hk := escape_le cs
    rw [hescape] at hk
    rw [hname, List.length_drop] at ih
    dsimp only at hk ih ⊢
    rw [List.length_cons]
    omega
  | case5 => exact Nat.zero_le _

/-- A string that is not closed ends with the text, and it does not count a
quote that is not there. -/
theorem quoted_le (quote : Char) (cs : List Char) : (quoted quote cs).2 ≤ cs.length := by
  fun_induction quoted quote cs with
  | case1 => exact Nat.le_refl _
  | case2 => exact Nat.succ_le_succ (Nat.zero_le _)
  | case3 => exact Nat.zero_le _
  | case4 => exact Nat.succ_le_succ (Nat.zero_le _)
  | case5 cs _ _ k v n hquoted _ _ ih =>
    have hk := lineBreakLength_le cs
    rw [hquoted, List.length_drop] at ih
    dsimp only at ih ⊢
    rw [List.length_cons]
    omega
  | case6 cs _ _ d k hescape v n hquoted _ _ ih =>
    have hk := escape_le cs
    rw [hescape] at hk
    rw [hquoted, List.length_drop] at ih
    dsimp only at hk ih ⊢
    rw [List.length_cons]
    omega
  | case7 c cs _ _ _ v n hquoted ih =>
    rw [hquoted] at ih
    exact Nat.succ_le_succ ih

/-- A comment that is not closed ends with the text as well. -/
theorem commentLength_le (cs : List Char) : commentLength cs ≤ cs.length := by
  fun_induction commentLength cs with
  | case1 => simp
  | case2 c cs _ ih => exact Nat.succ_le_succ ih
  | case3 => exact Nat.le_refl _

/-- What is skipped of an address that is none goes up to its parenthesis at
most. -/
theorem badUrlLength_le (cs : List Char) : badUrlLength cs ≤ cs.length := by
  fun_induction badUrlLength cs with
  | case1 => exact Nat.le_refl _
  | case2 => simp
  | case3 c cs _ ih => exact Nat.succ_le_succ (Nat.succ_le_succ ih)
  | case4 c cs _ ih => exact Nat.succ_le_succ ih
  | case5 c cs _ _ ih => exact Nat.succ_le_succ ih

/-- White space is a front of the text. -/
theorem spaces_le (cs : List Char) : (cs.takeWhile isSpace).length ≤ cs.length :=
  (List.takeWhile_sublist _).length_le

/-- Behind an address there may be white space and a parenthesis. -/
theorem urlEnd_le (cs : List Char) : (urlEnd cs).2 ≤ cs.length := by
  have hspaces := spaces_le cs
  unfold urlEnd
  dsimp only
  split
  · exact hspaces
  · next hdrop =>
    have hlength := congrArg List.length hdrop
    rw [List.length_drop, List.length_cons] at hlength
    dsimp only
    omega
  · next rest _ hdrop =>
    have hlength := congrArg List.length hdrop
    have hbad := badUrlLength_le rest
    rw [List.length_drop, List.length_cons] at hlength
    dsimp only
    omega

/-- An address is made of characters and escapes. -/
theorem urlAddress_le (cs : List Char) : (urlAddress cs).2 ≤ cs.length := by
  fun_induction urlAddress cs with
  | case1 => exact Nat.le_refl _
  | case2 c cs _ fine n hend =>
    have hle := urlEnd_le (c :: cs)
    rw [hend] at hle
    exact hle
  | case3 => exact Nat.succ_le_succ (Nat.zero_le _)
  | case4 c cs => exact Nat.succ_le_succ (badUrlLength_le cs)
  | case5 cs => exact Nat.succ_le_succ (badUrlLength_le cs)
  | case6 cs _ d k hescape v n hurl _ _ _ ih =>
    have hk := escape_le cs
    rw [hescape] at hk
    rw [hurl, List.length_drop] at ih
    dsimp only at hk ih ⊢
    rw [List.length_cons]
    omega
  | case7 c cs _ _ _ _ v n hurl ih =>
    rw [hurl] at ih
    exact Nat.succ_le_succ ih

/-- So an address in parentheses ends within its text, be it well written or
not. -/
theorem afterUrl_le (function : String) (cs : List Char) :
    (afterUrl function cs).2 ≤ cs.length := by
  have hspaces := spaces_le cs
  unfold afterUrl
  dsimp only
  split
  · exact hspaces
  · next c rest hdrop =>
    have hlength := congrArg List.length hdrop
    have haddress := urlAddress_le (c :: rest)
    rw [List.length_drop] at hlength
    split
    · exact Nat.zero_le _
    · split
      all_goals
        next hurl =>
        rw [hurl] at haddress
        dsimp only at haddress ⊢
        omega

/-- A name with the parenthesis behind it does, too, -/
theorem identLike_le (c : Char) (cs : List Char) : (identLike (c :: cs)).2 ≤ cs.length := by
  have hname := name_le (c :: cs)
  rw [List.length_cons] at hname
  by_cases hparen : ((c :: cs).drop (name (c :: cs)).2).head? = some '('
  · obtain ⟨rest, hrest⟩ := List.head?_eq_some_iff.mp hparen
    have hlength := congrArg List.length hrest
    have hurl := afterUrl_le (String.ofList (name (c :: cs)).1) rest
    rw [List.length_drop, List.length_cons, List.length_cons] at hlength
    rw [identLike_of_paren hrest]
    split <;> dsimp only <;> omega
  · rw [identLike_of_other hparen]
    dsimp only
    omega

/-- A number with its unit does not go beyond the text. -/
theorem numeric_le (first : Char) (cs : List Char) : (numeric first cs).2 ≤ cs.length := by
  have hnumber := numberLength_le cs first
  by_cases hpercent : (cs.drop (numberLength first cs)).head? = some '%'
  · obtain ⟨rest, hrest⟩ := List.head?_eq_some_iff.mp hpercent
    have hlength := congrArg List.length hrest
    rw [List.length_drop, List.length_cons] at hlength
    rw [numeric_of_percent hrest]
    dsimp only
    omega
  · have hname := name_le (cs.drop (numberLength first cs))
    rw [List.length_drop] at hname
    rw [numeric_of_other hpercent]
    split <;> dsimp only <;> omega

/-- **A token ends within its text.** -/
theorem scan_le (c : Char) (cs : List Char) : (scan c cs).2 ≤ cs.length := by
  -- in the order in which the reader tries them
  unfold scan
  split
  · exact spaces_le cs
  split
  · have hle := quoted_le c cs
    split <;> (next hquoted => rw [hquoted] at hle; exact hle)
  split
  · split
    · exact name_le cs
    · exact Nat.zero_le _
  split
  · split
    · exact name_le cs
    · exact Nat.zero_le _
  split
  · exact numeric_le c cs
  split
  · next hmark =>
    simp only [Bool.and_eq_true, Text.isSome_dropFront?_iff] at hmark
    exact hmark.2.length_le
  split
  · next hmark =>
    simp only [Bool.and_eq_true, Text.isSome_dropFront?_iff] at hmark
    exact hmark.2.length_le
  split
  · next hcomment =>
    have hle := commentLength_le (cs.drop 1)
    obtain ⟨rest, rfl⟩ := List.head?_eq_some_iff.mp
      (of_decide_eq_true (Bool.and_eq_true_iff.mp hcomment).2)
    exact Nat.succ_le_succ hle
  split
  · exact identLike_le c cs
  split
  · unfold attributeMark
    split
    · exact Nat.succ_le_succ (Nat.zero_le _)
    · exact Nat.zero_le _
  · exact Nat.zero_le _

/-! ## Lexemes one behind the other

What the bounds are for. A lexeme is told by two things that hold at once:
the scanner gives its token at its first character, and it stops at its last
one. The second depends on what follows, which is why the rest of the text
is part of the notion. -/

/-- **A lexeme that is read in front of `w`**: it is the token that starts
where its text does, and it ends where its text does. -/
def Lexeme.IsReadAt (l : Lexeme) (w : List Char) : Prop :=
  ∃ c u, l.text = c :: u ∧ scan c (u ++ w) = (l.token, u.length)

/-- **The first lexeme of a text** is read in front of the text of the
others. -/
theorem lex_cons (c : Char) (cs : List Char) :
    ∃ l rest, lex (c :: cs) = l :: lex rest ∧ c :: cs = l.text ++ rest ∧ l.IsReadAt rest
      ∧ rest.length ≤ cs.length := by
  have hle := scan_le c cs
  refine ⟨⟨(scan c cs).1, c :: cs.take (scan c cs).2⟩, cs.drop (scan c cs).2, ?_, ?_, ?_, ?_⟩
  · rw [lex]
  · rw [List.cons_append, List.take_append_drop]
  · refine ⟨c, cs.take (scan c cs).2, rfl, ?_⟩
    rw [List.take_append_drop, List.length_take, Nat.min_eq_left hle]
  · rw [List.length_drop]
    exact Nat.sub_le _ _

/-- A lexeme that is read in front of another one, when both stand side by
side. -/
theorem Lexeme.isReadAt_of_lex {l : Lexeme} {ls : List Lexeme} {w : List Char} (hw : w ≠ [])
    (h : lex (l.text ++ w) = l :: ls) : l.IsReadAt w := by
  obtain ⟨t, text⟩ := l
  cases text with
  | nil =>
    obtain ⟨d, w, rfl⟩ := List.exists_cons_of_ne_nil hw
    obtain ⟨l, rest, hlex, -, ⟨c, u, hl, -⟩, -⟩ := lex_cons d w
    rw [List.nil_append, hlex] at h
    rw [(List.cons.inj h).1] at hl
    cases hl
  | cons c u =>
    have hle := scan_le c (u ++ w)
    have hlex : lex (c :: (u ++ w)) = ⟨(scan c (u ++ w)).1, c :: (u ++ w).take (scan c (u ++ w)).2⟩
        :: lex ((u ++ w).drop (scan c (u ++ w)).2) := by rw [lex]
    rw [List.cons_append, hlex] at h
    obtain ⟨htoken, htext⟩ := Lexeme.mk.inj (List.cons.inj h).1
    have htake := congrArg List.length (List.cons.inj htext).2
    rw [List.length_take, List.length_append] at htake
    rw [List.length_append] at hle
    have hpos := List.length_pos_of_ne_nil hw
    refine ⟨c, u, rfl, Prod.ext htoken ?_⟩
    show (scan c (u ++ w)).2 = u.length
    omega

end Stylebook.Css
