import Stylebook.Proofs.Style.Longhands

/-!
# A border in any order

The parts of a `border` fill three slots: a word for a style fills one, a
length another one, and everything else is a colour. No part fits into two
of them (`BorderSlot.admits_iff`), and a slot that is filled takes no second
part.

So what a run over the parts leaves is told slot by slot, from the parts
that fit into each (`BorderParts.foldlM_eq_some_iff`), and there the order
of the parts does not show: a border has a meaning in one order exactly when
it has one in any other order, and then it sets the same properties
(`transform_border_of_perm`).
-/

namespace Stylebook

namespace Style

/-- **What a part of a border can set.** -/
inductive BorderSlot where
  | width
  | style
  | color
  deriving DecidableEq, Repr

namespace BorderSlot

/-- The property that a slot sets. -/
def key : BorderSlot → String
  | width => "borderWidth"
  | style => "borderStyle"
  | color => "borderColor"

/-- **Whether a part fits into a slot**: a length, a word for a style, or a
part that is neither. -/
def admits (unit : String) : BorderSlot → String → Bool
  | width, part => (length? false unit part).isSome
  | style, part => borderStyles.contains part
  | color, part => (length? false unit part).isNone && !borderStyles.contains part

/-- The slot of a part. -/
def ofPart (unit part : String) : BorderSlot :=
  if borderStyles.contains part then style
  else if (length? false unit part).isSome then width else color

variable {unit part : String} {slot : BorderSlot}

/-- No word for a style is a length: it has no digit. -/
theorem length?_of_mem_borderStyles (h : part ∈ borderStyles) : length? false unit part = none := by
  have hsplit : ∀ p ∈ borderStyles, splitNumber? p.toList = none := by decide +kernel
  rw [length?, hsplit part h]
  rfl

/-- **A part fits into one slot.** -/
theorem admits_iff : admits unit slot part = true ↔ ofPart unit part = slot := by
  unfold ofPart
  by_cases hstyle : part ∈ borderStyles
  · rw [if_pos (List.contains_iff_mem.mpr hstyle)]
    cases slot <;> simp [admits, length?_of_mem_borderStyles hstyle, hstyle]
  · rw [if_neg (by simpa using hstyle)]
    cases hlength : length? false unit part with
    | none => cases slot <;> simp [admits, hlength, hstyle]
    | some l => cases slot <;> simp [admits, hlength, hstyle]

end BorderSlot

/-- **What a part of a border sets**: the part, with the default unit behind
a bare number. -/
def borderText (unit part : String) : String :=
  match splitNumber? part.toList with
  | some (_, []) => part ++ unit
  | _ => part

/-- A part is set as the length that it is read as, or as it stands. -/
theorem getD_length? (unit part : String) :
    (length? false unit part).getD part = borderText unit part := by
  unfold length? borderText
  rw [Bool.false_and, if_neg Bool.false_ne_true]
  cases hsplit : splitNumber? part.toList with
  | none => rfl
  | some split =>
    obtain ⟨number, rest⟩ := split
    cases rest with
    | nil =>
      -- nothing is behind the number, so the number is the part
      have hnumber : number = part.toList := by
        unfold splitNumber? at hsplit
        dsimp only at hsplit
        split at hsplit
        · obtain ⟨hfront, hback⟩ := Prod.mk.inj (Option.some.inj hsplit)
          rw [← hfront, List.take_of_length_le (List.drop_eq_nil_iff.mp hback)]
        · cases hsplit
      show (some (String.ofList number ++ unit)).getD part = part ++ unit
      rw [hnumber, String.ofList_toList]
      rfl
    | cons c cs =>
      show (if _ then some part else none).getD part = part
      split <;> rfl

namespace BorderParts

/-- What stands in a slot. -/
def get (b : BorderParts) : BorderSlot → Option String
  | .width => b.width
  | .style => b.style
  | .color => b.color

/-- The texts for one slot, in the order of the parts. -/
def textsFor (unit : String) (slot : BorderSlot) (parts : List String) : List String :=
  (parts.filter (slot.admits unit)).map (borderText unit)

variable {unit : String} {b b' : BorderParts} {parts parts' : List String}

/-- Borders are known by their slots. -/
theorem ext_get (h : ∀ slot, b.get slot = b'.get slot) : b = b' := by
  cases b
  cases b'
  exact BorderParts.mk.injEq .. ▸ ⟨h .width, h .style, h .color⟩

/-- A part counts for its slot and for no other. -/
theorem textsFor_cons (unit : String) (slot : BorderSlot) (part : String) (parts : List String) :
    textsFor unit slot (part :: parts)
      = (if BorderSlot.ofPart unit part = slot then [borderText unit part] else [])
        ++ textsFor unit slot parts := by
  unfold textsFor
  by_cases h : slot.admits unit part = true
  · rw [List.filter_cons_of_pos h, if_pos (BorderSlot.admits_iff.mp h)]
    rfl
  · rw [List.filter_cons_of_neg h, if_neg (mt BorderSlot.admits_iff.mpr h)]
    rfl

/-- The slots with a text in one of them. -/
def set (b : BorderParts) (slot : BorderSlot) (text : String) : BorderParts :=
  match slot with
  | .width => { b with width := some text }
  | .style => { b with style := some text }
  | .color => { b with color := some text }

/-- Setting one slot leaves the others. -/
theorem get_set (b : BorderParts) (slot slot' : BorderSlot) (text : String) :
    (b.set slot text).get slot' = if slot = slot' then some text else b.get slot' := by
  cases slot <;> cases slot' <;> rfl

/-- **One part** comes into its own slot, if that is free. -/
theorem add?_eq (unit : String) (b : BorderParts) (part : String) :
    add? unit b part = if (b.get (BorderSlot.ofPart unit part)).isSome then none
      else some (b.set (BorderSlot.ofPart unit part) (borderText unit part)) := by
  rw [← getD_length?]
  unfold add? BorderSlot.ofPart
  by_cases hstyle : part ∈ borderStyles
  · rw [if_pos (List.contains_iff_mem.mpr hstyle), if_pos (List.contains_iff_mem.mpr hstyle),
      BorderSlot.length?_of_mem_borderStyles hstyle]
    rfl
  · have hnot : ¬borderStyles.contains part = true := mt List.contains_iff_mem.mp hstyle
    rw [if_neg hnot, if_neg hnot]
    cases length? false unit part <;> rfl

/-- **What a run over the parts leaves** in each slot: what was there and
what fits into it, one text at most. -/
theorem foldlM_eq_some_iff : parts.foldlM (add? unit) b = some b'
    ↔ ∀ slot, (b'.get slot).toList = (b.get slot).toList ++ textsFor unit slot parts := by
  induction parts generalizing b with
  | nil =>
    rw [List.foldlM_nil]
    refine ⟨fun h slot => ?_, fun h => congrArg some (ext_get fun slot => ?_)⟩
    · cases h
      exact (List.append_nil _).symm
    · have hslot := h slot
      show b.get slot = b'.get slot
      cases hb : b.get slot <;> cases hb' : b'.get slot <;> simp_all [textsFor]
  | cons part parts ih =>
    rw [List.foldlM_cons, add?_eq]
    simp only [textsFor_cons]
    cases hslot : b.get (BorderSlot.ofPart unit part) with
    | some old =>
      -- a slot that is filled takes no second part
      refine ⟨fun h => (nomatch h), fun h => ?_⟩
      have hfull := congrArg List.length (h (BorderSlot.ofPart unit part))
      rw [hslot, if_pos rfl] at hfull
      cases hget : b'.get (BorderSlot.ofPart unit part) <;> simp [hget] at hfull
    | none =>
      show (b.set _ _ |> fun c => parts.foldlM (add? unit) c) = some b' ↔ _
      rw [ih]
      refine forall_congr' fun slot => ?_
      rw [get_set]
      by_cases h : BorderSlot.ofPart unit part = slot
      · subst h
        rw [if_pos rfl, if_pos rfl, hslot]
        rfl
      · rw [if_neg h, if_neg h, List.nil_append]

/-- A run over the parts gets through if no slot takes two of them. -/
theorem exists_foldlM_iff : (∃ b', parts.foldlM (add? unit) {} = some b')
    ↔ ∀ slot : BorderSlot, parts.countP (slot.admits unit) ≤ 1 := by
  have hcount : ∀ slot, (textsFor unit slot parts).length = parts.countP (slot.admits unit) :=
    fun slot => by rw [textsFor, List.length_map, List.countP_eq_length_filter]
  have hnone : ∀ slot, (({} : BorderParts).get slot).toList = [] :=
    fun slot => by cases slot <;> rfl
  simp only [foldlM_eq_some_iff, hnone, List.nil_append, ← hcount]
  constructor
  · rintro ⟨b', h⟩ slot
    rw [← h slot]
    cases b'.get slot <;> simp
  · intro h
    refine ⟨⟨(textsFor unit .width parts).head?, (textsFor unit .style parts).head?,
      (textsFor unit .color parts).head?⟩, fun slot => ?_⟩
    have hhead : ∀ ts : List String, ts.length ≤ 1 → ts.head?.toList = ts := by
      intro ts hts
      match ts, hts with
      | [], _ => rfl
      | [t], _ => rfl
    cases slot <;> exact hhead _ (h _)

/-- **The order of the parts does not show** in what a run over them leaves. -/
theorem foldlM_eq_of_perm (h : parts.Perm parts') :
    parts.foldlM (add? unit) {} = parts'.foldlM (add? unit) {} := by
  have hone : ∀ {parts parts' : List String} {b : BorderParts}, parts.Perm parts' →
      parts.foldlM (add? unit) {} = some b → parts'.foldlM (add? unit) {} = some b := by
    intro parts parts' b hperm hrun
    rw [foldlM_eq_some_iff] at hrun ⊢
    intro slot
    have htexts : (textsFor unit slot parts).Perm (textsFor unit slot parts') :=
      (hperm.filter _).map _
    have hnone : (({} : BorderParts).get slot).toList = [] := by cases slot <;> rfl
    have hslot := hrun slot
    rw [hnone, List.nil_append] at hslot ⊢
    -- there is one text at most, so there is one order
    cases hget : b.get slot with
    | none =>
      rw [← hslot, hget] at htexts
      exact (List.nil_perm.mp htexts).symm
    | some text =>
      rw [← hslot, hget] at htexts
      exact List.singleton_perm.mp htexts
  refine Option.ext fun b => ⟨hone h, hone h.symm⟩

/-- The properties that the slots set. -/
theorem find?_entries (b : BorderParts) (slot : BorderSlot) :
    Entries.find? slot.key b.entries = (b.get slot).map StyleValue.text := by
  obtain ⟨width, style, color⟩ := b
  cases width <;> cases style <;> cases color <;> cases slot <;> rfl

/-- Each slot is a property of its own. -/
theorem get?_ofList_entries (b : BorderParts) (slot : BorderSlot) :
    (Table.ofList b.entries).get? slot.key = (b.get slot).map StyleValue.text := by
  have hnodup : (Entries.names b.entries).Nodup := by
    obtain ⟨width, style, color⟩ := b
    cases width <;> cases style <;> cases color <;> simp [entries, Entries.names]
  rw [Table.ofList, Table.insertAll, Table.get?_foldl_insert, Entries.find?_reverse hnodup,
    find?_entries]
  exact Option.or_none

/-- A name that is set is that of a slot that is filled. -/
theorem exists_of_mem_names {b : BorderParts} {name : String}
    (h : name ∈ (Table.ofList b.entries).names) :
    ∃ slot : BorderSlot, name = slot.key ∧ (b.get slot).isSome := by
  have hkeys : name ∈ [BorderSlot.width, .style, .color].map BorderSlot.key := by
    rw [Table.ofList, Table.names_insertAll, List.mem_eraseDups, List.mem_append] at h
    obtain h | h := h
    · cases h
    · obtain ⟨e, he, rfl⟩ := List.mem_map.mp h
      exact mem_names_border he
  obtain ⟨slot, -, rfl⟩ := List.mem_map.mp hkeys
  rw [← Table.isSome_get?_iff, get?_ofList_entries, Option.isSome_map] at h
  exact ⟨slot, rfl, h⟩

end BorderParts

/-! ## The declaration

What has been shown of the parts is brought to declarations: a border has
parts at all, and each slot is one property. -/

variable {unit value value' : String} {t : Properties}

/-- A border sets what its parts say. -/
theorem expand_border (unit value : String) : expand unit ⟨"border", value⟩
    = expandBorder (PlainDeclaration.trimmed ⟨"border", value⟩) unit (Text.words value) := by
  have htrimmed : ∀ v, expandTrimmed ⟨"border", v⟩ unit
      = expandBorder ⟨"border", v⟩ unit (Text.words v) := fun _ => rfl
  rw [expand, PlainDeclaration.trimmed, htrimmed, Text.words_trim]

/-- **What a border sets**: what a run over its parts leaves, if there are
any. -/
theorem toOption_expand_border (unit value : String) : (expand unit ⟨"border", value⟩).toOption
    = if Text.words value = [] then none
      else ((Text.words value).foldlM (BorderParts.add? unit) {}).map BorderParts.entries := by
  rw [expand_border, expandBorder]
  by_cases h : Text.words value = []
  · rw [if_pos h, if_pos (List.isEmpty_iff.mpr h)]
    rfl
  · rw [if_neg h, if_neg (mt List.isEmpty_iff.mp h)]
    cases (Text.words value).foldlM (BorderParts.add? unit) {} <;> rfl

/-- So the order of the parts does not show in what the declaration sets. -/
theorem toOption_expand_border_of_perm (h : (Text.words value).Perm (Text.words value')) :
    (expand unit ⟨"border", value⟩).toOption = (expand unit ⟨"border", value'⟩).toOption := by
  rw [toOption_expand_border, toOption_expand_border, BorderParts.foldlM_eq_of_perm h]
  refine if_congr ⟨fun hnil => ?_, fun hnil => ?_⟩ rfl rfl
  · rw [hnil] at h
    exact List.nil_perm.mp h
  · rw [hnil] at h
    exact List.perm_nil.mp h

/-- The order of the parts does not show in what a rule sets in which the
declaration stands. -/
theorem transform_eq_of_perm (h : (Text.words value).Perm (Text.words value'))
    (before after : List PlainDeclaration) :
    (transform unit (before ++ ⟨"border", value⟩ :: after)).toOption
      = (transform unit (before ++ ⟨"border", value'⟩ :: after)).toOption := by
  rw [toOption_transform, toOption_transform, Except.toOption_mapM, Except.toOption_mapM,
    List.mapM_append, List.mapM_append, List.mapM_cons, List.mapM_cons,
    toOption_expand_border_of_perm h]

/-- **A border has a meaning** if it has parts and no two for one slot. -/
theorem isSome_transform_border_iff : (transform unit [⟨"border", value⟩]).toOption.isSome
    ↔ Text.words value ≠ []
      ∧ ∀ slot : BorderSlot, (Text.words value).countP (slot.admits unit) ≤ 1 := by
  rw [toOption_transform_singleton, Option.isSome_map, toOption_expand_border,
    ← BorderParts.exists_foldlM_iff, ← Option.isSome_iff_exists]
  by_cases h : Text.words value = []
  · simp [h]
  · rw [if_neg h, Option.isSome_map]
    exact (and_iff_right h).symm

/-- **What a border sets**: each part its own property, and nothing else. -/
theorem properties_of_border (h : transform unit [⟨"border", value⟩] = .ok t) :
    (∀ part ∈ Text.words value, ∀ slot : BorderSlot, slot.admits unit part = true →
        t.get? slot.key = some (.text (borderText unit part)))
      ∧ ∀ name ∈ t.names, ∃ slot : BorderSlot, name = slot.key
        ∧ ∃ part ∈ Text.words value, slot.admits unit part = true := by
  have hsome : (transform unit [⟨"border", value⟩]).toOption = some t := by rw [h]; rfl
  rw [toOption_transform_singleton, toOption_expand_border] at hsome
  split at hsome
  · cases hsome
  · obtain ⟨es, hes, rfl⟩ := Option.map_eq_some_iff.mp hsome
    obtain ⟨b, hrun, rfl⟩ := Option.map_eq_some_iff.mp hes
    have hslots : ∀ slot,
        (b.get slot).toList = BorderParts.textsFor unit slot (Text.words value) := by
      intro slot
      have hslot := BorderParts.foldlM_eq_some_iff.mp hrun slot
      cases slot <;> exact hslot
    refine ⟨fun part hpart slot hadmits => ?_, fun name hname => ?_⟩
    · have hmem : borderText unit part ∈ (b.get slot).toList := by
        rw [hslots]
        exact List.mem_map_of_mem (List.mem_filter.mpr ⟨hpart, hadmits⟩)
      rw [BorderParts.get?_ofList_entries, Option.mem_toList.mp hmem]
      rfl
    · obtain ⟨slot, rfl, hfilled⟩ := BorderParts.exists_of_mem_names hname
      obtain ⟨text, htext⟩ := Option.isSome_iff_exists.mp hfilled
      have hmem : text ∈ BorderParts.textsFor unit slot (Text.words value) := by
        rw [← hslots, htext]
        exact List.mem_singleton_self text
      obtain ⟨part, hpart, -⟩ := List.mem_map.mp hmem
      exact ⟨slot, rfl, part, (List.mem_filter.mp hpart).1, (List.mem_filter.mp hpart).2⟩

/-- **A border may be written in any order.** Every list of words is the
list of parts of some value. Values whose parts are the same up to their
order have a meaning together, wherever the border stands in a rule, and
then the properties are the same and in the same order. A border by itself
has a meaning exactly when it has parts and at most one word for a style,
one length and one other part among them. Then each part stands under its
own property, a bare number with the default unit, and no other property is
set.

A part fits into one slot, and which one is decided by the part alone. So
the run over the parts is three runs at once, one for each slot, and each of
them fails exactly if two parts fit. -/
theorem transform_border_of_perm (unit : String) :
    (∀ parts : List String, (∀ p ∈ parts, Text.IsWord p.toList) →
        Text.words (Text.join " " parts) = parts)
      ∧ (∀ value value', (Text.words value).Perm (Text.words value') →
          ∀ before after, (transform unit (before ++ ⟨"border", value⟩ :: after)).toOption
            = (transform unit (before ++ ⟨"border", value'⟩ :: after)).toOption)
      ∧ (∀ value, (transform unit [⟨"border", value⟩]).toOption.isSome
          ↔ Text.words value ≠ []
            ∧ ∀ slot : BorderSlot, (Text.words value).countP (slot.admits unit) ≤ 1)
      ∧ ∀ value t, transform unit [⟨"border", value⟩] = .ok t →
          (∀ part ∈ Text.words value, ∀ slot : BorderSlot, slot.admits unit part = true →
              t.get? slot.key = some (.text (borderText unit part)))
            ∧ ∀ name ∈ t.names, ∃ slot : BorderSlot, name = slot.key
              ∧ ∃ part ∈ Text.words value, slot.admits unit part = true :=
  ⟨fun _ => Text.words_join, fun _ _ => transform_eq_of_perm,
    fun _ => isSome_transform_border_iff, fun _ _ => properties_of_border⟩

/-- Three parts, the last of which is a number without a unit, and the same
parts in another order. -/
theorem transform_border_of_perm_of_dashed :
    (∀ p ∈ ["dashed", "#fff", "2"], Text.IsWord p.toList)
      ∧ Text.words (Text.join " " ["dashed", "#fff", "2"]) = ["dashed", "#fff", "2"]
      ∧ (Text.words "dashed #fff 2").Perm (Text.words "2 dashed #fff")
      ∧ (transform "dp" [⟨"border", "dashed #fff 2"⟩]).toOption
        = (transform "dp" [⟨"border", "2 dashed #fff"⟩]).toOption
      ∧ ∃ t, transform "dp" [⟨"border", "dashed #fff 2"⟩] = .ok t
        ∧ t.get? "borderWidth" = some (.text "2dp") := by
  obtain ⟨hparts, horder, hmeaning, hsets⟩ := transform_border_of_perm "dp"
  have hplain : ∀ p ∈ ["dashed", "#fff", "2"], Text.IsWord p.toList := by
    decide +kernel
  have hperm : (Text.words "dashed #fff 2").Perm (Text.words "2 dashed #fff") := by decide +kernel
  have hsome := (hmeaning "dashed #fff 2").mpr
    ⟨by decide +kernel, fun slot => by cases slot <;> decide +kernel⟩
  cases ht : transform "dp" [⟨"border", "dashed #fff 2"⟩] with
  | error e =>
    rw [ht] at hsome
    cases hsome
  | ok t =>
    have hwidth := (hsets _ t ht).1 "2" (by decide +kernel) .width (by decide +kernel)
    have htext : borderText "dp" "2" = "2dp" := by decide +kernel
    refine ⟨hplain, hparts _ hplain, hperm, ?_, t, rfl, htext ▸ hwidth⟩
    rw [← ht]
    exact horder _ _ hperm [] []

end Style

end Stylebook
