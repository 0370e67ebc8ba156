import Stylebook.Dictionary.Module
import Stylebook.Proofs.Dictionary.Lookup
import Stylebook.Proofs.Text.Document

/-!
# A style module gives its dictionary back

A style module is the text of a JSON object, and reading the text gives back
what the dictionary held (`Dictionary.decodes_insertAll`). From the document
the keys of a chain lead to the object of its node, and behind them the
reserved name `sentinel` leads to the properties of the chain, when there
are some.

The members of an object are of two kinds, the properties of the chain and
the children of the node, and the reserved name tells them apart. That takes
a dictionary in which it is not the token of a child
(`Dictionary.Unreserved`). It may be a property for all that. Then keys that
go on behind a reserved name may lead to the value of a property, but never
to an object.
-/

namespace Stylebook

/-! ## Properties as members

Properties come with their names in order and each name once, and so they
are written and read. -/

namespace Style

/-- A style value as it is read: a number is known by its spelling. -/
def StyleValue.document : StyleValue → Document
  | .number n => .number n.spell
  | .text s => .str s

/-- **Properties as the members of an object**, in order. -/
def Properties.members (ps : Properties) : List (String × Document) :=
  ps.entries.map fun e => (e.1, e.2.document)

variable (ps : Properties)

/-- The properties are read as they were written. -/
theorem document_propertiesJson : (propertiesJson ps).document = .object ps.members := by
  have hvalue : ∀ v : StyleValue, v.toJson.document = v.document := by
    intro v
    cases v <;> rfl
  unfold propertiesJson Properties.members
  rw [Json.document, Json.memberDocuments_eq_map, List.map_map]
  refine congrArg _ (List.map_congr_left fun e _ => ?_)
  rw [Function.comp_apply, hvalue]

/-- Each property is written once. -/
theorem noRepeats_members : (Document.object ps.members).NoRepeats := by
  refine .object ?_ fun m hm => ?_
  · unfold Entries.names Properties.members
    rw [List.map_map]
    exact ps.nodup
  · obtain ⟨⟨name, v⟩, -, rfl⟩ := List.mem_map.mp hm
    cases v with
    | number n => exact .number _
    | text s => exact .str _

/-- No keys lead from properties to an object. -/
theorem objectAt?_members {keys : List String} (hkeys : keys ≠ []) :
    (Document.object ps.members).objectAt? keys = none := by
  obtain ⟨key, keys, rfl⟩ := List.exists_cons_of_ne_nil hkeys
  show ((Entries.find? key ps.members).bind _).bind _ = none
  unfold Properties.members
  rw [Entries.find?_map]
  cases Entries.find? key ps.entries with
  | none => rfl
  | some v => cases v <;> cases keys <;> rfl

end Style

namespace Dictionary

open Style (Properties)

/-! ## The reserved name

A token is what is left of a compound, and the reserved name is none in any
ordinary stylesheet. An element could have it as its name. -/

/-- **No child stands under the reserved name.** -/
def Unreserved (d : Dictionary) : Prop := ∀ i, d.child? i sentinel = none

/-- In the empty dictionary there are no children. -/
theorem unreserved_empty : empty.Unreserved := by
  intro i
  cases i <;> rfl

section Unreserved

variable {d : Dictionary} {token : String} {chain : List String}

/-- A child under another name than the reserved one may be grafted. -/
theorem Unreserved.graft (h : d.Unreserved) (hne : token ≠ sentinel) (parent : Nat) :
    (d.graft parent token).Unreserved := by
  intro i
  rw [child?_graft_eq, if_neg fun hnew => hne hnew.2.1.symm]
  exact h i

/-- Chains without the reserved name may be followed. -/
theorem Unreserved.descend (h : d.Unreserved) (hchain : sentinel ∉ chain) (i : Nat) :
    (d.descend i chain).1.Unreserved := by
  fun_induction Dictionary.descend d i chain with
  | case1 => exact h
  | case2 d i token chain j _ ih => exact ih h fun hmem => hchain (List.mem_cons_of_mem _ hmem)
  | case3 d i token chain _ ih =>
    obtain ⟨hne, hchain⟩ := List.ne_and_not_mem_of_not_mem_cons hchain
    exact ih (h.graft hne.symm i) hchain

/-- Properties may be stored at any node. -/
theorem Unreserved.store (h : d.Unreserved) (i : Nat) (properties : Properties) :
    (d.store i properties).Unreserved := by
  intro k
  exact (child?_store d.nodes i k sentinel properties).trans (h k)

/-- Inserting a selector without the reserved name keeps it out of the
dictionary: an insertion follows a chain and stores properties at its end. -/
theorem Unreserved.insert (h : d.Unreserved) {selector : String}
    (hchain : sentinel ∉ chainOf selector) (properties : Properties) :
    (d.insert selector properties).Unreserved := by
  by_cases hnil : chainOf selector = []
  · rwa [insert_of_nil hnil]
  · rw [insert_of_ne_nil hnil]
    exact (h.descend hchain root).store _ properties

/-- **Inserting selectors without the reserved name** leaves it to the
properties. -/
theorem unreserved_insertAll {inserts : List (String × Properties)}
    (h : ∀ e ∈ inserts, sentinel ∉ chainOf e.1) : (empty.insertAll inserts).Unreserved := by
  induction inserts using List.reverseRecOn with
  | nil => exact unreserved_empty
  | append_singleton inserts e ih =>
    obtain ⟨hinserts, he⟩ := List.forall_mem_append.mp h
    rw [insertAll_concat]
    exact (ih hinserts).insert (he e (List.mem_singleton_self e)) e.2

/-- No chain leads through the reserved name. -/
theorem Unreserved.place?_of_mem (h : d.Unreserved) (hmem : sentinel ∈ chain) (i : Nat) :
    d.place? i chain = none := by
  induction chain generalizing i with
  | nil => cases hmem
  | cons token chain ih =>
    rw [place?_cons]
    obtain rfl | hmem := List.mem_cons.mp hmem
    · rw [h i]
      rfl
    · cases d.child? i token with
      | none => rfl
      | some j => exact ih hmem j

end Unreserved

/-! ## The document of a node

The object of a node has its properties under the reserved name, and each
child under its token. So looking up a token in the document and looking up
a child in the arena are one thing. -/

/-- **The object of a node**, as it is read. -/
def document (d : Dictionary) (i : Nat) : Document := (d.nodeJson i).document

/-- The children of a node. -/
def children (d : Dictionary) (i : Nat) : Table Nat :=
  (d.nodes[i]?.map DictionaryNode.children).getD ∅

/-- The properties of a node as a member of its object. -/
def reservedMember (properties : Option Properties) : List (String × Document) :=
  (properties.map fun ps => (sentinel, Document.object ps.members)).toList

/-- **The members of the object of a node**: its properties, and then its
children. -/
def members (d : Dictionary) (i : Nat) : List (String × Document) :=
  reservedMember (d.propertiesAt i) ++ (d.children i).entries.map fun e => (e.1, d.document e.2)

section Node

variable (d : Dictionary) (i : Nat)

/-- A child is found in the table of children. -/
theorem child?_eq_get? (token : String) : d.child? i token = (d.children i).get? token := by
  unfold child? DictionaryNode.child? children
  cases d.nodes[i]? <;> rfl

/-- The properties of a node are written as one member or none. -/
theorem document_propertiesMember (properties : Option Properties) :
    ((properties.map fun ps => (sentinel, Style.propertiesJson ps)).toList.map
      fun m => (m.1, m.2.document)) = reservedMember properties := by
  cases properties with
  | none => rfl
  | some ps =>
    show [(sentinel, (Style.propertiesJson ps).document)] = _
    rw [Style.document_propertiesJson]
    rfl

/-- The members of the object for a node are its properties and its
children. -/
theorem document_eq : d.document i = .object (d.members i) := by
  unfold document
  rw [nodeJson]
  split
  · rename_i hnone
    unfold members propertiesAt children
    rw [hnone]
    rfl
  · rename_i n hnode
    have hproperties : d.propertiesAt i = n.properties := by
      unfold propertiesAt
      rw [hnode]
      rfl
    have hchildren : d.children i = n.children := by
      unfold children
      rw [hnode]
      rfl
    unfold members
    rw [Json.document, Json.memberDocuments_eq_map, List.map_append, document_propertiesMember,
      List.map_map, hproperties, hchildren]
    refine congrArg _ (congrArg _ ?_)
    exact List.attach_map_val (f := fun e : String × Nat => (e.1, d.document e.2))

/-- **A token leads to the child** that stands under it. -/
theorem find?_members_of_ne {token : String} (hne : token ≠ sentinel) :
    Entries.find? token (d.members i) = (d.child? i token).map d.document := by
  have hreserved : Entries.find? token (reservedMember (d.propertiesAt i)) = none := by
    unfold reservedMember
    cases d.propertiesAt i with
    | none => rfl
    | some ps => exact if_neg hne.symm
  unfold members
  rw [Entries.find?_append, hreserved, Option.none_or, Entries.find?_map, child?_eq_get?]
  rfl

/-- **The reserved name leads to the properties**, if no child stands under
it. -/
theorem find?_members_sentinel (h : d.Unreserved) :
    Entries.find? sentinel (d.members i)
      = (d.propertiesAt i).map fun ps => .object ps.members := by
  have hchild : Entries.find? sentinel (d.children i).entries = none :=
    (child?_eq_get? d i sentinel).symm.trans (h i)
  unfold members
  rw [Entries.find?_append, Entries.find?_map, hchild, Option.map_none, Option.or_none]
  unfold reservedMember
  cases d.propertiesAt i with
  | none => rfl
  | some ps => exact if_pos rfl

/-- A first key is looked up in the members of the object. -/
theorem follow?_document_cons (key : String) (keys : List String) :
    (d.document i).follow? (key :: keys)
      = (Entries.find? key (d.members i)).bind fun e => e.follow? keys := by
  rw [document_eq]
  rfl

/-- **The keys of a chain lead to its node**, if there is one. -/
theorem follow?_document {chain : List String} (hchain : sentinel ∉ chain) :
    (d.document i).follow? chain = (d.place? i chain).map d.document := by
  induction chain generalizing i with
  | nil => rfl
  | cons token chain ih =>
    obtain ⟨hne, hchain⟩ := List.ne_and_not_mem_of_not_mem_cons hchain
    rw [follow?_document_cons, find?_members_of_ne d i hne.symm, place?_cons]
    cases d.child? i token with
    | none => rfl
    | some j => exact ih j hchain

/-- **The keys of a chain and the reserved name lead to its properties**,
and nowhere if the chain has none. -/
theorem follow?_document_sentinel (h : d.Unreserved) {chain : List String}
    (hchain : sentinel ∉ chain) : (d.document root).follow? (chain ++ [sentinel])
      = (d.lookup? chain).map fun ps => .object ps.members := by
  rw [Document.follow?_append, follow?_document d root hchain]
  unfold lookup?
  cases d.place? root chain with
  | none => rfl
  | some j =>
    show (d.document j).follow? [sentinel] = _
    rw [follow?_document_cons, find?_members_sentinel d j h, Option.bind_map]
    exact (Option.map_eq_bind ..).symm

/-- **No object stands behind a reserved name** that other keys follow. -/
theorem objectAt?_document_of_mem (h : d.Unreserved) {chain : List String}
    (hmem : sentinel ∈ chain) (key : String) :
    (d.document root).objectAt? (chain ++ [key]) = none := by
  obtain ⟨front, back, rfl, hfront⟩ := List.eq_append_cons_of_mem hmem
  unfold Document.objectAt?
  rw [List.append_assoc, Document.follow?_append, follow?_document d root hfront]
  cases d.place? root front with
  | none => rfl
  | some j =>
    show ((d.document j).follow? (sentinel :: (back ++ [key]))).bind _ = none
    rw [follow?_document_cons, find?_members_sentinel d j h]
    cases d.propertiesAt j with
    | none => rfl
    | some ps => exact Style.objectAt?_members ps (by simp)

/-- **No object repeats a name.** -/
theorem noRepeats_document (h : d.Unreserved) (i : Nat) : (d.document i).NoRepeats := by
  rw [document_eq]
  refine .object ?_ fun m hm => ?_
  · have hchildren : Entries.names ((d.children i).entries.map fun e => (e.1, d.document e.2))
        = (d.children i).names := by
      unfold Entries.names Table.names Entries.names
      rw [List.map_map]
      rfl
    -- no child has the reserved name, so the properties are told from the children
    have hsentinel : sentinel ∉ (d.children i).names := by
      rw [← Table.isSome_get?_iff, ← child?_eq_get?, h i]
      exact Bool.false_ne_true
    unfold members
    cases d.propertiesAt i with
    | none => exact hchildren.symm ▸ (d.children i).nodup
    | some ps =>
      show (sentinel :: Entries.names ((d.children i).entries.map
        fun e => (e.1, d.document e.2))).Nodup
      rw [hchildren]
      exact List.nodup_cons.mpr ⟨hsentinel, (d.children i).nodup⟩
  · obtain hm | hm := List.mem_append.mp hm
    · obtain ⟨ps, -, rfl⟩ := Option.map_eq_some_iff.mp (Option.mem_toList.mp hm)
      exact Style.noRepeats_members ps
    · obtain ⟨e, he, rfl⟩ := List.mem_map.mp hm
      have hchild : d.child? i e.1 = some e.2 := by
        rw [child?_eq_get?]
        exact (d.children i).get?_of_mem he
      have := d.child_lt hchild
      exact noRepeats_document h e.2
termination_by d.nodes.size - i
decreasing_by omega

end Node

/-! ## The module of a dictionary

The whole way there and back: insertions, the arena, its text, and a reader
that knows nothing of any of these. What is read is compared with lookups,
and not with the arena. -/

/-- **A document holds a dictionary.** No object repeats a name. For every
chain, its keys and the reserved name lead to an object if and only if the
chain has properties, and the members of the object are these properties:
the same names and values in the same order, a number as it is spelled. A
chain that has none leads nowhere at all, if it is made of tokens other than
the reserved name. -/
structure IsHeldBy (d : Dictionary) (document : Document) : Prop where
  noRepeats : document.NoRepeats
  objectAt?_eq : ∀ chain,
    document.objectAt? (chain ++ [sentinel]) = (d.lookup? chain).map Style.Properties.members
  follow?_eq_none : ∀ chain, sentinel ∉ chain → d.lookup? chain = none →
    document.follow? (chain ++ [sentinel]) = none

/-- Where the reserved name is free, the document of the root holds the
dictionary. -/
theorem Unreserved.isHeldBy_document {d : Dictionary} (h : d.Unreserved) :
    d.IsHeldBy (d.document root) where
  noRepeats := noRepeats_document d h root
  objectAt?_eq chain := by
    by_cases hmem : sentinel ∈ chain
    · have hlookup : d.lookup? chain = none := by
        unfold lookup?
        rw [h.place?_of_mem hmem root]
        rfl
      rw [objectAt?_document_of_mem d h hmem, hlookup]
      rfl
    · unfold Document.objectAt?
      rw [follow?_document_sentinel d h hmem]
      cases d.lookup? chain <;> rfl
  follow?_eq_none chain hchain hlookup := by
    rw [follow?_document_sentinel d h hchain, hlookup]
    rfl

/-- **A style module is lossless.** For a dictionary that is made by
insertions, none of them with the reserved name as a token, the module is
the export of a text that is JSON, and the document of this text holds the
dictionary.

The properties of a node and its children are members of one object, and
only the reserved name tells them apart. That no child has this name is what
is kept by insertions, and what makes the members of every object different. -/
theorem decodes_insertAll (inserts : List (String × Properties))
    (h : ∀ e ∈ inserts, sentinel ∉ chainOf e.1) :
    ∃ text document, (empty.insertAll inserts).module = "export default styles = " ++ text
      ∧ Document.read? text = some document ∧ (empty.insertAll inserts).IsHeldBy document :=
  ⟨_, _, rfl, Document.read?_render _, (unreserved_insertAll h).isHeldBy_document⟩

/-- Chains where one is the front of another, with a quotation mark, a
backslash, a control character and the reserved name among the texts. -/
def quotedInserts : List (String × Properties) :=
  [(".a\"\\", .ofList [("content", .text "\x01\""), ("_#_", .text "é")]),
    (".b .a\"\\", .ofList [("flex", .number (.whole (-1)))])]

/-- The module of these insertions is lossless. -/
theorem decodes_quotedInserts : (∀ e ∈ quotedInserts, sentinel ∉ chainOf e.1)
    ∧ ∃ text document, (empty.insertAll quotedInserts).module
        = "export default styles = " ++ text
      ∧ Document.read? text = some document
      ∧ (empty.insertAll quotedInserts).IsHeldBy document :=
  have h : ∀ e ∈ quotedInserts, sentinel ∉ chainOf e.1 := by decide +kernel
  ⟨h, decodes_insertAll quotedInserts h⟩

end Dictionary

end Stylebook
