import Stylebook.Dictionary.Chain
import Stylebook.Compile

/-!
# The style dictionary

The dictionary is a trie of selector chains, read from the innermost
compound outwards: a runtime starts at an element's own classes and walks to
its ancestors. A node holds the properties of the chain that ends there, if
there is one, and its children in the order of first insertion.

The nodes stand in an arena and refer to each other by their places in it.
The first one is the root, and a new node is grafted at the end of the
arena. So a child stands behind its parent, and no place is the child of two
nodes, or of one node under two tokens. A dictionary carries both facts
along: they make the arena a tree.

An insertion never overwrites. Of a chain that is inserted again, the
properties that are there stay, and only new ones come in.
-/

namespace Stylebook

open Style (Properties)

/-- **A node of the dictionary**, with the places of its children by token. -/
structure DictionaryNode where
  properties : Option Properties := none
  children : Table Nat := ∅

/-- The place of the child of a node under a token. -/
def DictionaryNode.child? (nodes : Array DictionaryNode) (i : Nat) (token : String) : Option Nat :=
  nodes[i]?.bind fun n => n.children.get? token

/-- The place of the root. -/
def Dictionary.root : Nat := 0

/-- **The style dictionary of a project file.** -/
structure Dictionary where
  nodes : Array DictionaryNode
  root_lt : Dictionary.root < nodes.size
  child_lt {i : Nat} {token : String} {j : Nat} :
    DictionaryNode.child? nodes i token = some j → i < j ∧ j < nodes.size
  child_inj {i i' : Nat} {token token' : String} {j : Nat} :
    DictionaryNode.child? nodes i token = some j → DictionaryNode.child? nodes i' token' = some j →
      i = i' ∧ token = token'

namespace Dictionary

/-- The dictionary without chains. -/
def empty : Dictionary where
  nodes := #[{}]
  root_lt := by decide
  child_lt {i _ _} h := by
    cases i <;> cases h
  child_inj {i _ _ _ _} h := by
    cases i <;> cases h

instance : Inhabited Dictionary := ⟨empty⟩

variable (d : Dictionary)

/-- The place of the child of a node under a token. -/
def child? (i : Nat) (token : String) : Option Nat := DictionaryNode.child? d.nodes i token

/-- The properties of the chain that ends at a node. -/
def propertiesAt (i : Nat) : Option Properties := d.nodes[i]?.bind DictionaryNode.properties

/-! ## Insertion -/

/-- The children when a node is grafted. -/
theorem child?_graft (nodes : Array DictionaryNode) (parent i : Nat) (token t : String) :
    DictionaryNode.child? ((nodes.modify parent fun n =>
        { n with children := n.children.insert token nodes.size }).push {}) i t
      = if i = parent ∧ t = token ∧ parent < nodes.size then some nodes.size
        else DictionaryNode.child? nodes i t := by
  rw [DictionaryNode.child?, DictionaryNode.child?, Array.getElem?_push, Array.size_modify,
    Array.getElem?_modify]
  by_cases hnew : i = nodes.size
  · -- the new node has no children yet
    subst hnew
    have hne : ¬(nodes.size = parent ∧ t = token ∧ parent < nodes.size) := by omega
    rw [if_pos rfl, if_neg hne, Array.getElem?_eq_none (Nat.le_refl _)]
    rfl
  · rw [if_neg hnew]
    by_cases hparent : parent = i
    · subst hparent
      cases hnode : nodes[parent]? with
      | none =>
        have hle : nodes.size ≤ parent := Array.getElem?_eq_none_iff.mp hnode
        simp [Nat.not_lt.mpr hle]
      | some n =>
        have hlt : parent < nodes.size := (Array.getElem?_eq_some_iff.mp hnode).1
        simp [Table.get?_insert, hlt]
    · simp [hparent, Ne.symm hparent]

/-- **Grafts a node** without properties, as the child of a node under a
token. -/
def graft (parent : Nat) (token : String) : Dictionary where
  nodes := (d.nodes.modify parent fun n =>
    { n with children := n.children.insert token d.nodes.size }).push {}
  root_lt := by simp [root]
  child_lt {i t j} h := by
    rw [child?_graft] at h
    split at h
    · cases h
      simp
      omega
    · have := d.child_lt h
      simp
      omega
  child_inj {i i' t t' j} h h' := by
    rw [child?_graft] at h h'
    -- a place that was there is in front of the one that is new
    split at h <;> split at h'
    · simp_all
    · cases h
      have := d.child_lt h'
      omega
    · cases h'
      have := d.child_lt h
      omega
    · exact d.child_inj h h'

/-- **The node of a chain below a node**, in a dictionary in which it is
there: the nodes that are missing are grafted. -/
def descend : Dictionary → Nat → List String → Dictionary × Nat
  | d, i, [] => (d, i)
  | d, i, token :: chain =>
    match d.child? i token with
    | some j => descend d j chain
    | none => descend (d.graft i token) d.nodes.size chain

/-- Adds the properties that are not there yet. -/
def addNew (old : Option Properties) (new : Properties) : Properties :=
  match old with
  | none => new
  | some ps => new.entries.foldl (fun t e => t.insertNew e.1 e.2) ps

/-- The children when properties come in. -/
theorem child?_store (nodes : Array DictionaryNode) (i j : Nat) (token : String)
    (properties : Properties) :
    DictionaryNode.child? (nodes.modify i fun n =>
        { n with properties := some (addNew n.properties properties) }) j token
      = DictionaryNode.child? nodes j token := by
  rw [DictionaryNode.child?, DictionaryNode.child?, Array.getElem?_modify]
  split
  · cases nodes[j]? <;> rfl
  · rfl

/-- **Adds properties to those of a node.** -/
def store (i : Nat) (properties : Properties) : Dictionary where
  nodes := d.nodes.modify i fun n =>
    { n with properties := some (addNew n.properties properties) }
  root_lt := by
    rw [Array.size_modify]
    exact d.root_lt
  child_lt h := by
    rw [child?_store] at h
    rw [Array.size_modify]
    exact d.child_lt h
  child_inj h h' := by
    rw [child?_store] at h h'
    exact d.child_inj h h'

/-- **Inserts the properties of a selector.** A selector without compounds
changes nothing. -/
def insert (selector : String) (properties : Properties) : Dictionary :=
  match (Chain.ofSelector selector).reverse with
  | [] => d
  | chain =>
    let (d, i) := d.descend root chain
    d.store i properties

/-! ## Lookup -/

/-- The place where a chain ends that starts below a node. -/
def place? (i : Nat) : List String → Option Nat
  | [] => some i
  | token :: chain =>
    match d.child? i token with
    | some j => place? j chain
    | none => none

/-- **The properties of a chain**, innermost compound first. -/
def lookup? (chain : List String) : Option Properties :=
  (d.place? root chain).bind d.propertiesAt

/-- The properties of a selector. -/
def get? (selector : String) : Option Properties :=
  d.lookup? (Chain.ofSelector selector).reverse

/-- The number of chains in the dictionary. -/
def size : Nat := d.nodes.countP fun n => n.properties.isSome

/-- The dictionary of a style map, in the order of the map. -/
def ofStyles (styles : StyleMap) : Dictionary :=
  styles.entries.foldl (fun d e => d.insert e.1 e.2) empty

end Dictionary

end Stylebook
