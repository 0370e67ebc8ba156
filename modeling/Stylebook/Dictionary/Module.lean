import Stylebook.Dictionary.Trie
import Stylebook.Text.Json

/-!
# Style modules

A dictionary is written as a module with one default export: its trie as
nested objects. A member of an object is a child under its token, and the
reserved name `sentinel` holds the properties of the chain that ends there.
It comes first.
-/

namespace Stylebook

/-- **The reserved name for the properties of a chain.** -/
def sentinel : String := "_#_"

namespace Style

/-- A style value as JSON. -/
def StyleValue.toJson : StyleValue → Json
  | .number n => .number n
  | .text s => .str s

/-- Properties as a JSON object, in order. -/
def propertiesJson (ps : Properties) : Json :=
  .object (ps.entries.map fun e => (e.1, e.2.toJson))

end Style

namespace Dictionary

/-- **A node of the dictionary as a JSON object**, with the members for its
children. -/
def nodeJson (d : Dictionary) (i : Nat) : Json :=
  match hnode : d.nodes[i]? with
  | none => .object []
  | some n =>
    .object ((n.properties.map fun p => (sentinel, Style.propertiesJson p)).toList
      ++ n.children.entries.attach.map fun ⟨e, he⟩ =>
        have hchild : d.child? i e.1 = some e.2 := by
          rw [child?, DictionaryNode.child?, hnode]
          exact n.children.get?_of_mem he
        have := d.child_lt hchild
        (e.1, nodeJson d e.2))
termination_by d.nodes.size - i
decreasing_by omega

/-- **The text of the module of a dictionary.** -/
def module (d : Dictionary) : String :=
  "export default styles = " ++ (d.nodeJson root).render

end Dictionary

end Stylebook
