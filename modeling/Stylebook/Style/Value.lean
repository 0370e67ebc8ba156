import Stylebook.Number.Spelling
import Stylebook.Style.Table

/-!
# Style values

What a style says about a property is a text or a number. A `Properties`
table holds the values of one selector under the names that the framework
uses.
-/

namespace Stylebook.Style

/-- **The value of a property.** -/
inductive StyleValue where
  | number (value : Number)
  | text (value : String)
  deriving DecidableEq, Repr

namespace StyleValue

/-- A value as a text; a number becomes its spelling. -/
def toText : StyleValue → String
  | .number n => n.spell
  | .text s => s

/-- The value that is a text in any case. -/
def asText (v : StyleValue) : StyleValue := .text v.toText

end StyleValue

/-- **The properties of one selector.** -/
abbrev Properties := Table StyleValue

end Stylebook.Style
