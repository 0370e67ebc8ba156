/-!
# Status marks

Every line for people starts with a mark: a single sign where the terminal
shows Unicode, and a word in square brackets where it does not. A mark may
be coloured. The rest of a line never is.
-/

namespace Stylebook.Terminal

/-- **What the mark of a line stands for.** -/
inductive Mark where
  | watching
  | changed
  | compiled
  | removed
  | warned
  | failed
  deriving DecidableEq, Repr

/-- **How marks are coloured.** `muted` is colour that was asked for on a
terminal that asks for none: the sequences for the colours are written
without a colour in them. -/
inductive Coloring where
  | plain
  | colored
  | muted
  deriving DecidableEq, Repr

namespace Mark

/-- The sign of a mark. -/
def sign : Mark → String
  | .watching => "⟳"
  | .changed => "↳"
  | .compiled => "✓"
  | .removed => "✗"
  | .warned => "⚠"
  | .failed => "✗"

/-- The word of a mark. -/
def word : Mark → String
  | .watching => "[~]"
  | .changed => "[>]"
  | .compiled => "[OK]"
  | .removed => "[DEL]"
  | .warned => "[WARN]"
  | .failed => "[FAIL]"

/-- The number of a mark's colour in the palette of terminals: cyan, grey,
green, yellow or red. -/
def color : Mark → Nat
  | .watching => 14
  | .changed => 8
  | .compiled => 10
  | .removed => 11
  | .warned => 11
  | .failed => 9

/-- The start of a control sequence. -/
def escape : String := "\x1b["

/-- **A mark as it is written.** -/
def render (coloring : Coloring) (unicode : Bool) (m : Mark) : String :=
  let glyph := if unicode then m.sign else m.word
  match coloring with
  | .plain => glyph
  | .colored => escape ++ "38;5;" ++ toString m.color ++ "m" ++ glyph ++ escape ++ "39m"
  | .muted => escape ++ "m" ++ glyph ++ escape ++ "m"

end Mark

end Stylebook.Terminal
