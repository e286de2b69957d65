/-!
# Terminal styles

A style is switched on and off by escape sequences around a text (`Style.apply`). Bold and dimmed
are switched off together, and so are all colours.
-/

set_option autoImplicit false

namespace LiveSpec

/-- A way to show a text on a terminal. -/
inductive Style where
  | bold
  | dimmed
  | red
  | green
  | yellow
  | cyan
  deriving DecidableEq, Repr, Inhabited

namespace Style

/-- The code that switches a style on. -/
def on : Style → String
  | bold => "1"
  | dimmed => "2"
  | red => "31"
  | green => "32"
  | yellow => "33"
  | cyan => "36"

/-- The code that switches a style off: all attributes for weights, the default for colours. -/
def off : Style → String
  | bold => "0"
  | dimmed => "0"
  | _ => "39"

/-- The escape sequence with a code. -/
def sequence (code : String) : String := "\x1b[" ++ code ++ "m"

/-- A text in a style. -/
def apply (style : Style) (text : String) : String :=
  sequence style.on ++ text ++ sequence style.off

end Style

/-- A text in bold and in a colour. -/
def inBold (colour : Style) (text : String) : String := Style.bold.apply (colour.apply text)

end LiveSpec
