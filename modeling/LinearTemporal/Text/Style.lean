/-!
# Styled text

Text that a terminal shows in color: an escape sequence turns a style on, and
another one turns it off again.
-/

namespace LinearTemporal
namespace Text

inductive Color where
  | red
  | green
  | yellow
  | magenta
  | cyan
  deriving DecidableEq, Repr

def Color.code : Color → Nat
  | red => 31
  | green => 32
  | yellow => 33
  | magenta => 35
  | cyan => 36

structure Style where
  color : Color
  bold : Bool := false
  deriving DecidableEq, Repr

namespace Style

def reset : String :=
  "\x1b[0m"

def opening (style : Style) : String :=
  "\x1b[" ++ (if style.bold then "1;" else "") ++ toString style.color.code ++ "m"

/-- A text in the style.  Where the text turns styles off itself, the style is
turned on again. -/
def apply (style : Style) (text : String) : String :=
  style.opening ++ text.replace reset (reset ++ style.opening) ++ reset

def paint (style : Style) (painted : Bool) (text : String) : String :=
  if painted then style.apply text else text

theorem paint_false (style : Style) (text : String) : style.paint false text = text :=
  rfl

end Style

end Text
end LinearTemporal
