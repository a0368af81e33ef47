/-!
# Styled text

A terminal shows a text in a style if a code stands before it and a reset after it. A reset inside the
text would end the style early, so that the style is set again after it.
-/

namespace TreeLayout.Ansi

/-- The styles that are used. -/
inductive Style where
  | boldRed | boldYellow | red | green | yellow | blue | cyan | dimmed | underline
  deriving DecidableEq

/-- The number of a style. -/
def Style.code : Style → String
  | .boldRed => "1;31"
  | .boldYellow => "1;33"
  | .red => "31"
  | .green => "32"
  | .yellow => "33"
  | .blue => "34"
  | .cyan => "36"
  | .dimmed => "2"
  | .underline => "4"

/-- The code that sets a style. -/
def Style.start (style : Style) : String := "\x1b[" ++ style.code ++ "m"

/-- The code that ends every style. -/
def reset : String := "\x1b[0m"

/-- A text in a style. -/
def paint (style : Style) (s : String) : String :=
  style.start ++ (reset ++ style.start).intercalate (s.splitOn reset) ++ reset

/-- A text in a style, or plain if styles are off. -/
def paintIf (colored : Bool) (style : Style) (s : String) : String :=
  if colored then paint style s else s

end TreeLayout.Ansi
