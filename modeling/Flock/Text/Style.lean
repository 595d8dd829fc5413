/-!
# Terminal styles

Styled texts are put between the control sequences that switch a style on and
off again. Styles nest: the one applied last stands outermost.
-/

namespace Flock.Text

/-- A weight or a colour of letters. -/
inductive Style where
  | bold
  | dimmed
  | green
  | yellow
  | cyan
deriving DecidableEq, Repr

namespace Style

/-- The code that switches a style on. -/
def onCode : Style → String
  | bold => "1"
  | dimmed => "2"
  | green => "32"
  | yellow => "33"
  | cyan => "36"

/-- The code that switches a style off. Weights go back to plain letters, colours
to the default colour. -/
def offCode : Style → String
  | bold | dimmed => "0"
  | green | yellow | cyan => "39"

/-- The control sequence with a code. -/
def sequence (code : String) : String := "\x1b[" ++ code ++ "m"

/-- A text in a style. -/
def apply (style : Style) (text : String) : String :=
  sequence style.onCode ++ text ++ sequence style.offCode

end Style

/-- A heading of a listing. -/
def heading (text : String) : String := Style.cyan.apply (Style.bold.apply text)

end Flock.Text
