import Flock.Program.Basic

/-!
# Program listings

The listing of a program has one line for each action, and two for each loop,
with the lines of its body between them, set in by two blanks. How numbers are
written is left open, so that the listing can be read for any type of numbers.
-/

namespace Flock

/-- The opening brace of a loop. -/
def openBrace : String := "\x7b"

/-- The closing brace of a loop. -/
def closeBrace : String := "\x7d"

namespace Action

variable {α : Type}

def text (numeral : α → String) : Action α → String
  | move target speed => "move " ++ point target ++ " speed " ++ numeral speed
  | wander corner1 corner2 speed =>
    "random_move " ++ point corner1 ++ ".." ++ point corner2 ++ " speed " ++ numeral speed
  | signal label => "signal " ++ label
  | unsignal label => "unsignal " ++ label
  | follow label radius speed =>
    "follow " ++ label ++ " radius " ++ numeral radius ++ " speed " ++ numeral speed
  | stop => "stop"
  | wait ticks => "wait " ++ toString ticks.toNat
where
  point (p : Point α) : String := "(" ++ numeral p.x ++ ", " ++ numeral p.y ++ ")"

end Action

namespace Loop

def text : Loop → String
  | times count => "repeat " ++ toString count.toNat
  | forever => "forever"
  | untilIn region => "until " ++ region

end Loop

namespace Program

variable {α : Type}

/-- The lines of each node. -/
def lineTable (numeral : α → String) (p : Program α) : Array (List String) :=
  p.tabulate fun table node =>
    match node with
    | .action a => [a.text numeral]
    | .block loop ids =>
      let body := ids.flatMap fun id => table.getD id []
      (loop.text ++ " " ++ openBrace) :: (body.map ("  " ++ ·) ++ [closeBrace])

def lines (numeral : α → String) (p : Program α) : List String :=
  let table := p.lineTable numeral
  p.root.flatMap fun id => table.getD id []

/-- The listing, each line ended by a line feed. -/
def listing (numeral : α → String) (p : Program α) : String :=
  String.join ((p.lines numeral).map (· ++ "\n"))

end Program

end Flock
