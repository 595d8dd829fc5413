/-!
# Columns

Texts filled up with blanks to a width, counted in characters. A text that is
longer than the width stays as it is.
-/

namespace Flock.Text

/-- The blanks that a text lacks to a width. -/
def fill (width : Nat) (text : String) : String :=
  String.ofList (List.replicate (width - text.length) ' ')

/-- The text at the left of a column. -/
def padRight (width : Nat) (text : String) : String := text ++ fill width text

/-- The text at the right of a column. -/
def padLeft (width : Nat) (text : String) : String := fill width text ++ text

end Flock.Text
