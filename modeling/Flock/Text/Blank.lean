/-!
# Blanks, words and lines

Texts are lists of characters here. Blanks are the characters with the Unicode
property White_Space.
-/

namespace Flock.Text

/-- The first and the last character of each range of blanks. -/
def blankRanges : List (Nat × Nat) :=
  [(0x09, 0x0D), (0x20, 0x20), (0x85, 0x85), (0xA0, 0xA0), (0x1680, 0x1680), (0x2000, 0x200A),
    (0x2028, 0x2029), (0x202F, 0x202F), (0x205F, 0x205F), (0x3000, 0x3000)]

def isBlank (c : Char) : Bool :=
  blankRanges.any fun range => decide (range.1 ≤ c.toNat) && decide (c.toNat ≤ range.2)

/-- The text without the blanks at its two ends. -/
def trim (text : List Char) : List Char :=
  ((text.dropWhile isBlank).reverse.dropWhile isBlank).reverse

/-- The pieces of a text between separators. There is one more piece than there
are separators; pieces may be empty. -/
def pieces (isSeparator : Char → Bool) : List Char → List (List Char)
  | [] => [[]]
  | c :: rest =>
    match pieces isSeparator rest with
    | [] => [[c]]
    | first :: others =>
      if isSeparator c then [] :: first :: others else (c :: first) :: others

/-- The words of a text: its pieces between blanks, without empty ones. -/
def words (text : List Char) : List (List Char) :=
  (pieces isBlank text).filter fun piece => !piece.isEmpty

/-- The text without a carriage return at its end. -/
def dropReturn (text : List Char) : List Char :=
  if text.getLast? = some '\r' then text.dropLast else text

/-- The lines of a text. A line ends with a line feed, which may follow a carriage
return; the last one may lack it. -/
def lines (text : List Char) : List (List Char) :=
  let all := pieces (· = '\n') text
  let last := all.getLastD []
  all.dropLast.map dropReturn ++ (if last.isEmpty then [] else [last])

theorem pieces_nil (isSeparator : Char → Bool) : pieces isSeparator [] = [[]] := rfl

theorem pieces_ne_nil (isSeparator : Char → Bool) (text : List Char) :
    pieces isSeparator text ≠ [] := by
  cases text with
  | nil => simp [pieces]
  | cons c rest =>
    unfold pieces
    split
    · simp
    · split <;> simp

/-- The pieces on the two sides of a separator are the pieces of the two sides. -/
theorem pieces_append_separator (isSeparator : Char → Bool) (a b : List Char) (c : Char)
    (hc : isSeparator c = true) :
    pieces isSeparator (a ++ c :: b) = pieces isSeparator a ++ pieces isSeparator b := by
  induction a with
  | nil =>
    obtain ⟨first, others, h⟩ := List.exists_cons_of_ne_nil (pieces_ne_nil isSeparator b)
    simp [pieces, h, hc]
  | cons x a ih =>
    obtain ⟨first, others, h⟩ := List.exists_cons_of_ne_nil (pieces_ne_nil isSeparator a)
    rw [h] at ih
    by_cases hx : isSeparator x = true <;> simp [pieces, ih, h, hx]

end Flock.Text
