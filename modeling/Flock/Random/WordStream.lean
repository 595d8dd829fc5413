/-!
# A stream of random words

All random choices of a world come from one stream of 64-bit words. The stream
is an explicit value: drawing a word returns the word and the rest of the
stream. Its generator is xoshiro256++, whose state of four words is filled from
the seed by SplitMix64. All arithmetic is modulo `2 ^ 64`.
-/

namespace Flock

/-- The words still to come, given by the state of their generator. -/
structure WordStream where
  s0 : UInt64
  s1 : UInt64
  s2 : UInt64
  s3 : UInt64
deriving DecidableEq, Repr

namespace WordStream

/-- The bits of `word` turned left by `count`, those that leave on the left
coming back on the right. -/
def rotateLeft (word count : UInt64) : UInt64 := (word <<< count) ||| (word >>> (64 - count))

/-- The step by which the counter behind the seeding words moves. -/
def seedStep : UInt64 := 0x9e3779b97f4a7c15

/-- The word that a value of the seeding counter is scrambled into. -/
def scramble (counter : UInt64) : UInt64 :=
  let z := (counter ^^^ (counter >>> 30)) * 0xbf58476d1ce4e5b9
  let z := (z ^^^ (z >>> 27)) * 0x94d049bb133111eb
  z ^^^ (z >>> 31)

/-- The stream of a seed: the counter starts at the seed and each of the four
state words is scrambled from its next value. -/
def ofSeed (seed : UInt64) : WordStream where
  s0 := scramble (seed + seedStep)
  s1 := scramble (seed + 2 * seedStep)
  s2 := scramble (seed + 3 * seedStep)
  s3 := scramble (seed + 4 * seedStep)

def head (w : WordStream) : UInt64 := rotateLeft (w.s0 + w.s3) 23 + w.s0

def tail (w : WordStream) : WordStream :=
  let s2 := w.s2 ^^^ w.s0
  let s3 := w.s3 ^^^ w.s1
  { s0 := w.s0 ^^^ s3
    s1 := w.s1 ^^^ s2
    s2 := s2 ^^^ (w.s1 <<< 17)
    s3 := rotateLeft s3 45 }

/-- The stream without its first `n` words. -/
def drop : Nat → WordStream → WordStream
  | 0, w => w
  | n + 1, w => drop n w.tail

def take : Nat → WordStream → List UInt64
  | 0, _ => []
  | n + 1, w => w.head :: take n w.tail

theorem drop_zero (w : WordStream) : w.drop 0 = w := rfl

theorem drop_succ (n : Nat) (w : WordStream) : w.drop (n + 1) = w.tail.drop n := rfl

/-- Dropping in two goes is dropping the sum. -/
theorem drop_drop (m n : Nat) (w : WordStream) : (w.drop m).drop n = w.drop (m + n) := by
  induction m generalizing w with
  | zero => rw [Nat.zero_add]; rfl
  | succ m ih => rw [Nat.succ_add, drop_succ, drop_succ, ih]

@[simp] theorem length_take (n : Nat) (w : WordStream) : (w.take n).length = n := by
  induction n generalizing w with
  | zero => rfl
  | succ n ih => simp [take, ih]

end WordStream

end Flock
