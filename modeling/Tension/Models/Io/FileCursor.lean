import Tension.Models.Status

/-!
# An unbuffered cursor over a file

The cursor is a position in the contents of a file. It is what the buffered readers are for: each
call returns bytes from the position, moves it, and says whether the file had enough bytes left.
-/

namespace Tension.Io

/-- What a call of a reader returns: the code of its status, its bytes, and the position that
`Tell` reports afterwards. -/
structure Answer where
  /-- The code of the status. -/
  code : Code
  /-- The bytes that were read. -/
  bytes : List UInt8
  /-- The position afterwards. -/
  tell : Int
  deriving DecidableEq, Repr

namespace FileCursor

variable (contents : List UInt8) (p : Nat)

/-- The answer to a call with a negative argument. -/
def refuse : Answer × Nat := (⟨.invalidArgument, [], p⟩, p)

/-- The answer to a call that moves the cursor to `q`, which is `OUT_OF_RANGE` if the file is too
short. -/
def moveTo (q : Nat) (bytes : List UInt8) : Answer × Nat :=
  (⟨if contents.length < q then .outOfRange else .ok, bytes, (min q contents.length : Nat)⟩,
    min q contents.length)

/-- The next `n` bytes, or as many as there are. -/
def readNBytes (n : Int) : Answer × Nat :=
  if n < 0 then refuse p else moveTo contents (p + n.toNat) ((contents.drop p).take n.toNat)

/-- Skip `n` bytes. -/
def skipNBytes (n : Int) : Answer × Nat :=
  if n < 0 then refuse p else moveTo contents (p + n.toNat) []

/-- Go to a position. -/
def seek (position : Int) : Answer × Nat :=
  if position < 0 then refuse p else moveTo contents position.toNat []

/-- Everything from the position on. -/
def readAll : Answer × Nat := moveTo contents contents.length (contents.drop p)

/-- A line without its trailing carriage return. -/
def stripReturn (line : List UInt8) : List UInt8 :=
  if line.getLast? = some 0x0d then line.dropLast else line

/-- The bytes up to the next newline or the end of the file. -/
def line (rest : List UInt8) : List UInt8 := rest.takeWhile (· != 0x0a)

/-- The next line without one trailing carriage return. The newline is consumed; only at the end
of the file there is no line. -/
def readLine : Answer × Nat :=
  if contents.drop p = [] then (⟨.outOfRange, [], p⟩, p)
  else
    moveTo contents (min (p + (line (contents.drop p)).length + 1) contents.length)
      (stripReturn (line (contents.drop p)))

end FileCursor

end Tension.Io
