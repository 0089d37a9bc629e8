import Tension.Core.Endian

/-!
# Ordered codes of strings and integers

Strings escape the bytes `00` and `ff` and end with `00 01`. Unsigned numbers are a
length byte and the big-endian digits without leading zeros. Signed numbers spread
their length over the leading bits of up to two bytes; a negative number is written as
the complement of a non-negative one.
-/

namespace Tension.Strings

open Endian

/-! ## Strings -/

/-- `kEscape1`. -/
def kEscape1 : UInt8 := 0x00

/-- `kNullCharacter`, combined with `kEscape1`. -/
def kNullCharacter : UInt8 := 0xff

/-- `kSeparator`, combined with `kEscape1`. -/
def kSeparator : UInt8 := 0x01

/-- `kEscape2`. -/
def kEscape2 : UInt8 := 0xff

/-- `kFFCharacter`, combined with `kEscape2`. -/
def kFFCharacter : UInt8 := 0x00

/-- `IsSpecialByte`. -/
def isSpecialByte (c : UInt8) : Bool := c + 1 < 2

/-- The loop of `EncodeStringFragment`; `pending` holds the bytes since `copy_start`. -/
def encodeStringLoop : List UInt8 → List UInt8 → List UInt8 → List UInt8
  | dest, pending, [] => dest ++ pending
  | dest, pending, c :: rest =>
    if isSpecialByte c then
      if c = kEscape1 then encodeStringLoop (dest ++ pending ++ [kEscape1, kNullCharacter]) [] rest
      else encodeStringLoop (dest ++ pending ++ [kEscape2, kFFCharacter]) [] rest
    else encodeStringLoop dest (pending ++ [c]) rest

/-- `OrderedCode::WriteString`. -/
def writeString (dest s : List UInt8) : List UInt8 :=
  encodeStringLoop dest [] s ++ [kEscape1, kSeparator]

/-- The loop of `ReadStringInternal`, which looks at a byte only while another follows. -/
def readStringLoop : List UInt8 → List UInt8 → List UInt8 → Option (List UInt8 × List UInt8)
  | result, pending, c :: next :: rest =>
    if isSpecialByte c then
      if c = kEscape1 then
        if next = kSeparator then some (result ++ pending, rest)
        else if next = kNullCharacter then readStringLoop (result ++ pending ++ [0x00]) [] rest
        else none
      else if next = kFFCharacter then readStringLoop (result ++ pending ++ [0xff]) [] rest
      else none
    else readStringLoop result (pending ++ [c]) (next :: rest)
  | _, _, _ => none

variable (src : List UInt8)

/-- `OrderedCode::ReadString`: the string and the remaining input. -/
def readString : Option (List UInt8 × List UInt8) := readStringLoop [] [] src

/-! ## Unsigned numbers -/

/-- The digit loop of `WriteNumIncreasing`, filling the buffer from its end. -/
def numBytesLoop : Nat → Nat → List UInt8 → List UInt8
  | 0, _, buf => buf
  | fuel + 1, val, buf =>
    if 0 < val then numBytesLoop fuel (val >>> 8) (byte (val &&& 0xff) :: buf) else buf

/-- `OrderedCode::WriteNumIncreasing`; the buffer has room for eight digits. -/
def writeNumIncreasing (dest : List UInt8) (val : UInt64) : List UInt8 :=
  let digits := numBytesLoop 8 val.toNat []
  dest ++ byte digits.length :: digits

/-- One step of the accumulation in the decoders: shift by a byte and insert the next. -/
def shiftIn (x : Nat) (c : UInt8) : Nat := x <<< 8 % 2 ^ 64 ||| c.toNat

/-- `OrderedCode::ReadNumIncreasing`. -/
def readNumIncreasing : Option (UInt64 × List UInt8) :=
  match src with
  | [] => none
  | first :: rest =>
    let len := first.toNat
    if src.length < len + 1 ∨ 8 < len then none
    else some (UInt64.ofNat ((rest.take len).foldl shiftIn 0), rest.drop len)

/-! ## Signed numbers -/

/-- `kLengthToHeaderBits`. -/
def kLengthToHeaderBits : List (UInt8 × UInt8) :=
  [(0, 0), (0x80, 0), (0xc0, 0), (0xe0, 0), (0xf0, 0), (0xf8, 0), (0xfc, 0), (0xfe, 0),
    (0xff, 0), (0xff, 0x80), (0xff, 0xc0)]

/-- `kLengthToMask`. -/
def kLengthToMask : List Nat :=
  [0, 0x80, 0xc000, 0xe00000, 0xf0000000, 0xf800000000, 0xfc0000000000, 0xfe000000000000,
    0xff00000000000000, 0x8000000000000000, 0]

/-- `kBitsToLength`. -/
def kBitsToLength : List Nat :=
  [1, 1, 1, 1, 1, 1, 1, 2, 2, 2, 2, 2, 2, 2, 3, 3, 3, 3, 3, 3, 3, 4,
    4, 4, 4, 4, 4, 4, 5, 5, 5, 5, 5, 5, 5, 6, 6, 6, 6, 6, 6, 6, 7, 7,
    7, 7, 7, 7, 7, 8, 8, 8, 8, 8, 8, 8, 9, 9, 9, 9, 9, 9, 9, 10]

/-- `Log2Floor64`, which is `-1` at zero. -/
def log2Floor64 (n : Nat) : Int := if n = 0 then -1 else n.log2

/-- `SignedEncodingLength` of a non-negative number. -/
def signedEncodingLength (x : Nat) : Nat := kBitsToLength.getD (log2Floor64 x + 1).toNat 0

/-- `StoreBigEndian64`. -/
def storeBigEndian64 (v : Nat) : List UInt8 :=
  (List.range 8).map fun i => byte ((v >>> (56 - 8 * i)) &&& 0xff)

/-- `LoadBigEndian64`. -/
def loadBigEndian64 : Nat :=
  (List.range 8).foldl (fun result i => result ||| (src.getD i 0).toNat <<< (56 - 8 * i)) 0

/-- `OrderedCode::WriteSignedNumIncreasing`. -/
def writeSignedNumIncreasing (dest : List UInt8) (val : Int64) : List UInt8 :=
  let bits := val.toUInt64.toNat
  let x := if val < 0 then (~~~ val).toUInt64.toNat else bits
  if x < 64 then dest ++ [(kLengthToHeaderBits.getD 1 (0, 0)).1 ^^^ byte bits]
  else
    let signByte : UInt8 := if val < 0 then 0xff else 0
    let buf := [signByte, signByte] ++ storeBigEndian64 bits
    let len := signedEncodingLength x
    let header := kLengthToHeaderBits.getD len (0, 0)
    dest ++ ((buf.drop (10 - len)).modify 0 (· ^^^ header.1)).modify 1 (· ^^^ header.2)

/-- A byte with the low bits of `xor_mask` flipped. -/
def flipByte (xorMask : Nat) (c : UInt8) : UInt8 := c ^^^ byte (xorMask &&& 0xff)

/-- The end of `ReadSignedNumIncreasing`: remove the header bits and consume the code. -/
def finishSigned (len x : Nat) : Option (Int64 × List UInt8) :=
  some ((UInt64.ofNat (x ^^^ kLengthToMask.getD len 0)).toInt64, src.drop len)

/-- The branch of `ReadSignedNumIncreasing` for codes of at least eight bytes. -/
def readLongSigned (xorMask : Nat) : Option (Int64 × List UInt8) :=
  let second := flipByte xorMask (src.getD 1 0)
  let third := flipByte xorMask (src.getD 2 0)
  if src.length < 8 then none
  else if second < 0x80 then finishSigned src 8 (loadBigEndian64 src)
  else if second < 0xc0 then
    if src.length < 9 then none else finishSigned src 9 (loadBigEndian64 (src.drop 1))
  else if second = 0xc0 ∧ third < 0x80 then
    if src.length < 10 then none else finishSigned src 10 (loadBigEndian64 (src.drop 2))
  else none

/-- `OrderedCode::ReadSignedNumIncreasing`. -/
def readSignedNumIncreasing : Option (Int64 × List UInt8) :=
  match src with
  | [] => none
  | first :: _ =>
    let xorMask : Nat := if first &&& 0x80 = 0 then 2 ^ 64 - 1 else 0
    let firstByte := flipByte xorMask first
    if firstByte ≠ 0xff then
      let len := (7 - log2Floor64 (firstByte ^^^ 0xff).toNat).toNat
      if src.length < len then none
      else finishSigned src len ((src.take len).foldl shiftIn xorMask)
    else readLongSigned src xorMask

end Tension.Strings
