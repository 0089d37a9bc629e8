import Mathlib
import Tension.Models.Status

/-!
# Tensor shapes and slices

A shape is a list of dimension sizes with the number of elements. It is built by adding
dimensions to the empty shape, which checks that the number of elements fits in 64 bits. A
check that fails stops the process; the result is `none` then. A slice has one extent per
dimension, which is either the whole dimension or a start with a length.
-/

namespace Tension.Slices

/-- The value of a 64-bit signed integer. -/
def toInt64 (x : Int) : Int := x.bmod (2 ^ 64)

/-- Values in range are not changed. -/
theorem toInt64_of_range {x : Int} (hlow : -2 ^ 63 ≤ x) (hhigh : x < 2 ^ 63) : toInt64 x = x := by
  rw [toInt64, Int.bmod_def]
  split <;> omega

/-- `MultiplyWithoutOverflow`. -/
def multiplyWithoutOverflow (x y : Int) : Option Int :=
  let ux := (x % 2 ^ 64).toNat
  let uy := (y % 2 ^ 64).toNat
  let uxy := ux * uy % 2 ^ 64
  if (ux ||| uy) >>> 32 ≠ 0 then
    if x ≥ 0 ∧ y ≥ 0 then
      if ux ≠ 0 ∧ uxy / ux ≠ uy then some (-1) else some (toInt64 uxy)
    else none
  else some (toInt64 uxy)

/-- `TensorShape`. -/
structure TensorShape where
  /-- The sizes of the dimensions. -/
  dims : List Int
  numElements : Int
  deriving DecidableEq, Repr

namespace TensorShape

/-- `MaxDimensions`. -/
def maxDimensions : Nat := 254

/-- `TensorShape()`. -/
def scalar : TensorShape := ⟨[], 1⟩

/-- `AddDim`. -/
def addDim (shape : TensorShape) (size : Int) : Option TensorShape :=
  if 0 ≤ size ∧ shape.dims.length < maxDimensions then
    match multiplyWithoutOverflow shape.numElements size with
    | none => none
    | some n => if 0 ≤ n then some ⟨shape.dims ++ [size], n⟩ else none
  else none

/-- `DebugString`. -/
def debugString (shape : TensorShape) : String :=
  "[" ++ ",".intercalate (shape.dims.map toString) ++ "]"

end TensorShape

/-- One entry of `starts_` with the entry of `lengths_`. -/
structure Extent where
  start : Int
  length : Int
  deriving DecidableEq, Repr

namespace Extent

/-- `kFullExtent`. -/
def kFullExtent : Int := -1

/-- `IsFullAt`. -/
def isFull (e : Extent) : Bool := e.length == kFullExtent && e.start == 0

/-- `end`. -/
def stop (e : Extent) : Int := toInt64 (e.start + e.length)

/-- The text of one dimension in `DebugString`. -/
def debugString (e : Extent) : String :=
  if e.isFull then "-" else toString e.start ++ "," ++ toString e.length

end Extent

/-- `TensorSlice`. -/
abbrev TensorSlice := List Extent

namespace TensorSlice

/-- `DebugString`. -/
def debugString (slice : TensorSlice) : String :=
  ":".intercalate (slice.map Extent.debugString)

/-- The loop of `SliceTensorShape` from dimension `d` on. -/
def sliceDims (slice : TensorSlice) (shape : TensorShape) :
    Nat → TensorSlice → List Int → TensorShape → Option (Except Status TensorShape)
  | d, e :: rest, size :: sizes, result =>
    if e.isFull then
      (result.addDim size).bind fun result => sliceDims slice shape (d + 1) rest sizes result
    else if e.stop ≤ size then
      (result.addDim e.length).bind fun result =>
        sliceDims slice shape (d + 1) rest sizes result
    else some (.error (.internal ("Extent in dimension " ++ toString d ++
      " out of bounds: shape = " ++ shape.debugString ++ ", slice = " ++ slice.debugString)))
  | _, _, _, result => some (.ok result)

/-- `SliceTensorShape`. -/
def sliceTensorShape (slice : TensorSlice) (shape : TensorShape) :
    Option (Except Status TensorShape) :=
  if shape.dims.length ≠ slice.length then
    some (.error (.internal ("Mismatching ranks: shape = " ++ shape.debugString ++
      ", slice = " ++ slice.debugString)))
  else slice.sliceDims shape 0 slice shape.dims .scalar

end TensorSlice

end Tension.Slices
