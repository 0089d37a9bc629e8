import Mathlib

/-!
# Tensors and their rows

A tensor is a shape with its elements in row-major order. The first dimension counts its
rows. Of the element types, the reference types, which occur in parameters only, are left out.
-/

namespace Tension.Framework

/-- `DataType`. -/
inductive DataType where
  | invalid
  | float
  | double
  | int32
  | uint8
  | int16
  | int8
  | string
  | complex64
  | int64
  | bool
  | qint8
  | quint8
  | qint32
  | bfloat16
  | qint16
  | quint16
  | uint16
  | complex128
  | half
  | resource
  | variant
  | uint32
  | uint64
  deriving DecidableEq, Repr

namespace DataType

/-- `DataTypeString`. -/
def name : DataType → String
  | .invalid => "INVALID"
  | .float => "float"
  | .double => "double"
  | .int32 => "int32"
  | .uint8 => "uint8"
  | .int16 => "int16"
  | .int8 => "int8"
  | .string => "string"
  | .complex64 => "complex64"
  | .int64 => "int64"
  | .bool => "bool"
  | .qint8 => "qint8"
  | .quint8 => "quint8"
  | .qint32 => "qint32"
  | .bfloat16 => "bfloat16"
  | .qint16 => "qint16"
  | .quint16 => "quint16"
  | .uint16 => "uint16"
  | .complex128 => "complex128"
  | .half => "half"
  | .resource => "resource"
  | .variant => "variant"
  | .uint32 => "uint32"
  | .uint64 => "uint64"

/-- `DataTypeCanUseMemcpy`. -/
def canUseMemcpy : DataType → Bool
  | .invalid | .string | .resource | .variant => false
  | _ => true

/-- `DataTypeSize`. -/
def size : DataType → Nat
  | .uint8 | .int8 | .bool | .qint8 | .quint8 => 1
  | .int16 | .uint16 | .qint16 | .quint16 | .bfloat16 | .half => 2
  | .float | .int32 | .qint32 | .uint32 => 4
  | .double | .int64 | .uint64 | .complex64 => 8
  | .complex128 => 16
  | .invalid | .string | .resource | .variant => 0

end DataType

/-- The bytes of an element. -/
abbrev Element := List UInt8

/-- `Tensor`. -/
structure Tensor where
  dtype : DataType
  shape : List Nat
  /-- The elements in row-major order. -/
  elems : List Element
  length_elems : elems.length = shape.prod
  width : dtype.canUseMemcpy = true → ∀ e ∈ elems, e.length = dtype.size
  deriving DecidableEq

/-- A row of a tensor, with the type and the shape that it has in common with the others. -/
structure Row where
  dtype : DataType
  shape : List Nat
  elems : List Element
  deriving DecidableEq

/-- The rows of a buffer. -/
def rowsOf (dtype : DataType) (rest : List Nat) (d : Nat) (elems : List Element) : List Row :=
  ((List.replicate d rest.prod).splitLengths elems).map (Row.mk dtype rest)

namespace Tensor

/-- The rows of a tensor. -/
def rows (t : Tensor) : List Row :=
  match t.shape with
  | [] => []
  | d :: rest => rowsOf t.dtype rest d t.elems

end Tensor

end Tension.Framework
