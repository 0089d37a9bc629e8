import Tension.Models.Strings.Signed

/-!
# Composite keys

A schema is a list of field types. A key is written field by field and read back in
the same order. Since every field code diverges in the order of its values, the bytes
of two keys compare as the keys do and no key is a prefix of another one.
-/

namespace Tension.Strings

open OrderedCode

/-- Byte strings are totally ordered. -/
theorem bytes_trichotomy (s t : List UInt8) : s < t ∨ s = t ∨ t < s := by
  induction s generalizing t with
  | nil =>
    cases t with
    | nil => exact .inr (.inl rfl)
    | cons d t => exact .inl List.Lex.nil
  | cons c s ih =>
    cases t with
    | nil => exact .inr (.inr List.Lex.nil)
    | cons d t =>
      by_cases hcd : c = d
      · subst hcd
        rcases ih t with hlt | rfl | hgt
        · exact .inl (List.Lex.cons hlt)
        · exact .inr (.inl rfl)
        · exact .inr (.inr (List.Lex.cons hgt))
      · rcases UInt8.lt_or_lt_of_ne hcd with hlt | hgt
        · exact .inl (List.Lex.rel hlt)
        · exact .inr (.inr (List.Lex.rel hgt))

/-- The types a key field can have. -/
inductive FieldType where
  | string
  | uint64
  | int64
  deriving DecidableEq, Repr

namespace FieldType

/-- The values of a field type. -/
abbrev Value : FieldType → Type
  | .string => List UInt8
  | .uint64 => UInt64
  | .int64 => Int64

/-- The order of the values: unsigned bytes for strings, the numbers otherwise. -/
def Less : (t : FieldType) → t.Value → t.Value → Prop
  | .string, a, b => a < b
  | .uint64, a, b => a.toNat < b.toNat
  | .int64, a, b => a.toInt < b.toInt

/-- The writer of a field type, appending to `dest`. -/
def write : (t : FieldType) → List UInt8 → t.Value → List UInt8
  | .string, dest, s => writeString dest s
  | .uint64, dest, val => writeNumIncreasing dest val
  | .int64, dest, val => writeSignedNumIncreasing dest val

/-- The reader of a field type. -/
def read : (t : FieldType) → List UInt8 → Option (t.Value × List UInt8)
  | .string, src => readString src
  | .uint64, src => readNumIncreasing src
  | .int64, src => readSignedNumIncreasing src

/-- Any two different values are ordered. -/
theorem less_trichotomy (t : FieldType) (a b : t.Value) : t.Less a b ∨ a = b ∨ t.Less b a := by
  cases t with
  | string => exact bytes_trichotomy a b
  | uint64 =>
    rcases lt_trichotomy (UInt64.toNat a) (UInt64.toNat b) with h | h | h
    · exact .inl h
    · exact .inr (.inl (UInt64.toNat_inj.mp h))
    · exact .inr (.inr h)
  | int64 =>
    rcases Int.lt_trichotomy (Int64.toInt a) (Int64.toInt b) with h | h | h
    · exact .inl h
    · exact .inr (.inl (Int64.toInt.inj h))
    · exact .inr (.inr h)

/-- The code of a field type: the bytes that its writer appends, and its reader. -/
def code : (t : FieldType) → OrderedCode.Code UInt8 t.Value t.Less
  | .string => ⟨stringWord, readString, fun s suffix => readStringLoop_stringWord [] [] s suffix,
      diverges_stringWord⟩
  | .uint64 => ⟨numWord, readNumIncreasing, readNumIncreasing_numWord,
      fun h => diverges_numWord (UInt64.lt_iff_toNat_lt.mpr h)⟩
  | .int64 => ⟨signedCode, readSignedNumIncreasing, readSignedNumIncreasing_signedCode,
      fun h => diverges_signedCode (Int64.lt_iff_toInt_lt.mpr h)⟩

theorem write_eq (t : FieldType) (dest : List UInt8) (a : t.Value) :
    t.write dest a = dest ++ t.code.encode a := by
  cases t with
  | string => exact writeString_eq dest a
  | uint64 => rfl
  | int64 => exact writeSignedNumIncreasing_eq dest a

theorem read_eq (t : FieldType) (src : List UInt8) : t.read src = t.code.decode src := by
  cases t <;> rfl

end FieldType

/-- A key of a schema. -/
abbrev Key (schema : List FieldType) := Tuple FieldType.Value schema

namespace Key

/-- Write the fields one after another. -/
def writeAll : {schema : List FieldType} → List UInt8 → Key schema → List UInt8
  | [], dest, .nil => dest
  | t :: _, dest, .cons a rest => writeAll (t.write dest a) rest

/-- The bytes of a key. -/
def encoding {schema : List FieldType} (key : Key schema) : List UInt8 := writeAll [] key

/-- Read the fields of a schema one after another. -/
def readAll : (schema : List FieldType) → List UInt8 → Option (Key schema × List UInt8)
  | [], src => some (.nil, src)
  | t :: schema, src =>
    (t.read src).bind fun a => (readAll schema a.2).map fun r => (.cons a.1 r.1, r.2)

/-- The field-by-field lexicographic order. -/
def Less {schema : List FieldType} (a b : Key schema) : Prop := Tuple.Lt FieldType.Less a b

theorem writeAll_eq {schema : List FieldType} (dest : List UInt8) (key : Key schema) :
    writeAll dest key = dest ++ Tuple.encode FieldType.code key := by
  induction key generalizing dest with
  | nil => rw [writeAll, Tuple.encode, List.append_nil]
  | cons a rest ih => rw [writeAll, Tuple.encode, ih, FieldType.write_eq, List.append_assoc]

theorem readAll_eq (schema : List FieldType) (src : List UInt8) :
    readAll schema src = Tuple.decode FieldType.code schema src := by
  induction schema generalizing src with
  | nil => rfl
  | cons t schema ih =>
    rw [readAll, Tuple.decode, FieldType.read_eq]
    simp [ih]

/-- For every schema, the encodings of keys compare as the keys, none is a proper prefix
of another, and reading an encoding followed by anything returns the key and the rest. -/
theorem encoding_ordered_and_readable (schema : List FieldType) :
    (∀ a b : Key schema, a.encoding < b.encoding ↔ a.Less b) ∧
    (∀ a b : Key schema, a.encoding <+: b.encoding → a.encoding = b.encoding) ∧
    (∀ (a : Key schema) (suffix : List UInt8),
      readAll schema (a.encoding ++ suffix) = some (a, suffix)) := by
  have hencoding : ∀ a : Key schema, a.encoding = Tuple.encode FieldType.code a := by
    intro a
    rw [encoding, writeAll_eq, List.nil_append]
  have htotal : ∀ a b : Key schema, a.Less b ∨ a = b ∨ b.Less a :=
    Tuple.lt_trichotomy FieldType.less_trichotomy
  have hdiverges : ∀ {a b : Key schema}, a.Less b →
      Diverges (Tuple.encode FieldType.code a) (Tuple.encode FieldType.code b) :=
    fun h => Tuple.diverges FieldType.code h
  refine ⟨fun a b => ?_, fun a b h => ?_, fun a suffix => ?_⟩
  · rw [hencoding, hencoding]
    exact encode_lt_iff htotal hdiverges a b
  · rw [hencoding, hencoding] at h
    rw [eq_of_encode_isPrefix htotal hdiverges h]
  · rw [hencoding, readAll_eq]
    exact Tuple.decode_append FieldType.code a suffix

example : encoding (.cons [0x61, 0x00] (.cons 0x1234 (.cons (-0x800) .nil)) :
    Key [.string, .uint64, .int64]) =
      [0x61, 0x00, 0xff, 0x00, 0x01, 0x02, 0x12, 0x34, 0x38, 0x00] := by decide +kernel

end Key

end Tension.Strings
