import Tension.Models.Slices.TensorSlice

/-!
# Bounds of slices that come from a proto

The extents of a serialized slice are any 64-bit numbers. A slice that is applied to a shape is
tested at its ends only.
-/

namespace Tension.Slices

/-- `TensorSliceProto::Extent`; the length may be missing. -/
structure ExtentProto where
  start : Int64
  length : Option Int64

namespace ExtentProto

/-- `HasExtentLength`. -/
def hasExtentLength (e : ExtentProto) : Bool := e.length.isSome

/-- `GetExtentLength`. -/
def getExtentLength (e : ExtentProto) : Int :=
  if !e.hasExtentLength then -1 else (e.length.getD 0).toInt

end ExtentProto

/-- `TensorSlice(proto)`. -/
def TensorSlice.ofProto (proto : List ExtentProto) : TensorSlice :=
  proto.map fun e => ⟨e.start.toInt, e.getExtentLength⟩

namespace Extent

variable (e : Extent)

/-- The extent is the whole dimension or an interval of it. -/
def Within (size : Int) : Prop :=
  e.isFull = true ∨ 0 ≤ e.start ∧ 0 ≤ e.length ∧ e.start + e.length ≤ size

/-- The extent is the whole dimension, or it starts at an index and its end is a 64-bit number. -/
def Representable : Prop :=
  e.isFull = true ∨ 0 ≤ e.start ∧ e.start + e.length < 2 ^ 63

instance (e : Extent) (size : Int) : Decidable (e.Within size) :=
  inferInstanceAs (Decidable (_ ∨ _ ∧ _ ∧ _))

instance (e : Extent) : Decidable e.Representable := inferInstanceAs (Decidable (_ ∨ _ ∧ _))

/-- The number of indices that are selected. -/
def selected (size : Int) : Int := if e.isFull then size else e.length

/-- What the test of `SliceTensorShape` and the checks of `AddDim` leave. -/
def Accepted (size : Int) : Prop :=
  e.isFull = true ∨ 0 ≤ e.length ∧ e.stop ≤ size

/-- An extent that is accepted is an interval exactly if its end does not wrap around and its start
is an index. -/
theorem Accepted.within_iff {e : Extent} {size : Int} (h : e.Accepted size)
    (hsize : size < 2 ^ 63) :
    e.Within size ↔ e.Representable := by
  constructor
  · rintro (hfull | ⟨hstart, -, hend⟩)
    · exact .inl hfull
    · exact .inr ⟨hstart, by omega⟩
  · rintro (hfull | ⟨hstart, hend⟩)
    · exact .inl hfull
    · rcases h with hfull | ⟨hlength, hstop⟩
      · exact .inl hfull
      · rw [stop, toInt64_of_range (by omega) hend] at hstop
        exact .inr ⟨hstart, hlength, hstop⟩

end Extent

theorem TensorShape.dims_of_addDim {shape shape' : TensorShape} {size : Int}
    (h : shape.addDim size = some shape') : 0 ≤ size ∧ shape'.dims = shape.dims ++ [size] := by
  rw [TensorShape.addDim] at h
  split at h
  · rename_i hsize
    split at h
    · cases h
    · split at h
      · cases h
        exact ⟨hsize.1, rfl⟩
      · cases h
  · cases h

namespace TensorSlice

/-- A shape is returned only if every extent is accepted. -/
theorem sliceDims_ok {slice rest : TensorSlice} {shape result result' : TensorShape} {d : Nat}
    {sizes : List Int} (hlength : sizes.length = rest.length)
    (h : sliceDims slice shape d rest sizes result = some (.ok result')) :
    List.Forall₂ Extent.Accepted rest sizes ∧
      result'.dims = result.dims ++ List.zipWith Extent.selected rest sizes := by
  induction rest generalizing sizes d result with
  | nil =>
    obtain rfl := List.length_eq_zero_iff.mp hlength
    cases h
    exact ⟨.nil, by simp⟩
  | cons e rest ih =>
    obtain ⟨size, sizes, rfl⟩ := List.exists_cons_of_length_eq_add_one hlength
    have hlength : sizes.length = rest.length := Nat.succ.inj hlength
    rw [sliceDims] at h
    split at h
    · rename_i hfull
      obtain ⟨next, hnext, h⟩ := Option.bind_eq_some_iff.mp h
      obtain ⟨hrest, hdims⟩ := ih hlength h
      refine ⟨.cons (.inl hfull) hrest, ?_⟩
      rw [hdims, (TensorShape.dims_of_addDim hnext).2, List.zipWith_cons_cons, Extent.selected,
        if_pos hfull, List.append_assoc, List.singleton_append]
    · rename_i hfull
      split at h
      · rename_i hstop
        obtain ⟨next, hnext, h⟩ := Option.bind_eq_some_iff.mp h
        obtain ⟨hnonneg, hadd⟩ := TensorShape.dims_of_addDim hnext
        obtain ⟨hrest, hdims⟩ := ih hlength h
        refine ⟨.cons (.inr ⟨hnonneg, hstop⟩) hrest, ?_⟩
        rw [hdims, hadd, List.zipWith_cons_cons, Extent.selected, if_neg hfull, List.append_assoc,
          List.singleton_append]
      · cases h

/-- Along every dimension the slice selects the whole dimension or an interval of it, and the result
has the lengths of what is selected. -/
def InBounds (slice : TensorSlice) (shape result : TensorShape) : Prop :=
  List.Forall₂ Extent.Within slice shape.dims ∧
    result.dims = List.zipWith Extent.selected slice shape.dims

theorem forall₂_within_iff {slice : TensorSlice} {sizes : List Int}
    (h : List.Forall₂ Extent.Accepted slice sizes) (hsizes : ∀ d ∈ sizes, d < 2 ^ 63) :
    List.Forall₂ Extent.Within slice sizes ↔ ∀ e ∈ slice, e.Representable := by
  induction h with
  | nil => simp
  | @cons e size slice sizes hhead _ ih =>
    rw [List.forall₂_cons, List.forall_mem_cons, hhead.within_iff (hsizes size List.mem_cons_self),
      ih fun d hd => hsizes d (List.mem_cons_of_mem size hd)]

/-- A slice of a proto that is accepted against a shape is in bounds exactly if every extent that is
not a whole dimension starts at an index and ends below the largest 64-bit number. -/
theorem sliceTensorShape_inBounds_iff (proto : List ExtentProto) {shape result : TensorShape}
    (hdims : ∀ d ∈ shape.dims, d < 2 ^ 63)
    (h : (ofProto proto).sliceTensorShape shape = some (.ok result)) :
    InBounds (ofProto proto) shape result ↔ ∀ e ∈ ofProto proto, e.Representable := by
  rw [sliceTensorShape] at h
  split at h
  · cases h
  · rename_i hrank
    obtain ⟨haccepted, hresult⟩ := sliceDims_ok (not_not.mp hrank) h
    rw [InBounds, forall₂_within_iff haccepted hdims]
    exact and_iff_left hresult

/-- A slice of the last two of three rows. -/
theorem sliceTensorShape_inBounds_lastRows :
    InBounds (ofProto [⟨1, some 2⟩, ⟨0, none⟩]) ⟨[3, 5], 15⟩ ⟨[2, 5], 10⟩ :=
  (sliceTensorShape_inBounds_iff [⟨1, some 2⟩, ⟨0, none⟩] (by decide) (by decide +kernel)).mpr
    (by decide +kernel)

/-- A slice that starts before the first index is accepted. -/
theorem sliceTensorShape_negativeStart :
    (ofProto [⟨-1, some 2⟩]).sliceTensorShape ⟨[5], 5⟩ = some (.ok ⟨[2], 2⟩) ∧
      ¬InBounds (ofProto [⟨-1, some 2⟩]) ⟨[5], 5⟩ ⟨[2], 2⟩ := by
  refine ⟨by decide +kernel, fun h => ?_⟩
  obtain ⟨hwithin, -⟩ := h
  exact absurd (List.forall₂_cons.mp hwithin).1 (by decide +kernel)

end TensorSlice

end Tension.Slices
