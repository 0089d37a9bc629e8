import Mathlib.Data.List.Lex
import Mathlib.Tactic

/-!
# Order-preserving prefix-free codes

Two words diverge when, after a common part, the first has the smaller letter. This
is the lexicographic order without its prefix case, so it is stable under appending
anything to either word. A code maps smaller values to words that diverge from the
words of larger ones; such codes compose along tuples, field by field.
-/

namespace Tension.OrderedCode

variable {β : Type*}

/-- The words differ at some letter, and the first word has the smaller one there. -/
inductive Diverges [LT β] : List β → List β → Prop where
  | here {x y : β} (h : x < y) (s t : List β) : Diverges (x :: s) (y :: t)
  | cons (z : β) {s t : List β} (h : Diverges s t) : Diverges (z :: s) (z :: t)

section Diverges

variable [LT β] {s t : List β}

section

variable (h : Diverges s t)
include h

/-- What follows the letters that differ is irrelevant. -/
theorem Diverges.append (u v : List β) : Diverges (s ++ u) (t ++ v) := by
  induction h with
  | here h s t => exact .here h (s ++ u) (t ++ v)
  | cons z _ ih => exact .cons z ih

/-- A common part in front is irrelevant. -/
theorem Diverges.append_left (p : List β) : Diverges (p ++ s) (p ++ t) := by
  induction p with
  | nil => exact h
  | cons z p ih => exact .cons z ih

/-- Divergence is a case of the lexicographic order. -/
theorem Diverges.lt : s < t := by
  induction h with
  | here h s t => exact List.Lex.rel h
  | cons z _ ih => exact List.Lex.cons ih

/-- Neither word is a prefix of the other one. -/
theorem Diverges.not_isPrefix [Std.Irrefl (α := β) (· < ·)] : ¬ s <+: t ∧ ¬ t <+: s := by
  induction h with
  | here h s t =>
    refine ⟨fun hp => ?_, fun hp => ?_⟩ <;>
      · obtain ⟨rfl, -⟩ := List.cons_prefix_cons.mp hp
        exact Std.Irrefl.irrefl _ h
  | cons z _ ih =>
    simp only [List.cons_prefix_cons, true_and]
    exact ih

end

/-- A letterwise order reversal turns divergence around. -/
theorem Diverges.map_antitone {f : β → β} (hf : ∀ x y, x < y → f y < f x)
    (h : Diverges s t) : Diverges (t.map f) (s.map f) := by
  induction h with
  | here h s t => exact .here (hf _ _ h) _ _
  | cons z _ ih => exact .cons (f z) ih

end Diverges

/-- A code for values ordered by `r`: it is read back in front of any suffix, and
smaller values have words that diverge from those of larger ones. -/
structure Code (β : Type*) [LT β] (α : Type*) (r : α → α → Prop) where
  /-- The word of a value. -/
  encode : α → List β
  /-- Read one value off the front of a word. -/
  decode : List β → Option (α × List β)
  decode_append : ∀ a s, decode (encode a ++ s) = some (a, s)
  diverges : ∀ {a b}, r a b → Diverges (encode a) (encode b)

/-! ## Tuples -/

variable {ι : Type*} {V : ι → Type*}

/-- Tuples whose fields have the types of a list of indices. -/
inductive Tuple (V : ι → Type*) : List ι → Type _ where
  | nil : Tuple V []
  | cons {i : ι} {is : List ι} (head : V i) (tail : Tuple V is) : Tuple V (i :: is)

namespace Tuple

/-- The lexicographic order of tuples, field by field. -/
def Lt (r : ∀ i, V i → V i → Prop) : {is : List ι} → Tuple V is → Tuple V is → Prop
  | [], .nil, .nil => False
  | _ :: _, .cons a s, .cons b t => r _ a b ∨ a = b ∧ Lt r s t

/-- Tuples over totally ordered fields are totally ordered. -/
theorem lt_trichotomy {r : ∀ i, V i → V i → Prop}
    (hr : ∀ i (a b : V i), r i a b ∨ a = b ∨ r i b a) {is : List ι} (s t : Tuple V is) :
    s.Lt r t ∨ s = t ∨ t.Lt r s := by
  induction s with
  | nil =>
    cases t
    exact .inr (.inl rfl)
  | cons a s ih =>
    cases t with
    | cons b t =>
      rcases hr _ a b with hlt | rfl | hgt
      · exact .inl (.inl hlt)
      · rcases ih t with hlt | rfl | hgt
        · exact .inl (.inr ⟨rfl, hlt⟩)
        · exact .inr (.inl rfl)
        · exact .inr (.inr (.inr ⟨rfl, hgt⟩))
      · exact .inr (.inr (.inl hgt))

variable [LT β] {r : ∀ i, V i → V i → Prop}

/-- The concatenated words of the fields. -/
def encode (code : ∀ i, Code β (V i) (r i)) : {is : List ι} → Tuple V is → List β
  | [], .nil => []
  | _ :: _, .cons a s => (code _).encode a ++ encode code s

/-- Read the fields one after another. -/
def decode (code : ∀ i, Code β (V i) (r i)) :
    (is : List ι) → List β → Option (Tuple V is × List β)
  | [], s => some (.nil, s)
  | i :: is, s =>
    ((code i).decode s).bind fun a => (decode code is a.2).map fun t => (.cons a.1 t.1, t.2)

variable (code : ∀ i, Code β (V i) (r i))

/-- Reading undoes writing and leaves the suffix. -/
theorem decode_append {is : List ι} (t : Tuple V is) (s : List β) :
    decode code is (t.encode code ++ s) = some (t, s) := by
  induction t with
  | nil => rfl
  | cons a t ih =>
    rw [encode, decode, List.append_assoc, (code _).decode_append, Option.bind_some, ih,
      Option.map_some]

/-- The word of a smaller tuple diverges from that of a larger one. -/
theorem diverges {is : List ι} {s t : Tuple V is} (h : s.Lt r t) :
    Diverges (s.encode code) (t.encode code) := by
  induction s with
  | nil =>
    cases t
    exact h.elim
  | cons a s ih =>
    cases t with
    | cons b t =>
      rcases h with hlt | ⟨rfl, hlt⟩
      · exact ((code _).diverges hlt).append _ _
      · exact (ih hlt).append_left _

end Tuple

variable {α : Type*} {r : α → α → Prop} [LT β] [Std.Irrefl (α := β) (· < ·)]
  {encode : α → List β} (hr : ∀ a b, r a b ∨ a = b ∨ r b a)
  (hdiv : ∀ {a b}, r a b → Diverges (encode a) (encode b))
include hr hdiv

/-- For a code of a totally ordered type the order of the words is the order of the
values. -/
theorem encode_lt_iff [Std.Asymm (α := β) (· < ·)] (a b : α) : encode a < encode b ↔ r a b := by
  constructor
  · intro h
    rcases hr a b with hlt | rfl | hgt
    · exact hlt
    · exact absurd h (List.lt_irrefl _)
    · exact absurd h (List.lt_asymm (hdiv hgt).lt)
  · exact fun h => (hdiv h).lt

/-- No word of such a code is a proper prefix of another. -/
theorem eq_of_encode_isPrefix {a b : α} (h : encode a <+: encode b) : a = b := by
  rcases hr a b with hlt | heq | hgt
  · exact absurd h (hdiv hlt).not_isPrefix.1
  · exact heq
  · exact absurd h (hdiv hgt).not_isPrefix.2

end Tension.OrderedCode
