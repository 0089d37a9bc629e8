import Mathlib.Tactic.TypeStar

/-!
# Status values

A status is an error code with a message. `OK` is the only code that lets a caller
continue.
-/

namespace Tension

/-- The members of `error::Code` that the modelled components return. -/
inductive Code where
  | ok
  | cancelled
  | invalidArgument
  | notFound
  | resourceExhausted
  | failedPrecondition
  | outOfRange
  | internal
  | unavailable
  | dataLoss
  deriving DecidableEq, Repr

/-- `Status`. -/
structure Status where
  /-- The error code. -/
  code : Code
  /-- The message shown with the code. -/
  message : String
  deriving DecidableEq, Repr

namespace Status

/-- `Status::OK()`. -/
def ok : Status := ⟨.ok, ""⟩

variable (message : String)

/-- `errors::Cancelled`. -/
def cancelled : Status := ⟨.cancelled, message⟩

/-- `errors::InvalidArgument`. -/
def invalidArgument : Status := ⟨.invalidArgument, message⟩

/-- `errors::NotFound`. -/
def notFound : Status := ⟨.notFound, message⟩

/-- `errors::ResourceExhausted`. -/
def resourceExhausted : Status := ⟨.resourceExhausted, message⟩

/-- `errors::FailedPrecondition`. -/
def failedPrecondition : Status := ⟨.failedPrecondition, message⟩

/-- `errors::Internal`. -/
def internal : Status := ⟨.internal, message⟩

/-- `errors::Unavailable`. -/
def unavailable : Status := ⟨.unavailable, message⟩

/-- `errors::OutOfRange`. -/
def outOfRange : Status := ⟨.outOfRange, message⟩

/-- `errors::DataLoss`. -/
def dataLoss : Status := ⟨.dataLoss, message⟩

@[simp] theorem code_ok : ok.code = .ok := rfl

variable (m : String)

@[simp] theorem code_cancelled : (cancelled m).code = .cancelled := rfl

@[simp] theorem code_invalidArgument : (invalidArgument m).code = .invalidArgument := rfl

@[simp] theorem code_unavailable : (unavailable m).code = .unavailable := rfl

@[simp] theorem code_outOfRange : (outOfRange m).code = .outOfRange := rfl

@[simp] theorem code_dataLoss : (dataLoss m).code = .dataLoss := rfl

end Status

end Tension
