import Tension.Core.Tally
import Tension.Models.Status

/-!
# Resource allocations and their tracker

An allocation lists quantities of resources; a resource is bound to an instance of its
device or left unbound. The tracker keeps the sum of what it has reserved and admits a
request if the request fits into the total even when everything unbound in use is
counted on every instance of its device.
-/

namespace Tension.Resources

/-- `Resource`. -/
structure Resource where
  device : String
  /-- `device_instance`, if it is set. -/
  deviceInstance : Option Nat
  kind : String
  deriving DecidableEq, Repr

/-- `ResourceAllocation`: its entries, each a resource with a quantity. -/
abbrev ResourceAllocation := List (Resource × Nat)

namespace Resource

/-- The resource bound to an instance. -/
def bind (r : Resource) (i : Nat) : Resource := { r with deviceInstance := some i }

/-- A field of a message in text form; fields with default values are left out. -/
def textField (name value : String) : List String :=
  if value = "" then [] else [name ++ ": \"" ++ value ++ "\""]

/-- A nested message in text form. -/
def textMessage (name : String) (lines : List String) : List String :=
  [name ++ " \x7b"] ++ lines.map ("  " ++ ·) ++ ["\x7d"]

/-- The lines of `DebugString`. -/
def text (r : Resource) : List String :=
  textField "device" r.device ++
    (match r.deviceInstance with
      | none => []
      | some 0 => textMessage "device_instance" []
      | some i => textMessage "device_instance" ["value: " ++ toString i]) ++
    textField "kind" r.kind

/-- `DebugString`. -/
def debugString (r : Resource) : String := String.join (r.text.map (· ++ "\n"))

end Resource

/-- `DebugString` of an allocation. -/
def ResourceAllocation.debugString (a : ResourceAllocation) : String :=
  String.join ((a.flatMap fun e => Resource.textMessage "resource_quantities"
    (Resource.textMessage "resource" e.1.text ++
      if e.2 = 0 then [] else ["quantity: " ++ toString e.2])).map (· ++ "\n"))

/-- `ResourceUtil`. -/
structure ResourceUtil where
  /-- `devices_`: the number of instances of each device. -/
  devices : String → Option Nat
  /-- Every device has an instance. -/
  pos : ∀ device n, devices device = some n → 0 < n

namespace ResourceUtil

/-- The constructor strips devices without instances. -/
def create (devices : String → Option Nat) : ResourceUtil :=
  ⟨fun device => (devices device).filter (0 < ·), fun _ _ h =>
    of_decide_eq_true (Option.filter_eq_some_iff.mp h).2⟩

variable (util : ResourceUtil)

/-- The number of instances of a device in the table. -/
def numInstances (device : String) : Nat := (util.devices device).getD 0

/-- `VerifyResourceValidity`. -/
def verifyResourceValidity (r : Resource) : Status :=
  match util.devices r.device with
  | none => .invalidArgument ("Invalid resource allocation: Invalid device " ++ r.device)
  | some n =>
    match r.deviceInstance with
    | none => .ok
    | some i =>
      if i ≥ n then .invalidArgument ("Invalid resource allocation: Invalid device instance " ++
        r.device ++ ":" ++ toString i)
      else .ok

/-- The loop of `VerifyValidity` over the entries that are left. -/
def verifyEntries (util : ResourceUtil) (allocation validated : ResourceAllocation) :
    ResourceAllocation → Status
  | [] => .ok
  | e :: es =>
    let status := util.verifyResourceValidity e.1
    if status.code ≠ .ok then status
    else if (validated.find? fun e' => e'.1 = e.1).isSome then
      .invalidArgument ("Invalid resource allocation: Repeated resource\n" ++ e.1.debugString ++
        "in allocation\n" ++ allocation.debugString)
    else util.verifyEntries allocation (validated ++ [e]) es

/-- `VerifyValidity`. -/
def verifyValidity (a : ResourceAllocation) : Status :=
  util.verifyEntries a [] a

/-- `NormalizeResource`. -/
def normalizeResource (r : Resource) : Resource :=
  if r.deviceInstance = none ∧ util.numInstances r.device = 1 then r.bind 0 else r

/-- `Normalize`. -/
def normalize (a : ResourceAllocation) : ResourceAllocation :=
  if (util.verifyValidity a).code ≠ .ok then a
  else (a.filter fun e => e.2 ≠ 0).map fun e => (util.normalizeResource e.1, e.2)

/-- `IsResourceNormalized`. -/
def isResourceNormalized (r : Resource) : Bool :=
  (util.verifyResourceValidity r).code = .ok &&
    (r.deviceInstance.isSome || 1 < util.numInstances r.device)

/-- `IsNormalized`. -/
def isNormalized (a : ResourceAllocation) : Bool :=
  (util.verifyValidity a).code = .ok &&
    a.all fun e => e.2 ≠ 0 && util.isResourceNormalized e.1

/-- `IsBoundNormalized`. -/
def isBoundNormalized (a : ResourceAllocation) : Bool := a.all fun e => e.1.deviceInstance.isSome

/-- `IsBound`. -/
def isBound (a : ResourceAllocation) : Bool :=
  isBoundNormalized (util.normalize a)

/-- `ResourcesEqualNormalized`. -/
def resourcesEqualNormalized (r r' : Resource) : Bool :=
  (util.verifyResourceValidity r).code = .ok && (util.verifyResourceValidity r').code = .ok &&
    r = r'

/-- `ResourcesEqual`. -/
def resourcesEqual (r r' : Resource) : Bool :=
  util.resourcesEqualNormalized (util.normalizeResource r) (util.normalizeResource r')

/-- `GetQuantity`. -/
def getQuantity (r : Resource) (a : ResourceAllocation) : Nat :=
  match a.find? fun e => util.resourcesEqual e.1 r with
  | none => 0
  | some e => e.2

/-- The modulus of `uint64`. -/
def quantityBound : Nat := 2 ^ 64

/-- `AddNormalized`. -/
def addNormalized (toAdd base : ResourceAllocation) : ResourceAllocation :=
  Tally.addAll quantityBound base toAdd

/-- `Add`. -/
def add (toAdd base : ResourceAllocation) : ResourceAllocation :=
  addNormalized (util.normalize toAdd) (util.normalize base)

/-- `SubtractNormalized`: the new quantities are computed from the old base before any of
them is stored; `none` if one of them would be negative. -/
def subtractNormalized (toSubtract base : ResourceAllocation) :
    Option ResourceAllocation := do
  let quantities ← toSubtract.mapM fun e => do
    let baseEntry ← base.find? fun e' => e'.1 = e.1
    if baseEntry.2 < e.2 then none else some (e.1, baseEntry.2 - e.2)
  some (util.normalize (quantities.foldl (fun base e => Tally.upsert e.1 (fun _ => e.2) base) base))

/-- `Subtract`. -/
def subtract (toSubtract base : ResourceAllocation) :
    Option ResourceAllocation :=
  util.subtractNormalized (util.normalize toSubtract) (util.normalize base)

/-- `MultiplyNormalized`. -/
def multiplyNormalized (multiplier : Nat) (base : ResourceAllocation) : ResourceAllocation :=
  base.map fun e => (e.1, e.2 * multiplier % quantityBound)

/-- `Multiply`. -/
def multiply (multiplier : Nat) (base : ResourceAllocation) :
    ResourceAllocation :=
  multiplyNormalized multiplier (util.normalize base)

/-- `EqualNormalized`. -/
def equalNormalized (lhs rhs : ResourceAllocation) : Bool :=
  (util.verifyValidity lhs).code = .ok && (util.verifyValidity rhs).code = .ok &&
    lhs.length = rhs.length &&
    lhs.all fun e => rhs.any fun e' => util.resourcesEqual e.1 e'.1 && e.2 = e'.2

/-- `Equal`. -/
def equal (lhs rhs : ResourceAllocation) : Bool :=
  util.equalNormalized (util.normalize lhs) (util.normalize rhs)

/-- Phase 1 of `LessThanOrEqualNormalized`: subtract the bound entries. -/
def subtractBound (lhs rhs : ResourceAllocation) :
    Option ResourceAllocation :=
  lhs.foldlM (fun rest e => if e.1.deviceInstance.isSome then util.subtract [e] rest
    else some rest) rhs

/-- Phase 2 of `LessThanOrEqualNormalized`: every unbound entry fits into some instance. -/
def fitsUnbound (lhs rest : ResourceAllocation) : Bool :=
  lhs.all fun e => e.1.deviceInstance.isSome ||
    (List.range (util.numInstances e.1.device)).any fun i =>
      e.2 ≤ util.getQuantity (e.1.bind i) rest

/-- `LessThanOrEqualNormalized`. -/
def lessThanOrEqualNormalized (lhs rhs : ResourceAllocation) : Bool :=
  if (util.verifyValidity lhs).code ≠ .ok ∨ (util.verifyValidity rhs).code ≠ .ok then false
  else
    match util.subtractBound lhs rhs with
    | none => false
    | some rest => util.fitsUnbound lhs rest

/-- `LessThanOrEqual`. -/
def lessThanOrEqual (lhs rhs : ResourceAllocation) : Bool :=
  util.lessThanOrEqualNormalized (util.normalize lhs) (util.normalize rhs)

/-- What `OverbindNormalized` adds for an entry: an unbound quantity goes to every instance
of the device. -/
def overbindEntry (e : Resource × Nat) : ResourceAllocation :=
  if e.1.deviceInstance.isSome then [e]
  else (List.range (util.numInstances e.1.device)).map fun i => (e.1.bind i, e.2)

/-- `OverbindNormalized`. -/
def overbindNormalized (a : ResourceAllocation) : ResourceAllocation :=
  if (util.verifyValidity a).code ≠ .ok then a
  else a.foldl (fun result e => addNormalized (util.overbindEntry e) result) []

/-- `Overbind`. -/
def overbind (a : ResourceAllocation) : ResourceAllocation :=
  util.overbindNormalized (util.normalize a)

/-- `MaxNormalized`. -/
def maxNormalized (lhs rhs : ResourceAllocation) : ResourceAllocation :=
  Tally.upsertAll (fun e q => if e.2 ≥ q then e.2 else q) rhs lhs

/-- `Max`. -/
def max (lhs rhs : ResourceAllocation) : ResourceAllocation :=
  maxNormalized (util.normalize lhs) (util.normalize rhs)

end ResourceUtil

/-- `ResourceTracker`. -/
structure ResourceTracker where
  util : ResourceUtil
  totalResources : ResourceAllocation
  usedResources : ResourceAllocation

namespace ResourceTracker

/-- `Create`. -/
def create (totalResources : ResourceAllocation) (util : ResourceUtil) :
    Except Status ResourceTracker :=
  let status := util.verifyValidity totalResources
  if status.code ≠ .ok then .error status
  else
    let normalized := util.normalize totalResources
    if util.isBound normalized then .ok ⟨util, normalized, []⟩
    else .error (.invalidArgument ("total_resources must be bound: " ++
      totalResources.debugString))

/-- `ReserveResources` for a loader whose `EstimateResources` returns `estimate`: the status,
`success`, and the tracker. -/
def reserveResources (t : ResourceTracker) (estimate : Except Status ResourceAllocation) :
    Except Status Bool × ResourceTracker :=
  match estimate with
  | .error status => (.error status, t)
  | .ok resources =>
    let status := t.util.verifyValidity resources
    if status.code ≠ .ok then (.error status, t)
    else
      let proposed := t.util.add resources (t.util.overbind t.usedResources)
      if t.util.lessThanOrEqual proposed t.totalResources then
        (.ok true, { t with usedResources := t.util.add resources t.usedResources })
      else (.ok false, t)

/-- The loop of `RecomputeUsedResources`; it stops at the first estimate that fails. -/
def addEstimates (t : ResourceTracker) :
    List (Except Status ResourceAllocation) → Status × ResourceTracker
  | [] => (.ok, t)
  | .error status :: _ => (status, t)
  | .ok resources :: estimates =>
    let status := t.util.verifyValidity resources
    if status.code ≠ .ok then (status, t)
    else { t with usedResources := t.util.add resources t.usedResources }.addEstimates estimates

/-- `RecomputeUsedResources` for loaders with the given estimates. -/
def recomputeUsedResources (t : ResourceTracker)
    (estimates : List (Except Status ResourceAllocation)) : Status × ResourceTracker :=
  { t with usedResources := [] }.addEstimates estimates

end ResourceTracker

end Tension.Resources
