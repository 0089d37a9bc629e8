import Mathlib
import Tension.Models.Status

/-!
# Device names

A parsed device name is a pattern for complete device names. Merging two patterns yields the
pattern of the names that match both. Soft placement drops constraints instead of failing.
-/

namespace Tension.Devices

/-- A component of a parsed name: `has_job` and `job`, and so on. -/
structure Component (α : Type) where
  has : Bool
  value : α

/-- `DeviceNameUtils::ParsedName`. -/
structure ParsedName where
  job : Component String
  replica : Component Int
  task : Component Int
  type : Component String
  id : Component Int

namespace Component

variable {α : Type} [DecidableEq α]

/-- The component of a pattern admits that of a complete name. -/
def admits (pattern name : Component α) : Bool := !(pattern.has && pattern.value ≠ name.value)

/-- A block of `MergeDevNames`, which fails if both components are there and differ. -/
def merge (target other : Component α) : Option (Component α) :=
  if other.has then
    if target.has && target.value ≠ other.value then none else some other
  else some target

/-- The merged component admits what both components admit. -/
theorem admits_merge {target other m : Component α} (h : target.merge other = some m)
    (name : Component α) : m.admits name = (target.admits name && other.admits name) := by
  grind [merge, admits]

/-- Components that cannot be merged admit nothing in common. -/
theorem not_admits_of_merge {target other : Component α} (h : target.merge other = none)
    (name : Component α) : (target.admits name && other.admits name) = false := by
  grind [merge, admits]

end Component

/-- `ParsedNameToString`. -/
def parsedNameToString (pn : ParsedName) : String :=
  (if pn.job.has then "/job:" ++ pn.job.value else "") ++
  (if pn.replica.has then "/replica:" ++ toString pn.replica.value else "") ++
  (if pn.task.has then "/task:" ++ toString pn.task.value else "") ++
  if pn.type.has then
    "/device:" ++ pn.type.value ++ ":" ++ if pn.id.has then toString pn.id.value else "*"
  else ""

/-- The name has all components. -/
def ParsedName.isComplete (name : ParsedName) : Bool :=
  name.job.has && name.replica.has && name.task.has && name.type.has && name.id.has

/-- `IsCompleteSpecification`, whose check fails for a name that is not complete. -/
def isCompleteSpecification (pattern name : ParsedName) : Option Bool :=
  if name.isComplete then
    some (pattern.job.admits name.job && pattern.replica.admits name.replica &&
      pattern.task.admits name.task && pattern.type.admits name.type && pattern.id.admits name.id)
  else none

/-- The errors of `MergeDevNames`. -/
def cannotMerge (what : String) (target other : ParsedName) : Status :=
  .invalidArgument ("Cannot merge devices with incompatible " ++ what ++ ": '" ++
    parsedNameToString target ++ "' and '" ++ parsedNameToString other ++ "'")

/-- `MergeDevNames`, with the target after the call. -/
def mergeDevNames (target other : ParsedName) (allowSoftPlacement : Bool) : ParsedName × Status :=
  match target.job.merge other.job with
  | none => (target, cannotMerge "jobs" target other)
  | some job =>
    let target := { target with job }
    match target.replica.merge other.replica with
    | none => (target, cannotMerge "replicas" target other)
    | some replica =>
      let target := { target with replica }
      match target.task.merge other.task with
      | none => (target, cannotMerge "tasks" target other)
      | some task =>
        let target := { target with task }
        match target.type.merge other.type with
        | none =>
          if allowSoftPlacement then ({ target with id.has := false, type.has := false }, .ok)
          else (target, cannotMerge "types" target other)
        | some type =>
          let target := { target with type }
          match target.id.merge other.id with
          | none =>
            if allowSoftPlacement then ({ target with id.has := false }, .ok)
            else (target, cannotMerge "ids" target other)
          | some id => ({ target with id }, .ok)

/-- A complete name matches a pattern. -/
def Matches (pattern name : ParsedName) : Prop := isCompleteSpecification pattern name = some true

/-- Every pattern is matched by some complete name. -/
theorem exists_matches (pattern : ParsedName) : ∃ name, Matches pattern name := by
  obtain ⟨job, replica, task, type, id⟩ := pattern
  refine ⟨⟨⟨true, job.value⟩, ⟨true, replica.value⟩, ⟨true, task.value⟩, ⟨true, type.value⟩,
    ⟨true, id.value⟩⟩, ?_⟩
  simp [Matches, isCompleteSpecification, ParsedName.isComplete, Component.admits]

theorem matches_iff {pattern name : ParsedName} : Matches pattern name ↔ name.isComplete = true ∧
    pattern.job.admits name.job = true ∧ pattern.replica.admits name.replica = true ∧
    pattern.task.admits name.task = true ∧ pattern.type.admits name.type = true ∧
    pattern.id.admits name.id = true := by
  rw [Matches, isCompleteSpecification]
  split
  · next hcomplete => simp [hcomplete, and_assoc]
  · next hcomplete => simp [hcomplete]

variable (a b : ParsedName)

/-- Either all components are merged, or no name matches both patterns. -/
theorem mergeDevNames_cases (soft : Bool) :
    (∃ m, mergeDevNames a b soft = (m, .ok) ∧ ∀ n, Matches m n ↔ Matches a n ∧ Matches b n) ∨
      (∀ n, Matches a n → ¬Matches b n) ∧
        (soft = false → (mergeDevNames a b soft).2.code ≠ .ok) := by
  -- Components that cannot be merged rule out every name.
  have hnone {α : Type} [DecidableEq α] {component : ParsedName → Component α}
      (hc : ∀ p n, Matches p n → (component p).admits (component n) = true)
      (h : (component a).merge (component b) = none) (n : ParsedName) (ha : Matches a n) :
      ¬Matches b n := fun hb => by
    simpa [hc a n ha, hc b n hb] using Component.not_admits_of_merge h (component n)
  rw [mergeDevNames]
  rcases hjob : a.job.merge b.job with _ | job
  · exact .inr ⟨hnone (fun _ _ h => (matches_iff.mp h).2.1) hjob, by simp [cannotMerge]⟩
  rcases hreplica : a.replica.merge b.replica with _ | replica
  · exact .inr ⟨hnone (fun _ _ h => (matches_iff.mp h).2.2.1) hreplica,
      by simp [cannotMerge, hreplica]⟩
  rcases htask : a.task.merge b.task with _ | task
  · exact .inr ⟨hnone (fun _ _ h => (matches_iff.mp h).2.2.2.1) htask,
      by simp [cannotMerge, hreplica, htask]⟩
  rcases htype : a.type.merge b.type with _ | type
  · refine .inr ⟨hnone (fun _ _ h => (matches_iff.mp h).2.2.2.2.1) htype, fun hsoft => ?_⟩
    simp [cannotMerge, hreplica, htask, htype, hsoft]
  rcases hid : a.id.merge b.id with _ | id
  · refine .inr ⟨hnone (fun _ _ h => (matches_iff.mp h).2.2.2.2.2) hid, fun hsoft => ?_⟩
    simp [cannotMerge, hreplica, htask, htype, hid, hsoft]
  refine .inl ⟨⟨job, replica, task, type, id⟩, by simp [hreplica, htask, htype, hid], fun n => ?_⟩
  simp only [matches_iff, Component.admits_merge hjob, Component.admits_merge hreplica,
    Component.admits_merge htask, Component.admits_merge htype, Component.admits_merge hid,
    Bool.and_eq_true]
  tauto

/-- Merging without soft placement succeeds. -/
def Merges : Prop := (mergeDevNames a b false).2.code = .ok

/-- The pattern that is left by merging without soft placement. -/
def merged : ParsedName := (mergeDevNames a b false).1

theorem matches_merged {a b n : ParsedName} (h : Merges a b) :
    Matches (merged a b) n ↔ Matches a n ∧ Matches b n := by
  rcases mergeDevNames_cases a b false with ⟨m, hm, hiff⟩ | ⟨-, hfail⟩
  · rw [merged, hm]
    exact hiff n
  · exact absurd h (hfail rfl)

theorem merges_iff {a b : ParsedName} : Merges a b ↔ ∃ n, Matches a n ∧ Matches b n := by
  constructor
  · intro h
    obtain ⟨n, hn⟩ := exists_matches (merged a b)
    exact ⟨n, (matches_merged h).mp hn⟩
  · rintro ⟨n, ha, hb⟩
    rcases mergeDevNames_cases a b false with ⟨m, hm, -⟩ | ⟨hnone, -⟩
    · rw [Merges, hm]
      rfl
    · exact absurd hb (hnone n ha)

/-- Merging is the meet of patterns, read as sets of complete names. -/
structure Meets (a b c : ParsedName) : Prop where
  success : Merges a b ↔ ∃ n, Matches a n ∧ Matches b n
  result : Merges a b → ∀ n, Matches (merged a b) n ↔ Matches a n ∧ Matches b n
  comm : Merges a b → Merges b a ∧ ∀ n, Matches (merged a b) n ↔ Matches (merged b a) n
  assoc : Merges a b → Merges b c → Merges (merged a b) c → Merges a (merged b c) →
    ∀ n, Matches (merged (merged a b) c) n ↔ Matches (merged a (merged b c)) n
  /-- Soft placement excludes no name that matches both patterns. -/
  soft : ∀ n, Matches a n → Matches b n → Matches (mergeDevNames a b true).1 n

/-- For all patterns, merging is the meet. -/
theorem mergeDevNames_meets (a b c : ParsedName) : Meets a b c := by
  refine ⟨merges_iff, fun h _ => matches_merged h, fun h => ?_, fun hab hbc h h' n => ?_,
    fun n ha hb => ?_⟩
  · have h' : Merges b a := by
      obtain ⟨n, ha, hb⟩ := merges_iff.mp h
      exact merges_iff.mpr ⟨n, hb, ha⟩
    exact ⟨h', fun n => by rw [matches_merged h, matches_merged h', and_comm]⟩
  · rw [matches_merged h, matches_merged hab, matches_merged h', matches_merged hbc, and_assoc]
  · rcases mergeDevNames_cases a b true with ⟨m, hm, hiff⟩ | ⟨hnone, -⟩
    · rw [hm]
      exact (hiff n).mpr ⟨ha, hb⟩
    · exact absurd hb (hnone n ha)

end Tension.Devices
