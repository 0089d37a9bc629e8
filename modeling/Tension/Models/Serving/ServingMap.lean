import Mathlib.Data.List.Sort
import Mathlib.Data.Prod.Lex
import Mathlib.Data.String.Basic
import Mathlib.Tactic
import Tension.Models.Serving.LoaderHarness

/-!
# The handles map

`ServingMap::Update` sorts the ready harnesses by name and version and enters each of
them under its own version, and the last one of every name once more as the latest.
-/

namespace Tension.Serving

open List

/-- `ServableRequest`: a version of a stream, or its latest one. -/
structure ServableRequest where
  /-- The name of the stream. -/
  name : String
  /-- The version, absent for the latest one. -/
  version : Option Int
  deriving DecidableEq, Repr

namespace ServableRequest

/-- `ServableRequest::FromId`. -/
def fromId (id : ServableId) : ServableRequest := ⟨id.name, some id.version⟩

/-- `ServableRequest::Latest`. -/
def latest (name : String) : ServableRequest := ⟨name, none⟩

/-- `ServableRequest::DebugString`. -/
def debugString (request : ServableRequest) : String :=
  match request.version with
  | some version => "Specific(" ++ request.name ++ ", " ++ toString version ++ ")"
  | none => "Latest(" ++ request.name ++ ")"

end ServableRequest

variable {ρ : Type*}

/-- The order of `CompareRequests`: by name, then by version. -/
def compareIds (a b : ServableId × ρ) : Prop :=
  toLex (a.1.name, a.1.version) ≤ toLex (b.1.name, b.1.version)

instance : DecidableRel (compareIds (ρ := ρ)) := fun a b =>
  inferInstanceAs (Decidable (toLex (a.1.name, a.1.version) ≤ toLex (b.1.name, b.1.version)))

instance : Std.Total (compareIds (ρ := ρ)) := ⟨fun _ _ => le_total _ _⟩

instance : IsTrans (ServableId × ρ) compareIds := ⟨fun _ _ _ => le_trans⟩

/-- The loop of `Update` over the sorted harnesses. -/
def buildHandles : List (ServableId × ρ) → List (ServableRequest × ρ)
  | [] => []
  | [a] => [(.fromId a.1, a.2), (.latest a.1.name, a.2)]
  | a :: b :: rest =>
    (.fromId a.1, a.2) ::
      ((if b.1.name ≠ a.1.name then [(.latest a.1.name, a.2)] else []) ++
        buildHandles (b :: rest))

/-- The new handles map for the ready harnesses. -/
def handlesOf (ready : List (ServableId × ρ)) : List (ServableRequest × ρ) :=
  buildHandles (ready.insertionSort compareIds)

variable {a : ServableId × ρ} {l : List (ServableId × ρ)} {r : ρ}

/-- Versions of one stream compare as in the sorted list. -/
theorem version_le_of_compareIds {b : ServableId × ρ} (h : compareIds a b)
    (hname : a.1.name = b.1.name) : a.1.version ≤ b.1.version := by
  rw [compareIds, Prod.Lex.toLex_le_toLex] at h
  rcases h with hlt | ⟨-, hle⟩
  · exact absurd hname hlt.ne
  · exact hle

theorem name_le_of_compareIds {b : ServableId × ρ} (h : compareIds a b) : a.1.name ≤ b.1.name := by
  rw [compareIds, Prod.Lex.toLex_le_toLex] at h
  rcases h with hlt | ⟨heq, -⟩
  · exact hlt.le
  · exact heq.le

/-- Every entry of the map refers to one of the harnesses. -/
theorem exists_of_mem_buildHandles {q : ServableRequest}
    (h : (q, r) ∈ buildHandles l) : ∃ id, (id, r) ∈ l ∧ q.name = id.name ∧
      (q.version = some id.version ∨ q.version = none) := by
  induction l using buildHandles.induct with
  | case1 => cases h
  | case2 a =>
    simp only [buildHandles, mem_cons, not_mem_nil, or_false] at h
    rcases h with ⟨rfl, rfl⟩ | ⟨rfl, rfl⟩
    · exact ⟨a.1, mem_cons_self, rfl, .inl rfl⟩
    · exact ⟨a.1, mem_cons_self, rfl, .inr rfl⟩
  | case3 a b rest ih =>
    rw [buildHandles, mem_cons, mem_append] at h
    rcases h with heq | hlatest | hrest
    · obtain ⟨rfl, rfl⟩ := Prod.mk.inj heq
      exact ⟨a.1, mem_cons_self, rfl, .inl rfl⟩
    · split at hlatest
      · obtain ⟨rfl, rfl⟩ := Prod.mk.inj (mem_singleton.mp hlatest)
        exact ⟨a.1, mem_cons_self, rfl, .inr rfl⟩
      · cases hlatest
    · obtain ⟨id, hmem, hq⟩ := ih hrest
      exact ⟨id, mem_cons_of_mem a hmem, hq⟩

/-- Every harness is entered under its own version. -/
theorem fromId_mem_buildHandles {id : ServableId}
    (h : (id, r) ∈ l) : (.fromId id, r) ∈ buildHandles l := by
  induction l using buildHandles.induct with
  | case1 => cases h
  | case2 a =>
    rw [mem_singleton] at h
    subst h
    exact mem_cons_self
  | case3 a b rest ih =>
    rcases mem_cons.mp h with rfl | hrest
    · exact mem_cons_self
    · exact mem_cons_of_mem _ (mem_append_right _ (ih hrest))

/-- In a sorted list the entry for the latest version of a name is its largest version. -/
theorem latest_buildHandles (hl : l.Pairwise compareIds)
    {name : String} (h : (.latest name, r) ∈ buildHandles l) : ∃ id, (id, r) ∈ l ∧ id.name = name ∧
      ∀ b ∈ l, b.1.name = name → b.1.version ≤ id.version := by
  induction l using buildHandles.induct with
  | case1 => cases h
  | case2 a =>
    simp only [buildHandles, mem_cons, not_mem_nil, or_false, Prod.mk.injEq,
      ServableRequest.fromId, ServableRequest.latest, ServableRequest.mk.injEq, reduceCtorEq,
      and_false, false_and, false_or, and_true] at h
    refine ⟨a.1, by rw [h.2]; exact mem_cons_self, h.1.symm, fun b hb _ => ?_⟩
    rw [mem_singleton.mp hb]
  | case3 a b rest ih =>
    obtain ⟨ha, hrest⟩ := pairwise_cons.mp hl
    rw [buildHandles, mem_cons, mem_append] at h
    rcases h with heq | hlatest | hmem
    · have hversion := congrArg (fun e => e.1.version) heq
      cases hversion
    · split at hlatest
      · next hne =>
        obtain ⟨hname, rfl⟩ := Prod.mk.inj (mem_singleton.mp hlatest)
        have hnm : name = a.1.name := congrArg ServableRequest.name hname
        refine ⟨a.1, mem_cons_self, hnm.symm, fun c hc hcn => ?_⟩
        rcases mem_cons.mp hc with rfl | hc
        · exact le_rfl
        have hbc : b.1.name ≤ c.1.name := by
          rcases mem_cons.mp hc with rfl | hc'
          · exact le_rfl
          · exact name_le_of_compareIds ((pairwise_cons.mp hrest).1 c hc')
        have hab : a.1.name ≤ b.1.name := name_le_of_compareIds (ha b mem_cons_self)
        have heq : b.1.name = a.1.name := le_antisymm (hbc.trans (hcn.trans hnm).le) hab
        exact absurd heq hne
      · cases hlatest
    · obtain ⟨id, hid, hname, hmax⟩ := ih hrest hmem
      refine ⟨id, mem_cons_of_mem a hid, hname, fun c hc hcn => ?_⟩
      rcases mem_cons.mp hc with rfl | hc
      · exact version_le_of_compareIds (ha (id, r) hid) (hcn.trans hname.symm)
      · exact hmax c hc hcn

/-- Every name of the harnesses has a latest entry. -/
theorem exists_latest_buildHandles (h : a ∈ l) : ∃ r, (.latest a.1.name, r) ∈ buildHandles l := by
  induction l using buildHandles.induct generalizing a with
  | case1 => cases h
  | case2 b =>
    obtain rfl := mem_singleton.mp h
    exact ⟨a.2, mem_cons_of_mem _ (mem_singleton_self _)⟩
  | case3 b c rest ih =>
    rw [buildHandles]
    rcases mem_cons.mp h with rfl | h
    · by_cases hname : c.1.name ≠ a.1.name
      · rw [if_pos hname]
        exact ⟨a.2, mem_cons_of_mem _ (mem_append_left _ (mem_singleton_self _))⟩
      · -- the names go on, so the entry stands further back
        obtain ⟨r, hr⟩ := ih (mem_cons_self)
        rw [not_not.mp hname] at hr
        exact ⟨r, mem_cons_of_mem _ (mem_append_right _ hr)⟩
    · obtain ⟨r, hr⟩ := ih h
      exact ⟨r, mem_cons_of_mem _ (mem_append_right _ hr)⟩

theorem mem_sorted {ready : List (ServableId × ρ)} :
    a ∈ ready.insertionSort compareIds ↔ a ∈ ready :=
  (perm_insertionSort compareIds ready).mem_iff

end Tension.Serving
