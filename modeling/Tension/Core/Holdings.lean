import Mathlib.Data.List.AList

/-!
# What the entries of a map hold

Every entry of a map holds a list of items. Replacing an entry replaces its items and leaves
those of the other entries, up to the order.
-/

namespace Tension.Holdings

variable {κ ν ι : Type*} (held : κ → ν → List ι)

/-- The items of all entries. -/
def holdings (m : AList fun _ : κ => ν) : List ι := m.entries.flatMap fun e => held e.1 e.2

variable [DecidableEq κ] {m : AList fun _ : κ => ν} {k : κ} {v : ν}

/-- The items of an entry and those of the rest. -/
theorem holdings_of_lookup (h : m.lookup k = some v) :
    (holdings held m).Perm (held k v ++ holdings held (m.erase k)) := by
  obtain ⟨entries, hkeys⟩ := m
  have hmem : ⟨k, v⟩ ∈ entries := (List.mem_dlookup_iff hkeys).mp h
  have hperm : entries.Perm (⟨k, v⟩ :: entries.kerase k) := by
    clear h
    induction entries with
    | nil => cases hmem
    | cons e entries ih =>
      rw [List.nodupKeys_cons] at hkeys
      rcases List.mem_cons.mp hmem with he | hmem
      · rw [List.kerase_cons_eq (congrArg Sigma.fst he), he]
      · have hne : k ≠ e.1 := by
          rintro rfl
          exact hkeys.1 (List.mem_keys_of_mem (s := ⟨_, v⟩) hmem)
        rw [List.kerase_cons_ne hne]
        exact ((ih hkeys.2 hmem).cons e).trans (List.Perm.swap ..)
  exact hperm.flatMap_right _

/-- Removing a key without an entry removes nothing. -/
theorem holdings_erase_of_lookup (h : m.lookup k = none) :
    holdings held (m.erase k) = holdings held m := by
  have hk : k ∉ m.entries.keys := fun hmem => AList.lookup_eq_none.mp h (AList.mem_keys.mpr hmem)
  exact congrArg (List.flatMap _) (List.kerase_of_notMem_keys hk)

end Tension.Holdings
