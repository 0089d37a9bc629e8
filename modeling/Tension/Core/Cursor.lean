import Mathlib

/-!
# Positions in a list with increasing keys

A position is what is left of the list. Looking up a key goes to the first entry that is not
smaller. A list cut into chunks with separating keys is searched in two steps: the first chunk
whose separator is not smaller than the key, then the entries of this chunk.
-/

namespace Tension.Cursor

open List

variable {κ β : Type*} [LinearOrder κ]

/-- The keys of a list of entries increase strictly. -/
def Increasing (l : List (κ × β)) : Prop := l.Pairwise fun a b => a.1 < b.1

variable {l : List (κ × β)} {e : κ × β} {k : κ} {γ : Type*} {content : γ → List (κ × β)}
  {chunks : List (κ × γ)}

/-- No key is larger than the last one. -/
theorem Increasing.le_of_getLast? (hl : Increasing l) {z : κ × β}
    (he : e ∈ l) (hz : l.getLast? = some z) : e.1 ≤ z.1 := by
  obtain ⟨l', rfl⟩ := getLast?_eq_some_iff.mp hz
  obtain ⟨-, -, hlast⟩ := pairwise_append.mp hl
  rcases mem_append.mp he with hmem | hmem
  · exact (hlast e hmem z mem_cons_self).le
  · rw [mem_singleton.mp hmem]

/-- The entries from the first one on whose key is at least `k`. -/
def seek (l : List (κ × β)) (k : κ) : List (κ × β) := l.dropWhile fun e => e.1 < k

theorem seek_cons_of_lt (h : e.1 < k) (l : List (κ × β)) : seek (e :: l) k = seek l k := by
  simp [seek, h]

theorem seek_cons_of_le (h : k ≤ e.1) (l : List (κ × β)) : seek (e :: l) k = e :: l := by
  simp [seek, h]

/-- Entries with smaller keys are skipped. -/
theorem seek_append_of_lt {l₁ : List (κ × β)} (h : ∀ e ∈ l₁, e.1 < k)
    (l₂ : List (κ × β)) : seek (l₁ ++ l₂) k = seek l₂ k := by
  induction l₁ with
  | nil => rfl
  | cons e l₁ ih =>
    rw [cons_append, seek_cons_of_lt (h e mem_cons_self),
      ih fun e' he' => h e' (mem_cons_of_mem e he')]

/-- Entries behind those with keys of at least `k` stay. -/
theorem seek_append_of_le {l₁ l₂ : List (κ × β)} (h : ∀ e ∈ l₂, k ≤ e.1) :
    seek (l₁ ++ l₂) k = seek l₁ k ++ l₂ := by
  induction l₁ with
  | nil =>
    cases l₂ with
    | nil => rfl
    | cons e l₂ => exact seek_cons_of_le (h e mem_cons_self) l₂
  | cons e l₁ ih =>
    rcases lt_or_ge e.1 k with hlt | hge
    · rw [cons_append, seek_cons_of_lt hlt, seek_cons_of_lt hlt, ih]
    · rw [cons_append, seek_cons_of_le hge, seek_cons_of_le hge, cons_append]

theorem seek_suffix (l : List (κ × β)) (k : κ) : seek l k <:+ l := dropWhile_suffix _

/-- Looking up a key does not read the values. -/
theorem seek_map (f : β → γ) (l : List (κ × β)) (k : κ) :
    seek (l.map fun e => (e.1, f e.2)) k = (seek l k).map fun e => (e.1, f e.2) := by
  rw [seek, dropWhile_map]
  rfl

/-- The key that is found is not smaller. -/
theorem le_of_seek_eq_cons {rest : List (κ × β)} (h : seek l k = e :: rest) : k ≤ e.1 := by
  induction l with
  | nil => cases h
  | cons a l ih =>
    rcases lt_or_ge a.1 k with hlt | hge
    · rw [seek_cons_of_lt hlt] at h
      exact ih h
    · rw [seek_cons_of_le hge] at h
      obtain ⟨rfl, -⟩ := cons.inj h
      exact hge

/-- What is skipped has smaller keys. -/
theorem exists_append_seek (l : List (κ × β)) (k : κ) :
    ∃ l₁, l = l₁ ++ seek l k ∧ ∀ e ∈ l₁, e.1 < k := by
  refine ⟨l.takeWhile fun e => e.1 < k, (takeWhile_append_dropWhile ..).symm, ?_⟩
  intro e he
  have hall := all_takeWhile (p := fun e : κ × β => decide (e.1 < k)) (l := l)
  exact of_decide_eq_true (all_eq_true.mp hall e he)

/-- An entry of an increasing list is found at its key. -/
theorem seek_eq_cons_of_mem (hl : Increasing l) (he : e ∈ l) : ∃ rest, seek l e.1 = e :: rest := by
  induction l with
  | nil => cases he
  | cons a l ih =>
    obtain ⟨hhead, htail⟩ := pairwise_cons.mp hl
    rcases mem_cons.mp he with rfl | hmem
    · exact ⟨l, seek_cons_of_le le_rfl l⟩
    · rw [seek_cons_of_lt (hhead e hmem)]
      exact ih htail hmem

/-- The entry that is found has the smallest key that is not smaller. -/
theorem le_of_mem_of_seek_eq_cons {rest : List (κ × β)} (hl : Increasing l)
    {e' : κ × β} (h : seek l k = e :: rest) (he' : e' ∈ l) (hle : k ≤ e'.1) : e.1 ≤ e'.1 := by
  obtain ⟨l₁, hsplit, hsmall⟩ := exists_append_seek l k
  rw [h] at hsplit
  rw [hsplit] at he' hl
  obtain ⟨-, htail, -⟩ := pairwise_append.mp hl
  rcases mem_append.mp he' with hbefore | hafter
  · exact absurd (hsmall e' hbefore) (not_lt.mpr hle)
  · rcases mem_cons.mp hafter with rfl | hrest
    · exact le_rfl
    · exact ((pairwise_cons.mp htail).1 e' hrest).le

/-- All entries of the chunks. -/
def entries {γ : Type*} (content : γ → List (κ × β)) (chunks : List (κ × γ)) : List (κ × β) :=
  chunks.flatMap fun c => content c.2

/-- The keys of a chunk are at most its separator, and those of later chunks are larger. -/
def Separated {γ : Type*} (content : γ → List (κ × β)) (chunks : List (κ × γ)) : Prop :=
  (∀ c ∈ chunks, ∀ e ∈ content c.2, e.1 ≤ c.1) ∧
    chunks.Pairwise fun c c' => ∀ e ∈ content c'.2, c.1 < e.1

theorem Separated.increasing_separators (h : Separated content chunks)
    (hne : ∀ c ∈ chunks, content c.2 ≠ []) : Increasing chunks := by
  refine h.2.imp_of_mem fun {c c'} _ hc' hlater => ?_
  obtain ⟨e, he⟩ := exists_mem_of_ne_nil _ (hne c' hc')
  exact (hlater e he).trans_le (h.1 c' hc' e he)

theorem Increasing.of_entries
    (h : Increasing (entries content chunks)) : ∀ c ∈ chunks, Increasing (content c.2) :=
  (pairwise_flatMap.mp h).1

variable (h : Separated content chunks)
include h

/-- The search in two steps. -/
theorem seek_entries (k : κ) : seek (entries content chunks) k =
      match seek chunks k with
      | [] => []
      | c :: rest => seek (content c.2) k ++ entries content rest := by
  induction chunks with
  | nil => rfl
  | cons c chunks ih =>
    obtain ⟨hkeys, hsep⟩ := h
    obtain ⟨hlater, hsep⟩ := pairwise_cons.mp hsep
    change seek (content c.2 ++ entries content chunks) k = _
    rcases lt_or_ge c.1 k with hlt | hge
    · have hsmall : ∀ e ∈ content c.2, e.1 < k := fun e he =>
        (hkeys c mem_cons_self e he).trans_lt hlt
      rw [seek_append_of_lt hsmall, seek_cons_of_lt hlt,
        ih ⟨fun c' hc' => hkeys c' (mem_cons_of_mem c hc'), hsep⟩]
    · have hlarge : ∀ e ∈ entries content chunks, k ≤ e.1 := by
        intro e he
        obtain ⟨c', hc', he⟩ := mem_flatMap.mp he
        exact hge.trans (hlater c' hc' e he).le
      rw [seek_append_of_le hlarge, seek_cons_of_le hge]

/-- What one chunk can tell of a key: the entry with this key is found there, and what is found
there is found in the whole list. -/
theorem seek_chunk (hl : Increasing (entries content chunks)) (k : κ) :
    ∃ found, ((seek chunks k).head?.elim [] fun c => (seek (content c.2) k).head?.toList) =
        found.head?.toList ∧
      found <+: seek (entries content chunks) k ∧
      ∀ e ∈ entries content chunks, e.1 = k → found ≠ [] := by
  rw [seek_entries h]
  cases hseek : seek chunks k with
  | nil =>
    refine ⟨[], rfl, nil_prefix, ?_⟩
    intro e he hk
    obtain ⟨rest, hrest⟩ := seek_eq_cons_of_mem hl he
    rw [hk, seek_entries h, hseek] at hrest
    cases hrest
  | cons c rest =>
    refine ⟨seek (content c.2) k, rfl, prefix_append _ _, ?_⟩
    intro e he hk hnil
    obtain ⟨tail, htail⟩ := seek_eq_cons_of_mem hl he
    rw [hk, seek_entries h, hseek] at htail
    simp only [hnil, nil_append] at htail
    -- The entry would be in a later chunk, behind the separator.
    have hmem : e ∈ entries content rest := by
      rw [htail]
      exact mem_cons_self
    obtain ⟨c', hc', hec'⟩ := mem_flatMap.mp hmem
    obtain ⟨l₁, hsplit, -⟩ := exists_append_seek chunks k
    have hpairwise := h.2
    rw [hsplit, hseek] at hpairwise
    have hlater := (pairwise_cons.mp (pairwise_append.mp hpairwise).2.1).1 c' hc' e hec'
    exact not_lt.mpr (le_of_seek_eq_cons hseek) (hk ▸ hlater)

end Tension.Cursor
