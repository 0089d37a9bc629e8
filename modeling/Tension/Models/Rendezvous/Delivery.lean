import Mathlib.Data.List.Induction
import Mathlib.Data.List.Nodup
import Mathlib.Data.List.Perm.Basic
import Mathlib.Data.List.TakeWhile
import Mathlib.Data.Set.Function
import Tension.Core.Pairing
import Tension.Models.Rendezvous.LocalRendezvous

/-!
# Sends and receives are paired in order

Until the first abort the queue of a key is the surplus of its senders or of its receivers,
and the closures taken out of the table are those of the receivers that have a partner. The
first abort takes all waiters out of the table, and from then on the table stays empty.
-/

namespace Tension.Rendezvous

open Pairing LocalRendezvous List Option
open Pending (done)

variable {V A : Type}

/-! ## Histories -/

/-- The elements of a list with one more at its end. -/
theorem getElem?_concat_eq_some {α : Type*} {l : List α} {x y : α} {i : Nat} :
    (l ++ [x])[i]? = some y ↔ l[i]? = some y ∨ i = l.length ∧ x = y := by
  rcases lt_trichotomy i l.length with hlt | rfl | hgt
  · rw [getElem?_append_left hlt]
    exact ⟨.inl, fun h => h.resolve_right fun h => hlt.ne h.1⟩
  · simp
  · rw [getElem?_eq_none (by rw [length_append]; exact hgt), getElem?_eq_none hgt.le]
    simp [hgt.ne']

theorem sends_concat (history : List (Event V A)) (e : Event V A) (key : String) :
    sends (history ++ [e]) key = sends history key ++ sends [e] key :=
  filterMap_append

theorem recvs_concat_recv (history : List (Event V A)) (key' : String) (recvArgs : A)
    (key : String) : recvs (history ++ [.recv key' recvArgs]) key =
      recvs history key ++ if key' = key then [⟨history.length, recvArgs⟩] else [] := by
  rw [recvs, zipIdx_append, recvs]
  by_cases hkey : key' = key
  · simp [hkey]
  · simp [hkey]

variable {history : List (Event V A)} {key : String} {d : Done V A}

theorem recvs_concat {e : Event V A} (h : ∀ key recvArgs, e ≠ .recv key recvArgs) (key : String) :
    recvs (history ++ [e]) key = recvs history key := by
  rw [recvs, zipIdx_append, filterMap_append]
  cases e with
  | recv key' recvArgs => exact absurd rfl (h key' recvArgs)
  | send _ _ _ | abort _ => exact append_nil _

/-- The receivers of a key are its calls of `RecvAsync`. -/
theorem mem_recvs {w : Waiter A} :
    w ∈ recvs history key ↔ history[w.recv]? = some (.recv key w.recvArgs) := by
  rw [recvs, mem_filterMap]
  constructor
  · rintro ⟨⟨e, i⟩, hmem, he⟩
    rw [mem_zipIdx_iff_getElem?] at hmem
    cases e with
    | recv key' recvArgs =>
      dsimp only at he
      split at he
      · next hkey =>
        cases he
        rw [← hkey]
        exact hmem
      · cases he
    | send _ _ _ | abort _ => cases he
  · intro h
    refine ⟨(.recv key w.recvArgs, w.recv), mem_zipIdx_iff_getElem?.mpr h, ?_⟩
    exact if_pos rfl

theorem nodup_recvs (history : List (Event V A)) (key : String) :
    ((recvs history key).map Waiter.recv).Nodup := by
  induction history using reverseRecOn with
  | nil => exact nodup_nil
  | append_singleton history e ih =>
    cases e with
    | send _ _ _ | abort _ =>
      rw [recvs_concat nofun]
      exact ih
    | recv key' recvArgs =>
      rw [recvs_concat_recv]
      split
      · -- the new receiver has a larger number than all before it
        rw [map_append, map_singleton, ← concat_eq_append]
        refine ih.concat fun hmem => ?_
        obtain ⟨w, hw, hrecv⟩ := mem_map.mp hmem
        rw [mem_recvs] at hw
        have hlt := (List.getElem?_eq_some_iff.mp hw).1
        exact hlt.ne hrecv
      · rw [append_nil]
        exact ih

/-- A receiver has one key and one place among the receivers of the key. -/
theorem recvs_inj {key' : String} {i j : Nat} {w w' : Waiter A}
    (hi : (recvs history key)[i]? = some w) (hj : (recvs history key')[j]? = some w')
    (h : w.recv = w'.recv) : key = key' ∧ i = j := by
  have hw := mem_recvs.mp (mem_of_getElem? hi)
  have hw' := mem_recvs.mp (mem_of_getElem? hj)
  rw [h, hw', some.injEq] at hw
  injection hw with hkey _
  subst hkey
  have hlt : i < ((recvs history key').map Waiter.recv).length := by
    rw [length_map]
    exact (List.getElem?_eq_some_iff.mp hi).1
  refine ⟨rfl, (getElem?_inj hlt (nodup_recvs history key')).mp ?_⟩
  rw [getElem?_map, getElem?_map, hi, hj, map_some, map_some, h]

/-- The closure gets the value of the sender that its receiver is paired with. -/
def Matched (history : List (Event V A)) (d : Done V A) : Prop :=
  ∃ key, ∃ i : Nat, ∃ m w, (sends history key)[i]? = some m ∧
    (recvs history key)[i]? = some w ∧ d = delivery m w

theorem sends_concat_send (history : List (Event V A)) (key' : String) (m : Message V A)
    (key : String) : sends (history ++ [.send key' m .ok]) key =
      sends history key ++ if key' = key then [m] else [] := by
  by_cases hkey : key' = key
  · simp [sends, hkey]
  · simp [sends, hkey]

/-- A new message is matched with the receiver in its place. -/
theorem matched_send {m : Message V A} :
    Matched (history ++ [.send key m .ok]) d ↔ Matched history d ∨
      ∃ w, (recvs history key)[(sends history key).length]? = some w ∧ d = delivery m w := by
  have hrecvs : ∀ key', recvs (history ++ [.send key m .ok]) key' = recvs history key' :=
    recvs_concat nofun
  constructor
  · rintro ⟨key', i, m', w, hm, hw, rfl⟩
    rw [hrecvs] at hw
    rw [sends_concat_send] at hm
    split at hm
    · next hkey =>
      subst hkey
      rcases getElem?_concat_eq_some.mp hm with hold | ⟨rfl, rfl⟩
      · exact .inl ⟨key, i, m', w, hold, hw, rfl⟩
      · exact .inr ⟨w, hw, rfl⟩
    · rw [append_nil] at hm
      exact .inl ⟨key', i, m', w, hm, hw, rfl⟩
  · rintro (⟨key', i, m', w, hm, hw, rfl⟩ | ⟨w, hw, rfl⟩)
    · refine ⟨key', i, m', w, ?_, (hrecvs key').symm ▸ hw, rfl⟩
      rw [sends_concat, List.getElem?_append_left (List.getElem?_eq_some_iff.mp hm).1]
      exact hm
    · refine ⟨key, (sends history key).length, m, w, ?_, (hrecvs key).symm ▸ hw, rfl⟩
      rw [sends_concat_send, if_pos rfl]
      exact getElem?_concat_length

/-- A new receiver is matched with the message in its place. -/
theorem matched_recv {recvArgs : A} :
    Matched (history ++ [.recv key recvArgs]) d ↔ Matched history d ∨
      ∃ m, (sends history key)[(recvs history key).length]? = some m ∧
        d = delivery m ⟨history.length, recvArgs⟩ := by
  have hsends : ∀ key', sends (history ++ [.recv key recvArgs]) key' = sends history key' := by
    intro key'
    rw [sends_concat]
    exact append_nil _
  constructor
  · rintro ⟨key', i, m, w, hm, hw, rfl⟩
    rw [hsends] at hm
    rw [recvs_concat_recv] at hw
    split at hw
    · next hkey =>
      subst hkey
      rcases getElem?_concat_eq_some.mp hw with hold | ⟨rfl, rfl⟩
      · exact .inl ⟨key, i, m, w, hm, hold, rfl⟩
      · exact .inr ⟨m, hm, rfl⟩
    · rw [append_nil] at hw
      exact .inl ⟨key', i, m, w, hm, hw, rfl⟩
  · rintro (⟨key', i, m, w, hm, hw, rfl⟩ | ⟨m, hm, rfl⟩)
    · refine ⟨key', i, m, w, (hsends key').symm ▸ hm, ?_, rfl⟩
      rw [recvs_concat_recv, List.getElem?_append_left (List.getElem?_eq_some_iff.mp hw).1]
      exact hw
    · refine ⟨key, (recvs history key).length, m, _, (hsends key).symm ▸ hm, ?_, rfl⟩
      rw [recvs_concat_recv, if_pos rfl]
      exact getElem?_concat_length

/-- Every matched closure is that of a receiver. -/
theorem Matched.exists_recv
    (h : Matched history d) : ∃ key recvArgs, history[d.recv]? = some (.recv key recvArgs) := by
  obtain ⟨key, i, m, w, -, hw, rfl⟩ := h
  exact ⟨key, w.recvArgs, mem_recvs.mp (mem_of_getElem? hw)⟩

namespace LocalRendezvous

variable {s s' : LocalRendezvous V A}

/-! ## Queues -/

variable {h : UInt64} {q : List (Item V A)} {hash : String → UInt64} {K : Set String} {key : String}

/-- Closures that a section adds. -/
theorem dones_perm (running new : List (Pending V A)) (invoked : List (Done V A)) :
    ((running ++ new).map done ++ invoked).Perm
      (new.map done ++ (running.map done ++ invoked)) := by
  rw [map_append, ← append_assoc]
  exact perm_append_comm.append_right _

/-- Closures of other receivers are taken out. -/
theorem nodup_dones {new : List (Done V A)} (h : (s.dones.map Done.recv).Nodup)
    (hperm : s'.dones.Perm (new ++ s.dones)) (hfresh : (new.map Done.recv).Nodup)
    (hnew : ∀ d ∈ new, ∀ d' ∈ s.dones, d.recv ≠ d'.recv) : (s'.dones.map Done.recv).Nodup := by
  refine (hperm.map Done.recv).nodup_iff.mpr (pairwise_map.mpr ?_)
  exact pairwise_append.mpr ⟨pairwise_map.mp hfresh, pairwise_map.mp h, hnew⟩

theorem dones_of_running {new : List (Pending V A)} (hrunning : s'.running = s.running ++ new)
    (hinvoked : s'.invoked = s.invoked) : s'.dones.Perm (new.map done ++ s.dones) := by
  rw [LocalRendezvous.dones, hrunning, hinvoked]
  exact dones_perm _ _ _

/-! ## Before the first abort -/

/-- The state before the first abort, for a set of keys that the hash tells apart. -/
structure Open (hash : String → UInt64) (K : Set String) (s : LocalRendezvous V A) : Prop where
  status : s.status.code = .ok
  quiet : ∀ e ∈ s.history, e.aborts = none
  keys : ∀ (r : Nat) key recvArgs, s.history[r]? = some (.recv key recvArgs) → key ∈ K
  queue : ∀ key ∈ K, s.queue (hash key) = backlog (sends s.history key) (recvs s.history key)
  used : ∀ h, s.queue h ≠ [] → ∃ key ∈ K, hash key = h
  dones : ∀ d, d ∈ s.dones ↔ Matched s.history d
  once : (s.dones.map Done.recv).Nodup

theorem open_initial (hash : String → UInt64) (K : Set String) :
    Open hash K (initial : LocalRendezvous V A) where
  status := rfl
  quiet := nofun
  keys := nofun
  queue := fun _ _ => rfl
  used := fun _ h => absurd rfl h
  dones := by
    refine fun d => ⟨nofun, fun h => ?_⟩
    obtain ⟨_, _, hr⟩ := h.exists_recv
    cases hr
  once := nodup_nil

/-- The queues and closures after a section that has changed the queue of one key. -/
theorem Open.update (h : s.Open hash K) (hinj : Set.InjOn hash K) (hkey : key ∈ K)
    {new : List (Pending V A)} {e : Event V A} {ms : List (Message V A)} {ws : List (Waiter A)}
    (hstatus : s'.status = s.status) (htable : s'.table = s.table.insert (hash key) q)
    (hrunning : s'.running = s.running ++ new) (hinvoked : s'.invoked = s.invoked)
    (hhistory : s'.history = s.history ++ [e])
    (he : e.aborts = none) (hkeys : ∀ key' recvArgs, e = .recv key' recvArgs → key' = key)
    (hsends : ∀ key', sends (s.history ++ [e]) key' =
      sends s.history key' ++ if key = key' then ms else [])
    (hrecvs : ∀ key', recvs (s.history ++ [e]) key' =
      recvs s.history key' ++ if key = key' then ws else [])
    (hq : q = backlog (sends s.history key ++ ms) (recvs s.history key ++ ws))
    (hmatched : ∀ d, Matched (s.history ++ [e]) d ↔ Matched s.history d ∨
      d ∈ new.map done) (hfresh : ((new.map done).map Done.recv).Nodup)
    (hnew : ∀ d ∈ new.map done, ∀ d' ∈ s.dones, d.recv ≠ d'.recv) : s'.Open hash K := by
  have hperm := dones_of_running hrunning hinvoked
  refine ⟨hstatus ▸ h.status, ?_, ?_, ?_, ?_, ?_, ?_⟩
  · intro e' he'
    rw [hhistory] at he'
    rcases mem_append.mp he' with hold | hlast
    · exact h.quiet e' hold
    · rw [mem_singleton.mp hlast]
      exact he
  · intro r key' recvArgs hr
    rw [hhistory] at hr
    rcases getElem?_concat_eq_some.mp hr with hr | ⟨-, hr⟩
    · exact h.keys r key' recvArgs hr
    · rw [hkeys key' recvArgs hr]
      exact hkey
  · intro key' hkey'
    rw [LocalRendezvous.queue, htable, hhistory, hsends, hrecvs]
    rcases eq_or_ne key key' with rfl | heq
    · rw [AList.lookup_insert, getD_some, hq, if_pos rfl, if_pos rfl]
    · have hne : hash key' ≠ hash key := fun hhash => heq (hinj hkey hkey' hhash.symm)
      rw [AList.lookup_insert_ne hne, if_neg heq, if_neg heq, append_nil, append_nil]
      exact h.queue key' hkey'
  · intro x hx
    by_cases heq : x = hash key
    · exact ⟨key, hkey, heq.symm⟩
    · rw [LocalRendezvous.queue, htable, AList.lookup_insert_ne heq] at hx
      exact h.used x hx
  · intro d
    rw [hperm.mem_iff, mem_append, h.dones, hhistory, hmatched d, or_comm]
  · exact nodup_dones h.once hperm hfresh hnew

/-- A closure that is still waiting has not been taken out before. -/
theorem Open.fresh (h : s.Open hash K)
    {i : Nat} {w : Waiter A} (hw : (recvs s.history key)[i]? = some w)
    (hi : (sends s.history key).length ≤ i) {d : Done V A} (hd : d ∈ s.dones) :
    w.recv ≠ d.recv := by
  intro heq
  obtain ⟨key', j, m, w', hm, hw', rfl⟩ := (h.dones d).mp hd
  obtain ⟨rfl, rfl⟩ := recvs_inj hw hw' heq
  exact absurd (List.getElem?_eq_some_iff.mp hm).1 (Nat.not_lt.mpr hi)

/-- `Send` before the first abort. -/
theorem Open.send (h : s.Open hash K) (hinj : Set.InjOn hash K) (hkey : key ∈ K) (m : Message V A) :
    (s.send hash key m).Open hash K := by
  have hqueue := h.queue key hkey
  have hsends := sends_concat_send s.history key m
  have hrecvs (key' : String) : recvs (s.history ++ [.send key m .ok]) key' =
      recvs s.history key' ++ if key = key' then [] else [] := by
    rw [recvs_concat nofun, ite_self, append_nil]
  rw [LocalRendezvous.send, if_neg (not_not.mpr h.status)]
  split
  · next w rest hfront =>
    rw [hqueue] at hfront
    obtain ⟨hw, hrest⟩ := backlog_of_cons_inr hfront m
    refine h.update hinj hkey rfl rfl rfl rfl rfl rfl nofun hsends hrecvs ?_ ?_ (nodup_singleton _)
      ?_
    · rw [append_nil, hrest]
    · intro d
      rw [matched_send, hw]
      simp
    · intro d hd d' hd'
      rw [mem_singleton.mp hd]
      exact h.fresh hw le_rfl hd'
  · next hfront =>
    rw [hqueue] at hfront
    obtain ⟨hle, hpush⟩ := backlog_concat_left hfront m
    refine h.update hinj hkey rfl rfl (append_nil _).symm rfl rfl rfl nofun hsends hrecvs ?_ ?_
      nodup_nil nofun
    · rw [append_nil, hpush, hqueue]
    · intro d
      rw [matched_send, getElem?_eq_none hle]
      simp

/-- `RecvAsync` before the first abort. -/
theorem Open.recvAsync [Inhabited V] [Inhabited A]
    (h : s.Open hash K) (hinj : Set.InjOn hash K) (hkey : key ∈ K) (recvArgs : A) :
    (s.recvAsync hash key recvArgs).Open hash K := by
  have hqueue := h.queue key hkey
  have hsends (key' : String) : sends (s.history ++ [.recv key recvArgs]) key' =
      sends s.history key' ++ if key = key' then [] else [] := by
    rw [sends_concat, ite_self]
    rfl
  have hrecvs := recvs_concat_recv s.history key recvArgs
  have hevent : ∀ key' recvArgs', (.recv key recvArgs : Event V A) = .recv key' recvArgs' →
      key' = key := by
    rintro key' recvArgs' heq
    cases heq
    rfl
  rw [LocalRendezvous.recvAsync, if_neg (not_not.mpr h.status)]
  split
  · next m rest hfront =>
    rw [hqueue] at hfront
    obtain ⟨hm, hrest⟩ := backlog_of_cons_inl hfront (⟨s.history.length, recvArgs⟩ : Waiter A)
    refine h.update hinj hkey rfl rfl rfl rfl rfl rfl hevent hsends hrecvs ?_ ?_ (nodup_singleton _)
      ?_
    · rw [append_nil, hrest]
    · intro d
      rw [matched_recv, hm]
      simp
    · intro d hd d' hd' heq
      rw [mem_singleton.mp hd] at heq
      obtain ⟨key', recvArgs', hr⟩ := ((h.dones d').mp hd').exists_recv
      rw [← heq] at hr
      exact absurd (List.getElem?_eq_some_iff.mp hr).1 (lt_irrefl _)
  · next hfront =>
    rw [hqueue] at hfront
    obtain ⟨hle, hpush⟩ := backlog_concat_right hfront (⟨s.history.length, recvArgs⟩ : Waiter A)
    refine h.update hinj hkey rfl rfl (append_nil _).symm rfl rfl rfl hevent hsends hrecvs ?_ ?_
      nodup_nil nofun
    · rw [append_nil, hpush, hqueue]
    · intro d
      rw [matched_recv, getElem?_eq_none hle]
      simp

/-! ## After the first abort -/

/-- The state after the first abort. -/
structure Closed (s : LocalRendezvous V A) (before after : List (Event V A)) (error : Status) :
    Prop where
  history : s.history = before ++ .abort error :: after
  quiet : ∀ e ∈ before, e.aborts = none
  bad : error.code ≠ .ok
  status : s.status = error
  table : s.table = ∅
  refused : ∀ key m result, .send key m result ∈ after → result.code ≠ .ok
  matched : ∀ d, Matched before d → d ∈ s.dones
  answers : ∀ d ∈ s.dones, (Matched before d ∨ d.status = error) ∧ d.recv < s.history.length
  answered : ∀ (r : Nat) key recvArgs, s.history[r]? = some (.recv key recvArgs) →
    ∃ d ∈ s.dones, d.recv = r
  once : (s.dones.map Done.recv).Nodup

theorem queue_of_mem (he : ⟨h, q⟩ ∈ s.table.entries) : s.queue h = q := by
  rw [LocalRendezvous.queue, mem_def.mp (AList.mem_lookup_iff.mpr he)]
  rfl

theorem mem_of_queue {x : Item V A} (hx : x ∈ s.queue h) :
    ∃ q, ⟨h, q⟩ ∈ s.table.entries ∧ x ∈ q := by
  rw [LocalRendezvous.queue] at hx
  cases hq : s.table.lookup h with
  | none =>
    rw [hq] at hx
    cases hx
  | some q =>
    rw [hq] at hx
    exact ⟨q, AList.mem_lookup_iff.mp hq, hx⟩

section Abort

variable {hash : String → UInt64} {K : Set String}

/-- The waiters under one hash are the receivers of its key without a partner. -/
theorem Open.waiters_entry (h : s.Open hash K) {x : UInt64} {q : List (Item V A)}
    (he : ⟨x, q⟩ ∈ s.table.entries) (hq : q ≠ []) : ∃ key, hash key = x ∧
      q.filterMap Sum.getRight? = (recvs s.history key).drop (sends s.history key).length := by
  have hqueue := queue_of_mem he
  obtain ⟨key, hkey, rfl⟩ := h.used x (by rw [hqueue]; exact hq)
  refine ⟨key, rfl, ?_⟩
  rw [← hqueue, h.queue key hkey, filterMap_backlog]

/-- A waiter of the table is a receiver without a partner. -/
theorem Open.of_mem_entry (h : s.Open hash K) {x : UInt64} {q : List (Item V A)}
    (he : ⟨x, q⟩ ∈ s.table.entries) {w : Waiter A} (hw : w ∈ q.filterMap Sum.getRight?) :
    ∃ key, ∃ i : Nat, hash key = x ∧ (sends s.history key).length ≤ i ∧
      (recvs s.history key)[i]? = some w := by
  have hq : q ≠ [] := by
    rintro rfl
    cases hw
  obtain ⟨key, hx, heq⟩ := h.waiters_entry he hq
  rw [heq] at hw
  obtain ⟨i, hi⟩ := mem_iff_getElem?.mp hw
  rw [getElem?_drop] at hi
  exact ⟨key, _, hx, Nat.le_add_right _ _, hi⟩

/-- A receiver without a partner waits in the table. -/
theorem Open.mem_waiters (h : s.Open hash K) {key : String} {i : Nat} {w : Waiter A}
    (hi : (sends s.history key).length ≤ i) (hw : (recvs s.history key)[i]? = some w) :
    w ∈ s.waiters := by
  have hkey : key ∈ K := h.keys _ _ _ (mem_recvs.mp (mem_of_getElem? hw))
  have hqueue : .inr w ∈ s.queue (hash key) := by
    rw [h.queue key hkey]
    exact inr_mem_backlog.mpr ⟨i, hi, hw⟩
  obtain ⟨q, he, hq⟩ := mem_of_queue hqueue
  exact mem_flatMap.mpr ⟨_, he, mem_filterMap.mpr ⟨_, hq, rfl⟩⟩

/-- Every waiter waits once. -/
theorem Open.nodup_waiters (h : s.Open hash K) : (s.waiters.map Waiter.recv).Nodup := by
  rw [waiters, map_flatMap, nodup_flatMap]
  refine ⟨fun entry he => ?_, ?_⟩
  · by_cases hq : entry.2 = []
    · rw [hq]
      exact nodup_nil
    · obtain ⟨key, -, heq⟩ := h.waiters_entry he hq
      rw [heq]
      exact (nodup_recvs s.history key).sublist ((drop_sublist _ _).map _)
  · -- entries have different hashes, hence different keys and different receivers
    have hkeys : s.table.entries.Pairwise fun e e' => e.1 ≠ e'.1 :=
      pairwise_map.mp s.table.nodupKeys
    refine hkeys.imp_of_mem fun {e e'} he he' hne => ?_
    intro r hr hr'
    obtain ⟨w, hw, hwr⟩ := mem_map.mp hr
    obtain ⟨w', hw', hwr'⟩ := mem_map.mp hr'
    obtain ⟨key, i, hkey, -, hi⟩ := h.of_mem_entry he hw
    obtain ⟨key', i', hkey', -, hi'⟩ := h.of_mem_entry he' hw'
    obtain ⟨rfl, -⟩ := recvs_inj hi hi' (hwr.trans hwr'.symm)
    exact hne (hkey.symm.trans hkey')

/-- The first abort. -/
theorem Open.startAbort [Inhabited V] [Inhabited A] (h : s.Open hash K) {error : Status}
    (hs : s.startAbort error = some s') : s'.Closed s.history [] error := by
  rw [LocalRendezvous.startAbort] at hs
  split at hs
  · cases hs
  · next hbad =>
    cases hs
    set new : List (Pending V A) :=
      s.waiters.map fun w => ⟨s.history.length, abortion error w⟩
    have hdones : new.map done = s.waiters.map (abortion error) := by
      rw [List.map_map]
      rfl
    have hperm := dones_perm s.running new s.invoked
    rw [hdones] at hperm
    have hmem : ∀ d, d ∈ (s.running ++ new).map done ++ s.invoked ↔
        d ∈ s.waiters.map (abortion error) ∨ d ∈ s.dones := by
      intro d
      rw [hperm.mem_iff, mem_append]
      rfl
    -- a waiter of the table is a receiver of the history that has not been answered
    have hwaiter : ∀ w ∈ s.waiters, ∃ key, ∃ i : Nat, (sends s.history key).length ≤ i ∧
        (recvs s.history key)[i]? = some w := by
      intro w hw
      obtain ⟨entry, he, hw⟩ := mem_flatMap.mp hw
      obtain ⟨key, i, -, hi, hw⟩ := h.of_mem_entry he hw
      exact ⟨key, i, hi, hw⟩
    refine ⟨rfl, h.quiet, hbad, if_pos h.status, rfl, nofun, ?_, ?_, ?_, ?_⟩
    · intro d hd
      exact (hmem d).mpr (.inr ((h.dones d).mpr hd))
    · intro d hd
      rw [length_append]
      rcases (hmem d).mp hd with hd | hd
      · obtain ⟨w, hw, rfl⟩ := mem_map.mp hd
        obtain ⟨key, i, -, hi⟩ := hwaiter w hw
        have hlt := (List.getElem?_eq_some_iff.mp (mem_recvs.mp (List.mem_of_getElem? hi))).1
        exact ⟨.inr rfl, Nat.lt_add_right _ hlt⟩
      · have hmatched := (h.dones d).mp hd
        obtain ⟨_, _, hr⟩ := hmatched.exists_recv
        exact ⟨.inl hmatched, Nat.lt_add_right _ (List.getElem?_eq_some_iff.mp hr).1⟩
    · intro r key recvArgs hr
      rcases getElem?_concat_eq_some.mp hr with hr | ⟨-, hr⟩
      · obtain ⟨i, hi⟩ := mem_iff_getElem?.mp
          (mem_recvs.mpr hr : (⟨r, recvArgs⟩ : Waiter A) ∈ recvs s.history key)
        rcases lt_or_ge i (sends s.history key).length with hlt | hge
        · refine ⟨delivery _ _, (hmem _).mpr (.inr ((h.dones _).mpr
            ⟨key, i, _, _, getElem?_eq_getElem hlt, hi, rfl⟩)), rfl⟩
        · exact ⟨_, (hmem _).mpr (.inl (mem_map_of_mem (h.mem_waiters hge hi))), rfl⟩
      · cases hr
    · refine nodup_dones h.once hperm (by rw [List.map_map]; exact h.nodup_waiters) ?_
      intro d hd d' hd'
      obtain ⟨w, hw, rfl⟩ := mem_map.mp hd
      obtain ⟨key, i, hle, hi⟩ := hwaiter w hw
      exact h.fresh hi hle hd'

/-- A section after the first abort answers its own caller at most. -/
theorem Closed.extend {before after : List (Event V A)} {error : Status}
    (h : s.Closed before after error) {e : Event V A} {new : List (Pending V A)}
    (hstatus : s'.status = s.status) (htable : s'.table = ∅)
    (hrunning : s'.running = s.running ++ new) (hinvoked : s'.invoked = s.invoked)
    (hhistory : s'.history = s.history ++ [e])
    (hsend : ∀ key m result, e = .send key m result → result.code ≠ .ok)
    (hrecv : ∀ key recvArgs, e = .recv key recvArgs → new ≠ []) (hlength : new.length ≤ 1)
    (hnew : ∀ p ∈ new, p.done.recv = s.history.length ∧ p.done.status = error) :
    s'.Closed before (after ++ [e]) error := by
  have hperm := dones_of_running hrunning hinvoked
  have hmem : ∀ d, d ∈ s'.dones ↔ d ∈ new.map done ∨ d ∈ s.dones := by
    intro d
    rw [hperm.mem_iff, mem_append]
  refine ⟨?_, h.quiet, h.bad, hstatus.trans h.status, htable, ?_, ?_, ?_, ?_, ?_⟩
  · rw [hhistory, h.history, append_assoc]
    rfl
  · intro key m result hmem
    rcases mem_append.mp hmem with hold | hlast
    · exact h.refused key m result hold
    · exact hsend key m result (mem_singleton.mp hlast).symm
  · exact fun d hd => (hmem d).mpr (.inr (h.matched d hd))
  · intro d hd
    rw [hhistory, length_append]
    rcases (hmem d).mp hd with hd | hd
    · obtain ⟨p, hp, rfl⟩ := mem_map.mp hd
      obtain ⟨hr, he⟩ := hnew p hp
      exact ⟨.inr he, hr ▸ Nat.lt_succ_self _⟩
    · obtain ⟨hd, hlt⟩ := h.answers d hd
      exact ⟨hd, Nat.lt_add_right _ hlt⟩
  · intro r key recvArgs hr
    rw [hhistory] at hr
    rcases getElem?_concat_eq_some.mp hr with hr | ⟨rfl, rfl⟩
    · obtain ⟨d, hd, hdr⟩ := h.answered r key recvArgs hr
      exact ⟨d, (hmem d).mpr (.inr hd), hdr⟩
    · obtain ⟨p, hp⟩ := exists_mem_of_ne_nil new (hrecv key recvArgs rfl)
      exact ⟨p.done, (hmem _).mpr (.inl (mem_map_of_mem hp)), (hnew p hp).1⟩
  · refine nodup_dones h.once hperm ?_ fun d hd d' hd' heq => ?_
    · match new, hlength with
      | [], _ => exact nodup_nil
      | [p], _ => exact nodup_singleton _
    · obtain ⟨p, hp, rfl⟩ := mem_map.mp hd
      have hlt := (h.answers d' hd').2
      rw [← heq, (hnew p hp).1] at hlt
      exact lt_irrefl _ hlt

/-! ## Runs -/

/-- The state before or after the first abort. -/
def Sound (hash : String → UInt64) (K : Set String) (s : LocalRendezvous V A) : Prop :=
  s.Open hash K ∨ ∃ before after error, s.Closed before after error

/-- Invoking a closure does not change which closures have been taken out. -/
theorem dones_invoke {i : Nat} {p : Pending V A} (hi : s.running[i]? = some p) :
    ((s.running.eraseIdx i).map done ++ (s.invoked ++ [p.done])).Perm s.dones := by
  obtain ⟨hlt, hp⟩ := List.getElem?_eq_some_iff.mp hi
  have hperm : (p :: s.running.eraseIdx i).Perm s.running := hp ▸ getElem_cons_eraseIdx_perm hlt
  calc (s.running.eraseIdx i).map done ++ (s.invoked ++ [p.done])
      = ((s.running.eraseIdx i).map done ++ s.invoked) ++ [p.done] :=
        (append_assoc _ _ _).symm
    List.Perm _ (p.done :: ((s.running.eraseIdx i).map done ++ s.invoked)) :=
        perm_append_singleton _ _
    List.Perm _ s.dones := (hperm.map done).append_right s.invoked

theorem Sound.invoke (h : s.Sound hash K) {i : Nat} {p : Pending V A}
    (hi : s.running[i]? = some p) : Sound hash K
      { s with running := s.running.eraseIdx i, invoked := s.invoked ++ [p.done] } := by
  have hperm := dones_invoke hi
  rcases h with h | ⟨before, after, error, h⟩
  · refine .inl { h with dones := fun d => ?_, once := ?_ }
    · exact hperm.mem_iff.trans (h.dones d)
    · exact ((hperm.map Done.recv).nodup_iff).mpr h.once
  · refine .inr ⟨before, after, error, { h with
      matched := fun d hd => hperm.mem_iff.mpr (h.matched d hd)
      answers := fun d hd => h.answers d (hperm.mem_iff.mp hd)
      answered := fun r key recvArgs hr => ?_
      once := ((hperm.map Done.recv).nodup_iff).mpr h.once }⟩
    obtain ⟨d, hd, hdr⟩ := h.answered r key recvArgs hr
    exact ⟨d, hperm.mem_iff.mpr hd, hdr⟩

/-- Every move keeps the state sound. -/
theorem Sound.step [Inhabited V] [Inhabited A] (h : s.Sound hash K) (hinj : Set.InjOn hash K)
    {a : Move V A} (ha : ∀ key, a.key = some key → key ∈ K) (hs : s.step hash a = some s') :
    s'.Sound hash K := by
  cases a with
  | send key m =>
    cases hs
    rcases h with h | ⟨before, after, error, h⟩
    · exact .inl (h.send hinj (ha key rfl) m)
    have hbad : s.status.code ≠ .ok := h.status ▸ h.bad
    rw [LocalRendezvous.send, if_pos hbad]
    refine .inr ⟨before, _, error, h.extend rfl h.table (append_nil _).symm rfl rfl ?_
      nofun (Nat.zero_le 1) nofun⟩
    rintro key' m' result heq
    cases heq
    exact hbad
  | recv key recvArgs =>
    cases hs
    rcases h with h | ⟨before, after, error, h⟩
    · exact .inl (h.recvAsync hinj (ha key rfl) recvArgs)
    have hbad : s.status.code ≠ .ok := h.status ▸ h.bad
    rw [LocalRendezvous.recvAsync, if_pos hbad]
    refine .inr ⟨before, _, error, h.extend rfl h.table rfl rfl rfl nofun
      (fun _ _ _ => cons_ne_nil _ _) le_rfl ?_⟩
    intro p hp
    rw [mem_singleton.mp hp]
    exact ⟨rfl, h.status⟩
  | abort error =>
    rcases h with h | ⟨before, after, error', h⟩
    · exact .inr ⟨_, _, _, h.startAbort hs⟩
    rw [LocalRendezvous.step, LocalRendezvous.startAbort] at hs
    split at hs
    · cases hs
    · cases hs
      have hbad : s.status.code ≠ .ok := h.status ▸ h.bad
      have hwaiters : s.waiters = [] := by
        rw [waiters, h.table]
        rfl
      have hrunning : s.running ++ (s.waiters.map fun w =>
          (⟨s.history.length, abortion error w⟩ : Pending V A)) = s.running ++ [] := by
        rw [hwaiters]
        rfl
      exact .inr ⟨before, _, error', h.extend (if_neg hbad) rfl hrunning rfl rfl nofun nofun
        (Nat.zero_le 1) nofun⟩
  | invoke i =>
    obtain ⟨p, hp, rfl⟩ := map_eq_some_iff.mp hs
    exact h.invoke hp

end Abort

/-- The guarantees of a rendezvous, in terms of its calls. -/
structure Paired (s : LocalRendezvous V A) : Prop where
  /-- A queue holds values only or waiters only. -/
  homogeneous : ∀ h, (∀ x ∈ s.queue h, x.isLeft = true) ∨ ∀ x ∈ s.queue h, x.isRight = true
  /-- Values are delivered exactly from the `i`-th sender to the `i`-th receiver of a key. -/
  ordered : ∀ d, (d ∈ s.dones ∧ d.status.code = .ok) ↔ Matched (beforeAbort s.history) d
  /-- No closure is called twice. -/
  once : (s.dones.map Done.recv).Nodup
  /-- An abort leaves no earlier receiver without an answer. -/
  answered : ∀ (a : Nat) error, s.history[a]? = some (.abort error) → ∀ (r : Nat) key recvArgs,
    r < a → s.history[r]? = some (.recv key recvArgs) → ∃ d, d.recv = r ∧
      (d ∈ s.invoked ∨ ∃ p ∈ s.running, p.done = d) ∧
      (Matched (beforeAbort s.history) d ∨ some d.status = s.history.findSome? Event.aborts)
  /-- After an abort nothing is accepted. -/
  refused : ∀ (a j : Nat) error key m result, s.history[a]? = some (.abort error) → a < j →
    s.history[j]? = some (.send key m result) → result.code ≠ .ok

theorem Open.paired {hash : String → UInt64} {K : Set String} (h : s.Open hash K) : s.Paired := by
  have hbefore : beforeAbort s.history = s.history :=
    takeWhile_eq_self_iff.mpr fun e he => by rw [h.quiet e he]; rfl
  have hnone : ∀ (a : Nat) error, s.history[a]? ≠ some (.abort error) := fun a error ha => by
    cases h.quiet _ (mem_of_getElem? ha)
  refine ⟨fun x => ?_, fun d => ?_, h.once, fun a error ha => absurd ha (hnone a error),
    fun a j error key m result ha => absurd ha (hnone a error)⟩
  · by_cases hx : s.queue x = []
    · rw [hx]
      exact .inl nofun
    · obtain ⟨key, hkey, rfl⟩ := h.used x hx
      rw [h.queue key hkey]
      exact homogeneous_backlog _ _
  · rw [hbefore, h.dones d]
    refine ⟨And.left, fun hd => ⟨hd, ?_⟩⟩
    obtain ⟨_, _, _, _, -, -, rfl⟩ := hd
    rfl

theorem Closed.paired {before after : List (Event V A)} {error : Status}
    (h : s.Closed before after error) : s.Paired := by
  have hquiet : ∀ e ∈ before, e.aborts.isNone = true := fun e he => by rw [h.quiet e he]; rfl
  have hbefore : beforeAbort s.history = before := by
    rw [beforeAbort, h.history, takeWhile_append_of_pos hquiet]
    exact append_nil _
  have herror : s.history.findSome? Event.aborts = some error := by
    have hnone : before.findSome? Event.aborts = none := findSome?_eq_none_iff.mpr h.quiet
    rw [h.history, findSome?_append, hnone]
    rfl
  refine ⟨fun x => ?_, fun d => ?_, h.once, ?_, ?_⟩
  · rw [LocalRendezvous.queue, h.table]
    exact .inl nofun
  · rw [hbefore]
    refine ⟨fun ⟨hd, hok⟩ => (h.answers d hd).1.resolve_right fun hstatus => ?_,
      fun hd => ⟨h.matched d hd, ?_⟩⟩
    · rw [hstatus] at hok
      exact h.bad hok
    · obtain ⟨_, _, _, _, -, -, rfl⟩ := hd
      rfl
  · intro a error' ha r key recvArgs hra hr
    obtain ⟨d, hd, hdr⟩ := h.answered r key recvArgs hr
    refine ⟨d, hdr, ?_, ?_⟩
    · rcases mem_append.mp hd with hrunning | hinvoked
      · exact .inr (mem_map.mp hrunning)
      · exact .inl hinvoked
    · rw [hbefore, herror, some.injEq]
      exact (h.answers d hd).1
  · intro a j error' key m result ha haj hj
    have hlen : before.length ≤ a := by
      by_contra hlt
      rw [h.history, getElem?_append_left (Nat.not_le.mp hlt)] at ha
      cases h.quiet _ (mem_of_getElem? ha)
    rw [h.history, getElem?_append_right (hlen.trans haj.le)] at hj
    obtain ⟨k, hk⟩ : ∃ k, j - before.length = k + 1 := ⟨j - before.length - 1, by omega⟩
    rw [hk] at hj
    exact h.refused key m result (mem_of_getElem? hj)

/-- Whatever the order in which senders, receivers and aborts come, a hash that tells the keys in
use apart pairs them in order, answers every receiver at most once and lets no abort leave a
receiver behind. -/
theorem paired_of_run [Inhabited V] [Inhabited A] (hash : String → UInt64)
    (moves : List (Move V A)) (s : LocalRendezvous V A)
    (hinj : Set.InjOn hash { key | ∃ a ∈ moves, a.key = some key })
    (hrun : Run.run (step hash) initial moves = some s) : s.Paired := by
  have hsound : s.Sound hash { key | ∃ a ∈ moves, a.key = some key } :=
    Run.run_invariant (fun _ _ _ h ha hs => h.step hinj ha hs) (.inl (open_initial hash _))
      (Run.admissible_of_mem (fun a ha _ key hkey => ⟨a, ha, hkey⟩) _) hrun
  rcases hsound with h | ⟨before, after, error, h⟩
  · exact h.paired
  · exact h.paired

/-- A receiver waits for a value, a value waits for a receiver, and an abort answers the receiver
that is left. -/
def twoKeys : List (Move Nat Unit) :=
  [.recv "a" (), .send "a" ⟨1, false, ()⟩, .send "b" ⟨2, false, ()⟩, .recv "b" (), .invoke 1,
    .recv "a" (), .abort (.internal "stop"), .send "a" ⟨3, false, ()⟩]

/-- A hash that tells the two keys apart. -/
def twoKeysHash (key : String) : UInt64 := if key = "a" then 1 else 2

/-- Every receiver is called once, the last one by the abort. -/
theorem paired_twoKeys : ∃ s, Run.run (step twoKeysHash) initial twoKeys = some s ∧
      s.dones.map Done.recv = [0, 4, 3] ∧ s.Paired := by
  refine ⟨_, rfl, by decide, ?_⟩
  refine paired_of_run twoKeysHash twoKeys _ ?_ rfl
  rintro x ⟨a, ha, hx⟩ y ⟨b, hb, hy⟩ hxy
  have hkeys : ∀ a ∈ twoKeys, ∀ key, a.key = some key → key = "a" ∨ key = "b" := by
    have hall : ∀ a ∈ twoKeys, a.key = none ∨ a.key = some "a" ∨ a.key = some "b" := by decide
    intro a ha key hkey
    simpa [hkey] using hall a ha
  rcases hkeys a ha x hx with rfl | rfl <;> rcases hkeys b hb y hy with rfl | rfl
  · rfl
  · exact absurd hxy (by decide)
  · exact absurd hxy (by decide)
  · rfl

end LocalRendezvous

end Tension.Rendezvous
