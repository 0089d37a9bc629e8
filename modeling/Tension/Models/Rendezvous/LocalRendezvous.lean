import Mathlib.Data.List.AList
import Tension.Core.Run
import Tension.Models.Status

/-!
# The local rendezvous

Senders and receivers of a key meet in a queue that holds values without a receiver or
waiters without a value. The section of each call under `mu_` is one step; the closures
that it has taken out of the table are called after the lock is released, so that they
form steps of their own. A receiver is identified by the number of its call.
-/

namespace Tension.Rendezvous

variable {V A : Type}

/-- A value with the arguments of its sender. -/
structure Message (V A : Type) where
  value : V
  isDead : Bool
  sendArgs : A
  deriving DecidableEq, Repr

/-- A waiter: the call of `RecvAsync` whose closure it is, with its arguments. -/
structure Waiter (A : Type) where
  recv : Nat
  recvArgs : A
  deriving DecidableEq, Repr

/-- `Item`: a value being sent, or a waiter. -/
abbrev Item (V A : Type) := Message V A ⊕ Waiter A

/-- The arguments with which the closure of a receiver is called. -/
structure Done (V A : Type) where
  recv : Nat
  status : Status
  sendArgs : A
  recvArgs : A
  value : V
  isDead : Bool
  deriving DecidableEq, Repr

/-- A closure that a call has still to invoke. -/
structure Pending (V A : Type) where
  /-- The call that has removed the closure from the table. -/
  call : Nat
  done : Done V A
  deriving DecidableEq, Repr

/-- The calls in the order of their sections, with the results of `Send`. -/
inductive Event (V A : Type) where
  | send (key : String) (message : Message V A) (result : Status)
  | recv (key : String) (recvArgs : A)
  | abort (status : Status)
  deriving DecidableEq, Repr

/-- `LocalRendezvousImpl` with its callers. -/
structure LocalRendezvous (V A : Type) where
  table : AList fun _ : UInt64 => List (Item V A)
  status : Status
  /-- The closures that are about to be invoked. -/
  running : List (Pending V A)
  /-- The closures that have been invoked. -/
  invoked : List (Done V A)
  /-- The calls so far. -/
  history : List (Event V A)

namespace LocalRendezvous

/-- A new rendezvous. -/
def initial : LocalRendezvous V A := ⟨∅, .ok, [], [], []⟩

variable (s : LocalRendezvous V A)

/-- The queue under a hash. -/
def queue (h : UInt64) : List (Item V A) := (s.table.lookup h).getD []

/-- Delivery of a message to a waiter. -/
def delivery (message : Message V A) (waiter : Waiter A) : Done V A :=
  ⟨waiter.recv, .ok, message.sendArgs, waiter.recvArgs, message.value, message.isDead⟩

/-- The section of `Send`. -/
def send (hash : String → UInt64) (s : LocalRendezvous V A) (key : String)
    (message : Message V A) : LocalRendezvous V A :=
  if s.status.code ≠ .ok then
    { s with history := s.history ++ [.send key message s.status] }
  else
    match s.queue (hash key) with
    | .inr waiter :: rest =>
      { s with
        table := s.table.insert (hash key) rest
        running := s.running ++ [⟨s.history.length, delivery message waiter⟩]
        history := s.history ++ [.send key message .ok] }
    | queue =>
      { s with
        table := s.table.insert (hash key) (queue ++ [.inl message])
        history := s.history ++ [.send key message .ok] }

/-- The section of `RecvAsync`. -/
def recvAsync [Inhabited V] [Inhabited A] (hash : String → UInt64) (s : LocalRendezvous V A)
    (key : String) (recvArgs : A) : LocalRendezvous V A :=
  if s.status.code ≠ .ok then
    { s with
      running := s.running ++ [⟨s.history.length,
        ⟨s.history.length, s.status, default, recvArgs, default, false⟩⟩]
      history := s.history ++ [.recv key recvArgs] }
  else
    match s.queue (hash key) with
    | .inl message :: rest =>
      { s with
        table := s.table.insert (hash key) rest
        running := s.running ++ [⟨s.history.length, delivery message ⟨s.history.length, recvArgs⟩⟩]
        history := s.history ++ [.recv key recvArgs] }
    | queue =>
      { s with
        table := s.table.insert (hash key) (queue ++ [.inr ⟨s.history.length, recvArgs⟩])
        history := s.history ++ [.recv key recvArgs] }

/-- The waiters of the table, in its iteration order. -/
def waiters : List (Waiter A) :=
  s.table.entries.flatMap fun entry => entry.2.filterMap Sum.getRight?

/-- What `StartAbort` tells a waiter. -/
def abortion [Inhabited V] [Inhabited A] (status : Status) (waiter : Waiter A) : Done V A :=
  ⟨waiter.recv, status, default, default, default, false⟩

/-- The section of `StartAbort`, whose status must not be OK. -/
def startAbort [Inhabited V] [Inhabited A] (s : LocalRendezvous V A) (status : Status) :
    Option (LocalRendezvous V A) :=
  if status.code = .ok then none
  else
    some { s with
      table := ∅
      -- Status::Update keeps the first error
      status := if s.status.code = .ok then status else s.status
      running := s.running ++ s.waiters.map fun waiter => ⟨s.history.length, abortion status waiter⟩
      history := s.history ++ [.abort status] }

/-- What callers can do next. -/
inductive Move (V A : Type) where
  | send (key : String) (message : Message V A)
  | recv (key : String) (recvArgs : A)
  | abort (status : Status)
  | invoke (i : Nat)
  deriving DecidableEq, Repr

/-- The key that a move uses. -/
def Move.key : Move V A → Option String
  | .send key _ | .recv key _ => some key
  | .abort _ | .invoke _ => none

/-- One move; `none` if it is not possible. -/
def step [Inhabited V] [Inhabited A] (hash : String → UInt64) (s : LocalRendezvous V A) :
    Move V A → Option (LocalRendezvous V A)
  | .send key message => some (s.send hash key message)
  | .recv key recvArgs => some (s.recvAsync hash key recvArgs)
  | .abort status => s.startAbort status
  | .invoke i =>
    s.running[i]?.map fun p =>
      { s with running := s.running.eraseIdx i, invoked := s.invoked ++ [p.done] }

/-- The closures that are about to be invoked or have been. -/
def dones : List (Done V A) :=
  s.running.map Pending.done ++ s.invoked

end LocalRendezvous

/-! ## Histories -/

variable (history : List (Event V A))

/-- The messages that have been accepted under a key, in order. -/
def sends (key : String) : List (Message V A) :=
  history.filterMap fun
    | .send key' message result => if key' = key ∧ result.code = .ok then some message else none
    | .recv _ _ | .abort _ => none

/-- The receivers of a key, in order. -/
def recvs (key : String) : List (Waiter A) :=
  history.zipIdx.filterMap fun
    | (.recv key' recvArgs, i) => if key' = key then some ⟨i, recvArgs⟩ else none
    | (.send _ _ _, _) | (.abort _, _) => none

/-- An aborting call. -/
def Event.aborts : Event V A → Option Status
  | .abort status => some status
  | .send _ _ _ | .recv _ _ => none

/-- The calls before the first abort. -/
def beforeAbort : List (Event V A) :=
  history.takeWhile fun e => e.aborts.isNone

end Tension.Rendezvous
