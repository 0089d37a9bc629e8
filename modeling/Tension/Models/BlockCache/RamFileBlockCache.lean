import Mathlib
import Tension.Models.Status

/-!
# The block cache of remote files

Blocks of files are cached under the name of the file and the position of the block. A read
goes through the blocks it needs one after another. A block that is shorter than the block
size marks the end of its file, and is compared with the last block of the file in the cache.
Calls come one after another, and the pruning thread runs between two calls. The fetcher and
the clock answer every call on its own.
-/

namespace Tension.BlockCache

/-- `FetchState`. -/
inductive FetchState where
  | created
  | fetching
  | finished
  | error
  deriving DecidableEq, Repr

/-- `Block`. A timestamp of zero marks a block that was removed. -/
structure Block where
  data : List UInt8
  timestamp : UInt64
  state : FetchState
  deriving DecidableEq

/-- `Key`: the name of a file and the position of a block. -/
structure Key (F : Type) where
  filename : F
  pos : Nat
  deriving DecidableEq

namespace Key

variable {F : Type} [LinearOrder F]

/-- Keys are compared by the name first. -/
instance : LT (Key F) :=
  ⟨fun k k' => k.filename < k'.filename ∨ k.filename = k'.filename ∧ k.pos < k'.pos⟩

instance : DecidableLT (Key F) := fun k k' => inferInstanceAs
  (Decidable (k.filename < k'.filename ∨ k.filename = k'.filename ∧ k.pos < k'.pos))

/-- The last of several keys. -/
def last : List (Key F) → Option (Key F)
  | [] => none
  | k :: keys =>
    match last keys with
    | none => some k
    | some k' => if k < k' then some k' else some k

end Key

/-- What a cache is constructed with. -/
structure Config (F : Type) where
  blockSize : Nat
  maxBytes : UInt64
  maxStaleness : UInt64
  /-- The answer to the call of a given number: the status and the bytes transferred. -/
  blockFetcher : Nat → F → Nat → Nat → Status × List UInt8
  /-- What `NowSeconds` returns to the call of a given number. -/
  nowSeconds : Nat → UInt64

/-- `RamFileBlockCache`. -/
structure RamFileBlockCache (F : Type) where
  blockMap : AList fun _ : Key F => Block
  lruList : List (Key F)
  lraList : List (Key F)
  cacheSize : UInt64
  /-- How many times the fetcher was called. -/
  fetches : Nat
  /-- How many times the clock was read. -/
  ticks : Nat

namespace RamFileBlockCache

variable {F : Type}

/-- An empty cache. -/
def new : RamFileBlockCache F := ⟨∅, [], [], 0, 0, 0⟩

variable [LinearOrder F] (c : Config F)

variable (s : RamFileBlockCache F)

/-- `RemoveBlock`. The key must be in the map. -/
def removeBlock (k : Key F) : Option (RamFileBlockCache F) :=
  (s.blockMap.lookup k).map fun block =>
    { s with
      blockMap := s.blockMap.erase k
      lruList := s.lruList.erase k
      lraList := s.lraList.erase k
      cacheSize := s.cacheSize - block.data.length.toUInt64 }

/-- `RemoveFile_Locked`. The order of the blocks makes no difference. -/
def removeFileLocked (filename : F) : Option (RamFileBlockCache F) :=
  (s.blockMap.keys.filter fun k => k.filename = filename).foldlM removeBlock s

/-- `Flush`. -/
def flush : RamFileBlockCache F :=
  { s with blockMap := ∅, lruList := [], lraList := [], cacheSize := 0 }

/-- The clock is read. -/
def tick : RamFileBlockCache F := { s with ticks := s.ticks + 1 }

/-! ## Blocks -/

/-- A new block is put into the cache. -/
def insertBlock (k : Key F) : RamFileBlockCache F :=
  { s.tick with
    lruList := k :: s.lruList
    lraList := k :: s.lraList
    blockMap := s.blockMap.insert k ⟨[], c.nowSeconds s.ticks, .created⟩ }

/-- `Lookup`, with `BlockNotStale`. The clock is read only for a block that can be stale. -/
def lookup (s : RamFileBlockCache F) (k : Key F) : Option (RamFileBlockCache F) :=
  match s.blockMap.lookup k with
  | none => some (s.insertBlock c k)
  | some block =>
    if block.state ≠ .finished ∨ c.maxStaleness = 0 then some s
    else if c.nowSeconds s.ticks - block.timestamp ≤ c.maxStaleness then some s.tick
    else (s.tick.removeFileLocked k.filename).map fun s' => s'.insertBlock c k

/-- A block that was fetched is accounted for, unless it was removed. -/
def reconcile (k : Key F) (block : Block) : RamFileBlockCache F :=
  if block.timestamp ≠ 0 then
    { s.tick with
      cacheSize := s.cacheSize + block.data.length.toUInt64
      lraList := k :: s.lraList.erase k
      blockMap := s.blockMap.insert k { block with timestamp := c.nowSeconds s.ticks } }
  else { s with blockMap := s.blockMap.insert k block }

/-- The fetcher is called for a block. After an error its buffer stays allocated. -/
def fetch (k : Key F) (block : Block) : Status × RamFileBlockCache F :=
  let answer := c.blockFetcher s.fetches k.filename k.pos c.blockSize
  let s := { s with fetches := s.fetches + 1 }
  if answer.1 = .ok then
    (.ok, s.reconcile c k { block with data := answer.2, state := .finished })
  else
    (answer.1, { s with
      blockMap := s.blockMap.insert k
        { block with data := List.replicate c.blockSize 0, state := .error } })

/-- `MaybeFetch`. A block that another call is fetching is waited for. -/
def maybeFetch (k : Key F) : Option (Status × RamFileBlockCache F) :=
  match s.blockMap.lookup k with
  | none => none
  | some block =>
    match block.state with
    | .fetching => none
    | .finished => some (.ok, s)
    | .created | .error => some (s.fetch c k block)

/-- The loop of `Trim`. Every block that is removed shortens the list. -/
def trimLoop : Nat → RamFileBlockCache F → Option (RamFileBlockCache F)
  | 0, s => some s
  | n + 1, s =>
    match s.lruList.getLast? with
    | none => some s
    | some k => if s.cacheSize ≤ c.maxBytes then some s else (s.removeBlock k).bind (trimLoop n)

/-- `Trim`. -/
def trim : Option (RamFileBlockCache F) :=
  trimLoop c s.lruList.length s

/-- `--block_map_.upper_bound(fmax)`: the last key that is not behind all keys of the file. -/
def lastKey (filename : F) : Option (Key F) :=
  Key.last (s.blockMap.keys.filter fun k => ¬⟨filename, 2 ^ 64 - 1⟩ < k)

/-- The key moves to the front of the list. -/
def touch (k : Key F) : RamFileBlockCache F :=
  if s.lruList.head? = some k then s else { s with lruList := k :: s.lruList.erase k }

/-- `UpdateLRU`. -/
def updateLRU (k : Key F) : Option (Status × RamFileBlockCache F) :=
  match s.blockMap.lookup k with
  | none => none
  | some block =>
    if block.timestamp = 0 then some (.ok, s)
    else if block.data.length < c.blockSize ∧ (s.lastKey k.filename).any fun k' => k < k' then
      some (.internal "Block cache contents are inconsistent.", s.touch k)
    else ((s.touch k).trim c).map fun s' => (.ok, s')

/-- The block at a key, after `Lookup`, `MaybeFetch` and `UpdateLRU`. -/
def fetchBlock (k : Key F) :
    Option (Status × List UInt8 × RamFileBlockCache F) :=
  match s.lookup c k with
  | none => none
  | some s₁ =>
    match s₁.maybeFetch c k with
    | none => none
    | some (status, s₂) =>
      if status ≠ .ok then some (status, [], s₂)
      else
        match s₂.blockMap.lookup k, s₂.updateLRU c k with
        | some block, some (status, s₃) => some (status, block.data, s₃)
        | _, _ => none

/-! ## Calls -/

/-- The loop of `Read`. It returns the status and the bytes transferred. -/
def readLoop [ToString F] (filename : F) (offset n : Nat) : Nat → Nat → List UInt8 →
    RamFileBlockCache F → Option ((Status × List UInt8) × RamFileBlockCache F)
  | 0, _, buffer, s => some ((.ok, buffer), s)
  | count + 1, pos, buffer, s =>
    match s.fetchBlock c ⟨filename, pos⟩ with
    | none => none
    | some (status, data, s') =>
      if status ≠ .ok then some ((status, []), s')
      else if pos + data.length ≤ offset then
        some ((.outOfRange ("EOF at offset " ++ toString offset ++ " in file " ++
          toString filename ++ " at position " ++ toString pos ++ "with data size " ++
          toString data.length), buffer), s')
      else
        let dataEnd := if offset + n < pos + data.length then
          data.length - (pos + data.length - (offset + n)) else data.length
        let buffer := buffer ++ (data.take dataEnd).drop (offset - pos)
        if data.length < c.blockSize then some ((.ok, buffer), s')
        else readLoop filename offset n count (pos + c.blockSize) buffer s'

/-- The start of the first block of a read. -/
def start (offset : Nat) : Nat := c.blockSize * (offset / c.blockSize)

/-- The end of the last block of a read. -/
def finish (offset n : Nat) : Nat :=
  let finish := c.blockSize * ((offset + n) / c.blockSize)
  if finish < offset + n then finish + c.blockSize else finish

/-- `Read`. Positions must not overflow. -/
def read [ToString F] (s : RamFileBlockCache F) (filename : F) (offset n : Nat) :
    Option ((Status × List UInt8) × RamFileBlockCache F) :=
  if n = 0 then some ((.ok, []), s)
  else if c.blockSize = 0 ∨ c.maxBytes = 0 then
    some (c.blockFetcher s.fetches filename offset n, { s with fetches := s.fetches + 1 })
  else if 2 ^ 64 ≤ offset + n + c.blockSize then none
  else
    readLoop c filename offset n ((finish c offset n - start c offset) / c.blockSize)
      (start c offset) [] s

/-- The loop of `Prune` at a given time. Every round removes a file. -/
def pruneLoop (now : UInt64) : Nat → RamFileBlockCache F → Option (RamFileBlockCache F)
  | 0, s => some s
  | n + 1, s =>
    match s.lraList.getLast? with
    | none => some s
    | some k =>
      match s.blockMap.lookup k with
      | none => none
      | some block =>
        if now - block.timestamp ≤ c.maxStaleness then some s
        else (s.removeFileLocked k.filename).bind (pruneLoop now n)

/-- One round of `Prune`. -/
def prune : Option (RamFileBlockCache F) :=
  pruneLoop c (c.nowSeconds s.ticks) s.lraList.length s.tick

/-- The calls, and the pruning thread. -/
inductive Move (F : Type) where
  | read (filename : F) (offset n : Nat)
  | removeFile (filename : F)
  | flush
  | prune

/-- One call. -/
def step [ToString F] (s : RamFileBlockCache F) : Move F → Option (RamFileBlockCache F)
  | .read filename offset n => (s.read c filename offset n).map Prod.snd
  | .removeFile filename => s.removeFileLocked filename
  | .flush => some s.flush
  | .prune => s.prune c

end RamFileBlockCache

end Tension.BlockCache
