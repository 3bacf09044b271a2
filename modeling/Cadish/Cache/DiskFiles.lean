import Cadish.Cache.Disk
import Cadish.Cache.Shelf

/-!
# The disk tier, with its list, its counters and its files

Here a shard is as the code has it: a map, a linked list, a counter and its copy, each changed by
its own statement, and a directory with files. A list may then hold a key that the map does not; a
loop that evicts it would go on forever, so an operation may have no result.
-/

namespace Cadish

structure DiskDir where
  blobs : FinMap Str Blob := ∅
  temps : FinMap Nat Str := ∅
  index : Option (List ObjectMeta) := none

structure DiskRing where
  maxBytes : Int
  curBytes : Int := 0
  atomicBytes : Int := 0
  items : FinMap Str ObjectMeta := ∅
  /-- the list, its front first. The node of an entry is the first one with its key: a node is
  pushed to the front, and only the node of an entry is ever moved or removed. -/
  lru : List Str := []
  dirty : Bool := false

namespace DiskRing

def shelf (s : DiskRing) : Shelf ObjectMeta := ⟨s.maxBytes, s.curBytes, s.atomicBytes, s.items, s.lru⟩

def pushFront (s : DiskRing) (m : ObjectMeta) : DiskRing :=
  { s with
    lru := m.key :: s.lru
    items := s.items.insert m.key m
    curBytes := s.curBytes + m.size
    atomicBytes := s.curBytes + m.size }

def moveToFront (s : DiskRing) (key : Str) : DiskRing := { s with lru := key :: s.lru.erase key }

section Files

variable (blobPath : Str → Str)

variable (n : Int) (files : FinMap Str Blob) (s : DiskRing)

def removeLocked (key : Str) : FinMap Str Blob × DiskRing :=
  match s.items.lookup key with
  | none => (files, s)
  | some m =>
    (files.erase (blobPath key),
      { s with
        curBytes := s.curBytes - m.size
        atomicBytes := s.curBytes - m.size
        lru := s.lru.erase key
        items := s.items.erase key
        dirty := true })

/-- A round of an eviction loop that makes room for `n` bytes; none when the loop is over. -/
def round : Option (FinMap Str Blob × DiskRing) :=
  if s.curBytes + n ≤ s.maxBytes then none
  else s.lru.getLast?.map (removeLocked blobPath files s)

/-- The eviction loop; none when it is not over after this many rounds. -/
def evict (n : Int) : Nat → FinMap Str Blob → DiskRing → Option (FinMap Str Blob × DiskRing)
  | fuel, files, s =>
    match round blobPath n files s with
    | none => some (files, s)
    | some (files, s) =>
      match fuel with
      | 0 => none
      | fuel + 1 => evict n fuel files s

/-- The loop, with a round for every node. When these do not suffice, no number of rounds does: a
round that takes no node changes nothing. -/
def makeRoom : Option (FinMap Str Blob × DiskRing) :=
  evict blobPath n s.lru.length files s

end Files

end DiskRing

structure DiskWriter where
  objectMeta : ObjectMeta
  n : Nat := 0

structure FileTier where
  maxBytes : Int
  shards : Nat → DiskRing
  writers : FinMap Nat DiskWriter := ∅
  /-- a flush under way: the next shard to take, and the entries taken -/
  pending : Option (Nat × List ObjectMeta) := none

/-- An operation of the tier, or a part of one that is done under one lock. -/
inductive FileOp where
  | create (temp : Nat) (m : ObjectMeta)
  | write (temp : Nat) (p : Str)
  | commit (temp : Nat) (renames : Bool)
  | abort (temp : Nat)
  | get (key : Str)
  | delete (key : Str)
  | resetShard (i : Nat)
  | flushBegin
  | flushShard
  | flushWrite (writes : Bool)
  | restart (maxBytes : Int)

inductive FileAnswer where
  | done
  | found (o : Option Object)
  | stored (installed : Bool)
  | failed
deriving DecidableEq

namespace FileTier

variable (t : FileTier) (key : Str)

def shelves (i : Nat) : Shelf ObjectMeta := (t.shards i).shelf

def shardOf : Nat := shardIndex key (shardCount t.maxBytes)

def shard : DiskRing := t.shards (t.shardOf key)

def entry : Option ObjectMeta := (t.shard key).items.lookup key

def setShard (i : Nat) (s : DiskRing) : FileTier :=
  { t with shards := Function.update t.shards i s }

def newShards (maxBytes : Int) (i : Nat) : DiskRing :=
  { maxBytes := shardCap maxBytes (shardCount maxBytes) i }

section Files

variable (blobPath : Str → Str)

/-! ## Loading -/

/-- One entry of the index: it is kept if its blob has the recorded size and it fits its shard;
else its blob goes. -/
def loadEntry (m : ObjectMeta) : DiskDir × FileTier → DiskDir × FileTier
  | (d, t) =>
    match d.blobs.lookup (blobPath m.key) with
    | none => (d, t)
    | some b =>
      if (b.body.length : Int) = m.size ∧ m.size ≤ (t.shard m.key).maxBytes then
        (d, t.setShard (t.shardOf m.key) ((t.shard m.key).pushFront m))
      else ({ d with blobs := d.blobs.erase (blobPath m.key) }, t)

def cutShards : List Nat → DiskDir × FileTier → Option (DiskDir × FileTier)
  | [], w => some w
  | i :: is, (d, t) =>
    match DiskRing.makeRoom blobPath 0 d.blobs (t.shards i) with
    | none => none
    | some (files, s) => cutShards is ({ d with blobs := files }, t.setShard i s)

/-- `NewDiskTier`: `reapTempBlobs`, then `load`. -/
def newDiskTier (maxBytes : Int) (d : DiskDir) : Option (DiskDir × FileTier) :=
  let d := { d with temps := ∅ }
  cutShards blobPath (List.range (shardCount maxBytes))
    ((d.index.getD []).foldr (loadEntry blobPath) (d, { maxBytes, shards := newShards maxBytes }))

/-! ## Operations -/

variable (d : DiskDir) (t : FileTier)

def commit (temp : Nat) (w : DiskWriter) (renames : Bool) :
    Option ((DiskDir × FileTier) × FileAnswer) :=
  let m := { w.objectMeta with size := w.n }
  let i := t.shardOf m.key
  let gone := d.temps.erase temp
  if (t.shards i).maxBytes < w.n then some (({ d with temps := gone }, t), .stored false)
  else
    let (files, s) := DiskRing.removeLocked blobPath d.blobs (t.shards i) m.key
    match DiskRing.makeRoom blobPath w.n files s with
    | none => none
    | some (files, s) =>
      match d.temps.lookup temp, renames with
      | some body, true =>
        some (({ d with blobs := files.insert (blobPath m.key) ⟨m, body⟩, temps := gone },
          t.setShard i { s.pushFront m with dirty := true }), .stored true)
      | _, _ => some (({ d with blobs := files, temps := gone }, t.setShard i s), .failed)

def get (key : Str) : (DiskDir × FileTier) × FileAnswer :=
  let i := t.shardOf key
  match (t.shards i).items.lookup key with
  | none => ((d, t), .found none)
  | some m =>
    let s := (t.shards i).moveToFront key
    match d.blobs.lookup (blobPath key) with
    | none =>
      let (files, s) := DiskRing.removeLocked blobPath d.blobs s key
      (({ d with blobs := files }, t.setShard i s), .found none)
    | some b => ((d, t.setShard i s), .found (some (m, b.body)))

def delete (key : Str) : DiskDir × FileTier :=
  let (files, s) := DiskRing.removeLocked blobPath d.blobs (t.shard key) key
  ({ d with blobs := files }, t.setShard (t.shardOf key) s)

def resetShard (i : Nat) : DiskDir × FileTier :=
  let (files, s) := (t.shards i).items.keys.foldl
    (fun p key => DiskRing.removeLocked blobPath p.1 p.2 key) (d.blobs, t.shards i)
  ({ d with blobs := files }, t.setShard i s)

/-- The entries of a shard, as a flush takes them: in the order of the list. -/
def snapshot (s : DiskRing) : List ObjectMeta :=
  s.lru.filterMap fun key => (s.items.lookup key).map ObjectMeta.persisted

def step : DiskDir × FileTier → FileOp → Option ((DiskDir × FileTier) × FileAnswer)
  | (d, t), .create temp m =>
    -- a name that is taken is not given out
    if temp ∈ d.temps then some ((d, t), .failed)
    else some (({ d with temps := d.temps.insert temp [] },
      { t with writers := t.writers.insert temp { objectMeta := m } }), .done)
  | (d, t), .write temp p =>
    match t.writers.lookup temp with
    | none => some ((d, t), .done)
    | some w =>
      -- the file stays open when its name is gone
      let temps := match d.temps.lookup temp with
        | none => d.temps
        | some body => d.temps.insert temp (body ++ p)
      some (({ d with temps }, { t with writers := t.writers.insert temp { w with n := w.n + p.length } }),
        .done)
  | (d, t), .commit temp renames =>
    match t.writers.lookup temp with
    | none => some ((d, t), .done)
    | some w => commit blobPath d { t with writers := t.writers.erase temp } temp w renames
  | (d, t), .abort temp =>
    if temp ∈ t.writers then
      some (({ d with temps := d.temps.erase temp }, { t with writers := t.writers.erase temp }), .done)
    else some ((d, t), .done)
  | (d, t), .get key => some (get blobPath d t key)
  | (d, t), .delete key => some (delete blobPath d t key, .done)
  | (d, t), .resetShard i => some (resetShard blobPath d t i, .done)
  | (d, t), .flushBegin => some ((d, { t with pending := some (0, []) }), .done)
  | (d, t), .flushShard =>
    match t.pending with
    | none => some ((d, t), .done)
    | some (i, l) =>
      if i < shardCount t.maxBytes then
        some ((d, { t.setShard i { t.shards i with dirty := false } with
          pending := some (i + 1, l ++ snapshot (t.shards i)) }), .done)
      else some ((d, t), .done)
  | (d, t), .flushWrite writes =>
    match t.pending with
    | none => some ((d, t), .done)
    | some (i, l) =>
      if i < shardCount t.maxBytes then some ((d, t), .done)
      else if writes then some (({ d with index := some l }, { t with pending := none }), .done)
      else some ((d, { t with
        shards := fun i => { t.shards i with dirty := true }, pending := none }), .done)
  | (d, _), .restart maxBytes => (newDiskTier blobPath maxBytes d).map fun w => (w, .done)

def next (w : Option (DiskDir × FileTier)) (op : FileOp) : Option (DiskDir × FileTier) :=
  w.bind fun w => (step blobPath w op).map Prod.fst

end Files

end FileTier

end Cadish
