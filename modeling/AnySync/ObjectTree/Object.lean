import Mathlib.Data.List.Destutter
import AnySync.Go.Basic
import AnySync.Go.Run

/-!
# The storage of an object tree

`storage.go` and the part of `treebuilder.go` that finds the snapshot to build a tree from.
-/

namespace ObjectTree

/-- `Change`: the fields that the builder, the differ and the load iterator read. -/
structure Change where
  id : GoString
  previousIds : List GoString
  snapshotId : GoString
  isSnapshot : Bool
  /-- Empty until the tree or the storage sets it. -/
  orderId : GoString
  /-- `0` until the tree or the storage sets it. -/
  snapshotCounter : ℕ
deriving DecidableEq

/-- How a function of the object tree fails. -/
inductive Stop
  /-- A loop does not end. -/
  | endless
  /-- A change is not in the storage. -/
  | docNotFound
  /-- A raw change that cannot be decoded. -/
  | badRawChange
deriving DecidableEq

/-! ## Storage -/

/-- `Storage`: a stored change is a change with its order id and its snapshot counter. -/
structure Storage where
  id : GoString
  changes : GoMap GoString Change

namespace Storage

variable (st : Storage)

/-- `Get`. -/
def get (id : GoString) : Except Stop Change :=
  match st.changes.lookup id with
  | some c => .ok c
  | none => .error .docNotFound

/-- The changes that `GetAfterOrder` iterates over. -/
def getAfterOrder (orderId : GoString) : List Change :=
  ((st.changes.entries.map Sigma.snd).filter fun c => orderId ≤ c.orderId).insertionSort
    fun c d => c.orderId ≤ d.orderId

end Storage

/-! ## The common snapshot -/

/-- `DiscardDuplicatesSorted`. -/
def discardDuplicatesSorted (l : List GoString) : List GoString := l.destutter (· ≠ ·)

namespace Storage

variable (st : Storage)

/-- The loop that equalizes the depths in `commonSnapshot`. -/
def goDown (lowestCounter : ℕ) : ℕ → Change → Except Stop Change
  | 0, _ => .error .endless
  | fuel + 1, ch =>
    if lowestCounter < ch.snapshotCounter then do
      let ch ← st.get ch.snapshotId
      goDown lowestCounter fuel ch
    else .ok ch

end Storage

end ObjectTree
