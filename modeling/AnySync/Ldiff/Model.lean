import AnySync.Go.Run
import AnySync.Go.Basic
import AnySync.Ldiff.Ranges

/-!
# The container of `ldiff`

`app/ldiff/diff.go` and `app/ldiff/hashrange.go`: a container of elements, kept in the order of
the hashes of their ids, and a tree of hash ranges over it with the digest of every range.

* `HashRange`, `HashRanges`: the nodes of the tree and the map that finds them. Nodes are shared
  through pointers (a parent, the dirty set and the map name the same node), so they live in a
  heap and a pointer is a position in it.
* `Container`: the elements and the ranges. `Container.set` and `Container.removeId` are the
  operations; `Container.run` is a run of them.
* The skip list is the list of its keys in order, with `Set`, `Remove` and `Find` of the library.
* A call that dereferences a missing range or divides by zero is `Failure.panicked`. Recursion
  and loops that need not end take `fuel`.
* `slices.SortFunc` is not stable and the dirty set has no order, so the order of the ranges of
  one level is an argument (`RangeOrder`).
-/

namespace Ldiff

/-- How a call does not return. -/
inductive Failure
  | panicked
  | outOfFuel
deriving DecidableEq, Repr

/-- The hash functions of the libraries. -/
structure Hashing where
  /-- `xxhash.Sum64`. -/
  sum64 : GoString → ℕ
  sum64_lt : ∀ id, sum64 id < hashes
  /-- A new `blake3` hasher that is written to and summed up. -/
  blake3 : Bytes → Bytes
  blake3_length : ∀ bytes, (blake3 bytes).length = 32

/-- `Element`. -/
structure Element where
  /-- The id, which is fixed. -/
  id : GoString
  /-- The content, which can change. -/
  head : GoString
deriving DecidableEq, Repr

/-- `element`: with the hash of the id. -/
structure HashedElement extends Element where
  /-- The hash of the id. -/
  hash : ℕ
deriving DecidableEq, Repr

/-! ## The skip list -/

/-- `Compare`. -/
def compare (lhs rhs : HashedElement) : Ordering :=
  if lhs.id = rhs.id then .eq
  else if rhs.hash < lhs.hash then .gt
  else if lhs.hash < rhs.hash then .lt
  else if rhs.id < lhs.id then .gt else .lt

/-- `SkipList.Remove`. -/
def slRemove (sl : List HashedElement) (el : HashedElement) : List HashedElement :=
  sl.filter fun x => compare x el ≠ .eq

/-- `SkipList.Set` of a key that is not in the list. -/
def slSet (sl : List HashedElement) (el : HashedElement) : List HashedElement :=
  sl.takeWhile (fun x => compare x el = .lt) ++ el :: sl.dropWhile (fun x => compare x el = .lt)

/-- `SkipList.Find`: the first key that is not before the given one, and those that follow. -/
def slFind (sl : List HashedElement) (el : HashedElement) : List HashedElement :=
  sl.dropWhile fun x => compare x el = .lt

/-- The loops from `SkipList.Find` of the first hash, with an empty id, to the last hash of a
range. -/
def within (sl : List HashedElement) (c : RangeTuple) : List HashedElement :=
  (slFind sl { id := [], head := [], hash := c.lo }).takeWhile fun x => x.hash ≤ c.hi

/-! ## Ranges -/

/-- `hashRange`. -/
structure HashRange where
  /-- `from` and `to`. -/
  tuple : RangeTuple
  /-- The range that was divided to make this one. -/
  parent : Option ℕ
  isDivided : Bool
  /-- The counter. -/
  elements : ℤ
  level : ℕ
  /-- The digest, or nothing. -/
  hash : Bytes
deriving DecidableEq, Repr

/-- `hashRanges`. -/
structure HashRanges where
  /-- All ranges ever made. -/
  heap : List HashRange
  /-- The pointers by tuple. -/
  ranges : GoMap RangeTuple ℕ
  topRange : ℕ
  /-- The ranges whose digest has to be computed. -/
  dirty : List ℕ
  divideFactor : ℕ
  compareThreshold : ℕ
deriving DecidableEq

/-- `calcElementsHash`. -/
def calcElementsHash (H : Hashing) (sl : List HashedElement) (c : RangeTuple) : Bytes × ℕ :=
  (if (within sl c).isEmpty then [] else H.blake3 ((within sl c).flatMap fun e => e.id ++ e.head),
    (within sl c).length)

namespace HashRanges

/-- Dereferences a pointer. -/
def get (h : HashRanges) (p : ℕ) : Except Failure HashRange :=
  match h.heap[p]? with
  | some rng => .ok rng
  | none => .error .panicked

/-- The range under a tuple, which must be there. -/
def lookup (h : HashRanges) (c : RangeTuple) : Except Failure ℕ :=
  match h.ranges.lookup c with
  | some p => .ok p
  | none => .error .panicked

/-- `getRange`, or nil. -/
def getRange (h : HashRanges) (c : RangeTuple) : Option HashRange :=
  (h.ranges.lookup c).bind (h.heap[·]?)

/-- Assigns to fields of a range. -/
def modify (h : HashRanges) (p : ℕ) (f : HashRange → HashRange) : HashRanges :=
  { h with heap := h.heap.modify p f }

/-- Adds to the counter of a range. -/
def addElements (h : HashRanges) (p : ℕ) (n : ℤ) : HashRanges :=
  h.modify p fun rng => { rng with elements := rng.elements + n }

def setDirty (h : HashRanges) (p : ℕ) : HashRanges :=
  { h with dirty := if p ∈ h.dirty then h.dirty else h.dirty ++ [p] }

def unsetDirty (h : HashRanges) (p : ℕ) : HashRanges :=
  { h with dirty := h.dirty.filter (· ≠ p) }

/-- `getBottomRange`. -/
def getBottomRange (h : HashRanges) (rng : HashRange) (elHash : ℕ) : Except Failure ℕ := do
  failIf (perRange rng.tuple h.divideFactor = 0) Failure.panicked
  h.lookup (bottomTuple rng.tuple h.divideFactor elHash)

/-- The loop of `addElement` and of `removeElement` down to a range that is not divided. -/
def descend (elHash : ℕ) (n : ℤ) : ℕ → HashRanges → ℕ → Except Failure (HashRanges × ℕ)
  | 0, _, _ => .error .outOfFuel
  | fuel + 1, h, p => do
    let rng ← h.get p
    if rng.isDivided then
      let next ← h.getBottomRange rng elHash
      descend elHash n fuel (h.addElements next n) next
    else pure (h, p)

variable (H : Hashing) (sl : List HashedElement)

/-- `makeRange`. -/
def makeRange (c : RangeTuple) (p : ℕ) (parent : HashRange) : HashRange :=
  { tuple := c, parent := some p, isDivided := false,
    elements := (calcElementsHash H sl c).2, level := parent.level + 1,
    hash := (calcElementsHash H sl c).1 }

/-- A new range in the map, at the end of the heap. -/
def alloc (h : HashRanges) (rng : HashRange) : HashRanges :=
  { h with heap := h.heap ++ [rng], ranges := h.ranges.insert rng.tuple h.heap.length }

/-- A new range with too many elements. It is divided, and dirty in place of `p`. -/
def allocDivided (h : HashRanges) (p : ℕ) (rng : HashRange) : HashRanges :=
  (((h.alloc rng).unsetDirty p).setDirty h.heap.length).modify h.heap.length
    fun rng => { rng with isDivided := true }

/-- `makeBottomRanges`. -/
def makeBottomRanges : ℕ → HashRanges → ℕ → Except Failure HashRanges
  | 0, _, _ => .error .outOfFuel
  | fuel + 1, h, p => do
    let rng ← h.get p
    (genTupleRanges rng.tuple h.divideFactor).foldlM (fun h c =>
      let newRange := makeRange H sl c p rng
      if (h.compareThreshold : ℤ) < newRange.elements then
        makeBottomRanges fuel (h.allocDivided p newRange) h.heap.length
      else pure (h.alloc newRange)) h

/-- `addElement`. -/
def addElement (fuel : ℕ) (h : HashRanges) (elHash : ℕ) : Except Failure HashRanges := do
  let (h, p) ← (h.addElements h.topRange 1).descend elHash 1 fuel h.topRange
  let h := h.setDirty p
  let rng ← h.get p
  let h ←
    if (h.compareThreshold : ℤ) < rng.elements then
      makeBottomRanges H sl fuel (h.modify p fun rng => { rng with isDivided := true }) p
    else pure h
  match rng.parent with
  | some parent => pure (h.unsetDirty parent)
  | none => pure h

/-- Takes a range out of the map and out of the dirty set. -/
def forget (h : HashRanges) (c : RangeTuple) : HashRanges :=
  match h.ranges.lookup c with
  | some child => { h.unsetDirty child with ranges := h.ranges.erase c }
  | none => h

/-- `removeElement`. -/
def removeElement (fuel : ℕ) (h : HashRanges) (elHash : ℕ) : Except Failure HashRanges := do
  let (h, p) ← (h.addElements h.topRange (-1)).descend elHash (-1) fuel h.topRange
  let rng ← h.get p
  match rng.parent with
  | none => .error .panicked
  | some parent => do
    let parentRng ← h.get parent
    if parentRng.elements ≤ h.compareThreshold ∧ parent ≠ h.topRange then
      let h := (genTupleRanges parentRng.tuple h.divideFactor).foldl forget h
      pure ((h.modify parent fun rng => { rng with isDivided := false }).setDirty parent)
    else pure (h.setDirty p)

/-- `calcDividedHash`. -/
def calcDividedHash (h : HashRanges) (rng : HashRange) : Except Failure Bytes := do
  let hashes ← (genTupleRanges rng.tuple h.divideFactor).mapM fun c => do
    let child ← h.lookup c
    let childRng ← h.get child
    pure childRng.hash
  pure (H.blake3 hashes.flatten)

/-- The body of the inner loop of `recalculateHashes`. -/
def recalculateHash (h : HashRanges) (p : ℕ) : Except Failure HashRanges := do
  let rng ← h.get p
  let h ←
    if rng.isDivided then do
      let hash ← h.calcDividedHash H rng
      pure (h.modify p fun rng => { rng with hash := hash })
    else
      let (hash, elements) := calcElementsHash H sl rng.tuple
      pure (h.modify p fun rng => { rng with hash := hash, elements := elements })
  match rng.parent with
  | some parent => pure ((h.unsetDirty p).setDirty parent)
  | none => pure (h.unsetDirty p)

/-- The dirty ranges by level. -/
def slDirty (h : HashRanges) (ord : RangeOrder) (round : ℕ) : List ℕ :=
  (ord.shuffle round 0 h.dirty).insertionSort fun p q =>
    (h.heap[p]?.map HashRange.level).getD 0 ≤ (h.heap[q]?.map HashRange.level).getD 0

/-- The outer loop of `recalculateHashes`. -/
def recalculateRounds (ord : RangeOrder) : ℕ → HashRanges → Except Failure HashRanges
  | 0, h => if h.dirty.isEmpty then .ok h else .error .outOfFuel
  | round + 1, h =>
    if h.dirty.isEmpty then .ok h
    else do
      let h ← (h.slDirty ord round).foldlM (recalculateHash H sl) h
      recalculateRounds ord round h

/-- `recalculateHashes`. There are more ranges than rounds. -/
def recalculateHashes (ord : RangeOrder) (h : HashRanges) : Except Failure HashRanges :=
  recalculateRounds H sl ord h.heap.length h

/-- `newHashRanges`. -/
def newHashRanges (fuel divideFactor compareThreshold : ℕ) : Except Failure HashRanges :=
  let topRange : HashRange :=
    { tuple := topTuple, parent := none, isDivided := true, elements := 0, level := 0, hash := [] }
  makeBottomRanges H sl fuel
    { heap := [topRange], ranges := (∅ : GoMap RangeTuple ℕ).insert topTuple 0, topRange := 0,
      dirty := [], divideFactor := divideFactor, compareThreshold := compareThreshold } 0

end HashRanges

/-! ## The container -/

/-- `diff`. -/
structure Container where
  /-- The elements in order. -/
  sl : List HashedElement
  /-- The ranges. -/
  ranges : HashRanges
deriving DecidableEq

/-- A call on a container, with the order in which it visits the dirty set. -/
inductive Op
  | set (elements : List Element) (ord : RangeOrder)
  | removeId (id : GoString) (ord : RangeOrder)

namespace Container

variable (H : Hashing) (fuel : ℕ)

/-- `New`. -/
def new (divideFactor compareThreshold : ℤ) (ord : RangeOrder) : Except Failure Container := do
  let divideFactor := if divideFactor < 2 then 2 else divideFactor.toNat
  let compareThreshold := if compareThreshold < 1 then 1 else compareThreshold.toNat
  let h ← HashRanges.newHashRanges H [] fuel divideFactor compareThreshold
  let h ← (h.setDirty h.topRange).recalculateHashes H [] ord
  pure { sl := [], ranges := h }

variable (d : Container)

/-- The body of the loop of `Set`. -/
def setElement (e : Element) : Except Failure Container := do
  let el : HashedElement := { e with hash := H.sum64 e.id }
  let sl := slSet (slRemove d.sl el) el
  let h ← d.ranges.addElement H sl fuel el.hash
  pure { sl := sl, ranges := h }

/-- `recalculateHashes` on the ranges of the container. -/
def recalculate (ord : RangeOrder) : Except Failure Container := do
  let h ← d.ranges.recalculateHashes H d.sl ord
  pure { d with ranges := h }

/-- `Set`. -/
def set (elements : List Element) (ord : RangeOrder) : Except Failure Container := do
  let d ← elements.foldlM (setElement H fuel) d
  d.recalculate H ord

/-- `RemoveId`, which changes nothing if there is no element with the id. -/
def removeId (id : GoString) (ord : RangeOrder) : Except Failure Container :=
  let el : HashedElement := { id := id, head := [], hash := H.sum64 id }
  if d.sl.all fun x => compare x el ≠ .eq then .ok d
  else do
    let h ← d.ranges.removeElement fuel el.hash
    recalculate H { sl := slRemove d.sl el, ranges := h } ord

/-- `Hash`, before it is written in hexadecimal digits. -/
def hash : Bytes :=
  match d.ranges.heap[d.ranges.topRange]? with
  | some rng => rng.hash
  | none => []

/-- A call. -/
def apply (op : Op) : Except Failure Container :=
  match op with
  | .set elements ord => d.set H fuel elements ord
  | .removeId id ord => d.removeId H fuel id ord

/-- A run of calls on a new container. -/
def run (divideFactor compareThreshold : ℤ) (ord : RangeOrder) (ops : List Op) :
    Except Failure Container := do
  let d ← new H fuel divideFactor compareThreshold ord
  ops.foldlM (apply H fuel) d

/-- `Elements`. -/
def elements : List Element := d.sl.map HashedElement.toElement

end Container

end Ldiff
