import AnySync.Ldiff.Model
import Mathlib.Algebra.BigOperators.Group.List.Basic
import Mathlib.Algebra.Group.Prod
import Mathlib.Algebra.Order.Group.Multiset

/-!
# The comparison of two containers

`Diff` in `app/ldiff/diff.go`: ranges are asked for in rounds, from the remote container and from
the own one, and the answers decide which elements are compared and which ranges are asked for
next.

`Container.walk` is what the rounds find for a range, followed depth first. The function that
compares elements is an argument, as in the source, where `Diff` and `CompareDiff` differ in it. The
remote container answers without error.
-/

namespace Ldiff

/-- `Range`. -/
structure Range where
  /-- `From` and `To`. -/
  tuple : RangeTuple
  /-- Whether the elements are asked for. -/
  elements : Bool
deriving DecidableEq, Repr

/-- `RangeResult`. -/
structure RangeResult where
  hash : Bytes
  elements : List Element
  count : ℤ
deriving DecidableEq, Repr

/-- `diffCtx`, without the buffers of one round. -/
structure DiffCtx where
  newIds : List GoString
  changedIds : List GoString
  theirChangedIds : List GoString
  removedIds : List GoString
  /-- The ranges for the next round. -/
  prepare : List Range
deriving DecidableEq, Repr

/-- The context of a new comparison. -/
def DiffCtx.empty : DiffCtx := ⟨[], [], [], [], []⟩

/-- `toMap` in `compareElementsEqual`. -/
def toMap (els : List Element) : GoMap GoString GoString :=
  els.foldl (fun m el => m.insert el.id el.head) ∅

/-- `compareElementsEqual`. -/
def compareElementsEqual (dctx : DiffCtx) (my other : List Element) : DiffCtx :=
  let dctx := my.foldl (fun dctx el =>
    match (toMap other).lookup el.id with
    | none => { dctx with removedIds := dctx.removedIds ++ [el.id] }
    | some head =>
      if head = el.head then dctx
      else { dctx with changedIds := dctx.changedIds ++ [el.id] }) dctx
  other.foldl (fun dctx el =>
    match (toMap my).lookup el.id with
    | none => { dctx with newIds := dctx.newIds ++ [el.id] }
    | some _ => dctx) dctx

namespace Container

/-- `getRange`. -/
def getRange (d : Container) (r : Range) : RangeResult :=
  let elements := (within d.sl r.tuple).map HashedElement.toElement
  match d.ranges.getRange r.tuple with
  | some rng =>
    if r.elements then { hash := rng.hash, elements := elements, count := elements.length }
    else { hash := rng.hash, elements := [], count := rng.elements }
  | none => { hash := [], elements := elements, count := elements.length }

/-- `compareResults`. -/
def compareResults (d : Container) (compareFunc : DiffCtx → List Element → List Element → DiffCtx)
    (dctx : DiffCtx) (r : Range) (myRes otherRes : RangeResult) : DiffCtx :=
  -- both hash equals - do nothing
  if myRes.hash = otherRes.hash then dctx
  -- other has elements
  else if otherRes.elements.length = otherRes.count then
    if myRes.elements.length = myRes.count then
      compareFunc dctx myRes.elements otherRes.elements
    else compareFunc dctx (d.getRange { r with elements := true }).elements otherRes.elements
  else if otherRes.count ≤ d.ranges.compareThreshold ∧ otherRes.elements.length = 0 ∨
      myRes.elements.length = myRes.count then
    { dctx with prepare := dctx.prepare ++ [{ r with elements := true }] }
  else { dctx with prepare := dctx.prepare ++
      (genTupleRanges r.tuple d.ranges.divideFactor).map fun c =>
        { tuple := c, elements := false } }

/-- One round of `Diff`. -/
def diffRound (d dl : Container) (compareFunc : DiffCtx → List Element → List Element → DiffCtx)
    (dctx : DiffCtx) (toSend : List Range) : DiffCtx :=
  toSend.foldl (fun dctx r => d.compareResults compareFunc dctx r (d.getRange r) (dl.getRange r))
    dctx

/-- The loop of `Diff`. -/
def diffRounds (d dl : Container) (compareFunc : DiffCtx → List Element → List Element → DiffCtx) :
    ℕ → DiffCtx → List Range → Except Failure DiffCtx
  | _, dctx, [] => .ok dctx
  | 0, _, _ :: _ => .error .outOfFuel
  | fuel + 1, dctx, r :: toSend =>
    let dctx := d.diffRound dl compareFunc dctx (r :: toSend)
    diffRounds d dl compareFunc fuel { dctx with prepare := [] } dctx.prepare

/-- `Diff`. -/
def diff (fuel : ℕ) (d dl : Container) : Except Failure DiffCtx :=
  d.diffRounds dl compareElementsEqual fuel .empty [{ tuple := topTuple, elements := false }]

end Container

/-! ## What is found -/

/-- New, changed and removed ids, in no order. -/
abbrev Found := Multiset GoString × Multiset GoString × Multiset GoString

namespace DiffCtx

/-- The ids that were found. -/
def found (dctx : DiffCtx) : Found := (dctx.newIds, dctx.changedIds, dctx.removedIds)

/-- What a call appends. -/
def append (dctx dctx' : DiffCtx) : DiffCtx where
  newIds := dctx.newIds ++ dctx'.newIds
  changedIds := dctx.changedIds ++ dctx'.changedIds
  theirChangedIds := dctx.theirChangedIds ++ dctx'.theirChangedIds
  removedIds := dctx.removedIds ++ dctx'.removedIds
  prepare := dctx.prepare ++ dctx'.prepare

variable {dctx dctx' : DiffCtx}

@[simp]
theorem empty_append : DiffCtx.empty.append dctx = dctx := by
  simp [append, empty]

theorem found_append : (dctx.append dctx').found = dctx.found + dctx'.found := by
  simp [append, found]

end DiffCtx

section CompareElements

variable {dctx : DiffCtx} {my other : List Element}

/-- What `compareElementsEqual` appends. -/
def comparison (my other : List Element) : DiffCtx where
  newIds := (other.filter fun el => ((toMap my).lookup el.id).isNone).map Element.id
  changedIds := (my.filter fun el => ((toMap other).lookup el.id).any (· ≠ el.head)).map Element.id
  theirChangedIds := []
  removedIds := (my.filter fun el => ((toMap other).lookup el.id).isNone).map Element.id
  prepare := []

/-- The first loop of `compareElementsEqual`. -/
theorem foldl_my (m : GoMap GoString GoString) : my.foldl (fun dctx el =>
    match m.lookup el.id with
    | none => { dctx with removedIds := dctx.removedIds ++ [el.id] }
    | some head =>
      if head = el.head then dctx
      else { dctx with changedIds := dctx.changedIds ++ [el.id] }) dctx =
    { dctx with
      removedIds := dctx.removedIds ++
        (my.filter fun el => (m.lookup el.id).isNone).map Element.id
      changedIds := dctx.changedIds ++
        (my.filter fun el => (m.lookup el.id).any (· ≠ el.head)).map Element.id } := by
  induction my generalizing dctx with
  | nil => simp
  | cons el my ih =>
    rw [List.foldl_cons, ih]
    cases hlookup : m.lookup el.id with
    | none => simp [hlookup]
    | some head =>
      by_cases hhead : head = el.head
      · simp [hlookup, hhead]
      · simp [hlookup, hhead]

/-- The second loop of `compareElementsEqual`. -/
theorem foldl_other (m : GoMap GoString GoString) : other.foldl (fun dctx el =>
    match m.lookup el.id with
    | none => { dctx with newIds := dctx.newIds ++ [el.id] }
    | some _ => dctx) dctx =
    { dctx with newIds := dctx.newIds ++
        (other.filter fun el => (m.lookup el.id).isNone).map Element.id } := by
  induction other generalizing dctx with
  | nil => simp
  | cons el other ih =>
    rw [List.foldl_cons, ih]
    cases hlookup : m.lookup el.id <;> simp [hlookup]

theorem compareElementsEqual_eq :
    compareElementsEqual dctx my other = dctx.append (comparison my other) := by
  rw [compareElementsEqual, foldl_my, foldl_other]
  simp [DiffCtx.append, comparison]

end CompareElements

namespace Container

variable {d dl : Container} {dctx dctx' : DiffCtx} {r : Range} {toSend : List Range}
variable {fuel : ℕ}

/-- What one comparison of answers appends. -/
def step (d dl : Container) (r : Range) : DiffCtx :=
  d.compareResults compareElementsEqual .empty r (d.getRange r) (dl.getRange r)

/-- Comparing two answers only adds to the context, whatever it holds. -/
theorem compareResults_append {myRes otherRes : RangeResult} :
    d.compareResults compareElementsEqual dctx r myRes otherRes =
      dctx.append (d.compareResults compareElementsEqual .empty r myRes otherRes) := by
  unfold compareResults
  split_ifs <;> simp [compareElementsEqual_eq, DiffCtx.append, DiffCtx.empty]

/-- One round is the sum of its ranges' steps. -/
theorem diffRound_eq : d.diffRound dl compareElementsEqual dctx toSend =
    toSend.foldl (fun dctx r => dctx.append (d.step dl r)) dctx := by
  unfold diffRound
  congr 1
  funext dctx r
  exact compareResults_append

theorem diffRound_found : (d.diffRound dl compareElementsEqual dctx toSend).found =
    dctx.found + (toSend.map fun r => (d.step dl r).found).sum := by
  rw [diffRound_eq]
  induction toSend generalizing dctx with
  | nil => simp
  | cons r toSend ih =>
    rw [List.foldl_cons, ih, DiffCtx.found_append, List.map_cons, List.sum_cons, add_assoc]

theorem diffRound_prepare : (d.diffRound dl compareElementsEqual dctx toSend).prepare =
    dctx.prepare ++ toSend.flatMap fun r => (d.step dl r).prepare := by
  rw [diffRound_eq]
  induction toSend generalizing dctx with
  | nil => simp
  | cons r toSend ih =>
    rw [List.foldl_cons, ih, List.flatMap_cons, ← List.append_assoc]
    rfl

/-- What is found for a range, depth first. -/
def walk (d dl : Container) : ℕ → Range → Found
  | 0, _ => 0
  | fuel + 1, r => (d.step dl r).found + ((d.step dl r).prepare.map (walk d dl fuel)).sum

/-- So many rounds are enough for a range. -/
def Ends (d dl : Container) : ℕ → Range → Prop
  | 0, _ => False
  | fuel + 1, r => ∀ r' ∈ (d.step dl r).prepare, Ends d dl fuel r'

/-- The rounds end within the fuel when every range they start from does. -/
theorem diffRounds_ok (hprepare : dctx.prepare = []) (hends : ∀ r ∈ toSend, d.Ends dl fuel r) :
    ∃ dctx', d.diffRounds dl compareElementsEqual fuel dctx toSend = .ok dctx' := by
  induction fuel generalizing dctx toSend with
  | zero =>
    cases toSend with
    | nil => exact ⟨dctx, rfl⟩
    | cons r toSend => exact (hends r List.mem_cons_self).elim
  | succ fuel ih =>
    cases toSend with
    | nil => exact ⟨dctx, rfl⟩
    | cons r toSend =>
      refine ih rfl fun r' hr' => ?_
      rw [diffRound_prepare, hprepare, List.nil_append, List.mem_flatMap] at hr'
      obtain ⟨r₀, hr₀, hr'⟩ := hr'
      exact hends r₀ hr₀ r' hr'

theorem sum_walk_succ : (toSend.map fun r => (d.step dl r).found).sum +
    ((toSend.flatMap fun r => (d.step dl r).prepare).map (d.walk dl fuel)).sum =
      (toSend.map (d.walk dl (fuel + 1))).sum := by
  induction toSend with
  | nil => simp
  | cons r toSend ih =>
    rw [List.map_cons, List.sum_cons, List.flatMap_cons, List.map_append, List.sum_append,
      add_add_add_comm, ih, List.map_cons, List.sum_cons]
    rfl

/-- The rounds find what `walk` finds for the ranges that are asked for. -/
theorem diffRounds_found (hprepare : dctx.prepare = [])
    (hok : d.diffRounds dl compareElementsEqual fuel dctx toSend = .ok dctx') :
    dctx'.found = dctx.found + (toSend.map (d.walk dl fuel)).sum := by
  induction fuel generalizing dctx toSend with
  | zero =>
    cases toSend with
    | nil =>
      obtain rfl := Except.ok.inj hok
      simp
    | cons r toSend => cases hok
  | succ fuel ih =>
    cases toSend with
    | nil =>
      obtain rfl := Except.ok.inj hok
      simp
    | cons r toSend =>
      have hfound := ih rfl hok
      rw [diffRound_prepare, hprepare, List.nil_append] at hfound
      rw [hfound]
      have hround : ({ d.diffRound dl compareElementsEqual dctx (r :: toSend) with
          prepare := [] } : DiffCtx).found = _ := diffRound_found
      rw [hround, add_assoc]
      congr 1
      exact sum_walk_succ

end Container

end Ldiff
