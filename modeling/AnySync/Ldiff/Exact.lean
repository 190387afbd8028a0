import AnySync.Ldiff.Contents
import AnySync.Ldiff.Diff
import AnySync.Ldiff.Digest
import Mathlib.Algebra.Order.Monoid.Prod
import Mathlib.Data.Multiset.OrderedMonoid

/-!
# Exactness of the comparison

What `Diff` finds for a range is what the two containers owe there: the new, changed and removed
ids. It may lose elements where the trees of the containers are divided differently.

`Reached.diff_exact_iff` says when the result is exact, `Reached.diff_sound` what holds of it in any
case.
-/

namespace Ldiff

open Multiset
open Option (any_eq_true any_some)
open NatInterval (mem_of_le)
open DiffCtx (empty_append found empty)

section ToMap

variable {els : List Element} {el : Element} {id : GoString}

theorem toMap_concat : toMap (els ++ [el]) = (toMap els).insert el.id el.head := by
  simp [toMap]

theorem lookup_toMap_eq_none : (toMap els).lookup id = none ↔ ∀ el ∈ els, el.id ≠ id := by
  induction els using List.reverseRecOn with
  | nil => simp [toMap]
  | append_singleton els el ih =>
    rw [toMap_concat, GoMap.lookup_insert_eq]
    by_cases hid : id = el.id
    · subst hid
      simp
    · rw [if_neg hid, ih, List.forall_mem_append, List.forall_mem_singleton]
      exact ⟨fun h => ⟨h, Ne.symm hid⟩, fun h => h.1⟩

theorem lookup_toMap_of_mem (hnodup : (els.map Element.id).Nodup) (hel : el ∈ els) :
    (toMap els).lookup el.id = some el.head := by
  induction els using List.reverseRecOn with
  | nil => cases hel
  | append_singleton els el' ih =>
    rw [List.map_append, List.nodup_append] at hnodup
    obtain ⟨hnodup, -, hdisjoint⟩ := hnodup
    rw [toMap_concat, GoMap.lookup_insert_eq]
    rcases List.mem_append.mp hel with hel | hel
    · have hne : el.id ≠ el'.id :=
        hdisjoint _ (List.mem_map_of_mem hel) _ (List.mem_singleton_self _)
      rw [if_neg hne, ih hnodup hel]
    · rw [List.mem_singleton.mp hel, if_pos rfl]

end ToMap

variable {H : Hashing} {sl : List HashedElement}

theorem Ordered.nodup_ids (h : Ordered H sl) (c : RangeTuple) :
    (((within sl c).map HashedElement.toElement).map Element.id).Nodup := by
  rw [h.within_eq_filter, List.map_map]
  have hsub : (sl.filter fun x => x.hash ∈ c).Nodup := h.nodup_keys.of_map.filter _
  refine List.Nodup.map_on (fun x hx y hy hxy => ?_) hsub
  exact h.eq_of_id (List.mem_of_mem_filter hx) (List.mem_of_mem_filter hy) hxy

theorem Ordered.mem_within (h : Ordered H sl) {c : RangeTuple} {x : HashedElement} :
    x ∈ within sl c ↔ x ∈ sl ∧ x.hash ∈ c := by
  simp [h.within_eq_filter]

namespace Container

variable (d d' : Container)

/-- The elements of a range. -/
def elementsIn (c : RangeTuple) : List Element := (within d.sl c).map HashedElement.toElement

/-- What should be found in lists of elements of the two containers. -/
def owedOf (my other : List HashedElement) : Found :=
  ((other.filter fun y => ∀ x ∈ d.sl, x.id ≠ y.id).map (·.id),
    (my.filter fun x => ∃ y ∈ d'.sl, y.id = x.id ∧ y.head ≠ x.head).map (·.id),
    (my.filter fun x => ∀ y ∈ d'.sl, y.id ≠ x.id).map (·.id))

/-- What should be found in a range. -/
def owed (c : RangeTuple) : Found := owedOf d d' (within d.sl c) (within d'.sl c)

section Owed

variable {H : Hashing} {d d' : Container} {df th : ℕ} {c : RangeTuple}
variable {tiles : List RangeTuple}

theorem owedOf_append {my my' other other' : List HashedElement} :
    owedOf d d' (my ++ my') (other ++ other') = owedOf d d' my other + owedOf d d' my' other' := by
  simp [owedOf]

theorem owedOf_flatMap {f g : RangeTuple → List HashedElement} :
    owedOf d d' (tiles.flatMap f) (tiles.flatMap g) =
      (tiles.map fun t => owedOf d d' (f t) (g t)).sum := by
  induction tiles with
  | nil => simp [owedOf]
  | cons t tiles ih =>
    rw [List.flatMap_cons, List.flatMap_cons, owedOf_append, ih, List.map_cons, List.sum_cons]

/-- What is owed in a range is the sum over its tiles. -/
theorem owed_eq_sum (hd : Ordered H d.sl) (hd' : Ordered H d'.sl) (ht : Tiles c.lo c.hi tiles) :
    owed d d' c = (tiles.map (owed d d')).sum := by
  rw [owed, hd.within_eq_flatMap ht, hd'.within_eq_flatMap ht, owedOf_flatMap]
  rfl

theorem owed_eq_zero (hd : Ordered H d.sl) (hd' : Ordered H d'.sl)
    (heq : within d.sl c = within d'.sl c) : owed d d' c = 0 := by
  have hmem : ∀ {x}, x ∈ within d.sl c → x ∈ d.sl ∧ x ∈ d'.sl := fun {x} hx =>
    ⟨(hd.mem_within.mp hx).1, (hd'.mem_within.mp (heq ▸ hx)).1⟩
  have hnew : ((within d'.sl c).filter fun y => ∀ x ∈ d.sl, x.id ≠ y.id) = [] := by
    rw [List.filter_eq_nil_iff, ← heq]
    intro x hx hall
    exact of_decide_eq_true hall x (hmem hx).1 rfl
  have hchanged : ((within d.sl c).filter
      fun x => ∃ y ∈ d'.sl, y.id = x.id ∧ y.head ≠ x.head) = [] := by
    rw [List.filter_eq_nil_iff]
    intro x hx hex
    obtain ⟨y, hy, hid, hhead⟩ := of_decide_eq_true hex
    exact hhead (congrArg (·.head) (hd'.eq_of_id hy (hmem hx).2 hid))
  have hremoved : ((within d.sl c).filter fun x => ∀ y ∈ d'.sl, y.id ≠ x.id) = [] := by
    rw [List.filter_eq_nil_iff]
    intro x hx hall
    exact of_decide_eq_true hall x (hmem hx).2 rfl
  rw [owed, owedOf, hnew, hchanged, hremoved]
  rfl

/-- An id of one container is in a range of the other iff it is in the other. -/
theorem lookup_toMap_elementsIn (hd : Ordered H d.sl) (hd' : Ordered H d'.sl) {x : HashedElement}
    (hx : x ∈ within d.sl c) :
    ((toMap (d'.elementsIn c)).lookup x.id = none ↔ ∀ y ∈ d'.sl, y.id ≠ x.id) ∧
      ∀ y ∈ d'.sl, y.id = x.id → (toMap (d'.elementsIn c)).lookup x.id = some y.head := by
  -- an element with the same id has the same hash
  have hwithin : ∀ y ∈ d'.sl, y.id = x.id → y ∈ within d'.sl c := by
    intro y hy hid
    have hhash : y.hash = x.hash := by rw [hd'.hash y hy, hd.hash x (hd.mem_within.mp hx).1, hid]
    exact hd'.mem_within.mpr ⟨hy, hhash ▸ (hd.mem_within.mp hx).2⟩
  constructor
  · rw [lookup_toMap_eq_none, elementsIn, List.forall_mem_map]
    constructor
    · intro hall y hy hid
      exact hall y (hwithin y hy hid) hid
    · intro hall y hy
      exact hall y (hd'.mem_within.mp hy).1
  · intro y hy hid
    rw [← hid]
    exact lookup_toMap_of_mem (hd'.nodup_ids c) (List.mem_map_of_mem (hwithin y hy hid))

theorem map_id_filter_elementsIn {p : Element → Bool} {q : HashedElement → Bool}
    (hpq : ∀ x ∈ within d.sl c, p x.toElement = q x) :
    ((d.elementsIn c).filter p).map Element.id = ((within d.sl c).filter q).map (·.id) := by
  rw [elementsIn, List.filter_map, List.map_map]
  exact congrArg (List.map _) (List.filter_congr hpq)

/-- The comparison of the elements of a range finds what is owed. -/
theorem found_comparison (hd : Ordered H d.sl) (hd' : Ordered H d'.sl) :
    (comparison (d.elementsIn c) (d'.elementsIn c)).found = owed d d' c := by
  have hnew : ((d'.elementsIn c).filter fun el =>
      ((toMap (d.elementsIn c)).lookup el.id).isNone).map Element.id =
      ((within d'.sl c).filter fun y => ∀ x ∈ d.sl, x.id ≠ y.id).map (·.id) := by
    refine map_id_filter_elementsIn fun y hy => ?_
    have hlookup := (lookup_toMap_elementsIn hd' hd hy).1
    rw [Bool.eq_iff_iff, Option.isNone_iff_eq_none, decide_eq_true_iff]
    exact hlookup
  have hremoved : ((d.elementsIn c).filter fun el =>
      ((toMap (d'.elementsIn c)).lookup el.id).isNone).map Element.id =
      ((within d.sl c).filter fun x => ∀ y ∈ d'.sl, y.id ≠ x.id).map (·.id) := by
    refine map_id_filter_elementsIn fun x hx => ?_
    have hlookup := (lookup_toMap_elementsIn hd hd' hx).1
    rw [Bool.eq_iff_iff, Option.isNone_iff_eq_none, decide_eq_true_iff]
    exact hlookup
  have hchanged : ((d.elementsIn c).filter fun el =>
      ((toMap (d'.elementsIn c)).lookup el.id).any (· ≠ el.head)).map Element.id =
      ((within d.sl c).filter fun x => ∃ y ∈ d'.sl, y.id = x.id ∧ y.head ≠ x.head).map
        (·.id) := by
    refine map_id_filter_elementsIn fun x hx => ?_
    obtain ⟨hnone, hsome⟩ := lookup_toMap_elementsIn hd hd' hx
    rw [Bool.eq_iff_iff, decide_eq_true_iff, any_eq_true]
    constructor
    · rintro ⟨head, hhead, hne⟩
      have hex : ∃ y ∈ d'.sl, y.id = x.id := by
        by_contra hno
        rw [hnone.mpr fun y hy hid => hno ⟨y, hy, hid⟩] at hhead
        cases hhead
      obtain ⟨y, hy, hid⟩ := hex
      obtain rfl := Option.some.inj ((hsome y hy hid).symm.trans hhead)
      exact ⟨y, hy, hid, of_decide_eq_true hne⟩
    · rintro ⟨y, hy, hid, hne⟩
      exact ⟨y.head, hsome y hy hid, decide_eq_true hne⟩
  rw [found, comparison, owed, owedOf, hnew, hremoved, hchanged]

end Owed

/-! ## One comparison -/

section Step

variable {H : Hashing} {d d' : Container} {df th : ℕ} {c : RangeTuple} {p q : ℕ}
  {rng rng' : HashRange}

theorem getRange_of_some (hget : d.ranges.getRange c = some rng) :
    d.getRange { tuple := c, elements := false } =
      { hash := rng.hash, elements := [], count := rng.elements } := by
  simp [getRange, hget]

theorem getRange_of_none (hget : d.ranges.getRange c = none) :
    d.getRange { tuple := c, elements := false } =
      { hash := [], elements := d.elementsIn c, count := (d.elementsIn c).length } := by
  simp [getRange, hget, elementsIn]

theorem hashAt_eq_getRange :
    d.ranges.hashAt c = ((d.ranges.getRange c).map HashRange.hash).getD [] := by
  unfold HashRanges.hashAt HashRanges.getRange
  cases d.ranges.ranges.lookup c <;> rfl

theorem getRange_true : d.getRange { tuple := c, elements := true } =
    { hash := d.ranges.hashAt c, elements := d.elementsIn c,
      count := (d.elementsIn c).length } := by
  rw [hashAt_eq_getRange, getRange]
  cases d.ranges.getRange c <;> rfl

theorem getRange_hash : (d.getRange { tuple := c, elements := false }).hash =
    d.ranges.hashAt c := by
  rw [hashAt_eq_getRange, getRange]
  cases d.ranges.getRange c <;> rfl

section Walk

variable {n : ℕ} {r : Range} {my other : List Element} {rs : List Range}

theorem walk_of_empty (hstep : d.step d' r = .empty) :
    d.walk d' (n + 1) r = 0 ∧ d.Ends d' (n + 1) r := by
  rw [walk, Ends, hstep]
  exact ⟨rfl, fun r hr => absurd hr List.not_mem_nil⟩

theorem walk_of_comparison (hstep : d.step d' r = comparison my other) :
    d.walk d' (n + 1) r = (comparison my other).found ∧ d.Ends d' (n + 1) r := by
  rw [walk, Ends, hstep]
  exact ⟨add_zero _, fun r hr => absurd hr List.not_mem_nil⟩

theorem walk_of_prepare (hstep : d.step d' r = { empty with prepare := rs }) :
    d.walk d' (n + 1) r = (rs.map (d.walk d' n)).sum ∧
      (d.Ends d' (n + 1) r ↔ ∀ r' ∈ rs, d.Ends d' n r') := by
  rw [walk, Ends, hstep]
  exact ⟨zero_add _, Iff.rfl⟩

/-- If elements were asked for and the digests differ, the elements are compared. -/
theorem walk_true (hd : Ordered H d.sl) (hd' : Ordered H d'.sl)
    (hne : d.ranges.hashAt c ≠ d'.ranges.hashAt c) :
    d.walk d' (n + 1) { tuple := c, elements := true } = owed d d' c ∧
      d.Ends d' (n + 1) { tuple := c, elements := true } := by
  rw [← found_comparison hd hd']
  refine walk_of_comparison ?_
  rw [step, getRange_true, getRange_true, compareResults, if_neg hne, if_pos rfl, if_pos rfl,
    compareElementsEqual_eq, empty_append]

/-- If the elements are asked for next, everything is found. -/
theorem walk_of_ask (hd : Ordered H d.sl) (hd' : Ordered H d'.sl)
    (hne : d.ranges.hashAt c ≠ d'.ranges.hashAt c)
    (hstep : d.step d' r = { empty with prepare := [{ tuple := c, elements := true }] }) :
    d.walk d' (n + 2) r = owed d d' c ∧ d.Ends d' (n + 2) r := by
  obtain ⟨hwalk, hends⟩ := walk_of_prepare (n := n + 1) hstep
  obtain ⟨hwalk', hends'⟩ := walk_true (n := n) hd hd' hne
  rw [hwalk, List.map_singleton, List.sum_singleton, hwalk', hends]
  exact ⟨rfl, fun r' hr' => List.mem_singleton.mp hr' ▸ hends'⟩

end Walk

/-- Nothing is left to find if the counter of the remote range is zero. -/
theorem Settled.within_eq_nil (hd : Settled H df th d) (hc : d.ranges.Live c)
    (hat : d.ranges.At c p rng) (hzero : rng.elements = 0) : within d.sl c = [] := by
  have hle := hd.sound.count_le c p rng hc hat
  rw [hzero, ← hd.ordered.length_within] at hle
  exact List.eq_nil_of_length_eq_zero (by omega)

end Step

/-! ## What is lost -/

/-- The answers for the range do not show its elements: they have the same digest, or none, or
both counters are zero. -/
def Blind (d d' : Container) (c : RangeTuple) : Prop :=
  d.ranges.hashAt c = d'.ranges.hashAt c ∨
    ((d.ranges.getRange c).any (·.elements = 0) ∧ (d'.ranges.getRange c).any (·.elements = 0))

/-- The parts of the range are asked for if its digests differ. -/
def Splits (d d' : Container) (c : RangeTuple) : Prop :=
  (d.ranges.getRange c).any (·.elements ≠ 0) ∧
    (d'.ranges.getRange c).any fun rng => (d.ranges.compareThreshold : ℤ) < rng.elements

/-- A range of the remote container below `c` that is asked for and does not show what is owed. -/
structure DropsIn (d d' : Container) (c p : RangeTuple) : Prop where
  live : d'.ranges.Live p
  le : p ≤ c
  blind : Blind d d' p
  owed : owed d d' p ≠ 0
  above : ∀ x, d'.ranges.Live x → p < x → x ≤ c → Splits d d' x

section Lost

variable {H : Hashing} {d d' : Container} {df th : ℕ} {c r : RangeTuple} {p q : ℕ}
  {rng rng' : HashRange}
variable {n : ℕ}

/-- What is owed in a smaller range is owed in a larger one. -/
theorem owed_mono (hd : Ordered H d.sl) (hd' : Ordered H d'.sl) (hle : r ≤ c) :
    owed d d' r ≤ owed d d' c := by
  have hsub : ∀ {sl : List HashedElement}, Ordered H sl →
      (within sl r).Sublist (within sl c) := by
    intro sl h
    rw [h.within_eq_filter, h.within_eq_filter]
    exact List.monotone_filter_right _ fun x hx =>
      decide_eq_true (mem_of_le hle (of_decide_eq_true hx))
  have hids : ∀ {l l' : List HashedElement} (f : HashedElement → Bool), l.Sublist l' →
      (((l.filter f).map (·.id) : List GoString) : Multiset GoString) ≤
        ((l'.filter f).map (·.id) : List GoString) := fun f hl =>
    coe_le.mpr ((hl.filter f).map _).subperm
  exact ⟨hids _ (hsub hd'), hids _ (hsub hd), hids _ (hsub hd)⟩

/-- Nothing is found in a range that does not show its elements. -/
theorem walk_of_blind (hblind : Blind d d' c) :
    d.walk d' (n + 1) { tuple := c, elements := false } = 0 ∧
      d.Ends d' (n + 1) { tuple := c, elements := false } := by
  by_cases heq : d.ranges.hashAt c = d'.ranges.hashAt c
  · refine walk_of_empty ?_
    rw [step, compareResults, getRange_hash, getRange_hash, if_pos heq]
  · -- both answers have no elements and the counter zero, and the lack of elements is compared
    obtain ⟨hmy, hother⟩ := hblind.resolve_left heq
    obtain ⟨rng, hget, hrng⟩ := (any_eq_true _ _).mp hmy
    obtain ⟨rng', hget', hrng'⟩ := (any_eq_true _ _).mp hother
    rw [decide_eq_true_iff] at hrng hrng'
    refine walk_of_empty ?_
    rw [step, compareResults, getRange_hash, getRange_hash, if_neg heq, getRange_of_some hget,
      getRange_of_some hget', if_pos (by simp [hrng']), if_pos (by simp [hrng])]
    rfl

/-- If the range shows its elements and its parts are not asked for, everything is found. -/
theorem walk_of_not_splits (hd : Ordered H d.sl) (hd' : Settled H df th d') (hc : d'.ranges.Live c)
    (hblind : ¬ Blind d d' c) (hsplits : ¬ Splits d d' c) :
    d.walk d' (n + 2) { tuple := c, elements := false } = owed d d' c ∧
      d.Ends d' (n + 2) { tuple := c, elements := false } := by
  obtain ⟨q, rng', hat'⟩ := hd'.sound.shape.exists_at hc
  have hget' := hat'.getRange_eq
  have hne : d.ranges.hashAt c ≠ d'.ranges.hashAt c := fun heq => hblind (.inl heq)
  by_cases hzero : rng'.elements = 0
  · -- the remote answer has all its elements, none
    have hempty : d'.elementsIn c = [] := by
      rw [elementsIn, hd'.within_eq_nil hc hat' hzero, List.map_nil]
    rw [← found_comparison hd hd'.ordered]
    refine walk_of_comparison ?_
    rw [step, compareResults, getRange_hash, getRange_hash, if_neg hne, getRange_of_some hget',
      if_pos (by simp [hzero])]
    cases hget : d.ranges.getRange c with
    | none =>
      rw [getRange_of_none hget, if_pos rfl, compareElementsEqual_eq, empty_append, hempty]
    | some rng =>
      have hrng : rng.elements ≠ 0 := fun h => hblind (.inr (by simp [hget, hget', h, hzero]))
      rw [getRange_of_some hget, if_neg (by simpa using Ne.symm hrng), getRange_true,
        compareElementsEqual_eq, empty_append, hempty]
  · refine walk_of_ask hd hd'.ordered hne ?_
    rw [step, compareResults, getRange_hash, getRange_hash, if_neg hne, getRange_of_some hget',
      if_neg (by simpa using Ne.symm hzero)]
    rw [if_pos]
    · rfl
    · cases hget : d.ranges.getRange c with
      | none => exact .inr (by rw [getRange_of_none hget])
      | some rng =>
        rw [getRange_of_some hget]
        by_cases hrng : rng.elements = 0
        · exact .inr hrng.symm
        · refine .inl ⟨?_, rfl⟩
          by_contra hlt
          exact hsplits (by simpa [Splits, hget, hget', hrng] using hlt)

/-- If the range shows its elements and its parts are asked for, what is found is found in them. -/
theorem walk_of_splits (hblind : ¬ Blind d d' c) (hsplits : Splits d d' c) :
    let parts := (genTupleRanges c d.ranges.divideFactor).map fun x =>
      { tuple := x, elements := false : Range }
    d.walk d' (n + 1) { tuple := c, elements := false } = (parts.map (d.walk d' n)).sum ∧
      (d.Ends d' (n + 1) { tuple := c, elements := false } ↔ ∀ r ∈ parts, d.Ends d' n r) := by
  intro parts
  obtain ⟨rng, hget, hrng⟩ := (any_eq_true _ _).mp hsplits.1
  obtain ⟨rng', hget', hrng'⟩ := (any_eq_true _ _).mp hsplits.2
  have hne : d.ranges.hashAt c ≠ d'.ranges.hashAt c := fun heq => hblind (.inl heq)
  rw [decide_eq_true_iff] at hrng hrng'
  have hpos : (0 : ℤ) < rng'.elements := lt_of_le_of_lt (Int.natCast_nonneg _) hrng'
  refine walk_of_prepare ?_
  rw [step, compareResults, getRange_hash, getRange_hash, if_neg hne, getRange_of_some hget',
    getRange_of_some hget, if_neg (by simpa using hpos.ne),
    if_neg (by simpa [Ne.symm hrng] using hrng')]
  rfl

/-- A sum of smaller terms is equal only if all terms are. -/
theorem sum_eq_sum_iff_of_le {α : Type} {f g : α → Found} {l : List α} (hle : ∀ a ∈ l, f a ≤ g a) :
    (l.map f).sum ≤ (l.map g).sum ∧ ((l.map f).sum = (l.map g).sum ↔ ∀ a ∈ l, f a = g a) := by
  induction l with
  | nil => simp
  | cons a l ih =>
    obtain ⟨ha, hl⟩ := List.forall_mem_cons.mp hle
    obtain ⟨hsum, heq⟩ := ih hl
    rw [List.map_cons, List.sum_cons, List.map_cons, List.sum_cons, List.forall_mem_cons, ← heq]
    exact ⟨add_le_add ha hsum, add_eq_add_iff_eq_and_eq ha hsum⟩

/-- A range that is lost below a range whose parts are asked for is lost below one of the parts. -/
theorem dropsIn_iff (hd' : Settled H df th d') (hc : d'.ranges.Live c) (hat : d'.ranges.At c q rng')
    (hdivided : rng'.isDivided = true) (hblind : ¬ Blind d d' c) (hsplits : Splits d d' c) :
    (∃ p, DropsIn d d' c p) ↔
      ∃ r ∈ genTupleRanges c d'.ranges.divideFactor, ∃ p, DropsIn d d' r p := by
  have hshape := hd'.sound.shape
  have ht := hshape.tiles hc hat hdivided
  constructor
  · rintro ⟨p, hp⟩
    have hlt : p < c := lt_of_le_of_ne hp.le fun heq => hblind (heq ▸ hp.blind)
    have hmem : p.lo ∈ p := hshape.nonempty hp.live
    obtain ⟨hlo, hhi⟩ := mem_of_le hp.le hmem
    obtain ⟨r, hr, hmem'⟩ := ht.exists_mem hlo hhi
    have hrc : r ≤ c := (hshape.lt_of_mem (hshape.divided c q rng' hc hat hdivided).1 hr).le
    exact ⟨r, hr, p, hp.live, hshape.le_part hc hat hdivided hp.live hlt hr hmem' hmem, hp.blind,
      hp.owed, fun x hx hpx hxr => hp.above x hx hpx (hxr.trans hrc)⟩
  · rintro ⟨r, hr, p, hp⟩
    have hrc : r ≤ c := (hshape.lt_of_mem (hshape.divided c q rng' hc hat hdivided).1 hr).le
    refine ⟨p, hp.live, hp.le.trans hrc, hp.blind, hp.owed, fun x hx hpx hxc => ?_⟩
    rcases hxc.lt_or_eq with hlt | rfl
    · -- a range between is in the same part
      have hmem : p.lo ∈ p := hshape.nonempty hp.live
      exact hp.above x hx hpx (hshape.le_part hc hat hdivided hx hlt hr
        (mem_of_le hp.le hmem) (mem_of_le hpx.le hmem))
    · exact hsplits

/-- What is found below a range of the remote container: all that is owed, unless a range is lost.
The induction is on the number of hashes in the range. -/
theorem walk_live (hd : Ordered H d.sl) (hd' : Settled H df th d')
    (hfactor : d.ranges.divideFactor = df) (hthreshold : d.ranges.compareThreshold = th)
    (hn : c.hi - c.lo + 2 ≤ n) (hc : d'.ranges.Live c) :
    d.Ends d' n { tuple := c, elements := false } ∧
      d.walk d' n { tuple := c, elements := false } ≤ owed d d' c ∧
      (d.walk d' n { tuple := c, elements := false } = owed d d' c ↔
        ¬ ∃ p, DropsIn d d' c p) := by
  induction n generalizing c with
  | zero => omega
  | succ n ih =>
    by_cases hblind : Blind d d' c
    · -- equal digests end the walk, so all that is owed in the range is lost
      obtain ⟨hwalk, hends⟩ := walk_of_blind (n := n) hblind
      rw [hwalk]
      refine ⟨hends, bot_le, fun hzero => ?_, fun hno => ?_⟩
      · rintro ⟨p, hp⟩
        have hle := owed_mono hd hd'.ordered hp.le
        rw [← hzero] at hle
        exact hp.owed (le_bot_iff.mp hle)
      · by_contra hne
        exact hno ⟨c, hc, le_rfl, hblind, Ne.symm hne, fun x _ hcx hxc =>
          absurd hxc (not_le_of_gt hcx)⟩
    by_cases hsplits : Splits d d' c
    · obtain ⟨q, rng', hat⟩ := hd'.sound.shape.exists_at hc
      -- the remote has more elements than fit, so its range is divided
      have hdivided : rng'.isDivided = true := by
        by_contra hleaf
        have hle := hd'.sound.leaf_le c q rng' hc hat (by simpa using hleaf)
        have hlt := hsplits.2
        rw [hat.getRange_eq, any_some, decide_eq_true_iff, hthreshold,
          ← hd'.compareThreshold] at hlt
        omega
      have hparts : ∀ r ∈ genTupleRanges c d.ranges.divideFactor,
          r.hi - r.lo + 2 ≤ n ∧ d'.ranges.Live r := by
        rw [hfactor, ← hd'.divideFactor]
        intro r hr
        have hlt := width_lt hd'.sound.shape.factor
          (hd'.sound.shape.divided c q rng' hc hat hdivided).1 hr
        exact ⟨by omega, hc.step hat hdivided hr⟩
      obtain ⟨hwalk, hends⟩ := walk_of_splits (n := n) hblind hsplits
      rw [List.map_map] at hwalk
      -- what is owed is the sum over the parts, and each part loses what it loses
      have hsum := owed_eq_sum hd hd'.ordered (hd'.sound.shape.tiles hc hat hdivided)
      obtain ⟨hle, hiff⟩ := sum_eq_sum_iff_of_le (l := genTupleRanges c d.ranges.divideFactor)
        fun r hr => (ih (hparts r hr).1 (hparts r hr).2).2.1
      rw [hd'.divideFactor, ← hfactor] at hsum
      rw [hends, List.forall_mem_map, hwalk, hsum, dropsIn_iff hd' hc hat hdivided hblind hsplits,
        hd'.divideFactor, ← hfactor]
      refine ⟨fun r hr => (ih (hparts r hr).1 (hparts r hr).2).1, hle, hiff.trans ?_⟩
      rw [not_exists]
      simp only [not_and]
      exact forall₂_congr fun r hr => (ih (hparts r hr).1 (hparts r hr).2).2.2
    · -- the elements are compared, nothing is lost
      obtain ⟨m, rfl⟩ : ∃ m, n = m + 1 := ⟨n - 1, by omega⟩
      obtain ⟨hwalk, hends⟩ := walk_of_not_splits (n := m) hd hd' hc hblind hsplits
      refine ⟨hends, hwalk.le, ⟨fun _ => ?_, fun _ => hwalk⟩⟩
      rintro ⟨p, hp⟩
      rcases hp.le.lt_or_eq with hlt | rfl
      · exact hsplits (hp.above c hc hlt le_rfl)
      · exact hblind hp.blind

end Lost

/-! ## Exactness -/

/-- The lists have the ids that differ, each once. -/
structure Exact (d d' : Container) (dctx : DiffCtx) : Prop where
  nodup : dctx.newIds.Nodup ∧ dctx.changedIds.Nodup ∧ dctx.removedIds.Nodup
  mem_newIds : ∀ id, id ∈ dctx.newIds ↔
    (∃ y ∈ d'.elements, y.id = id) ∧ ∀ x ∈ d.elements, x.id ≠ id
  mem_changedIds : ∀ id, id ∈ dctx.changedIds ↔
    ∃ x ∈ d.elements, ∃ y ∈ d'.elements, x.id = id ∧ y.id = id ∧ y.head ≠ x.head
  mem_removedIds : ∀ id, id ∈ dctx.removedIds ↔
    (∃ x ∈ d.elements, x.id = id) ∧ ∀ y ∈ d'.elements, y.id ≠ id

/-- A range of the remote tree that the own tree does not have, that is asked for, and that does not
show what is owed in it. Mostly it is empty in the remote container, and the own container has its
elements in a larger range. -/
structure Drops (d d' : Container) (p : RangeTuple) : Prop where
  live : d'.ranges.Live p
  not_live : ¬ d.ranges.Live p
  blind : Blind d d' p
  owed : owed d d' p ≠ 0
  above : ∀ x, d'.ranges.Live x → p < x → Splits d d' x

section Exact

variable {H : Hashing} {d d' : Container} {df th : ℕ} {c : RangeTuple} {dctx : DiffCtx}
variable {id : GoString} {n : ℕ}

/-- Ids with a property, each once. -/
theorem nodup_map_id_filter (hd : Ordered H d.sl) (f : HashedElement → Bool) :
    ((d.sl.filter f).map (·.id)).Nodup := by
  refine List.Nodup.map_on (fun x hx y hy hxy => ?_) (hd.nodup_keys.of_map.filter _)
  exact hd.eq_of_id (List.mem_of_mem_filter hx) (List.mem_of_mem_filter hy) hxy

theorem coe_eq_coe_iff {l l' : List GoString} (hl' : l'.Nodup) :
    (l : Multiset GoString) = l' ↔ l.Nodup ∧ ∀ id, id ∈ l ↔ id ∈ l' := by
  rw [coe_eq_coe]
  constructor
  · intro hperm
    exact ⟨hperm.nodup_iff.mpr hl', fun _ => hperm.mem_iff⟩
  · rintro ⟨hl, hmem⟩
    exact (List.perm_ext_iff_of_nodup hl hl').mpr hmem

/-- The ids of one container that the other does not have. -/
theorem mem_map_id_filter_ne :
    id ∈ (d.sl.filter fun x => ∀ y ∈ d'.sl, y.id ≠ x.id).map (·.id) ↔
      (∃ x ∈ d.elements, x.id = id) ∧ ∀ y ∈ d'.elements, y.id ≠ id := by
  rw [List.mem_map, elements, elements, List.forall_mem_map]
  constructor
  · rintro ⟨x, hx, rfl⟩
    obtain ⟨hx, hall⟩ := List.mem_filter.mp hx
    exact ⟨⟨_, List.mem_map_of_mem hx, rfl⟩, of_decide_eq_true hall⟩
  · rintro ⟨⟨e, he, rfl⟩, hall⟩
    obtain ⟨x, hx, rfl⟩ := List.mem_map.mp he
    exact ⟨x, List.mem_filter.mpr ⟨hx, decide_eq_true hall⟩, rfl⟩

/-- The ids that both have with different heads. -/
theorem mem_map_id_filter_head :
    id ∈ (d.sl.filter fun x => ∃ y ∈ d'.sl, y.id = x.id ∧ y.head ≠ x.head).map (·.id) ↔
      ∃ x ∈ d.elements, ∃ y ∈ d'.elements, x.id = id ∧ y.id = id ∧ y.head ≠ x.head := by
  rw [List.mem_map, elements, elements]
  constructor
  · rintro ⟨x, hx, rfl⟩
    obtain ⟨hx, hex⟩ := List.mem_filter.mp hx
    obtain ⟨y, hy, hid, hhead⟩ := of_decide_eq_true hex
    exact ⟨_, List.mem_map_of_mem hx, _, List.mem_map_of_mem hy, rfl, hid, hhead⟩
  · rintro ⟨e, he, e', he', rfl, hid, hhead⟩
    obtain ⟨x, hx, rfl⟩ := List.mem_map.mp he
    obtain ⟨y, hy, rfl⟩ := List.mem_map.mp he'
    exact ⟨x, List.mem_filter.mpr ⟨hx, decide_eq_true ⟨y, hy, hid, hhead⟩⟩, rfl⟩

/-- The lists are exact iff they have what is owed. -/
theorem exact_iff (hd : Ordered H d.sl) (hd' : Ordered H d'.sl) :
    Exact d d' dctx ↔ dctx.found = owed d d' topTuple := by
  rw [found, owed, hd.within_topTuple, hd'.within_topTuple, owedOf, Prod.mk.injEq,
    Prod.mk.injEq, coe_eq_coe_iff (nodup_map_id_filter hd' _),
    coe_eq_coe_iff (nodup_map_id_filter hd _), coe_eq_coe_iff (nodup_map_id_filter hd _)]
  simp only [mem_map_id_filter_ne, mem_map_id_filter_head]
  constructor
  · rintro ⟨⟨hnew, hchanged, hremoved⟩, hmem, hmem', hmem''⟩
    exact ⟨⟨hnew, hmem⟩, ⟨hchanged, hmem'⟩, hremoved, hmem''⟩
  · rintro ⟨⟨hnew, hmem⟩, ⟨hchanged, hmem'⟩, hremoved, hmem''⟩
    exact ⟨⟨hnew, hchanged, hremoved⟩, hmem, hmem', hmem''⟩

/-- `Diff` ends, and it is exact iff no range is lost. -/
theorem diff_exact_iff_dropsIn (hd : Ordered H d.sl) (hd' : Settled H df th d')
    (hfactor : d.ranges.divideFactor = df) (hthreshold : d.ranges.compareThreshold = th)
    (hn : hashes < n) :
    ∃ dctx, d.diff n d' = .ok dctx ∧ (Exact d d' dctx ↔ ¬ ∃ p, DropsIn d d' topTuple p) := by
  have hwidth : topTuple.hi - topTuple.lo + 2 ≤ n := by
    have htop : topTuple.hi - topTuple.lo + 1 = hashes := by decide
    omega
  obtain ⟨hends, -, hiff⟩ := walk_live (c := topTuple) hd hd' hfactor hthreshold hwidth .refl
  have hsent : ∀ r ∈ [{ tuple := topTuple, elements := false }], d.Ends d' n r :=
    fun r hr => List.mem_singleton.mp hr ▸ hends
  obtain ⟨dctx, hok⟩ : ∃ dctx, d.diff n d' = .ok dctx := diffRounds_ok rfl hsent
  have hfound := diffRounds_found rfl hok
  rw [List.map_singleton, List.sum_singleton] at hfound
  refine ⟨dctx, hok, ?_⟩
  rw [exact_iff hd hd'.ordered, hfound, ← hiff]
  exact Eq.congr_left (zero_add _)

/-- A range of both trees does not hide what is owed, if digests tell elements apart. -/
theorem owed_eq_zero_of_blind (hd : Settled H df th d) (hd' : Settled H df th d')
    (hdigest : d.ranges.hashAt c = d'.ranges.hashAt c → d.ranges.hashAt c ≠ [] →
      d.elementsIn c = d'.elementsIn c) (hc : d.ranges.Live c) (hc' : d'.ranges.Live c)
    (hblind : Blind d d' c) : owed d d' c = 0 := by
  refine owed_eq_zero hd.ordered hd'.ordered ?_
  have hempty : d.elementsIn c = [] → d'.elementsIn c = [] →
      within d.sl c = within d'.sl c := fun h h' => by
    rw [List.map_eq_nil_iff.mp h, List.map_eq_nil_iff.mp h']
  rcases hblind with heq | ⟨hzero, hzero'⟩
  · rcases hd.hashAt_length hc with ⟨hnil, h⟩ | hlength
    · rcases hd'.hashAt_length hc' with ⟨-, h'⟩ | hlength'
      · exact hempty h h'
      · rw [← heq, hnil] at hlength'
        cases hlength'
    · have helements := hdigest heq fun hnil => by simp [hnil] at hlength
      have hord : ∀ {sl}, Ordered H sl → Ordered H (within sl c) := fun {sl} h => by
        rw [h.within_eq_filter]
        exact h.filter _
      refine (hord hd.ordered).eq_of_elements (hord hd'.ordered) fun e => ?_
      change e ∈ d.elementsIn c ↔ e ∈ d'.elementsIn c
      rw [helements]
  · obtain ⟨p, rng, hat⟩ := hd.sound.shape.exists_at hc
    obtain ⟨q, rng', hat'⟩ := hd'.sound.shape.exists_at hc'
    rw [hat.getRange_eq, any_some, decide_eq_true_iff] at hzero
    rw [hat'.getRange_eq, any_some, decide_eq_true_iff] at hzero'
    rw [hd.within_eq_nil hc hat hzero, hd'.within_eq_nil hc' hat' hzero']

/-- `Diff` is exact iff no range is lost, if digests tell elements apart. -/
theorem Settled.exact_iff_not_drops (hd : Settled H df th d) (hd' : Settled H df th d')
    (hdigest : ∀ c, d.ranges.Live c → d'.ranges.Live c →
      d.ranges.hashAt c = d'.ranges.hashAt c → d.ranges.hashAt c ≠ [] →
      d.elementsIn c = d'.elementsIn c) (hn : hashes < n) :
    ∃ dctx, d.diff n d' = .ok dctx ∧ (Exact d d' dctx ↔ ¬ ∃ p, Drops d d' p) := by
  obtain ⟨dctx, hok, hiff⟩ :=
    diff_exact_iff_dropsIn hd.ordered hd' hd.divideFactor hd.compareThreshold hn
  refine ⟨dctx, hok, hiff.trans (not_congr (exists_congr fun p => ⟨fun hp => ?_, fun hp => ?_⟩))⟩
  · refine ⟨hp.live, fun hlive => hp.owed ?_, hp.blind, hp.owed, fun x hx hpx => ?_⟩
    · exact owed_eq_zero_of_blind hd hd' (hdigest p hlive hp.live) hlive hp.live hp.blind
    · exact hp.above x hx hpx
        ((hd'.sound.shape.isRange hx).le_topTuple hd'.sound.shape.factor)
  · exact ⟨hp.live, (hd'.sound.shape.isRange hp.live).le_topTuple hd'.sound.shape.factor, hp.blind,
      hp.owed, fun x hx hpx _ => hp.above x hx hpx⟩

end Exact

/-! ## Runs -/

/-- What keeps `Set` from dividing a range with fewer hashes than `divideFactor`, besides a hash
that tells ids apart. -/
structure SetWide (H : Hashing) (d : Container) (e : Element) : Prop where
  id_ne_nil : e.id ≠ []
  wide : ∀ c p rng, d.ranges.LeafAt (H.sum64 e.id) c p rng →
    (d.ranges.compareThreshold : ℤ) < rng.elements + 1 → Wide d.ranges.divideFactor c

/-- A good container with ids of a given set. -/
structure GoodOn (H : Hashing) (S : Set GoString) (df th : ℕ) (d : Container) : Prop
    extends Good H df th d where
  known : ∀ x ∈ d.sl, x.id ∈ S

section Runs

variable {H : Hashing} {S : Set GoString} {df th fuel m : ℕ} {d d' : Container} {e : Element}

/-- Different ids of the set have different hashes, so that no range has more elements than
hashes. -/
theorem GoodOn.setOk (hd : GoodOn H S df th d) (hinj : Set.InjOn H.sum64 S) (hm : 1 ≤ m)
    (hdf : df = 2 ^ m) (hle : df ≤ th + 1) (hid : e.id ∈ S) (hwide : SetWide H d e) :
    SetOk H d e := by
  have hord : Ordered H (d.afterSet H e) := hd.ordered.update rfl hwide.id_ne_nil
  have hknown : ∀ x ∈ d.afterSet H e, x.id ∈ S := by
    intro x hx
    rcases mem_slSet.mp hx with rfl | hx
    · exact hid
    · exact hd.known x (mem_slRemove.mp hx).1
  have hnodup : ((d.afterSet H e).map HashedElement.hash).Nodup := by
    refine List.Nodup.map_on (fun x hx y hy hxy => ?_) hord.nodup_keys.of_map
    rw [hord.hash x hx, hord.hash y hy] at hxy
    exact hord.eq_of_id hx hy (hinj (hknown x hx) (hknown y hy) hxy)
  refine ⟨hwide.id_ne_nil, ?_, hwide.wide, ?_⟩
  · rw [hd.divideFactor, hdf]
    exact routed_of_pow_two hm _
  · rw [hd.divideFactor, hd.compareThreshold]
    exact roomy_of_nodup (hdf ▸ two_le_two_pow hm) hle hnodup

theorem GoodOn.setElement (hd : GoodOn H S df th d) (hid : e.id ∈ S) (hok : SetOk H d e)
    (hset : d.setElement H fuel e = .ok d') : GoodOn H S df th d' := by
  refine ⟨hd.toGood.setElement hok hset, fun x hx => ?_⟩
  obtain ⟨h', -, hd'⟩ := Except.bind_eq_ok.mp hset
  obtain rfl := Except.ok.inj hd'
  rcases mem_slSet.mp hx with rfl | hx
  · exact hid
  · exact hd.known x (mem_slRemove.mp hx).1

theorem mem_of_removeId {id : GoString} {ord : RangeOrder} (hok : d.removeId H fuel id ord = .ok d')
    {x : HashedElement} (hx : x ∈ d'.sl) : x ∈ d.sl := by
  unfold removeId at hok
  simp only at hok
  split at hok
  · exact Except.ok.inj hok ▸ hx
  · obtain ⟨h', -, hrecalculate⟩ := Except.bind_eq_ok.mp hok
    rw [recalculate_sl hrecalculate] at hx
    exact (mem_slRemove.mp hx).1

theorem GoodOn.set {elements : List Element} {ord : RangeOrder} (hd : GoodOn H S df th d)
    (hinj : Set.InjOn H.sum64 S) (hm : 1 ≤ m) (hdf : df = 2 ^ m) (hle : df ≤ th + 1)
    (hok : ∀ x ∈ runTrace (Container.setElement H fuel) d elements, x.2.id ∈ S ∧ SetWide H x.1 x.2)
    (hset : d.set H fuel elements ord = .ok d') : GoodOn H S df th d' ∧ d'.ranges.dirty = [] := by
  obtain ⟨d₁, hfold, hrecalculate⟩ := Except.bind_eq_ok.mp hset
  have hd₁ : GoodOn H S df th d₁ := foldlM_invariant_of_trace (GoodOn H S df th)
    (fun x => x.2.id ∈ S ∧ SetWide H x.1 x.2) (fun _ _ _ hd hok hset =>
      hd.setElement hok.1 (hd.setOk hinj hm hdf hle hok.1 hok.2) hset) hd hok hfold
  obtain ⟨d₂, hok₂, hsettled, hsl⟩ := hd₁.toGood.recalculate ord
  obtain rfl := Except.ok.inj (hrecalculate.symm.trans hok₂)
  exact ⟨⟨hsettled.toGood, hsl ▸ hd₁.known⟩, hsettled.clean⟩

/-- After every run on ids with different hashes the container is settled. -/
theorem Reached.settled {divideFactor compareThreshold : ℤ} (hdf : divideFactor = 2 ^ m)
    (hint : divideFactor < 2 ^ 63) (hth : divideFactor - 1 ≤ compareThreshold)
    (hinj : Set.InjOn H.sum64 S)
    (hd : Reached H divideFactor compareThreshold (fun d e => e.id ∈ S ∧ SetWide H d e)
      (fun _ _ => True) d) :
    Settled H (if divideFactor < 2 then 2 else divideFactor.toNat)
      (if compareThreshold < 1 then 1 else compareThreshold.toNat) d := by
  have hhashes : (hashes : ℤ) = 2 ^ 64 := by decide
  have hle : (if divideFactor < 2 then 2 else divideFactor.toNat) ≤
      (if compareThreshold < 1 then 1 else compareThreshold.toNat) + 1 := by
    split_ifs <;> omega
  obtain ⟨fuel, ord, ops, hrun, hok⟩ := hd
  suffices hgood : GoodOn H S _ _ d ∧ d.ranges.dirty = [] from ⟨hgood.1.toGood, hgood.2⟩
  refine run_induction (fun d => GoodOn H S _ _ d ∧ d.ranges.dirty = []) hrun
    (fun d₀ hd₀ => ?_) (fun d op d' hd hop hd' => ?_) hok
  · have hsettled := new_settled (by omega) hd₀
    refine ⟨⟨hsettled.toGood, fun x hx => ?_⟩, hsettled.clean⟩
    obtain ⟨h, -, hd₀⟩ := Except.bind_eq_ok.mp hd₀
    obtain ⟨h', -, hd₀⟩ := Except.bind_eq_ok.mp hd₀
    obtain rfl := Except.ok.inj hd₀
    cases hx
  · cases op with
    | set elements ord =>
      exact hd.1.set hinj (le_max_right m 1) (clamp_pow_two hdf) hle hop hd'
    | removeId id ord =>
      have hsettled := Settled.removeId ⟨hd.1.toGood, hd.2⟩ hd'
      exact ⟨⟨hsettled.toGood, fun x hx => hd.1.known x (mem_of_removeId hd' hx)⟩, hsettled.clean⟩

/-- For containers that runs on ids with different hashes lead to, `Diff` ends, and it is exact iff
no range is lost, if digests tell elements apart. -/
theorem Reached.diff_exact_iff {divideFactor compareThreshold : ℤ} (hdf : divideFactor = 2 ^ m)
    (hint : divideFactor < 2 ^ 63) (hth : divideFactor - 1 ≤ compareThreshold)
    (hinj : Set.InjOn H.sum64 S)
    (hd : Reached H divideFactor compareThreshold (fun d e => e.id ∈ S ∧ SetWide H d e)
      (fun _ _ => True) d)
    (hd' : Reached H divideFactor compareThreshold (fun d e => e.id ∈ S ∧ SetWide H d e)
      (fun _ _ => True) d') (hdigest : ∀ c, d.ranges.Live c → d'.ranges.Live c →
      d.ranges.hashAt c = d'.ranges.hashAt c → d.ranges.hashAt c ≠ [] →
      d.elementsIn c = d'.elementsIn c) {n : ℕ} (hn : hashes < n) :
    ∃ dctx, d.diff n d' = .ok dctx ∧ (Exact d d' dctx ↔ ¬ ∃ p, Drops d d' p) :=
  (hd.settled hdf hint hth hinj).exact_iff_not_drops (hd'.settled hdf hint hth hinj) hdigest hn

/-- What `Diff` reports is true and reported once, also where a range is lost and whatever the
digests are. -/
theorem Reached.diff_sound {divideFactor compareThreshold : ℤ} (hdf : divideFactor = 2 ^ m)
    (hint : divideFactor < 2 ^ 63) (hth : divideFactor - 1 ≤ compareThreshold)
    (hinj : Set.InjOn H.sum64 S)
    (hd : Reached H divideFactor compareThreshold (fun d e => e.id ∈ S ∧ SetWide H d e)
      (fun _ _ => True) d)
    (hd' : Reached H divideFactor compareThreshold (fun d e => e.id ∈ S ∧ SetWide H d e)
      (fun _ _ => True) d') {n : ℕ} (hn : hashes < n) :
    ∃ dctx, d.diff n d' = .ok dctx ∧
      (dctx.newIds.Nodup ∧ dctx.changedIds.Nodup ∧ dctx.removedIds.Nodup) ∧
      (∀ id ∈ dctx.newIds, (∃ y ∈ d'.elements, y.id = id) ∧ ∀ x ∈ d.elements, x.id ≠ id) ∧
      (∀ id ∈ dctx.changedIds,
        ∃ x ∈ d.elements, ∃ y ∈ d'.elements, x.id = id ∧ y.id = id ∧ y.head ≠ x.head) ∧
      ∀ id ∈ dctx.removedIds, (∃ x ∈ d.elements, x.id = id) ∧ ∀ y ∈ d'.elements, y.id ≠ id := by
  have hs := hd.settled hdf hint hth hinj
  have hs' := hd'.settled hdf hint hth hinj
  have htop : topTuple.hi - topTuple.lo + 1 = hashes := by decide
  obtain ⟨hends, hle, -⟩ := walk_live (c := topTuple) (n := n) hs.ordered hs' hs.divideFactor
    hs.compareThreshold (by omega) .refl
  obtain ⟨dctx, hok⟩ : ∃ dctx, d.diff n d' = .ok dctx :=
    diffRounds_ok rfl fun r hr => List.mem_singleton.mp hr ▸ hends
  have hfound := diffRounds_found rfl hok
  rw [List.map_singleton, List.sum_singleton] at hfound
  -- the three lists are parts of what is owed, which names each id once
  have hpart : dctx.found ≤ owed d d' topTuple := (hfound.trans (zero_add _)).trans_le hle
  rw [owed, hs.ordered.within_topTuple, hs'.ordered.within_topTuple] at hpart
  obtain ⟨hnew, hchanged, hremoved⟩ := hpart
  have hnodup := nodup_map_id_filter hs.ordered
  exact ⟨dctx, hok, ⟨nodup_of_le hnew (nodup_map_id_filter hs'.ordered _),
    nodup_of_le hchanged (hnodup _), nodup_of_le hremoved (hnodup _)⟩,
    fun id hid => mem_map_id_filter_ne.mp (mem_of_le hnew hid),
    fun id hid => mem_map_id_filter_head.mp (mem_of_le hchanged hid),
    fun id hid => mem_map_id_filter_ne.mp (mem_of_le hremoved hid)⟩

end Runs

end Container

namespace Sample

open Container

/-- Values of `xxhash.Sum64` and of `blake3` for the ids "b", "d" and "g" with the head "1". -/
def hashingBDG : Hashing :=
  let g1 := 0x7a690fcf9dde5de932a6f63fe99a3111dd2ec448c19e40ad76a3d7af109f1a9c
  let b1 := 0xc914958b53c44e19fcc693623b9cd3194df4d947bc9870d324988209bafae35b
  let d1 := 0x637140a8a0a8e97655585db60b46b89af928c2c431953a2ec77b766e113a38a3
  let ofBD := 0x374f78edfad754350fb6bca1d8263de278a22e409368d017fcc414dfec2b52c9
  let ofOfBD := 0x6ededb0bb858e2502e8a65f756e46fe79799e595a57921611a51634ea77e7416
  .ofTable
    [([98], 0x78452aa11af39f9b), ([100], 0x5000d8f2907d14e4), ([103], 0x3f41204e12e26ae)]
    [([], 0xaf1349b9f5f9a1a6a0404dea36dcc9499bcb25c9adc112b7cc9a93cae41f3262),
      ([103, 49], g1), ([98, 49], b1), ([100, 49], d1),
      (bytesOfNat 32 g1, 0x014cdb24606a700abe6a65e54fa0114e44a9895029a190f978c27ebde50edd78),
      (bytesOfNat 32 d1 ++ bytesOfNat 32 b1, ofBD), (bytesOfNat 32 ofBD, ofOfBD),
      (bytesOfNat 32 ofOfBD, 0x38e26ee46516302d38eb7ac36d04caf803a5846bca6424723f2469668a94e69f)]

/-- The ids. -/
def idsBDG : List GoString := [[98], [100], [103]]

/-- A run that sets an element with the id "g". -/
def setG : List Op := [.set [⟨[103], [49]⟩] .listed]

/-- A run that sets elements with the ids "b" and "d". -/
def setBD : List Op := [.set [⟨[98], [49]⟩, ⟨[100], [49]⟩] .listed]

theorem reachedOn_of_check {H : Hashing} {ids : List GoString} {ops : List Op}
    (hcheck : (run H 70 2 1 .listed ops).isOk = true ∧ ∀ x ∈ trace H 70 2 1 .listed ops,
      x.1.StepOk H 70 (fun d e => e.id ∈ ids ∧ SetCheck H 1 d e) (fun _ _ => True) x.2) :
    Reached H 2 1 (fun d e => e.id ∈ { id | id ∈ ids } ∧ SetWide H d e) (fun _ _ => True)
      (container H ops) :=
  ⟨70, .listed, ops, run_eq_container hcheck.1, fun x hx =>
    (hcheck.2 x hx).imp (fun _ _ h => ⟨h.1, h.2.setOk.id_ne_nil, h.2.setOk.wide⟩) fun _ _ => id⟩

/-- Digests tell the elements of ranges of both trees apart. -/
def DigestCheck (d d' : Container) : Prop :=
  d.ranges.Closed (d.ranges.reachList 64 topTuple) ∧
    ∀ c ∈ d.ranges.reachList 64 topTuple, d.ranges.hashAt c = d'.ranges.hashAt c →
      d.ranges.hashAt c ≠ [] → d.elementsIn c = d'.elementsIn c

instance (d d' : Container) : Decidable (DigestCheck d d') :=
  inferInstanceAs (Decidable (_ ∧ _))

end Sample

open Sample in
/-- The remote container has no range that the own container does not have. -/
theorem diff_exact_twoElements :
    let d := container hashingBDG setBD
    let d' := container hashingBDG setG
    (¬ ∃ p, Container.Drops d d' p) ∧
      ∃ dctx, d.diff (hashes + 1) d' = .ok dctx ∧ Container.Exact d d' dctx := by
  intro d d'
  have hno : ¬ ∃ p, Container.Drops d d' p := by
    rintro ⟨p, hp⟩
    have hclosed : d'.ranges.Closed (d'.ranges.reachList 64 topTuple) := by decide +kernel
    have hsub : ∀ c ∈ d'.ranges.reachList 64 topTuple, c ∈ d.ranges.reachList 64 topTuple := by
      decide +kernel
    exact hp.not_live (HashRanges.reach_of_mem_reachList (hsub p (hclosed.mem hp.live)))
  have hinj : ∀ id ∈ idsBDG, ∀ id' ∈ idsBDG, hashingBDG.sum64 id = hashingBDG.sum64 id' →
      id = id' := by decide +kernel
  have hdigest : DigestCheck d d' := by decide +kernel
  obtain ⟨dctx, hok, hiff⟩ := Container.Reached.diff_exact_iff (m := 1) rfl (by decide) (by decide)
    (fun id hid id' hid' => hinj id hid id' hid') (reachedOn_of_check (by decide +kernel))
    (reachedOn_of_check (by decide +kernel)) (fun c hc _ => hdigest.2 c (hdigest.1.mem hc))
    (Nat.lt_succ_self _)
  exact ⟨hno, dctx, hok, hiff.mpr hno⟩

open Sample in
/-- What is reported of two containers where an element is lost. -/
theorem diff_sound_lostElement :
    ∃ dctx, (container hashingBDG setG).diff (hashes + 1) (container hashingBDG setBD) = .ok dctx ∧
      ∀ id ∈ dctx.newIds, ∀ x ∈ (container hashingBDG setG).elements, x.id ≠ id := by
  have hinj : ∀ id ∈ idsBDG, ∀ id' ∈ idsBDG, hashingBDG.sum64 id = hashingBDG.sum64 id' →
      id = id' := by decide +kernel
  obtain ⟨dctx, hok, -, hnew, -⟩ := Container.Reached.diff_sound (m := 1) rfl (by decide)
    (by decide) (fun id hid id' hid' => hinj id hid id' hid')
    (@reachedOn_of_check _ _ setG (by decide +kernel))
    (@reachedOn_of_check _ _ setBD (by decide +kernel)) (Nat.lt_succ_self _)
  exact ⟨dctx, hok, fun id hid => (hnew id hid).2⟩

open Sample in
/-- One element in a range that is not divided, and two elements in one half of that range in the
remote container: the first element is lost. -/
theorem diff_lostElement :
    let d := container hashingBDG setG
    let d' := container hashingBDG setBD
    Container.run hashingBDG 70 2 1 .listed setG = .ok d ∧
    Container.run hashingBDG 70 2 1 .listed setBD = .ok d' ∧
    Set.InjOn hashingBDG.sum64 { id | id ∈ idsBDG } ∧
    (∀ c, d.ranges.Live c → d'.ranges.Live c →
      d.ranges.hashAt c = d'.ranges.hashAt c → d.ranges.hashAt c ≠ [] →
      d.elementsIn c = d'.elementsIn c) ∧
    d.elements.map Element.id = [[103]] ∧ d'.elements.map Element.id = [[100], [98]] ∧
    ∃ dctx, d.diff 70 d' = .ok dctx ∧ dctx.newIds = [[100], [98]] ∧ dctx.removedIds = [] := by
  intro d d'
  have hinj : ∀ id ∈ idsBDG, ∀ id' ∈ idsBDG, hashingBDG.sum64 id = hashingBDG.sum64 id' →
      id = id' := by decide +kernel
  have hdigest : DigestCheck d d' := by decide +kernel
  refine ⟨run_eq_container (by decide +kernel), run_eq_container (by decide +kernel),
    fun id hid id' hid' => hinj id hid id' hid', fun c hc _ => hdigest.2 c (hdigest.1.mem hc),
    by decide +kernel, by decide +kernel, ?_⟩
  have hdiff : (match d.diff 70 d' with
      | .ok dctx => decide (dctx.newIds = [[100], [98]] ∧ dctx.removedIds = [])
      | .error _ => false) = true := by decide +kernel
  split at hdiff
  · next dctx hok => exact ⟨dctx, hok, of_decide_eq_true hdiff⟩
  · cases hdiff

end Ldiff
