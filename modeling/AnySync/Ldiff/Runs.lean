import AnySync.Ldiff.Update

/-!
# Runs of a container

Every run of `Set` and `RemoveId` calls on a new container keeps its digests up to date, as long as
no range with fewer hashes than `divideFactor` is divided and `getBottomRange` finds the ranges of
the hashes.

The main result is `run_settled`.
-/

namespace Ldiff

section Edit

variable {H : Hashing} {sl : List HashedElement} {el : HashedElement}

open HashRanges (Edit)

/-- The elements after `Set`. -/
theorem Ordered.edit_set (h : Ordered H sl) (hel : el.hash = H.sum64 el.id) (hid : el.id ≠ []) :
    Edit sl (slSet (slRemove sl el) el) el.hash 1 where
  within_out _ hx := h.within_slSet hel hid hx
  count_out x hx := by
    have hle := h.count_update hel x
    rw [if_neg hx] at hle
    omega
  count_in x hx := by
    have hle := h.count_update hel x
    rw [if_pos hx] at hle
    omega

/-- The removal of an element changes the elements at one hash. -/
theorem Ordered.edit_remove (h : Ordered H sl) (hel : el.hash = H.sum64 el.id)
    (hmem : ∃ x ∈ sl, x.id = el.id) : Edit sl (slRemove sl el) el.hash (-1) where
  within_out _ hx := h.within_slRemove hel hx
  count_out x hx := by
    have hsplit := h.count_eq_add hel x
    rw [if_neg fun hboth => hx hboth.1] at hsplit
    omega
  count_in x hx := by
    have hsplit := h.count_eq_add hel x
    rw [if_pos ⟨hx, hmem⟩] at hsplit
    omega

end Edit

namespace Container

/-- The hashed element for an element. -/
def hashed (H : Hashing) (e : Element) : HashedElement := { e with hash := H.sum64 e.id }

/-- The elements after `e` is set. -/
def afterSet (H : Hashing) (d : Container) (e : Element) : List HashedElement :=
  slSet (slRemove d.sl (hashed H e)) (hashed H e)

/-- The elements after `id` is removed. -/
def afterRemove (H : Hashing) (d : Container) (id : GoString) : List HashedElement :=
  slRemove d.sl { id := id, head := [], hash := H.sum64 id }

/-- What the ranges rely on when an element is added: its id is not empty, `getBottomRange` finds
the ranges of its hash, and no range with fewer hashes than `divideFactor` is divided, neither
the range that the element is added to nor a range below it. -/
structure SetOk (H : Hashing) (d : Container) (e : Element) : Prop where
  id_ne_nil : e.id ≠ []
  routed : Routed d.ranges.divideFactor (H.sum64 e.id)
  wide : ∀ c p rng, d.ranges.LeafAt (H.sum64 e.id) c p rng →
    (d.ranges.compareThreshold : ℤ) < rng.elements + 1 → Wide d.ranges.divideFactor c
  roomy : Roomy d.ranges.divideFactor d.ranges.compareThreshold (d.afterSet H e)

/-- The elements of the container are in order and its ranges are sound. -/
structure Good (H : Hashing) (divideFactor compareThreshold : ℕ) (d : Container) : Prop where
  ordered : Ordered H d.sl
  routed : ∀ x ∈ d.sl, Routed divideFactor x.hash
  sound : d.ranges.Sound H d.sl
  divideFactor : d.ranges.divideFactor = divideFactor
  compareThreshold : d.ranges.compareThreshold = compareThreshold

/-- Nothing is dirty. -/
structure Settled (H : Hashing) (divideFactor compareThreshold : ℕ) (d : Container) : Prop
    extends Good H divideFactor compareThreshold d where
  clean : d.ranges.dirty = []

section Steps

variable {H : Hashing} {df th fuel : ℕ} {d d' : Container} {e : Element} {ord : RangeOrder}
  {id : GoString}

/-- One element of a call of `Set`. -/
theorem Good.setElement (hd : Good H df th d) (hok : SetOk H d e)
    (hset : d.setElement H fuel e = .ok d') : Good H df th d' := by
  obtain ⟨h', hadd, hd'⟩ := Except.bind_eq_ok.mp hset
  obtain rfl := Except.ok.inj hd'
  have hord : Ordered H (d.afterSet H e) := hd.ordered.update rfl hok.id_ne_nil
  have hsound : h'.Sound H (d.afterSet H e) :=
    hd.sound.addElement hord (hd.ordered.edit_set rfl hok.id_ne_nil) (H.sum64_lt _) hok.routed
      hok.wide hok.roomy hadd
  obtain ⟨hfactor, hthreshold⟩ := HashRanges.addElement_params hadd
  refine ⟨hord, fun x hx => ?_, hsound, hfactor.trans hd.divideFactor,
    hthreshold.trans hd.compareThreshold⟩
  rcases mem_slSet.mp hx with rfl | hx
  · exact hd.divideFactor ▸ hok.routed
  · exact hd.routed x (mem_slRemove.mp hx).1

variable (ord) in
/-- `recalculateHashes` settles the container. -/
theorem Good.recalculate (hd : Good H df th d) :
    ∃ d', d.recalculate H ord = .ok d' ∧ Settled H df th d' ∧ d'.sl = d.sl := by
  obtain ⟨h', hok, hrelabel, hsound, hclean⟩ :=
    HashRanges.recalculateHashes_spec hd.ordered ord hd.sound
  refine ⟨{ d with ranges := h' }, ?_, ⟨⟨hd.ordered, hd.routed, hsound,
    hrelabel.divideFactor.trans hd.divideFactor,
    hrelabel.compareThreshold.trans hd.compareThreshold⟩, hclean⟩, rfl⟩
  rw [Container.recalculate, hok]
  rfl

/-- `Set` keeps a container settled. -/
theorem Good.set {elements : List Element} (hd : Good H df th d)
    (hok : ∀ x ∈ runTrace (Container.setElement H fuel) d elements, SetOk H x.1 x.2)
    (hset : d.set H fuel elements ord = .ok d') : Settled H df th d' := by
  obtain ⟨d₁, hfold, hrecalculate⟩ := Except.bind_eq_ok.mp hset
  have hd₁ : Good H df th d₁ := foldlM_invariant_of_trace (Good H df th)
    (fun x => SetOk H x.1 x.2) (fun _ _ _ hd hok hset => hd.setElement hok hset) hd hok hfold
  obtain ⟨d₂, hok₂, hsettled, -⟩ := hd₁.recalculate ord
  obtain rfl := Except.ok.inj (hrecalculate.symm.trans hok₂)
  exact hsettled

theorem all_ne_iff {sl : List HashedElement} {el : HashedElement} :
    (sl.all fun x => compare x el ≠ .eq) = true ↔ ¬ ∃ x ∈ sl, x.id = el.id := by
  simp [compare_eq_eq]

/-- What `RemoveId` does: nothing if the id is not there. -/
theorem removeId_cases (hd : Good H df th d) (hremove : d.removeId H fuel id ord = .ok d') :
    d' = d ∨ (∃ x ∈ d.sl, x.id = id) ∧ Routed d.ranges.divideFactor (H.sum64 id) ∧
      HashRanges.Edit d.sl (d.afterRemove H id) (H.sum64 id) (-1) ∧
      ∃ h', d.ranges.removeElement fuel (H.sum64 id) = .ok h' ∧
        Container.recalculate H { sl := d.afterRemove H id, ranges := h' } ord = .ok d' := by
  unfold Container.removeId at hremove
  simp only at hremove
  split at hremove
  · exact .inl (Except.ok.inj hremove).symm
  · next hmem =>
    rw [all_ne_iff, not_not] at hmem
    obtain ⟨h', hremove', hrecalculate⟩ := Except.bind_eq_ok.mp hremove
    obtain ⟨x, hx, hid⟩ := hmem
    have hhash : x.hash = H.sum64 id := (hd.ordered.hash x hx).trans (congrArg H.sum64 hid)
    refine .inr ⟨⟨x, hx, hid⟩, ?_, hd.ordered.edit_remove rfl ⟨x, hx, hid⟩, h', hremove',
      hrecalculate⟩
    rw [hd.divideFactor]
    exact hhash ▸ hd.routed x hx

/-- The container after an element is taken out, before the digests are computed again. -/
theorem Settled.good_removed {h' : HashRanges} (hd : Settled H df th d)
    (hrouted : Routed d.ranges.divideFactor (H.sum64 id))
    (hedit : HashRanges.Edit d.sl (d.afterRemove H id) (H.sum64 id) (-1))
    (hremove : d.ranges.removeElement fuel (H.sum64 id) = .ok h') :
    Good H df th { sl := d.afterRemove H id, ranges := h' } := by
  have hsound := hd.sound.removeElement hd.clean hedit (H.sum64_lt _) hrouted hremove
  obtain ⟨hfactor, hthreshold⟩ := HashRanges.removeElement_params hremove
  exact ⟨hd.ordered.remove, fun y hy => hd.routed y (mem_slRemove.mp hy).1, hsound,
    hfactor.trans hd.divideFactor, hthreshold.trans hd.compareThreshold⟩

/-- A call of `RemoveId`. -/
theorem Settled.removeId (hd : Settled H df th d) (hremove : d.removeId H fuel id ord = .ok d') :
    Settled H df th d' := by
  rcases removeId_cases hd.toGood hremove with rfl | ⟨-, hrouted, hedit, h', hok, hrecalculate⟩
  · exact hd
  · obtain ⟨d₂, hok₂, hsettled, -⟩ := (hd.good_removed hrouted hedit hok).recalculate ord
    obtain rfl := Except.ok.inj (hrecalculate.symm.trans hok₂)
    exact hsettled

end Steps

/-! ## The new container -/

section New

variable {H : Hashing} {df th fuel : ℕ} {h : HashRanges}

open HashRanges

variable {c : RangeTuple} {divideFactor : ℤ}

/-- The top range before it is divided. -/
def topRange : HashRange :=
  { tuple := topTuple, parent := none, isDivided := false, elements := 0, level := 0, hash := [] }

/-- The tree of a top range that is not divided. -/
def bareTop (df th : ℕ) : HashRanges :=
  { heap := [topRange], ranges := (∅ : GoMap RangeTuple ℕ).insert topTuple 0, topRange := 0,
    dirty := [], divideFactor := df, compareThreshold := th }

theorem lookup_bareTop :
    (bareTop df th).ranges.lookup c = if c = topTuple then some 0 else none := by
  rw [bareTop, GoMap.lookup_insert_eq]
  rfl

theorem bareTop_found : (bareTop df th).At topTuple 0 topRange :=
  ⟨lookup_bareTop.trans (if_pos rfl), rfl⟩

theorem eq_of_bareTop_live (hc : (bareTop df th).Live c) : c = topTuple := by
  cases hc with
  | refl => rfl
  | step _ hat hdivided _ =>
    have hlookup := hat.lookup
    rw [lookup_bareTop] at hlookup
    split at hlookup
    · next hc =>
      subst hc
      obtain ⟨-, rfl⟩ := hat.unique bareTop_found
      cases hdivided
    · cases hlookup

/-- The tree of the top range alone. -/
theorem bareTop_shape (hdf : 2 ≤ df) : (bareTop df th).Shape where
  factor := hdf
  keys c p hlookup := by
    rw [lookup_bareTop] at hlookup
    split at hlookup
    · next hc =>
      obtain rfl := Option.some.inj hlookup
      exact ⟨topRange, rfl, hc.symm⟩
    · cases hlookup
  top := ⟨topRange, bareTop_found, rfl⟩
  divided c p rng hc hat hdivided := by
    obtain rfl := eq_of_bareTop_live hc
    obtain ⟨-, rfl⟩ := hat.unique bareTop_found
    cases hdivided
  dirty p hp := by cases hp
  parent_lt p rng q hheap hparent := by
    have hrng : rng = topRange := by
      rw [bareTop, List.getElem?_singleton] at hheap
      split at hheap
      · exact (Option.some.inj hheap).symm
      · cases hheap
    subst hrng
    cases hparent

theorem wide_topTuple (hle : df ≤ hashes) : Wide df topTuple where
  le := by decide
  lt := by decide
  wide := by
    have hsize : topTuple.hi - topTuple.lo + 1 = hashes := by decide
    rwa [hsize]

theorem ordered_nil : Ordered H [] :=
  ⟨List.Pairwise.nil, fun _ hx => absurd hx List.not_mem_nil,
    fun _ hx => absurd hx List.not_mem_nil⟩

/-- A new tree is the division of the top range. -/
theorem graft_newHashRanges (hdf : 2 ≤ df) (hle : df ≤ hashes)
    (hok : newHashRanges H [] fuel df th = .ok h) :
    Graft H [] (bareTop df th) h topTuple 0 topRange := by
  refine ⟨bareTop_shape hdf, .refl, bareTop_found, rfl, wide_topTuple hle, ?_⟩
  have hroomy : Roomy df th [] := fun d _ hlt => absurd hlt (Nat.not_lt_zero _)
  let top : HashRange := { topRange with isDivided := true }
  have hheap : ({ bareTop df th with heap := [top] } : HashRanges).heap[0]? = some top := rfl
  exact makeBottomRanges_spec ordered_nil hheap hdf .top (wide_topTuple hle) hroomy hok

/-- The ranges of a new container, before the first `recalculateHashes`. -/
theorem sound_new (hdf : 2 ≤ df) (hle : df ≤ hashes) (hok : newHashRanges H [] fuel df th = .ok h) :
    (h.setDirty h.topRange).Sound H [] := by
  have hg := graft_newHashRanges hdf hle hok
  have hrelabel : Relabel h (h.setDirty h.topRange) := .setDirty
  have htop : h.topRange = 0 := hg.divides.frame.topRange
  have hself : h.At topTuple 0 { topRange with isDivided := true } := hg.at_self
  have hdirtytop : h.topRange ∈ (h.setDirty h.topRange).dirty := mem_setDirty.mpr (.inr rfl)
  have hshape : (h.setDirty h.topRange).Shape := by
    refine hrelabel.shape hg.shape_after fun p hp => ?_
    rcases mem_setDirty.mp hp with hp | rfl
    · exact hg.shape_after.dirty p hp
    · exact ⟨topTuple, .refl, htop.symm ▸ hself.lookup⟩
  -- the live ranges are the top range and the new ones
  have hcases : ∀ {x q r}, (h.setDirty h.topRange).Live x → (h.setDirty h.topRange).At x q r →
      (x = topTuple ∧ r = { topRange with isDivided := true }) ∨
        ∃ d ∈ genTupleRanges topTuple (bareTop df th).divideFactor, h.Reach d x := by
    intro x q r hx hr
    rcases hg.live_or (hrelabel.symm.reach hx) with hx | hx
    · obtain rfl := eq_of_bareTop_live hx
      exact .inl ⟨rfl, ((at_setDirty.mp hr).unique hself).2⟩
    · exact .inr hx
  refine ⟨⟨hshape, fun r hr => ?_, fun x q r hx hr => ?_, fun x q r hx hr => ?_⟩,
    fun x q r hx hr hleaf => ?_⟩
  · rcases hcases .refl hr with ⟨-, rfl⟩ | ⟨d, hd, hx⟩
    · rfl
    · exact (hself.unique (htop ▸ at_setDirty.mp hr)).2 ▸ rfl
  · rcases hcases hx hr with ⟨rfl, rfl⟩ | ⟨d, hd, hx'⟩
    · exact .inr ⟨topTuple, h.topRange, .refl, htop.symm ▸ hself.lookup, hdirtytop⟩
    · have hr' := at_setDirty.mp hr
      rcases hg.fresh_new hd hx' hr' with hfresh | ⟨y, s, hy, hlookup, hs⟩
      · exact .inl (isFresh_of_hashAt hg.shape_after hshape rfl (hrelabel.symm.reach hx) hx hr' hr
          rfl (fun _ _ _ => rfl) hfresh)
      · exact .inr ⟨y, s, hrelabel.reach hy, hlookup, mem_setDirty.mpr (.inl hs)⟩
  · rcases hcases hx hr with ⟨rfl, rfl⟩ | ⟨d, hd, hx'⟩
    · exact le_rfl
    · exact (hg.elements_new ordered_nil hd hx' (at_setDirty.mp hr)).1.ge
  · rcases hcases hx hr with ⟨rfl, rfl⟩ | ⟨d, hd, hx'⟩
    · cases hleaf
    · rw [(hg.elements_new ordered_nil hd hx' (at_setDirty.mp hr)).1]
      exact Int.ofNat_le.mpr (Nat.zero_le _)

/-- The factor that `newHashRanges` takes. -/
theorem clamp_divideFactor (hle : divideFactor ≤ hashes) :
    2 ≤ (if divideFactor < 2 then 2 else divideFactor.toNat) ∧
      (if divideFactor < 2 then 2 else divideFactor.toNat) ≤ hashes := by
  split
  · decide
  · omega

theorem clamp_pow_two {m : ℕ} (hdf : divideFactor = 2 ^ m) :
    (if divideFactor < 2 then 2 else divideFactor.toNat) = 2 ^ max m 1 := by
  rw [hdf]
  rcases Nat.eq_zero_or_pos m with rfl | hm
  · rfl
  · have htwo : (2 : ℤ) ≤ 2 ^ m := by exact_mod_cast two_le_two_pow hm
    rw [if_neg (by omega), max_eq_left hm]
    exact_mod_cast Int.toNat_natCast (2 ^ m)

/-- A new container. -/
theorem new_settled {compareThreshold : ℤ} {ord : RangeOrder} {d : Container}
    (hle : divideFactor ≤ hashes) (hok : new H fuel divideFactor compareThreshold ord = .ok d) :
    Settled H (if divideFactor < 2 then 2 else divideFactor.toNat)
      (if compareThreshold < 1 then 1 else compareThreshold.toNat) d := by
  obtain ⟨h, hnew, hok⟩ := Except.bind_eq_ok.mp hok
  obtain ⟨h', hrecalculate, hok⟩ := Except.bind_eq_ok.mp hok
  obtain rfl := Except.ok.inj hok
  obtain ⟨htwo, hle'⟩ := clamp_divideFactor hle
  obtain ⟨h₁, hok₁, hrelabel, hsound, hclean⟩ :=
    recalculateHashes_spec ordered_nil ord (sound_new htwo hle' hnew)
  obtain rfl := Except.ok.inj (hrecalculate.symm.trans hok₁)
  obtain ⟨hfactor, hthreshold⟩ := makeBottomRanges_params hnew
  exact ⟨⟨ordered_nil, fun x hx => absurd hx List.not_mem_nil, hsound,
    hrelabel.divideFactor.trans hfactor, hrelabel.compareThreshold.trans hthreshold⟩, hclean⟩

end New

/-! ## Runs -/

/-- The calls of a run, each with the container on which it is made. -/
def trace (H : Hashing) (fuel : ℕ) (divideFactor compareThreshold : ℤ) (ord : RangeOrder)
    (ops : List Op) : List (Container × Op) :=
  match new H fuel divideFactor compareThreshold ord with
  | .ok d => runTrace (apply H fuel) d ops
  | .error _ => []

/-- All elements of a call meet the condition when they are set. -/
def StepOk (H : Hashing) (fuel : ℕ) (P : Container → Element → Prop)
    (Q : Container → GoString → Prop) (d : Container) : Op → Prop
  | .set elements _ => ∀ x ∈ runTrace (setElement H fuel) d elements, P x.1 x.2
  | .removeId id _ => Q d id

section Run

variable {H : Hashing} {fuel : ℕ} {divideFactor compareThreshold : ℤ} {ord : RangeOrder}
  {ops : List Op} {d : Container}

/-- What holds of a new container and is kept by the calls holds after a run. -/
theorem run_induction (Inv : Container → Prop) {P : Container × Op → Prop}
    (hrun : run H fuel divideFactor compareThreshold ord ops = .ok d)
    (hnew : ∀ d₀, new H fuel divideFactor compareThreshold ord = .ok d₀ → Inv d₀)
    (hstep : ∀ d op d', Inv d → P (d, op) → d.apply H fuel op = .ok d' → Inv d')
    (hP : ∀ x ∈ trace H fuel divideFactor compareThreshold ord ops, P x) : Inv d := by
  obtain ⟨d₀, hd₀, hfold⟩ := Except.bind_eq_ok.mp hrun
  rw [trace, hd₀] at hP
  exact foldlM_invariant_of_trace Inv P hstep (hnew d₀ hd₀) hP hfold

/-- After every run, nothing is dirty and everything is fresh. -/
theorem run_settled (hle : divideFactor ≤ hashes)
    (hrun : run H fuel divideFactor compareThreshold ord ops = .ok d)
    (hok : ∀ x ∈ trace H fuel divideFactor compareThreshold ord ops,
      x.1.StepOk H fuel (SetOk H) (fun _ _ => True) x.2) :
    Settled H (if divideFactor < 2 then 2 else divideFactor.toNat)
      (if compareThreshold < 1 then 1 else compareThreshold.toNat) d := by
  refine run_induction _ hrun (fun d₀ hd₀ => new_settled hle hd₀) (fun d op d' hd hop hd' => ?_) hok
  cases op with
  | set elements ord => exact hd.toGood.set hop hd'
  | removeId id ord => exact hd.removeId hd'

end Run

/-- A run of calls on a new container leads to `d`, where each element that is set meets `P` and
each id that is removed meets `Q` in the state before. -/
def Reached (H : Hashing) (divideFactor compareThreshold : ℤ) (P : Container → Element → Prop)
    (Q : Container → GoString → Prop) (d : Container) : Prop :=
  ∃ fuel ord ops, run H fuel divideFactor compareThreshold ord ops = .ok d ∧
    ∀ x ∈ trace H fuel divideFactor compareThreshold ord ops, x.1.StepOk H fuel P Q x.2

end Container

/-! ## Checks on a given container

For a container that is given by a run, the live ranges can be listed, and then what holds of all
live ranges can be decided. -/

/-- Hash functions with the given values. -/
def Hashing.ofTable (sums : List (GoString × ℕ)) (digests : List (Bytes × ℕ)) : Hashing where
  sum64 id := (sums.lookup id).getD 0 % hashes
  sum64_lt _ := Nat.mod_lt _ (by decide)
  blake3 bytes := bytesOfNat 32 ((digests.lookup bytes).getD 0)
  blake3_length _ := by simp [bytesOfNat]

namespace HashRanges

/-- The ranges that are reached from a range in at most so many steps. -/
def reachList (h : HashRanges) : ℕ → RangeTuple → List RangeTuple
  | 0, c => [c]
  | n + 1, c => c :: if (h.getRange c).any HashRange.isDivided then
      (genTupleRanges c h.divideFactor).flatMap (reachList h n) else []

/-- The list has all live ranges. -/
def Closed (h : HashRanges) (S : List RangeTuple) : Prop :=
  topTuple ∈ S ∧ ∀ c ∈ S, (h.getRange c).any HashRange.isDivided = true →
    ∀ d ∈ genTupleRanges c h.divideFactor, d ∈ S

instance (h : HashRanges) (S : List RangeTuple) : Decidable (h.Closed S) :=
  inferInstanceAs (Decidable (_ ∧ _))

section Checks

variable {h : HashRanges} {S : List RangeTuple} {c : RangeTuple} {p : ℕ} {rng : HashRange}

theorem At.getRange_eq (hat : h.At c p rng) : h.getRange c = some rng := by
  rw [getRange, hat.lookup]
  exact hat.heap

/-- A closed list has all live ranges. -/
theorem Closed.mem (hS : h.Closed S) (hc : h.Live c) : c ∈ S := by
  induction hc with
  | refl => exact hS.1
  | step _ hat hdivided hd ih => exact hS.2 _ ih (by simp [hat.getRange_eq, hdivided]) _ hd

theorem exists_at_of_getRange (hget : h.getRange c = some rng) : ∃ p, h.At c p rng := by
  obtain ⟨p, hlookup, hheap⟩ := Option.bind_eq_some_iff.mp hget
  exact ⟨p, hlookup, hheap⟩

theorem reach_of_mem_reachList {n : ℕ} {x : RangeTuple} (hx : x ∈ h.reachList n c) :
    h.Reach c x := by
  induction n generalizing c with
  | zero =>
    rw [List.mem_singleton.mp hx]
    exact .refl
  | succ n ih =>
    rcases List.mem_cons.mp hx with rfl | hx
    · exact .refl
    · split at hx
      · next hdivided =>
        obtain ⟨d, hd, hx⟩ := List.mem_flatMap.mp hx
        obtain ⟨rng, hget, hrng⟩ := (Option.any_eq_true _ _).mp hdivided
        obtain ⟨p, hat⟩ := exists_at_of_getRange hget
        exact (Reach.refl.step hat hrng hd).trans (ih hx)
      · cases hx

end Checks

end HashRanges

namespace Container

variable {H : Hashing} {d : Container}

/-- What decides `SetOk` for a power of two, if no two elements share a hash. -/
def SetCheck (H : Hashing) (m : ℕ) (d : Container) (e : Element) : Prop :=
  e.id ≠ [] ∧ (1 ≤ m ∧ d.ranges.divideFactor = 2 ^ m ∧
      d.ranges.divideFactor ≤ d.ranges.compareThreshold + 1) ∧
    ((d.afterSet H e).map HashedElement.hash).Nodup ∧
    d.ranges.Closed (d.ranges.reachList 64 topTuple) ∧
    ∀ c ∈ d.ranges.reachList 64 topTuple, ∀ rng ∈ d.ranges.getRange c, rng.isDivided = false →
      H.sum64 e.id ∈ c → (d.ranges.compareThreshold : ℤ) < rng.elements + 1 →
        Wide d.ranges.divideFactor c

instance (H : Hashing) (m : ℕ) (d : Container) (e : Element) : Decidable (SetCheck H m d e) :=
  inferInstanceAs (Decidable (_ ∧ _))

/-- The check decides the condition. -/
theorem SetCheck.setOk {e : Element} {m : ℕ} (hcheck : SetCheck H m d e) : SetOk H d e := by
  obtain ⟨hid, ⟨hm, hfactor, hle⟩, hnodup, hclosed, hwide⟩ := hcheck
  refine ⟨hid, hfactor ▸ routed_of_pow_two hm _, fun c p rng hl => ?_, ?_⟩
  · exact hwide c (hclosed.mem hl.live) rng hl.found.getRange_eq hl.leaf hl.mem
  · exact roomy_of_nodup (hfactor ▸ two_le_two_pow hm) hle hnodup

instance (H : Hashing) (fuel : ℕ) (P : Container → Element → Prop)
    (Q : Container → GoString → Prop) [∀ d e, Decidable (P d e)] [∀ d id, Decidable (Q d id)]
    (d : Container) (op : Op) : Decidable (StepOk H fuel P Q d op) :=
  match op with
  | .set elements _ =>
    inferInstanceAs (Decidable (∀ x ∈ runTrace (setElement H fuel) d elements, P x.1 x.2))
  | .removeId id _ => inferInstanceAs (Decidable (Q d id))

theorem StepOk.imp {fuel : ℕ} {P P' : Container → Element → Prop}
    {Q Q' : Container → GoString → Prop} {op : Op} (hP : ∀ d e, P d e → P' d e)
    (hQ : ∀ d id, Q d id → Q' d id) (hop : StepOk H fuel P Q d op) : StepOk H fuel P' Q' d op := by
  cases op with
  | set elements ord => exact fun x hx => hP _ _ (hop x hx)
  | removeId id ord => exact hQ _ _ hop

end Container

end Ldiff
