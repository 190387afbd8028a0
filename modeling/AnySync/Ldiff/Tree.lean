import AnySync.Ldiff.Model

/-!
# The tree of ranges

The ranges that a container uses form a tree: the top range, and the parts of every divided range
that is used. Ranges of earlier divisions may be left in the map and in the heap.
-/

namespace Ldiff

/-- What a range has besides its counter, its level and its digest. -/
def HashRange.frame (rng : HashRange) : RangeTuple × Option ℕ × Bool :=
  (rng.tuple, rng.parent, rng.isDivided)

namespace HashRanges

/-- The map has the pointer `p` under `c`, and `p` points to `rng`. -/
structure At (h : HashRanges) (c : RangeTuple) (p : ℕ) (rng : HashRange) : Prop where
  lookup : h.ranges.lookup c = some p
  heap : h.heap[p]? = some rng

/-- `d` is reached from `r` by descending into divided ranges. -/
inductive Reach (h : HashRanges) (r : RangeTuple) : RangeTuple → Prop
  | refl : Reach h r r
  | step {c d : RangeTuple} {p : ℕ} {rng : HashRange} (hc : Reach h r c) (hat : h.At c p rng)
      (hdivided : rng.isDivided = true) (hd : d ∈ genTupleRanges c h.divideFactor) : Reach h r d

/-- The range is reached from the top range by descending into divided ranges. -/
abbrev Live (h : HashRanges) (c : RangeTuple) : Prop := h.Reach topTuple c

/-- The map has every range under its own tuple. -/
def Keyed (h : HashRanges) : Prop :=
  ∀ c p, h.ranges.lookup c = some p → ∃ rng, h.heap[p]? = some rng ∧ rng.tuple = c

/-- A range is made after its parent. -/
def ParentFirst (h : HashRanges) : Prop :=
  ∀ (p : ℕ) (rng : HashRange) (q : ℕ), h.heap[p]? = some rng → rng.parent = some q → q < p

/-- The live ranges form a tree of wide divided ranges with right parents, and only live ranges are
dirty. -/
structure Shape (h : HashRanges) : Prop where
  factor : 2 ≤ h.divideFactor
  keys : h.Keyed
  top : ∃ rng : HashRange, h.At topTuple h.topRange rng ∧ rng.parent = none
  /-- Divided ranges are wide and have all their parts. -/
  divided : ∀ c p rng, h.Live c → h.At c p rng → rng.isDivided = true →
    Wide h.divideFactor c ∧
      ∀ d ∈ genTupleRanges c h.divideFactor, ∃ q sub, h.At d q sub ∧ sub.parent = some p
  /-- Dirty ranges are live. -/
  dirty : ∀ p ∈ h.dirty, ∃ c, h.Live c ∧ h.ranges.lookup c = some p
  parent_lt : h.ParentFirst

section Basic

variable {h : HashRanges} {c d r x : RangeTuple} {p q : ℕ} {rng rng' : HashRange}

/-- The map finds one range under a tuple. -/
theorem At.unique (hp : h.At c p rng) (hq : h.At c q rng') : p = q ∧ rng = rng' := by
  obtain rfl := Option.some.inj (hp.lookup.symm.trans hq.lookup)
  exact ⟨rfl, Option.some.inj (hp.heap.symm.trans hq.heap)⟩

theorem At.modify {f : HashRange → HashRange} (hat : h.At c q rng) :
    (h.modify p f).At c q (if p = q then f rng else rng) := by
  refine ⟨hat.lookup, ?_⟩
  rw [HashRanges.modify, List.getElem?_modify, hat.heap]
  rfl

theorem Reach.trans (hc : h.Reach r c) (hd : h.Reach c d) : h.Reach r d := by
  induction hd with
  | refl => exact hc
  | step _ hat hdivided hx ih => exact .step ih hat hdivided hx

theorem mem_setDirty : q ∈ (h.setDirty p).dirty ↔ q ∈ h.dirty ∨ q = p := by
  unfold setDirty
  split
  · next hp =>
    refine ⟨.inl, ?_⟩
    rintro (hq | rfl)
    · exact hq
    · exact hp
  · simp

theorem mem_unsetDirty : q ∈ (h.unsetDirty p).dirty ↔ q ∈ h.dirty ∧ q ≠ p := by
  simp [unsetDirty]

/-- A range that is reached is the root or reached from a part of it. -/
theorem Reach.eq_or_part (hx : h.Reach r x) :
    x = r ∨ ∃ p rng d, h.At r p rng ∧ rng.isDivided = true ∧
      d ∈ genTupleRanges r h.divideFactor ∧ h.Reach d x := by
  induction hx with
  | refl => exact .inl rfl
  | step _ hat hdivided hd ih =>
    rcases ih with rfl | ⟨p, rng, y, hr, hrdivided, hy, hreach⟩
    · exact .inr ⟨_, _, _, hat, hdivided, hd, .refl⟩
    · exact .inr ⟨p, rng, y, hr, hrdivided, hy, .step hreach hat hdivided hd⟩

namespace Shape

variable (hs : h.Shape)

include hs

theorem tuple_eq (hat : h.At c p rng) : rng.tuple = c := by
  obtain ⟨rng', hrng', htuple⟩ := hs.keys c p hat.lookup
  rwa [Option.some.inj (hat.heap.symm.trans hrng')]

/-- Different tuples have different pointers. -/
theorem eq_of_lookup (hc : h.ranges.lookup c = some p) (hd : h.ranges.lookup d = some p) :
    c = d := by
  obtain ⟨rng, hrng, rfl⟩ := hs.keys c p hc
  obtain ⟨rng', hrng', rfl⟩ := hs.keys d p hd
  rw [Option.some.inj (hrng.symm.trans hrng')]

theorem exists_at (hlive : h.Live c) : ∃ p rng, h.At c p rng := by
  cases hlive with
  | refl =>
    obtain ⟨rng, hat, _⟩ := hs.top
    exact ⟨_, rng, hat⟩
  | step hc hat hdivided hd =>
    obtain ⟨q, sub, hsub, _⟩ := (hs.divided _ _ _ hc hat hdivided).2 _ hd
    exact ⟨q, sub, hsub⟩

/-- A live range comes from divisions of wide ranges. -/
theorem isRange (hlive : h.Live c) : IsRange h.divideFactor c := by
  induction hlive with
  | refl => exact .top
  | step hc hat hdivided hd ih => exact .piece ih (hs.divided _ _ _ hc hat hdivided).1 hd

/-- The range that was divided to make a live range. -/
theorem exists_parent (hlive : h.Live c) (hne : c ≠ topTuple) (hat : h.At c p rng) :
    ∃ d q parent, h.Live d ∧ h.At d q parent ∧ parent.isDivided = true ∧
      c ∈ genTupleRanges d h.divideFactor ∧ rng.parent = some q := by
  cases hlive with
  | refl => exact absurd rfl hne
  | step hc hat' hdivided hd =>
    obtain ⟨q, sub, hsub, hparent⟩ := (hs.divided _ _ _ hc hat' hdivided).2 _ hd
    obtain ⟨rfl, rfl⟩ := hat.unique hsub
    exact ⟨_, _, _, hc, hat', hdivided, hd, hparent⟩

/-- A range has one parent. -/
theorem eq_of_mem_part (hc : h.Live c) (hat : h.At c p rng) (hdivided : rng.isDivided = true)
    (hx : h.Live x) (hatx : h.At x q rng') (hdividedx : rng'.isDivided = true)
    (hd : d ∈ genTupleRanges c h.divideFactor) (hdx : d ∈ genTupleRanges x h.divideFactor) :
    c = x := by
  obtain ⟨t, sub, hsub, hparent⟩ := (hs.divided c p rng hc hat hdivided).2 d hd
  obtain ⟨t', sub', hsub', hparent'⟩ := (hs.divided x q rng' hx hatx hdividedx).2 d hdx
  obtain ⟨rfl, rfl⟩ := hsub.unique hsub'
  obtain rfl := Option.some.inj (hparent.symm.trans hparent')
  exact hs.eq_of_lookup hat.lookup hatx.lookup

/-- The parts of a live divided range tile it. -/
theorem tiles (hlive : h.Live c) (hat : h.At c p rng) (hdivided : rng.isDivided = true) :
    Tiles c.lo c.hi (genTupleRanges c h.divideFactor) :=
  tiles_genTupleRanges hs.factor (hs.divided c p rng hlive hat hdivided).1

/-- A part is smaller than the range. -/
theorem lt_of_mem (hwide : Wide h.divideFactor c) (hd : d ∈ genTupleRanges c h.divideFactor) :
    d < c := by
  have ht := tiles_genTupleRanges hs.factor hwide
  refine lt_of_le_of_ne (ht.le_of_mem hd) (ht.ne_of_mem ?_ hd)
  rw [length_genTupleRanges hs.factor]
  exact hs.factor

theorem nonempty (hlive : h.Live c) : c.lo ∈ c :=
  ⟨le_rfl, (hs.isRange hlive).nonempty hs.factor⟩

/-- A live range properly inside a live divided range lies in the part that it meets. -/
theorem le_part (hc : h.Live c) (hat : h.At c p rng) (hdivided : rng.isDivided = true)
    (hx : h.Live x) (hxc : x < c) (hd : d ∈ genTupleRanges c h.divideFactor) {e : ℕ} (hed : e ∈ d)
    (hex : e ∈ x) : x ≤ d :=
  Cell.le_piece (fun _ => tiles_genTupleRanges hs.factor) (hs.isRange hc) (hs.isRange hx)
    (hs.divided c p rng hc hat hdivided).1 hxc hd hed hex

/-- Live ranges around one hash are nested. -/
theorem le_or_le (hc : h.Live c) (hd : h.Live d) {e : ℕ} (hec : e ∈ c) (hed : e ∈ d) :
    c ≤ d ∨ d ≤ c :=
  Cell.le_or_le (fun _ => tiles_genTupleRanges hs.factor) (hs.isRange hc) (hs.isRange hd) hec hed

/-- A part of a live divided range does not lie properly inside another live range, unless the
divided range does or is that range. -/
theorem not_part_lt (hc : h.Live c) (hat : h.At c p rng) (hdivided : rng.isDivided = true)
    (hd : d ∈ genTupleRanges c h.divideFactor) (hx : h.Live x) (hcx : ¬ c ≤ x) : ¬ d < x := by
  intro hdx
  have hlive : h.Live d := hc.step hat hdivided hd
  have hmem : d.lo ∈ d := hs.nonempty hlive
  have hdc : d ≤ c := (hs.lt_of_mem (hs.divided c p rng hc hat hdivided).1 hd).le
  have hmemx := NatInterval.mem_of_le hdx.le hmem
  rcases hs.le_or_le hc hx (NatInterval.mem_of_le hdc hmem) hmemx with hle | hle
  · exact hcx hle
  · have hlt : x < c := lt_of_le_of_ne hle fun heq => hcx (heq ▸ le_rfl)
    exact absurd (hs.le_part hc hat hdivided hx hlt hd hmem hmemx) (not_le_of_gt hdx)

/-- Nothing live lies properly inside a live range that is not divided. -/
theorem not_lt_leaf (hc : h.Live c) (hat : h.At c p rng) (hleaf : rng.isDivided = false)
    (hx : h.Live x) : ¬ x < c := by
  induction hx with
  | refl => exact not_lt_of_ge ((hs.isRange hc).le_topTuple hs.factor)
  | @step y x q sub hy haty hdivided hmem ih =>
    refine hs.not_part_lt hy haty hdivided hmem hc fun hle => ?_
    rcases hle.lt_or_eq with hlt | rfl
    · exact ih hlt
    · obtain ⟨-, rfl⟩ := hat.unique haty
      rw [hleaf] at hdivided
      cases hdivided

/-- A live range is reached from the live ranges around it. -/
theorem reach_of_le (hc : h.Live c) (hd : h.Live d) (hle : d ≤ c) : h.Reach c d := by
  induction hd with
  | refl =>
    obtain rfl := le_antisymm ((hs.isRange hc).le_topTuple hs.factor) hle
    exact .refl
  | @step y d p rng hy hat hdivided hmem ih =>
    by_cases hyc : y ≤ c
    · exact .step (ih hyc) hat hdivided hmem
    · -- the part of `y` is not properly inside `c`
      rcases hle.lt_or_eq with hlt | rfl
      · exact absurd hlt (hs.not_part_lt hy hat hdivided hmem hc hyc)
      · exact .refl

/-- What is reached from a range lies in it. -/
theorem le_of_reach (hc : h.Live c) (hd : h.Reach c d) : d ≤ c := by
  induction hd with
  | refl => exact le_rfl
  | step hy hat hdivided hmem ih =>
    exact (hs.lt_of_mem (hs.divided _ _ _ (hc.trans hy) hat hdivided).1 hmem).le.trans ih

end Shape

end Basic

/-! ## Counters, digests and the dirty set -/

/-- Only counters, digests and the dirty set changed. -/
structure Relabel (h h' : HashRanges) : Prop where
  ranges : h'.ranges = h.ranges
  topRange : h'.topRange = h.topRange
  divideFactor : h'.divideFactor = h.divideFactor
  compareThreshold : h'.compareThreshold = h.compareThreshold
  length : h'.heap.length = h.heap.length
  heap : ∀ p : ℕ, (h'.heap[p]?).map HashRange.frame = (h.heap[p]?).map HashRange.frame

namespace Relabel

variable {h h' h'' : HashRanges} {c r : RangeTuple} {p : ℕ} {rng rng' : HashRange}
  {f : HashRange → HashRange}

theorem refl (h : HashRanges) : Relabel h h := ⟨rfl, rfl, rfl, rfl, rfl, fun _ => rfl⟩

theorem symm (hr : Relabel h h') : Relabel h' h where
  ranges := hr.ranges.symm
  topRange := hr.topRange.symm
  divideFactor := hr.divideFactor.symm
  compareThreshold := hr.compareThreshold.symm
  length := hr.length.symm
  heap p := (hr.heap p).symm

theorem trans (hr : Relabel h h') (hr' : Relabel h' h'') : Relabel h h'' where
  ranges := hr'.ranges.trans hr.ranges
  topRange := hr'.topRange.trans hr.topRange
  divideFactor := hr'.divideFactor.trans hr.divideFactor
  compareThreshold := hr'.compareThreshold.trans hr.compareThreshold
  length := hr'.length.trans hr.length
  heap p := (hr'.heap p).trans (hr.heap p)

theorem modify (hf : ∀ rng, (f rng).frame = rng.frame) : Relabel h (h.modify p f) where
  ranges := rfl
  topRange := rfl
  divideFactor := rfl
  compareThreshold := rfl
  length := List.length_modify _ _ _
  heap q := by
    rw [HashRanges.modify, List.getElem?_modify]
    cases h.heap[q]? with
    | none => rfl
    | some rng =>
      simp only [Option.map_eq_map, Option.map_some]
      split
      · rw [hf]
      · rfl

theorem setDirty : Relabel h (h.setDirty p) := ⟨rfl, rfl, rfl, rfl, rfl, fun _ => rfl⟩

theorem unsetDirty : Relabel h (h.unsetDirty p) := ⟨rfl, rfl, rfl, rfl, rfl, fun _ => rfl⟩

theorem addElements {n : ℤ} : Relabel h (h.addElements p n) := modify fun _ => rfl

theorem exists_heap (hr : Relabel h h') (hheap : h.heap[p]? = some rng) :
    ∃ rng' : HashRange, h'.heap[p]? = some rng' ∧ rng'.frame = rng.frame := by
  have hframe := hr.heap p
  rw [hheap, Option.map_some, Option.map_eq_some_iff] at hframe
  exact hframe

theorem exists_at (hr : Relabel h h') (hat : h.At c p rng) :
    ∃ rng', h'.At c p rng' ∧ rng'.frame = rng.frame := by
  obtain ⟨rng', hheap, hframe⟩ := hr.exists_heap hat.heap
  exact ⟨rng', ⟨hr.ranges ▸ hat.lookup, hheap⟩, hframe⟩

/-- Reachability does not depend on labels. -/
theorem reach (hr : Relabel h h') (hc : h.Reach r c) : h'.Reach r c := by
  induction hc with
  | refl => exact .refl
  | step _ hat hdivided hd ih =>
    obtain ⟨rng', hat', hframe⟩ := hr.exists_at hat
    have hdivided' : rng'.isDivided = true := (congrArg (·.2.2) hframe).trans hdivided
    exact .step ih hat' hdivided' (hr.divideFactor ▸ hd)

/-- The shape does not depend on counters and digests. -/
theorem shape (hr : Relabel h h') (hs : h.Shape)
    (hdirty : ∀ p ∈ h'.dirty, ∃ c, h.Live c ∧ h.ranges.lookup c = some p) : h'.Shape where
  factor := hr.divideFactor ▸ hs.factor
  keys c p hlookup := by
    obtain ⟨rng, hrng, rfl⟩ := hs.keys c p (hr.ranges ▸ hlookup)
    obtain ⟨rng', hrng', hframe⟩ := hr.exists_heap hrng
    exact ⟨rng', hrng', congrArg Prod.fst hframe⟩
  top := by
    obtain ⟨rng, hat, hparent⟩ := hs.top
    obtain ⟨rng', hat', hframe⟩ := hr.exists_at hat
    exact ⟨rng', hr.topRange ▸ hat', (congrArg (·.2.1) hframe).trans hparent⟩
  divided c p rng' hc hat' hdivided' := by
    obtain ⟨rng, hat, hframe⟩ := hr.symm.exists_at hat'
    obtain ⟨hwide, hparts⟩ := hs.divided c p rng (hr.symm.reach hc) hat
      ((congrArg (·.2.2) hframe).trans hdivided')
    rw [hr.divideFactor]
    refine ⟨hwide, fun d hd => ?_⟩
    obtain ⟨q, sub, hsub, hparent⟩ := hparts d hd
    obtain ⟨sub', hsub', hframe'⟩ := hr.exists_at hsub
    exact ⟨q, sub', hsub', (congrArg (·.2.1) hframe').trans hparent⟩
  dirty p hp := by
    obtain ⟨c, hc, hlookup⟩ := hdirty p hp
    exact ⟨c, hr.reach hc, hr.ranges ▸ hlookup⟩
  parent_lt p rng' q hheap hparent := by
    obtain ⟨rng, hrng, hframe⟩ := hr.symm.exists_heap hheap
    exact hs.parent_lt p rng q hrng ((congrArg (·.2.1) hframe).trans hparent)

end Relabel

/-! ## The part around a hash -/

section Bottom

variable {df elHash : ℕ} {c : RangeTuple}

/-- `genTupleRanges` cuts every range into `divideFactor` consecutive ranges, and `getBottomRange`
finds the one around a hash if and only if the hash does not lie in the rest that
`genTupleRanges` gives to the last range. -/
theorem getBottomRange_iff (hdf : 2 ≤ df) (hc : IsRange df c) (hwide : df ≤ c.hi - c.lo + 1) :
    Tiles c.lo c.hi (genTupleRanges c df) ∧ (genTupleRanges c df).length = df ∧
      c.hi < hashes ∧ perRange c df ≠ 0 ∧
      ∀ elHash ∈ c,
        ((bottomTuple c df elHash ∈ genTupleRanges c df ∧ elHash ∈ bottomTuple c df elHash) ↔
          elHash < c.lo + df * ((c.hi - c.lo + 1) / df)) ∧
        (elHash < c.lo + df * ((c.hi - c.lo + 1) / df) →
          ∀ (h : HashRanges) (rng : HashRange), h.divideFactor = df → rng.tuple = c →
            (∀ d ∈ genTupleRanges c df, ∃ p, h.ranges.lookup d = some p) →
            ∃ d ∈ genTupleRanges c df, elHash ∈ d ∧
              ∃ p, h.ranges.lookup d = some p ∧ h.getBottomRange rng elHash = .ok p) := by
  have hw : Wide df c := (hc.wide_iff hdf).mpr hwide
  have hpos := hw.perRange_pos hdf
  have hbucket : ∀ elHash ∈ c, ((elHash - c.lo) / perRange c df < df ↔
      elHash < c.lo + df * ((c.hi - c.lo + 1) / df)) := by
    intro elHash helHash
    rw [Nat.div_lt_iff_lt_mul hpos, (hw.sizes hdf).2]
    obtain ⟨hlo, -⟩ := helHash
    omega
  refine ⟨tiles_genTupleRanges hdf hw, length_genTupleRanges hdf, hw.lt, hpos.ne',
    fun elHash helHash => ⟨⟨fun hfound => ?_, fun hlt => ?_⟩,
      fun hlt h rng hfactor htuple hall => ?_⟩⟩
  · exact (hbucket elHash helHash).mp (hw.bucket_lt hdf helHash hfound.1)
  · exact hw.bottomTuple_spec hdf helHash ((hbucket elHash helHash).mpr hlt)
  · obtain ⟨hmem, hin⟩ := hw.bottomTuple_spec hdf helHash ((hbucket elHash helHash).mpr hlt)
    obtain ⟨p, hp⟩ := hall _ hmem
    refine ⟨_, hmem, hin, p, hp, ?_⟩
    rw [getBottomRange, htuple, hfactor, failIf, if_neg (by simpa using hpos.ne')]
    simp only [lookup, hp]
    rfl

/-- The top range divided by three: the first range takes the hash zero. -/
theorem getBottomRange_iff_three : bottomTuple topTuple 3 0 ∈ genTupleRanges topTuple 3 ∧
    0 ∈ bottomTuple topTuple 3 0 :=
  have hzero : 0 ∈ topTuple := by decide
  ((getBottomRange_iff (by decide) Cell.top (by decide)).2.2.2.2 0 hzero).1.mpr (by decide)

/-- With three ranges there is a rest of one hash, and it is not found. -/
theorem getBottomRange_missesLastHash :
    hashes - 1 ∈ topTuple ∧ bottomTuple topTuple 3 (hashes - 1) ∉ genTupleRanges topTuple 3 := by
  decide

end Bottom

end HashRanges

end Ldiff
