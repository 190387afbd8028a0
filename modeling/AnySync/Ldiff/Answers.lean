import AnySync.Ldiff.Diff
import AnySync.Ldiff.History

/-!
# Answers to queries

`getRange` in `app/ldiff/diff.go` answers from the map of ranges: with the stored digest and, if no
elements are asked for, with the counter. The counters of divided ranges are never computed again,
and a merge takes only the parts of the merged range out of the map.

The main result is `Reached.getRange_exact`.
-/

namespace Ldiff

namespace HashRanges

/-- The counters of the ranges of the tree are exact, and there are no other ranges in the map. -/
structure Accurate (sl : List HashedElement) (h : HashRanges) : Prop where
  counted : ∀ c p rng, h.Live c → h.At c p rng → rng.elements = (count sl c : ℤ)
  listed : ∀ c p, h.ranges.lookup c = some p → h.Live c

section Accurate

variable {H : Hashing} {sl sl' : List HashedElement} {h h' h₁ : HashRanges} {c y : RangeTuple}
  {p q e fuel : ℕ} {rng parent : HashRange}

/-- Only dirty marks and digests change. -/
theorem Accurate.relabel (ha : Accurate sl h) (hr : Relabel h h')
    (hsame : ∀ {c p rng}, h'.At c p rng → ∃ rng', h.At c p rng' ∧ rng.elements = rng'.elements) :
    Accurate sl h' where
  counted c p rng hc hat := by
    obtain ⟨rng', hat', helements⟩ := hsame hat
    rw [helements]
    exact ha.counted c p rng' (hr.symm.reach hc) hat'
  listed c p hlookup := hr.reach (ha.listed c p (hr.ranges ▸ hlookup))

/-- The way down counts the element that is added or removed. -/
theorem Accurate.bumped {n : ℤ} (ha : Accurate sl h) (hs : h.Shape) (hedit : Edit sl sl' e n)
    (hcount : ∀ x, e ∈ x → (count sl' x : ℤ) = count sl x + n) (hb : Bumped h h₁ n (e ∈ ·)) :
    Accurate sl' h₁ where
  counted c p rng hc hat := by
    have hc' := hb.relabel.symm.reach hc
    obtain ⟨q, r, hr⟩ := hs.exists_at hc'
    have hold := ha.counted c q r hc' hr
    by_cases hec : e ∈ c
    · obtain ⟨-, rfl⟩ := hat.unique (hb.counted c q r hc' hr hec)
      rw [hcount c hec, ← hold]
    · obtain ⟨-, rfl⟩ := hat.unique (hb.same c q r hc' hr hec)
      rw [hedit.count_out c hec, hold]
  listed c p hlookup := hb.relabel.reach (ha.listed c p (hb.relabel.ranges ▸ hlookup))

/-- The ranges that `makeBottomRanges` puts into the map are below the divided range. -/
theorem Graft.rooted (hg : Graft H sl h h' c p rng) (hord : Ordered H sl)
    (hroomy : Roomy h.divideFactor h.compareThreshold sl)
    (hok : makeBottomRanges H sl fuel (h.mark p) p = .ok h') :
    Rooted h h' (genTupleRanges c h.divideFactor) := by
  have htuple := hg.shape.tuple_eq hg.found
  have hrooted := (makeBottomRanges_rooted hord hg.found.mark.heap hg.shape.factor
    (by rw [htuple]; exact hg.shape.isRange hg.live) (by rw [htuple]; exact hg.wide) hroomy hok).2
  rwa [htuple] at hrooted

theorem Accurate.graft (ha : Accurate sl h) (hord : Ordered H sl) (hg : Graft H sl h h' c p rng)
    (hrooted : Rooted h h' (genTupleRanges c h.divideFactor)) : Accurate sl h' where
  counted x s r hx hr := by
    rcases hg.live_or hx with hx | ⟨d, hd, hx⟩
    · by_cases hxc : x = c
      · subst hxc
        obtain ⟨-, rfl⟩ := hr.unique hg.at_self
        exact ha.counted x p rng hx hg.found
      · obtain ⟨t, sub, hsub⟩ := hg.shape.exists_at hx
        obtain ⟨-, rfl⟩ := hr.unique (hg.at_of_ne hx hxc hsub)
        exact ha.counted x t r hx hsub
    · exact (hg.elements_new hord hd hx hr).1
  listed x s hlookup := by
    rcases hrooted x s hlookup with hlookup | ⟨d, hd, hx⟩
    · exact hg.reach .refl (ha.listed x s hlookup)
    · exact ((hg.reach .refl hg.live).trans (hg.reach_part hd)).trans hx

/-- A merge of a range none of whose parts is divided. -/
theorem Accurate.merged (ha : Accurate sl h) (hm : Merged h h' y q parent)
    (hflat : ∀ d ∈ genTupleRanges y h.divideFactor, ∀ s sub, h.At d s sub → sub.isDivided = false) :
    Accurate sl h' where
  counted x s r hx hr := by
    rcases hm.at_cases hx hr with ⟨rfl, -, rfl⟩ | ⟨-, hr⟩
    · exact ha.counted x q parent hm.live hm.found
    · exact ha.counted x s r (hm.live_before hx).1 hr
  listed x s hlookup := by
    rw [hm.lookup] at hlookup
    split at hlookup
    · cases hlookup
    · next hnot =>
      have hx := ha.listed x s hlookup
      refine hm.live_after hx fun hlt => ?_
      -- a range inside `y` is one of the parts, and these are taken out
      rcases (hm.shape.reach_of_le hm.live hx hlt.le).eq_or_part with
        rfl | ⟨t, sub, d, hsub, -, hd, hdx⟩
      · exact lt_irrefl _ hlt
      · rcases hdx.eq_or_part with rfl | ⟨t', sub', -, hsub', hdivided, -, -⟩
        · exact hnot hd
        · rw [hflat d hd t' sub' hsub'] at hdivided
          cases hdivided

/-- `addElement` with a new element. -/
theorem Accurate.addElement (ha : Accurate sl h) (ht : Sound H sl h) (hord : Ordered H sl')
    (hedit : Edit sl sl' e 1) (hcount : ∀ x, e ∈ x → (count sl' x : ℤ) = count sl x + 1)
    (he : e < hashes) (hrouted : Routed h.divideFactor e)
    (hwide : ∀ c p rng, h.LeafAt e c p rng → (h.compareThreshold : ℤ) < rng.elements + 1 →
      Wide h.divideFactor c) (hroomy : Roomy h.divideFactor h.compareThreshold sl')
    (hok : HashRanges.addElement H sl' fuel h e = .ok h') : Accurate sl' h' := by
  obtain ⟨c, p, rng, h₁, h₂, hl, hb, rfl, hcases⟩ := addElement_cases ht.shape he hrouted hok
  refine Accurate.relabel ?_ (relabel_unsetParent _) fun hat => ⟨_, at_unsetParent.mp hat, rfl⟩
  have ha₁ : Accurate sl' (h₁.setDirty p) := (ha.bumped ht.shape hedit hcount hb).relabel
    Relabel.setDirty fun hat => ⟨_, at_setDirty.mp hat, rfl⟩
  rcases hcases with ⟨-, rfl⟩ | ⟨hmany, hdivide⟩
  · exact ha₁
  · have hg := graft_of_makeBottomRanges ht.shape hord hl hb (hwide c p rng hl hmany) hroomy hdivide
    have hrelabel : Relabel h (h₁.setDirty p) := hb.relabel.trans Relabel.setDirty
    have hroomy₁ : Roomy (h₁.setDirty p).divideFactor (h₁.setDirty p).compareThreshold sl' := by
      rw [hrelabel.divideFactor, hrelabel.compareThreshold]
      exact hroomy
    exact ha₁.graft hord hg (hg.rooted hord hroomy₁ hdivide)

/-- `removeElement` of an element, if it does not merge a range with a divided part. -/
theorem Accurate.removeElement (ha : Accurate sl h) (ht : Sound H sl h) (hclean : h.dirty = [])
    (hedit : Edit sl sl' e (-1)) (hcount : ∀ x, e ∈ x → (count sl' x : ℤ) = count sl x + -1)
    (he : e < hashes) (hrouted : Routed h.divideFactor e)
    (hflat : ∀ y q parent c p rng, h.Live y → y ≠ topTuple → h.At y q parent →
      parent.isDivided = true → c ∈ genTupleRanges y h.divideFactor → h.LeafAt e c p rng →
      parent.elements ≤ h.compareThreshold + 1 → ∀ d ∈ genTupleRanges y h.divideFactor,
        ∀ s sub, h.At d s sub → sub.isDivided = false)
    (hok : HashRanges.removeElement fuel h e = .ok h') : Accurate sl' h' := by
  obtain ⟨c, p, rng, h₁, y, q, parent, hl, hb, hparent, hyat, hy, hdivided, hmem, hcases⟩ :=
    removeElement_cases ht.shape he hrouted hok
  have ha₁ := ha.bumped ht.shape hedit hcount hb
  rcases hcases with ⟨hfew, hne, rfl⟩ | ⟨-, rfl⟩
  · have hm := merged_merge (hb.shape ht.shape) (hb.dirty.trans hclean) (hb.relabel.reach hy) hyat
      hdivided (hb.relabel.topRange.symm ▸ hne)
    obtain ⟨parent₀, hyat₀, hframe⟩ := hb.relabel.symm.exists_at hyat
    have hdivided₀ : parent₀.isDivided = true := (congrArg (·.2.2) hframe).trans hdivided
    have hey : e ∈ y := by
      have hwide := (ht.shape.divided y q parent₀ hy hyat₀ hdivided₀).1
      exact NatInterval.mem_of_le (ht.shape.lt_of_mem hwide hmem).le hl.mem
    have hnetop : y ≠ topTuple := by
      rintro rfl
      obtain ⟨top, htop, -⟩ := ht.shape.top
      exact hne (hyat₀.unique htop).1
    -- the counter of the merged range before the way down
    have hfew₀ : parent₀.elements ≤ h.compareThreshold + 1 := by
      obtain ⟨-, rfl⟩ := hyat.unique (hb.counted y q parent₀ hy hyat₀ hey)
      simp only at hfew
      omega
    refine ha₁.merged hm fun d hd s sub hsub => ?_
    rw [hb.relabel.divideFactor] at hd
    obtain ⟨sub₀, hsub₀, hframe₀⟩ := hb.relabel.symm.exists_at hsub
    rw [← hflat y q parent₀ c p rng hy hnetop hyat₀ hdivided₀ hmem hl hfew₀ d hd s sub₀ hsub₀]
    exact (congrArg (·.2.2) hframe₀).symm
  · exact ha₁.relabel Relabel.setDirty fun hat => ⟨_, at_setDirty.mp hat, rfl⟩

/-- The divided ranges of `h'` are divided in `h` and have the same counters. -/
def KeepsCounters (h h' : HashRanges) : Prop :=
  ∀ (p : ℕ) (rng' : HashRange), h'.heap[p]? = some rng' → rng'.isDivided = true →
    ∃ rng : HashRange, h.heap[p]? = some rng ∧ rng.isDivided = true ∧ rng.elements = rng'.elements

theorem KeepsCounters.refl : KeepsCounters h h := fun _ rng' hheap hdivided =>
  ⟨rng', hheap, hdivided, rfl⟩

theorem KeepsCounters.trans (hk : KeepsCounters h h₁) (hk' : KeepsCounters h₁ h') :
    KeepsCounters h h' := by
  intro p rng' hheap hdivided
  obtain ⟨rng₁, hheap₁, hdivided₁, helements₁⟩ := hk' p rng' hheap hdivided
  obtain ⟨rng, hheap, hdivided, helements⟩ := hk p rng₁ hheap₁ hdivided₁
  exact ⟨rng, hheap, hdivided, helements.trans helements₁⟩

/-- A change of one range that does not count a divided range anew. -/
theorem KeepsCounters.modify {f : HashRange → HashRange} (hheap : h.heap[p]? = some rng)
    (hf : (f rng).isDivided = true → rng.isDivided = true ∧ rng.elements = (f rng).elements) :
    KeepsCounters h (h.modify p f) := by
  intro q rng' hq hdivided
  rw [HashRanges.modify, List.getElem?_modify] at hq
  obtain ⟨r, hr, rfl⟩ := Option.map_eq_some_iff.mp hq
  by_cases hpq : p = q
  · subst hpq
    obtain rfl := Option.some.inj (hheap.symm.trans hr)
    rw [if_pos rfl] at hdivided ⊢
    exact ⟨rng, hr, hf hdivided⟩
  · rw [if_neg hpq] at hdivided ⊢
    exact ⟨r, hr, hdivided, rfl⟩

theorem recalculateHash_keepsCounters (hok : recalculateHash H sl h p = .ok h') :
    KeepsCounters h h' := by
  obtain ⟨rng, hget, hok⟩ := Except.bind_eq_ok.mp hok
  have hheap := get_eq_ok.mp hget
  simp only at hok
  -- the marks that are moved to the parent do not touch the heap
  split at hok
  · next hdivided =>
    obtain ⟨hash, -, hok⟩ := Except.bind_eq_ok.mp hok
    have hkeeps : KeepsCounters h (h.modify p fun rng => { rng with hash := hash }) :=
      .modify hheap fun _ => ⟨hdivided, rfl⟩
    split at hok
    all_goals
      obtain rfl := Except.ok.inj hok
      exact hkeeps
  · next hleaf =>
    have hkeeps : KeepsCounters h (h.modify p fun r => { r with
        hash := (calcElementsHash H sl rng.tuple).1
        elements := (calcElementsHash H sl rng.tuple).2 }) :=
      .modify hheap fun hdivided => absurd hdivided hleaf
    split at hok
    all_goals
      obtain rfl := Except.ok.inj hok
      exact hkeeps

theorem recalculateHashes_keepsCounters {ord : RangeOrder}
    (hok : recalculateHashes H sl ord h = .ok h') : KeepsCounters h h' :=
  recalculateHashes_invariant (KeepsCounters h)
    (fun _ _ _ hk hstep => hk.trans (recalculateHash_keepsCounters hstep)) .refl hok

/-- `recalculateHashes` counts the elements of the ranges that are not divided, and leaves the
other counters as they are. -/
theorem Accurate.recalculateHashes {ord : RangeOrder} (ha : Accurate sl h) (hord : Ordered H sl)
    (ht : Sound H sl h) (hok : HashRanges.recalculateHashes H sl ord h = .ok h') :
    Accurate sl h' := by
  obtain ⟨h₁, hok₁, hr, hsound, hclean⟩ := recalculateHashes_spec hord ord ht
  obtain rfl := Except.ok.inj (hok.symm.trans hok₁)
  refine ⟨fun c p rng hc hat => ?_, fun c p hlookup =>
    hr.reach (ha.listed c p (hr.ranges ▸ hlookup))⟩
  by_cases hdivided : rng.isDivided = true
  · obtain ⟨rng₀, hheap₀, -, helements⟩ :=
      recalculateHashes_keepsCounters hok p rng hat.heap hdivided
    rw [← helements]
    exact ha.counted c p rng₀ (hr.symm.reach hc) ⟨hr.ranges ▸ hat.lookup, hheap₀⟩
  · have hfresh := hsound.isFresh hclean hc hat
    rw [IsFresh, if_neg hdivided, hsound.shape.tuple_eq hat] at hfresh
    rw [hfresh.2, ← hord.length_within]
    rfl

end Accurate

end HashRanges

namespace Container

open HashRanges

/-- What `Set` needs to keep the counters: the element is new. -/
structure SetNew (H : Hashing) (d : Container) (e : Element) : Prop extends SetOk H d e where
  id_new : ∀ x ∈ d.sl, x.id ≠ e.id

/-- What `RemoveId` needs to keep the map: if the range above the range of the element is going to
be merged, then none of its parts is divided. -/
def RemoveFlat (H : Hashing) (d : Container) (id : GoString) : Prop :=
  (∃ x ∈ d.sl, x.id = id) → ∀ y q parent c p rng, d.ranges.Live y → y ≠ topTuple →
    d.ranges.At y q parent → parent.isDivided = true →
    c ∈ genTupleRanges y d.ranges.divideFactor → d.ranges.LeafAt (H.sum64 id) c p rng →
    parent.elements ≤ d.ranges.compareThreshold + 1 →
    ∀ x ∈ genTupleRanges y d.ranges.divideFactor, ∀ s sub, d.ranges.At x s sub →
      sub.isDivided = false

/-- The digest of a range by the current division: of its elements if it is not divided, of the
digests of its parts if it is. -/
inductive IsDigest (H : Hashing) (d : Container) : RangeTuple → Bytes → Prop
  | elements {c : RangeTuple} {p : ℕ} {rng : HashRange} (hlive : d.ranges.Live c)
      (hat : d.ranges.At c p rng) (hleaf : rng.isDivided = false) :
      IsDigest H d c (calcElementsHash H d.sl c).1
  | parts {c : RangeTuple} {p : ℕ} {rng : HashRange} (hlive : d.ranges.Live c)
      (hat : d.ranges.At c p rng) (hdivided : rng.isDivided = true)
      (htiles : Tiles c.lo c.hi (genTupleRanges c d.ranges.divideFactor))
      (digest : RangeTuple → Bytes)
      (hparts : ∀ x ∈ genTupleRanges c d.ranges.divideFactor, IsDigest H d x (digest x)) :
      IsDigest H d c (H.blake3 ((genTupleRanges c d.ranges.divideFactor).flatMap digest))

section Answers

variable {H : Hashing} {df th fuel : ℕ} {d d' : Container} {e : Element} {ord : RangeOrder}
  {c : RangeTuple} {p : ℕ} {rng : HashRange}
variable {c : RangeTuple} {id : GoString} {divideFactor compareThreshold : ℤ}

/-- `Good` and accurate. -/
structure GoodAccurate (H : Hashing) (df th : ℕ) (d : Container) : Prop
    extends Good H df th d where
  accurate : d.ranges.Accurate d.sl

/-- A new element is one more in the ranges around its hash. -/
theorem count_afterSet (hd : Good H df th d) (hnew : ∀ x ∈ d.sl, x.id ≠ e.id)
    (hmem : H.sum64 e.id ∈ c) : (count (d.afterSet H e) c : ℤ) = count d.sl c + 1 := by
  have hhash : (hashed H e).hash = H.sum64 (hashed H e).id := rfl
  have hsplit := hd.ordered.count_eq_add hhash c
  have hnot : ¬ ∃ x ∈ d.sl, x.id = (hashed H e).id := fun ⟨x, hx, hid⟩ => hnew x hx hid
  rw [if_neg fun hboth => hnot hboth.2, Nat.add_zero] at hsplit
  rw [afterSet, count_slSet, ← hsplit, if_pos (show (hashed H e).hash ∈ c from hmem)]
  push_cast
  rfl

theorem GoodAccurate.setElement (hd : GoodAccurate H df th d) (hok : SetNew H d e)
    (hset : d.setElement H fuel e = .ok d') : GoodAccurate H df th d' := by
  refine ⟨hd.toGood.setElement hok.toSetOk hset, ?_⟩
  obtain ⟨h', hadd, hd'⟩ := Except.bind_eq_ok.mp hset
  obtain rfl := Except.ok.inj hd'
  have hord : Ordered H (d.afterSet H e) := hd.ordered.update rfl hok.id_ne_nil
  exact hd.accurate.addElement hd.sound hord (hd.ordered.edit_set rfl hok.id_ne_nil)
    (fun x hx => count_afterSet hd.toGood hok.id_new hx) (H.sum64_lt _) hok.routed hok.wide
    hok.roomy hadd

theorem GoodAccurate.recalculate (hd : GoodAccurate H df th d)
    (hok : d.recalculate H ord = .ok d') : GoodAccurate H df th d' ∧ d'.ranges.dirty = [] := by
  obtain ⟨d₁, hd₁, hsettled, -⟩ := hd.toGood.recalculate ord
  obtain rfl := Except.ok.inj (hok.symm.trans hd₁)
  obtain ⟨h', hok', hd'⟩ := Except.bind_eq_ok.mp hok
  obtain rfl := Except.ok.inj hd'
  exact ⟨⟨hsettled.toGood, hd.accurate.recalculateHashes hd.ordered hd.sound hok'⟩, hsettled.clean⟩

theorem GoodAccurate.set {elements : List Element} (hd : GoodAccurate H df th d)
    (hok : ∀ x ∈ runTrace (Container.setElement H fuel) d elements, SetNew H x.1 x.2)
    (hset : d.set H fuel elements ord = .ok d') :
    GoodAccurate H df th d' ∧ d'.ranges.dirty = [] := by
  obtain ⟨d₁, hfold, hrecalculate⟩ := Except.bind_eq_ok.mp hset
  have hd₁ : GoodAccurate H df th d₁ := foldlM_invariant_of_trace (GoodAccurate H df th)
    (fun x => SetNew H x.1 x.2) (fun _ _ _ hd hok hset => hd.setElement hok hset) hd hok hfold
  exact hd₁.recalculate hrecalculate

/-- An element that is removed is one less in the ranges around its hash. -/
theorem count_afterRemove (hd : Good H df th d) (hid : ∃ x ∈ d.sl, x.id = id)
    (hmem : H.sum64 id ∈ c) : (count (d.afterRemove H id) c : ℤ) = count d.sl c + -1 := by
  have hsplit : count d.sl c = count (d.afterRemove H id) c +
      if H.sum64 id ∈ c ∧ ∃ x ∈ d.sl, x.id = id then 1 else 0 := hd.ordered.count_eq_add rfl c
  rw [if_pos ⟨hmem, hid⟩] at hsplit
  omega

theorem GoodAccurate.removeId (hd : GoodAccurate H df th d) (hclean : d.ranges.dirty = [])
    (hok : RemoveFlat H d id) (hremove : d.removeId H fuel id ord = .ok d') :
    GoodAccurate H df th d' ∧ d'.ranges.dirty = [] := by
  rcases removeId_cases hd.toGood hremove with
    rfl | ⟨hmem, hrouted, hedit, h', hremove', hrecalculate⟩
  · exact ⟨hd, hclean⟩
  · have hgood := Settled.good_removed ⟨hd.toGood, hclean⟩ hrouted hedit hremove'
    have haccurate := hd.accurate.removeElement hd.sound hclean hedit
      (fun x hx => count_afterRemove hd.toGood hmem hx) (H.sum64_lt _) hrouted (hok hmem) hremove'
    exact GoodAccurate.recalculate ⟨hgood, haccurate⟩ hrecalculate

theorem new_accurate (hle : divideFactor ≤ hashes)
    (hok : new H fuel divideFactor compareThreshold ord = .ok d) : d.ranges.Accurate d.sl := by
  obtain ⟨h, hnew, hok⟩ := Except.bind_eq_ok.mp hok
  obtain ⟨h', hrecalculate, hok⟩ := Except.bind_eq_ok.mp hok
  obtain rfl := Except.ok.inj hok
  obtain ⟨htwo, hle'⟩ := clamp_divideFactor hle
  have hg := graft_newHashRanges htwo hle' hnew
  have hbare : Accurate [] (bareTop (if divideFactor < 2 then 2 else divideFactor.toNat)
      (if compareThreshold < 1 then 1 else compareThreshold.toNat)) := by
    refine ⟨fun c p rng hc hat => ?_, fun c p hlookup => ?_⟩
    · obtain rfl := eq_of_bareTop_live hc
      obtain ⟨-, rfl⟩ := hat.unique bareTop_found
      rfl
    · rw [lookup_bareTop] at hlookup
      split at hlookup
      · next hc => exact hc ▸ .refl
      · cases hlookup
  have hrooted := hg.rooted ordered_nil (fun _ _ hlt => absurd hlt (Nat.not_lt_zero _)) hnew
  have haccurate := hbare.graft ordered_nil hg hrooted
  exact (haccurate.relabel Relabel.setDirty fun hat =>
    ⟨_, at_setDirty.mp hat, rfl⟩).recalculateHashes
    ordered_nil (sound_new htwo hle' hnew) hrecalculate

/-- After every run whose calls meet the conditions, the counters and the map are in order. -/
theorem Reached.goodAccurate (hle : divideFactor ≤ hashes)
    (hd : Reached H divideFactor compareThreshold (SetNew H) (RemoveFlat H) d) :
    GoodAccurate H (if divideFactor < 2 then 2 else divideFactor.toNat)
      (if compareThreshold < 1 then 1 else compareThreshold.toNat) d ∧ d.ranges.dirty = [] := by
  obtain ⟨fuel, ord, ops, hrun, hok⟩ := hd
  refine run_induction (fun d => GoodAccurate H _ _ d ∧ d.ranges.dirty = []) hrun
    (fun d₀ hd₀ => ?_) (fun d op d' hd hop hd' => ?_) hok
  · have hsettled := new_settled hle hd₀
    exact ⟨⟨hsettled.toGood, new_accurate hle hd₀⟩, hsettled.clean⟩
  · cases op with
    | set elements ord => exact hd.1.set hop hd'
    | removeId id ord => exact hd.1.removeId hd.2 hop hd'

/-- The stored digests are the digests by the current division. The induction is on the number of
hashes in the range. -/
theorem Settled.isDigest (hd : Settled H df th d) {n : ℕ} (hn : c.hi - c.lo < n)
    (hlive : d.ranges.Live c) : IsDigest H d c (d.ranges.hashAt c) := by
  induction n generalizing c with
  | zero => omega
  | succ n ih =>
    obtain ⟨p, rng, hat⟩ := hd.sound.shape.exists_at hlive
    have hfresh := hd.sound.isFresh hd.clean hlive hat
    rw [hat.hashAt_eq]
    by_cases hdivided : rng.isDivided = true
    · have hwide := (hd.sound.shape.divided c p rng hlive hat hdivided).1
      rw [HashRanges.IsFresh, if_pos hdivided,
        hd.sound.shape.calcDividedHash_eq hlive hat hdivided] at hfresh
      rw [← Except.ok.inj hfresh]
      refine .parts hlive hat hdivided (hd.sound.shape.tiles hlive hat hdivided) _ fun x hx => ?_
      have hlt := width_lt hd.sound.shape.factor hwide hx
      exact ih (by omega) (hlive.step hat hdivided hx)
    · rw [HashRanges.IsFresh, if_neg hdivided, hd.sound.shape.tuple_eq hat] at hfresh
      rw [hfresh.1]
      exact .elements hlive hat (by simpa using hdivided)

/-- Every query is answered with the number of elements in the range, and with no digest or the
digest of the range by the current division. -/
theorem Reached.getRange_exact {divideFactor compareThreshold : ℤ} (hle : divideFactor ≤ hashes)
    (hd : Reached H divideFactor compareThreshold (SetNew H) (RemoveFlat H) d) (r : Range) :
    (d.getRange r).count = count d.sl r.tuple ∧
      ((d.getRange r).hash ≠ [] → IsDigest H d r.tuple (d.getRange r).hash) := by
  obtain ⟨hgood, hclean⟩ := hd.goodAccurate hle
  have hsettled : Settled H _ _ d := ⟨hgood.toGood, hclean⟩
  have hlength : (((within d.sl r.tuple).map HashedElement.toElement).length : ℤ) =
      count d.sl r.tuple := by
    rw [List.length_map, hgood.ordered.length_within]
  unfold getRange
  cases hget : d.ranges.getRange r.tuple with
  | none => exact ⟨hlength, fun hne => absurd rfl hne⟩
  | some rng =>
    obtain ⟨p, hat⟩ := exists_at_of_getRange hget
    have hlive := hgood.accurate.listed _ _ hat.lookup
    have hdigest : IsDigest H d r.tuple rng.hash :=
      hat.hashAt_eq ▸ hsettled.isDigest (Nat.lt_succ_self _) hlive
    cases r.elements with
    | true => exact ⟨hlength, fun _ => hdigest⟩
    | false => exact ⟨hgood.accurate.counted _ p rng hlive hat, fun _ => hdigest⟩

end Answers

/-! ## Runs on given elements -/

variable {H : Hashing} {d : Container}

/-- What decides `SetNew` for `divideFactor` 2, if no two elements share a hash. -/
def SetNewCheck (H : Hashing) (d : Container) (e : Element) : Prop :=
  SetCheck H 1 d e ∧ ∀ x ∈ d.sl, x.id ≠ e.id

instance (H : Hashing) (d : Container) (e : Element) : Decidable (SetNewCheck H d e) :=
  inferInstanceAs (Decidable (_ ∧ _))

theorem SetNewCheck.setNew {e : Element} (hcheck : SetNewCheck H d e) : SetNew H d e :=
  ⟨hcheck.1.setOk, hcheck.2⟩

/-- What decides `RemoveFlat`. -/
def RemoveFlatCheck (H : Hashing) (d : Container) (id : GoString) : Prop :=
  d.ranges.Closed (d.ranges.reachList 64 topTuple) ∧
    ∀ y ∈ d.ranges.reachList 64 topTuple, ∀ parent ∈ d.ranges.getRange y, y ≠ topTuple →
      parent.isDivided = true →
      (∃ c ∈ genTupleRanges y d.ranges.divideFactor, H.sum64 id ∈ c) →
      parent.elements ≤ d.ranges.compareThreshold + 1 →
      ∀ x ∈ genTupleRanges y d.ranges.divideFactor, ∀ sub ∈ d.ranges.getRange x,
        sub.isDivided = false

instance (H : Hashing) (d : Container) (id : GoString) : Decidable (RemoveFlatCheck H d id) :=
  inferInstanceAs (Decidable (_ ∧ _))

theorem RemoveFlatCheck.removeFlat {id : GoString} (hcheck : RemoveFlatCheck H d id) :
    RemoveFlat H d id := by
  obtain ⟨hclosed, hall⟩ := hcheck
  intro _ y q parent c p rng hy hne hat hdivided hc hl hfew x hx s sub hsub
  exact hall y (hclosed.mem hy) parent hat.getRange_eq hne hdivided ⟨c, hc, hl.mem⟩ hfew x hx sub
    hsub.getRange_eq

end Container

namespace Sample

open Container

theorem reachedNew_of_check {H : Hashing} {ops : List Op}
    (hcheck : (run H 70 2 1 .listed ops).isOk = true ∧ ∀ x ∈ trace H 70 2 1 .listed ops,
      x.1.StepOk H 70 (SetNewCheck H) (RemoveFlatCheck H) x.2) :
    Reached H 2 1 (SetNew H) (RemoveFlat H) (container H ops) :=
  ⟨70, .listed, ops, run_eq_container hcheck.1, fun x hx =>
    (hcheck.2 x hx).imp (fun _ _ => SetNewCheck.setNew) fun _ _ => RemoveFlatCheck.removeFlat⟩

/-- An element with the id "i" and the head "j". -/
def elementI : Element := ⟨[105], [106]⟩

/-- Values of `xxhash.Sum64` and of `blake3` for runs on three elements in one half of the
hashes. -/
def hashingUpper : Hashing :=
  let ac := 0x4c0d05aab37ae964ce922552a23afec473b72e18006b1c29ef1ef89c514a76bb
  let ij := 0x39bc8622714ff14cca58528d70860c1c15e817039084bbacfecb03ba0e97f0ce
  let cd := 0xe8cf3ad3c77be0828dfb8fffc06fed22ab037dfa68a16049fe8267f70265afe2
  let ofAc := 0x8c04ff7f7cde5e019207d2c1d899119c34e3ff9bfde5253d4e7f9e679443b7ae
  let ofIjAc := 0x2c31b4b4fdba440923d44fbeb78b4d83a7f28593a7f87b158a02b2a4b04fbedc
  let above := 0x8effe2596a24370c250efeb96010b5a00dd51f6871c20753dd6e585760f8f105
  let above2 := 0xad981b156e4261784db0c6521e64da6f07312fa42089e3466dddcd8a2a0da2eb
  let withCd := 0x5ee11780cc9a695eb171e8a82263b4a85bd46d1a1ac156d66dbac96c5e9c9e7b
  let withCd2 := 0xbab7a497868846b158ed6e8fca9201a187bbd16af3150da6eab56046fdd0c205
  .ofTable
    [([97], 0xd24ec4f1a98c6e5b), ([99], 0xa3dad144c40657ed), ([105], 0xc3373795af3fb445)]
    [([], 0xaf1349b9f5f9a1a6a0404dea36dcc9499bcb25c9adc112b7cc9a93cae41f3262),
      ([97, 99], ac), ([105, 106], ij), ([99, 100], cd), (bytesOfNat 32 ac, ofAc),
      ([105, 106, 97, 99], 0xb42147c4936c21ea9646741bcbd65a21dc434cc3bafd98ede8acb6c3333b7619),
      (bytesOfNat 32 ij ++ bytesOfNat 32 ac, ofIjAc), (bytesOfNat 32 ofIjAc, above),
      (bytesOfNat 32 above, above2),
      (bytesOfNat 32 above2, 0x4bdc3bf8dbcd55a184144628fb5c3ee8947870ef384533d4c956c370e53cae1b),
      (bytesOfNat 32 cd ++ bytesOfNat 32 above, withCd),
      (bytesOfNat 32 withCd, 0xd7050364a15f15a042d821b3b39105b5e82bc0d4b33138631f48349ae698774c),
      (bytesOfNat 32 cd ++ bytesOfNat 32 ofAc, withCd2),
      (bytesOfNat 32 withCd2, 0x93754379098cc17e7b3e6ab2e30467ece2b270c87af3d4233f1c7993ed000c79)]

end Sample

open Sample

/-- The upper half of the hashes, after a merge. -/
theorem getRange_exact_upperHalf :
    let H := hashing
    let d := container H [.set [elementA] .listed, .set [elementC] .listed,
      .removeId elementC.id .listed]
    let r : Range := { tuple := ⟨2 ^ 63, 2 ^ 64 - 1⟩, elements := false }
    (d.getRange r).count = 1 ∧ (d.getRange r).hash ≠ [] ∧
      Container.IsDigest H d r.tuple (d.getRange r).hash := by
  intro H d r
  have hd : Container.Reached H 2 1 (Container.SetNew H) (Container.RemoveFlat H) d :=
    reachedNew_of_check (by decide +kernel)
  have hne : (d.getRange r).hash ≠ [] := by decide +kernel
  obtain ⟨hcount, hdigest⟩ := hd.getRange_exact (by decide) r
  have hone : count d.sl r.tuple = 1 := by decide +kernel
  exact ⟨by rw [hcount, hone]; rfl, hne, hdigest hne⟩

/-- An element that is set twice is counted twice. And a range inside a divided part of a merged
range stays in the map: it still answers for an element after that is removed. -/
theorem getRange_wrongAnswers :
    (∃ d, Container.run hashing 70 2 1 .listed
        [.set [elementA] .listed, .set [elementA] .listed] = .ok d ∧
      (d.getRange { tuple := topTuple, elements := false }).count = 2 ∧
      count d.sl topTuple = 1) ∧
    ∃ d, Container.run hashingUpper 70 2 1 .listed
        [.set [elementA] .listed, .set [elementI] .listed,
          .set [elementC] .listed, .removeId elementI.id .listed,
          .removeId elementC.id .listed, .removeId elementA.id .listed] = .ok d ∧
      (d.getRange { tuple := ⟨3 * 2 ^ 62, 7 * 2 ^ 61 - 1⟩, elements := false }).count = 1 ∧
      (d.getRange { tuple := ⟨3 * 2 ^ 62, 7 * 2 ^ 61 - 1⟩, elements := false }).hash ≠ [] ∧
      d.sl = [] :=
  ⟨⟨_, run_eq_container (by decide +kernel), by decide +kernel, by decide +kernel⟩,
    ⟨_, run_eq_container (by decide +kernel), by decide +kernel, by decide +kernel,
      by decide +kernel⟩⟩

end Ldiff
