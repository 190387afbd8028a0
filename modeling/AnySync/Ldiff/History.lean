import AnySync.Ldiff.Digest

/-!
# The digest and the history of a container

The digest of a container depends on which ranges are divided. It is the same for all runs to the
same elements if after every call exactly the ranges with more than `compareThreshold` elements
are divided.

The main result is `Reached.hash_eq`.
-/

namespace Ldiff

namespace HashRanges

/-- Apart from the top range, the divided ranges are those with too many elements. -/
def Balanced (sl : List HashedElement) (h : HashRanges) : Prop :=
  ∀ c p rng, h.Live c → c ≠ topTuple → h.At c p rng →
    (rng.isDivided = true ↔ h.compareThreshold < count sl c)

section Balanced

variable {H : Hashing} {sl sl' : List HashedElement} {h h' : HashRanges} {e fuel : ℕ}
variable {c x : RangeTuple} {p q : ℕ} {rng r : HashRange}

theorem Balanced.relabel (hbal : Balanced sl h) (hr : Relabel h h') : Balanced sl h' := by
  intro c p rng hc hne hat
  obtain ⟨rng', hat', hframe⟩ := hr.symm.exists_at hat
  have hdivided : rng'.isDivided = rng.isDivided := congrArg (·.2.2) hframe
  rw [← hdivided, hr.compareThreshold]
  exact hbal c p rng' (hr.symm.reach hc) hne hat'

/-- A live range around the hash other than the one that is not divided is divided. -/
theorem LeafAt.divided_of_ne (hl : h.LeafAt e c p rng) (hs : h.Shape) (hx : h.Live x) (hex : e ∈ x)
    (hne : x ≠ c) (hr : h.At x q r) : r.isDivided = true := by
  by_contra hleaf
  have hlt := lt_of_le_of_ne (hl.le hs hx hex) (Ne.symm hne)
  exact hs.not_lt_leaf hx hr (by simpa using hleaf) hl.live hlt

/-- After the way down, the ranges other than the one around the hash are balanced if those
around the hash keep too many elements. -/
theorem Balanced.of_bumped {h₁ : HashRanges} {n : ℤ} (hbal : Balanced sl h) (hs : h.Shape)
    (hedit : Edit sl sl' e n) (hb : Bumped h h₁ n (e ∈ ·)) (hl : h.LeafAt e c p rng) (hx : h.Live x)
    (hne : x ≠ topTuple) (hxc : x ≠ c) (hkeeps : e ∈ x → h.compareThreshold < count sl' x)
    (hr : h₁.At x q r) : r.isDivided = true ↔ h.compareThreshold < count sl' x := by
  obtain ⟨q', r', hr'⟩ := hs.exists_at hx
  by_cases hex : e ∈ x
  · obtain ⟨-, rfl⟩ := hr.unique (hb.counted x q' r' hx hr' hex)
    have hdivided := hl.divided_of_ne hs hx hex hxc hr'
    exact iff_of_true hdivided (hkeeps hex)
  · obtain ⟨-, rfl⟩ := hr.unique (hb.same x q' r' hx hr' hex)
    rw [hedit.count_out x hex]
    exact hbal x q' r hx hne hr'

/-- `addElement` keeps the balance if it divides a range only when that has too many elements. -/
theorem Balanced.addElement (hbal : Balanced sl h) (ht : Sound H sl h) (hord : Ordered H sl')
    (hedit : Edit sl sl' e 1) (hmono : ∀ c, count sl c ≤ count sl' c) (he : e < hashes)
    (hrouted : Routed h.divideFactor e)
    (hfull : ∀ c p rng, h.LeafAt e c p rng → (h.compareThreshold : ℤ) < rng.elements + 1 →
      h.compareThreshold < count sl' c) (hroomy : Roomy h.divideFactor h.compareThreshold sl')
    (hok : HashRanges.addElement H sl' fuel h e = .ok h') : Balanced sl' h' := by
  obtain ⟨c, p, rng, h₁, h₂, hl, hb, rfl, hcases⟩ := addElement_cases ht.shape he hrouted hok
  refine Balanced.relabel ?_ (relabel_unsetParent _)
  have hrelabel : Relabel h (h₁.setDirty p) := hb.relabel.trans Relabel.setDirty
  have hat := at_setDirty (p := p).mpr (hb.counted c p rng hl.live hl.found hl.mem)
  -- the divided ranges around the hash have too many elements, and get no fewer
  have hkeeps : ∀ {x}, h.Live x → x ≠ topTuple → x ≠ c → e ∈ x →
      h.compareThreshold < count sl' x := by
    intro x hx hne hxc hex
    obtain ⟨q, r, hr⟩ := ht.shape.exists_at hx
    have hlt := (hbal x q r hx hne hr).mp (hl.divided_of_ne ht.shape hx hex hxc hr)
    exact hlt.trans_le (hmono x)
  rcases hcases with ⟨hfew, rfl⟩ | ⟨hmany, hdivide⟩
  · intro x q r hx hne hr
    rw [hrelabel.compareThreshold]
    have hx' := hrelabel.symm.reach hx
    by_cases hxc : x = c
    · subst hxc
      obtain ⟨-, rfl⟩ := hr.unique hat
      have hle := ht.count_le x p rng hl.live hl.found
      have hin := hedit.count_in x hl.mem
      refine iff_of_false (by simp [hl.leaf]) ?_
      omega
    · exact hbal.of_bumped ht.shape hedit hb hl hx' hne hxc (hkeeps hx' hne hxc)
        (at_setDirty.mp hr)
  · have hfull := hfull c p rng hl hmany
    have hwide := hroomy c (ht.shape.isRange hl.live) hfull
    have hg := graft_of_makeBottomRanges ht.shape hord hl hb hwide hroomy hdivide
    intro x q r hx hne hr
    rw [hg.divides.frame.compareThreshold,
      show ((h₁.setDirty p).mark p).compareThreshold = h.compareThreshold from
        hrelabel.compareThreshold]
    rcases hg.live_or hx with hx' | ⟨d, hd, hx'⟩
    · by_cases hxc : x = c
      · subst hxc
        obtain ⟨-, rfl⟩ := hr.unique hg.at_self
        exact iff_of_true rfl hfull
      · obtain ⟨q', r', hr₁⟩ := hg.shape.exists_at hx'
        obtain ⟨-, rfl⟩ := hr.unique (hg.at_of_ne hx' hxc hr₁)
        have hx₀ := hrelabel.symm.reach hx'
        exact hbal.of_bumped ht.shape hedit hb hl hx₀ hne hxc (hkeeps hx₀ hne hxc)
          (at_setDirty.mp hr₁)
    · have hiff := (hg.elements_new hord hd hx' hr).2
      rwa [hrelabel.compareThreshold] at hiff

/-- `removeElement` keeps the balance if the divided ranges around the hash keep too many elements,
apart from the one that is merged. -/
theorem Balanced.removeElement (hbal : Balanced sl h) (ht : Sound H sl h) (hclean : h.dirty = [])
    (hedit : Edit sl sl' e (-1)) (he : e < hashes) (hrouted : Routed h.divideFactor e)
    (hkeeps : ∀ c p rng, h.Live c → c ≠ topTuple → h.At c p rng → rng.isDivided = true → e ∈ c →
      h.compareThreshold < count sl' c ∨
        rng.elements ≤ h.compareThreshold + 1 ∧
          ∃ d q sub, h.LeafAt e d q sub ∧ d ∈ genTupleRanges c h.divideFactor)
    (hok : HashRanges.removeElement fuel h e = .ok h') : Balanced sl' h' := by
  have hsound' := ht.removeElement hclean hedit he hrouted hok
  obtain ⟨c, p, rng, h₁, y, q, parent, hl, hb, hparent, hyat, hy, hdivided, hmem, hcases⟩ :=
    removeElement_cases ht.shape he hrouted hok
  obtain ⟨parent₀, hyat₀, hframe⟩ := hb.relabel.symm.exists_at hyat
  have hdivided₀ : parent₀.isDivided = true := (congrArg (·.2.2) hframe).trans hdivided
  have hwide := (ht.shape.divided y q parent₀ hy hyat₀ hdivided₀).1
  have hey : e ∈ y := NatInterval.mem_of_le (ht.shape.lt_of_mem hwide hmem).le hl.mem
  -- the ranges around the hash above `y` keep too many elements
  have habove : ∀ {x}, h.Live x → x ≠ topTuple → x ≠ c → e ∈ x →
      h.compareThreshold < count sl' x ∨ x = y ∧ parent.elements ≤ h.compareThreshold := by
    intro x hx hne hxc hex
    obtain ⟨s, r, hr⟩ := ht.shape.exists_at hx
    have hdividedx := hl.divided_of_ne ht.shape hx hex hxc hr
    rcases hkeeps x s r hx hne hr hdividedx hex with hlt | ⟨hfew, d, t, sub, hl', hd⟩
    · exact .inl hlt
    · obtain rfl := hl.eq ht.shape hl'
      obtain rfl := ht.shape.eq_of_mem_part hx hr hdividedx hy hyat₀ hdivided₀ hd hmem
      obtain ⟨-, rfl⟩ := hr.unique hyat₀
      obtain ⟨-, rfl⟩ := hyat.unique (hb.counted x s r hx hr hex)
      refine .inr ⟨rfl, ?_⟩
      show r.elements + -1 ≤ _
      omega
  rcases hcases with ⟨hfew, hne, rfl⟩ | ⟨hmany, rfl⟩
  · have hm := merged_merge (hb.shape ht.shape) (hb.dirty.trans hclean) (hb.relabel.reach hy) hyat
      hdivided (hb.relabel.topRange.symm ▸ hne)
    intro x s r hx hnetop hr
    rw [hm.compareThreshold, hb.relabel.compareThreshold]
    obtain ⟨hx₁, hlt⟩ := hm.live_before hx
    have hx₀ := hb.relabel.symm.reach hx₁
    rcases hm.at_cases hx hr with ⟨rfl, -, rfl⟩ | ⟨hxy, hr₁⟩
    · have hle := hsound'.count_le x s _ hx hr
      refine iff_of_false (by simp) ?_
      simp only at hle
      omega
    · have hxc : x ≠ c := by
        rintro rfl
        exact hlt (ht.shape.lt_of_mem hwide hmem)
      refine hbal.of_bumped ht.shape hedit hb hl hx₀ hnetop hxc (fun hex => ?_) hr₁
      exact (habove hx₀ hnetop hxc hex).resolve_right fun hy => hxy hy.1
  · intro x s r hx hnetop hr
    have hrelabel : Relabel h (h₁.setDirty p) := hb.relabel.trans Relabel.setDirty
    rw [hrelabel.compareThreshold]
    have hx₀ := hrelabel.symm.reach hx
    by_cases hxc : x = c
    · subst hxc
      obtain ⟨-, rfl⟩ := (at_setDirty.mp hr).unique (hb.counted x p rng hl.live hl.found hl.mem)
      have hle := ht.count_le x p rng hl.live hl.found
      have hle' := ht.leaf_le x p rng hl.live hl.found hl.leaf
      have hin := hedit.count_in x hl.mem
      refine iff_of_false (by simp [hl.leaf]) ?_
      omega
    · refine hbal.of_bumped ht.shape hedit hb hl hx₀ hnetop hxc (fun hex => ?_) (at_setDirty.mp hr)
      refine (habove hx₀ hnetop hxc hex).resolve_right fun ⟨hxy, hfew⟩ => hmany ⟨hfew, ?_⟩
      -- only the top range has the pointer of the top range
      rintro rfl
      obtain ⟨top, htop, -⟩ := ht.shape.top
      exact hnetop (hxy.trans (ht.shape.eq_of_lookup hyat₀.lookup htop.lookup))

end Balanced

end HashRanges

namespace Container

open HashRanges

/-- What `Set` needs to keep the balance: no empty id, no narrow range with too many elements, and
the range that the element is added to is divided only if it then has too many elements. Updates
count as elements, so this excludes updates in a range with `compareThreshold` elements. -/
structure SetBalanced (H : Hashing) (d : Container) (e : Element) : Prop where
  id_ne_nil : e.id ≠ []
  full : ∀ c p rng, d.ranges.LeafAt (H.sum64 e.id) c p rng →
    (d.ranges.compareThreshold : ℤ) < rng.elements + 1 →
      d.ranges.compareThreshold < count (d.afterSet H e) c
  roomy : Roomy d.ranges.divideFactor d.ranges.compareThreshold (d.afterSet H e)

/-- What `RemoveId` needs to keep the balance: the divided ranges around the hash still have too
many elements, apart from the one above the range of the element, if its counter tells that it
has not. -/
def RemoveBalanced (H : Hashing) (d : Container) (id : GoString) : Prop :=
  (∃ x ∈ d.sl, x.id = id) → ∀ c p rng, d.ranges.Live c → c ≠ topTuple → d.ranges.At c p rng →
    rng.isDivided = true → H.sum64 id ∈ c →
      d.ranges.compareThreshold < count (d.afterRemove H id) c ∨
        rng.elements ≤ d.ranges.compareThreshold + 1 ∧
          ∃ c' q sub, d.ranges.LeafAt (H.sum64 id) c' q sub ∧
            c' ∈ genTupleRanges c d.ranges.divideFactor

section History

variable {H : Hashing} {df th m fuel : ℕ} {d d' : Container} {e : Element} {ord : RangeOrder}

theorem SetBalanced.setOk (hd : Good H df th d) (hm : 1 ≤ m) (hdf : df = 2 ^ m)
    (hok : SetBalanced H d e) : SetOk H d e where
  id_ne_nil := hok.id_ne_nil
  routed := by
    rw [hd.divideFactor, hdf]
    exact routed_of_pow_two hm _
  wide c p rng hl hlt := hok.roomy c (hd.sound.shape.isRange hl.live) (hok.full c p rng hl hlt)
  roomy := hok.roomy

/-- `Good` and balanced. -/
structure GoodBalanced (H : Hashing) (df th : ℕ) (d : Container) : Prop
    extends Good H df th d where
  balanced : d.ranges.Balanced d.sl

section

variable (hd : GoodBalanced H df th d)

include hd

theorem GoodBalanced.setElement (hm : 1 ≤ m) (hdf : df = 2 ^ m) (hok : SetBalanced H d e)
    (hset : d.setElement H fuel e = .ok d') : GoodBalanced H df th d' := by
  have hok' := hok.setOk hd.toGood hm hdf
  refine ⟨hd.toGood.setElement hok' hset, ?_⟩
  obtain ⟨h', hadd, hd'⟩ := Except.bind_eq_ok.mp hset
  obtain rfl := Except.ok.inj hd'
  have hord : Ordered H (d.afterSet H e) := hd.ordered.update rfl hok.id_ne_nil
  exact hd.balanced.addElement hd.sound hord
    (hd.ordered.edit_set rfl hok.id_ne_nil) (fun c => (hd.ordered.count_update rfl c).1)
    (H.sum64_lt _) hok'.routed hok.full hok.roomy hadd

theorem GoodBalanced.recalculate (hok : d.recalculate H ord = .ok d') :
    GoodBalanced H df th d' ∧ d'.ranges.dirty = [] := by
  obtain ⟨h', hok', hrelabel, -, hclean⟩ :=
    HashRanges.recalculateHashes_spec hd.ordered ord hd.sound
  obtain ⟨d₁, hd₁, hsettled, -⟩ := hd.toGood.recalculate ord
  obtain rfl := Except.ok.inj (hok.symm.trans hd₁)
  rw [Container.recalculate, hok'] at hok
  obtain rfl := Except.ok.inj hok
  exact ⟨⟨hsettled.toGood, hd.balanced.relabel hrelabel⟩, hclean⟩

theorem GoodBalanced.set {elements : List Element} (hm : 1 ≤ m) (hdf : df = 2 ^ m)
    (hok : ∀ x ∈ runTrace (Container.setElement H fuel) d elements, SetBalanced H x.1 x.2)
    (hset : d.set H fuel elements ord = .ok d') :
    GoodBalanced H df th d' ∧ d'.ranges.dirty = [] := by
  obtain ⟨d₁, hfold, hrecalculate⟩ := Except.bind_eq_ok.mp hset
  have hd₁ : GoodBalanced H df th d₁ := foldlM_invariant_of_trace (GoodBalanced H df th)
    (fun x => SetBalanced H x.1 x.2) (fun _ _ _ hd hok hset => hd.setElement hm hdf hok hset) hd
    hok hfold
  exact hd₁.recalculate hrecalculate

theorem GoodBalanced.removeId {id : GoString} (hclean : d.ranges.dirty = [])
    (hok : RemoveBalanced H d id) (hremove : d.removeId H fuel id ord = .ok d') :
    GoodBalanced H df th d' ∧ d'.ranges.dirty = [] := by
  rcases removeId_cases hd.toGood hremove with
    rfl | ⟨hmem, hrouted, hedit, h', hremove', hrecalculate⟩
  · exact ⟨hd, hclean⟩
  · have hgood := Settled.good_removed ⟨hd.toGood, hclean⟩ hrouted hedit hremove'
    have hbal := hd.balanced.removeElement hd.sound hclean hedit (H.sum64_lt _) hrouted (hok hmem)
      hremove'
    exact GoodBalanced.recalculate ⟨hgood, hbal⟩ hrecalculate

end

theorem new_balanced {divideFactor compareThreshold : ℤ} (hle : divideFactor ≤ hashes)
    (hok : new H fuel divideFactor compareThreshold ord = .ok d) : d.ranges.Balanced d.sl := by
  obtain ⟨h, hnew, hok⟩ := Except.bind_eq_ok.mp hok
  obtain ⟨h', hrecalculate, hok⟩ := Except.bind_eq_ok.mp hok
  obtain rfl := Except.ok.inj hok
  obtain ⟨htwo, hle'⟩ := clamp_divideFactor hle
  obtain ⟨h₁, hok₁, hrelabel, -⟩ :=
    recalculateHashes_spec ordered_nil ord (sound_new htwo hle' hnew)
  obtain rfl := Except.ok.inj (hrecalculate.symm.trans hok₁)
  have hg := graft_newHashRanges htwo hle' hnew
  refine Balanced.relabel (Balanced.relabel ?_ Relabel.setDirty) hrelabel
  intro c p rng hc hne hat
  rcases hg.live_or hc with hc | ⟨x, hx, hc⟩
  · exact absurd (eq_of_bareTop_live hc) hne
  · rw [hg.divides.frame.compareThreshold]
    exact (hg.elements_new ordered_nil hx hc hat).2

/-- In balanced containers with the same elements, the same ranges have the same digests. The
induction is on the number of hashes in the range. -/
theorem hashAt_eq_of_balanced (hd : GoodBalanced H df th d) (hclean : d.ranges.dirty = [])
    (hd' : GoodBalanced H df th d') (hclean' : d'.ranges.dirty = []) (hsl : d.sl = d'.sl) {n : ℕ}
    {c : RangeTuple} (hn : c.hi - c.lo < n) (hc : d.ranges.Live c) (hc' : d'.ranges.Live c) :
    d.ranges.hashAt c = d'.ranges.hashAt c := by
  induction n generalizing c with
  | zero => omega
  | succ n ih =>
    obtain ⟨p, rng, hat⟩ := hd.sound.shape.exists_at hc
    obtain ⟨p', rng', hat'⟩ := hd'.sound.shape.exists_at hc'
    have hsettled : Settled H df th d := ⟨hd.toGood, hclean⟩
    have hsettled' : Settled H df th d' := ⟨hd'.toGood, hclean'⟩
    -- the range is divided in both containers or in none
    have hdivided : rng.isDivided = true ↔ rng'.isDivided = true := by
      by_cases htop : c = topTuple
      · subst htop
        obtain ⟨top, hattop, -⟩ := hd.sound.shape.top
        obtain ⟨top', hattop', -⟩ := hd'.sound.shape.top
        obtain ⟨-, rfl⟩ := hat.unique hattop
        obtain ⟨-, rfl⟩ := hat'.unique hattop'
        exact iff_of_true (hd.sound.top _ hattop) (hd'.sound.top _ hattop')
      · rw [hd.balanced c p rng hc htop hat, hd'.balanced c p' rng' hc' htop hat',
          hd.compareThreshold, hd'.compareThreshold, hsl]
    have hinput : d.input c rng = d'.input c rng' := by
      unfold input
      by_cases hrng : rng.isDivided = true
      · rw [if_pos hrng, if_pos (hdivided.mp hrng), hd.divideFactor, hd'.divideFactor]
        congr 1
        refine List.flatMap_congr fun x hx => ?_
        have hwide := (hd.sound.shape.divided c p rng hc hat hrng).1
        rw [hd.divideFactor] at hwide
        have hlt := width_lt (hd.divideFactor ▸ hd.sound.shape.factor) hwide hx
        exact ih (by omega) (hc.step hat hrng (hd.divideFactor.symm ▸ hx))
          (hc'.step hat' (hdivided.mp hrng) (hd'.divideFactor.symm ▸ hx))
      · rw [if_neg hrng, if_neg fun h => hrng (hdivided.mpr h), hsl]
    rw [hsettled.hashAt_eq hc hat, hsettled'.hashAt_eq hc' hat', hinput]

/-- Containers with the same elements have the same digest, if the calls that led to them keep the
balance. -/
theorem Reached.hash_eq {divideFactor compareThreshold : ℤ} (hdf : divideFactor = 2 ^ m)
    (hint : divideFactor < 2 ^ 63)
    (hd : Reached H divideFactor compareThreshold (SetBalanced H) (RemoveBalanced H) d)
    (hd' : Reached H divideFactor compareThreshold (SetBalanced H) (RemoveBalanced H) d')
    (heq : ∀ e, e ∈ d.elements ↔ e ∈ d'.elements) : d.hash = d'.hash := by
  have hhashes : (hashes : ℤ) = 2 ^ 64 := by decide
  have hle : divideFactor ≤ hashes := by omega
  have hclamp := clamp_pow_two hdf
  have hreached : ∀ {d : Container},
      Reached H divideFactor compareThreshold (SetBalanced H) (RemoveBalanced H) d →
      GoodBalanced H (if divideFactor < 2 then 2 else divideFactor.toNat)
        (if compareThreshold < 1 then 1 else compareThreshold.toNat) d ∧ d.ranges.dirty = [] := by
    rintro d ⟨fuel, ord, ops, hrun, hok⟩
    refine run_induction (fun d => GoodBalanced H _ _ d ∧ d.ranges.dirty = []) hrun
      (fun d₀ hd₀ => ?_) (fun d op d' hd hop hd' => ?_) hok
    · have hsettled := new_settled hle hd₀
      exact ⟨⟨hsettled.toGood, new_balanced hle hd₀⟩, hsettled.clean⟩
    · cases op with
      | set elements ord => exact hd.1.set (le_max_right m 1) hclamp hop hd'
      | removeId id ord => exact hd.1.removeId hd.2 hop hd'
  obtain ⟨hgood, hclean⟩ := hreached hd
  obtain ⟨hgood', hclean'⟩ := hreached hd'
  have hsl := hgood.ordered.eq_of_elements hgood'.ordered heq
  rw [Settled.hash_eq_hashAt ⟨hgood.toGood, hclean⟩,
    Settled.hash_eq_hashAt ⟨hgood'.toGood, hclean'⟩]
  exact hashAt_eq_of_balanced hgood hclean hgood' hclean' hsl (Nat.lt_succ_self _) .refl .refl

end History

/-! ## Runs on given elements -/

variable {H : Hashing} {d : Container}

/-- What decides `SetBalanced` if no two elements share a hash. -/
def SetBalancedCheck (H : Hashing) (d : Container) (e : Element) : Prop :=
  e.id ≠ [] ∧ (2 ≤ d.ranges.divideFactor ∧ d.ranges.divideFactor ≤ d.ranges.compareThreshold + 1) ∧
    ((d.afterSet H e).map HashedElement.hash).Nodup ∧
    d.ranges.Closed (d.ranges.reachList 64 topTuple) ∧
    ∀ c ∈ d.ranges.reachList 64 topTuple, ∀ rng ∈ d.ranges.getRange c, rng.isDivided = false →
      H.sum64 e.id ∈ c → (d.ranges.compareThreshold : ℤ) < rng.elements + 1 →
        d.ranges.compareThreshold < count (d.afterSet H e) c

instance (H : Hashing) (d : Container) (e : Element) : Decidable (SetBalancedCheck H d e) :=
  inferInstanceAs (Decidable (_ ∧ _))

theorem SetBalancedCheck.setBalanced {e : Element} (hcheck : SetBalancedCheck H d e) :
    SetBalanced H d e := by
  obtain ⟨hid, ⟨htwo, hle⟩, hnodup, hclosed, hfull⟩ := hcheck
  refine ⟨hid, fun c p rng hl => ?_, roomy_of_nodup htwo hle hnodup⟩
  exact hfull c (hclosed.mem hl.live) rng hl.found.getRange_eq hl.leaf hl.mem

/-- What decides `RemoveBalanced`. -/
def RemoveBalancedCheck (H : Hashing) (d : Container) (id : GoString) : Prop :=
  d.ranges.Closed (d.ranges.reachList 64 topTuple) ∧
    ∀ c ∈ d.ranges.reachList 64 topTuple, ∀ rng ∈ d.ranges.getRange c, c ≠ topTuple →
      rng.isDivided = true → H.sum64 id ∈ c →
      d.ranges.compareThreshold < count (d.afterRemove H id) c ∨
        rng.elements ≤ d.ranges.compareThreshold + 1 ∧
          ∃ c' ∈ d.ranges.reachList 64 topTuple, ∃ sub ∈ d.ranges.getRange c',
            sub.isDivided = false ∧ H.sum64 id ∈ c' ∧ c' ∈ genTupleRanges c d.ranges.divideFactor

instance (H : Hashing) (d : Container) (id : GoString) : Decidable (RemoveBalancedCheck H d id) :=
  inferInstanceAs (Decidable (_ ∧ _))

theorem RemoveBalancedCheck.removeBalanced {id : GoString} (hcheck : RemoveBalancedCheck H d id) :
    RemoveBalanced H d id := by
  obtain ⟨hclosed, hall⟩ := hcheck
  intro _ c p rng hc hne hat hdivided hmem
  refine (hall c (hclosed.mem hc) rng hat.getRange_eq hne hdivided hmem).imp_right ?_
  rintro ⟨hfew, c', hc', sub, hsub, hleaf, hmem', hpart⟩
  obtain ⟨q, hat'⟩ := exists_at_of_getRange hsub
  exact ⟨hfew, c', q, sub, ⟨reach_of_mem_reachList hc', hat', hleaf, hmem'⟩, hpart⟩

end Container

namespace Sample

open Container

theorem reachedBalanced_of_check {H : Hashing} {ops : List Op}
    (hcheck : (run H 70 2 1 .listed ops).isOk = true ∧ ∀ x ∈ trace H 70 2 1 .listed ops,
      x.1.StepOk H 70 (SetBalancedCheck H) (RemoveBalancedCheck H) x.2) :
    Reached H 2 1 (SetBalanced H) (RemoveBalanced H) (container H ops) :=
  ⟨70, .listed, ops, run_eq_container hcheck.1, fun x hx =>
    (hcheck.2 x hx).imp (fun _ _ => SetBalancedCheck.setBalanced)
      fun _ _ => RemoveBalancedCheck.removeBalanced⟩

end Sample

open Sample

/-- Two elements that are set in one call, and with an element between them that is removed. -/
theorem hash_eq_removedElement :
    let H := hashing
    let d := container H [.set [elementE, elementA] .listed]
    let d' := container H [.set [elementA] .listed, .set [elementC] .listed,
      .removeId elementC.id .listed, .set [elementE] .listed]
    (∀ e, e ∈ d.elements ↔ e ∈ d'.elements) ∧ d.hash = d'.hash := by
  intro H d d'
  have helements : d.elements = d'.elements := by decide +kernel
  have hmem : ∀ e, e ∈ d.elements ↔ e ∈ d'.elements := fun e => by rw [helements]
  have hd : Container.Reached H 2 1 (Container.SetBalanced H) (Container.RemoveBalanced H) d :=
    reachedBalanced_of_check (by decide +kernel)
  have hd' : Container.Reached H 2 1 (Container.SetBalanced H) (Container.RemoveBalanced H) d' :=
    reachedBalanced_of_check (by decide +kernel)
  exact ⟨hmem, hd.hash_eq (m := 1) rfl (by decide) hd' hmem⟩

/-- An element that is set once has another digest than an element that is set twice. -/
theorem hash_ne_setTwice :
    let H := hashing
    let once : List Op := [.set [elementA] .listed]
    let twice : List Op := [.set [elementA] .listed, .set [elementA] .listed]
    ∃ d d', Container.run H 70 2 1 .listed once = .ok d ∧
      Container.run H 70 2 1 .listed twice = .ok d' ∧
      d.elements = [elementA] ∧ d'.elements = [elementA] ∧ d.hash ≠ d'.hash := by
  intro H once twice
  exact ⟨container H once, container H twice,
    run_eq_container (by decide +kernel), run_eq_container (by decide +kernel),
    by decide +kernel, by decide +kernel, by decide +kernel⟩

end Ldiff
