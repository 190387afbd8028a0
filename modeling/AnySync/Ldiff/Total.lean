import AnySync.Ldiff.Digest

/-!
# Calls that return

`Set` and `RemoveId` return as long as no range with fewer hashes than `divideFactor` is divided.

The main result is `run_finishes`.
-/

namespace Ldiff

open Except (bind_eq_ok ok_bind)
open Sample
open List (mem_of_getElem? replicate)

namespace HashRanges

/-- No range in the heap has a negative counter, and divided ranges are wide. -/
structure Tame (h : HashRanges) : Prop where
  nonneg : ∀ rng ∈ h.heap, 0 ≤ rng.elements
  wide : ∀ rng ∈ h.heap, rng.isDivided = true → Wide h.divideFactor rng.tuple

section Heap

variable {H : Hashing} {sl : List HashedElement} {h h' : HashRanges} {rng : HashRange} {p q : ℕ}
  {f : HashRange → HashRange}

theorem mem_heap_modify (hmem : rng ∈ (h.modify p f).heap) :
    rng ∈ h.heap ∨ ∃ r, h.heap[p]? = some r ∧ rng = f r := by
  obtain ⟨q, hq⟩ := List.getElem?_of_mem hmem
  rw [HashRanges.modify, List.getElem?_modify] at hq
  split at hq
  · next hpq =>
    subst hpq
    obtain ⟨r, hr, rfl⟩ := Option.map_eq_some_iff.mp hq
    exact .inr ⟨r, hr, rfl⟩
  · exact .inl (mem_of_getElem? (by simpa using hq))

theorem Tame.modify (ht : h.Tame) (hf : ∀ r, h.heap[p]? = some r → 0 ≤ (f r).elements ∧
      ((f r).isDivided = true → Wide h.divideFactor (f r).tuple)) : (h.modify p f).Tame := by
  constructor
  · intro rng hrng
    rcases mem_heap_modify hrng with hrng | ⟨r, hr, rfl⟩
    · exact ht.nonneg rng hrng
    · exact (hf r hr).1
  · intro rng hrng
    rcases mem_heap_modify hrng with hrng | ⟨r, hr, rfl⟩
    · exact ht.wide rng hrng
    · exact (hf r hr).2

theorem Tame.alloc (ht : h.Tame) (hnonneg : 0 ≤ rng.elements)
    (hwide : rng.isDivided = true → Wide h.divideFactor rng.tuple) : (h.alloc rng).Tame := by
  constructor
  · intro r hr
    rcases List.mem_append.mp hr with hr | hr
    · exact ht.nonneg r hr
    · exact List.mem_singleton.mp hr ▸ hnonneg
  · intro r hr
    rcases List.mem_append.mp hr with hr | hr
    · exact ht.wide r hr
    · exact List.mem_singleton.mp hr ▸ hwide

theorem Tame.setDirty (ht : h.Tame) : (h.setDirty p).Tame := ⟨ht.nonneg, ht.wide⟩

theorem Tame.unsetDirty (ht : h.Tame) : (h.unsetDirty p).Tame := ⟨ht.nonneg, ht.wide⟩

theorem Tame.unsetParent (ht : h.Tame) (parent : Option ℕ) : (h.unsetParent parent).Tame := by
  cases parent <;> exact ⟨ht.nonneg, ht.wide⟩

theorem Tame.allocDivided {c : RangeTuple} (ht : h.Tame) (hwide : Wide h.divideFactor c) :
    (h.allocDivided p (makeRange H sl c p rng)).Tame := by
  have halloc : (h.alloc { makeRange H sl c p rng with isDivided := true }).Tame :=
    ht.alloc (Int.natCast_nonneg _) fun _ => hwide
  rw [allocDivided_eq]
  exact halloc.unsetDirty.setDirty

end Heap

/-! ## Divisions and ways down -/

section Levels

variable {H : Hashing} {sl : List HashedElement} {h h' : HashRanges} {c d : RangeTuple}
  {rng : HashRange} {m k e p fuel : ℕ} {n : ℤ}

/-- The parts of a range have smaller exponents. -/
theorem exists_exponent_lt {df : ℕ} (hm : 1 ≤ m) (hdf : df = 2 ^ m) (hwide : Wide df c)
    (hk : c.hi - c.lo + 1 = 2 ^ k) (hd : d ∈ genTupleRanges c df) :
    ∃ j < k, d.hi - d.lo + 1 = 2 ^ j := by
  subst hdf
  obtain ⟨hmk, hwidth⟩ := hwide.width_part hm hk hd
  exact ⟨k - m, by omega, hwidth⟩

/-- A division returns. The fuel is the exponent of the number of hashes. -/
theorem makeBottomRanges_total (hord : Ordered H sl) (hm : 1 ≤ m) (hdf : h.divideFactor = 2 ^ m)
    (ht : h.Tame) (hroomy : Roomy h.divideFactor h.compareThreshold sl)
    (hheap : h.heap[p]? = some rng) (hrange : IsRange h.divideFactor rng.tuple)
    (hwide : Wide h.divideFactor rng.tuple) (hk : rng.tuple.hi - rng.tuple.lo + 1 = 2 ^ k)
    (hfuel : k ≤ fuel) : ∃ h', makeBottomRanges H sl fuel h p = .ok h' ∧ h'.Tame := by
  induction fuel generalizing h p rng k with
  | zero =>
    -- one hash is not wide
    obtain rfl := Nat.le_zero.mp hfuel
    have hle := hwide.wide
    have htwo := two_le_two_pow hm
    rw [hk, hdf] at hle
    omega
  | succ fuel ih =>
    rw [makeBottomRanges, get, hheap]
    refine (foldlM_total (fun h₀ : HashRanges => h₀.Tame ∧ h₀.divideFactor = h.divideFactor ∧
      h₀.compareThreshold = h.compareThreshold) (fun h₀ d hd hinv => ?_) ⟨ht, rfl, rfl⟩).imp
      fun h' hok => ⟨hok.1, hok.2.1⟩
    obtain ⟨ht₀, hfactor, hthreshold⟩ := hinv
    dsimp only
    split
    · next hmany =>
      obtain ⟨hranged, hwided⟩ :=
        wide_part_of_roomy hroomy hord hrange hwide hd (hthreshold ▸ hmany)
      obtain ⟨j, hjk, hj⟩ := exists_exponent_lt hm hdf hwide hk hd
      have hroomy₀ : Roomy h₀.divideFactor h₀.compareThreshold sl := by rwa [hfactor, hthreshold]
      rw [← hfactor] at hranged hwided
      obtain ⟨h₁, hok₁, ht₁⟩ := ih (h := h₀.allocDivided p (makeRange H sl d p rng))
        (hfactor.trans hdf) (ht₀.allocDivided hwided) hroomy₀ (getElem?_allocDivided _ _ _) hranged
        hwided hj (by omega)
      obtain ⟨hfactor₁, hthreshold₁⟩ := makeBottomRanges_params hok₁
      exact ⟨h₁, hok₁, ht₁, hfactor₁.trans hfactor, hthreshold₁.trans hthreshold⟩
    · have halloc : (h₀.alloc (makeRange H sl d p rng)).Tame :=
        ht₀.alloc (Int.natCast_nonneg _) fun hdivided => absurd hdivided Bool.false_ne_true
      exact ⟨_, rfl, halloc, hfactor, hthreshold⟩

/-- With few elements in all, no part is divided again. -/
theorem makeBottomRanges_few (hfew : sl.length ≤ h.compareThreshold)
    (hheap : h.heap[p]? = some rng) :
    ∃ h', makeBottomRanges H sl (fuel + 1) h p = .ok h' ∧ rng ∈ h'.heap := by
  rw [makeBottomRanges, get, hheap]
  refine (foldlM_total
    (fun h' : HashRanges => h'.compareThreshold = h.compareThreshold ∧ rng ∈ h'.heap)
    (fun h' c _ hinv => ?_) ⟨rfl, mem_of_getElem? hheap⟩).imp fun _ h' => ⟨h'.1, h'.2.2⟩
  have hle : (within sl c).length ≤ h'.compareThreshold := by
    rw [hinv.1]
    exact ((List.takeWhile_sublist _).trans (List.dropWhile_sublist _)).length_le.trans hfew
  exact ⟨_, if_neg (not_lt.mpr (Int.ofNat_le.mpr hle)), hinv.1, List.mem_append_left _ hinv.2⟩

/-- The way down from a live range reaches a range that is not divided. -/
theorem descend_total (hs : h.Shape) (hm : 1 ≤ m) (hdf : h.divideFactor = 2 ^ m) (hlive : h.Live c)
    (hat : h.At c p rng) (hmem : e ∈ c) (hk : c.hi - c.lo + 1 = 2 ^ k) (hfuel : k < fuel) :
    ∃ h' q, descend e n fuel h p = .ok (h', q) := by
  induction fuel generalizing h c p rng k with
  | zero => omega
  | succ fuel ih =>
    rw [descend, get, hat.heap]
    simp only [ok_bind]
    split
    · next hdivided =>
      obtain ⟨hwide, hparts⟩ := hs.divided c p rng hlive hat hdivided
      have hrouted := routed_of_pow_two hm e
      rw [← hdf] at hrouted
      obtain ⟨hpart, hin⟩ := hwide.bottomTuple_spec hs.factor hmem
        (hrouted c (hs.isRange hlive) hwide hmem)
      obtain ⟨next, sub, hsub, -⟩ := hparts _ hpart
      have hbottom : h.getBottomRange rng e = .ok next := by
        rw [getBottomRange, hs.tuple_eq hat, failIf,
          if_neg (by simpa using (hwide.perRange_pos hs.factor).ne')]
        simp only [lookup, hsub.lookup]
        rfl
      obtain ⟨j, hjk, hj⟩ := exists_exponent_lt hm hdf hwide hk hpart
      have hb := bumped_addElements (n := n) hs hsub.lookup
      have hsublive := hlive.step hat hdivided hpart
      rw [hbottom]
      exact ih (hb.shape hs) hdf (hb.relabel.reach hsublive)
        (hb.counted _ next sub hsublive hsub rfl) hin hj (by omega)
    · exact ⟨h, p, rfl⟩

theorem topTuple_width : topTuple.hi - topTuple.lo + 1 = 2 ^ 64 := by decide

theorem mem_topTuple (he : e < hashes) : e ∈ topTuple :=
  ⟨Nat.zero_le _, Nat.le_sub_one_of_lt he⟩

/-- The way down returns within 64 levels. -/
theorem descend_top_total (hs : h.Shape) (hm : 1 ≤ m) (hdf : h.divideFactor = 2 ^ m)
    (he : e < hashes) (hfuel : 64 < fuel) :
    ∃ h' q c rng, (h.addElements h.topRange n).descend e n fuel h.topRange = .ok (h', q) ∧
      h.LeafAt e c q rng ∧ Bumped h h' n (e ∈ ·) := by
  obtain ⟨top, htop, -⟩ := hs.top
  have hb := bumped_addElements (n := n) hs htop.lookup
  obtain ⟨h', q, hok⟩ := descend_total (hb.shape hs) hm hdf .refl (hb.counted _ _ _ .refl htop rfl)
    (mem_topTuple he) topTuple_width hfuel
  obtain ⟨c, rng, hl⟩ := descend_top_spec hs he (hdf ▸ routed_of_pow_two hm e) hok
  exact ⟨h', q, c, rng, hok, hl⟩

theorem Tame.addElements (ht : h.Tame) (hn : ∀ r, h.heap[p]? = some r → 0 ≤ r.elements + n) :
    (h.addElements p n).Tame :=
  ht.modify fun r hr => ⟨hn r hr, ht.wide r (mem_of_getElem? hr)⟩

/-- The way down changes counters of live ranges around the hash. -/
theorem Tame.descend {q : ℕ} (ht : h.Tame) (hs : h.Shape) (hlive : h.Live c) (hat : h.At c p rng)
    (hmem : e ∈ c) (hrouted : Routed h.divideFactor e)
    (hn : ∀ x q r, h.Live x → h.At x q r → e ∈ x → x < c → 0 ≤ r.elements + n)
    (hok : HashRanges.descend e n fuel h p = .ok (h', q)) : h'.Tame := by
  induction fuel generalizing h c p rng with
  | zero => cases hok
  | succ fuel ih =>
    rw [HashRanges.descend, get, hat.heap] at hok
    simp only [ok_bind] at hok
    split at hok
    · next hdivided =>
      obtain ⟨next, hnext, hok⟩ := bind_eq_ok.mp hok
      obtain ⟨d, hd, hin, hlookup⟩ :=
        getBottomRange_spec hs hlive hat hdivided hmem hrouted hnext
      have hlt := hs.lt_of_mem (hs.divided c p rng hlive hat hdivided).1 hd
      have hdlive : h.Live d := hlive.step hat hdivided hd
      obtain ⟨q', sub, hsub⟩ := hs.exists_at hdlive
      obtain rfl := Option.some.inj (hlookup.symm.trans hsub.lookup)
      have hb := bumped_addElements (n := n) hs hlookup
      refine ih (ht.addElements fun r hr => ?_) (hb.shape hs) (hb.relabel.reach hdlive)
        (hb.counted d next sub hdlive hsub rfl) hin (hb.relabel.divideFactor ▸ hrouted) ?_ hok
      · exact hn d next r hdlive ⟨hlookup, hr⟩ hin hlt
      · -- below the part, the counters are still the old ones
        intro x s r hx hr hex hxd
        obtain ⟨r₀, hr₀, -⟩ := hb.relabel.symm.exists_at hr
        have hx₀ := hb.relabel.symm.reach hx
        obtain ⟨-, rfl⟩ := hr.unique (hb.same x s r₀ hx₀ hr₀ hxd.ne)
        exact hn x s r hx₀ hr₀ hex (hxd.trans hlt)
    · obtain ⟨rfl, -⟩ := Prod.mk.inj (Except.ok.inj hok)
      exact ht

theorem Tame.descend_top {q : ℕ} (ht : h.Tame) (hs : h.Shape) (he : e < hashes)
    (hrouted : Routed h.divideFactor e)
    (hn : ∀ x q r, h.Live x → h.At x q r → e ∈ x → 0 ≤ r.elements + n)
    (hok : (h.addElements h.topRange n).descend e n fuel h.topRange = .ok (h', q)) : h'.Tame := by
  obtain ⟨top, htop, -⟩ := hs.top
  have hb := bumped_addElements (n := n) hs htop.lookup
  have htop' : (h.addElements h.topRange n).Tame :=
    ht.addElements fun r hr => hn _ _ r .refl ⟨htop.lookup, hr⟩ (mem_topTuple he)
  refine htop'.descend (hb.shape hs) .refl (hb.counted _ _ _ .refl htop rfl) (mem_topTuple he)
    hrouted (fun x q r hx hr hex hlt => ?_) hok
  obtain ⟨r₀, hr₀, -⟩ := hb.relabel.symm.exists_at hr
  have hx₀ := hb.relabel.symm.reach hx
  obtain ⟨-, rfl⟩ := hr.unique (hb.same x q r₀ hx₀ hr₀ hlt.ne)
  exact hn x q r hx₀ hr₀ hex

end Levels

/-! ## `addElement` and `removeElement` -/

section Updates

variable {H : Hashing} {sl sl' : List HashedElement} {h : HashRanges} {m e fuel : ℕ}
variable {h' : HashRanges} {p : ℕ}

/-- `addElement` returns if it divides only wide ranges. -/
theorem addElement_total (ht : Sound H sl h) (htame : h.Tame) (hord : Ordered H sl') (hm : 1 ≤ m)
    (hdf : h.divideFactor = 2 ^ m) (he : e < hashes)
    (hwide : ∀ c p rng, h.LeafAt e c p rng → (h.compareThreshold : ℤ) < rng.elements + 1 →
      Wide h.divideFactor c) (hroomy : Roomy h.divideFactor h.compareThreshold sl')
    (hfuel : 64 < fuel) : ∃ h', addElement H sl' fuel h e = .ok h' ∧ h'.Tame := by
  have hs := ht.shape
  have hrouted : Routed h.divideFactor e := hdf ▸ routed_of_pow_two hm e
  obtain ⟨h₁, p, c, rng, hdescend, hl, hb⟩ := descend_top_total (n := 1) hs hm hdf he hfuel
  have htame₁ : h₁.Tame := htame.descend_top hs he hrouted (fun x q r _ hr _ => by
    have hnonneg := htame.nonneg r (mem_of_getElem? hr.heap)
    omega) hdescend
  have hat := hb.counted c p rng hl.live hl.found hl.mem
  have hth : h₁.compareThreshold = h.compareThreshold := hb.relabel.compareThreshold
  rw [addElement_eq hdescend hat.heap, hth]
  split
  · next hmany =>
    -- the leaf is wide, and the number of its hashes is a power of two
    have hwidec := hwide c p rng hl hmany
    have htuple := hs.tuple_eq hl.found
    have hfactor : h₁.divideFactor = h.divideFactor := hb.relabel.divideFactor
    obtain ⟨k, hk, hk64, -⟩ := IsRange.width_pow_two hm (hdf ▸ hs.isRange hl.live)
    have hmark : ((h₁.setDirty p).mark p).Tame := by
      refine htame₁.setDirty.modify fun r hr => ⟨htame₁.nonneg r (mem_of_getElem? hr), ?_⟩
      obtain rfl := Option.some.inj (hr.symm.trans hat.heap)
      intro _
      exact hfactor.symm ▸ htuple.symm ▸ hwidec
    obtain ⟨h₂, hdivide, htame₂⟩ := makeBottomRanges_total (h := (h₁.setDirty p).mark p) hord hm
      (hfactor.trans hdf) hmark (by rw [← hfactor, ← hth] at hroomy; exact hroomy)
      (at_setDirty.mpr hat).mark.heap (by rw [htuple]; exact hfactor.symm ▸ hs.isRange hl.live)
      (by rw [htuple]; exact hfactor.symm ▸ hwidec) (by rw [htuple]; exact hk)
      (hk64.trans hfuel.le)
    rw [hdivide]
    exact ⟨_, rfl, htame₂.unsetParent _⟩
  · exact ⟨_, rfl, htame₁.setDirty.unsetParent _⟩

/-- `removeElement` returns if there is an element with the hash. -/
theorem removeElement_total (ht : Sound H sl h) (htame : h.Tame) (hm : 1 ≤ m)
    (hdf : h.divideFactor = 2 ^ m) (he : e < hashes) (hcount : ∀ c, e ∈ c → 1 ≤ count sl c)
    (hfuel : 64 < fuel) : ∃ h', removeElement fuel h e = .ok h' ∧ h'.Tame := by
  have hs := ht.shape
  have hrouted : Routed h.divideFactor e := hdf ▸ routed_of_pow_two hm e
  obtain ⟨h₁, p, c, rng, hdescend, hl, hb⟩ := descend_top_total (n := -1) hs hm hdf he hfuel
  have htame₁ : h₁.Tame := htame.descend_top hs he hrouted (fun x q r hx hr hex => by
    have hle := ht.count_le x q r hx hr
    have hone := hcount x hex
    omega) hdescend
  have hat := hb.counted c p rng hl.live hl.found hl.mem
  have hne : c ≠ topTuple := by
    -- the top range is divided
    rintro rfl
    obtain ⟨top, htop, -⟩ := hs.top
    obtain ⟨-, rfl⟩ := hl.found.unique htop
    exact absurd (ht.top rng htop) (by simp [hl.leaf])
  obtain ⟨y, q, parent, -, hyat, -, -, hparent⟩ := hs.exists_parent hl.live hne hl.found
  obtain ⟨parent₁, hyat₁, -⟩ := hb.relabel.exists_at hyat
  rw [removeElement, hdescend]
  simp only [ok_bind]
  rw [get, hat.heap]
  simp only [ok_bind, hparent]
  rw [get, hyat₁.heap]
  simp only [ok_bind]
  split
  · refine ⟨_, rfl, ?_⟩
    obtain ⟨hheap, -, hfactor, -⟩ :=
      foldl_forget_frame (h := h₁) (l := genTupleRanges parent₁.tuple h₁.divideFactor)
    have hforget : ((genTupleRanges parent₁.tuple h₁.divideFactor).foldl forget h₁).Tame :=
      ⟨hheap.symm ▸ htame₁.nonneg, by rw [hheap, hfactor]; exact htame₁.wide⟩
    have hmerge := hforget.modify (p := q) (f := fun rng => { rng with isDivided := false })
      fun r hr => ⟨hforget.nonneg r (mem_of_getElem? hr), fun hdivided => by cases hdivided⟩
    exact hmerge.setDirty
  · exact ⟨_, rfl, htame₁.setDirty⟩

/-- New digests and counters. -/
theorem Tame.recalculateHash (htame : h.Tame) (hok : HashRanges.recalculateHash H sl h p = .ok h') :
    h'.Tame := by
  obtain ⟨rng, hrng, hok⟩ := bind_eq_ok.mp hok
  dsimp only at hok
  split at hok
  · obtain ⟨hash, -, hok⟩ := bind_eq_ok.mp hok
    have htame₁ : (h.modify p fun rng => { rng with hash := hash }).Tame :=
      htame.modify fun r hr =>
        ⟨htame.nonneg r (mem_of_getElem? hr), htame.wide r (mem_of_getElem? hr)⟩
    split at hok
    · exact Except.ok.inj hok ▸ htame₁.unsetDirty.setDirty
    · exact Except.ok.inj hok ▸ htame₁.unsetDirty
  · have htame₁ : (h.modify p fun r => { r with
        hash := (calcElementsHash H sl rng.tuple).1
        elements := (calcElementsHash H sl rng.tuple).2 }).Tame :=
      htame.modify fun r hr =>
        ⟨Int.natCast_nonneg _, htame.wide r (mem_of_getElem? hr)⟩
    split at hok
    · exact Except.ok.inj hok ▸ htame₁.unsetDirty.setDirty
    · exact Except.ok.inj hok ▸ htame₁.unsetDirty

/-- Digests do not matter. -/
theorem Tame.recalculateHashes {ord : RangeOrder} (htame : h.Tame)
    (hok : HashRanges.recalculateHashes H sl ord h = .ok h') : h'.Tame :=
  recalculateHashes_invariant Tame (fun _ _ _ ht hstep => ht.recalculateHash hstep) htame hok

/-- Among few elements, the part around a hash is not divided further. -/
theorem Graft.exists_leafAt {c : RangeTuple} {rng : HashRange} (hg : Graft H sl h h' c p rng)
    (hord : Ordered H sl) (hmem : e ∈ c) (hfew : ∀ x, ¬ h.compareThreshold < count sl x) :
    ∃ x ∈ genTupleRanges c h.divideFactor, ∃ q r, h'.LeafAt e x q r := by
  obtain ⟨x, hx, hin⟩ := (tiles_genTupleRanges hg.shape.factor hg.wide).exists_mem hmem.1 hmem.2
  obtain ⟨q, r, hr, -⟩ := hg.divides.parts x hx
  refine ⟨x, hx, q, r, ?_, hr, ?_, hin⟩
  · exact .step (hg.reach .refl hg.live) hg.at_self rfl (hg.divides.frame.divideFactor.symm ▸ hx)
  · rw [Bool.eq_false_iff, Ne, (hg.elements_new hord hx .refl hr).2]
    exact hfew x

end Updates

/-- The ranges are tame, and the loops down from the top range end at a range that is not
divided, for every hash. -/
structure Sane (fuel : ℕ) (h : HashRanges) : Prop extends h.Tame where
  ends : ∀ e < hashes, ∀ n, ∃ h' p rng, h.descend e n fuel h.topRange = .ok (h', p) ∧
    h'.heap[p]? = some rng ∧ rng.isDivided = false

/-- In a tame tree every call returns. -/
theorem Tame.sane {h : HashRanges} {m fuel : ℕ} (ht : h.Tame) (hs : h.Shape) (hm : 1 ≤ m)
    (hdf : h.divideFactor = 2 ^ m) (hfuel : 64 < fuel) : h.Sane fuel := by
  refine ⟨ht, fun e he n => ?_⟩
  obtain ⟨top, htop, -⟩ := hs.top
  obtain ⟨h', p, hok⟩ :=
    descend_total (n := n) hs hm hdf .refl htop (mem_topTuple he) topTuple_width hfuel
  obtain ⟨⟨d, rng, -, hat, hleaf, -⟩, -⟩ :=
    descend_spec hs .refl htop (mem_topTuple he) (hdf ▸ routed_of_pow_two hm e) hok
  exact ⟨h', p, rng, hok, hat.heap, hleaf⟩

end HashRanges

namespace Container

open HashRanges (Tame Sane)

/-! ## Ids that share a hash -/

/-- At most `n` of the ids share a hash. -/
def FewShare (H : Hashing) (n : ℕ) (ids : List GoString) : Prop :=
  ∀ hash, (ids.dedup.countP fun id => H.sum64 id = hash) ≤ n

/-- The ids that the calls set. -/
def setIds (ops : List Op) : List GoString :=
  ops.flatMap fun
    | .set elements _ => elements.map Element.id
    | .removeId _ _ => []

section Share

variable {H : Hashing} {sl : List HashedElement} {ids : List GoString} {m th : ℕ}

/-- The elements with one hash fit into one range. -/
theorem FewShare.count_le (hfew : FewShare H th ids) (hord : Ordered H sl)
    (hids : ∀ x ∈ sl, x.id ∈ ids) (hash : ℕ) : count sl ⟨hash, hash⟩ ≤ th := by
  set hits := (sl.filter fun x => x.hash ∈ (⟨hash, hash⟩ : RangeTuple)).map (·.id) with hhits
  have hnodup : hits.Nodup := by
    refine List.Nodup.map_on (fun x hx y hy hid => ?_) (hord.nodup_keys.of_map.filter _)
    exact hord.eq_of_id (List.mem_of_mem_filter hx) (List.mem_of_mem_filter hy) hid
  have hsub : hits ⊆ ids.dedup.filter fun id => H.sum64 id = hash := by
    intro id hid
    obtain ⟨x, hx, rfl⟩ := List.mem_map.mp hid
    obtain ⟨hx, hmem⟩ := List.mem_filter.mp hx
    obtain ⟨hlo, hhi⟩ := of_decide_eq_true hmem
    have hhash : H.sum64 x.id = hash := by
      rw [← hord.hash x hx]
      exact le_antisymm hhi hlo
    exact List.mem_filter.mpr ⟨List.mem_dedup.mpr (hids x hx), decide_eq_true hhash⟩
  calc count sl ⟨hash, hash⟩ = hits.length := by
        rw [count, List.countP_eq_length_filter, hhits, List.length_map]
    _ ≤ (ids.dedup.filter fun id => H.sum64 id = hash).length := (hnodup.subperm hsub).length_le
    _ = ids.dedup.countP fun id => H.sum64 id = hash := (List.countP_eq_length_filter ..).symm
    _ ≤ th := hfew hash

/-- If `m` divides 64, the divisions end with single hashes. -/
theorem FewShare.roomy (hfew : FewShare H th ids) (hord : Ordered H sl)
    (hids : ∀ x ∈ sl, x.id ∈ ids) (hm : 1 ≤ m) (hdvd : m ∣ 64) : Roomy (2 ^ m) th sl := by
  intro d hd hlt
  rw [hd.wide_iff (two_le_two_pow hm)]
  obtain ⟨k, hk, hk64, hdvdk⟩ := IsRange.width_pow_two hm hd
  rw [hk]
  refine Nat.pow_le_pow_right (by omega) ?_
  by_contra hkm
  have hzero : k = 0 := by
    have hdvd' : m ∣ k := by
      have hsub := Nat.dvd_sub hdvd hdvdk
      rwa [Nat.sub_sub_self hk64] at hsub
    exact Nat.eq_zero_of_dvd_of_lt hdvd' (not_le.mp hkm)
  subst hzero
  have hle := hd.nonempty (two_le_two_pow hm)
  obtain ⟨lo, hi⟩ := d
  obtain rfl : lo = hi := by
    simp only [pow_zero] at hk hle
    omega
  exact absurd (hfew.count_le hord hids lo) (not_le.mpr hlt)

end Share

/-! ## Calls -/

/-- The condition on an element that is set, in the state before it: its id is not empty, the range
that it is added to has at least `divideFactor` hashes if the counter of the range exceeds
`compareThreshold` then, and ranges with fewer hashes hold at most `compareThreshold` elements.
The last condition is met if `m` divides 64. -/
structure AddOk (H : Hashing) (m : ℕ) (d : Container) (e : Element) : Prop where
  id_ne_nil : e.id ≠ []
  wide : ∀ c p rng, d.ranges.LeafAt (H.sum64 e.id) c p rng →
    (d.ranges.compareThreshold : ℤ) < rng.elements + 1 → Wide d.ranges.divideFactor c
  roomy : m ∣ 64 ∨ Roomy d.ranges.divideFactor d.ranges.compareThreshold (d.afterSet H e)

/-- What the calls keep, with the ids that are set in the run. -/
structure Steady (H : Hashing) (m th : ℕ) (ids : List GoString) (d : Container) : Prop
    extends Good H (2 ^ m) th d where
  tame : d.ranges.Tame
  ids : ∀ x ∈ d.sl, x.id ∈ ids

section Calls

variable {H : Hashing} {m th fuel : ℕ} {ids : List GoString} {d : Container} {e : Element}
  {id : GoString}

theorem Steady.sane (hd : Steady H m th ids d) (hm : 1 ≤ m) (hfuel : 64 < fuel) :
    d.ranges.Sane fuel :=
  hd.tame.sane hd.sound.shape hm hd.divideFactor hfuel

/-- One element of a call of `Set`. -/
theorem Steady.setElement (hd : Steady H m th ids d) (hm : 1 ≤ m) (hfew : FewShare H th ids)
    (hok : AddOk H m d e) (hid : e.id ∈ ids) (hfuel : 64 < fuel) :
    ∃ d', d.setElement H fuel e = .ok d' ∧ Steady H m th ids d' := by
  have hord : Ordered H (d.afterSet H e) := hd.ordered.update rfl hok.id_ne_nil
  have hids : ∀ x ∈ d.afterSet H e, x.id ∈ ids := by
    intro x hx
    rcases mem_slSet.mp hx with rfl | hx
    · exact hid
    · exact hd.ids x (mem_slRemove.mp hx).1
  have hroomy : Roomy d.ranges.divideFactor d.ranges.compareThreshold (d.afterSet H e) := by
    rcases hok.roomy with hdvd | hroomy
    · rw [hd.divideFactor, hd.compareThreshold]
      exact hfew.roomy hord hids hm hdvd
    · exact hroomy
  obtain ⟨h', hadd, htame⟩ := HashRanges.addElement_total hd.sound hd.tame hord hm hd.divideFactor
    (H.sum64_lt e.id) hok.wide hroomy hfuel
  have hset : d.setElement H fuel e = .ok { sl := d.afterSet H e, ranges := h' } := by
    rw [Container.setElement]
    exact bind_eq_ok.mpr ⟨h', hadd, rfl⟩
  refine ⟨_, hset, ?_, htame, hids⟩
  have hrouted : Routed d.ranges.divideFactor (H.sum64 e.id) :=
    hd.divideFactor.symm ▸ routed_of_pow_two hm _
  exact hd.toGood.setElement ⟨hok.id_ne_nil, hrouted, hok.wide, hroomy⟩ hset

/-- `recalculateHashes` returns with an empty dirty set. -/
theorem Steady.recalculate (hd : Steady H m th ids d) (ord : RangeOrder) :
    ∃ d', d.recalculate H ord = .ok d' ∧ Steady H m th ids d' ∧ d'.ranges.dirty = [] := by
  obtain ⟨d', hok, hsettled, hsl⟩ := hd.toGood.recalculate ord
  obtain ⟨h', hrecalculate, hd'⟩ := bind_eq_ok.mp hok
  obtain rfl := Except.ok.inj hd'
  exact ⟨_, hok, ⟨hsettled.toGood, hd.tame.recalculateHashes hrecalculate, hd.ids⟩, hsettled.clean⟩

/-- After an element is set, before the digests are computed. -/
abbrev SetSane (H : Hashing) (fuel : ℕ) (d : Container) (e : Element) : Prop :=
  ∃ d', d.setElement H fuel e = .ok d' ∧ d'.ranges.Sane fuel

/-- After an element is removed, before the digests are computed. -/
abbrev RemoveSane (H : Hashing) (fuel : ℕ) (d : Container) (id : GoString) : Prop :=
  (∃ x ∈ d.sl, x.id = id) →
    ∃ h', d.ranges.removeElement fuel (H.sum64 id) = .ok h' ∧ h'.Sane fuel

/-- The call returns with an empty dirty set, and the ranges are sane at its end and after each
change that it makes on the way. -/
structure Finishes (H : Hashing) (fuel : ℕ) (d : Container) (op : Op) : Prop where
  returns : ∃ d', d.apply H fuel op = .ok d' ∧ d'.ranges.Sane fuel ∧ d'.ranges.dirty = []
  steps : StepOk H fuel (SetSane H fuel) (RemoveSane H fuel) d op

/-- A whole call of `Set` returns. -/
theorem Steady.set {elements : List Element} (ord : RangeOrder) (hd : Steady H m th ids d)
    (hm : 1 ≤ m) (hfew : FewShare H th ids) (hfuel : 64 < fuel) (hids : ∀ e ∈ elements, e.id ∈ ids)
    (hok : ∀ x ∈ runTrace (Container.setElement H fuel) d elements, AddOk H m x.1 x.2) :
    (∃ d', d.set H fuel elements ord = .ok d' ∧ Steady H m th ids d' ∧ d'.ranges.dirty = []) ∧
      ∀ x ∈ runTrace (Container.setElement H fuel) d elements, SetSane H fuel x.1 x.2 := by
  have hboth : ∀ x ∈ runTrace (Container.setElement H fuel) d elements,
      AddOk H m x.1 x.2 ∧ x.2.id ∈ ids :=
    fun x hx => ⟨hok x hx, hids _ (mem_of_mem_runTrace hx)⟩
  obtain ⟨⟨d₁, hfold, hd₁⟩, htrace⟩ := foldlM_total_of_trace (Steady H m th ids)
    (fun x => AddOk H m x.1 x.2 ∧ x.2.id ∈ ids)
    (fun d e hd hok => hd.setElement hm hfew hok.1 hok.2 hfuel) hd hboth
  constructor
  · obtain ⟨d₂, hrecalculate, hd₂⟩ := hd₁.recalculate ord
    exact ⟨d₂, bind_eq_ok.mpr ⟨d₁, hfold, hrecalculate⟩, hd₂⟩
  · intro x hx
    obtain ⟨d', hset, hd'⟩ :=
      (htrace x hx).setElement hm hfew (hboth x hx).1 (hboth x hx).2 hfuel
    exact ⟨d', hset, hd'.sane hm hfuel⟩

/-- An element with the id is counted in every range around the hash of the id. -/
theorem one_le_count {sl : List HashedElement} {x : HashedElement} {c : RangeTuple} (hx : x ∈ sl)
    (hmem : x.hash ∈ c) : 1 ≤ count sl c :=
  List.countP_pos_iff.mpr ⟨x, hx, decide_eq_true hmem⟩

/-- A call of `RemoveId` returns. -/
theorem Steady.removeId (ord : RangeOrder) (hd : Steady H m th ids d) (hclean : d.ranges.dirty = [])
    (hm : 1 ≤ m) (hfuel : 64 < fuel) :
    (∃ d', d.removeId H fuel id ord = .ok d' ∧ Steady H m th ids d' ∧ d'.ranges.dirty = []) ∧
      RemoveSane H fuel d id := by
  set el : HashedElement := { id := id, head := [], hash := H.sum64 id } with hel
  by_cases hmem : ∃ x ∈ d.sl, x.id = el.id
  · obtain ⟨x, hx, hid⟩ := hmem
    have hhash : x.hash = H.sum64 id := (hd.ordered.hash x hx).trans (congrArg H.sum64 hid)
    have hrouted : Routed d.ranges.divideFactor (H.sum64 id) :=
      hd.divideFactor.symm ▸ routed_of_pow_two hm _
    obtain ⟨h', hremove, htame⟩ := HashRanges.removeElement_total hd.sound hd.tame hm
      hd.divideFactor (H.sum64_lt id) (fun c hc => one_le_count hx (hhash.symm ▸ hc)) hfuel
    have hgood := Settled.good_removed ⟨hd.toGood, hclean⟩ hrouted
      (hd.ordered.edit_remove rfl ⟨x, hx, hid⟩) hremove
    have hsteady : Steady H m th ids { sl := slRemove d.sl el, ranges := h' } :=
      ⟨hgood, htame, fun y hy => hd.ids y (mem_slRemove.mp hy).1⟩
    refine ⟨?_, fun _ => ⟨h', hremove, hsteady.sane hm hfuel⟩⟩
    obtain ⟨d', hrecalculate, hd'⟩ := hsteady.recalculate ord
    refine ⟨d', ?_, hd'⟩
    have hall : ¬ (d.sl.all fun x => compare x el ≠ .eq) = true := by
      rw [all_ne_iff, not_not]
      exact ⟨x, hx, hid⟩
    unfold Container.removeId
    simp only
    rw [← hel, if_neg hall]
    exact bind_eq_ok.mpr ⟨h', hremove, hrecalculate⟩
  · refine ⟨⟨d, ?_, hd, hclean⟩, fun hex => absurd hex hmem⟩
    unfold Container.removeId
    simp only
    rw [← hel, if_pos (all_ne_iff.mpr hmem)]

/-- Every call finishes. -/
theorem Steady.finishes {op : Op} (hd : Steady H m th ids d) (hclean : d.ranges.dirty = [])
    (hm : 1 ≤ m) (hfew : FewShare H th ids) (hfuel : 64 < fuel)
    (hids : ∀ id ∈ setIds [op], id ∈ ids) (hok : d.StepOk H fuel (AddOk H m) (fun _ _ => True) op) :
    (∃ d', d.apply H fuel op = .ok d' ∧ Steady H m th ids d' ∧ d'.ranges.dirty = []) ∧
      Finishes H fuel d op := by
  cases op with
  | set elements ord =>
    have hmem : ∀ e ∈ elements, e.id ∈ ids :=
      fun e he => hids _ (by simpa [setIds] using ⟨e, he, rfl⟩)
    obtain ⟨⟨d', hset, hd', hclean'⟩, hsteps⟩ := hd.set ord hm hfew hfuel hmem hok
    exact ⟨⟨d', hset, hd', hclean'⟩, ⟨d', hset, hd'.sane hm hfuel, hclean'⟩, hsteps⟩
  | removeId id ord =>
    obtain ⟨⟨d', hremove, hd', hclean'⟩, hstep⟩ := hd.removeId ord hclean hm hfuel
    exact ⟨⟨d', hremove, hd', hclean'⟩, ⟨d', hremove, hd'.sane hm hfuel, hclean'⟩, hstep⟩

/-- A new tree can be made. -/
theorem newHashRanges_total (H : Hashing) (th : ℕ) (hm : 1 ≤ m) (hle : m ≤ 64) (hfuel : 64 < fuel) :
    ∃ h, HashRanges.newHashRanges H [] fuel (2 ^ m) th = .ok h ∧ h.Tame := by
  have hwide : Wide (2 ^ m) topTuple := wide_topTuple (Nat.pow_le_pow_right (by omega) hle)
  let top : HashRange := { topRange with isDivided := true }
  have htop : ({ bareTop (2 ^ m) th with heap := [top] } : HashRanges).Tame := by
    constructor
    · simp [top, topRange]
    · intro rng hrng _
      obtain rfl := List.mem_singleton.mp hrng
      exact hwide
  have hheap : ({ bareTop (2 ^ m) th with heap := [top] } : HashRanges).heap[0]? = some top := rfl
  exact HashRanges.makeBottomRanges_total ordered_nil hm rfl htop
    (fun d _ hlt => absurd hlt (Nat.not_lt_zero _)) hheap .top hwide HashRanges.topTuple_width
    hfuel.le

/-- A new container can be made. -/
theorem new_total (H : Hashing) (ids : List GoString) (compareThreshold : ℤ) (ord : RangeOrder)
    (hm : 1 ≤ m) (hle : m ≤ 64) (hfuel : 64 < fuel) :
    ∃ d, new H fuel (2 ^ m) compareThreshold ord = .ok d ∧
      Steady H m (if compareThreshold < 1 then 1 else compareThreshold.toNat) ids d ∧
      d.ranges.dirty = [] := by
  have hdf : (if (2 ^ m : ℤ) < 2 then 2 else (2 ^ m : ℤ).toNat) = 2 ^ m :=
    (clamp_pow_two rfl).trans (by rw [max_eq_left hm])
  have hhashes : (2 ^ m : ℤ) ≤ hashes := by
    exact_mod_cast Nat.pow_le_pow_right (show 0 < 2 by omega) hle
  obtain ⟨h, hnew, htame⟩ := newHashRanges_total H
    (if compareThreshold < 1 then 1 else compareThreshold.toNat) hm hle hfuel
  have hsound := sound_new (two_le_two_pow hm) (Nat.pow_le_pow_right (by omega) hle) hnew
  obtain ⟨h', hrecalculate, -⟩ := HashRanges.recalculateHashes_spec ordered_nil ord hsound
  have hok : new H fuel (2 ^ m) compareThreshold ord = .ok { sl := [], ranges := h' } := by
    unfold new
    rw [hdf]
    exact bind_eq_ok.mpr ⟨h, hnew, bind_eq_ok.mpr ⟨h', hrecalculate, rfl⟩⟩
  have hsettled := new_settled hhashes hok
  rw [hdf] at hsettled
  exact ⟨_, hok, ⟨hsettled.toGood, htame.setDirty.recalculateHashes hrecalculate,
    fun x hx => absurd hx List.not_mem_nil⟩, hsettled.clean⟩

end Calls

/-- Every call of a run finishes if its elements meet the condition, for a power of two as
`divideFactor` and ids of which at most `compareThreshold` share a hash. -/
theorem run_finishes {H : Hashing} {m fuel : ℕ} {compareThreshold : ℤ} {ord : RangeOrder}
    {ops : List Op} (hm : 1 ≤ m) (hle : m < 63)
    (hfew : FewShare H compareThreshold.toNat (setIds ops)) (hfuel : 64 < fuel)
    (hok : ∀ x ∈ trace H fuel (2 ^ m) compareThreshold ord ops,
      x.1.StepOk H fuel (AddOk H m) (fun _ _ => True) x.2) :
    (∃ d, run H fuel (2 ^ m) compareThreshold ord ops = .ok d ∧ d.ranges.Sane fuel ∧
        d.ranges.dirty = []) ∧
      ∀ x ∈ trace H fuel (2 ^ m) compareThreshold ord ops, Finishes H fuel x.1 x.2 := by
  obtain ⟨d, hnew, hd, hclean⟩ :=
    new_total H (setIds ops) compareThreshold ord hm (by omega) hfuel
  set th := if compareThreshold < 1 then 1 else compareThreshold.toNat with hth
  have hfew' : FewShare H th (setIds ops) := by
    refine fun hash => (hfew hash).trans ?_
    rw [hth]
    split <;> omega
  have hids : ∀ op ∈ ops, ∀ id ∈ setIds [op], id ∈ setIds ops := by
    intro op hop id hid
    rw [setIds, List.flatMap_singleton] at hid
    exact List.mem_flatMap.mpr ⟨op, hop, hid⟩
  rw [trace, hnew] at hok ⊢
  dsimp only at hok ⊢
  have hboth : ∀ x ∈ runTrace (apply H fuel) d ops,
      x.1.StepOk H fuel (AddOk H m) (fun _ _ => True) x.2 ∧ x.2 ∈ ops :=
    fun x hx => ⟨hok x hx, mem_of_mem_runTrace hx⟩
  -- every container on the way is steady, so every call returns
  obtain ⟨⟨d', hfold, hd', hclean'⟩, htrace⟩ := foldlM_total_of_trace
    (fun d => Steady H m th (setIds ops) d ∧ d.ranges.dirty = [])
    (fun x => x.1.StepOk H fuel (AddOk H m) (fun _ _ => True) x.2 ∧ x.2 ∈ ops)
    (fun d op hd hop =>
      (hd.1.finishes hd.2 hm hfew' hfuel (hids op hop.2) hop.1).1) ⟨hd, hclean⟩ hboth
  refine ⟨⟨d', ?_, hd'.sane hm hfuel, hclean'⟩, fun x hx => ?_⟩
  · exact bind_eq_ok.mpr ⟨d, hnew, hfold⟩
  · obtain ⟨hx₁, hx₂⟩ := htrace x hx
    exact (hx₁.finishes hx₂ hm hfew' hfuel (hids x.2 (hboth x hx).2) (hok x hx)).2

end Container

/-- What keeps the digests up to date keeps the calls from running for ever. -/
theorem Container.SetOk.addOk {H : Hashing} {d : Container} {e : Element} (hok : SetOk H d e)
    (m : ℕ) : AddOk H m d e :=
  ⟨hok.id_ne_nil, hok.wide, .inr hok.roomy⟩

/-- Two elements in one call, and the removal of one of them. -/
theorem run_finishes_twoElements :
    ∃ d, Container.run hashing 70 (2 ^ 1) 1 .listed
        [.set [elementA, elementC] .listed, .removeId [99] .listed] = .ok d ∧
      d.ranges.Sane 70 ∧ d.ranges.dirty = [] := by
  refine (Container.run_finishes (by decide) (by decide) (fun hash => ?_) (by decide) ?_).1
  · have hids : (Container.setIds [.set [elementA, elementC] .listed,
        .removeId [99] .listed]).dedup = [[97], [99]] := by decide
    rw [hids]
    by_cases hhash : hashing.sum64 [97] = hash
    · subst hhash
      decide +kernel
    · simpa [List.countP_cons, hhash] using by split <;> decide
  · have hcheck : ∀ x ∈ Container.trace hashing 70 2 1 .listed
        [.set [elementA, elementC] .listed, .removeId [99] .listed],
        x.1.StepOk hashing 70 (Container.SetCheck hashing 1)
          (fun _ _ => True) x.2 := by
      decide +kernel
    exact fun x hx =>
      (hcheck x hx).imp (fun _ _ hset => hset.setOk.addOk 1) fun _ _ _ => trivial

namespace Container

/-- The element is the only one, and the range around its hash has `2 ^ n` hashes. -/
structure Alone (H : Hashing) (e : Element) (n : ℕ) (d : Container) : Prop
    extends Steady H 1 1 [e.id] d where
  id_ne_nil : e.id ≠ []
  sl : d.sl = [hashed H e]
  width : ∀ c p rng, d.ranges.LeafAt (H.sum64 e.id) c p rng → c.hi - c.lo + 1 = 2 ^ n

section Alone

open HashRanges

variable {H : Hashing} {e : Element} {d : Container} {n p fuel : ℕ} {c : RangeTuple}
  {rng : HashRange}

theorem Alone.afterSet_eq (hd : Alone H e n d) : d.afterSet H e = [hashed H e] := by
  rw [afterSet, hd.sl]
  simp [slRemove, slSet, compare_eq_eq]

/-- The counter of the range is at the limit. -/
theorem Alone.lt_elements (hd : Alone H e n d) (hl : d.ranges.LeafAt (H.sum64 e.id) c p rng) :
    (d.ranges.compareThreshold : ℤ) < rng.elements + 1 := by
  have hle := hd.sound.count_le c p rng hl.live hl.found
  have hone : 1 ≤ count d.sl c := one_le_count (hd.sl ▸ List.mem_singleton_self _) hl.mem
  rw [hd.compareThreshold]
  omega

theorem fewShare_singleton (id : GoString) : FewShare H 1 [id] := fun _ => List.countP_le_length

/-- The element is set again, and the range is divided. -/
theorem Alone.setElement (hd : Alone H e (n + 1) d) (hfuel : 64 < fuel) :
    ∃ d', d.setElement H fuel e = .ok d' ∧ Alone H e n d' := by
  have hs := hd.sound.shape
  have hwide : ∀ c p rng, d.ranges.LeafAt (H.sum64 e.id) c p rng →
      (d.ranges.compareThreshold : ℤ) < rng.elements + 1 → Wide d.ranges.divideFactor c := by
    intro c p rng hl _
    rw [(hs.isRange hl.live).wide_iff hs.factor, hd.width c p rng hl, hd.divideFactor]
    exact Nat.pow_le_pow_right Nat.two_pos (by omega)
  obtain ⟨d', hset, hd'⟩ := hd.toSteady.setElement le_rfl (fewShare_singleton _)
    ⟨hd.id_ne_nil, hwide, .inl (one_dvd _)⟩ (List.mem_singleton_self _) hfuel
  obtain ⟨h', hadd, rfl⟩ : ∃ h',
      d.ranges.addElement H (d.afterSet H e) fuel (H.sum64 e.id) = .ok h' ∧
        d' = ⟨d.afterSet H e, h'⟩ := by
    obtain ⟨h', hadd, hok⟩ := bind_eq_ok.mp hset
    exact ⟨h', hadd, (Except.ok.inj hok).symm⟩
  refine ⟨_, hset, hd', hd.id_ne_nil, hd.afterSet_eq, fun c' p' rng' hl' => ?_⟩
  obtain ⟨c, p, rng, h₁, h₂, hl, hb, rfl, hcases⟩ := addElement_cases hs
    (H.sum64_lt _) (hd.divideFactor.symm ▸ routed_of_pow_two le_rfl _) hadd
  have hmany := hd.lt_elements hl
  have hdivide := (hcases.resolve_left fun hfew => absurd hfew.1 (not_le.mpr hmany)).2
  have hcount : ∀ x, ¬ d.ranges.compareThreshold < count (d.afterSet H e) x := by
    rw [hd.afterSet_eq, hd.compareThreshold]
    exact fun x => not_lt.mpr List.countP_le_length
  have hwidec := hwide c p rng hl hmany
  have hg := graft_of_makeBottomRanges hs hd'.ordered hl hb hwidec
    (fun x _ hlt => absurd hlt (hcount x)) hdivide
  have hrelabel : Relabel d.ranges (h₁.setDirty p) := hb.relabel.trans Relabel.setDirty
  obtain ⟨x, hx, q, r, hlx⟩ :=
    hg.exists_leafAt hd'.ordered hl.mem (hrelabel.compareThreshold.symm ▸ hcount)
  obtain rfl := hl'.eq hd'.sound.shape ⟨(relabel_unsetParent _).reach hlx.live,
    at_unsetParent.mpr hlx.found, hlx.leaf, hlx.mem⟩
  rw [hd.divideFactor] at hwidec
  rw [hrelabel.divideFactor, hd.divideFactor] at hx
  exact (hwidec.width_part le_rfl (hd.width c p rng hl) hx).2

/-- A range of one hash is divided all the same. -/
theorem Alone.setElement_narrow (hd : Alone H e 0 d) (hfuel : 64 < fuel) :
    ∃ d', d.setElement H fuel e = .ok d' ∧
      ∃ rng ∈ d'.ranges.heap, rng.isDivided = true ∧ rng.tuple.lo = rng.tuple.hi := by
  have hs := hd.sound.shape
  obtain ⟨h₁, p, c, rng, hdescend, hl, hb⟩ :=
    descend_top_total (n := 1) hs le_rfl hd.divideFactor (H.sum64_lt e.id) hfuel
  have hat := hb.counted c p rng hl.live hl.found hl.mem
  have hth : h₁.compareThreshold = d.ranges.compareThreshold := hb.relabel.compareThreshold
  obtain ⟨k, rfl⟩ := Nat.exists_eq_add_of_lt hfuel
  obtain ⟨h₂, hdivide, hmem⟩ : ∃ h₂, makeBottomRanges H (d.afterSet H e) (64 + k + 1)
      ((h₁.setDirty p).mark p) p = .ok h₂ ∧ _ ∈ h₂.heap :=
    makeBottomRanges_few (by rw [hd.afterSet_eq]; exact (hth.trans hd.compareThreshold).ge)
      (at_setDirty.mpr hat).mark.heap
  have hadd : d.ranges.addElement H (d.afterSet H e) (64 + k + 1) (H.sum64 e.id)
      = .ok (h₂.unsetParent rng.parent) := by
    rw [addElement_eq hdescend hat.heap, hth, if_pos (hd.lt_elements hl), hdivide]
    rfl
  have hheap : (h₂.unsetParent rng.parent).heap = h₂.heap := by cases rng.parent <;> rfl
  refine ⟨_, bind_eq_ok.mpr ⟨_, hadd, rfl⟩, _, hheap.symm ▸ hmem, rfl, ?_⟩
  have hle := (hs.isRange hl.live).nonempty hs.factor
  have hwidth := hd.width c p rng hl
  rw [hs.tuple_eq hl.found]
  omega

/-- The element is set again and again. -/
theorem Alone.foldlM (hd : Alone H e n d) (hfuel : 64 < fuel) :
    ∃ d', (replicate n e).foldlM (Container.setElement H fuel) d = .ok d' ∧
      Alone H e 0 d' := by
  induction n generalizing d with
  | zero => exact ⟨d, rfl, hd⟩
  | succ n ih =>
    obtain ⟨d₁, hset, hd₁⟩ := hd.setElement hfuel
    obtain ⟨d', hrun, hd'⟩ := ih hd₁
    exact ⟨d', foldlM_cons_eq_ok.mpr ⟨d₁, hset, hrun⟩, hd'⟩

end Alone

end Container

/-- One id that is set 65 times. From the second time on its range is divided, and in the end it is
the range of a single hash. -/
theorem run_divides_narrow :
    let elements := replicate 65 elementA
    Container.FewShare hashing 1 (Container.setIds [.set elements .listed]) ∧
      ∃ d₀ d, Container.new hashing 70 2 1 .listed = .ok d₀ ∧
        elements.foldlM (Container.setElement hashing 70) d₀ = .ok d ∧
        ∃ rng ∈ d.ranges.heap, rng.isDivided = true ∧ rng.tuple.lo = rng.tuple.hi := by
  intro elements
  constructor
  · intro hash
    have hids : (Container.setIds [.set elements .listed]).dedup = [[97]] := by decide
    rw [hids]
    exact List.countP_le_length
  · obtain ⟨d₀, hnew, hd₀, -⟩ := Container.new_total hashing [[97]] 1 .listed
      (m := 1) le_rfl (by decide) (show 64 < 70 by decide)
    replace hnew : Container.new hashing 70 2 1 .listed = .ok d₀ := hnew
    -- the first call finds empty ranges, and only counts
    have hcheck : ((Container.new hashing 70 2 1 .listed).toOption.all fun d =>
        decide (Container.SetCheck hashing 1 d elementA) &&
        (d.setElement hashing 70 elementA).toOption.all fun d =>
          d.sl == [Container.hashed hashing elementA] &&
          d.ranges.heap.all fun rng =>
            rng.isDivided || rng.tuple.hi - rng.tuple.lo + 1 == 2 ^ 63) = true := by
      decide +kernel
    rw [hnew] at hcheck
    obtain ⟨hok, hcheck⟩ := (Bool.and_eq_true _ _).mp hcheck
    obtain ⟨d₁, hset, hd₁⟩ := hd₀.setElement le_rfl (Container.fewShare_singleton _)
      ((of_decide_eq_true hok).setOk.addOk 1) (List.mem_singleton_self _) (show 64 < 70 by decide)
    rw [hset] at hcheck
    obtain ⟨hsl, hwidth⟩ := (Bool.and_eq_true _ _).mp hcheck
    have halone : Container.Alone hashing elementA 63 d₁ := by
      refine ⟨hd₁, by decide, eq_of_beq hsl, fun c p rng hl => ?_⟩
      have hrng := List.all_eq_true.mp hwidth rng (mem_of_getElem? hl.found.heap)
      rw [hl.leaf, hd₁.sound.shape.tuple_eq hl.found] at hrng
      exact eq_of_beq hrng
    obtain ⟨d₂, hrun, hd₂⟩ := halone.foldlM (show 64 < 70 by decide)
    obtain ⟨d, hlast, hnarrow⟩ := hd₂.setElement_narrow (show 64 < 70 by decide)
    have hsplit : elements
        = elementA :: (replicate 63 elementA ++ [elementA]) := rfl
    refine ⟨d₀, d, hnew, hsplit ▸ foldlM_cons_eq_ok.mpr ⟨d₁, hset, ?_⟩, hnarrow⟩
    rw [List.foldlM_append, hrun]
    exact foldlM_cons_eq_ok.mpr ⟨d, hlast, rfl⟩

end Ldiff
