import AnySync.Ldiff.Fresh

/-!
# Updates of the tree

`addElement` and `removeElement` keep what `recalculateHashes` relies on.

They consist of few changes of the tree, one for the way down to the range around a hash
(`descend_spec`), and one for each way to go on there (`addElement_cases`, `removeElement_cases`).
-/

namespace Ldiff

open Except (bind_eq_ok ok_bind)

namespace HashRanges

/-- The counters of the live ranges with `P` grew by `n`. -/
structure Bumped (h h' : HashRanges) (n : ℤ) (P : RangeTuple → Prop) : Prop where
  relabel : Relabel h h'
  dirty : h'.dirty = h.dirty
  counted : ∀ x q r, h.Live x → h.At x q r → P x → h'.At x q { r with elements := r.elements + n }
  same : ∀ x q r, h.Live x → h.At x q r → ¬ P x → h'.At x q r

/-- The live range around a hash that is not divided. -/
structure LeafAt (h : HashRanges) (e : ℕ) (c : RangeTuple) (p : ℕ) (rng : HashRange) : Prop where
  live : h.Live c
  found : h.At c p rng
  leaf : rng.isDivided = false
  mem : e ∈ c

section Descend

variable {h h' h'' : HashRanges} {n : ℤ} {P Q : RangeTuple → Prop} {c : RangeTuple} {p q e : ℕ}
  {rng : HashRange}

/-- Counters do not matter to the shape of the tree. -/
theorem Bumped.shape (hb : Bumped h h' n P) (hs : h.Shape) : h'.Shape :=
  hb.relabel.shape hs fun p hp => hs.dirty p (hb.dirty ▸ hp)

/-- Two changes of counters, of different ranges. -/
theorem Bumped.trans (hb : Bumped h h' n P) (hb' : Bumped h' h'' n Q)
    (hdisjoint : ∀ x, P x → ¬ Q x) : Bumped h h'' n fun x => P x ∨ Q x where
  relabel := hb.relabel.trans hb'.relabel
  dirty := hb'.dirty.trans hb.dirty
  counted x q r hx hr hPQ := by
    have hx' := hb.relabel.reach hx
    by_cases hP : P x
    · exact hb'.same x q _ hx' (hb.counted x q r hx hr hP) (hdisjoint x hP)
    · exact hb'.counted x q r hx' (hb.same x q r hx hr hP) (hPQ.resolve_left hP)
  same x q r hx hr hPQ := by
    rw [not_or] at hPQ
    exact hb'.same x q r (hb.relabel.reach hx) (hb.same x q r hx hr hPQ.1) hPQ.2

theorem Bumped.congr (hb : Bumped h h' n P) (hPQ : ∀ x, h.Live x → (P x ↔ Q x)) : Bumped h h' n Q :=
  { hb with
    counted := fun x q r hx hr hQ => hb.counted x q r hx hr ((hPQ x hx).mpr hQ)
    same := fun x q r hx hr hQ => hb.same x q r hx hr fun hP => hQ ((hPQ x hx).mp hP) }

theorem bumped_refl : Bumped h h n fun _ => False where
  relabel := .refl h
  dirty := rfl
  counted _ _ _ _ _ hP := hP.elim
  same _ _ _ _ hr _ := hr

theorem At.addElements (hat : h.At c q rng) : (h.addElements p n).At c q
    (if p = q then { rng with elements := rng.elements + n } else rng) :=
  hat.modify

theorem bumped_addElements (hs : h.Shape) (hlookup : h.ranges.lookup c = some p) :
    Bumped h (h.addElements p n) n fun x => x = c where
  relabel := .addElements
  dirty := rfl
  counted x q r _ hr hx := by
    subst hx
    obtain rfl := Option.some.inj (hlookup.symm.trans hr.lookup)
    simpa using hr.addElements (p := p) (n := n)
  same x q r _ hr hx := by
    have hpq : p ≠ q := by
      rintro rfl
      exact hx (hs.eq_of_lookup hr.lookup hlookup)
    simpa [hpq] using hr.addElements (p := p) (n := n)

/-- `getBottomRange` finds the part of a live divided range around a hash. -/
theorem getBottomRange_spec (hs : h.Shape) (hlive : h.Live c) (hat : h.At c p rng)
    (hdivided : rng.isDivided = true) (hmem : e ∈ c) (hrouted : Routed h.divideFactor e)
    (hok : h.getBottomRange rng e = .ok q) :
    ∃ d ∈ genTupleRanges c h.divideFactor, e ∈ d ∧ h.ranges.lookup d = some q := by
  have hwide := (hs.divided c p rng hlive hat hdivided).1
  obtain ⟨hpart, hin⟩ := hwide.bottomTuple_spec hs.factor hmem
    (hrouted c (hs.isRange hlive) hwide hmem)
  refine ⟨_, hpart, hin, ?_⟩
  rw [getBottomRange, hs.tuple_eq hat, bind_eq_ok] at hok
  obtain ⟨-, -, hlookup⟩ := hok
  unfold lookup at hlookup
  split at hlookup
  · next p' hp' =>
    obtain rfl := Except.ok.inj hlookup
    exact hp'
  · cases hlookup

/-- The way down from a live range around the hash. -/
theorem descend_spec {fuel : ℕ} (hs : h.Shape) (hlive : h.Live c) (hat : h.At c p rng)
    (hmem : e ∈ c) (hrouted : Routed h.divideFactor e) (hok : descend e n fuel h p = .ok (h', q)) :
    (∃ d r, h'.Live d ∧ h'.At d q r ∧ r.isDivided = false ∧ e ∈ d) ∧
      Bumped h h' n fun x => e ∈ x ∧ x < c := by
  induction fuel generalizing h c p rng with
  | zero => cases hok
  | succ fuel ih =>
    rw [descend, get, hat.heap, bind_eq_ok] at hok
    obtain ⟨rng', hrng', hok⟩ := hok
    obtain rfl := Except.ok.inj hrng'
    split at hok
    · next hdivided =>
      obtain ⟨next, hnext, hok⟩ := bind_eq_ok.mp hok
      obtain ⟨d, hd, hin, hlookup⟩ :=
        getBottomRange_spec hs hlive hat hdivided hmem hrouted hnext
      have hlt := hs.lt_of_mem (hs.divided c p rng hlive hat hdivided).1 hd
      have hdlive : h.Live d := hlive.step hat hdivided hd
      have hb := bumped_addElements (n := n) hs hlookup
      obtain ⟨q', sub, hsub⟩ := hs.exists_at hdlive
      obtain rfl := Option.some.inj (hlookup.symm.trans hsub.lookup)
      obtain ⟨hleaf, hb'⟩ := ih (hb.shape hs) (hb.relabel.reach hdlive)
        (hb.counted d next sub hdlive hsub rfl) hin (hb.relabel.divideFactor ▸ hrouted) hok
      refine ⟨hleaf, (hb.trans hb' ?_).congr fun x hx => ⟨?_, fun hxc => ?_⟩⟩
      · rintro x rfl hxd
        exact lt_irrefl _ hxd.2
      · rintro (rfl | hxd)
        · exact ⟨hin, hlt⟩
        · exact ⟨hxd.1, hxd.2.trans hlt⟩
      · -- the ranges around the hash below `c` are the part and those below the part
        have hle := hs.le_part hlive hat hdivided hx hxc.2 hd hin hxc.1
        rcases hle.lt_or_eq with hxd | hxd
        · exact .inr ⟨hxc.1, hxd⟩
        · exact .inl hxd
    · next hdivided =>
      obtain ⟨rfl, rfl⟩ := Prod.mk.inj (Except.ok.inj hok)
      have hleaf : rng.isDivided = false := by simpa using hdivided
      refine ⟨⟨c, rng, hlive, hat, hleaf, hmem⟩, bumped_refl.congr fun x hx => ?_⟩
      simpa using fun _ => hs.not_lt_leaf hlive hat hleaf hx

/-- The way down from the top range leads to the leaf around the hash. -/
theorem descend_top_spec {fuel : ℕ} (hs : h.Shape) (he : e < hashes)
    (hrouted : Routed h.divideFactor e)
    (hok : (h.addElements h.topRange n).descend e n fuel h.topRange = .ok (h', q)) :
    ∃ d r, h.LeafAt e d q r ∧ Bumped h h' n (e ∈ ·) := by
  obtain ⟨top, htop, -⟩ := hs.top
  have hmem : e ∈ topTuple := ⟨Nat.zero_le _, Nat.le_sub_one_of_lt he⟩
  have hb := bumped_addElements (n := n) hs htop.lookup
  obtain ⟨⟨d, r, hd, hr, hleaf, hin⟩, hb'⟩ := descend_spec (hb.shape hs) .refl
    (hb.counted _ _ _ .refl htop rfl) hmem (hb.relabel.divideFactor ▸ hrouted) hok
  have hbumped : Bumped h h' n (e ∈ ·) := by
    refine (hb.trans hb' ?_).congr fun x hx => ⟨?_, fun hex => ?_⟩
    · rintro x rfl hxd
      exact lt_irrefl _ hxd.2
    · rintro (rfl | hx)
      · exact hmem
      · exact hx.1
    · rcases ((hs.isRange hx).le_topTuple hs.factor).lt_or_eq with hlt | heq
      · exact .inr ⟨hex, hlt⟩
      · exact .inl heq
  obtain ⟨r', hr', hframe⟩ := hbumped.relabel.symm.exists_at hr
  exact ⟨d, r', ⟨hbumped.relabel.symm.reach hd, hr', (congrArg (·.2.2) hframe).trans hleaf, hin⟩,
    hbumped⟩

end Descend

/-! ## Single changes -/

section Changes

variable {H : Hashing} {sl sl' : List HashedElement} {h h' : HashRanges} {n : ℤ} {c x : RangeTuple}
  {p q e : ℕ} {rng : HashRange}
variable {d : RangeTuple} {r : HashRange}

/-- The elements changed at the hash `e` only, by at most `n`. -/
structure Edit (sl sl' : List HashedElement) (e : ℕ) (n : ℤ) : Prop where
  within_out : ∀ x : RangeTuple, e ∉ x → within sl' x = within sl x
  count_out : ∀ x : RangeTuple, e ∉ x → count sl' x = count sl x
  count_in : ∀ x : RangeTuple, e ∈ x → (count sl' x : ℤ) ≤ count sl x + n

/-- Elsewhere the hash of the elements stays. -/
theorem Edit.calcElementsHash_eq (hedit : Edit sl sl' e n) (hx : e ∉ x) :
    calcElementsHash H sl' x = calcElementsHash H sl x := by
  rw [calcElementsHash, calcElementsHash, hedit.within_out x hx]

theorem at_setDirty : (h.setDirty p).At c q rng ↔ h.At c q rng :=
  ⟨fun hat => ⟨hat.lookup, hat.heap⟩, fun hat => ⟨hat.lookup, hat.heap⟩⟩

theorem At.mark (hat : h.At c p rng) : (h.mark p).At c p { rng with isDivided := true } := by
  have hat' : (h.mark p).At c p (if p = p then { rng with isDivided := true } else rng) :=
    hat.modify
  rwa [if_pos rfl] at hat'

theorem at_unsetDirty : (h.unsetDirty p).At c q rng ↔ h.At c q rng :=
  ⟨fun hat => ⟨hat.lookup, hat.heap⟩, fun hat => ⟨hat.lookup, hat.heap⟩⟩

/-- Counters do not matter to digests. -/
theorem Bumped.hashAt_eq (hb : Bumped h h' n (e ∈ ·)) (hs : h.Shape) (hx : h.Live x) :
    h'.hashAt x = h.hashAt x := by
  obtain ⟨q, r, hr⟩ := hs.exists_at hx
  by_cases hex : e ∈ x
  · rw [(hb.counted x q r hx hr hex).hashAt_eq, hr.hashAt_eq]
  · rw [(hb.same x q r hx hr hex).hashAt_eq, hr.hashAt_eq]

/-- The live ranges around a hash are around the one that is not divided. -/
theorem LeafAt.le (hl : h.LeafAt e c p rng) (hs : h.Shape) (hx : h.Live x) (hex : e ∈ x) :
    c ≤ x := by
  rcases hs.le_or_le hl.live hx hl.mem hex with hle | hle
  · exact hle
  · exact (hle.lt_or_eq.resolve_left (hs.not_lt_leaf hl.live hl.found hl.leaf hx)).symm.le

/-- There is one leaf around a hash. -/
theorem LeafAt.eq (hl : h.LeafAt e c p rng) (hs : h.Shape) (hl' : h.LeafAt e d q r) : c = d :=
  le_antisymm (hl.le hs hl'.live hl'.mem) (hl'.le hs hl.live hl.mem)

/-- The way down to a range that is then made dirty. -/
theorem Tracked.touch (ht : Tracked H sl h) (hedit : Edit sl sl' e n) (hb : Bumped h h' n (e ∈ ·))
    (hl : h.LeafAt e c p rng) : Tracked H sl' (h'.setDirty p) := by
  have hrelabel : Relabel h (h'.setDirty p) := hb.relabel.trans Relabel.setDirty
  have hdirty : ∀ q, q ∈ (h'.setDirty p).dirty ↔ q ∈ h.dirty ∨ q = p := fun q => by
    rw [mem_setDirty, hb.dirty]
  have hs : (h'.setDirty p).Shape := by
    refine hrelabel.shape ht.shape fun q hq => ?_
    rcases (hdirty q).mp hq with hq | rfl
    · exact ht.shape.dirty q hq
    · exact ⟨c, hl.live, hl.found.lookup⟩
  refine ⟨hs, ?_, ?_, ?_⟩
  · intro r hr
    obtain ⟨r', hr', hframe⟩ := hrelabel.symm.exists_at hr
    exact (congrArg (·.2.2) hframe).symm.trans (ht.top r' (hrelabel.topRange ▸ hr'))
  · intro x q r hx hr
    have hx' := hrelabel.symm.reach hx
    by_cases hex : e ∈ x
    · -- the dirty range is below
      have hle := hl.le ht.shape hx' hex
      exact .inr ⟨c, p, hrelabel.reach (ht.shape.reach_of_le hx' hl.live hle),
        hrelabel.ranges ▸ hl.found.lookup, (hdirty p).mpr (.inr rfl)⟩
    · obtain ⟨q', r', hr'⟩ := ht.shape.exists_at hx'
      have hsame := hb.same x q' r' hx' hr' hex
      obtain ⟨rfl, rfl⟩ := (at_setDirty.mp hr).unique hsame
      rcases ht.fresh x q r hx' hr' with hfresh | ⟨d, s, hd, hlookup, hs'⟩
      · refine .inl (isFresh_of_hashAt ht.shape hs hrelabel.divideFactor hx' hx hr' hr
          (hedit.calcElementsHash_eq hex) (fun hdivided d hd => ?_) hfresh)
        exact hb.hashAt_eq ht.shape (hx'.step hr' hdivided hd)
      · exact .inr ⟨d, s, hrelabel.reach hd, hrelabel.ranges ▸ hlookup, (hdirty s).mpr (.inl hs')⟩
  · intro x q r hx hr
    have hx' := hrelabel.symm.reach hx
    obtain ⟨q', r', hr'⟩ := ht.shape.exists_at hx'
    have hle := ht.count_le x q' r' hx' hr'
    by_cases hex : e ∈ x
    · obtain ⟨-, rfl⟩ := (at_setDirty.mp hr).unique (hb.counted x q' r' hx' hr' hex)
      have hin := hedit.count_in x hex
      show (count sl' x : ℤ) ≤ r'.elements + n
      omega
    · obtain ⟨-, rfl⟩ := (at_setDirty.mp hr).unique (hb.same x q' r' hx' hr' hex)
      rwa [hedit.count_out x hex]

/-- A range need not be dirty if one of its parts is, or a range below the part. -/
theorem Tracked.unsetDirty_parent (ht : Tracked H sl h) (hc : h.Live c) (hat : h.At c p rng)
    (hparent : rng.parent = some q) (hbelow : h.DirtyBelow c) : Tracked H sl (h.unsetDirty q) := by
  have hrelabel : Relabel h (h.unsetDirty q) := .unsetDirty
  have hs : (h.unsetDirty q).Shape :=
    hrelabel.shape ht.shape fun s hs => ht.shape.dirty s (mem_unsetDirty.mp hs).1
  have hne : c ≠ topTuple := by
    rintro rfl
    obtain ⟨top, htop, hnone⟩ := ht.shape.top
    obtain ⟨-, rfl⟩ := hat.unique htop
    rw [hnone] at hparent
    cases hparent
  obtain ⟨y, q', parent, hy, hyat, hydivided, hmem, hparent'⟩ := ht.shape.exists_parent hc hne hat
  obtain rfl := Option.some.inj (hparent.symm.trans hparent')
  have hlt := ht.shape.lt_of_mem (ht.shape.divided y q parent hy hyat hydivided).1 hmem
  -- what is dirty below `c` is not the parent
  have hbelow' : (h.unsetDirty q).DirtyBelow c := by
    obtain ⟨d, s, hd, hlookup, hdirty⟩ := hbelow
    refine ⟨d, s, hrelabel.reach hd, hlookup, mem_unsetDirty.mpr ⟨hdirty, ?_⟩⟩
    rintro rfl
    obtain rfl := ht.shape.eq_of_lookup hlookup hyat.lookup
    exact absurd (ht.shape.le_of_reach hc hd) (not_le_of_gt hlt)
  refine ⟨hs, fun r hr => ht.top r (at_unsetDirty.mp hr), fun x s r hx hr => ?_,
    fun x s r hx hr => ht.count_le x s r (hrelabel.symm.reach hx) (at_unsetDirty.mp hr)⟩
  have hx' := hrelabel.symm.reach hx
  have hr' := at_unsetDirty.mp hr
  rcases ht.fresh x s r hx' hr' with hfresh | ⟨d, t, hd, hlookup, hdirty⟩
  · exact .inl (isFresh_of_hashAt ht.shape hs rfl hx' hx hr' hr rfl (fun _ _ _ => rfl) hfresh)
  · by_cases htq : t = q
    · subst htq
      obtain rfl := ht.shape.eq_of_lookup hlookup hyat.lookup
      obtain ⟨d', t', hd', hdirty'⟩ := hbelow'
      exact .inr ⟨d', t', (hrelabel.reach (hd.step hyat hydivided hmem)).trans hd', hdirty'⟩
    · exact .inr ⟨d, t, hrelabel.reach hd, hlookup, mem_unsetDirty.mpr ⟨hdirty, htq⟩⟩

/-! ### Divisions -/

section

variable (hg : Graft H sl h h' c p rng)

include hg

/-- If the divided range was dirty, then it is above a dirty range. -/
theorem Graft.dirtyBelow_self (hp : p ∈ h.dirty) : h'.DirtyBelow c := by
  rcases hg.divides.self hp with hp | ⟨d, hd, x, q, hx, hq⟩
  · exact ⟨c, p, .refl, hg.at_self.lookup, hp⟩
  · exact ⟨x, q, (hg.reach_part hd).trans hx, hq⟩

theorem Graft.hashAt_eq (hx : h.Live x) : h'.hashAt x = h.hashAt x := by
  obtain ⟨q, r, hr⟩ := hg.shape.exists_at hx
  rw [(hg.at_if hx hr).hashAt_eq, hr.hashAt_eq]
  split <;> rfl

/-- The old ranges stay fresh or above a dirty range. -/
theorem Graft.fresh_old (hp : p ∈ h.dirty) (hx : h.Live x) (hne : x ≠ c) (hr : h.At x q r)
    (hfresh : h.IsFresh H sl r ∨ h.DirtyBelow x) : h'.IsFresh H sl r ∨ h'.DirtyBelow x := by
  rcases hfresh with hfresh | ⟨d, s, hd, hlookup, hdirty⟩
  · refine .inl (isFresh_of_hashAt hg.shape hg.shape_after hg.divides.frame.divideFactor hx
      (hg.reach .refl hx) hr (hg.at_of_ne hx hne hr) rfl (fun hdivided d hd => ?_) hfresh)
    exact hg.hashAt_eq (hx.step hr hdivided hd)
  · right
    by_cases hsp : s = p
    · subst hsp
      obtain rfl := hg.shape.eq_of_lookup hlookup hg.found.lookup
      obtain ⟨d', t, hd', hdirty'⟩ := hg.dirtyBelow_self hp
      exact ⟨d', t, (hg.reach hx hd).trans hd', hdirty'⟩
    · obtain ⟨t, sub, hsub⟩ := hg.shape.exists_at (hx.trans hd)
      obtain rfl := Option.some.inj (hlookup.symm.trans hsub.lookup)
      have hlt : s < (h.mark p).heap.length := by
        rw [mark, HashRanges.modify, List.length_modify]
        exact (List.getElem?_eq_some_iff.mp hsub.heap).1
      exact ⟨d, s, hg.reach hx hd, (hg.at_if (hx.trans hd) hsub).lookup,
        (hg.divides.frame.dirty s hlt hsp).mpr hdirty⟩

/-- The new ranges are fresh or above a dirty range. -/
theorem Graft.fresh_new (hd : d ∈ genTupleRanges c h.divideFactor) (hx : h'.Reach d x)
    (hr : h'.At x q r) : h'.IsFresh H sl r ∨ h'.DirtyBelow x := by
  obtain ⟨q', r', hnew⟩ := hg.divides.subtree d hd x hx
  obtain ⟨rfl, rfl⟩ := hr.unique hnew.found
  cases hdivided : r.isDivided with
  | true => exact .inr (hnew.dirty hdivided)
  | false =>
    refine .inl ?_
    rw [IsFresh, if_neg (by simp [hdivided]), hg.shape_after.tuple_eq hr]
    exact ⟨hnew.hash, hnew.elements⟩

/-- The new ranges have the right counters and divisions. -/
theorem Graft.elements_new (hord : Ordered H sl) (hd : d ∈ genTupleRanges c h.divideFactor)
    (hx : h'.Reach d x) (hr : h'.At x q r) :
    r.elements = count sl x ∧ (r.isDivided = true ↔ h.compareThreshold < count sl x) := by
  obtain ⟨q', r', hnew⟩ := hg.divides.subtree d hd x hx
  obtain ⟨rfl, rfl⟩ := hr.unique hnew.found
  have helements : r.elements = count sl x := by
    rw [hnew.elements, ← hord.length_within]
    rfl
  refine ⟨helements, ?_⟩
  rw [hnew.isDivided, helements, hg.divides.frame.compareThreshold]
  exact Int.ofNat_lt

end

/-- A division of a dirty leaf keeps what is tracked. -/
theorem Tracked.graft (ht : Tracked H sl h) (hord : Ordered H sl) (hg : Graft H sl h h' c p rng)
    (hp : p ∈ h.dirty) : Tracked H sl h' := by
  refine ⟨hg.shape_after, ?_, ?_, ?_⟩
  · intro r hr
    obtain ⟨top, htop, -⟩ := hg.shape.top
    have hr' := hg.at_if .refl htop
    rw [hg.divides.frame.topRange] at hr
    obtain ⟨-, rfl⟩ := hr.unique hr'
    split
    · rfl
    · exact ht.top top htop
  · intro x q r hx hr
    rcases hg.live_or hx with hx' | ⟨d, hd, hx'⟩
    · by_cases hxc : x = c
      · exact .inr (hxc ▸ hg.dirtyBelow_self hp)
      · obtain ⟨q', r', hr'⟩ := hg.shape.exists_at hx'
        obtain ⟨rfl, rfl⟩ := hr.unique (hg.at_of_ne hx' hxc hr')
        exact hg.fresh_old hp hx' hxc hr' (ht.fresh x q r hx' hr')
    · exact hg.fresh_new hd hx' hr
  · intro x q r hx hr
    rcases hg.live_or hx with hx' | ⟨d, hd, hx'⟩
    · obtain ⟨q', r', hr'⟩ := hg.shape.exists_at hx'
      obtain ⟨-, rfl⟩ := hr.unique (hg.at_if hx' hr')
      have hle := ht.count_le x q' r' hx' hr'
      split <;> exact hle
    · exact (hg.elements_new hord hd hx' hr).1.ge

end Changes

/-! ## `addElement` -/

/-- The last lines of `addElement`. -/
def unsetParent (h : HashRanges) : Option ℕ → HashRanges
  | some p => h.unsetDirty p
  | none => h

section AddElement

variable {H : Hashing} {sl sl' : List HashedElement} {h h' : HashRanges} {c : RangeTuple}
  {p e fuel : ℕ} {rng : HashRange}
variable {parent : Option ℕ} {x : RangeTuple} {q : ℕ} {r : HashRange} {h₁ : HashRanges} {n : ℤ}

theorem relabel_unsetParent (parent : Option ℕ) : Relabel h (h.unsetParent parent) := by
  cases parent with
  | none => exact .refl h
  | some q => exact .unsetDirty

theorem at_unsetParent :
    (h.unsetParent parent).At x q r ↔ h.At x q r := by
  cases parent with
  | none => exact Iff.rfl
  | some q => exact at_unsetDirty

/-- The parent need not be dirty if a range below it is. -/
theorem Tracked.unsetParent (ht : Tracked H sl h) (hc : h.Live c) (hat : h.At c p rng)
    (hbelow : h.DirtyBelow c) (hparent : rng.parent = parent) :
    Tracked H sl (h.unsetParent parent) := by
  cases parent with
  | none => exact ht
  | some q => exact ht.unsetDirty_parent hc hat hparent hbelow

/-- `addElement` once the range is found. -/
theorem addElement_eq
    (hdescend : (h.addElements h.topRange 1).descend e 1 fuel h.topRange = .ok (h₁, p))
    (hheap : h₁.heap[p]? = some rng) : addElement H sl fuel h e =
      (if (h₁.compareThreshold : ℤ) < rng.elements then
        makeBottomRanges H sl fuel ((h₁.setDirty p).mark p) p
      else pure (h₁.setDirty p)) >>= fun h₂ => pure (h₂.unsetParent rng.parent) := by
  rw [addElement, hdescend]
  simp only [ok_bind]
  rw [get, show (h₁.setDirty p).heap[p]? = _ from hheap]
  simp only [ok_bind, show (h₁.setDirty p).compareThreshold = h₁.compareThreshold from rfl]
  split_ifs <;> cases rng.parent <;> rfl

/-- An element is counted in its leaf, or the leaf is divided. -/
theorem addElement_cases (hs : h.Shape) (he : e < hashes) (hrouted : Routed h.divideFactor e)
    (hok : addElement H sl fuel h e = .ok h') :
    ∃ c p rng h₁ h₂, h.LeafAt e c p rng ∧ Bumped h h₁ 1 (e ∈ ·) ∧
      h' = h₂.unsetParent rng.parent ∧
      (rng.elements + 1 ≤ h.compareThreshold ∧ h₂ = h₁.setDirty p ∨
        (h.compareThreshold : ℤ) < rng.elements + 1 ∧
          makeBottomRanges H sl fuel ((h₁.setDirty p).mark p) p = .ok h₂) := by
  obtain ⟨⟨h₁, p⟩, hdescend, -⟩ := bind_eq_ok.mp hok
  obtain ⟨c, rng, hl, hb⟩ := descend_top_spec hs he hrouted hdescend
  rw [addElement_eq hdescend (hb.counted c p rng hl.live hl.found hl.mem).heap,
    hb.relabel.compareThreshold] at hok
  obtain ⟨h₂, hok, hend⟩ := bind_eq_ok.mp hok
  refine ⟨c, p, rng, h₁, h₂, hl, hb, (Except.ok.inj hend).symm, ?_⟩
  split at hok
  · next hmany => exact .inr ⟨hmany, hok⟩
  · next hfew => exact .inl ⟨not_lt.mp hfew, (Except.ok.inj hok).symm⟩

/-- A division keeps the parameters of the tree. -/
theorem makeBottomRanges_params {h : HashRanges} {p : ℕ}
    (hok : makeBottomRanges H sl fuel h p = .ok h') :
    h'.divideFactor = h.divideFactor ∧ h'.compareThreshold = h.compareThreshold := by
  induction fuel generalizing h h' p with
  | zero => cases hok
  | succ fuel ih =>
    obtain ⟨rng, -, hok⟩ := bind_eq_ok.mp hok
    refine foldlM_invariant (fun h₁ : HashRanges => h₁.divideFactor = h.divideFactor ∧
      h₁.compareThreshold = h.compareThreshold) (fun h₁ d h₂ h₁_eq hstep => ?_) ⟨rfl, rfl⟩ hok
    simp only at hstep
    split at hstep
    · obtain ⟨hfactor, hthreshold⟩ := ih hstep
      exact ⟨hfactor.trans h₁_eq.1, hthreshold.trans h₁_eq.2⟩
    · obtain rfl := Except.ok.inj hstep
      exact h₁_eq

theorem get_eq_ok : h.get p = .ok rng ↔ h.heap[p]? = some rng := by
  unfold get
  cases h.heap[p]? <;> simp

theorem descend_params (hok : descend e n fuel h p = .ok (h', q)) :
    h'.divideFactor = h.divideFactor ∧ h'.compareThreshold = h.compareThreshold := by
  induction fuel generalizing h p with
  | zero => cases hok
  | succ fuel ih =>
    obtain ⟨rng, -, hok⟩ := bind_eq_ok.mp hok
    split at hok
    · obtain ⟨next, -, hok⟩ := bind_eq_ok.mp hok
      exact ih (h := h.addElements next n) hok
    · cases hok
      exact ⟨rfl, rfl⟩

theorem addElement_params (hok : addElement H sl fuel h e = .ok h') :
    h'.divideFactor = h.divideFactor ∧ h'.compareThreshold = h.compareThreshold := by
  obtain ⟨⟨h₁, p⟩, hdescend, hrest⟩ := bind_eq_ok.mp hok
  obtain ⟨rng, hget, -⟩ := bind_eq_ok.mp hrest
  rw [addElement_eq hdescend (get_eq_ok.mp hget)] at hok
  obtain ⟨h₂, hdivide, hend⟩ := bind_eq_ok.mp hok
  obtain rfl := Except.ok.inj hend
  have hr := relabel_unsetParent (h := h₂) rng.parent
  have hfirst := descend_params hdescend
  rw [hr.divideFactor, hr.compareThreshold]
  split at hdivide
  · obtain ⟨hfactor, hthreshold⟩ := makeBottomRanges_params hdivide
    exact ⟨hfactor.trans hfirst.1, hthreshold.trans hfirst.2⟩
  · obtain rfl := Except.ok.inj hdivide
    exact hfirst

/-- The division of a leaf that has become too large. -/
theorem graft_of_makeBottomRanges {h₂ : HashRanges} (hs : h.Shape) (hord : Ordered H sl)
    (hl : h.LeafAt e c p rng) (hb : Bumped h h₁ 1 (e ∈ ·)) (hwide : Wide h.divideFactor c)
    (hroomy : Roomy h.divideFactor h.compareThreshold sl)
    (hok : makeBottomRanges H sl fuel ((h₁.setDirty p).mark p) p = .ok h₂) :
    Graft H sl (h₁.setDirty p) h₂ c p { rng with elements := rng.elements + 1 } := by
  have hrelabel : Relabel h (h₁.setDirty p) := hb.relabel.trans Relabel.setDirty
  have hat := at_setDirty (p := p).mpr (hb.counted c p rng hl.live hl.found hl.mem)
  have hshape : (h₁.setDirty p).Shape := by
    refine hrelabel.shape hs fun q hq => ?_
    rcases mem_setDirty.mp hq with hq | rfl
    · exact hs.dirty q (hb.dirty ▸ hq)
    · exact ⟨c, hl.live, hl.found.lookup⟩
  have hfactor : (h₁.setDirty p).divideFactor = h.divideFactor := hrelabel.divideFactor
  have hthreshold : (h₁.setDirty p).compareThreshold = h.compareThreshold :=
    hrelabel.compareThreshold
  have htuple := hs.tuple_eq hl.found
  have hheap : ((h₁.setDirty p).mark p).heap[p]?
      = some { rng with elements := rng.elements + 1, isDivided := true } := by
    exact hat.mark.heap
  refine ⟨hshape, hrelabel.reach hl.live, hat, hl.leaf, hfactor ▸ hwide, ?_⟩
  have hdiv := makeBottomRanges_spec hord hheap (hfactor.symm ▸ hs.factor)
    (by rw [htuple]; exact hfactor.symm ▸ hs.isRange hl.live)
    (by rw [htuple]; exact hfactor.symm ▸ hwide)
    (by rw [← hfactor, ← hthreshold] at hroomy; exact hroomy) hok
  rwa [htuple] at hdiv

/-- The other ranges that are not divided keep their counters. -/
theorem Sound.leaf_le_of_bumped (ht : Sound H sl h) (hb : Bumped h h₁ n (e ∈ ·))
    (hl : h.LeafAt e c p rng) (hx : h.Live x) (hne : x ≠ c) (hr : h₁.At x q r)
    (hleaf : r.isDivided = false) : r.elements ≤ h.compareThreshold := by
  obtain ⟨q', r', hr'⟩ := ht.shape.exists_at hx
  have hex : e ∉ x := by
    intro hex
    -- a live range around `c` other than `c` is divided
    obtain ⟨-, rfl⟩ := hr.unique (hb.counted x q' r' hx hr' hex)
    have hlt := lt_of_le_of_ne (hl.le ht.shape hx hex) (Ne.symm hne)
    exact ht.shape.not_lt_leaf hx hr' hleaf hl.live hlt
  obtain ⟨-, rfl⟩ := hr.unique (hb.same x q' r' hx hr' hex)
  exact ht.leaf_le x q' r hx hr' hleaf

/-- `addElement` keeps the ranges sound if it divides only wide ranges. -/
theorem Sound.addElement (ht : Sound H sl h) (hord : Ordered H sl') (hedit : Edit sl sl' e 1)
    (he : e < hashes) (hrouted : Routed h.divideFactor e)
    (hwide : ∀ c p rng, h.LeafAt e c p rng → (h.compareThreshold : ℤ) < rng.elements + 1 →
      Wide h.divideFactor c) (hroomy : Roomy h.divideFactor h.compareThreshold sl')
    (hok : HashRanges.addElement H sl' fuel h e = .ok h') : Sound H sl' h' := by
  obtain ⟨c, p, rng, h₁, h₂, hl, hb, rfl, hcases⟩ := addElement_cases ht.shape he hrouted hok
  have ht₁ := ht.toTracked.touch hedit hb hl
  have hp : p ∈ (h₁.setDirty p).dirty := mem_setDirty.mpr (.inr rfl)
  have hrelabel : Relabel h (h₁.setDirty p) := hb.relabel.trans Relabel.setDirty
  have hlive : (h₁.setDirty p).Live c := hrelabel.reach hl.live
  have hat := at_setDirty (p := p).mpr (hb.counted c p rng hl.live hl.found hl.mem)
  rcases hcases with ⟨hfew, rfl⟩ | ⟨hmany, hdivide⟩
  · -- the leaf is dirty now, so its parent need not be
    have hbelow : (h₁.setDirty p).DirtyBelow c := ⟨c, p, .refl, hat.lookup, hp⟩
    refine ⟨ht₁.unsetParent hlive hat hbelow rfl, fun x q r hx hr hleaf => ?_⟩
    rw [(relabel_unsetParent _).compareThreshold, hrelabel.compareThreshold]
    have hx' := hrelabel.symm.reach ((relabel_unsetParent _).symm.reach hx)
    by_cases hxc : x = c
    · subst hxc
      obtain ⟨-, rfl⟩ := (at_unsetParent.mp hr).unique hat
      exact hfew
    · exact ht.leaf_le_of_bumped hb hl hx' hxc (at_setDirty.mp (at_unsetParent.mp hr)) hleaf
  · -- the leaf is divided, and the new leaves have few enough elements
    have hg := graft_of_makeBottomRanges ht.shape hord hl hb (hwide c p rng hl hmany) hroomy hdivide
    have hat₂ := hg.at_self
    have hlive₂ : h₂.Live c := hg.reach .refl hlive
    refine ⟨(ht₁.graft hord hg hp).unsetParent hlive₂ hat₂ (hg.dirtyBelow_self hp) rfl,
      fun x q r hx hr hleaf => ?_⟩
    rw [(relabel_unsetParent _).compareThreshold, hg.divides.frame.compareThreshold]
    have hr' := at_unsetParent.mp hr
    rcases hg.live_or ((relabel_unsetParent _).symm.reach hx) with hx' | ⟨d, hd, hx'⟩
    · by_cases hxc : x = c
      · subst hxc
        obtain ⟨-, rfl⟩ := hr'.unique hat₂
        cases hleaf
      · obtain ⟨q', r', hr₁⟩ := hg.shape.exists_at hx'
        obtain ⟨-, rfl⟩ := hr'.unique (hg.at_of_ne hx' hxc hr₁)
        have hle := ht.leaf_le_of_bumped hb hl (hrelabel.symm.reach hx') hxc (at_setDirty.mp hr₁)
          hleaf
        rwa [← hrelabel.compareThreshold] at hle
    · obtain ⟨helements, hiff⟩ := hg.elements_new hord hd hx' hr'
      have hfew : ¬ (h₁.setDirty p).compareThreshold < count sl' x := by
        rw [← hiff, hleaf]
        simp
      rw [helements]
      exact Int.ofNat_le.mpr (not_lt.mp hfew)

end AddElement

/-! ## `removeElement` -/

/-- The merge of `removeElement`: the parts of the range `q` are taken out of the map. -/
def merge (h : HashRanges) (q : ℕ) (y : RangeTuple) : HashRanges :=
  (((genTupleRanges y h.divideFactor).foldl forget h).modify q
    fun rng => { rng with isDivided := false }).setDirty q

section Forget

variable {h : HashRanges} {c x : RangeTuple} {q : ℕ} {l : List RangeTuple}

/-- What `forget` leaves alone. -/
theorem forget_frame : (h.forget c).heap = h.heap ∧ (h.forget c).topRange = h.topRange ∧
    (h.forget c).divideFactor = h.divideFactor ∧
    (h.forget c).compareThreshold = h.compareThreshold := by
  unfold forget
  split <;> exact ⟨rfl, rfl, rfl, rfl⟩

theorem lookup_forget :
    (h.forget c).ranges.lookup x = if x = c then none else h.ranges.lookup x := by
  unfold forget
  split
  · exact GoMap.lookup_erase_eq ..
  · next hnone =>
    split
    · next hx => rw [hx, hnone]
    · rfl

theorem mem_dirty_of_forget (hq : q ∈ (h.forget c).dirty) : q ∈ h.dirty := by
  unfold forget at hq
  split at hq
  · exact (mem_unsetDirty.mp hq).1
  · exact hq

theorem foldl_forget_frame : (l.foldl forget h).heap = h.heap ∧
    (l.foldl forget h).topRange = h.topRange ∧
    (l.foldl forget h).divideFactor = h.divideFactor ∧
    (l.foldl forget h).compareThreshold = h.compareThreshold := by
  induction l generalizing h with
  | nil => exact ⟨rfl, rfl, rfl, rfl⟩
  | cons c l ih =>
    obtain ⟨hheap, htop, hfactor, hthreshold⟩ := forget_frame (h := h) (c := c)
    rw [List.foldl_cons, ← hheap, ← htop, ← hfactor, ← hthreshold]
    exact ih

/-- The parts of a merged range are no longer found. -/
theorem lookup_foldl_forget :
    (l.foldl forget h).ranges.lookup x = if x ∈ l then none else h.ranges.lookup x := by
  induction l generalizing h with
  | nil => simp
  | cons c l ih =>
    rw [List.foldl_cons, ih, lookup_forget]
    by_cases hx : x ∈ l
    · simp [hx]
    · simp [hx]

theorem mem_dirty_of_foldl_forget (hq : q ∈ (l.foldl forget h).dirty) : q ∈ h.dirty := by
  induction l generalizing h with
  | nil => exact hq
  | cons c l ih => exact mem_dirty_of_forget (ih hq)

end Forget

/-- `h'` has the tree of `h` with the parts of the live divided range `y` taken out. -/
structure Merged (h h' : HashRanges) (y : RangeTuple) (q : ℕ) (parent : HashRange) : Prop where
  shape : h.Shape
  clean : h.dirty = []
  live : h.Live y
  found : h.At y q parent
  divided : parent.isDivided = true
  ne_top : q ≠ h.topRange
  topRange : h'.topRange = h.topRange
  divideFactor : h'.divideFactor = h.divideFactor
  compareThreshold : h'.compareThreshold = h.compareThreshold
  self : h'.heap[q]? = some { parent with isDivided := false }
  other : ∀ r ≠ q, h'.heap[r]? = h.heap[r]?
  lookup : ∀ x, h'.ranges.lookup x =
    if x ∈ genTupleRanges y h.divideFactor then none else h.ranges.lookup x
  dirty : ∀ r, r ∈ h'.dirty ↔ r = q

/-- What `merge` does if nothing is dirty. -/
theorem merged_merge {h : HashRanges} {y : RangeTuple} {q : ℕ} {parent : HashRange} (hs : h.Shape)
    (hclean : h.dirty = []) (hlive : h.Live y) (hat : h.At y q parent)
    (hdivided : parent.isDivided = true) (hne : q ≠ h.topRange) :
    Merged h (h.merge q y) y q parent := by
  obtain ⟨hheap, htop, hfactor, hthreshold⟩ :=
    foldl_forget_frame (h := h) (l := genTupleRanges y h.divideFactor)
  refine ⟨hs, hclean, hlive, hat, hdivided, hne, htop, hfactor, hthreshold, ?_, fun r hr => ?_,
    fun x => lookup_foldl_forget, fun r => ?_⟩
  · simp [merge, setDirty, HashRanges.modify, hheap, hat.heap]
  · simp [merge, setDirty, HashRanges.modify, hheap, hr.symm]
  · rw [merge, mem_setDirty]
    refine ⟨fun hr => hr.resolve_left fun hr' => ?_, .inr⟩
    have hmem : r ∈ h.dirty := mem_dirty_of_foldl_forget hr'
    rw [hclean] at hmem
    cases hmem

namespace Merged

variable {H : Hashing} {sl sl' : List HashedElement} {h h' : HashRanges} {x y : RangeTuple}
  {q s : ℕ} {parent r : HashRange} (hm : Merged h h' y q parent)

include hm

/-- The parts of the other ranges are not taken out. -/
theorem not_mem_part {d : RangeTuple} (hx : h.Live x) (hne : x ≠ y) (hr : h.At x s r)
    (hdivided : r.isDivided = true) (hd : d ∈ genTupleRanges x h.divideFactor) :
    d ∉ genTupleRanges y h.divideFactor := fun hdy =>
  hne (hm.shape.eq_of_mem_part hx hr hdivided hm.live hm.found hm.divided hd hdy)

theorem not_mem_of_not_lt (hlt : ¬ x < y) : x ∉ genTupleRanges y h.divideFactor := fun hx =>
  hlt (hm.shape.lt_of_mem (hm.shape.divided y q parent hm.live hm.found hm.divided).1 hx)

theorem at_self : h'.At y q { parent with isDivided := false } := by
  refine ⟨?_, hm.self⟩
  rw [hm.lookup, if_neg (hm.not_mem_of_not_lt (lt_irrefl y)), hm.found.lookup]

theorem at_of_ne (hx : x ∉ genTupleRanges y h.divideFactor) (hne : x ≠ y) (hr : h.At x s r) :
    h'.At x s r := by
  have hsq : s ≠ q := by
    rintro rfl
    exact hne (hm.shape.eq_of_lookup hr.lookup hm.found.lookup)
  refine ⟨?_, (hm.other s hsq).trans hr.heap⟩
  rw [hm.lookup, if_neg hx, hr.lookup]

/-- What is not below the merged range stays live. -/
theorem live_after (hx : h.Live x) (hlt : ¬ x < y) : h'.Live x := by
  induction hx with
  | refl => exact .refl
  | @step z x s r hz hr hdivided hmem ih =>
    have hxz := hm.shape.lt_of_mem (hm.shape.divided z s r hz hr hdivided).1 hmem
    have hzy : ¬ z ≤ y := fun hle => hlt (hxz.trans_le hle)
    have hat := hm.at_of_ne (hm.not_mem_of_not_lt fun hlt => hzy hlt.le)
      (fun heq => hzy heq.le) hr
    exact .step (ih fun hlt => hzy hlt.le) hat hdivided (hm.divideFactor.symm ▸ hmem)

/-- No other ranges are live. -/
theorem live_before (hx : h'.Live x) : h.Live x ∧ ¬ x < y := by
  induction hx with
  | refl => exact ⟨.refl, not_lt_of_ge ((hm.shape.isRange hm.live).le_topTuple hm.shape.factor)⟩
  | @step z x s r _ hr hdivided hmem ih =>
    obtain ⟨hz, hlt⟩ := ih
    obtain ⟨t, sub, hsub⟩ := hm.shape.exists_at hz
    have hne : z ≠ y := by
      rintro rfl
      obtain ⟨-, rfl⟩ := hr.unique hm.at_self
      cases hdivided
    obtain ⟨rfl, rfl⟩ := hr.unique (hm.at_of_ne (hm.not_mem_of_not_lt hlt) hne hsub)
    have hmem' : x ∈ genTupleRanges z h.divideFactor := hm.divideFactor ▸ hmem
    refine ⟨hz.step hsub hdivided hmem', hm.shape.not_part_lt hz hsub hdivided hmem' hm.live ?_⟩
    exact fun hle => hle.lt_or_eq.elim hlt hne

/-- A live range is the merged one or is as before. -/
theorem at_cases (hx : h'.Live x) (hr : h'.At x s r) :
    (x = y ∧ s = q ∧ r = { parent with isDivided := false }) ∨ (x ≠ y ∧ h.At x s r) := by
  by_cases hxy : x = y
  · subst hxy
    obtain ⟨rfl, rfl⟩ := hr.unique hm.at_self
    exact .inl ⟨rfl, rfl, rfl⟩
  · obtain ⟨hx', hlt⟩ := hm.live_before hx
    obtain ⟨t, sub, hsub⟩ := hm.shape.exists_at hx'
    obtain ⟨rfl, rfl⟩ := hr.unique (hm.at_of_ne (hm.not_mem_of_not_lt hlt) hxy hsub)
    exact .inr ⟨hxy, hsub⟩

/-- The shape of the tree is kept. -/
theorem shape_after : h'.Shape where
  factor := hm.divideFactor.symm ▸ hm.shape.factor
  keys c p hlookup := by
    rw [hm.lookup] at hlookup
    split at hlookup
    · cases hlookup
    · obtain ⟨rng, hheap, htuple⟩ := hm.shape.keys c p hlookup
      by_cases hpq : p = q
      · subst hpq
        obtain rfl := Option.some.inj (hheap.symm.trans hm.found.heap)
        exact ⟨_, hm.self, htuple⟩
      · exact ⟨rng, (hm.other p hpq).trans hheap, htuple⟩
  parent_lt p rng t hheap hparent := by
    by_cases hpq : p = q
    · subst hpq
      obtain rfl := Option.some.inj (hheap.symm.trans hm.self)
      exact hm.shape.parent_lt p parent t hm.found.heap hparent
    · exact hm.shape.parent_lt p rng t ((hm.other p hpq).symm.trans hheap) hparent
  top := by
    obtain ⟨top, htop, hnone⟩ := hm.shape.top
    have hne : topTuple ≠ y := by
      rintro rfl
      exact hm.ne_top (Option.some.inj (hm.found.lookup.symm.trans htop.lookup))
    have hnot := hm.not_mem_of_not_lt
      (not_lt_of_ge ((hm.shape.isRange hm.live).le_topTuple hm.shape.factor))
    exact ⟨top, hm.topRange.symm ▸ hm.at_of_ne hnot hne htop, hnone⟩
  divided x s r hx hr hdivided := by
    rcases hm.at_cases hx hr with ⟨rfl, rfl, rfl⟩ | ⟨hne, hr'⟩
    · cases hdivided
    · have hx' := (hm.live_before hx).1
      obtain ⟨hwide, hparts⟩ := hm.shape.divided x s r hx' hr' hdivided
      rw [hm.divideFactor]
      refine ⟨hwide, fun d hd => ?_⟩
      obtain ⟨t, sub, hsub, hparent⟩ := hparts d hd
      by_cases hdy : d = y
      · subst hdy
        obtain ⟨rfl, rfl⟩ := hsub.unique hm.found
        exact ⟨t, _, hm.at_self, hparent⟩
      · exact ⟨t, sub, hm.at_of_ne (hm.not_mem_part hx' hne hr' hdivided hd) hdy hsub, hparent⟩
  dirty s hs := by
    rw [(hm.dirty s).mp hs]
    exact ⟨y, hm.live_after hm.live (lt_irrefl y), hm.at_self.lookup⟩

/-- Digests of ranges that stay are kept. -/
theorem hashAt_eq (hx : x ∉ genTupleRanges y h.divideFactor) : h'.hashAt x = h.hashAt x := by
  rw [hashAt, hashAt, hm.lookup, if_neg hx]
  cases h.ranges.lookup x with
  | none => rfl
  | some s =>
    by_cases hsq : s = q
    · subst hsq
      simp [hm.self, hm.found.heap]
    · simp [hm.other s hsq]

end Merged

section RemoveElement

variable {H : Hashing} {sl sl' : List HashedElement} {h h₁ h' : HashRanges} {c y : RangeTuple}
  {p q e fuel : ℕ} {rng parent : HashRange}

/-- A merge after the way down. -/
theorem Sound.merge (ht : Sound H sl h) (hclean : h.dirty = []) (hedit : Edit sl sl' e (-1))
    (hb : Bumped h h₁ (-1) (e ∈ ·)) (hm : Merged h₁ h' y q parent) (hey : e ∈ y)
    (hfew : parent.elements ≤ h.compareThreshold) : Sound H sl' h' := by
  have hylive : h'.Live y := hm.live_after hm.live (lt_irrefl y)
  -- ranges around the hash lie around `y`, the others are as before the way down
  have haround : ∀ {x}, h'.Live x → e ∈ x → y ≤ x := fun {x} hx hex => by
    obtain ⟨hx', hlt⟩ := hm.live_before hx
    rcases hm.shape.le_or_le hm.live hx' hey hex with hle | hle
    · exact hle
    · exact (hle.lt_or_eq.resolve_left hlt).symm.le
  have hold : ∀ {x s r}, h'.Live x → h'.At x s r → e ∉ x → h.Live x ∧ h.At x s r ∧ x ≠ y := by
    intro x s r hx hr hex
    have hx' := hb.relabel.symm.reach (hm.live_before hx).1
    rcases hm.at_cases hx hr with ⟨rfl, -, -⟩ | ⟨hne, hr₁⟩
    · exact absurd hey hex
    · obtain ⟨s', r', hr'⟩ := ht.shape.exists_at hx'
      obtain ⟨rfl, rfl⟩ := hr₁.unique (hb.same x s' r' hx' hr' hex)
      exact ⟨hx', hr', hne⟩
  refine ⟨⟨hm.shape_after, ?_, ?_, ?_⟩, ?_⟩
  · intro r hr
    rw [hm.topRange] at hr
    rcases hm.at_cases .refl hr with ⟨-, htop, -⟩ | ⟨-, hr'⟩
    · exact absurd htop.symm hm.ne_top
    · obtain ⟨r', hr₀, hframe⟩ := hb.relabel.symm.exists_at hr'
      exact (congrArg (·.2.2) hframe).symm.trans (ht.top r' (hb.relabel.topRange ▸ hr₀))
  · intro x s r hx hr
    by_cases hex : e ∈ x
    · exact .inr ⟨y, q, hm.shape_after.reach_of_le hx hylive (haround hx hex), hm.at_self.lookup,
        (hm.dirty q).mpr rfl⟩
    · obtain ⟨hx', hr', hne⟩ := hold hx hr hex
      have hr₁ := hb.same x s r hx' hr' hex
      refine .inl (isFresh_of_hashAt ht.shape hm.shape_after
        (hm.divideFactor.trans hb.relabel.divideFactor) hx' hx hr' hr
        (hedit.calcElementsHash_eq hex) (fun hdivided d hd => ?_) (ht.isFresh hclean hx' hr'))
      rw [hm.hashAt_eq (hm.not_mem_part (hb.relabel.reach hx') hne hr₁ hdivided
        (hb.relabel.divideFactor.symm ▸ hd)), hb.hashAt_eq ht.shape (hx'.step hr' hdivided hd)]
  · intro x s r hx hr
    have hx' := hb.relabel.symm.reach (hm.live_before hx).1
    obtain ⟨s', r', hr'⟩ := ht.shape.exists_at hx'
    have hle := ht.count_le x s' r' hx' hr'
    by_cases hex : e ∈ x
    · have hcounted := hb.counted x s' r' hx' hr' hex
      have hin := hedit.count_in x hex
      have helements : r.elements = r'.elements + -1 := by
        rcases hm.at_cases hx hr with ⟨rfl, rfl, rfl⟩ | ⟨-, hr₁⟩
        · rw [(hm.found.unique hcounted).2]
        · rw [(hr₁.unique hcounted).2]
      rw [helements]
      omega
    · obtain ⟨-, hr₀, -⟩ := hold hx hr hex
      obtain ⟨-, rfl⟩ := hr'.unique hr₀
      rwa [hedit.count_out x hex]
  · intro x s r hx hr hleaf
    rw [hm.compareThreshold, hb.relabel.compareThreshold]
    by_cases hex : e ∈ x
    · rcases hm.at_cases hx hr with ⟨rfl, rfl, rfl⟩ | ⟨hne, hr₁⟩
      · exact hfew
      · have hlt := lt_of_le_of_ne (haround hx hex) (Ne.symm hne)
        exact absurd hlt (hm.shape.not_lt_leaf (hm.live_before hx).1 hr₁ hleaf hm.live)
    · obtain ⟨hx', hr', -⟩ := hold hx hr hex
      exact ht.leaf_le x s r hx' hr' hleaf

/-- An element is taken from its leaf, and the parts of the parent are merged if they are small. -/
theorem removeElement_cases (hs : h.Shape) (he : e < hashes) (hrouted : Routed h.divideFactor e)
    (hok : removeElement fuel h e = .ok h') :
    ∃ c p rng h₁ y q parent, h.LeafAt e c p rng ∧ Bumped h h₁ (-1) (e ∈ ·) ∧
      rng.parent = some q ∧ h₁.At y q parent ∧ h.Live y ∧ parent.isDivided = true ∧
      c ∈ genTupleRanges y h.divideFactor ∧
      (parent.elements ≤ h.compareThreshold ∧ q ≠ h.topRange ∧ h' = h₁.merge q y ∨
        ¬ (parent.elements ≤ h.compareThreshold ∧ q ≠ h.topRange) ∧ h' = h₁.setDirty p) := by
  obtain ⟨⟨h₁, p⟩, hdescend, hok⟩ := bind_eq_ok.mp hok
  obtain ⟨c, rng, hl, hb⟩ := descend_top_spec hs he hrouted hdescend
  have hat := hb.counted c p rng hl.live hl.found hl.mem
  simp only at hok
  rw [get, hat.heap] at hok
  obtain ⟨rng', hrng', hok⟩ := bind_eq_ok.mp hok
  obtain rfl := Except.ok.inj hrng'
  cases hparent : rng.parent with
  | none =>
    simp only [hparent] at hok
    cases hok
  | some q =>
    simp only [hparent] at hok
    obtain ⟨parent, hget, hok⟩ := bind_eq_ok.mp hok
    -- the top range has no parent
    have hne : c ≠ topTuple := by
      rintro rfl
      obtain ⟨top, htop, hnone⟩ := hs.top
      obtain ⟨-, rfl⟩ := hl.found.unique htop
      rw [hnone] at hparent
      cases hparent
    obtain ⟨y, q', parent₀, hy, hyat, hdivided, hmem, hparent'⟩ :=
      hs.exists_parent hl.live hne hl.found
    obtain rfl := Option.some.inj (hparent.symm.trans hparent')
    obtain ⟨parent₁, hyat₁, hframe⟩ := hb.relabel.exists_at hyat
    have hpeq : parent = parent₁ := by
      rw [get, hyat₁.heap] at hget
      exact (Except.ok.inj hget).symm
    subst hpeq
    have htuple : parent.tuple = y := (hb.shape hs).tuple_eq hyat₁
    refine ⟨c, p, rng, h₁, y, q, parent, hl, hb, hparent, hyat₁, hy,
      (congrArg (·.2.2) hframe).trans hdivided, hmem, ?_⟩
    rw [hb.relabel.compareThreshold, hb.relabel.topRange] at hok
    split at hok
    · next hfew =>
      -- the parent has few elements left and is merged
      refine .inl ⟨hfew.1, hfew.2, ?_⟩
      rw [htuple] at hok
      exact (Except.ok.inj hok).symm
    · next hmany => exact .inr ⟨hmany, (Except.ok.inj hok).symm⟩

theorem removeElement_params (hok : removeElement fuel h e = .ok h') :
    h'.divideFactor = h.divideFactor ∧ h'.compareThreshold = h.compareThreshold := by
  obtain ⟨⟨h₁, p⟩, hdescend, hok⟩ := bind_eq_ok.mp hok
  have hfirst := descend_params hdescend
  obtain ⟨rng, -, hok⟩ := bind_eq_ok.mp hok
  dsimp only at hok
  split at hok
  · cases hok
  · obtain ⟨parent, -, hok⟩ := bind_eq_ok.mp hok
    split at hok
    · cases hok
      obtain ⟨-, -, hframe⟩ := foldl_forget_frame
      exact ⟨hframe.1.trans hfirst.1, hframe.2.trans hfirst.2⟩
    · cases hok
      exact hfirst

/-- `removeElement` keeps clean ranges sound. -/
theorem Sound.removeElement (ht : Sound H sl h) (hclean : h.dirty = []) (hedit : Edit sl sl' e (-1))
    (he : e < hashes) (hrouted : Routed h.divideFactor e)
    (hok : HashRanges.removeElement fuel h e = .ok h') : Sound H sl' h' := by
  obtain ⟨c, p, rng, h₁, y, q, parent, hl, hb, hparent, hyat, hy, hdivided, hmem, hcases⟩ :=
    removeElement_cases ht.shape he hrouted hok
  have hy₁ := hb.relabel.reach hy
  rcases hcases with ⟨hfew, hne, rfl⟩ | ⟨-, rfl⟩
  · have hm := merged_merge (hb.shape ht.shape) (hb.dirty.trans hclean) hy₁ hyat hdivided
      (hb.relabel.topRange.symm ▸ hne)
    have hey : e ∈ y := by
      have hwide := ((hb.shape ht.shape).divided y q parent hy₁ hyat hdivided).1
      rw [hb.relabel.divideFactor] at hwide
      exact NatInterval.mem_of_le (ht.shape.lt_of_mem hwide hmem).le hl.mem
    exact ht.merge hclean hedit hb hm hey hfew
  · have hrelabel : Relabel h (h₁.setDirty p) := hb.relabel.trans Relabel.setDirty
    refine ⟨ht.toTracked.touch hedit hb hl, fun x s r hx hr hleaf => ?_⟩
    rw [hrelabel.compareThreshold]
    have hx' := hrelabel.symm.reach hx
    by_cases hxc : x = c
    · subst hxc
      obtain ⟨-, rfl⟩ := (at_setDirty.mp hr).unique (hb.counted x p rng hl.live hl.found hl.mem)
      have hle := ht.leaf_le x p rng hl.live hl.found hl.leaf
      show rng.elements + -1 ≤ _
      omega
    · exact ht.leaf_le_of_bumped hb hl hx' hxc (at_setDirty.mp hr) hleaf

end RemoveElement

end HashRanges

end Ldiff
