import AnySync.Ldiff.Divide

/-!
# Digests and dirty ranges

A digest may be out of date only if the range, or a range below it, is dirty.
-/

namespace Ldiff

namespace HashRanges

/-- The digest under a tuple. -/
def hashAt (h : HashRanges) (c : RangeTuple) : Bytes :=
  match h.ranges.lookup c with
  | some p => (h.heap[p]?.map HashRange.hash).getD []
  | none => []

/-- What is stored in the range is what would be computed for it. -/
def IsFresh (H : Hashing) (sl : List HashedElement) (h : HashRanges) (rng : HashRange) : Prop :=
  if rng.isDivided then h.calcDividedHash H rng = .ok rng.hash
  else rng.hash = (calcElementsHash H sl rng.tuple).1 ∧
    rng.elements = (calcElementsHash H sl rng.tuple).2

/-- Ranges that are not fresh have a dirty range below them, and counters are at least the number
of elements. -/
structure Tracked (H : Hashing) (sl : List HashedElement) (h : HashRanges) : Prop where
  shape : h.Shape
  /-- The top range is divided. -/
  top : ∀ rng, h.At topTuple h.topRange rng → rng.isDivided = true
  fresh : ∀ c p rng, h.Live c → h.At c p rng → h.IsFresh H sl rng ∨ h.DirtyBelow c
  count_le : ∀ c p rng, h.Live c → h.At c p rng → (count sl c : ℤ) ≤ rng.elements

/-- Counters of ranges that are not divided are at most `compareThreshold`. -/
structure Sound (H : Hashing) (sl : List HashedElement) (h : HashRanges) : Prop
    extends Tracked H sl h where
  leaf_le : ∀ c p rng, h.Live c → h.At c p rng → rng.isDivided = false →
    rng.elements ≤ h.compareThreshold

section Hash

variable {H : Hashing} {sl : List HashedElement} {h : HashRanges} {c : RangeTuple} {p : ℕ}
  {rng : HashRange}

theorem At.hashAt_eq (hat : h.At c p rng) : h.hashAt c = rng.hash := by
  rw [hashAt, hat.lookup]
  simp [hat.heap]

theorem Shape.calcDividedHash_eq (hs : h.Shape) (hlive : h.Live c) (hat : h.At c p rng)
    (hdivided : rng.isDivided = true) :
    h.calcDividedHash H rng =
      .ok (H.blake3 ((genTupleRanges c h.divideFactor).flatMap h.hashAt)) := by
  have hmapM : ((genTupleRanges c h.divideFactor).mapM fun d => do
      let child ← h.lookup d
      let childRng ← h.get child
      pure childRng.hash) = Except.ok ((genTupleRanges c h.divideFactor).map h.hashAt) := by
    rw [mapM_eq_ok, List.map_map, List.map_inj_left]
    intro d hd
    obtain ⟨q, sub, hsub, -⟩ := (hs.divided c p rng hlive hat hdivided).2 d hd
    rw [lookup, hsub.lookup, Function.comp_apply, hsub.hashAt_eq]
    simp only [get, hsub.heap, bind, Except.bind, pure, Except.pure]
  rw [calcDividedHash, hs.tuple_eq hat, hmapM, List.flatMap]
  rfl

/-- Freshness depends on the elements of the range and on the digests of its parts. -/
theorem isFresh_of_hashAt {h' : HashRanges} {sl' : List HashedElement} (hs : h.Shape)
    (hs' : h'.Shape) (hfactor : h'.divideFactor = h.divideFactor) (hlive : h.Live c)
    (hlive' : h'.Live c) (hat : h.At c p rng) (hat' : h'.At c p rng)
    (helements : calcElementsHash H sl' c = calcElementsHash H sl c)
    (hparts : rng.isDivided = true → ∀ d ∈ genTupleRanges c h.divideFactor,
      h'.hashAt d = h.hashAt d) (hfresh : h.IsFresh H sl rng) : h'.IsFresh H sl' rng := by
  unfold IsFresh at hfresh ⊢
  split
  · next hdivided =>
    rw [if_pos hdivided, hs.calcDividedHash_eq hlive hat hdivided] at hfresh
    rw [hs'.calcDividedHash_eq hlive' hat' hdivided, ← hfresh, hfactor]
    congr 2
    exact List.flatMap_congr (hparts hdivided)
  · next hdivided =>
    rwa [if_neg hdivided, hs.tuple_eq hat, ← helements, ← hs.tuple_eq hat] at hfresh

end Hash

/-! ## One range -/

/-- The range with the digest that is computed for it. -/
def refreshed (H : Hashing) (sl : List HashedElement) (h : HashRanges) (rng : HashRange) :
    HashRange :=
  if rng.isDivided then
    { rng with hash := H.blake3 ((genTupleRanges rng.tuple h.divideFactor).flatMap h.hashAt) }
  else { rng with
    hash := (calcElementsHash H sl rng.tuple).1, elements := (calcElementsHash H sl rng.tuple).2 }

/-- `h'` has the range at `p` with a new digest, and its parent is dirty in its place. -/
structure Refresh (H : Hashing) (sl : List HashedElement) (h h' : HashRanges) (p : ℕ)
    (rng : HashRange) : Prop where
  relabel : Relabel h h'
  self : h'.heap[p]? = some (refreshed H sl h rng)
  other : ∀ q ≠ p, h'.heap[q]? = h.heap[q]?
  dirty : ∀ q, q ∈ h'.dirty ↔ (q ∈ h.dirty ∧ q ≠ p) ∨ rng.parent = some q

section Refresh

variable {H : Hashing} {sl : List HashedElement} {h h' : HashRanges} {c d x : RangeTuple} {p q : ℕ}
  {rng : HashRange}

@[simp]
theorem refreshed_frame : (refreshed H sl h rng).frame = rng.frame := by
  unfold refreshed
  split <;> rfl

theorem Refresh.of_modify {f : HashRange → HashRange} (hheap : h.heap[p]? = some rng)
    (hf : f rng = refreshed H sl h rng) (hframe : ∀ r, (f r).frame = r.frame) :
    Refresh H sl h
      (match rng.parent with
        | some parent => ((h.modify p f).unsetDirty p).setDirty parent
        | none => (h.modify p f).unsetDirty p) p rng := by
  have hrelabel : Relabel h ((h.modify p f).unsetDirty p) :=
    (Relabel.modify hframe).trans Relabel.unsetDirty
  have hself : (h.modify p f).heap[p]? = some (refreshed H sl h rng) := by
    simp [HashRanges.modify, hheap, hf]
  have hother : ∀ q ≠ p, (h.modify p f).heap[q]? = h.heap[q]? := by
    intro q hne
    simp [HashRanges.modify, hne.symm]
  cases hparent : rng.parent with
  | none =>
    refine ⟨hrelabel, hself, hother, fun q => ?_⟩
    rw [mem_unsetDirty, hparent]
    simp [HashRanges.modify]
  | some parent =>
    refine ⟨hrelabel.trans Relabel.setDirty, hself, hother, fun q => ?_⟩
    rw [mem_setDirty, mem_unsetDirty, hparent, Option.some.injEq, eq_comm (a := q)]
    rfl

theorem recalculateHash_spec (hs : h.Shape) (hlive : h.Live c) (hat : h.At c p rng) :
    ∃ h', recalculateHash H sl h p = .ok h' ∧ Refresh H sl h h' p rng := by
  have htuple := hs.tuple_eq hat
  cases hdivided : rng.isDivided with
  | true =>
    have hok : h.calcDividedHash H rng =
        .ok (H.blake3 ((genTupleRanges rng.tuple h.divideFactor).flatMap h.hashAt)) := by
      rw [htuple]
      exact hs.calcDividedHash_eq hlive hat hdivided
    have hrefresh : Refresh H sl h _ p rng := .of_modify (f := fun rng' => { rng' with
        hash := H.blake3 ((genTupleRanges rng.tuple h.divideFactor).flatMap h.hashAt) })
      hat.heap (by simp [refreshed, hdivided]) fun _ => rfl
    refine ⟨_, ?_, hrefresh⟩
    simp only [recalculateHash, get, hat.heap, hdivided, hok, bind, Except.bind, if_true]
    cases rng.parent <;> rfl
  | false =>
    have hrefresh : Refresh H sl h _ p rng := .of_modify (f := fun rng' => { rng' with
        hash := (calcElementsHash H sl rng.tuple).1
        elements := (calcElementsHash H sl rng.tuple).2 })
      hat.heap (by simp [refreshed, hdivided]) fun _ => rfl
    refine ⟨_, ?_, hrefresh⟩
    simp only [recalculateHash, get, hat.heap, hdivided, bind, Except.bind]
    cases rng.parent <;> rfl

namespace Refresh

variable (hr : Refresh H sl h h' p rng)
variable {r : HashRange}

include hr

theorem at_of_ne (hne : q ≠ p) (hat : h.At x q r) : h'.At x q r :=
  ⟨hr.relabel.ranges ▸ hat.lookup, (hr.other q hne).trans hat.heap⟩

theorem at_self (hat : h.At c p rng) : h'.At c p (refreshed H sl h rng) :=
  ⟨hr.relabel.ranges ▸ hat.lookup, hr.self⟩

theorem hashAt_of_ne (hs : h.Shape) (hat : h.At c p rng) (hne : d ≠ c) :
    h'.hashAt d = h.hashAt d := by
  rw [hashAt, hashAt, hr.relabel.ranges]
  cases hlookup : h.ranges.lookup d with
  | none => rfl
  | some q =>
    have hqp : q ≠ p := by
      rintro rfl
      exact hne (hs.eq_of_lookup hlookup hat.lookup)
    simp only [hr.other q hqp]

theorem shape (hs : h.Shape) (hlive : h.Live c) (hat : h.At c p rng) : h'.Shape := by
  refine hr.relabel.shape hs fun q hq => ?_
  rcases (hr.dirty q).mp hq with ⟨hq, -⟩ | hparent
  · exact hs.dirty q hq
  · -- the parent of a live range is live
    have hne : c ≠ topTuple := by
      rintro rfl
      obtain ⟨top, htop, hnone⟩ := hs.top
      obtain ⟨-, rfl⟩ := hat.unique htop
      rw [hnone] at hparent
      cases hparent
    obtain ⟨d, q', parent, hd, hparentAt, -, -, hparent'⟩ := hs.exists_parent hlive hne hat
    obtain rfl := Option.some.inj (hparent.symm.trans hparent')
    exact ⟨d, hd, hparentAt.lookup⟩

/-- A range is the refreshed one or as before. -/
theorem at_cases (hs : h.Shape) (hat : h.At c p rng) (hr' : h'.At x q r) :
    (x = c ∧ q = p ∧ r = refreshed H sl h rng) ∨ (x ≠ c ∧ q ≠ p ∧ h.At x q r) := by
  have hlookup : h.ranges.lookup x = some q := hr.relabel.ranges ▸ hr'.lookup
  by_cases hqp : q = p
  · subst hqp
    exact .inl ⟨hs.eq_of_lookup hlookup hat.lookup, rfl, (hr'.unique ⟨hr'.lookup, hr.self⟩).2⟩
  · refine .inr ⟨?_, hqp, hlookup, (hr.other q hqp).symm.trans hr'.heap⟩
    rintro rfl
    exact hqp (Option.some.inj (hlookup.symm.trans hat.lookup))

/-- The other ranges stay above a dirty range. -/
theorem dirtyBelow (hs : h.Shape) (hlive : h.Live c) (hat : h.At c p rng) (hx : h.Live x)
    (hne : x ≠ c) (hbelow : h.DirtyBelow x) : h'.DirtyBelow x := by
  obtain ⟨d, q, hd, hlookup, hdirty⟩ := hbelow
  by_cases hqp : q = p
  · -- the parent of `c`, which is below `x`, is dirty in the place of `c`
    subst hqp
    obtain rfl := hs.eq_of_lookup hlookup hat.lookup
    cases hd with
    | refl => exact absurd rfl hne
    | @step y _ q' parent hy hparent hdivided hmem =>
      obtain ⟨r, sub, hsub, hsubparent⟩ :=
        (hs.divided y q' parent (hx.trans hy) hparent hdivided).2 d hmem
      obtain ⟨rfl, rfl⟩ := hat.unique hsub
      exact ⟨y, q', hr.relabel.reach hy, hr.relabel.ranges ▸ hparent.lookup,
        (hr.dirty q').mpr (.inr hsubparent)⟩
  · exact ⟨d, q, hr.relabel.reach hd, hr.relabel.ranges ▸ hlookup,
      (hr.dirty q).mpr (.inl ⟨hdirty, hqp⟩)⟩

/-- A range of which no part was refreshed is as fresh as before. -/
theorem isFresh_of_not_mem (hs : h.Shape) (hlive : h.Live c) (hat : h.At c p rng) (hx : h.Live x)
    (hne : q ≠ p) (hatx : h.At x q r)
    (hmem : r.isDivided = true → c ∉ genTupleRanges x h.divideFactor) (hfresh : h.IsFresh H sl r) :
    h'.IsFresh H sl r := by
  refine isFresh_of_hashAt hs (hr.shape hs hlive hat) hr.relabel.divideFactor hx
    (hr.relabel.reach hx) hatx (hr.at_of_ne hne hatx) rfl (fun hdivided d hd => ?_) hfresh
  refine hr.hashAt_of_ne hs hat ?_
  rintro rfl
  exact hmem hdivided hd

theorem isFresh_self (hs : h.Shape) (hlive : h.Live c) (hat : h.At c p rng) :
    h'.IsFresh H sl (refreshed H sl h rng) := by
  have htuple := hs.tuple_eq hat
  unfold IsFresh
  split
  · next hdivided =>
    rw [(hr.shape hs hlive hat).calcDividedHash_eq (hr.relabel.reach hlive) (hr.at_self hat)
      hdivided, hr.relabel.divideFactor]
    have hdivided' : rng.isDivided = true :=
      (congrArg (·.2.2) refreshed_frame).symm.trans hdivided
    rw [refreshed, if_pos hdivided', htuple]
    simp only
    congr 2
    -- the range is not one of its own parts
    refine List.flatMap_congr fun d hd => hr.hashAt_of_ne hs hat ?_
    exact (hs.lt_of_mem (hs.divided c p rng hlive hat hdivided').1 hd).ne
  · next hdivided =>
    have hdivided' : ¬ rng.isDivided = true := fun h' =>
      hdivided ((congrArg (·.2.2) refreshed_frame).trans h')
    rw [refreshed, if_neg hdivided']
    exact ⟨rfl, rfl⟩

/-- Refreshing a range keeps the ranges sound. -/
theorem sound (hord : Ordered H sl) (hsound : Sound H sl h) (hlive : h.Live c)
    (hat : h.At c p rng) : Sound H sl h' where
  shape := hr.shape hsound.shape hlive hat
  top r hr' := by
    rcases hr.at_cases hsound.shape hat (hr.relabel.topRange ▸ hr') with
      ⟨rfl, hp, rfl⟩ | ⟨-, -, hr'⟩
    · rw [← hp] at hat
      exact (congrArg (·.2.2) refreshed_frame).trans (hsound.top rng hat)
    · exact hsound.top r hr'
  fresh x q r hx hr' := by
    have hx' := hr.relabel.symm.reach hx
    rcases hr.at_cases hsound.shape hat hr' with ⟨rfl, rfl, rfl⟩ | ⟨hne, hqp, hr'⟩
    · exact .inl (hr.isFresh_self hsound.shape hlive hat)
    · rcases hsound.fresh x q r hx' hr' with hfresh | hbelow
      · by_cases hmem : r.isDivided = true ∧ c ∈ genTupleRanges x h.divideFactor
        · -- the digest of the parent is out of date, and the parent is dirty
          obtain ⟨q', sub, hsub, hparent⟩ :=
            (hsound.shape.divided x q r hx' hr' hmem.1).2 c hmem.2
          obtain ⟨rfl, rfl⟩ := hat.unique hsub
          exact .inr ⟨x, q, .refl, hr.relabel.ranges ▸ hr'.lookup, (hr.dirty q).mpr (.inr hparent)⟩
        · exact .inl (hr.isFresh_of_not_mem hsound.shape hlive hat hx' hqp hr'
            (fun hd hc => hmem ⟨hd, hc⟩) hfresh)
      · exact .inr (hr.dirtyBelow hsound.shape hlive hat hx' hne hbelow)
  count_le x q r hx hr' := by
    have hx' := hr.relabel.symm.reach hx
    rcases hr.at_cases hsound.shape hat hr' with ⟨rfl, rfl, rfl⟩ | ⟨-, -, hr'⟩
    · unfold refreshed
      split
      · exact hsound.count_le x q rng hx' hat
      · rw [← hord.length_within, hsound.shape.tuple_eq hat]
        exact le_rfl
    · exact hsound.count_le x q r hx' hr'
  leaf_le x q r hx hr' hleaf := by
    have hx' := hr.relabel.symm.reach hx
    rw [hr.relabel.compareThreshold]
    rcases hr.at_cases hsound.shape hat hr' with ⟨rfl, rfl, rfl⟩ | ⟨-, -, hr'⟩
    · have hleaf' : rng.isDivided = false := (congrArg (·.2.2) refreshed_frame).symm.trans hleaf
      rw [refreshed, if_neg (by simp [hleaf']), hsound.shape.tuple_eq hat]
      have hlen := hord.length_within x
      have hle := hsound.count_le x q rng hx' hat
      have hle' := hsound.leaf_le x q rng hx' hat hleaf'
      show ((within sl x).length : ℤ) ≤ _
      omega
    · exact hsound.leaf_le x q r hx' hr' hleaf

end Refresh

end Refresh

/-! ## All ranges -/

section Rounds

variable {H : Hashing} {sl : List HashedElement} {h : HashRanges}
variable {ord : RangeOrder} {p : ℕ}

/-- A pass over live ranges returns. Afterwards the ranges of the pass are dirty only as parents
of ranges of the pass. -/
theorem recalculate_pass (hord : Ordered H sl) (hsound : Sound H sl h) {ps : List ℕ}
    (hps : ∀ p ∈ ps, ∃ c, h.Live c ∧ h.ranges.lookup c = some p) :
    ∃ h', ps.foldlM (recalculateHash H sl) h = .ok h' ∧ Relabel h h' ∧ Sound H sl h' ∧
      ∀ q ∈ h'.dirty, (q ∈ h.dirty ∧ q ∉ ps) ∨ ∃ p ∈ ps, q < p := by
  induction ps generalizing h with
  | nil => exact ⟨h, rfl, .refl h, hsound, fun q hq => .inl ⟨hq, List.not_mem_nil⟩⟩
  | cons p ps ih =>
    obtain ⟨c, hlive, hlookup⟩ := hps p List.mem_cons_self
    obtain ⟨rng, hheap, -⟩ := hsound.shape.keys c p hlookup
    have hat : h.At c p rng := ⟨hlookup, hheap⟩
    obtain ⟨h₁, hfirst, hr⟩ : ∃ h₁, recalculateHash H sl h p = .ok h₁ ∧ Refresh H sl h h₁ p rng :=
      recalculateHash_spec hsound.shape hlive hat
    obtain ⟨h', hrest, hrelabel, hsound', hdirty⟩ :=
      ih (hr.sound hord hsound hlive hat) fun q hq => by
        obtain ⟨d, hd, hlookupd⟩ := hps q (List.mem_cons_of_mem _ hq)
        exact ⟨d, hr.relabel.reach hd, hr.relabel.ranges ▸ hlookupd⟩
    refine ⟨h', foldlM_cons_eq_ok.mpr ⟨h₁, hfirst, hrest⟩, hr.relabel.trans hrelabel, hsound',
      fun q hq => ?_⟩
    rcases hdirty q hq with ⟨hq₁, hnot⟩ | ⟨r, hr', hlt⟩
    · rcases (hr.dirty q).mp hq₁ with ⟨hq₀, hne⟩ | hparent
      · exact .inl ⟨hq₀, by simp [hne, hnot]⟩
      · exact .inr ⟨p, List.mem_cons_self, hsound.shape.parent_lt p rng q hheap hparent⟩
    · exact .inr ⟨r, List.mem_cons_of_mem _ hr', hlt⟩

theorem mem_slDirty {round : ℕ} : p ∈ h.slDirty ord round ↔ p ∈ h.dirty := by
  rw [slDirty, (List.perm_insertionSort _ _).mem_iff, (ord.shuffle_perm _ _ _).mem_iff]

/-- What `recalculateHash` preserves, `recalculateHashes` preserves. -/
theorem recalculateHashes_invariant (Inv : HashRanges → Prop)
    (hstep : ∀ h p h', Inv h → recalculateHash H sl h p = .ok h' → Inv h') (hinit : Inv h)
    (hok : recalculateHashes H sl ord h = .ok h') : Inv h' := by
  unfold recalculateHashes at hok
  generalize h.heap.length = n at hok
  induction n generalizing h with
  | zero =>
    unfold recalculateRounds at hok
    split at hok
    · exact Except.ok.inj hok ▸ hinit
    · cases hok
  | succ n ih =>
    unfold recalculateRounds at hok
    split at hok
    · exact Except.ok.inj hok ▸ hinit
    · obtain ⟨h₁, hpass, hok⟩ := Except.bind_eq_ok.mp hok
      exact ih (foldlM_invariant Inv hstep hinit hpass) hok

/-- Parents come earlier in the heap, so the passes end. -/
theorem recalculateRounds_spec (hord : Ordered H sl) (ord : RangeOrder) {n : ℕ}
    (hsound : Sound H sl h) (hn : ∀ p ∈ h.dirty, p < n) :
    ∃ h', recalculateRounds H sl ord n h = .ok h' ∧ Relabel h h' ∧ Sound H sl h' ∧
      h'.dirty = [] := by
  induction n generalizing h with
  | zero =>
    have hempty : h.dirty = [] := List.eq_nil_iff_forall_not_mem.mpr fun p hp => by
      have := hn p hp
      omega
    exact ⟨h, by simp [recalculateRounds, hempty], .refl h, hsound, hempty⟩
  | succ n ih =>
    by_cases hempty : h.dirty = []
    · exact ⟨h, by simp [recalculateRounds, hempty], .refl h, hsound, hempty⟩
    · obtain ⟨h₁, hpass, hrelabel, hsound₁, hdirty⟩ := recalculate_pass hord hsound
        fun p (hp : p ∈ h.slDirty ord n) => hsound.shape.dirty p (mem_slDirty.mp hp)
      obtain ⟨h', hrounds, hrelabel', hsound', hempty'⟩ := ih hsound₁ fun q hq => by
        rcases hdirty q hq with ⟨hq, hnot⟩ | ⟨p, hp, hlt⟩
        · exact absurd (mem_slDirty.mpr hq) hnot
        · have := hn p (mem_slDirty.mp hp)
          omega
      refine ⟨h', ?_, hrelabel.trans hrelabel', hsound', hempty'⟩
      rw [recalculateRounds, if_neg (by simpa using hempty), hpass]
      exact hrounds

/-- `recalculateHashes` returns, for every order of its passes, and leaves no dirty range. -/
theorem recalculateHashes_spec (hord : Ordered H sl) (ord : RangeOrder) (hsound : Sound H sl h) :
    ∃ h', recalculateHashes H sl ord h = .ok h' ∧ Relabel h h' ∧ Sound H sl h' ∧
      h'.dirty = [] := by
  refine recalculateRounds_spec hord ord hsound fun p hp => ?_
  obtain ⟨c, -, hlookup⟩ := hsound.shape.dirty p hp
  obtain ⟨rng, hheap, -⟩ := hsound.shape.keys c p hlookup
  exact (List.getElem?_eq_some_iff.mp hheap).1

theorem Sound.isFresh {c : RangeTuple} {rng : HashRange} (hsound : Sound H sl h)
    (hdirty : h.dirty = []) (hlive : h.Live c) (hat : h.At c p rng) : h.IsFresh H sl rng := by
  rcases hsound.fresh c p rng hlive hat with hfresh | ⟨d, q, -, -, hq⟩
  · exact hfresh
  · rw [hdirty] at hq
    cases hq

end Rounds

end HashRanges

end Ldiff
