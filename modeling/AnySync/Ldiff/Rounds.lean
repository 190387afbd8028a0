import AnySync.Ldiff.Diff
import AnySync.Ldiff.Digest

/-!
# Rounds against any remote

`Diff` and `CompareDiff` against a `Remote` that answers as it likes, with one result for each
range.

`rounds_finite_iff` says when the rounds end, `remoteRounds_ok_of_settles` gives a condition on the
single answers.
-/

namespace Ldiff

open Except (bind_eq_ok)

/-- The function `find` of `compareElementsGreater`: whether the id is there, with the same head,
and with a greater head. -/
def findGreater (list : List Element) (targetEl : Element) : Bool × Bool × Bool :=
  match list.find? fun el => el.id = targetEl.id with
  | none => (false, false, false)
  | some el =>
    if el.head = targetEl.head then (true, true, false)
    else (true, false, targetEl.head < el.head)

/-- `compareElementsGreater`. -/
def compareElementsGreater (dctx : DiffCtx) (my other : List Element) : DiffCtx :=
  let dctx := my.foldl (fun dctx el =>
    match findGreater other el with
    | (false, _, _) => { dctx with removedIds := dctx.removedIds ++ [el.id] }
    | (true, true, _) => dctx
    | (true, false, true) => { dctx with theirChangedIds := dctx.theirChangedIds ++ [el.id] }
    | (true, false, false) => { dctx with changedIds := dctx.changedIds ++ [el.id] }) dctx
  other.foldl (fun dctx el =>
    match findGreater my el with
    | (false, _, _) => { dctx with newIds := dctx.newIds ++ [el.id] }
    | (true, _, _) => dctx) dctx

/-- `Remote`, without errors. It answers each round with one result for each range. -/
structure Remote where
  /-- `Ranges`, as it answers in a round. -/
  ranges (round : ℕ) (toSend : List Range) : List RangeResult
  length_ranges : ∀ round toSend, (ranges round toSend).length = toSend.length

/-- A container that does not change. -/
def Container.remote (dl : Container) : Remote where
  ranges _ toSend := toSend.map dl.getRange
  length_ranges _ _ := List.length_map _

namespace Container

variable (d : Container) (dl : Remote)
  (compareFunc : DiffCtx → List Element → List Element → DiffCtx)
variable {j q rest n N fuel : ℕ} {c : RangeTuple} {dctx : DiffCtx}

/-- The inner loop of `Diff` and `CompareDiff`. -/
def remoteRound (dctx : DiffCtx) (toSend : List Range) (otherRes : List RangeResult) : DiffCtx :=
  (toSend.zip otherRes).foldl
    (fun dctx x => d.compareResults compareFunc dctx x.1 (d.getRange x.1) x.2) dctx

/-- One round: the results so far and the ranges of the next round. -/
def nextRound (round : ℕ) (s : DiffCtx × List Range) : DiffCtx × List Range :=
  let dctx := d.remoteRound compareFunc s.1 s.2 (dl.ranges round s.2)
  ({ dctx with prepare := [] }, dctx.prepare)

/-- The loop of `Diff` and `CompareDiff`. -/
def remoteRounds : ℕ → ℕ → DiffCtx × List Range → Except Failure DiffCtx
  | _, _, (dctx, []) => .ok dctx
  | 0, _, (_, _ :: _) => .error .outOfFuel
  | fuel + 1, round, s => remoteRounds fuel (round + 1) (d.nextRound dl compareFunc round s)

/-- The state before the first round. -/
def firstRound : DiffCtx × List Range := (.empty, [{ tuple := topTuple, elements := false }])

/-- `Diff`. -/
def diffRemote (fuel : ℕ) : Except Failure DiffCtx :=
  d.remoteRounds dl compareElementsEqual fuel 0 firstRound

/-- `CompareDiff`. -/
def compareDiffRemote (fuel : ℕ) : Except Failure DiffCtx :=
  d.remoteRounds dl compareElementsGreater fuel 0 firstRound

/-- The state before a round, with no ranges once the loop has ended. -/
def atRound : ℕ → DiffCtx × List Range
  | 0 => firstRound
  | round + 1 => d.nextRound dl compareFunc round (atRound round)

/-- The ranges that are asked for in a round. -/
def sent (round : ℕ) : List Range := (d.atRound dl compareFunc round).2

/-- The answer ends the comparison of the range, or leads to ranges with fewer hashes, or to a
question for the elements of the range that were not asked for before. -/
def Settles (r : Range) (otherRes : RangeResult) : Prop :=
  (d.getRange r).hash = otherRes.hash ∨ otherRes.elements.length = otherRes.count ∨
    r.elements = false ∧
      (otherRes.count ≤ d.ranges.compareThreshold ∧ otherRes.elements.length = 0 ∨
        (d.getRange r).elements.length = (d.getRange r).count ∨
        d.ranges.divideFactor ≤ sub64 r.tuple.hi r.tuple.lo + 1)

/-- All answers of a round settle their ranges. -/
def RoundSettles (round : ℕ) : Prop :=
  ∀ x ∈ (d.sent dl compareFunc round).zip (dl.ranges round (d.sent dl compareFunc round)),
    d.Settles x.1 x.2

variable {d : Container} {dl : Remote}
  {compareFunc : DiffCtx → List Element → List Element → DiffCtx} {r r' : Range}
  {otherRes : RangeResult} {dctx : DiffCtx}

/-! ## What is asked for next -/

/-- The ranges that `compareResults` asks for next. -/
def asks (d : Container) (r : Range) (otherRes : RangeResult) : List Range :=
  if (d.getRange r).hash = otherRes.hash then []
  else if otherRes.elements.length = otherRes.count then []
  else if otherRes.count ≤ d.ranges.compareThreshold ∧ otherRes.elements.length = 0 ∨
      (d.getRange r).elements.length = (d.getRange r).count then [{ r with elements := true }]
  else (genTupleRanges r.tuple d.ranges.divideFactor).map fun c => { tuple := c, elements := false }

/-- The comparison of elements asks for nothing. -/
def KeepsPrepare (compareFunc : DiffCtx → List Element → List Element → DiffCtx) : Prop :=
  ∀ dctx my other, (compareFunc dctx my other).prepare = dctx.prepare

theorem keepsPrepare_equal : KeepsPrepare compareElementsEqual := by
  intro dctx my other
  rw [compareElementsEqual_eq]
  exact List.append_nil _

theorem foldl_prepare {step : DiffCtx → Element → DiffCtx}
    (hstep : ∀ dctx el, (step dctx el).prepare = dctx.prepare) (l : List Element) (dctx : DiffCtx) :
    (l.foldl step dctx).prepare = dctx.prepare := by
  induction l generalizing dctx with
  | nil => rfl
  | cons el l ih => rw [List.foldl_cons, ih, hstep]

theorem keepsPrepare_greater : KeepsPrepare compareElementsGreater := by
  intro dctx my other
  rw [compareElementsGreater, foldl_prepare ?_ other, foldl_prepare ?_ my]
  · intro dctx el
    split <;> rfl
  · intro dctx el
    split <;> rfl

theorem compareResults_prepare (hkeeps : KeepsPrepare compareFunc) :
    (d.compareResults compareFunc dctx r (d.getRange r) otherRes).prepare =
      dctx.prepare ++ d.asks r otherRes := by
  unfold compareResults asks
  split_ifs <;> simp [hkeeps dctx]

theorem remoteRound_prepare (hkeeps : KeepsPrepare compareFunc) {toSend : List Range}
    {results : List RangeResult} : (d.remoteRound compareFunc dctx toSend results).prepare =
      dctx.prepare ++ (toSend.zip results).flatMap fun x => d.asks x.1 x.2 := by
  rw [remoteRound]
  generalize toSend.zip results = l
  induction l generalizing dctx with
  | nil => simp
  | cons x l ih =>
    rw [List.foldl_cons, ih, compareResults_prepare hkeeps, List.flatMap_cons, List.append_assoc]

theorem atRound_prepare (round : ℕ) : (d.atRound dl compareFunc round).1.prepare = [] := by
  cases round <;> rfl

theorem sent_succ (hkeeps : KeepsPrepare compareFunc) (round : ℕ) :
    d.sent dl compareFunc (round + 1) =
      ((d.sent dl compareFunc round).zip
        (dl.ranges round (d.sent dl compareFunc round))).flatMap fun x => d.asks x.1 x.2 := by
  rw [sent, atRound, nextRound]
  dsimp only
  rw [remoteRound_prepare hkeeps, atRound_prepare, List.nil_append]
  rfl

/-! ## The measure -/

/-- Both ends are hashes. -/
def Bounded (r : Range) : Prop := r.tuple.lo < hashes ∧ r.tuple.hi < hashes

/-- The number of hashes of a range whose elements were not asked for. A range that ends before it
starts goes around. -/
def rank (r : Range) : ℕ := if r.elements then 0 else sub64 r.tuple.hi r.tuple.lo + 1

theorem rank_le (r : Range) : rank r ≤ hashes := by
  have hlt : sub64 r.tuple.hi r.tuple.lo < hashes := Nat.mod_lt _ (by decide)
  rw [rank]
  split
  · exact Nat.zero_le _
  · omega

theorem sub64_lt (a b : ℕ) : sub64 a b < hashes := Nat.mod_lt _ (by decide)

theorem add64_lt (a b : ℕ) : add64 a b < hashes := Nat.mod_lt _ (by decide)

/-- The distance of the ends of a range of `q` hashes, also if it goes around. -/
theorem sub64_sub64_add64 (hj : j < hashes) (hq : 1 ≤ q) (hle : q ≤ hashes) :
    sub64 (sub64 (add64 j q) 1) j = q - 1 := by
  simp only [sub64, add64, hashes] at *
  omega

/-- `genTupleRanges` makes ranges of hashes, also of a range that it cannot divide. -/
theorem bounded_genTuples (hj : j < hashes) (hc : c ∈ genTuples q rest n j) :
    c.lo < hashes ∧ c.hi < hashes := by
  induction n generalizing j with
  | zero =>
    rw [genTuples, List.mem_singleton] at hc
    subst hc
    exact ⟨hj, sub64_lt _ _⟩
  | succ n ih =>
    rw [genTuples, List.mem_cons] at hc
    rcases hc with rfl | hc
    · exact ⟨hj, sub64_lt _ _⟩
    · exact ih (add64_lt _ _) hc

/-- The ranges of `genTupleRanges` have `q` hashes, and the last one has the rest as well. -/
theorem width_genTuples (hj : j < hashes) (hq : 1 ≤ q) (hle : q + rest ≤ hashes)
    (hc : c ∈ genTuples q rest n j) : sub64 c.hi c.lo ≤ q + rest - 1 := by
  induction n generalizing j with
  | zero =>
    rw [genTuples, List.mem_singleton] at hc
    subst hc
    exact (sub64_sub64_add64 hj (by omega) hle).le
  | succ n ih =>
    rw [genTuples, List.mem_cons] at hc
    rcases hc with rfl | hc
    · refine (sub64_sub64_add64 hj hq (by omega)).le.trans ?_
      omega
    · exact ih (add64_lt _ _) hc

/-- A division leads to fewer hashes if there are at least `divideFactor`. -/
theorem width_lt_of_le {e : RangeTuple} {df : ℕ} (hdf : 2 ≤ df) (hlo : c.lo < hashes)
    (hwide : df ≤ sub64 c.hi c.lo + 1) (he : e ∈ genTupleRanges c df) :
    sub64 e.hi e.lo < sub64 c.hi c.lo := by
  have hlt := sub64_lt c.hi c.lo
  rw [genTupleRanges, perRange, align] at he
  generalize sub64 c.hi c.lo = w at *
  have hdiv := Nat.div_add_mod w df
  have hmod := Nat.mod_lt w (show 0 < df by omega)
  have hmul : 2 * (w / df) ≤ df * (w / df) := Nat.mul_le_mul_right _ hdf
  -- either all ranges take one hash more, or the last range takes the rest
  by_cases hfull : w % df + 1 = df
  · rw [hfull, Nat.mod_self, if_pos rfl] at he
    have hle := width_genTuples hlo (by omega) (by omega) he
    omega
  · have hsmall : w % df + 1 < df := by omega
    rw [Nat.mod_eq_of_lt hsmall, if_neg (by omega), Nat.add_zero] at he
    have hpos : 1 ≤ w / df := by
      rw [Nat.one_le_div_iff (by omega)]
      by_contra hnot
      rw [Nat.mod_eq_of_lt (by omega)] at hsmall
      omega
    have hle := width_genTuples hlo hpos (by omega) he
    omega

theorem bounded_of_mem_asks (hr : Bounded r) (hmem : r' ∈ d.asks r otherRes) : Bounded r' := by
  unfold asks at hmem
  split_ifs at hmem
  · cases hmem
  · cases hmem
  · rw [List.mem_singleton] at hmem
    subst hmem
    exact hr
  · obtain ⟨c, hc, rfl⟩ := List.mem_map.mp hmem
    exact bounded_genTuples hr.1 hc

/-- Every question that follows has a smaller rank, if the answer settles the range. -/
theorem rank_lt_of_mem_asks (hdf : 2 ≤ d.ranges.divideFactor) (hr : Bounded r)
    (hsettles : d.Settles r otherRes) (hmem : r' ∈ d.asks r otherRes) : rank r' < rank r := by
  unfold asks at hmem
  split_ifs at hmem with hhash hcomplete hask
  · cases hmem
  · cases hmem
  · obtain ⟨helements, -⟩ := (hsettles.resolve_left hhash).resolve_left hcomplete
    rw [List.mem_singleton] at hmem
    subst hmem
    rw [rank, if_pos rfl, rank, helements]
    exact Nat.succ_pos _
  · obtain ⟨helements, hwide⟩ := (hsettles.resolve_left hhash).resolve_left hcomplete
    have hle : d.ranges.divideFactor ≤ sub64 r.tuple.hi r.tuple.lo + 1 := by
      rw [not_or] at hask
      exact (hwide.resolve_left hask.1).resolve_left hask.2
    obtain ⟨c, hc, rfl⟩ := List.mem_map.mp hmem
    have hlt := width_lt_of_le hdf hr.1 hle hc
    rw [rank, rank, helements]
    exact Nat.succ_lt_succ hlt

/-! ## The end of the loop -/

theorem bounded_sent (hkeeps : KeepsPrepare compareFunc) (round : ℕ) :
    ∀ r ∈ d.sent dl compareFunc round, Bounded r := by
  induction round with
  | zero =>
    intro r hr
    rw [sent, atRound, firstRound, List.mem_singleton] at hr
    subst hr
    exact ⟨by decide, by decide⟩
  | succ round ih =>
    intro r hr
    rw [sent_succ hkeeps, List.mem_flatMap] at hr
    obtain ⟨x, hx, hr⟩ := hr
    exact bounded_of_mem_asks (ih x.1 (List.of_mem_zip hx).1) hr

/-- While the answers settle their ranges, the ranks go down. -/
theorem rank_sent_le (hdf : 2 ≤ d.ranges.divideFactor) (hkeeps : KeepsPrepare compareFunc)
    (hsettles : ∀ round ≥ N, d.RoundSettles dl compareFunc round) (n : ℕ) :
    ∀ r ∈ d.sent dl compareFunc (N + n), rank r + n ≤ hashes := by
  induction n with
  | zero => exact fun r _ => rank_le r
  | succ n ih =>
    intro r hr
    rw [← Nat.add_assoc, sent_succ hkeeps, List.mem_flatMap] at hr
    obtain ⟨x, hx, hr⟩ := hr
    have hmem := (List.of_mem_zip hx).1
    have hlt := rank_lt_of_mem_asks hdf (bounded_sent hkeeps _ x.1 hmem)
      (hsettles _ (Nat.le_add_right N n) x hx) hr
    have hle := ih x.1 hmem
    omega

/-- Once nothing is asked for, nothing is asked for later. -/
theorem sent_eq_nil_of_le (hkeeps : KeepsPrepare compareFunc) {m : ℕ} (hle : m ≤ n)
    (hnil : d.sent dl compareFunc m = []) : d.sent dl compareFunc n = [] := by
  induction hle with
  | refl => exact hnil
  | step _ ih => rw [sent_succ hkeeps, ih, List.zip_nil_left, List.flatMap_nil]

theorem exists_sent_eq_nil (round : ℕ)
    (hok : d.remoteRounds dl compareFunc fuel round (d.atRound dl compareFunc round) = .ok dctx) :
    ∃ n, d.sent dl compareFunc n = [] := by
  induction fuel generalizing round with
  | zero =>
    cases hsent : d.sent dl compareFunc round with
    | nil => exact ⟨round, hsent⟩
    | cons r toSend =>
      have hstate : d.atRound dl compareFunc round =
          ((d.atRound dl compareFunc round).1, r :: toSend) := Prod.ext rfl hsent
      rw [hstate, remoteRounds] at hok
      cases hok
  | succ fuel ih =>
    cases hsent : d.sent dl compareFunc round with
    | nil => exact ⟨round, hsent⟩
    | cons r toSend =>
      have hstate : d.atRound dl compareFunc round =
          ((d.atRound dl compareFunc round).1, r :: toSend) := Prod.ext rfl hsent
      rw [hstate, remoteRounds, ← hstate] at hok
      · exact ih _ hok
      · exact fun _ hnil => by cases hnil

theorem remoteRounds_ok_of_sent_eq_nil (round : ℕ) (hnil : d.sent dl compareFunc (round + n) = []) :
    ∃ dctx, d.remoteRounds dl compareFunc n round (d.atRound dl compareFunc round) = .ok dctx := by
  induction n generalizing round with
  | zero =>
    have hstate : d.atRound dl compareFunc round = ((d.atRound dl compareFunc round).1, []) :=
      Prod.ext rfl hnil
    exact ⟨_, by rw [hstate, remoteRounds]⟩
  | succ n ih =>
    cases hsent : d.sent dl compareFunc round with
    | nil =>
      have hstate : d.atRound dl compareFunc round = ((d.atRound dl compareFunc round).1, []) :=
        Prod.ext rfl hsent
      exact ⟨_, by rw [hstate, remoteRounds]⟩
    | cons r toSend =>
      have hstate : d.atRound dl compareFunc round =
          ((d.atRound dl compareFunc round).1, r :: toSend) := Prod.ext rfl hsent
      obtain ⟨dctx, hok⟩ := ih (round + 1) (by rw [← hnil]; congr 1; omega)
      refine ⟨dctx, ?_⟩
      rw [hstate, remoteRounds, ← hstate]
      · exact hok
      · exact fun _ hnil => by cases hnil

/-- The loop ends or is out of fuel. -/
theorem remoteRounds_cases (fuel round : ℕ) (s : DiffCtx × List Range) :
    (∃ dctx, d.remoteRounds dl compareFunc fuel round s = .ok dctx) ∨
      d.remoteRounds dl compareFunc fuel round s = .error .outOfFuel := by
  induction fuel generalizing round s with
  | zero =>
    obtain ⟨dctx, _ | ⟨r, toSend⟩⟩ := s
    · exact .inl ⟨dctx, by rw [remoteRounds]⟩
    · exact .inr (by rw [remoteRounds])
  | succ fuel ih =>
    obtain ⟨dctx, _ | ⟨r, toSend⟩⟩ := s
    · exact .inl ⟨dctx, by rw [remoteRounds]⟩
    · rw [remoteRounds]
      · exact ih _ _
      · simp

/-- A remote that keeps a range in the next round is asked for ever. -/
theorem remoteRounds_outOfFuel (hsent : ∀ round, d.sent dl compareFunc round ≠ []) (fuel : ℕ) :
    d.remoteRounds dl compareFunc fuel 0 firstRound = .error .outOfFuel := by
  refine (remoteRounds_cases fuel 0 firstRound).resolve_left ?_
  rintro ⟨dctx, hok⟩
  obtain ⟨n, hnil⟩ := exists_sent_eq_nil 0 hok
  exact hsent n hnil

/-- If all answers from the round `N` on settle their ranges, the ranks bound the number of rounds
that follow. -/
theorem remoteRounds_ok_of_settles (hdf : 2 ≤ d.ranges.divideFactor)
    (hkeeps : KeepsPrepare compareFunc)
    (hsettles : ∀ round ≥ N, d.RoundSettles dl compareFunc round) :
    ∃ dctx, d.remoteRounds dl compareFunc (N + (hashes + 1)) 0 firstRound = .ok dctx := by
  -- a range would have a negative rank by then
  have hnil : d.sent dl compareFunc (0 + (N + (hashes + 1))) = [] := by
    rw [Nat.zero_add]
    apply List.eq_nil_iff_forall_not_mem.mpr
    intro r hr
    have hle := rank_sent_le hdf hkeeps hsettles (hashes + 1) r hr
    omega
  exact remoteRounds_ok_of_sent_eq_nil 0 hnil

/-- After the end of the loop nothing is asked for, so that anything holds of the answers. This is
the converse, which would hold with any other condition on them in the place of `Settles`. -/
theorem settles_of_remoteRounds_ok (hkeeps : KeepsPrepare compareFunc)
    (hok : d.remoteRounds dl compareFunc fuel 0 firstRound = .ok dctx) :
    ∃ N, ∀ round ≥ N, d.RoundSettles dl compareFunc round := by
  obtain ⟨n, hnil⟩ := exists_sent_eq_nil 0 hok
  refine ⟨n, fun round hround => ?_⟩
  rw [RoundSettles, sent_eq_nil_of_le hkeeps hround hnil, List.zip_nil_left]
  exact fun x hx => absurd hx List.not_mem_nil

/-- The loop of a call ends if from some round on all answers settle their ranges, within a bound,
and only then. -/
theorem rounds_end_iff (hdf : 2 ≤ d.ranges.divideFactor) (hkeeps : KeepsPrepare compareFunc) :
    (∀ N, (∀ round ≥ N, d.RoundSettles dl compareFunc round) →
        ∃ dctx, d.remoteRounds dl compareFunc (N + (hashes + 1)) 0 firstRound = .ok dctx) ∧
      ((∃ fuel dctx, d.remoteRounds dl compareFunc fuel 0 firstRound = .ok dctx) ↔
        ∃ N, ∀ round ≥ N, d.RoundSettles dl compareFunc round) :=
  ⟨fun _ hsettles => remoteRounds_ok_of_settles hdf hkeeps hsettles,
    fun ⟨_, _, hok⟩ => settles_of_remoteRounds_ok hkeeps hok,
    fun ⟨_, hsettles⟩ => ⟨_, remoteRounds_ok_of_settles hdf hkeeps hsettles⟩⟩

end Container

/-! ## The local container -/

namespace HashRanges

variable {H : Hashing} {sl : List HashedElement} {h h' : HashRanges} {fuel : ℕ}

theorem recalculateHash_divideFactor {p : ℕ} (hok : recalculateHash H sl h p = .ok h') :
    h'.divideFactor = h.divideFactor := by
  rw [recalculateHash, bind_eq_ok] at hok
  obtain ⟨rng, -, hok⟩ := hok
  dsimp only at hok
  split at hok
  · obtain ⟨hash, -, hok⟩ := bind_eq_ok.mp hok
    cases hparent : rng.parent <;> rw [hparent] at hok <;> cases hok <;> rfl
  · cases hparent : rng.parent <;> rw [hparent] at hok <;> cases hok <;> rfl

theorem recalculateHashes_divideFactor {ord : RangeOrder}
    (hok : recalculateHashes H sl ord h = .ok h') : h'.divideFactor = h.divideFactor :=
  recalculateHashes_invariant (·.divideFactor = h.divideFactor)
    (fun _ _ _ hinv hstep => (recalculateHash_divideFactor hstep).trans hinv) rfl hok

end HashRanges

namespace Container

variable {H : Hashing} {fuel : ℕ} {d d' : Container}
variable {ord : RangeOrder} {divideFactor compareThreshold : ℤ}

theorem recalculate_divideFactor (hok : d.recalculate H ord = .ok d') :
    d'.ranges.divideFactor = d.ranges.divideFactor := by
  rw [recalculate, bind_eq_ok] at hok
  obtain ⟨h, hrec, hok⟩ := hok
  cases hok
  exact HashRanges.recalculateHashes_divideFactor hrec

theorem setElement_divideFactor {e : Element} (hok : d.setElement H fuel e = .ok d') :
    d'.ranges.divideFactor = d.ranges.divideFactor := by
  rw [setElement, bind_eq_ok] at hok
  obtain ⟨h, hadd, hok⟩ := hok
  cases hok
  exact (HashRanges.addElement_params hadd).1

theorem apply_divideFactor {op : Op} (hok : d.apply H fuel op = .ok d') :
    d'.ranges.divideFactor = d.ranges.divideFactor := by
  cases op with
  | set elements ord =>
    rw [apply, set, bind_eq_ok] at hok
    obtain ⟨d₁, hset, hok⟩ := hok
    have hfirst := foldlM_invariant
      (fun d₁ : Container => d₁.ranges.divideFactor = d.ranges.divideFactor)
      (fun _ _ _ hinv hstep => (setElement_divideFactor hstep).trans hinv) rfl hset
    exact (recalculate_divideFactor hok).trans hfirst
  | removeId id ord =>
    rw [apply, removeId] at hok
    split at hok
    · cases hok
      rfl
    · rw [bind_eq_ok] at hok
      obtain ⟨h, hremove, hok⟩ := hok
      exact (recalculate_divideFactor hok).trans (HashRanges.removeElement_params hremove).1

theorem new_divideFactor (hok : new H fuel divideFactor compareThreshold ord = .ok d) :
    d.ranges.divideFactor = if divideFactor < 2 then 2 else divideFactor.toNat := by
  rw [new, bind_eq_ok] at hok
  obtain ⟨h, hnew, hok⟩ := hok
  rw [bind_eq_ok] at hok
  obtain ⟨h₁, hrec, hok⟩ := hok
  cases hok
  exact (HashRanges.recalculateHashes_divideFactor hrec).trans
    (HashRanges.makeBottomRanges_params hnew).1

/-- Any run of calls. -/
abbrev Any (H : Hashing) (divideFactor compareThreshold : ℤ) (d : Container) : Prop :=
  Reached H divideFactor compareThreshold (fun _ _ => True) (fun _ _ => True) d

/-- `New` does not allow a smaller `divideFactor`. -/
theorem Any.two_le (hd : Any H divideFactor compareThreshold d) : 2 ≤ d.ranges.divideFactor := by
  obtain ⟨fuel, ord, ops, hrun, -⟩ := hd
  refine run_induction (P := fun _ => True) (fun d => 2 ≤ d.ranges.divideFactor) hrun ?_ ?_
    fun _ _ => trivial
  · intro d₀ hnew
    rw [new_divideFactor hnew]
    split <;> omega
  · intro d₁ op d₂ hle _ hok
    rw [apply_divideFactor hok]
    exact hle

/-- `Diff` and `CompareDiff` end within `N + hashes + 1` rounds if from round `N` on every answer
settles its range: the digest is that of the local range, or all elements are there, or the elements
were not asked for and the range is then asked for with its elements or has at least `divideFactor`
hashes. They end only if there is such an `N`; this converse says no more than that a loop which has
ended asks for nothing. -/
theorem rounds_finite_iff {divideFactor compareThreshold : ℤ}
    (hd : Any H divideFactor compareThreshold d) (dl : Remote) :
    ((∀ N, (∀ round ≥ N, d.RoundSettles dl compareElementsEqual round) →
        ∃ dctx, d.diffRemote dl (N + (hashes + 1)) = .ok dctx) ∧
      ((∃ fuel dctx, d.diffRemote dl fuel = .ok dctx) ↔
        ∃ N, ∀ round ≥ N, d.RoundSettles dl compareElementsEqual round)) ∧
    (∀ N, (∀ round ≥ N, d.RoundSettles dl compareElementsGreater round) →
        ∃ dctx, d.compareDiffRemote dl (N + (hashes + 1)) = .ok dctx) ∧
      ((∃ fuel dctx, d.compareDiffRemote dl fuel = .ok dctx) ↔
        ∃ N, ∀ round ≥ N, d.RoundSettles dl compareElementsGreater round) :=
  ⟨rounds_end_iff hd.two_le keepsPrepare_equal, rounds_end_iff hd.two_le keepsPrepare_greater⟩

end Container

namespace Sample

open Container

/-- A remote that gives one answer to everything. -/
def constant (res : RangeResult) : Remote where
  ranges _ toSend := toSend.map fun _ => res
  length_ranges _ _ := List.length_map _

theorem any_container {H : Hashing} {ops : List Op} (hok : (run H 70 2 1 .listed ops).isOk = true) :
    Any H 2 1 (container H ops) :=
  ⟨70, .listed, ops, run_eq_container hok, fun x _ => by cases x.2 <;> simp [StepOk]⟩

/-- With an answer that counts one element and has none, each round leads to the question for the
elements of all hashes. -/
theorem sent_ne_nil {compareFunc : DiffCtx → List Element → List Element → DiffCtx}
    (hkeeps : KeepsPrepare compareFunc) (round : ℕ) :
    (container hashing [.set [elementA] .listed]).sent (constant ⟨[], [], 1⟩) compareFunc round ≠
      [] := by
  generalize hd : container hashing [.set [elementA] .listed] = d
  have hasks : ∀ elements, d.asks ⟨topTuple, elements⟩ ⟨[], [], 1⟩ = [⟨topTuple, true⟩] := by
    rw [← hd]
    decide +kernel
  have hsent : ∃ elements,
      d.sent (constant ⟨[], [], 1⟩) compareFunc round = [⟨topTuple, elements⟩] := by
    induction round with
    | zero => exact ⟨false, rfl⟩
    | succ round ih =>
      obtain ⟨elements, hsent⟩ := ih
      refine ⟨true, ?_⟩
      rw [sent_succ hkeeps, hsent, ← hasks elements]
      simp [constant]
  obtain ⟨elements, hsent⟩ := hsent
  rw [hsent]
  exact List.cons_ne_nil _ _

end Sample

open Sample

/-- A remote that has no elements. -/
theorem rounds_finite_iff_emptyRemote :
    let d := container hashing [.set [elementA] .listed]
    ∃ fuel dctx, d.diffRemote (constant ⟨[1], [], 0⟩) fuel = .ok dctx := by
  intro d
  have hd : Container.Any hashing 2 1 d := any_container (by decide +kernel)
  refine ⟨_, (Container.rounds_finite_iff hd _).1.1 0 fun round _ x hx => ?_⟩
  have hres : x.2 = ⟨[1], [], 0⟩ := by
    obtain ⟨r, -, heq⟩ := List.mem_map.mp (List.of_mem_zip hx).2
    exact heq.symm
  rw [hres]
  exact .inr (.inl rfl)

/-- A remote that always counts one element and never sends it keeps `Diff` and `CompareDiff` busy
for ever. -/
theorem rounds_endless :
    let d := container hashing [.set [elementA] .listed]
    let dl := constant ⟨[], [], 1⟩
    Container.Any hashing 2 1 d ∧
      ∀ fuel, d.diffRemote dl fuel = .error .outOfFuel ∧
        d.compareDiffRemote dl fuel = .error .outOfFuel := by
  intro d dl
  have hd : Container.Any hashing 2 1 d := any_container (by decide +kernel)
  refine ⟨hd, fun fuel => ⟨?_, ?_⟩⟩
  · exact Container.remoteRounds_outOfFuel (sent_ne_nil Container.keepsPrepare_equal) fuel
  · exact Container.remoteRounds_outOfFuel (sent_ne_nil Container.keepsPrepare_greater) fuel

end Ldiff
