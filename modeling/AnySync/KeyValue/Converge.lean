import AnySync.KeyValue.Call
import AnySync.Ldiff.Runs
import Mathlib.Algebra.Order.BigOperators.Group.List
import Mathlib.Algebra.Order.Group.Nat

/-!
# Convergence of key-value replicas

Values may be delivered in any order, in any batches and more than once. What is stored depends
only on the set of values if every watermark is covered by one that is not hidden: a watermark
and other values can share a row, and a newer value that arrives first keeps the watermark from
being applied.

The main result is `converges_iff`.
-/

namespace InnerStorage

open Ldiff
open List (mem_append_left append_assoc append_nil flatten_nil flatten_cons)
open Bool (false_ne_true or_eq_true not_eq_true)

/-! ## Valid values -/

/-- What `KeyValueFromProto` checks, for peer ids without `-`, and timestamps from 0 to 2⁵³. -/
structure KeyValue.Valid (kv : KeyValue) : Prop where
  id : kv.keyPeerId = InnerStorage.keyPeerId kv.key kv.peerId
  peerId : 45 ∉ kv.peerId
  watermark : kv.deletePrefix ≠ [] → kv.key = kv.deletePrefix
  nonneg : 0 ≤ kv.timestampMicro
  le : kv.timestampMicro ≤ 2 ^ 53

instance (kv : KeyValue) : Decidable kv.Valid :=
  decidable_of_iff (kv.keyPeerId = InnerStorage.keyPeerId kv.key kv.peerId ∧ 45 ∉ kv.peerId ∧
      (kv.deletePrefix ≠ [] → kv.key = kv.deletePrefix) ∧ 0 ≤ kv.timestampMicro ∧
      kv.timestampMicro ≤ 2 ^ 53)
    ⟨fun ⟨id, peerId, watermark, nonneg, le⟩ => ⟨id, peerId, watermark, nonneg, le⟩,
      fun h => ⟨h.id, h.peerId, h.watermark, h.nonneg, h.le⟩⟩

/-- An id tells the key and the peer. -/
theorem keyPeerId_inj {k k' p p' : GoString} (hp : 45 ∉ p) (hp' : 45 ∉ p')
    (h : keyPeerId k p = keyPeerId k' p') : k = k' ∧ p = p' := by
  rw [keyPeerId, keyPeerId, append_assoc, append_assoc, List.singleton_append,
    List.singleton_append] at h
  have hcut : ∀ {k k' p p' : GoString}, 45 ∉ p → ∀ c, k' = k ++ c → 45 :: p = c ++ 45 :: p' →
      k = k' ∧ p = p' := by
    intro k k' p p' hp c hk hc
    cases c with
    | nil =>
      rw [List.nil_append, List.cons.injEq] at hc
      exact ⟨by simpa using hk.symm, hc.2⟩
    | cons x c =>
      rw [List.cons_append, List.cons.injEq] at hc
      exact absurd (hc.2 ▸ List.mem_append_right c List.mem_cons_self) hp
  rcases List.append_eq_append_iff.mp h with ⟨c, hk, hc⟩ | ⟨c, hk, hc⟩
  · exact hcut hp c hk hc
  · obtain ⟨hkey, hpeer⟩ := hcut hp' c hk hc
    exact ⟨hkey.symm, hpeer.symm⟩

/-- A row has one key. -/
theorem KeyValue.Valid.key_eq {a b : KeyValue} (ha : a.Valid) (hb : b.Valid)
    (h : a.keyPeerId = b.keyPeerId) : a.key = b.key := by
  rw [ha.id, hb.id] at h
  exact (keyPeerId_inj ha.peerId hb.peerId h).1

/-! ## Watermarks -/

section Cover

variable {w : Watermarks} {res : UpdateResult} {key pre : GoString} {t s : ℤ} {value : KeyValue}

theorem matchWatermarks_iff :
    matchWatermarks w key t = true ↔ ∃ pre s, w.lookup pre = some s ∧ t < s ∧ pre <+: key := by
  rw [matchWatermarks, List.any_eq_true]
  constructor
  · rintro ⟨⟨pre, s⟩, hmem, h⟩
    exact ⟨pre, s, GoMap.lookup_eq_some_iff.mpr hmem, of_decide_eq_true h⟩
  · rintro ⟨pre, s, hlookup, h⟩
    exact ⟨⟨pre, s⟩, GoMap.lookup_eq_some_iff.mp hlookup, decide_eq_true h⟩

/-- A watermark raises what is covered. -/
theorem matchWatermarks_raise (ht : 0 ≤ t) :
    matchWatermarks (if s > (w.lookup pre).getD 0 then w.insert pre s else w) key t = true ↔
      matchWatermarks w key t = true ∨ t < s ∧ pre <+: key := by
  split_ifs with hs
  · simp only [matchWatermarks_iff, GoMap.lookup_insert_eq]
    constructor
    · rintro ⟨pre', s', hlookup, hlt, hpre⟩
      split at hlookup
      · next heq =>
        obtain rfl := Option.some.inj hlookup
        exact .inr ⟨hlt, heq ▸ hpre⟩
      · exact .inl ⟨pre', s', hlookup, hlt, hpre⟩
    · rintro (⟨pre', s', hlookup, hlt, hpre⟩ | ⟨hlt, hpre⟩)
      · by_cases heq : pre' = pre
        · -- the old watermark of the prefix is lower
          subst heq
          rw [hlookup, Option.getD_some] at hs
          exact ⟨pre', s, if_pos rfl, by omega, hpre⟩
        · exact ⟨pre', s', by rw [if_neg heq, hlookup], hlt, hpre⟩
      · exact ⟨pre, s, if_pos rfl, hlt, hpre⟩
  · refine ⟨.inl, ?_⟩
    rintro (h | ⟨hlt, hpre⟩)
    · exact h
    · cases hlookup : w.lookup pre with
      | none =>
        rw [hlookup, Option.getD_none] at hs
        omega
      | some s' =>
        rw [hlookup, Option.getD_some] at hs
        exact matchWatermarks_iff.mpr ⟨pre, s', hlookup, by omega, hpre⟩

/-- What is covered after a value is applied. -/
theorem covered_mark {res' : UpdateResult} (hres : res'.watermarks = value.mark res.watermarks)
    (ht : 0 ≤ t) : covered w res' key t = true ↔ covered w res key t = true ∨
      (value.deletePrefix ≠ [] ∧ t < value.timestampMicro ∧ value.deletePrefix <+: key) := by
  rw [covered, covered, or_eq_true, or_eq_true, hres, KeyValue.mark, or_assoc]
  refine or_congr_right ?_
  by_cases hdp : value.deletePrefix = []
  · simp [hdp]
  · simp only [hdp, ne_eq, not_false_eq_true, true_and]
    exact matchWatermarks_raise ht

/-- What is covered after a call has committed. -/
theorem matchWatermarks_publish (ht : 0 ≤ t) :
    matchWatermarks (publish w res.watermarks) key t = covered w res key t := by
  have hfold : ∀ (l : List ((_ : GoString) × ℤ)) (w : Watermarks),
      matchWatermarks (l.foldl (fun w wm => if wm.2 > (w.lookup wm.1).getD 0 then
        w.insert wm.1 wm.2 else w) w) key t = true ↔
      matchWatermarks w key t = true ∨ ∃ wm ∈ l, t < wm.2 ∧ wm.1 <+: key := by
    intro l
    induction l with
    | nil => simp
    | cons wm l ih =>
      intro w
      rw [List.foldl_cons, ih, matchWatermarks_raise ht, List.exists_mem_cons_iff, or_assoc]
  rw [Bool.eq_iff_iff, publish, hfold, covered, or_eq_true]
  refine or_congr_right ?_
  rw [matchWatermarks, List.any_eq_true]
  simp

end Cover

/-! ## Deliveries -/

/-- What is read back of the timestamps of valid values. -/
def ExactFloat (float64 : ℤ → ℤ) : Prop := ∀ t, 0 ≤ t → t ≤ 2 ^ 53 → float64 t = t

/-- Values of a finite set: each is valid, and the row and the timestamp determine the value. -/
structure Consistent (S : List KeyValue) : Prop where
  valid : ∀ v ∈ S, v.Valid
  eq : ∀ v ∈ S, ∀ v' ∈ S, v.keyPeerId = v'.keyPeerId → v.timestampMicro = v'.timestampMicro → v = v'

/-- What holds of the rows and the watermarks after the values of `L`. -/
structure Delivered (float64 : ℤ → ℤ) (w : Watermarks) (rows : Rows) (res : UpdateResult)
    (L : List KeyValue) : Prop where
  /-- Rows are delivered values. -/
  origin : ∀ id doc, rows.lookup id = some doc →
    ∃ u ∈ L, u.keyPeerId = id ∧ doc = u.anyEnc float64
  /-- No row is covered. -/
  fresh : ∀ id doc, rows.lookup id = some doc → covered w res doc.k doc.t = false
  /-- A delivered value is covered, or its row is not older. -/
  seen : ∀ u ∈ L, covered w res u.key u.timestampMicro = true ∨
    ∃ doc, rows.lookup u.keyPeerId = some doc ∧ u.timestampMicro ≤ doc.t
  sound : ∀ key t, 0 ≤ t → covered w res key t = true →
    ∃ wm ∈ L, wm.deletePrefix ≠ [] ∧ wm.deletePrefix <+: key ∧ t < wm.timestampMicro
  /-- A delivered watermark is applied, or a newer value hides it. -/
  complete : ∀ wm ∈ L, wm.deletePrefix ≠ [] →
    (∀ key t, 0 ≤ t → wm.deletePrefix <+: key → t < wm.timestampMicro →
      covered w res key t = true) ∨
    ∃ v ∈ L, v.deletePrefix = [] ∧ v.keyPeerId = wm.keyPeerId ∧
      wm.timestampMicro < v.timestampMicro

section Delivery

variable {float64 : ℤ → ℤ} {ok : ℕ → Bool} {w : Watermarks} {tx tx' : Tx} {rows rows' : Rows}
  {res res' : UpdateResult} {L L' S : List KeyValue} {value : KeyValue}
variable {key : GoString} {t : ℤ} {values : List KeyValue} {H : Hashing} {fuel : ℕ}
  {ord : RangeOrder}

theorem Delivered.keyed (h : Delivered float64 w rows res L) : Keyed rows := by
  intro id doc hdoc
  obtain ⟨u, -, hid, rfl⟩ := h.origin id doc hdoc
  exact hid

theorem anyEnc_t (hf : ExactFloat float64) (hv : value.Valid) :
    (value.anyEnc float64).t = value.timestampMicro := hf _ hv.nonneg hv.le

/-- A watermark drops a row whose key has its prefix. -/
theorem drops_anyEnc (hv : value.Valid) {wm : KeyValue} (hdp : wm.deletePrefix ≠ [])
    (hpre : wm.deletePrefix <+: value.key) (ht : (value.anyEnc float64).t < wm.timestampMicro) :
    wm.Drops (value.anyEnc float64) := by
  refine ⟨hdp, ?_, hpre, ht⟩
  change wm.deletePrefix <+: value.keyPeerId
  rw [hv.id, keyPeerId, append_assoc]
  exact hpre.trans <| List.prefix_append _ _

/-- A value that wins. -/
theorem Delivered.wrote (hf : ExactFloat float64) (hS : Consistent (L ++ [value]))
    (h : Delivered float64 w tx.rows tx.res L)
    (hcov : covered w tx.res value.key value.timestampMicro = false)
    (hnew : ∀ doc, tx.rows.lookup value.keyPeerId = some doc → doc.t < value.timestampMicro)
    (hw : Wrote float64 tx tx' value) : Delivered float64 w tx'.rows tx'.res (L ++ [value]) := by
  have hvalid : value.Valid := hS.valid value (by simp)
  have hmem : ∀ {u}, u ∈ L → u ∈ L ++ [value] := fun hu => mem_append_left _ hu
  have hcover : ∀ key t, 0 ≤ t → (covered w tx'.res key t = true ↔ covered w tx.res key t = true ∨
      (value.deletePrefix ≠ [] ∧ t < value.timestampMicro ∧ value.deletePrefix <+: key)) :=
    fun key t ht => covered_mark hw.watermarks ht
  have hself : ¬ value.Drops (value.anyEnc float64) := by
    rintro ⟨-, -, -, ht⟩
    rw [anyEnc_t hf hvalid] at ht
    exact lt_irrefl _ ht
  -- what is stored afterwards
  have hlookup : ∀ id doc, tx'.rows.lookup id = some doc ↔
      (id = value.keyPeerId ∧ doc = value.anyEnc float64) ∨
        (id ≠ value.keyPeerId ∧ tx.rows.lookup id = some doc ∧ ¬ value.Drops doc) := by
    intro id doc
    rw [hw.lookup, GoMap.lookup_insert_eq]
    by_cases hid : id = value.keyPeerId
    · rw [if_pos hid, Option.filter_some, if_pos (by simpa using hself)]
      simp [hid, eq_comm]
    · rw [if_neg hid]
      simp [hid, Option.filter_eq_some_iff]
  have hrow : tx'.rows.lookup value.keyPeerId = some (value.anyEnc float64) :=
    (hlookup _ _).mpr (.inl ⟨rfl, rfl⟩)
  refine ⟨fun id doc hdoc => ?_, fun id doc hdoc => ?_, fun u hu => ?_, fun key t ht hc => ?_,
    fun wm hwm hdp => ?_⟩
  · rcases (hlookup id doc).mp hdoc with ⟨rfl, rfl⟩ | ⟨-, hdoc, -⟩
    · exact ⟨value, by simp, rfl, rfl⟩
    · obtain ⟨u, hu, hid, hdoc⟩ := h.origin id doc hdoc
      exact ⟨u, hmem hu, hid, hdoc⟩
  · rw [← not_eq_true]
    rcases (hlookup id doc).mp hdoc with ⟨-, rfl⟩ | ⟨-, hdoc, hdrops⟩
    · rw [anyEnc_t hf hvalid, hcover _ _ hvalid.nonneg]
      rintro (hc | ⟨-, ht, -⟩)
      · exact absurd (hcov.symm.trans hc) false_ne_true
      · exact lt_irrefl _ ht
    · obtain ⟨u, hu, rfl, rfl⟩ := h.origin id doc hdoc
      have hu' := hS.valid u (hmem hu)
      have ht := anyEnc_t hf hu'
      rw [ht, hcover _ _ hu'.nonneg]
      rintro (hc | ⟨hdp, hlt, hpre⟩)
      · have hfresh := h.fresh _ _ hdoc
        rw [ht] at hfresh
        exact absurd hc (by simpa using hfresh)
      · exact hdrops (drops_anyEnc hu' hdp hpre (ht ▸ hlt))
  · rcases List.mem_append.mp hu with hu | hu
    · have hu' := hS.valid u (hmem hu)
      rcases h.seen u hu with hc | ⟨doc, hdoc, hle⟩
      · exact .inl ((hcover _ _ hu'.nonneg).mpr (.inl hc))
      · by_cases hid : u.keyPeerId = value.keyPeerId
        · have hlt := hnew doc (hid ▸ hdoc)
          refine .inr ⟨_, hid ▸ hrow, ?_⟩
          rw [anyEnc_t hf hvalid]
          omega
        · by_cases hdrops : value.Drops doc
          · -- the row is dropped, and the value is covered with it
            obtain ⟨u', hu'mem, hid', rfl⟩ := h.origin _ _ hdoc
            have hkey := (hS.valid u' (hmem hu'mem)).key_eq hu' hid'
            obtain ⟨hdp, -, hpre, hlt⟩ := hdrops
            refine .inl ((hcover _ _ hu'.nonneg).mpr (.inr ⟨hdp, ?_, hkey ▸ hpre⟩))
            omega
          · exact .inr ⟨doc, (hlookup _ _).mpr (.inr ⟨hid, hdoc, hdrops⟩), hle⟩
    · obtain rfl := List.mem_singleton.mp hu
      exact .inr ⟨_, hrow, (anyEnc_t hf hvalid).ge⟩
  · rcases (hcover key t ht).mp hc with hc | ⟨hdp, hlt, hpre⟩
    · obtain ⟨wm, hwm, h⟩ := h.sound key t ht hc
      exact ⟨wm, hmem hwm, h⟩
    · exact ⟨value, by simp, hdp, hpre, hlt⟩
  · rcases List.mem_append.mp hwm with hwm | hwm
    · refine (h.complete wm hwm hdp).imp (fun hall key t ht hpre hlt => ?_) ?_
      · exact (hcover key t ht).mpr (.inl (hall key t ht hpre hlt))
      · rintro ⟨v, hv, hrest⟩
        exact ⟨v, hmem hv, hrest⟩
    · obtain rfl := List.mem_singleton.mp hwm
      exact .inl fun key t ht hpre hlt => (hcover key t ht).mpr (.inr ⟨hdp, hlt, hpre⟩)

/-- A value that does not win. -/
theorem Delivered.skipped (h : Delivered float64 w rows res L)
    (hseen : covered w res value.key value.timestampMicro = true ∨
      ∃ doc, rows.lookup value.keyPeerId = some doc ∧ value.timestampMicro ≤ doc.t)
    (hwm : value.deletePrefix ≠ [] →
      (∀ key t, 0 ≤ t → value.deletePrefix <+: key → t < value.timestampMicro →
        covered w res key t = true) ∨
      ∃ v ∈ L ++ [value], v.deletePrefix = [] ∧ v.keyPeerId = value.keyPeerId ∧
        value.timestampMicro < v.timestampMicro) : Delivered float64 w rows res (L ++ [value]) := by
  have hmem : ∀ {u}, u ∈ L → u ∈ L ++ [value] := fun hu => mem_append_left _ hu
  refine ⟨fun id doc hdoc => ?_, h.fresh, fun u hu => ?_, fun key t ht hc => ?_,
    fun wm hmemwm hdp => ?_⟩
  · obtain ⟨u, hu, hid, hdoc⟩ := h.origin id doc hdoc
    exact ⟨u, hmem hu, hid, hdoc⟩
  · rcases List.mem_append.mp hu with hu | hu
    · exact h.seen u hu
    · obtain rfl := List.mem_singleton.mp hu
      exact hseen
  · obtain ⟨wm, hwm, h⟩ := h.sound key t ht hc
    exact ⟨wm, hmem hwm, h⟩
  · rcases List.mem_append.mp hmemwm with hmemwm | hmemwm
    · refine (h.complete wm hmemwm hdp).imp_right ?_
      rintro ⟨v, hv, hrest⟩
      exact ⟨v, hmem hv, hrest⟩
    · obtain rfl := List.mem_singleton.mp hmemwm
      exact hwm hdp

/-- A covered watermark adds nothing. -/
theorem covered_of_covered (hvalid : value.Valid)
    (hcov : covered w res value.key value.timestampMicro = true) (hdp : value.deletePrefix ≠ [])
    (hpre : value.deletePrefix <+: key) (ht : t < value.timestampMicro) :
    covered w res key t = true := by
  rw [covered, or_eq_true, matchWatermarks_iff, matchWatermarks_iff] at hcov ⊢
  rw [hvalid.watermark hdp] at hcov
  refine hcov.imp ?_ ?_ <;>
  · rintro ⟨pre, s, hlookup, hlt, hpre'⟩
    exact ⟨pre, s, hlookup, by omega, hpre'.trans hpre⟩

/-- One value of a call. -/
theorem Delivered.updateValue (hf : ExactFloat float64) (hS : Consistent (L ++ [value]))
    (h : Delivered float64 w tx.rows tx.res L)
    (hok : (updateValue float64 ok w tx value).failed = false) :
    Delivered float64 w (updateValue float64 ok w tx value).rows
      (updateValue float64 ok w tx value).res (L ++ [value]) := by
  have hvalid : value.Valid := hS.valid value (by simp)
  obtain ⟨-, ⟨hcov, heq⟩ | ⟨-, ⟨doc, hdoc, hle⟩, heq⟩ | ⟨hcov, hnew, hw⟩⟩ :=
    updateValue_cases h.keyed hok
  · rw [heq]
    refine h.skipped (.inl hcov) fun hdp => .inl fun key t _ hpre ht => ?_
    exact covered_of_covered hvalid hcov hdp hpre ht
  · rw [heq]
    refine h.skipped (.inr ⟨doc, hdoc, hle⟩) fun hdp => ?_
    -- the row is the value itself, another watermark of the same row, or hides the value
    obtain ⟨u, hu, hid, rfl⟩ := h.origin _ _ hdoc
    have hu' := hS.valid u (mem_append_left _ hu)
    rw [anyEnc_t hf hu'] at hle
    by_cases hdpu : u.deletePrefix = []
    · rcases hle.eq_or_lt with heqt | hlt
      · have := hS.eq u (mem_append_left _ hu) value (by simp) hid heqt.symm
        exact absurd (this ▸ hdpu) hdp
      · exact .inr ⟨u, mem_append_left _ hu, hdpu, hid, hlt⟩
    · have hkey : u.deletePrefix = value.deletePrefix := by
        rw [← hu'.watermark hdpu, hu'.key_eq hvalid hid, hvalid.watermark hdp]
      rcases h.complete u hu hdpu with hall | ⟨v, hv, hdpv, hidv, hlt⟩
      · exact .inl fun key t ht hpre hlt => hall key t ht (hkey ▸ hpre) (by omega)
      · exact .inr ⟨v, mem_append_left _ hv, hdpv, hidv.trans hid, by omega⟩
  · exact h.wrote hf hS hcov hnew hw

theorem Consistent.mono (hS : Consistent S) (h : ∀ v ∈ L, v ∈ S) : Consistent L :=
  ⟨fun v hv => hS.valid v (h v hv), fun v hv v' hv' => hS.eq v (h v hv) v' (h v' hv')⟩

theorem Delivered.foldl_updateValue (hf : ExactFloat float64) (hok : ∀ n, ok n = true)
    (hS : Consistent (L ++ values)) (htx : tx.failed = false)
    (h : Delivered float64 w tx.rows tx.res L) :
    Delivered float64 w (values.foldl (InnerStorage.updateValue float64 ok w) tx).rows
      (values.foldl (InnerStorage.updateValue float64 ok w) tx).res (L ++ values) := by
  induction values generalizing tx L with
  | nil => simpa using h
  | cons value values ih =>
    have hfailed : (InnerStorage.updateValue float64 ok w tx value).failed = false :=
      failed_updateValue hok htx
    have hstep := h.updateValue hf (hS.mono fun v hv => by
      rcases List.mem_append.mp hv with hv | hv <;> simp_all) hfailed
    rw [List.append_cons] at hS ⊢
    exact ih hS hfailed hstep

/-- The storage between calls. -/
def Storage.Delivered (float64 : ℤ → ℤ) (st : Storage) (L : List KeyValue) : Prop :=
  InnerStorage.Delivered float64 st.watermarks st.rows .empty L

theorem covered_empty :
    covered w .empty key t = matchWatermarks w key t := by
  have hempty : matchWatermarks UpdateResult.empty.watermarks key t = false := rfl
  rw [covered, hempty, Bool.or_false]

/-- A call without failures. -/
theorem Storage.Delivered.set {st : Storage} (hf : ExactFloat float64) (hok : ∀ n, ok n = true)
    (hS : Consistent (L ++ values)) (h : st.Delivered float64 L) :
    (st.set H fuel float64 values ok ord).1.Delivered float64 (L ++ values) := by
  obtain ⟨hrows, hmarks, -⟩ := set_of_ok H fuel float64 values ord hok h.keyed
  have htx : InnerStorage.Delivered float64 st.watermarks
      (updateValues float64 ok st.rows st.watermarks values).rows
      (updateValues float64 ok st.rows st.watermarks values).res (L ++ values) :=
    InnerStorage.Delivered.foldl_updateValue hf hok hS rfl h
  have hcover : ∀ {key : GoString} {t : ℤ}, 0 ≤ t →
      covered (st.set H fuel float64 values ok ord).1.watermarks .empty key t =
        covered st.watermarks (updateValues float64 ok st.rows st.watermarks values).res key t := by
    intro key t ht
    rw [covered_empty, hmarks, matchWatermarks_publish ht]
  rw [Storage.Delivered, hrows]
  refine ⟨htx.origin, fun id doc hdoc => ?_, fun u hu => ?_, fun key t ht hc => ?_,
    fun wm hwm hdp => ?_⟩
  · obtain ⟨u, hu, -, rfl⟩ := htx.origin id doc hdoc
    have hnonneg : 0 ≤ (u.anyEnc float64).t := by
      rw [anyEnc_t hf (hS.valid u hu)]
      exact (hS.valid u hu).nonneg
    rw [hcover hnonneg]
    exact htx.fresh id _ hdoc
  · rw [hcover (hS.valid u hu).nonneg]
    exact htx.seen u hu
  · exact htx.sound key t ht (hcover ht ▸ hc)
  · refine (htx.complete wm hwm hdp).imp_left fun hall key t ht hpre hlt => ?_
    rw [hcover ht]
    exact hall key t ht hpre hlt

theorem delivered_opened :
    (opened H fuel ord ∅).Delivered float64 [] := by
  refine ⟨fun id doc hdoc => ?_, fun id doc hdoc => ?_, fun u hu => ?_, fun key t _ hc => ?_,
    fun wm hwm => ?_⟩
  · cases hdoc
  · cases hdoc
  · cases hu
  · cases hc
  · cases hwm

end Delivery

/-! ## Convergence -/

section Converge

variable (H : Hashing) (fuel : ℕ) (float64 : ℤ → ℤ)
variable {key : GoString} {t : ℤ} {w : Watermarks} {tx : Tx} {wm : KeyValue} {ok : ℕ → Bool}
  {values : List KeyValue}

/-- The batches are delivered to a storage. -/
def Storage.deliver (ord : RangeOrder) (st : Storage) (batches : List (List KeyValue)) : Storage :=
  batches.foldl (fun st batch => (st.set H fuel float64 batch (fun _ => true) ord).1) st

/-- The values that a call with one further value applies. -/
def Storage.accepts (ord : RangeOrder) (st : Storage) (value : KeyValue) : Option (List KeyValue) :=
  (st.set H fuel float64 [value] (fun _ => true) ord).2.map (·.applied)

/-- The batches have the values of the set, in some order and some of them more than once. -/
def Delivers (S : List KeyValue) (batches : List (List KeyValue)) : Prop :=
  ∀ value, value ∈ batches.flatten ↔ value ∈ S

/-- Two storages have the same rows and the same outcome for every further value. -/
def Storage.Agree (ord ord' : RangeOrder) (st st' : Storage) : Prop :=
  (∀ id, st.rows.lookup id = st'.rows.lookup id) ∧
    ∀ value : KeyValue, value.Valid →
      st.accepts H fuel float64 ord value = st'.accepts H fuel float64 ord' value

/-- Every watermark is covered by one that no other value of the same row can hide. -/
def Guarded (S : List KeyValue) : Prop :=
  ∀ wm ∈ S, wm.deletePrefix ≠ [] → 0 < wm.timestampMicro →
    ∃ wm' ∈ S, wm'.deletePrefix ≠ [] ∧ wm'.deletePrefix <+: wm.deletePrefix ∧
      wm.timestampMicro ≤ wm'.timestampMicro ∧
      ∀ v ∈ S, v.deletePrefix = [] → v.keyPeerId = wm'.keyPeerId →
        v.timestampMicro ≤ wm'.timestampMicro

instance (S : List KeyValue) : Decidable (Guarded S) :=
  inferInstanceAs (Decidable (∀ wm ∈ S, _ → _ → ∃ wm' ∈ S, _ ∧ _ ∧ _ ∧ ∀ v ∈ S, _ → _ → _))

variable {H fuel float64} {ord ord' : RangeOrder} {st st' : Storage} {L L' S : List KeyValue}

/-- Any number of batches. -/
theorem Storage.Delivered.deliver (hf : ExactFloat float64) {batches : List (List KeyValue)}
    (hS : Consistent (L ++ batches.flatten)) (h : st.Delivered float64 L) :
    (st.deliver H fuel float64 ord batches).Delivered float64 (L ++ batches.flatten) := by
  induction batches generalizing st L with
  | nil =>
    rw [flatten_nil, append_nil]
    exact h
  | cons batch batches ih =>
    rw [flatten_cons, ← append_assoc] at hS ⊢
    exact ih hS (h.set hf (fun _ => rfl) (hS.mono fun v hv => mem_append_left _ hv))

/-- A further value is accepted if it is not covered, and newer than its row. -/
theorem Storage.accepts_eq (h : Keyed st.rows) (value : KeyValue) :
    st.accepts H fuel float64 ord value =
      if covered st.watermarks .empty value.key value.timestampMicro = true ∨
          ∃ doc ∈ st.rows.lookup value.keyPeerId, value.timestampMicro ≤ doc.t then some []
      else some [value] := by
  have hall : ∀ n : ℕ, (fun _ => true : ℕ → Bool) n = true := fun _ => rfl
  obtain ⟨-, -, happlied⟩ := set_of_ok H fuel float64 [value] ord hall h
  rw [Storage.accepts, happlied]
  have hok : (updateValues float64 (fun _ => true) st.rows st.watermarks [value]).failed = false :=
    failed_updateValues hall
  have hone : updateValues float64 (fun _ => true) st.rows st.watermarks [value] =
      updateValue float64 (fun _ => true) st.watermarks ⟨st.rows, .empty, 1, false⟩ value := rfl
  rw [hone] at hok ⊢
  obtain ⟨-, ⟨hcov, heq⟩ | ⟨-, hdoc, heq⟩ | ⟨hcov, hnew, hw⟩⟩ := updateValue_cases h hok
  · rw [heq, if_pos (.inl hcov)]
    rfl
  · rw [heq, if_pos (.inr hdoc)]
    rfl
  · rw [hw.applied, if_neg]
    · rfl
    · rintro (hc | ⟨doc, hdoc, hle⟩)
      · exact absurd (hcov.symm.trans hc) false_ne_true
      · exact absurd (hnew doc hdoc) (not_lt.mpr hle)

/-- If the watermarks are guarded, then what is covered depends only on the set. -/
theorem Storage.Delivered.covered_iff (hg : Guarded S) (hL : ∀ v, v ∈ L ↔ v ∈ S)
    (h : st.Delivered float64 L) (ht : 0 ≤ t) :
    covered st.watermarks .empty key t = true ↔
      ∃ wm ∈ S, wm.deletePrefix ≠ [] ∧ wm.deletePrefix <+: key ∧ t < wm.timestampMicro := by
  constructor
  · intro hc
    obtain ⟨wm, hwm, hrest⟩ := h.sound key t ht hc
    exact ⟨wm, (hL wm).mp hwm, hrest⟩
  · rintro ⟨wm, hwm, hdp, hpre, hlt⟩
    obtain ⟨wm', hwm', hdp', hpre', hle, hmax⟩ := hg wm hwm hdp (by omega)
    rcases h.complete wm' ((hL wm').mpr hwm') hdp' with hall | ⟨v, hv, hdpv, hid, hlt'⟩
    · exact hall key t ht (hpre'.trans hpre) (by omega)
    · exact absurd (hmax v ((hL v).mp hv) hdpv hid) (not_le.mpr hlt')

/-- Storages of the same values in which the same is covered have the same rows. -/
theorem Storage.Delivered.lookup_of_lookup (hf : ExactFloat float64) (hS : Consistent S)
    (hL : ∀ v, v ∈ L ↔ v ∈ S) (hL' : ∀ v, v ∈ L' ↔ v ∈ S) (h : st.Delivered float64 L)
    (h' : st'.Delivered float64 L') (hcov : ∀ key t, 0 ≤ t →
      (covered st.watermarks .empty key t = true ↔ covered st'.watermarks .empty key t = true))
    {id : GoString} {doc : Doc} (hdoc : st.rows.lookup id = some doc) :
    st'.rows.lookup id = some doc := by
  -- what is stored in one of them is not covered, so the other has a row that is not older
  obtain ⟨u, hu, rfl, rfl⟩ := h.origin id doc hdoc
  have huS := (hL u).mp hu
  have hut := anyEnc_t hf (hS.valid u huS)
  have hfresh := h.fresh _ _ hdoc
  rw [hut] at hfresh
  rcases h'.seen u ((hL' u).mpr huS) with hc | ⟨doc', hdoc', hle⟩
  · exact absurd (hfresh.symm.trans ((hcov _ _ (hS.valid u huS).nonneg).mpr hc))
      false_ne_true
  obtain ⟨u', hu', hid, rfl⟩ := h'.origin _ _ hdoc'
  have hu'S := (hL' u').mp hu'
  have hu't := anyEnc_t hf (hS.valid u' hu'S)
  have hfresh' := h'.fresh _ _ hdoc'
  rw [hu't] at hfresh' hle
  rcases h.seen u' ((hL u').mpr hu'S) with hc | ⟨doc, hdoc₂, hle'⟩
  · exact absurd (hfresh'.symm.trans ((hcov _ _ (hS.valid u' hu'S).nonneg).mp hc))
      false_ne_true
  rw [hid, hdoc] at hdoc₂
  obtain rfl := Option.some.inj hdoc₂
  rw [hut] at hle'
  rw [hdoc', hS.eq u' hu'S u huS hid (le_antisymm hle' hle)]

/-- Storages that got the same values have the same rows. -/
theorem Storage.Delivered.agree (hf : ExactFloat float64) (hS : Consistent S) (hg : Guarded S)
    (hL : ∀ v, v ∈ L ↔ v ∈ S) (hL' : ∀ v, v ∈ L' ↔ v ∈ S) (h : st.Delivered float64 L)
    (h' : st'.Delivered float64 L') : st.Agree H fuel float64 ord ord' st' := by
  have hcov : ∀ key t, 0 ≤ t → (covered st.watermarks .empty key t = true ↔
      covered st'.watermarks .empty key t = true) := by
    intro key t ht
    rw [h.covered_iff hg hL ht, h'.covered_iff hg hL' ht]
  have hrows : ∀ id, st.rows.lookup id = st'.rows.lookup id := by
    intro id
    refine Option.ext fun doc => ⟨fun hdoc => ?_, fun hdoc => ?_⟩
    · exact h.lookup_of_lookup hf hS hL hL' h' hcov hdoc
    · exact h'.lookup_of_lookup hf hS hL' hL h (fun key t ht => (hcov key t ht).symm) hdoc
  refine ⟨hrows, fun value hvalue => ?_⟩
  rw [Storage.accepts_eq h.keyed, Storage.accepts_eq h'.keyed]
  simp only [hrows, hcov _ _ hvalue.nonneg]

/-! ## Hidden watermarks -/

/-- Every watermark that covers `wm` is hidden by another value of its row. -/
def HiddenIn (S : List KeyValue) (wm : KeyValue) : Prop :=
  ∀ wm' ∈ S, wm'.deletePrefix ≠ [] → wm'.deletePrefix <+: wm.deletePrefix →
    wm.timestampMicro ≤ wm'.timestampMicro →
    ∃ v ∈ S, v.deletePrefix = [] ∧ v.keyPeerId = wm'.keyPeerId ∧
      wm'.timestampMicro < v.timestampMicro

/-- The other values that hide watermarks are stored, and `wm` is not applied. -/
structure Hidden (S : List KeyValue) (wm : KeyValue) (w : Watermarks) (rows : Rows)
    (res : UpdateResult) : Prop where
  uncovered : covered w res wm.deletePrefix (wm.timestampMicro - 1) = false
  stored : ∀ v ∈ S, v.deletePrefix = [] → v.key <+: wm.deletePrefix →
    wm.timestampMicro ≤ v.timestampMicro →
    ∃ doc, rows.lookup v.keyPeerId = some doc ∧ v.timestampMicro ≤ doc.t

/-- The further watermarks are hidden as well. -/
theorem Hidden.updateValue {value : KeyValue} (hf : ExactFloat float64) (hS : Consistent S)
    (hhid : HiddenIn S wm) (hpos : 0 < wm.timestampMicro) (hL : ∀ v ∈ L, v ∈ S) (hvalue : value ∈ S)
    (hdp : value.deletePrefix ≠ []) (hd : InnerStorage.Delivered float64 w tx.rows tx.res L)
    (h : Hidden S wm w tx.rows tx.res) (hok : (updateValue float64 ok w tx value).failed = false) :
    Hidden S wm w (updateValue float64 ok w tx value).rows
      (updateValue float64 ok w tx value).res := by
  have hvalid := hS.valid value hvalue
  obtain ⟨-, ⟨-, heq⟩ | ⟨-, -, heq⟩ | ⟨-, hnew, hw⟩⟩ := updateValue_cases hd.keyed hok
  · rw [heq]
    exact h
  · rw [heq]
    exact h
  -- a watermark that is applied does not cover `wm`: its row would be newer
  have hnot : ¬ (value.deletePrefix <+: wm.deletePrefix ∧
      wm.timestampMicro ≤ value.timestampMicro) := by
    rintro ⟨hpre, hle⟩
    obtain ⟨v, hv, hdpv, hid, hlt⟩ := hhid value hvalue hdp hpre hle
    have hkey : v.key = value.deletePrefix := by
      rw [(hS.valid v hv).key_eq hvalid hid, hvalid.watermark hdp]
    obtain ⟨doc, hdoc, hle'⟩ := h.stored v hv hdpv (hkey ▸ hpre) (by omega)
    have := hnew doc (hid ▸ hdoc)
    omega
  refine ⟨?_, fun v hv hdpv hpre hle => ?_⟩
  · rw [← not_eq_true, covered_mark hw.watermarks (by omega), h.uncovered]
    rintro (hc | ⟨-, hlt, hpre⟩)
    · exact false_ne_true hc
    · exact hnot ⟨hpre, by omega⟩
  · obtain ⟨doc, hdoc, hle'⟩ := h.stored v hv hdpv hpre hle
    obtain ⟨u, hu, hid, rfl⟩ := hd.origin _ _ hdoc
    have hkey : (u.anyEnc float64).k = v.key := (hS.valid u (hL u hu)).key_eq (hS.valid v hv) hid
    rw [hw.lookup, GoMap.lookup_insert_eq]
    by_cases hid' : v.keyPeerId = value.keyPeerId
    · have hlt := hnew _ (hid' ▸ hdoc)
      have hself : ¬ value.Drops (value.anyEnc float64) := by
        rintro ⟨-, -, -, ht⟩
        rw [anyEnc_t hf hvalid] at ht
        exact lt_irrefl _ ht
      rw [if_pos hid', Option.filter_some, if_pos (by simpa using hself)]
      refine ⟨_, rfl, ?_⟩
      rw [anyEnc_t hf hvalid]
      omega
    · have hkeep : ¬ value.Drops (u.anyEnc float64) := by
        rintro ⟨-, -, hprek, ht⟩
        rw [hkey] at hprek
        exact hnot ⟨hprek.trans hpre, by omega⟩
      rw [if_neg hid', hdoc, Option.filter_some, if_pos (by simpa using hkeep)]
      exact ⟨_, rfl, hle'⟩

theorem Hidden.foldl_updateValue (hf : ExactFloat float64) (hok : ∀ n, ok n = true)
    (hS : Consistent S) (hhid : HiddenIn S wm) (hpos : 0 < wm.timestampMicro) (hL : ∀ v ∈ L, v ∈ S)
    (hvalues : ∀ v ∈ values, v ∈ S ∧ v.deletePrefix ≠ [])
    (hd : InnerStorage.Delivered float64 w tx.rows tx.res L) (htx : tx.failed = false)
    (h : Hidden S wm w tx.rows tx.res) :
    Hidden S wm w (values.foldl (InnerStorage.updateValue float64 ok w) tx).rows
      (values.foldl (InnerStorage.updateValue float64 ok w) tx).res := by
  induction values generalizing tx L with
  | nil => exact h
  | cons value values ih =>
    obtain ⟨hvalue, hdp⟩ := hvalues value List.mem_cons_self
    have hfailed : (InnerStorage.updateValue float64 ok w tx value).failed = false :=
      failed_updateValue hok htx
    have hL' : ∀ v ∈ L ++ [value], v ∈ S := by
      intro v hv
      rcases List.mem_append.mp hv with hv | hv
      · exact hL v hv
      · exact List.mem_singleton.mp hv ▸ hvalue
    refine ih hL' (fun v hv => hvalues v (List.mem_cons_of_mem _ hv))
      (hd.updateValue hf (hS.mono hL') hfailed) hfailed ?_
    exact h.updateValue hf hS hhid hpos hL hvalue hdp hd hfailed

theorem covered_foldl_updateValue {rows₀ : Rows} (hok : ∀ n, ok n = true) (ht : 0 ≤ t)
    (hpre : PreOk float64 rows₀ tx.rows tx.res) (htx : tx.failed = false)
    (h : covered w tx.res key t = true) :
    covered w (values.foldl (updateValue float64 ok w) tx).res key t = true := by
  induction values generalizing tx with
  | nil => exact h
  | cons value values ih =>
    have hfailed : (updateValue float64 ok w tx value).failed = false :=
      failed_updateValue hok htx
    refine ih hpre.updateValue hfailed ?_
    obtain ⟨-, ⟨-, heq⟩ | ⟨-, -, heq⟩ | ⟨-, -, hw⟩⟩ := updateValue_cases hpre.keyed hfailed
    · rw [heq]
      exact h
    · rw [heq]
      exact h
    · exact (covered_mark hw.watermarks ht).mpr (.inl h)

theorem covered_deliver_first (hf : ExactFloat float64) (hvalid : wm.Valid)
    (hdp : wm.deletePrefix ≠ []) (hpos : 0 < wm.timestampMicro) :
    covered ((opened H fuel ord ∅).deliver H fuel float64 ord [wm :: values]).watermarks .empty
      wm.deletePrefix (wm.timestampMicro - 1) = true := by
  have hall : ∀ n : ℕ, (fun _ => true : ℕ → Bool) n = true := fun _ => rfl
  have hopened : (opened H fuel ord ∅).Delivered float64 [] := delivered_opened
  obtain ⟨-, hmarks, -⟩ := set_of_ok H fuel float64 (wm :: values) ord hall hopened.keyed
  have hstep : (opened H fuel ord ∅).deliver H fuel float64 ord [wm :: values] =
      ((opened H fuel ord ∅).set H fuel float64 (wm :: values) (fun _ => true) ord).1 := rfl
  rw [hstep, covered_empty, hmarks, matchWatermarks_publish (by omega), updateValues,
    List.foldl_cons]
  have hsingle : Consistent ([] ++ [wm]) := by
    refine ⟨fun v hv => ?_, fun v hv v' hv' _ _ => ?_⟩
    · exact List.mem_singleton.mp hv ▸ hvalid
    · rw [List.mem_singleton.mp hv, List.mem_singleton.mp hv']
  set tx₀ : Tx := ⟨(opened H fuel ord ∅).rows, .empty, 1, false⟩
  have hfailed : (updateValue float64 (fun _ => true) (opened H fuel ord ∅).watermarks tx₀
      wm).failed = false := failed_updateValue hall rfl
  have hfirst : Delivered float64 (opened H fuel ord ∅).watermarks
      (updateValue float64 (fun _ => true) (opened H fuel ord ∅).watermarks tx₀ wm).rows
      (updateValue float64 (fun _ => true) (opened H fuel ord ∅).watermarks tx₀ wm).res
      ([] ++ [wm]) := Delivered.updateValue hf hsingle hopened hfailed
  refine covered_foldl_updateValue hall (by omega)
    (preOk_empty hopened.keyed).updateValue hfailed ?_
  rcases hfirst.complete wm (by simp) hdp with hcov | ⟨v, hv, hdpv, -⟩
  · have hpre := List.prefix_refl wm.deletePrefix
    exact hcov _ _ (by omega) hpre (by omega)
  · exact absurd (List.mem_singleton.mp hv ▸ hdpv) hdp

/-- The batches that keep hidden watermarks from being applied. -/
def ordinaryFirst (S : List KeyValue) : List (List KeyValue) :=
  [S.filter fun v => v.deletePrefix = [], S.filter fun v => v.deletePrefix ≠ []]

theorem delivers_ordinaryFirst : Delivers S (ordinaryFirst S) := by
  intro v
  simp only [ordinaryFirst, flatten_cons, flatten_nil, append_nil, List.mem_append,
    List.mem_filter, decide_eq_true_eq, ← and_or_left]
  exact and_iff_left (em _)

/-- If the other values are delivered first, a hidden watermark is not applied. -/
theorem uncovered_ordinaryFirst (hf : ExactFloat float64) (hS : Consistent S) (hhid : HiddenIn S wm)
    (hpos : 0 < wm.timestampMicro) :
    covered ((opened H fuel ord ∅).deliver H fuel float64 ord (ordinaryFirst S)).watermarks .empty
      wm.deletePrefix (wm.timestampMicro - 1) = false := by
  have hall : ∀ n : ℕ, (fun _ => true : ℕ → Bool) n = true := fun _ => rfl
  set others := S.filter fun v => v.deletePrefix = [] with hothers
  set marks := S.filter fun v => v.deletePrefix ≠ [] with hwms
  have hsub : ∀ v ∈ others, v ∈ S := fun v hv => (List.mem_filter.mp hv).1
  set st₁ := ((opened H fuel ord ∅).set H fuel float64 others (fun _ => true) ord).1 with hst₁
  have hd₁ : st₁.Delivered float64 others :=
    Storage.Delivered.set (L := []) hf hall (hS.mono hsub) delivered_opened
  -- no watermark has arrived
  have hnone : ∀ key t, 0 ≤ t → covered st₁.watermarks .empty key t = false := by
    intro key t ht
    rw [← not_eq_true]
    intro hc
    obtain ⟨v, hv, hdp, -⟩ := hd₁.sound key t ht hc
    exact hdp (of_decide_eq_true (List.mem_filter.mp hv).2)
  have hhidden : Hidden S wm st₁.watermarks st₁.rows .empty := by
    refine ⟨hnone _ _ (by omega), fun v hv hdp _ hle => ?_⟩
    rcases hd₁.seen v (List.mem_filter.mpr ⟨hv, decide_eq_true hdp⟩) with hc | hrow
    · exact absurd ((hnone _ _ (hS.valid v hv).nonneg).symm.trans hc) false_ne_true
    · exact hrow
  have hstep : (opened H fuel ord ∅).deliver H fuel float64 ord (ordinaryFirst S) =
      (st₁.set H fuel float64 marks (fun _ => true) ord).1 := rfl
  obtain ⟨-, hmarks, -⟩ := set_of_ok H fuel float64 marks ord hall hd₁.keyed
  rw [hstep, covered_empty, hmarks, matchWatermarks_publish (by omega)]
  have hmem : ∀ v ∈ marks, v ∈ S ∧ v.deletePrefix ≠ [] := fun v hv =>
    ⟨(List.mem_filter.mp hv).1, of_decide_eq_true (List.mem_filter.mp hv).2⟩
  have hfold : Hidden S wm st₁.watermarks
      (updateValues float64 (fun _ => true) st₁.rows st₁.watermarks marks).rows
      (updateValues float64 (fun _ => true) st₁.rows st₁.watermarks marks).res :=
    hhidden.foldl_updateValue hf hall hS hhid hpos hsub hmem hd₁ rfl
  exact hfold.uncovered

/-- A value under the prefix of a watermark, in a row that is not in the set. -/
def probe (S : List KeyValue) (wm : KeyValue) : KeyValue :=
  let peerId := List.replicate ((S.map fun v => v.keyPeerId.length).sum + 1) 97
  { keyPeerId := keyPeerId wm.deletePrefix peerId
    readKeyId := []
    key := wm.deletePrefix
    value := ⟨[], [], []⟩
    timestampMicro := wm.timestampMicro - 1
    identity := []
    peerId := peerId
    aclId := []
    deletePrefix := [] }

theorem probe_valid (hvalid : wm.Valid) (hpos : 0 < wm.timestampMicro) : (probe S wm).Valid := by
  have hle := hvalid.le
  refine ⟨rfl, ?_, fun h => absurd rfl h, ?_, ?_⟩
  · intro hmem
    exact absurd (List.eq_of_mem_replicate hmem) (by decide)
  · change 0 ≤ wm.timestampMicro - 1
    omega
  · change wm.timestampMicro - 1 ≤ 2 ^ 53
    omega

theorem probe_keyPeerId_ne {v : KeyValue} (hv : v ∈ S) : v.keyPeerId ≠ (probe S wm).keyPeerId := by
  intro h
  have hlen : (probe S wm).keyPeerId.length =
      wm.deletePrefix.length + 1 + ((S.map fun v => v.keyPeerId.length).sum + 1) := by
    simp only [probe, keyPeerId, List.length_append, List.length_replicate, List.length_singleton]
  have hle : v.keyPeerId.length ≤ (S.map fun v => v.keyPeerId.length).sum :=
    List.single_le_sum (fun _ _ => Nat.zero_le _) _ (List.mem_map_of_mem hv)
  rw [h, hlen] at hle
  omega

/-- Storages with the same values agree iff the watermarks are guarded. -/
theorem converges_iff (hf : ExactFloat float64) (hS : Consistent S) :
    (∀ batches batches', Delivers S batches → Delivers S batches' →
      ((opened H fuel ord ∅).deliver H fuel float64 ord batches).Agree H fuel float64 ord ord'
        ((opened H fuel ord' ∅).deliver H fuel float64 ord' batches')) ↔ Guarded S := by
  have hdeliver : ∀ ord batches, Delivers S batches →
      ((opened H fuel ord ∅).deliver H fuel float64 ord batches).Delivered float64
        batches.flatten := by
    intro ord batches hb
    have hS' : Consistent ([] ++ batches.flatten) := hS.mono fun v hv => (hb v).mp hv
    exact delivered_opened.deliver hf hS'
  constructor
  · intro hagree
    by_contra hg
    simp only [Guarded, not_forall] at hg
    obtain ⟨wm, hwm, hdp, hpos, hno⟩ := hg
    have hvalid := hS.valid wm hwm
    have hhid : HiddenIn S wm := by
      intro wm' hwm' hdp' hpre hle
      by_contra hnone
      refine hno ⟨wm', hwm', hdp', hpre, hle, fun v hv hdpv hid => ?_⟩
      exact not_lt.mp fun hlt => hnone ⟨v, hv, hdpv, hid, hlt⟩
    have hfirst : Delivers S [wm :: S] := by
      intro v
      simp only [flatten_cons, flatten_nil, append_nil, List.mem_cons]
      exact or_iff_right_of_imp fun h => h ▸ hwm
    -- the probe is rejected after the one delivery and accepted after the other
    have hprobe := (hagree _ _ hfirst delivers_ordinaryFirst).2 (probe S wm)
      (probe_valid hvalid hpos)
    have hd := hdeliver ord' _ delivers_ordinaryFirst
    rw [Storage.accepts_eq (hdeliver ord _ hfirst).keyed, Storage.accepts_eq hd.keyed,
      if_pos (.inl (covered_deliver_first hf hvalid hdp hpos)), if_neg] at hprobe
    · cases hprobe
    · rintro (hc | ⟨doc, hdoc, -⟩)
      · exact absurd ((uncovered_ordinaryFirst hf hS hhid hpos).symm.trans hc)
          false_ne_true
      · obtain ⟨u, hu, hid, -⟩ := hd.origin _ _ hdoc
        exact probe_keyPeerId_ne ((delivers_ordinaryFirst u).mp hu) hid
  · intro hg batches batches' hb hb'
    exact (hdeliver ord _ hb).agree hf hS hg hb hb' (hdeliver ord' _ hb')

end Converge

namespace Sample

/-- Values of `xxhash.Sum64` for the ids "p/x-A" and "p-A". -/
def hashing : Hashing :=
  .ofTable [([112, 47, 120, 45, 65], 0xd860eab5f8d07fb1), ([112, 45, 65], 0x871925febf3588c6)]
    [([], 0xaf1349b9f5f9a1a6a0404dea36dcc9499bcb25c9adc112b7cc9a93cae41f3262)]

/-- A value of the peer "A". -/
def value (key deletePrefix : GoString) (timestampMicro : ℤ) : KeyValue :=
  { keyPeerId := keyPeerId key [65]
    readKeyId := []
    key := key
    value := ⟨[], [], []⟩
    timestampMicro := timestampMicro
    identity := []
    peerId := [65]
    aclId := []
    deletePrefix := deletePrefix }

/-- A value with the key "p/x". -/
def note : KeyValue := value [112, 47, 120] [] 1

/-- A watermark for the prefix "p". -/
def clear : KeyValue := value [112] [112] 3

/-- A value with the key "p", in the row of the watermark. -/
def cover : KeyValue := value [112] [] 5

end Sample

open Sample

/-- A note and a watermark, in both orders. -/
theorem converges_noteAndWatermark :
    ((opened hashing 70 .listed ∅).deliver hashing 70 id .listed
        [[note], [clear]]).Agree hashing 70 id .listed .reversed
      ((opened hashing 70 .reversed ∅).deliver hashing 70 id .reversed
        [[clear], [note]]) := by
  have hguarded : Guarded [note, clear] := by decide
  refine (converges_iff (fun _ _ _ => rfl) ⟨by decide, by decide⟩).mpr hguarded _ _
    (fun _ => Iff.rfl) fun _ => ?_
  exact (List.Perm.swap _ _ _).mem_iff

/-- The value and the watermark of one row, in both orders: the note is dropped or it stays. -/
theorem diverges_hiddenWatermark :
    let S := [note, clear, cover]
    let deliver := (opened hashing 70 .listed ∅).deliver hashing 70 id .listed
    Consistent S ∧ Delivers S [[note], [clear], [cover]] ∧
      Delivers S [[note], [cover], [clear]] ∧
      (deliver [[note], [clear], [cover]]).rows.lookup
        note.keyPeerId = none ∧
      (deliver [[note], [cover], [clear]]).rows.lookup
        note.keyPeerId = some (note.anyEnc id) := by
  refine ⟨⟨by decide, by decide⟩, fun _ => Iff.rfl, fun _ => ?_, by decide +kernel,
    by decide +kernel⟩
  exact (List.Perm.cons _ (List.Perm.swap _ _ _)).mem_iff

end InnerStorage
