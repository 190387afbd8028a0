import AnySync.Go.Numbers
import AnySync.KeyValue.SetRaw

/-!
# Timestamps in three representations

A timestamp is an `int64` in a message, a `float64` in a document and an unsigned number in the
diff. `SetRaw` compares the second and the third with the first: a row is replaced if both
comparisons say that the new value is later.

The main result is `lastWriterWins_iff`.
-/

namespace InnerStorage

open Ldiff
open Float64 (ofInt ofInt_nonneg_iff)
open UpdateResult (empty recordPre)

/-! ## Reading back -/

/-- The conversion of a `float64` without a fractional part to `int64`. It is exact in the range,
and what `2 ^ 63` becomes depends on the platform. -/
structure Converts (toInt64 : ℤ → ℤ) : Prop where
  exact : ∀ n, -2 ^ 63 ≤ n → n < 2 ^ 63 → toInt64 n = n
  overflow : toInt64 (2 ^ 63) = -2 ^ 63 ∨ toInt64 (2 ^ 63) = 2 ^ 63 - 1

/-- The values of `int64`. -/
def IsInt64 (n : ℤ) : Prop := -2 ^ 63 ≤ n ∧ n < 2 ^ 63

/-- What is read of a stored timestamp. -/
def readBack (toInt64 : ℤ → ℤ) (t : ℤ) : ℤ := toInt64 (ofInt t)

/-- A value with the timestamp `t` replaces the row of one with the timestamp `s`: it is later in
the diff, and it is later than the document. -/
def Replaces (float64 : ℤ → ℤ) (s t : ℤ) : Prop :=
  timestampHead (float64 s) < timestampHead t ∧ float64 s < t

theorem timestampHead_lt_iff {s t : ℤ} :
    timestampHead s < timestampHead t ↔ s % 2 ^ 64 < t % 2 ^ 64 := by
  have hs := Int.emod_lt_of_pos s (show (0 : ℤ) < 2 ^ 64 by norm_num)
  have ht := Int.emod_lt_of_pos t (show (0 : ℤ) < 2 ^ 64 by norm_num)
  have hs' := Int.emod_nonneg s (show (2 ^ 64 : ℤ) ≠ 0 by norm_num)
  have ht' := Int.emod_nonneg t (show (2 ^ 64 : ℤ) ≠ 0 by norm_num)
  rw [timestampHead, timestampHead, bytesOfNat_lt_iff (by norm_num; omega) (by norm_num; omega)]
  omega

/-! ## One delivery -/

section Deliver

variable {H : Hashing} {fuel : ℕ} {float64 : ℤ → ℤ} {C : Crypto} {acl : AclView C.PubKey}
  {ord : RangeOrder} {st : Storage} {m : StoreKeyValue} {v s : KeyValue}

/-- A valid message with a regular value, which the ACL admits as `v`. -/
structure Regular (C : Crypto) (acl : AclView C.PubKey) (m : StoreKeyValue) (v : KeyValue) :
    Prop where
  readKeys : acl.readKeysOk = true
  value : ∃ kv identity readKeyId, decode C m = some (kv, identity) ∧
    acl.readKeyForAclId kv.aclId = some readKeyId ∧ v = { kv with readKeyId := readKeyId }
  regular : v.deletePrefix = []
  int64 : IsInt64 v.timestampMicro

/-- A call of `SetRaw` with one message, in which no operation fails. -/
def Storage.receive (H : Hashing) (fuel : ℕ) (float64 : ℤ → ℤ) (C : Crypto)
    (acl : AclView C.PubKey) (ord : RangeOrder) (st : Storage) (m : StoreKeyValue) :
    Storage × Outcome :=
  st.setRaw H fuel float64 C acl [m] (fun _ => true) ord

/-- There is no row with the id, and no watermark. -/
structure Vacant (st : Storage) (id : GoString) : Prop where
  row : st.rows.lookup id = none
  element : (contents st.diff).lookup id = none
  watermarks : st.watermarks = ∅

/-- The row of the value is stored, and there is no watermark. -/
structure Stores (float64 : ℤ → ℤ) (st : Storage) (v : KeyValue) : Prop where
  row : st.rows.lookup v.keyPeerId = some (v.anyEnc float64)
  element : (contents st.diff).lookup v.keyPeerId =
    some (timestampHead (float64 v.timestampMicro))
  watermarks : st.watermarks = ∅

/-- A call changed nothing. -/
structure Unchanged (st st' : Storage) : Prop where
  rows : st'.rows = st.rows
  elements : contents st'.diff = contents st.diff
  watermarks : st'.watermarks = st.watermarks
  head : st'.head = st.head

theorem Regular.keyPeerId_ne (h : Regular C acl m v) : v.keyPeerId ≠ [] := by
  obtain ⟨kv, identity, readKeyId, hdecode, -, rfl⟩ := h.value
  obtain ⟨-, -, -, hid, -⟩ := decode_eq_some hdecode
  change kv.keyPeerId ≠ []
  rw [hid, keyPeerId]
  simp

/-- What reaches the inner storage: the value, unless the diff has a later one. -/
theorem Regular.batch_eq (h : Regular C acl m v) :
    st.batch C acl [m] =
      if ∃ head ∈ (contents st.diff).lookup v.keyPeerId, timestampHead v.timestampMicro ≤ head then
        [] else [v] := by
  have hne := h.keyPeerId_ne
  have hregular := h.regular
  obtain ⟨kv, identity, readKeyId, hdecode, hread, rfl⟩ := h.value
  have howner : ownerRule acl (kv, identity) = true := by simpa [ownerRule] using Or.inl hregular
  have hbatch : st.batch C acl [m] =
      [screen acl (contents st.diff) (kv, identity)].filter (·.keyPeerId ≠ []) := by
    rw [Storage.batch, List.filterMap_cons_some hdecode]
    rfl
  rw [hbatch, screen, if_neg (by simp [howner])]
  simp only [hread]
  split
  · simp
  · simpa using hne

theorem Regular.receive_eq (h : Regular C acl m v) :
    st.receive H fuel float64 C acl ord m =
      if ∃ head ∈ (contents st.diff).lookup v.keyPeerId, timestampHead v.timestampMicro ≤ head then
        (st, .none false)
      else ((st.set H fuel float64 [v] (fun _ => true) ord).1,
        .of (st.set H fuel float64 [v] (fun _ => true) ord).2) := by
  rw [Storage.receive, Storage.setRaw, if_neg (by simp), if_neg (by simp [h.readKeys]), h.batch_eq]
  split <;> simp

variable (H fuel float64 ord) in
/-- `Set` of a value for which there is no row, or an older one. -/
theorem stores_set (hregular : v.deletePrefix = []) (hwatermarks : st.watermarks = ∅)
    (hrow : ∀ doc, st.rows.lookup v.keyPeerId = some doc → doc.t < v.timestampMicro) :
    Stores float64 (st.set H fuel float64 [v] (fun _ => true) ord).1 v ∧
      (st.set H fuel float64 [v] (fun _ => true) ord).2 = some ⟨[v], []⟩ := by
  have hcovered : covered st.watermarks .empty v.key v.timestampMicro = false := by
    simp [covered, matchWatermarks, hwatermarks, empty]
  obtain ⟨pre, used, hpre, hupdate⟩ : ∃ pre used, pre.entries.isEmpty = false ∧
      updateValues float64 (fun _ => true) st.rows st.watermarks [v] =
        ⟨st.rows.insert v.keyPeerId (v.anyEnc float64),
          ⟨[anyEncToElement (v.anyEnc float64)], [], pre, ∅, [v], []⟩, used, false⟩ := by
    rw [updateValues, List.foldl_cons, List.foldl_nil, updateValue, if_neg (by simp [hcovered])]
    cases hlookup : st.rows.lookup v.keyPeerId with
    | none =>
      refine ⟨AList.insert v.keyPeerId none ∅, 3, rfl, ?_⟩
      simp [Tx.op, hlookup, upsertOne, hregular, recordPre, empty, KeyValue.anyEnc]
    | some doc =>
      have hlt := not_le.mpr (hrow doc hlookup)
      refine ⟨AList.insert doc.id (some (anyEncToElement doc)) ∅, 3, rfl, ?_⟩
      simp [Tx.op, hlookup, hlt, upsertOne, hregular, recordPre, empty,
        KeyValue.anyEnc, anyEncToElement]
  unfold Storage.set
  simp only [hupdate, hpre, Bool.true_eq_false, Bool.false_eq_true, if_false, if_true, List.map_nil,
    and_true]
  constructor
  · change (st.rows.insert v.keyPeerId (v.anyEnc float64)).lookup v.keyPeerId = _
    rw [GoMap.lookup_insert_eq, if_pos rfl]
  · change (contents (st.diff ++ [.set [anyEncToElement (v.anyEnc float64)] ord])).lookup _ = _
    rw [contents_append]
    change ((contents st.diff).insert v.keyPeerId (timestampHead _)).lookup v.keyPeerId = _
    rw [GoMap.lookup_insert_eq, if_pos rfl]
    rfl
  · exact hwatermarks

variable (H fuel float64 ord) in
/-- `Set` of a value that is not later than the row. -/
theorem unchanged_set (hwatermarks : st.watermarks = ∅) {doc : Doc}
    (hrow : st.rows.lookup v.keyPeerId = some doc) (hle : v.timestampMicro ≤ doc.t) :
    Unchanged st (st.set H fuel float64 [v] (fun _ => true) ord).1 ∧
      (st.set H fuel float64 [v] (fun _ => true) ord).2 = some ⟨[], []⟩ := by
  have hupdate : updateValues float64 (fun _ => true) st.rows st.watermarks [v] =
      ⟨st.rows, .empty, 2, false⟩ := by
    rw [updateValues, List.foldl_cons, List.foldl_nil, updateValue, if_neg]
    · simp [Tx.op, hrow, hle]
    · simp [covered, matchWatermarks, hwatermarks, empty]
  unfold Storage.set
  simp only [hupdate, Bool.true_eq_false, Bool.false_eq_true, if_false, if_true]
  refine ⟨⟨rfl, ?_, rfl, rfl⟩, rfl⟩
  change contents (st.diff ++ [.set [] ord]) = contents st.diff
  rw [contents_append]
  rfl

theorem Unchanged.stores {st' : Storage} (h : Unchanged st st') (hs : Stores float64 st s) :
    Stores float64 st' s where
  row := by rw [h.rows, hs.row]
  element := by rw [h.elements, hs.element]
  watermarks := by rw [h.watermarks, hs.watermarks]

/-- The first delivery stores the row. -/
theorem Vacant.receive (h : Vacant st v.keyPeerId) (hm : Regular C acl m v) :
    Stores float64 (st.receive H fuel float64 C acl ord m).1 v := by
  rw [hm.receive_eq, h.element, if_neg (by simp)]
  refine (stores_set H fuel float64 ord hm.regular h.watermarks fun doc hdoc => ?_).1
  rw [h.row] at hdoc
  cases hdoc

variable (H fuel ord) in
/-- A later delivery replaces the row, or it does nothing. -/
theorem Stores.receive (h : Stores float64 st s) (hm : Regular C acl m v)
    (hid : s.keyPeerId = v.keyPeerId) :
    (Replaces float64 s.timestampMicro v.timestampMicro ∧
        Stores float64 (st.receive H fuel float64 C acl ord m).1 v ∧
        (st.receive H fuel float64 C acl ord m).2.broadcast = [v]) ∨
      (¬ Replaces float64 s.timestampMicro v.timestampMicro ∧
        Unchanged st (st.receive H fuel float64 C acl ord m).1 ∧
        (st.receive H fuel float64 C acl ord m).2.broadcast = []) := by
  have hrow := h.row
  have helement := h.element
  rw [hid] at hrow helement
  rw [hm.receive_eq, helement]
  by_cases hhead : timestampHead v.timestampMicro ≤ timestampHead (float64 s.timestampMicro)
  · rw [if_pos ⟨_, rfl, hhead⟩]
    refine .inr ⟨fun hreplaces => absurd hreplaces.1 (not_lt.mpr hhead), ?_, rfl⟩
    exact ⟨rfl, rfl, rfl, rfl⟩
  · rw [if_neg (by simpa using hhead)]
    by_cases hlt : float64 s.timestampMicro < v.timestampMicro
    · have hnewer : ∀ doc, st.rows.lookup v.keyPeerId = some doc → doc.t < v.timestampMicro := by
        intro doc hdoc
        rw [hrow] at hdoc
        exact Option.some.inj hdoc ▸ hlt
      have hset := stores_set H fuel float64 ord hm.regular h.watermarks hnewer
      refine .inl ⟨⟨not_le.mp hhead, hlt⟩, hset.1, ?_⟩
      rw [hset.2]
      rfl
    · have hset := unchanged_set H fuel float64 ord h.watermarks hrow (not_lt.mp hlt)
      refine .inr ⟨fun hreplaces => hlt hreplaces.2, hset.1, ?_⟩
      rw [hset.2]
      rfl

end Deliver

/-! ## Two deliveries -/

section Two

variable (H : Hashing) (fuel : ℕ) (float64 : ℤ → ℤ) (C : Crypto) (acl : AclView C.PubKey)
  (ords : ℕ → RangeOrder)

/-- A storage without rows. -/
def Storage.blank : Storage := opened H fuel (ords 0) ∅

/-- The storage after the first message. -/
def Storage.afterFirst (first : StoreKeyValue) : Storage :=
  ((Storage.blank H fuel ords).receive H fuel float64 C acl (ords 1) first).1

/-- The storage after both messages. -/
def Storage.afterBoth (first second : StoreKeyValue) : Storage :=
  ((Storage.afterFirst H fuel float64 C acl ords first).receive H fuel float64 C acl
    (ords 2) second).1

/-- A delivery changes nothing and broadcasts nothing. -/
def Storage.Silent (st : Storage) (m : StoreKeyValue) : Prop :=
  Unchanged st (st.receive H fuel float64 C acl (ords 3) m).1 ∧
    (st.receive H fuel float64 C acl (ords 3) m).2.broadcast = []

/-- The two messages, with the values `v` and `u`, are delivered in this order. -/
structure InOrder (first second : StoreKeyValue) (v u : KeyValue) : Prop where
  /-- The row with the greater timestamp is stored at the end. -/
  greater : v.timestampMicro < u.timestampMicro →
    (Storage.afterBoth H fuel float64 C acl ords first second).rows.lookup v.keyPeerId =
      some (u.anyEnc float64)
  greater' : u.timestampMicro < v.timestampMicro →
    (Storage.afterBoth H fuel float64 C acl ords first second).rows.lookup v.keyPeerId =
      some (v.anyEnc float64)
  /-- A second delivery does nothing. -/
  again : (Storage.afterFirst H fuel float64 C acl ords first).Silent H fuel float64 C acl ords
    first
  again_first : (Storage.afterBoth H fuel float64 C acl ords first second).Silent H fuel float64 C
    acl ords first
  again_second : (Storage.afterBoth H fuel float64 C acl ords first second).Silent H fuel float64 C
    acl ords second

variable {H fuel float64 C acl ords} {st : Storage} {a b m : StoreKeyValue} {v u s : KeyValue}

theorem vacant_blank (id : GoString) : Vacant (Storage.blank H fuel ords) id := ⟨rfl, rfl, rfl⟩

variable (H fuel ords) in
theorem Stores.silent_iff (h : Stores float64 st s) (hm : Regular C acl m v)
    (hid : s.keyPeerId = v.keyPeerId) :
    st.Silent H fuel float64 C acl ords m ↔
      ¬ Replaces float64 s.timestampMicro v.timestampMicro := by
  obtain ⟨hreplaces, -, hbroadcast⟩ | ⟨hnot, hsilent⟩ := h.receive H fuel (ords 3) hm hid
  · refine iff_of_false (fun hsilent => ?_) (not_not.mpr hreplaces)
    rw [Storage.Silent, hbroadcast] at hsilent
    cases hsilent.2
  · exact iff_of_true hsilent hnot

/-- The stored document tells the timestamp, which is a part of the signed bytes. -/
theorem Regular.timestamp_eq (ha : Regular C acl a v) (hb : Regular C acl b u)
    (h : v.anyEnc float64 = u.anyEnc float64) : v.timestampMicro = u.timestampMicro := by
  obtain ⟨kv, identity, readKeyId, hdecode, -, rfl⟩ := ha.value
  obtain ⟨kv', identity', readKeyId', hdecode', -, rfl⟩ := hb.value
  obtain ⟨-, -, -, -, -, hbytes, hinner⟩ := decode_eq_some hdecode
  obtain ⟨-, -, -, -, -, hbytes', hinner'⟩ := decode_eq_some hdecode'
  have hvalue : kv.value = kv'.value := congrArg Doc.v h
  have hsame : a.value = b.value := by rw [← hbytes, ← hbytes', hvalue]
  rw [hsame, hinner'] at hinner
  exact (Option.some.inj hinner).symm

/-- What the deliveries do, in terms of the comparisons. -/
theorem inOrder_iff (ha : Regular C acl a v) (hb : Regular C acl b u)
    (hid : v.keyPeerId = u.keyPeerId) :
    InOrder H fuel float64 C acl ords a b v u ↔
      ¬ Replaces float64 v.timestampMicro v.timestampMicro ∧
        (v.timestampMicro < u.timestampMicro → Replaces float64 v.timestampMicro u.timestampMicro) ∧
        (u.timestampMicro < v.timestampMicro →
          ¬ Replaces float64 v.timestampMicro u.timestampMicro) ∧
        (Replaces float64 v.timestampMicro u.timestampMicro →
          ¬ Replaces float64 u.timestampMicro v.timestampMicro ∧
          ¬ Replaces float64 u.timestampMicro u.timestampMicro) := by
  have hfirst : Stores float64 (Storage.afterFirst H fuel float64 C acl ords a) v :=
    (vacant_blank v.keyPeerId).receive ha
  have hagain := hfirst.silent_iff H fuel ords ha rfl
  -- one of the two rows is stored at the end, and the other one is not
  have hrow : ∀ {st : Storage} {s x : KeyValue} {m m' : StoreKeyValue}, Stores float64 st s →
      Regular C acl m s → Regular C acl m' x →
      st.rows.lookup s.keyPeerId = some (x.anyEnc float64) →
      s.timestampMicro = x.timestampMicro := by
    intro st s x m m' hs hm hm' hx
    rw [hs.row] at hx
    exact hm.timestamp_eq hm' (Option.some.inj hx)
  obtain ⟨hreplaces, hboth, -⟩ | ⟨hnot, hunchanged, -⟩ := hfirst.receive H fuel (ords 2) hb hid
  · have hsecond : Stores float64 (Storage.afterBoth H fuel float64 C acl ords a b) u := hboth
    have hv := hsecond.silent_iff H fuel ords ha hid.symm
    have hu := hsecond.silent_iff H fuel ords hb rfl
    constructor
    · intro h
      refine ⟨hagain.mp h.again, fun _ => hreplaces, fun hlt => ?_, fun _ => ?_⟩
      · have hgreater := h.greater' hlt
        rw [hid] at hgreater
        exact absurd (hrow hsecond hb ha hgreater) hlt.ne
      · exact ⟨hv.mp h.again_first, hu.mp h.again_second⟩
    · rintro ⟨hsame, -, hless, hrest⟩
      refine ⟨fun _ => ?_, fun hlt => absurd hreplaces (hless hlt), hagain.mpr hsame,
        hv.mpr (hrest hreplaces).1, hu.mpr (hrest hreplaces).2⟩
      rw [hid]
      exact hsecond.row
  · have hsecond : Stores float64 (Storage.afterBoth H fuel float64 C acl ords a b) v :=
      Unchanged.stores hunchanged hfirst
    have hv := hsecond.silent_iff H fuel ords ha rfl
    have hu := hsecond.silent_iff H fuel ords hb hid
    constructor
    · intro h
      refine ⟨hagain.mp h.again, fun hlt => ?_, fun _ => hnot, fun h' => absurd h' hnot⟩
      exact absurd (hrow hsecond ha hb (h.greater hlt)) hlt.ne
    · rintro ⟨hsame, hgreater, -, -⟩
      exact ⟨fun hlt => absurd (hgreater hlt) hnot, fun _ => hsecond.row, hagain.mpr hsame,
        hv.mpr hsame, hu.mpr hnot⟩

end Two

/-! ## Which timestamps are ordered -/

section Order

variable {toInt64 : ℤ → ℤ} {s t : ℤ}

/-- What is read back of a timestamp, with the two outcomes of an overflow. -/
theorem readBack_cases (hconv : Converts toInt64) (ht : IsInt64 t) :
    (readBack toInt64 t = ofInt t ∧ IsInt64 (ofInt t)) ∨
      (ofInt t = 2 ^ 63 ∧
        (readBack toInt64 t = -2 ^ 63 ∨ readBack toInt64 t = 2 ^ 63 - 1)) := by
  obtain ⟨hlow, hhigh⟩ := Float64.ofInt_mem ht
  rcases hhigh.lt_or_eq with hlt | heq
  · exact .inl ⟨hconv.exact _ hlow hlt, hlow, hlt⟩
  · refine .inr ⟨heq, ?_⟩
    rw [readBack, heq]
    exact hconv.overflow

/-- A second delivery applies the value again iff it was rounded down. -/
theorem replaces_self_iff (hconv : Converts toInt64) (ht : IsInt64 t) :
    Replaces (readBack toInt64) t t ↔ ofInt t < t := by
  have hsign : 0 ≤ ofInt t ↔ 0 ≤ t := ofInt_nonneg_iff
  rw [Replaces, timestampHead_lt_iff]
  unfold IsInt64 at ht
  rcases readBack_cases hconv ht with ⟨hread, hrange⟩ | ⟨hround, hread | hread⟩
  · unfold IsInt64 at hrange
    rw [hread]
    omega
  · rw [hread]
    omega
  · rw [hread]
    omega

/-- The later value replaces the earlier one iff they have the same sign and rounding leaves a
difference. -/
theorem replaces_of_lt_iff (hconv : Converts toInt64) (hs : IsInt64 s) (ht : IsInt64 t)
    (hst : s < t) :
    Replaces (readBack toInt64) s t ↔ (0 ≤ s ↔ 0 ≤ t) ∧ ofInt s < t := by
  have hsign : 0 ≤ ofInt s ↔ 0 ≤ s := ofInt_nonneg_iff
  rw [Replaces, timestampHead_lt_iff]
  unfold IsInt64 at hs ht
  rcases readBack_cases hconv hs with ⟨hread, hrange⟩ | ⟨hround, hread | hread⟩
  · unfold IsInt64 at hrange
    rw [hread]
    omega
  · rw [hread]
    omega
  · rw [hread]
    omega

theorem not_replaces_of_lt (hconv : Converts toInt64) (hs : IsInt64 s) (ht : IsInt64 t)
    (hst : s < t) (hsame : 0 ≤ s ↔ 0 ≤ t) (hround : t ≤ ofInt t) :
    ¬ Replaces (readBack toInt64) t s := by
  have hsign : 0 ≤ ofInt t ↔ 0 ≤ t := ofInt_nonneg_iff
  rw [Replaces, timestampHead_lt_iff]
  unfold IsInt64 at hs ht
  rcases readBack_cases hconv ht with ⟨hread, hrange⟩ | ⟨hround, hread | hread⟩
  · unfold IsInt64 at hrange
    rw [hread]
    omega
  · rw [hread]
    omega
  · rw [hread]
    omega

/-- The three representations agree on the order of the timestamps: neither is rounded down, and if
they differ then they have the same sign and the lesser one is not rounded up to the greater. -/
structure Comparable (s t : ℤ) : Prop where
  left : s ≤ ofInt s
  right : t ≤ ofInt t
  apart : s ≠ t → (0 ≤ s ↔ 0 ≤ t) ∧ ofInt (min s t) < max s t

theorem Comparable.symm (h : Comparable s t) : Comparable t s where
  left := h.right
  right := h.left
  apart hne := by
    obtain ⟨hsign, hlt⟩ := h.apart hne.symm
    rw [min_comm, max_comm]
    exact ⟨hsign.symm, hlt⟩

theorem comparable_self_iff : Comparable t t ↔ t ≤ ofInt t :=
  ⟨fun h => h.left, fun h => ⟨h, h, fun hne => absurd rfl hne⟩⟩

theorem comparable_iff_of_lt (hconv : Converts toInt64) (hs : IsInt64 s) (ht : IsInt64 t)
    (hst : s < t) :
    Comparable s t ↔ s ≤ ofInt s ∧ t ≤ ofInt t ∧
      Replaces (readBack toInt64) s t ∧ ¬ Replaces (readBack toInt64) t s := by
  rw [replaces_of_lt_iff hconv hs ht hst]
  constructor
  · intro h
    obtain ⟨hsign, hapart⟩ := h.apart hst.ne
    rw [min_eq_left hst.le, max_eq_right hst.le] at hapart
    exact ⟨h.left, h.right, ⟨hsign, hapart⟩, not_replaces_of_lt hconv hs ht hst hsign h.right⟩
  · rintro ⟨hleft, hright, ⟨hsign, hapart⟩, -⟩
    refine ⟨hleft, hright, fun _ => ⟨hsign, ?_⟩⟩
    rwa [min_eq_left hst.le, max_eq_right hst.le]

end Order

/-- The later one of two values is stored in both orders, and second deliveries do nothing, iff the
timestamps are comparable. -/
theorem lastWriterWins_iff {toInt64 : ℤ → ℤ} (hconv : Converts toInt64) (H : Hashing) (fuel : ℕ)
    (ords : ℕ → RangeOrder) {C : Crypto} {acl : AclView C.PubKey} {a b : StoreKeyValue}
    {v u : KeyValue} (ha : Regular C acl a v) (hb : Regular C acl b u)
    (hid : v.keyPeerId = u.keyPeerId) :
    (InOrder H fuel (readBack toInt64) C acl ords a b v u ∧
        InOrder H fuel (readBack toInt64) C acl ords b a u v) ↔
      Comparable v.timestampMicro u.timestampMicro := by
  rw [inOrder_iff ha hb hid, inOrder_iff hb ha hid.symm]
  have hv := ha.int64
  have hu := hb.int64
  generalize v.timestampMicro = s at hv ⊢
  generalize u.timestampMicro = t at hu ⊢
  rw [replaces_self_iff hconv hv, replaces_self_iff hconv hu, not_lt, not_lt]
  rcases lt_trichotomy s t with hlt | rfl | hgt
  · rw [comparable_iff_of_lt hconv hv hu hlt]
    simp only [hlt, hlt.not_gt, forall_const, IsEmpty.forall_iff, true_and]
    tauto
  · rw [comparable_self_iff, replaces_self_iff hconv hv]
    simp only [lt_irrefl, IsEmpty.forall_iff, true_and]
    refine ⟨fun h => h.1.1, fun h => ?_⟩
    exact ⟨⟨h, fun hlt => absurd hlt (not_lt.mpr h)⟩, h, fun hlt => absurd hlt (not_lt.mpr h)⟩
  · have hswap : Comparable s t ↔ Comparable t s := ⟨Comparable.symm, Comparable.symm⟩
    rw [hswap, comparable_iff_of_lt hconv hu hv hgt]
    simp only [hgt, hgt.not_gt, forall_const, IsEmpty.forall_iff, true_and]
    tauto

namespace Sample

/-- The conversion on amd64. -/
def amd64 (n : ℤ) : ℤ := if -2 ^ 63 ≤ n ∧ n < 2 ^ 63 then n else -2 ^ 63

theorem converts_amd64 : Converts amd64 where
  exact n hlow hhigh := if_pos ⟨hlow, hhigh⟩
  overflow := .inl (by decide)

/-- A value of the member with a timestamp before 1970. -/
def negativeNote : Message where
  inner := memberInner (-1)
  identitySignature :=
    bytesOfHalves 0xc6bbad5bda72c4036b23177b15352f42cf722bb90f27e621fc4e57a83a7337b5
      0x3cfeadf9de64c4b2cd607323bb82a84cb83429b3d1a81532d1cf066f14b3f107
  peerSignature := bytesOfHalves 0x403f2bfed0e3789ebce0dcf0d1c193ad55a13a936878bc9b084052549173e117
    0x49a4fad5178c084228cadd9719622a4cbd9a6f43fd59c7a482d4bb49b8e0100b

/-- A value of the member whose timestamp is rounded down to `2 ^ 54`. -/
def roundedNote : Message where
  inner := memberInner (2 ^ 54 + 1)
  identitySignature :=
    bytesOfHalves 0xeaecb5c211003c53aaadf6c7c184d784a01e104d870b6e28490400f7bb1e4b41
      0xd793a43e5a73dca94872ed12443d304e652f5958c11562824c001a40f034a702
  peerSignature := bytesOfHalves 0xf27455577ebae67cf0999dd5d1e94da924fbd8091c75aeea59f74595714f9f7f
    0xdabfa21f2a141fc769954256cb9e5da84482daf55b64339202e775590243770e

/-- A later one, whose timestamp is rounded down to `2 ^ 54`, too. -/
def laterNote : Message where
  inner := memberInner (2 ^ 54 + 2)
  identitySignature :=
    bytesOfHalves 0xc1e4e715a314d7a46626b110b512bd5242511ed78538995b4a790edb6a6184f6
      0xb673db097274a1a871a16ac7085dcf2bbf8897d4a24dd69cd94d722307b2f50f
  peerSignature := bytesOfHalves 0xde3dba5845f62fbc29077c3a4656f5ce8ab863529ccbe61a54479de1411bd890
    0x52197aa55fe4872fe1e3f36c32515396a92b378118b663413e6f4fc4ab78d200

/-- The messages above and those of the other calls. -/
def timed : List Message := [negativeNote, roundedNote, laterNote, memberNote, memberNoteAgain]

/-- The value of the member that is stored for a message. -/
def memberKv (message : Message) : KeyValue := message.kv member memberDevice

/-- `SetRaw` on a storage without rows, one message after the other. -/
def received (notes : List Message) : Storage × Outcome :=
  notes.foldl (fun out note => deliver timed (readBack amd64) out.1 [note.raw memberDevice])
    (opened rawHashing 70 .listed ∅, .none false)

theorem regular_memberNote :
    Regular (crypto timed) aclView (memberNote.raw memberDevice) (memberKv memberNote) where
  readKeys := rfl
  value := ⟨{ memberKv memberNote with readKeyId := [] }, member.pubKey, aclHead,
    by decide +kernel, rfl, rfl⟩
  regular := rfl
  int64 := ⟨by decide, by decide⟩

theorem regular_memberNoteAgain :
    Regular (crypto timed) aclView (memberNoteAgain.raw memberDevice)
      (memberKv memberNoteAgain) where
  readKeys := rfl
  value := ⟨{ memberKv memberNoteAgain with readKeyId := [] }, member.pubKey, aclHead,
    by decide +kernel, rfl, rfl⟩
  regular := rfl
  int64 := ⟨by decide, by decide⟩

end Sample

open Sample

/-- Small positive timestamps are comparable. -/
theorem lastWriterWins_notes :
    InOrder rawHashing 70 (readBack amd64) (crypto timed)
        aclView (fun _ => .listed) (memberNote.raw memberDevice)
        (memberNoteAgain.raw memberDevice) (memberKv memberNote)
        (memberKv memberNoteAgain) ∧
      InOrder rawHashing 70 (readBack amd64) (crypto timed)
        aclView (fun _ => .listed) (memberNoteAgain.raw memberDevice)
        (memberNote.raw memberDevice) (memberKv memberNoteAgain)
        (memberKv memberNote) :=
  (lastWriterWins_iff converts_amd64 rawHashing 70 (fun _ => .listed)
    regular_memberNote regular_memberNoteAgain rfl).mpr
    ⟨by decide +kernel, by decide +kernel, fun _ => ⟨by decide, by decide +kernel⟩⟩

/-- A value is not replaced by a later one if its timestamp is negative; the earlier one of two
values that are rounded to the same timestamp replaces the later one; and a value that was rounded
down is broadcast again when it is delivered again. -/
theorem lastWriter_loses :
    (received [negativeNote, memberNote]).1.rows.lookup
        (memberKv memberNote).keyPeerId =
      some ((memberKv negativeNote).anyEnc (readBack amd64)) ∧
    (received [laterNote, roundedNote]).1.rows.lookup
        (memberKv memberNote).keyPeerId =
      some ((memberKv roundedNote).anyEnc (readBack amd64)) ∧
    (received [roundedNote, roundedNote]).2.broadcast =
      [memberKv roundedNote] := by
  decide +kernel

end InnerStorage
