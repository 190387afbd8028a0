import AnySync.KeyValue.SetRaw

/-!
# What a call reports

`Set` returns the values it has applied and the ids of the rows that its watermarks have deleted.
Both lists only grow while the values of the batch are applied one after the other: a value that is
overwritten or deleted later stays in the first, and a deleted row that is written again stays in
the second.

The main result is `setResult_exact_iff`.
-/

namespace InnerStorage

open Ldiff
open List (foldl_cons reverseRecOn append_inj' foldl_append append_assoc)
open GoMap (lookup_insert_eq)

/-! ## Calls that do not fail -/

section Ok

variable {float64 : ℤ → ℤ} {ok : ℕ → Bool} {tx : Tx} {wm value : KeyValue}
variable {acc : Tx × List GoString} {docs : List Doc} {watermarks : Watermarks}

/-- No operation fails. -/
def always : ℕ → Bool := fun _ => true

@[simp]
theorem always_apply (n : ℕ) : always n = true := rfl

/-- An operation that succeeded is as if operations never failed. -/
theorem Tx.op_always {next next' : Tx → Tx} (h : (tx.op ok next).failed = false)
    (hnext : (next { tx with used := tx.used + 1 }).failed = false →
      next { tx with used := tx.used + 1 } = next' { tx with used := tx.used + 1 }) :
    tx.op ok next = tx.op always next' := by
  obtain ⟨hfailed, hop⟩ := Tx.op_failed h
  rw [hop] at h ⊢
  rw [hnext h, Tx.op, if_neg (by simp [hfailed]), if_pos (always_apply _)]

theorem visitDoc_always {doc : Doc} (h : (visitDoc ok wm acc doc).1.failed = false) :
    visitDoc ok wm acc doc = visitDoc always wm acc doc := by
  unfold visitDoc at h ⊢
  by_cases hfailed : acc.1.failed = true
  · rw [if_pos hfailed, if_pos hfailed]
  · rw [if_neg hfailed] at h
    rw [if_neg hfailed, if_neg hfailed]
    by_cases hok : ok acc.1.used = false
    · rw [if_pos hok] at h
      cases h
    · have halways : ¬ always acc.1.used = false := by simp
      rw [if_neg hok, if_neg halways]

theorem foldl_visitDoc_always (h : (docs.foldl (visitDoc ok wm) acc).1.failed = false) :
    docs.foldl (visitDoc ok wm) acc = docs.foldl (visitDoc always wm) acc := by
  induction docs generalizing acc with
  | nil => rfl
  | cons doc docs ih =>
    rw [foldl_cons] at h
    have hdoc := visitDoc_always (visited_foldl h).failed
    rw [foldl_cons, foldl_cons, ih h, hdoc]

theorem foldl_deleteId_always {ids : List GoString}
    (h : (ids.foldl (deleteId ok) tx).failed = false) :
    ids.foldl (deleteId ok) tx = ids.foldl (deleteId always) tx := by
  induction ids generalizing tx with
  | nil => rfl
  | cons id ids ih =>
    rw [foldl_cons] at h
    have hid : deleteId ok tx id = deleteId always tx id :=
      Tx.op_always (foldl_deleteId h).1 fun _ => rfl
    rw [foldl_cons, foldl_cons, ih h, hid]

theorem applyWatermark_always (h : (applyWatermark ok tx wm).failed = false) :
    applyWatermark ok tx wm = applyWatermark always tx wm := by
  refine Tx.op_always h fun hnext => ?_
  set out := (iterateIdPrefix tx.rows wm.deletePrefix).foldl (visitDoc ok wm)
    ({ tx with used := tx.used + 1 }, []) with hout
  have hdelete : (out.2.foldl (deleteId ok) out.1).failed = false := by
    by_contra hfail
    simp only [Bool.not_eq_false] at hfail
    simp only [hfail, if_true] at hnext
    cases hnext
  have hvisit := foldl_visitDoc_always (foldl_deleteId hdelete).1
  simp only [← hvisit, ← hout, foldl_deleteId_always hdelete]

theorem upsertOne_always (h : (upsertOne float64 ok value tx).failed = false) :
    upsertOne float64 ok value tx = upsertOne float64 always value tx := by
  refine Tx.op_always h fun hnext => ?_
  by_cases hdp : value.deletePrefix = []
  · simp only [hdp, if_true]
  · simp only [hdp, if_false] at hnext ⊢
    exact applyWatermark_always hnext

/-- The same for a whole value. -/
theorem updateValue_always (h : (updateValue float64 ok watermarks tx value).failed = false) :
    updateValue float64 ok watermarks tx value =
      updateValue float64 always watermarks tx value := by
  unfold updateValue at h ⊢
  split_ifs at h ⊢ with hskip
  · rfl
  · refine Tx.op_always h fun hnext => ?_
    simp only at hnext ⊢
    split at hnext
    · split_ifs at hnext ⊢
      · rfl
      · exact upsertOne_always hnext
    · exact upsertOne_always hnext

/-- A batch that does not fail is applied as if no operation could fail. -/
theorem updateValues_always {rows : Rows} {values : List KeyValue}
    (h : (updateValues float64 ok rows watermarks values).failed = false) :
    updateValues float64 ok rows watermarks values =
      updateValues float64 always rows watermarks values := by
  unfold updateValues at h ⊢
  induction values using reverseRecOn with
  | nil => rfl
  | append_singleton values value ih =>
    rw [foldl_append, foldl_cons, List.foldl_nil] at h ⊢
    rw [updateValue_always h, ih, foldl_append, foldl_cons, List.foldl_nil]
    have hone : ([value].foldl (updateValue float64 ok watermarks) _).failed = false := h
    exact failed_of_foldl_updateValue hone

/-! ## Dropped ids -/

theorem droppedIds_foldl_visitDoc :
    (docs.foldl (visitDoc ok wm) acc).1.res.droppedIds = acc.1.res.droppedIds := by
  induction docs generalizing acc with
  | nil => rfl
  | cons doc docs ih =>
    rw [foldl_cons, ih, visitDoc]
    split_ifs <;> simp

/-- The elements that are removed from the diff are those of the dropped ids. -/
def DropsRemoved (res : UpdateResult) : Prop := res.droppedIds = res.removed.map (·.id)

theorem DropsRemoved.applyWatermark (h : DropsRemoved tx.res)
    (hok : (applyWatermark ok tx wm).failed = false) :
    DropsRemoved (applyWatermark ok tx wm).res := by
  obtain ⟨-, hop⟩ := Tx.op_failed hok
  have heq : InnerStorage.applyWatermark ok tx wm = _ := hop
  set out := (iterateIdPrefix tx.rows wm.deletePrefix).foldl (visitDoc ok wm)
    ({ tx with used := tx.used + 1 }, []) with hout
  rw [heq] at hok ⊢
  have hdelete : (out.2.foldl (deleteId ok) out.1).failed = false := by
    by_contra hfail
    simp only [Bool.not_eq_false] at hfail
    simp only [hfail, if_true] at hok
    cases hok
  obtain ⟨hvisit, hres, -⟩ := foldl_deleteId hdelete
  have hv : Visited wm _ ({ tx with used := tx.used + 1 }, []) out := visited_foldl hvisit
  have hdropped : out.1.res.droppedIds = tx.res.droppedIds := droppedIds_foldl_visitDoc
  simp only [hdelete, Bool.false_eq_true, if_false, DropsRemoved]
  rw [hres, hv.removed, hv.dropIds, hdropped, h, List.nil_append, List.map_append, List.map_map]
  rfl

theorem DropsRemoved.upsertOne (h : DropsRemoved tx.res)
    (hok : (upsertOne float64 ok value tx).failed = false) :
    DropsRemoved (upsertOne float64 ok value tx).res := by
  obtain ⟨-, hop⟩ := Tx.op_failed hok
  have heq : InnerStorage.upsertOne float64 ok value tx = _ := hop
  rw [heq] at hok ⊢
  by_cases hdp : value.deletePrefix = []
  · simp only [hdp, if_true]
    exact h
  · simp only [hdp, if_false] at hok ⊢
    exact DropsRemoved.applyWatermark h hok

/-- Dropped ids are among the removed ones. -/
theorem DropsRemoved.updateValue (h : DropsRemoved tx.res)
    (hok : (updateValue float64 ok watermarks tx value).failed = false) :
    DropsRemoved (updateValue float64 ok watermarks tx value).res := by
  have hpre : ∀ id el, DropsRemoved (tx.res.recordPre id el) := by
    intro id el
    simpa [DropsRemoved] using h
  unfold InnerStorage.updateValue at hok ⊢
  split_ifs at hok ⊢ with hskip
  · exact h
  · obtain ⟨-, hop⟩ := Tx.op_failed hok
    rw [hop] at hok ⊢
    simp only at hok ⊢
    split at hok
    · split_ifs at hok ⊢
      · exact h
      · exact DropsRemoved.upsertOne (hpre _ _) hok
    · exact DropsRemoved.upsertOne (hpre _ _) hok

end Ok

/-! ## The values that win -/

section Wins

variable (float64 : ℤ → ℤ) (rows : Rows) (w : Watermarks)

/-- The rows and the result of a call after the values of `before`. -/
def settled (before : List KeyValue) : Tx := updateValues float64 always rows w before

/-- The value is applied when its turn comes after `before`: it is not covered, and it is newer than
the row. -/
structure Wins (before : List KeyValue) (value : KeyValue) : Prop where
  uncovered : covered w (settled float64 rows w before).res value.key value.timestampMicro = false
  newer : ∀ doc, (settled float64 rows w before).rows.lookup value.keyPeerId = some doc →
    doc.t < value.timestampMicro

variable {float64 rows w} {before : List KeyValue} {value : KeyValue}

/-- One more value of a batch. -/
theorem settled_append : settled float64 rows w (before ++ [value]) =
    updateValue float64 always w (settled float64 rows w before) value := by
  rw [settled, updateValues, foldl_append]
  rfl

theorem settled_failed : (settled float64 rows w before).failed = false :=
  failed_updateValues always_apply

theorem keyed_settled (h : Keyed rows) : Keyed (settled float64 rows w before).rows :=
  (preOk_updateValues h).keyed

theorem dropsRemoved_settled : DropsRemoved (settled float64 rows w before).res := by
  induction before using reverseRecOn with
  | nil => rfl
  | append_singleton before value ih =>
    rw [settled_append]
    refine DropsRemoved.updateValue ih ?_
    rw [← settled_append]
    exact settled_failed

variable (float64 w) in
/-- The next value wins and is applied, or it changes nothing. -/
theorem settled_cases (hkeyed : Keyed rows) (before : List KeyValue) (value : KeyValue) :
    (Wins float64 rows w before value ∧ Wrote float64 (settled float64 rows w before)
          (settled float64 rows w (before ++ [value])) value) ∨
      (¬ Wins float64 rows w before value ∧
        (settled float64 rows w (before ++ [value])).rows = (settled float64 rows w before).rows ∧
        (settled float64 rows w (before ++ [value])).res =
          (settled float64 rows w before).res) := by
  have hfailed : (settled float64 rows w (before ++ [value])).failed = false := settled_failed
  rw [settled_append] at hfailed ⊢
  obtain ⟨-, ⟨hcov, heq⟩ | ⟨hcov, ⟨doc, hdoc, hle⟩, heq⟩ | ⟨hcov, hnewer, hwrote⟩⟩ :=
    updateValue_cases (keyed_settled hkeyed) hfailed
  · refine .inr ⟨fun hwins => ?_, by rw [heq], by rw [heq]⟩
    rw [hwins.uncovered] at hcov
    cases hcov
  · refine .inr ⟨fun hwins => ?_, by rw [heq], by rw [heq]⟩
    exact absurd (hwins.newer doc hdoc) (not_lt.mpr hle)
  · exact .inl ⟨⟨hcov, hnewer⟩, hwrote⟩

/-- The applied values are those that have won. -/
theorem mem_applied_iff (hkeyed : Keyed rows) {L : List KeyValue} :
    value ∈ (settled float64 rows w L).res.applied ↔
      ∃ before after, L = before ++ value :: after ∧ Wins float64 rows w before value := by
  induction L using reverseRecOn with
  | nil =>
    refine ⟨fun h => (by cases h), ?_⟩
    rintro ⟨before, after, h, -⟩
    simp at h
  | append_singleton L u ih =>
    -- the split of the longer list is at its last value, or it splits the shorter one
    have hsplit : (∃ before after, L ++ [u] = before ++ value :: after ∧
        Wins float64 rows w before value) ↔
        (value = u ∧ Wins float64 rows w L value) ∨
          ∃ before after, L = before ++ value :: after ∧ Wins float64 rows w before value := by
      constructor
      · rintro ⟨before, after, heq, hwins⟩
        rcases List.eq_nil_or_concat after with rfl | ⟨after, u', rfl⟩
        · obtain ⟨rfl, hu⟩ := append_inj' heq rfl
          obtain rfl := List.singleton_inj.mp hu
          exact .inl ⟨rfl, hwins⟩
        · rw [List.concat_eq_append, ← List.cons_append, ← append_assoc] at heq
          obtain ⟨rfl, -⟩ := append_inj' heq rfl
          exact .inr ⟨before, after, rfl, hwins⟩
      · rintro (⟨rfl, hwins⟩ | ⟨before, after, rfl, hwins⟩)
        · exact ⟨L, [], rfl, hwins⟩
        · exact ⟨before, after ++ [u], by simp, hwins⟩
    rw [hsplit, ← ih]
    rcases settled_cases float64 w hkeyed L u with
      ⟨hwins, hwrote⟩ | ⟨hnot, -, hres⟩
    · rw [hwrote.applied, List.mem_append, List.mem_singleton, or_comm]
      refine or_congr_left ⟨?_, And.left⟩
      rintro rfl
      exact ⟨rfl, hwins⟩
    · rw [hres]
      refine ⟨.inr, fun h => h.resolve_left ?_⟩
      rintro ⟨rfl, hwins⟩
      exact hnot hwins

end Wins

/-! ## What the report tells -/

section History

/-- The rows and the result of a call that started on `rows₀`. -/
structure History (float64 : ℤ → ℤ) (rows₀ : Rows) (tx : Tx) : Prop where
  /-- A row is stored from before, or an applied value is. -/
  origin : ∀ id doc, tx.rows.lookup id = some doc →
    rows₀.lookup id = some doc ∨
      ∃ v ∈ tx.res.applied, v.keyPeerId = id ∧ v.anyEnc float64 = doc
  /-- A row that was neither dropped nor written is as before. -/
  kept : ∀ id, id ∉ tx.res.droppedIds → (∀ v ∈ tx.res.applied, v.keyPeerId ≠ id) →
    tx.rows.lookup id = rows₀.lookup id
  /-- A row that was written and not dropped is that of an applied value. -/
  written : ∀ v ∈ tx.res.applied, v.keyPeerId ∉ tx.res.droppedIds →
    ∃ u ∈ tx.res.applied, u.keyPeerId = v.keyPeerId ∧
      tx.rows.lookup v.keyPeerId = some (u.anyEnc float64)
  /-- A dropped row was dropped by an applied watermark. -/
  dropped : ∀ id ∈ tx.res.droppedIds, ∃ wm ∈ tx.res.applied, ∃ doc, wm.Drops doc ∧
    (rows₀.lookup id = some doc ∨ ∃ v ∈ tx.res.applied, v.keyPeerId = id ∧ v.anyEnc float64 = doc)

variable {float64 : ℤ → ℤ} {rows₀ : Rows} {w : Watermarks} {tx tx' : Tx} {value : KeyValue}
  {id : GoString} {doc : Doc}

/-- The ids that an applied value drops. -/
theorem Wrote.mem_droppedIds (h : Wrote float64 tx tx' value) (hremoved : DropsRemoved tx.res)
    (hremoved' : DropsRemoved tx'.res) (id : GoString) :
    id ∈ tx'.res.droppedIds ↔ id ∈ tx.res.droppedIds ∨
      ∃ doc, (tx.rows.insert value.keyPeerId (value.anyEnc float64)).lookup id = some doc ∧
        value.Drops doc := by
  have hids : ∀ {res : UpdateResult}, DropsRemoved res →
      (id ∈ res.droppedIds ↔ ∃ el ∈ res.removed, el.id = id) := by
    intro res hres
    rw [hres, List.mem_map]
  rw [hids hremoved', hids hremoved]
  exact h.removed id

/-- The rows after a value that won. -/
theorem Wrote.lookup_eq_some (h : Wrote float64 tx tx' value) :
    tx'.rows.lookup id = some doc ↔
      (tx.rows.insert value.keyPeerId (value.anyEnc float64)).lookup id = some doc ∧
        ¬ value.Drops doc := by
  rw [h.lookup, Option.filter_eq_some_iff]
  simp

/-- The history after a value that won. -/
theorem History.wrote (h : History float64 rows₀ tx) (hwrote : Wrote float64 tx tx' value)
    (hremoved : DropsRemoved tx.res) (hremoved' : DropsRemoved tx'.res) :
    History float64 rows₀ tx' := by
  have hdropped := hwrote.mem_droppedIds hremoved hremoved'
  have happlied : ∀ v, v ∈ tx'.res.applied ↔ v ∈ tx.res.applied ∨ v = value := by
    intro v
    rw [hwrote.applied, List.mem_append, List.mem_singleton]
  -- a row is that of the value, or it was there before
  have hinsert : ∀ id doc,
      (tx.rows.insert value.keyPeerId (value.anyEnc float64)).lookup id = some doc →
      rows₀.lookup id = some doc ∨
        ∃ v ∈ tx'.res.applied, v.keyPeerId = id ∧ v.anyEnc float64 = doc := by
    intro id doc hdoc
    rw [lookup_insert_eq] at hdoc
    split at hdoc
    · next hid => exact .inr ⟨value, (happlied _).mpr (.inr rfl), hid.symm, Option.some.inj hdoc⟩
    · refine (h.origin id doc hdoc).imp_right ?_
      rintro ⟨v, hv, hid, henc⟩
      exact ⟨v, (happlied v).mpr (.inl hv), hid, henc⟩
  constructor
  · intro id doc hdoc
    exact hinsert id doc (hwrote.lookup_eq_some.mp hdoc).1
  · intro id hid hnone
    rw [hdropped, not_or] at hid
    have hne : id ≠ value.keyPeerId := fun heq => hnone value ((happlied _).mpr (.inr rfl)) heq.symm
    have hkept := h.kept id hid.1 fun v hv => hnone v ((happlied v).mpr (.inl hv))
    have hlookup : (tx.rows.insert value.keyPeerId (value.anyEnc float64)).lookup id =
        rows₀.lookup id := by
      rw [lookup_insert_eq, if_neg hne, hkept]
    rw [hwrote.lookup, hlookup]
    cases hdoc : rows₀.lookup id with
    | none => rfl
    | some doc =>
      have hkeep : ¬ value.Drops doc := fun hd => hid.2 ⟨doc, hlookup.trans hdoc, hd⟩
      rw [Option.filter_some, if_pos (by simpa using hkeep)]
  · intro v hv hid
    rw [hdropped, not_or] at hid
    by_cases hsame : v.keyPeerId = value.keyPeerId
    · refine ⟨value, (happlied _).mpr (.inr rfl), hsame.symm, ?_⟩
      have hself : (tx.rows.insert value.keyPeerId (value.anyEnc float64)).lookup v.keyPeerId =
          some (value.anyEnc float64) := by
        rw [lookup_insert_eq, if_pos hsame]
      exact hwrote.lookup_eq_some.mpr ⟨hself, fun hd => hid.2 ⟨_, hself, hd⟩⟩
    · have hv : v ∈ tx.res.applied := by
        refine ((happlied v).mp hv).resolve_right ?_
        rintro rfl
        exact hsame rfl
      obtain ⟨u, hu, huid, hrow⟩ := h.written v hv hid.1
      have hother : (tx.rows.insert value.keyPeerId (value.anyEnc float64)).lookup v.keyPeerId =
          some (u.anyEnc float64) := by
        rw [lookup_insert_eq, if_neg hsame, hrow]
      exact ⟨u, (happlied u).mpr (.inl hu), huid,
        hwrote.lookup_eq_some.mpr ⟨hother, fun hd => hid.2 ⟨_, hother, hd⟩⟩⟩
  · intro id hid
    rcases (hdropped id).mp hid with hid | ⟨doc, hdoc, hd⟩
    · obtain ⟨wm, hwm, doc, hd, hdoc⟩ := h.dropped id hid
      refine ⟨wm, (happlied wm).mpr (.inl hwm), doc, hd, hdoc.imp_right ?_⟩
      rintro ⟨v, hv, hvid, henc⟩
      exact ⟨v, (happlied v).mpr (.inl hv), hvid, henc⟩
    · exact ⟨value, (happlied _).mpr (.inr rfl), doc, hd, hinsert id doc hdoc⟩

/-- The history after a batch. -/
theorem history_settled (hkeyed : Keyed rows₀) (L : List KeyValue) :
    History float64 rows₀ (settled float64 rows₀ w L) := by
  induction L using reverseRecOn with
  | nil =>
    exact ⟨fun id doc hdoc => .inl hdoc, fun id _ _ => rfl, fun v hv => (by cases hv),
      fun id hid => (by cases hid)⟩
  | append_singleton L value ih =>
    rcases settled_cases float64 w hkeyed L value with
      ⟨-, hwrote⟩ | ⟨-, hrows, hres⟩
    · exact ih.wrote hwrote dropsRemoved_settled dropsRemoved_settled
    · exact ⟨by rw [hrows, hres]; exact ih.origin, by rw [hrows, hres]; exact ih.kept,
        by rw [hrows, hres]; exact ih.written, by rw [hres]; exact ih.dropped⟩

/-- Both lists only grow. -/
theorem subset_settled_append (hkeyed : Keyed rows₀) (before after : List KeyValue) :
    (settled float64 rows₀ w before).res.applied ⊆
        (settled float64 rows₀ w (before ++ after)).res.applied ∧
      (settled float64 rows₀ w before).res.droppedIds ⊆
        (settled float64 rows₀ w (before ++ after)).res.droppedIds := by
  induction after using reverseRecOn with
  | nil => simp
  | append_singleton after value ih =>
    rw [← append_assoc]
    rcases settled_cases float64 w hkeyed (before ++ after) value with
      ⟨-, hwrote⟩ | ⟨-, -, hres⟩
    · refine ⟨fun v hv => ?_, fun id hid => ?_⟩
      · rw [hwrote.applied]
        exact List.mem_append_left _ (ih.1 hv)
      · rw [hwrote.mem_droppedIds dropsRemoved_settled dropsRemoved_settled]
        exact .inl (ih.2 hid)
    · rwa [hres]

end History

/-! ## Exact reports -/

section Exact

variable (float64 : ℤ → ℤ) (rows : Rows)

/-- The report of a call that led from `rows` to `rows'` is exact: applied are the rows that are
stored and were not stored before, and dropped are the ids that had a row, from before or from a
value of the batch, and have none. -/
structure Reports (rows' : Rows) (r : SetResult) : Prop where
  applied : ∀ doc, (∃ v ∈ r.applied, v.anyEnc float64 = doc) ↔
    rows'.lookup doc.id = some doc ∧ rows.lookup doc.id ≠ some doc
  dropped : ∀ id, id ∈ r.droppedIds ↔
    ((rows.lookup id).isSome ∨ ∃ v ∈ r.applied, v.keyPeerId = id) ∧ rows'.lookup id = none

variable (w : Watermarks)

/-- No value of the batch undoes what another one did. -/
structure Separate (values : List KeyValue) : Prop where
  /-- A value that wins is not stored yet. -/
  fresh : ∀ before v after, values = before ++ v :: after → Wins float64 rows w before v →
    rows.lookup v.keyPeerId ≠ some (v.anyEnc float64)
  /-- A watermark does not drop its own row, as it does if its timestamp is rounded down. -/
  keeps : ∀ before v after, values = before ++ v :: after → Wins float64 rows w before v →
    ¬ v.Drops (v.anyEnc float64)
  /-- It is not overwritten. -/
  overwrites : ∀ before v mid u after, values = before ++ v :: mid ++ u :: after →
    Wins float64 rows w before v → Wins float64 rows w (before ++ v :: mid) u →
    u.keyPeerId = v.keyPeerId → u.anyEnc float64 = v.anyEnc float64
  /-- It is not dropped. -/
  drops : ∀ before v mid u after, values = before ++ v :: mid ++ u :: after →
    Wins float64 rows w before v → Wins float64 rows w (before ++ v :: mid) u →
    ¬ u.Drops (v.anyEnc float64)
  /-- A row that it drops is not written again. -/
  rewrites : ∀ before v mid u after, values = before ++ v :: mid ++ u :: after →
    Wins float64 rows w before v → Wins float64 rows w (before ++ v :: mid) u →
    ∀ doc, rows.lookup u.keyPeerId = some doc → v.Drops doc →
      -- unless the row was overwritten before it could be dropped
      ∃ first x rest, before ++ [v] = first ++ x :: rest ∧ Wins float64 rows w first x ∧
        x.keyPeerId = u.keyPeerId

variable {float64 rows w} {values before mid after : List KeyValue} {v u : KeyValue}
  {id : GoString} {doc : Doc}

/-- The beginning of a batch. -/
theorem Separate.of_append (h : Separate float64 rows w (values ++ after)) :
    Separate float64 rows w values where
  fresh before v rest heq := h.fresh before v (rest ++ after) (by simp [heq])
  keeps before v rest heq := h.keeps before v (rest ++ after) (by simp [heq])
  overwrites before v mid u rest heq := h.overwrites before v mid u (rest ++ after) (by simp [heq])
  drops before v mid u rest heq := h.drops before v mid u (rest ++ after) (by simp [heq])
  rewrites before v mid u rest heq := h.rewrites before v mid u (rest ++ after) (by simp [heq])

section

variable (hkeyed : Keyed rows)

include hkeyed

/-- In a separate batch a value that wins is stored from then on. -/
theorem Separate.lookup_of_wins (h : Separate float64 rows w (before ++ v :: mid))
    (hv : Wins float64 rows w before v) :
    (settled float64 rows w (before ++ v :: mid)).rows.lookup v.keyPeerId =
      some (v.anyEnc float64) := by
  induction mid using reverseRecOn with
  | nil =>
    rcases settled_cases float64 w hkeyed before v with ⟨-, hwrote⟩ | ⟨hnot, -⟩
    · refine hwrote.lookup_eq_some.mpr ⟨?_, h.keeps before v [] rfl hv⟩
      rw [lookup_insert_eq, if_pos rfl]
    · exact absurd hv hnot
  | append_singleton mid u ih =>
    have hsplit : before ++ v :: (mid ++ [u]) = before ++ v :: mid ++ [u] := by simp
    rw [hsplit] at h ⊢
    have hrow := ih h.of_append
    rcases settled_cases float64 w hkeyed (before ++ v :: mid) u with
      ⟨hu, hwrote⟩ | ⟨-, hrows, -⟩
    · refine hwrote.lookup_eq_some.mpr ⟨?_, h.drops before v mid u [] rfl hv hu⟩
      rw [lookup_insert_eq]
      split
      · next hid => rw [h.overwrites before v mid u [] rfl hv hu hid.symm]
      · exact hrow
    · rw [hrows, hrow]

/-- A dropped id was dropped by a watermark that won. -/
theorem exists_drop (hid : id ∈ (settled float64 rows w values).res.droppedIds) :
    ∃ before wm after doc, values = before ++ wm :: after ∧ Wins float64 rows w before wm ∧
      ((settled float64 rows w before).rows.insert wm.keyPeerId (wm.anyEnc float64)).lookup id =
        some doc ∧ wm.Drops doc := by
  induction values using reverseRecOn with
  | nil => cases hid
  | append_singleton values value ih =>
    have hearlier : id ∈ (settled float64 rows w values).res.droppedIds →
        ∃ before wm after doc, values ++ [value] = before ++ wm :: after ∧
          Wins float64 rows w before wm ∧
          ((settled float64 rows w before).rows.insert wm.keyPeerId
            (wm.anyEnc float64)).lookup id = some doc ∧ wm.Drops doc := by
      intro hid
      obtain ⟨before, wm, after, doc, rfl, hwins, hdoc, hdrops⟩ := ih hid
      exact ⟨before, wm, after ++ [value], doc, by simp, hwins, hdoc, hdrops⟩
    rcases settled_cases float64 w hkeyed values value with ⟨hwins, hwrote⟩ | ⟨-, -, hres⟩
    · rw [hwrote.mem_droppedIds dropsRemoved_settled dropsRemoved_settled] at hid
      rcases hid with hid | ⟨doc, hdoc, hdrops⟩
      · exact hearlier hid
      · exact ⟨values, value, [], doc, rfl, hwins, hdoc, hdrops⟩
    · rw [hres] at hid
      exact hearlier hid

/-- In a separate batch a dropped id does not win again. -/
theorem Separate.not_dropped_of_wins (h : Separate float64 rows w (values ++ [u]))
    (hu : Wins float64 rows w values u) :
    u.keyPeerId ∉ (settled float64 rows w values).res.droppedIds := by
  intro hid
  obtain ⟨before, wm, after, doc, rfl, hwm, hdoc, hdrops⟩ := exists_drop hkeyed hid
  have hbefore : Separate float64 rows w before := h.of_append.of_append
  rw [lookup_insert_eq] at hdoc
  split at hdoc
  · -- the watermark would have dropped its own row
    obtain rfl := Option.some.inj hdoc
    exact h.keeps before wm (after ++ [u]) (by simp) hwm hdrops
  · next hne =>
    -- a value that had won is not dropped, so the row is from before the call
    have hwinner : ∀ first x rest, before = first ++ x :: rest → Wins float64 rows w first x →
        x.keyPeerId = u.keyPeerId → False := by
      rintro first x rest rfl hx hxid
      have hrow := hbefore.lookup_of_wins hkeyed hx
      rw [hxid, hdoc] at hrow
      refine h.drops first x rest wm (after ++ [u]) (by simp) hx hwm ?_
      rw [← Option.some.inj hrow]
      exact hdrops
    rcases (history_settled hkeyed before).origin _ doc hdoc with hold | ⟨x, hx, hxid, -⟩
    · obtain ⟨first, x, rest, hsplit, hx, hxid⟩ :=
        h.rewrites before wm after u [] (by simp) hwm hu doc hold hdrops
      rcases List.eq_nil_or_concat rest with rfl | ⟨rest, y, rfl⟩
      · obtain ⟨-, hwmx⟩ := append_inj' hsplit rfl
        obtain rfl := List.singleton_inj.mp hwmx
        exact hne hxid.symm
      · rw [List.concat_eq_append, ← List.cons_append, ← append_assoc] at hsplit
        exact hwinner first x rest (append_inj' hsplit rfl).1 hx hxid
    · obtain ⟨first, rest, hsplit, hx⟩ := (mem_applied_iff hkeyed).mp hx
      exact hwinner first x rest hsplit hx hxid

/-- In a separate batch a dropped row is not stored at the end. -/
theorem Separate.lookup_of_dropped (h : Separate float64 rows w values)
    (hid : id ∈ (settled float64 rows w values).res.droppedIds) :
    (settled float64 rows w values).rows.lookup id = none := by
  induction values using reverseRecOn with
  | nil => cases hid
  | append_singleton values u ih =>
    rcases settled_cases float64 w hkeyed values u with ⟨hu, hwrote⟩ | ⟨-, hrows, hres⟩
    · rw [hwrote.mem_droppedIds dropsRemoved_settled dropsRemoved_settled] at hid
      rw [hwrote.lookup, Option.filter_eq_none_iff]
      intro doc hdoc
      rcases hid with hid | ⟨doc', hdoc', hdrops⟩
      · rw [lookup_insert_eq] at hdoc
        split at hdoc
        · next heq => exact absurd (heq ▸ hid) (h.not_dropped_of_wins hkeyed hu)
        · rw [ih h.of_append hid] at hdoc
          cases hdoc
      · obtain rfl := Option.some.inj (hdoc.symm.trans hdoc')
        simpa using hdrops
    · rw [hres] at hid
      rw [hrows]
      exact ih h.of_append hid

/-- What a batch without interference reports is exact. -/
theorem Separate.reports (h : Separate float64 rows w values) :
    Reports float64 rows (settled float64 rows w values).rows
      ⟨(settled float64 rows w values).res.applied,
        (settled float64 rows w values).res.droppedIds⟩ := by
  have hhistory : History float64 rows (settled float64 rows w values) :=
    history_settled hkeyed values
  constructor
  · intro doc
    constructor
    · rintro ⟨v, hv, rfl⟩
      obtain ⟨before, after, rfl, hwins⟩ := (mem_applied_iff hkeyed).mp hv
      exact ⟨h.lookup_of_wins hkeyed hwins, h.fresh before v after rfl hwins⟩
    · rintro ⟨hdoc, hnew⟩
      obtain ⟨v, hv, -, henc⟩ := (hhistory.origin doc.id doc hdoc).resolve_left hnew
      exact ⟨v, hv, henc⟩
  · intro id
    constructor
    · intro hid
      refine ⟨?_, h.lookup_of_dropped hkeyed hid⟩
      obtain ⟨wm, -, doc, -, hdoc | ⟨v, hv, hvid, -⟩⟩ := hhistory.dropped id hid
      · exact .inl (by rw [hdoc]; rfl)
      · exact .inr ⟨v, hv, hvid⟩
    · rintro ⟨hstored, hnone⟩
      by_contra hid
      -- a row that nothing dropped is as it was, or as the batch wrote it
      by_cases hwritten : ∃ v ∈ (settled float64 rows w values).res.applied, v.keyPeerId = id
      · obtain ⟨v, hv, rfl⟩ := hwritten
        obtain ⟨u, -, -, hrow⟩ := hhistory.written v hv hid
        rw [hnone] at hrow
        cases hrow
      · have hkept := hhistory.kept id hid fun v hv heq => hwritten ⟨v, hv, heq⟩
        rw [hnone] at hkept
        rcases hstored with hsome | hsome
        · rw [← hkept] at hsome
          cases hsome
        · exact hwritten hsome

/-- If the report is exact, no value of the batch undoes another. -/
theorem separate_of_reports (h : Reports float64 rows (settled float64 rows w values).rows
      ⟨(settled float64 rows w values).res.applied,
        (settled float64 rows w values).res.droppedIds⟩) : Separate float64 rows w values := by
  -- what wins is stored at the end, and so it was not dropped
  have happlied : ∀ {before v after}, values = before ++ v :: after →
      Wins float64 rows w before v → v ∈ (settled float64 rows w values).res.applied :=
    fun heq hwins => (mem_applied_iff hkeyed).mpr ⟨_, _, heq, hwins⟩
  have hrow : ∀ {v}, v ∈ (settled float64 rows w values).res.applied →
      (settled float64 rows w values).rows.lookup v.keyPeerId = some (v.anyEnc float64) :=
    fun hv => ((h.applied _).mp ⟨_, hv, rfl⟩).1
  have hdropped : ∀ {v} before after, v ∈ (settled float64 rows w values).res.applied →
      values = before ++ after →
      v.keyPeerId ∉ (settled float64 rows w before).res.droppedIds := by
    rintro v before after hv rfl hid
    have hnone := ((h.dropped _).mp ((subset_settled_append hkeyed before after).2 hid)).2
    rw [hrow hv] at hnone
    cases hnone
  have hdrops : ∀ {before v after x doc}, values = before ++ v :: after →
      Wins float64 rows w before v → x ∈ (settled float64 rows w values).res.applied →
      ((settled float64 rows w before).rows.insert v.keyPeerId
        (v.anyEnc float64)).lookup x.keyPeerId = some doc → ¬ v.Drops doc := by
    intro before v after x doc heq hwins hx hdoc hdrops
    refine hdropped (before ++ [v]) after hx (by simp [heq]) ?_
    rcases settled_cases float64 w hkeyed before v with ⟨-, hwrote⟩ | ⟨hnot, -⟩
    · rw [hwrote.mem_droppedIds dropsRemoved_settled dropsRemoved_settled]
      exact .inr ⟨doc, hdoc, hdrops⟩
    · exact absurd hwins hnot
  have hover : ∀ {v u}, v ∈ (settled float64 rows w values).res.applied →
      u ∈ (settled float64 rows w values).res.applied → u.keyPeerId = v.keyPeerId →
      u.anyEnc float64 = v.anyEnc float64 := by
    intro v u hv hu hid
    have hrowu := hrow hu
    rw [hid, hrow hv] at hrowu
    exact (Option.some.inj hrowu).symm
  constructor
  · intro before v after heq hwins
    exact ((h.applied _).mp ⟨v, happlied heq hwins, rfl⟩).2
  · intro before v after heq hwins
    refine hdrops heq hwins (happlied heq hwins) ?_
    rw [lookup_insert_eq, if_pos rfl]
  · intro before v mid u after heq hv hu
    have hsplit : values = before ++ v :: (mid ++ u :: after) := by simp [heq]
    have hv' := happlied hsplit hv
    exact hover hv' (happlied heq hu)
  · intro before v mid u after heq hv hu
    have hsplit : values = before ++ v :: (mid ++ u :: after) := by simp [heq]
    have hv' := happlied hsplit hv
    refine hdrops heq hu hv' ?_
    -- the row of `v` is still there: what was written over it is equal
    rw [lookup_insert_eq]
    split
    · next hid => rw [hover hv' (happlied heq hu) hid.symm]
    · have hmem : v ∈ (settled float64 rows w (before ++ v :: mid)).res.applied :=
        (mem_applied_iff hkeyed).mpr ⟨before, mid, rfl, hv⟩
      obtain ⟨x, hx, hxid, hxrow⟩ := (history_settled hkeyed (before ++ v :: mid)).written v hmem
        (hdropped _ _ hv' heq)
      have hx' : x ∈ (settled float64 rows w values).res.applied := by
        rw [heq]
        exact (subset_settled_append hkeyed _ _).1 hx
      rw [hxrow, hover hv' hx' hxid]
  · intro before v mid u after heq hv hu doc hdoc hvdrops
    by_contra hnone
    have hu' := happlied heq hu
    have hsplit : values = before ++ v :: (mid ++ u :: after) := by simp [heq]
    refine hdrops hsplit hv hu' ?_ hvdrops
    have hne : u.keyPeerId ≠ v.keyPeerId :=
      fun hid => hnone ⟨before, v, [], rfl, hv, hid.symm⟩
    rw [lookup_insert_eq, if_neg hne, ← hdoc]
    refine (history_settled hkeyed before).kept _ (hdropped _ _ hu' hsplit) fun x hx hxid => ?_
    obtain ⟨first, rest, rfl, hxwins⟩ := (mem_applied_iff hkeyed).mp hx
    exact hnone ⟨first, x, rest ++ [v], by simp, hxwins, hxid⟩

end

end Exact

/-! ## Calls that commit -/

section Committed

variable {H : Hashing} {fuel : ℕ} {float64 : ℤ → ℤ} {ok : ℕ → Bool} {ord : RangeOrder}
  {st st' : Storage} {values : List KeyValue} {r : SetResult}

/-- A call that commits is a batch without failing operations. -/
theorem set_eq_some (hkeyed : Keyed st.rows)
    (h : st.set H fuel float64 values ok ord = (st', some r)) :
    let tx := settled float64 st.rows st.watermarks values
    st'.rows = tx.rows ∧ st'.watermarks = publish st.watermarks tx.res.watermarks ∧
      r = ⟨tx.res.applied, tx.res.droppedIds⟩ := by
  have hpre : PreOk float64 st.rows (updateValues float64 ok st.rows st.watermarks values).rows
      (updateValues float64 ok st.rows st.watermarks values).res := preOk_updateValues hkeyed
  unfold Storage.set at h
  simp only at h
  split_ifs at h with h₀ hfailed hempty hcommit hhead hcommit <;> cases h
  · have hfailed := Bool.eq_false_iff.mpr hfailed
    have halways := updateValues_always hfailed
    obtain ⟨happlied, hremoved⟩ := hpre.of_isEmpty (List.isEmpty_iff.mp hempty)
    have hdropped : DropsRemoved (settled float64 st.rows st.watermarks values).res :=
      dropsRemoved_settled
    rw [halways] at happlied hremoved ⊢
    refine ⟨rfl, rfl, ?_⟩
    rw [DropsRemoved, settled, hremoved, List.map_nil] at hdropped
    rw [settled, happlied, hdropped]
  · have hfailed := Bool.eq_false_iff.mpr hfailed
    rw [updateValues_always hfailed]
    exact ⟨rfl, rfl, rfl⟩

variable {C : Crypto} {acl : AclView C.PubKey} {messages : List StoreKeyValue} {out : Outcome}

/-- A call of `SetRaw` changes nothing, or it passes its batch to the inner storage. -/
theorem setRaw_cases (h : st.setRaw H fuel float64 C acl messages ok ord = (st', out)) :
    (st' = st ∧ ∃ failed, out = .none failed) ∨
      ∃ result, st.set H fuel float64 (st.batch C acl messages) ok ord = (st', result) ∧
        out = .of result := by
  unfold Storage.setRaw at h
  simp only at h
  split_ifs at h
  · obtain ⟨rfl, rfl⟩ := Prod.mk.inj h
    exact .inl ⟨rfl, _, rfl⟩
  · obtain ⟨rfl, rfl⟩ := Prod.mk.inj h
    exact .inl ⟨rfl, _, rfl⟩
  · obtain ⟨rfl, rfl⟩ := Prod.mk.inj h
    exact .inl ⟨rfl, _, rfl⟩
  · obtain ⟨rfl, rfl⟩ := Prod.mk.inj h
    exact .inr ⟨_, rfl, rfl⟩

theorem set_eq_of_result (h : (st.set H fuel float64 values ok ord).2 = some r) :
    st.set H fuel float64 values ok ord = ((st.set H fuel float64 values ok ord).1, some r) :=
  Prod.ext rfl h

/-- The report of a call that commits is exact iff the batch is separate; and what `SetRaw`
broadcasts and indexes is then stored, and what it removes from the index is not. -/
theorem setResult_exact_iff (H : Hashing) (fuel : ℕ) (float64 : ℤ → ℤ) {st : Storage}
    (hkeyed : Keyed st.rows) :
    (∀ values ok ord st' r, st.set H fuel float64 values ok ord = (st', some r) →
      (Reports float64 st.rows st'.rows r ↔ Separate float64 st.rows st.watermarks values)) ∧
    ∀ (C : Crypto) (acl : AclView C.PubKey) messages ok ord st' out,
      st.setRaw H fuel float64 C acl messages ok ord = (st', out) →
      Separate float64 st.rows st.watermarks (st.batch C acl messages) →
      (∀ v, v ∈ out.broadcast ∨ v ∈ out.indexed →
        st'.rows.lookup v.keyPeerId = some (v.anyEnc float64)) ∧
      ∀ id ∈ out.removedIndexes, st'.rows.lookup id = none := by
  have hset : ∀ values ok ord st' r, st.set H fuel float64 values ok ord = (st', some r) →
      (Reports float64 st.rows st'.rows r ↔
        Separate float64 st.rows st.watermarks values) := by
    intro values ok ord st' r h
    obtain ⟨hrows, -, rfl⟩ := set_eq_some hkeyed h
    rw [hrows]
    exact ⟨separate_of_reports hkeyed, Separate.reports hkeyed⟩
  refine ⟨hset, ?_⟩
  intro C acl messages ok ord st' out h hseparate
  have hsilent : ∀ failed, (∀ v, v ∈ (Outcome.none failed).broadcast ∨
      v ∈ (Outcome.none failed).indexed →
        st'.rows.lookup v.keyPeerId = some (v.anyEnc float64)) ∧
      ∀ id ∈ (Outcome.none failed).removedIndexes, st'.rows.lookup id = none := by
    intro failed
    simp [Outcome.none]
  obtain ⟨-, failed, rfl⟩ | ⟨result, hresult, rfl⟩ := setRaw_cases h
  · exact hsilent failed
  · cases result with
    | none => exact hsilent true
    | some r =>
      have hreports := (hset _ _ _ _ _ hresult).mpr hseparate
      refine ⟨fun v hv => ?_, fun id hid => ((hreports.dropped id).mp hid).2⟩
      have happlied : v ∈ r.applied := hv.elim (fun h => h) fun h => (List.mem_filter.mp h).1
      exact ((hreports.applied _).mp ⟨v, happlied, rfl⟩).1

end Committed

namespace Sample

/-- The storage after the member has written a note. -/
def noted : Storage :=
  (deliver messages id (opened rawHashing 70 .listed ∅) [memberNote.raw memberDevice]).1

end Sample

open Sample

/-- A batch is separate if no value of it is stored or drops itself, and if the later of two values
neither writes what the earlier one wrote or may drop, nor drops it. -/
theorem separate_of_pairwise {float64 : ℤ → ℤ} {rows : Rows} {w : Watermarks}
    {values : List KeyValue}
    (hfresh : ∀ v ∈ values, rows.lookup v.keyPeerId ≠ some (v.anyEnc float64))
    (hkeeps : ∀ v ∈ values, ¬ v.Drops (v.anyEnc float64))
    (hpairs : values.Pairwise fun v u => u.keyPeerId ≠ v.keyPeerId ∧ ¬ u.Drops (v.anyEnc float64) ∧
      ∀ doc ∈ rows.lookup u.keyPeerId, ¬ v.Drops doc) : Separate float64 rows w values := by
  have hpair : ∀ {before v mid u after}, values = before ++ v :: mid ++ u :: after →
      u.keyPeerId ≠ v.keyPeerId ∧ ¬ u.Drops (v.anyEnc float64) ∧
        ∀ doc ∈ rows.lookup u.keyPeerId, ¬ v.Drops doc := by
    intro before v mid u after heq
    rw [heq] at hpairs
    exact (List.pairwise_append.mp hpairs).2.2 v (by simp) u (by simp)
  refine ⟨fun before v after heq _ => hfresh v (by simp [heq]),
    fun before v after heq _ => hkeeps v (by simp [heq]), ?_, ?_, ?_⟩
  · exact fun before v mid u after heq _ _ hid => absurd hid (hpair heq).1
  · exact fun before v mid u after heq _ _ => (hpair heq).2.1
  · exact fun before v mid u after heq _ _ doc hdoc hdrops =>
      absurd hdrops ((hpair heq).2.2 doc hdoc)

theorem keyed_of_entries {rows : Rows} (h : ∀ row ∈ rows.entries, row.2.id = row.1) :
    Keyed rows := by
  intro id doc hdoc
  exact h ⟨id, doc⟩ (GoMap.lookup_eq_some_iff.mp hdoc)

/-- In one call the member writes another note, and the watermark of the owner drops the first. -/
theorem setResult_droppedNote :
    let other := memberOther.kv member memberDevice
    let clear := ownerClear.kv owner ownerDevice
    let out := deliver messages id noted
      [memberOther.raw memberDevice, ownerClear.raw ownerDevice]
    let direct := noted.set rawHashing 70 id [other, clear] (fun _ => true) .listed
    (∀ v, v ∈ out.2.broadcast ∨ v ∈ out.2.indexed →
        out.1.rows.lookup v.keyPeerId = some (v.anyEnc id)) ∧
      (∀ id ∈ out.2.removedIndexes, out.1.rows.lookup id = none) ∧
      out.2.broadcast = [other, clear] ∧
      out.2.removedIndexes = [keyPeerId [112, 47, 120] memberDevice.name] ∧
      Reports id noted.rows direct.1.rows
        ⟨[other, clear], [keyPeerId [112, 47, 120] memberDevice.name]⟩ := by
  intro other clear out direct
  have hkeyed : Keyed noted.rows := keyed_of_entries (by decide +kernel)
  have hbatch : noted.batch (crypto messages) aclView
      [memberOther.raw memberDevice, ownerClear.raw ownerDevice] = [other, clear] := by
    decide +kernel
  have hseparate : Separate id noted.rows noted.watermarks [other, clear] :=
    separate_of_pairwise (by decide +kernel) (by decide +kernel) (by decide +kernel)
  have hexact := setResult_exact_iff rawHashing 70 id hkeyed
  have hout := setRaw_eq_deliver messages id noted
    [memberOther.raw memberDevice, ownerClear.raw ownerDevice]
  obtain ⟨hstored, hremoved⟩ := hexact.2 _ _ _ _ _ _ _ hout (by rw [hbatch]; exact hseparate)
  have hresult : direct.2 =
      some ⟨[other, clear], [keyPeerId [112, 47, 120] memberDevice.name]⟩ := by decide +kernel
  have hreports := (hexact.1 _ _ _ _ _ (set_eq_of_result hresult)).mpr hseparate
  refine ⟨?_, ?_, by decide +kernel, by decide +kernel, ?_⟩
  · simpa only [out] using hstored
  · simpa only [out] using hremoved
  · simpa only [direct] using hreports

/-- A note that is written and dropped in one call is sent to the other peers, and a note that is
dropped and written again in one call is removed from the index. -/
theorem setResult_undone :
    let first := deliver messages id (opened rawHashing 70 .listed ∅)
      [memberNote.raw memberDevice, ownerClear.raw ownerDevice]
    let again := deliver messages id noted
      [ownerClear.raw ownerDevice, memberNoteAgain.raw memberDevice]
    let note := memberNote.kv member memberDevice
    (note ∈ first.2.broadcast ∧ note ∈ first.2.indexed ∧
      first.1.rows.lookup note.keyPeerId = none) ∧
      note.keyPeerId ∈ again.2.removedIndexes ∧
      again.1.rows.lookup note.keyPeerId =
        some ((memberNoteAgain.kv member memberDevice).anyEnc id) := by
  decide +kernel

end InnerStorage
