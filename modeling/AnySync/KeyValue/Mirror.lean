import AnySync.KeyValue.Converge

/-!
# The diff of a key-value storage

The diff should hold one element for each row, with the timestamp of the row. A call updates it
after its last value: first all written elements are set, then all dropped ones are removed. So a
row that a watermark drops and that is written again in the same call is lost in the diff. A call
that fails puts back what it has recorded.

The main result is `diff_mirrors_rows`.
-/

namespace InnerStorage

open Ldiff
open List (cons_append foldl_cons append_assoc map_cons append_cons)
open GoMap (lookup_insert_eq)

/-! ## Watermarks of a call -/

section Cover

variable {w : Watermarks} {res res' : UpdateResult} {key : GoString} {t : ℤ} {value : KeyValue}

theorem covered_mark_of_covered (hres : res'.watermarks = value.mark res.watermarks)
    (h : covered w res key t = true) : covered w res' key t = true := by
  rw [covered, Bool.or_eq_true] at h ⊢
  refine h.imp_right fun h => ?_
  rw [hres, KeyValue.mark]
  split_ifs with hmark
  · obtain ⟨pre, s, hlookup, hlt, hpre⟩ := matchWatermarks_iff.mp h
    rw [matchWatermarks_iff]
    by_cases heq : pre = value.deletePrefix
    · subst heq
      rw [hlookup, Option.getD_some] at hmark
      exact ⟨_, _, by rw [lookup_insert_eq, if_pos rfl], by omega, hpre⟩
    · exact ⟨pre, s, by rw [lookup_insert_eq, if_neg heq, hlookup], hlt, hpre⟩
  · exact h

/-- A watermark that is applied covers what is older, if its timestamp is positive. -/
theorem covered_mark_self (hres : res'.watermarks = value.mark res.watermarks)
    (hdp : value.deletePrefix ≠ []) (hpos : 0 < value.timestampMicro)
    (hpre : value.deletePrefix <+: key) (ht : t < value.timestampMicro) :
    covered w res' key t = true := by
  rw [covered, Bool.or_eq_true, hres, KeyValue.mark]
  refine .inr (matchWatermarks_iff.mpr ?_)
  split_ifs with hmark
  · exact ⟨_, _, by rw [lookup_insert_eq, if_pos rfl], ht, hpre⟩
  · have hle := not_lt.mp fun hlt => hmark ⟨hdp, hlt⟩
    cases hlookup : res.watermarks.lookup value.deletePrefix with
    | none =>
      rw [hlookup, Option.getD_none] at hle
      omega
    | some s =>
      rw [hlookup, Option.getD_some] at hle
      exact ⟨_, s, hlookup, by omega, hpre⟩

end Cover

/-! ## The values of a call -/

section Batch

variable (float64 : ℤ → ℤ) (rows₀ : Rows)
variable {values rest : List KeyValue}

/-- The watermark drops a row with the id that is stored before the call or that a value writes. -/
def MayDrop (values : List KeyValue) (wm : KeyValue) (id : GoString) : Prop :=
  (∃ doc, rows₀.lookup id = some doc ∧ wm.Drops doc) ∨
    ∃ u ∈ values, u.keyPeerId = id ∧ wm.Drops (u.anyEnc float64)

/-- The watermark keeps the value from being applied. -/
def KeyValue.Rejects (wm value : KeyValue) : Prop :=
  0 < wm.timestampMicro ∧ wm.deletePrefix <+: value.key ∧ value.timestampMicro < wm.timestampMicro

/-- A row that a watermark of the call may drop is not written after the watermark. -/
def BatchOk (values : List KeyValue) : Prop :=
  ∀ before wm after, values = before ++ wm :: after → ∀ value ∈ after,
    wm.Rejects value ∨ ¬ MayDrop float64 rows₀ (before ++ [wm]) wm value.keyPeerId

instance (values : List KeyValue) (wm : KeyValue) (id : GoString) :
    Decidable (MayDrop float64 rows₀ values wm id) :=
  decidable_of_iff ((rows₀.lookup id).any (fun doc => wm.Drops doc) = true ∨
      ∃ u ∈ values, u.keyPeerId = id ∧ wm.Drops (u.anyEnc float64))
    (or_congr_left (by cases rows₀.lookup id <;> simp))

instance (wm value : KeyValue) : Decidable (wm.Rejects value) :=
  inferInstanceAs (Decidable (_ ∧ _))

/-- `BatchOk` by the positions of the watermarks. -/
theorem batchOk_of_forall
    (h : ∀ i : Fin values.length, ∀ value ∈ values.drop (i + 1), values[i].Rejects value ∨
      ¬ MayDrop float64 rows₀ (values.take (i + 1)) values[i] value.keyPeerId) :
    BatchOk float64 rows₀ values := by
  rintro before wm after rfl value hvalue
  have hlt : before.length < (before ++ wm :: after).length := by simp
  have hdrop : (before ++ wm :: after).drop (before.length + 1) = after := by
    rw [append_cons, List.drop_left' (by simp)]
  have htake : (before ++ wm :: after).take (before.length + 1) = before ++ [wm] := by
    rw [append_cons, List.take_left' (by simp)]
  have hpos := h ⟨before.length, hlt⟩ value (by rw [hdrop]; exact hvalue)
  simpa [htake] using hpos

/-- The rows and the result of a call on `rows₀` after the values of `L`, and the contents of the
diff before the call. -/
structure Tracks (old : Contents) (w : Watermarks) (L : List KeyValue) (rows : Rows)
    (res : UpdateResult) : Prop where
  keyed : Keyed rows
  origin : ∀ id doc, rows.lookup id = some doc →
    rows₀.lookup id = some doc ∨ ∃ u ∈ L, u.keyPeerId = id ∧ doc = u.anyEnc float64
  /-- A dropped row was dropped by a watermark of the call, which covers since then. -/
  dropped : ∀ id, (∃ el ∈ res.removed, el.id = id) → ∃ before wm after,
    L = before ++ wm :: after ∧ MayDrop float64 rows₀ (before ++ [wm]) wm id ∧
      ∀ value : KeyValue, wm.Rejects value → covered w res value.key value.timestampMicro = true
  absent : ∀ id, (∃ el ∈ res.removed, el.id = id) → rows.lookup id = none
  present : ∀ id, (¬ ∃ el ∈ res.removed, el.id = id) →
    (old.set res.elements).lookup id = (rows.lookup id).map fun doc => timestampHead doc.t

variable {float64 rows₀} {old : Contents} {w : Watermarks} {L : List KeyValue} {tx tx' : Tx}
  {value : KeyValue} {ok : ℕ → Bool}

theorem Contents.lookup_set_append {m : Contents} {elements : List Element} {e : Element}
    {id : GoString} : (m.set (elements ++ [e])).lookup id =
      if id = e.id then some e.head else (m.set elements).lookup id := by
  rw [Contents.set, List.foldl_append, foldl_cons, List.foldl_nil, lookup_insert_eq]
  rfl

theorem Tracks.wrote (hbatch : BatchOk float64 rows₀ (L ++ value :: rest))
    (h : Tracks float64 rows₀ old w L tx.rows tx.res)
    (hcov : covered w tx.res value.key value.timestampMicro = false)
    (hw : Wrote float64 tx tx' value) :
    Tracks float64 rows₀ old w (L ++ [value]) tx'.rows tx'.res := by
  -- the row of the value was not dropped before
  have hnot : ¬ ∃ el ∈ tx.res.removed, el.id = value.keyPeerId := by
    intro hremoved
    obtain ⟨before, wm, after, hL, hmay, hcovers⟩ := h.dropped _ hremoved
    have hsplit : L ++ value :: rest = before ++ wm :: (after ++ value :: rest) := by
      rw [hL, append_assoc, cons_append]
    rcases hbatch before wm _ hsplit value (by simp) with hrejects | hno
    · exact absurd (hcov.symm.trans (hcovers value hrejects)) Bool.false_ne_true
    · exact hno hmay
  have hrow : ∀ id doc, (tx.rows.insert value.keyPeerId (value.anyEnc float64)).lookup id =
      some doc → rows₀.lookup id = some doc ∨
        ∃ u ∈ L ++ [value], u.keyPeerId = id ∧ doc = u.anyEnc float64 := by
    intro id doc hdoc
    rw [lookup_insert_eq] at hdoc
    split at hdoc
    · next hid => exact .inr ⟨value, by simp, hid.symm, (Option.some.inj hdoc).symm⟩
    · refine (h.origin id doc hdoc).imp_right ?_
      rintro ⟨u, hu, hrest⟩
      exact ⟨u, List.mem_append_left _ hu, hrest⟩
  have hkept : ∀ id doc, tx'.rows.lookup id = some doc →
      (tx.rows.insert value.keyPeerId (value.anyEnc float64)).lookup id = some doc := by
    intro id doc hdoc
    rw [hw.lookup, Option.filter_eq_some_iff] at hdoc
    exact hdoc.1
  refine ⟨fun id doc hdoc => h.keyed.insert id doc (hkept id doc hdoc),
    fun id doc hdoc => hrow id doc (hkept id doc hdoc), fun id hid => ?_, fun id hid => ?_,
    fun id hid => ?_⟩
  · rcases (hw.removed id).mp hid with hid | ⟨doc, hdoc, hdrops⟩
    · obtain ⟨before, wm, after, hL, hmay, hcovers⟩ := h.dropped id hid
      refine ⟨before, wm, after ++ [value], ?_, hmay, fun v hv => ?_⟩
      · rw [hL, append_assoc, cons_append]
      · exact covered_mark_of_covered hw.watermarks (hcovers v hv)
    · refine ⟨L, value, [], rfl, ?_, fun v hv => ?_⟩
      · rcases hrow id doc hdoc with hdoc | ⟨u, hu, hid, rfl⟩
        · exact .inl ⟨doc, hdoc, hdrops⟩
        · exact .inr ⟨u, hu, hid, hdrops⟩
      · exact covered_mark_self hw.watermarks hdrops.1 hv.1 hv.2.1 hv.2.2
  · rw [hw.lookup]
    rcases (hw.removed id).mp hid with hid | ⟨doc, hdoc, hdrops⟩
    · have hne : id ≠ value.keyPeerId := by
        rintro rfl
        exact hnot hid
      rw [lookup_insert_eq, if_neg hne, h.absent id hid, Option.filter_none]
    · rw [hdoc, Option.filter_some, if_neg (by simpa using hdrops)]
  · rw [hw.removed, not_or] at hid
    have hfilter : tx'.rows.lookup id =
        (tx.rows.insert value.keyPeerId (value.anyEnc float64)).lookup id := by
      rw [hw.lookup]
      cases hdoc : (tx.rows.insert value.keyPeerId (value.anyEnc float64)).lookup id with
      | none => rfl
      | some doc =>
        have hdrops : ¬ value.Drops doc := fun hd => hid.2 ⟨doc, hdoc, hd⟩
        rw [Option.filter_some, if_pos (by simpa using hdrops)]
    have helement : (anyEncToElement (value.anyEnc float64)).id = value.keyPeerId := rfl
    rw [hfilter, hw.elements, Contents.lookup_set_append, lookup_insert_eq, helement]
    by_cases hne : id = value.keyPeerId
    · rw [if_pos hne, if_pos hne]
      rfl
    · rw [if_neg hne, if_neg hne, h.present id hid.1]

theorem Tracks.skipped (h : Tracks float64 rows₀ old w L tx.rows tx.res) :
    Tracks float64 rows₀ old w (L ++ [value]) tx.rows tx.res where
  keyed := h.keyed
  origin id doc hdoc := by
    refine (h.origin id doc hdoc).imp_right ?_
    rintro ⟨u, hu, hrest⟩
    exact ⟨u, List.mem_append_left _ hu, hrest⟩
  dropped id hid := by
    obtain ⟨before, wm, after, hL, hrest⟩ := h.dropped id hid
    exact ⟨before, wm, after ++ [value], by rw [hL, append_assoc, cons_append], hrest⟩
  absent := h.absent
  present := h.present

/-- One value of a call. -/
theorem Tracks.updateValue (hbatch : BatchOk float64 rows₀ (L ++ value :: rest))
    (h : Tracks float64 rows₀ old w L tx.rows tx.res)
    (hok : (updateValue float64 ok w tx value).failed = false) :
    Tracks float64 rows₀ old w (L ++ [value]) (updateValue float64 ok w tx value).rows
      (updateValue float64 ok w tx value).res := by
  obtain ⟨-, ⟨-, heq⟩ | ⟨-, -, heq⟩ | ⟨hcov, -, hw⟩⟩ := updateValue_cases h.keyed hok
  · rw [heq]
    exact h.skipped
  · rw [heq]
    exact h.skipped
  · exact h.wrote hbatch hcov hw

theorem failed_of_foldl_updateValue
    (hok : (values.foldl (updateValue float64 ok w) tx).failed = false) : tx.failed = false := by
  induction values generalizing tx with
  | nil => exact hok
  | cons value values ih =>
    have hstep := ih hok
    by_contra hfailed
    rw [updateValue, if_pos (.inl (by simpa using hfailed))] at hstep
    exact hfailed hstep

theorem Tracks.foldl_updateValue (hbatch : BatchOk float64 rows₀ (L ++ values))
    (h : Tracks float64 rows₀ old w L tx.rows tx.res)
    (hok : (values.foldl (InnerStorage.updateValue float64 ok w) tx).failed = false) :
    Tracks float64 rows₀ old w (L ++ values)
      (values.foldl (InnerStorage.updateValue float64 ok w) tx).rows
      (values.foldl (InnerStorage.updateValue float64 ok w) tx).res := by
  induction values generalizing tx L with
  | nil => simpa using h
  | cons value values ih =>
    have hstep := h.updateValue hbatch (failed_of_foldl_updateValue hok)
    rw [append_cons] at hbatch ⊢
    exact ih hbatch hstep hok

end Batch

/-! ## Failed calls -/

section Restore

variable {m : Contents} {ord : RangeOrder} {id : GoString}

theorem contents_append {diff ops : List Op} :
    contents (diff ++ ops) = ops.foldl Contents.apply (contents diff) := by
  rw [contents, contents, List.foldl_append]

theorem lookup_foldl_removeId {els : List Element} :
    ((els.map fun el => Op.removeId el.id ord).foldl Contents.apply m).lookup id =
      if ∃ el ∈ els, el.id = id then none else m.lookup id := by
  induction els generalizing m with
  | nil => simp
  | cons el els ih =>
    rw [map_cons, foldl_cons, ih]
    change (if _ then none else (m.erase el.id).lookup id) = _
    rw [GoMap.lookup_erase_eq]
    by_cases hid : id = el.id
    · simp [hid]
    · have hid' : el.id ≠ id := Ne.symm hid
      simp [hid, hid']

/-- The call that puts an id back. -/
def putBack (ord : RangeOrder) (pre : (_ : GoString) × Option Element) : Op :=
  match pre.2 with
  | none => .removeId pre.1 ord
  | some el => .set [el] ord

theorem lookup_apply_putBack {pre : (_ : GoString) × Option Element}
    (hel : ∀ el, pre.2 = some el → el.id = pre.1) :
    (m.apply (putBack ord pre)).lookup id =
      if id = pre.1 then pre.2.map (·.head) else m.lookup id := by
  unfold putBack
  cases hpre : pre.2 with
  | none =>
    change (m.erase pre.1).lookup id = _
    rw [GoMap.lookup_erase_eq]
    rfl
  | some el =>
    change (m.insert el.id el.head).lookup id = _
    rw [lookup_insert_eq, hel el hpre]
    rfl

/-- The loop that puts ids back, over entries with distinct keys. -/
theorem lookup_foldl_putBack {l : List ((_ : GoString) × Option Element)}
    (hnodup : (l.map (·.1)).Nodup) (hel : ∀ x ∈ l, ∀ el, x.2 = some el → el.id = x.1)
    (m : Contents) :
    (∀ x ∈ l, ((l.map (putBack ord)).foldl Contents.apply m).lookup x.1 = x.2.map (·.head)) ∧
      ∀ id, (∀ x ∈ l, x.1 ≠ id) →
        ((l.map (putBack ord)).foldl Contents.apply m).lookup id = m.lookup id := by
  induction l generalizing m with
  | nil => simp
  | cons x l ih =>
    rw [map_cons, List.nodup_cons] at hnodup
    obtain ⟨hx, hl⟩ := List.forall_mem_cons.mp hel
    obtain ⟨hin, hout⟩ := ih hnodup.2 hl (m.apply (putBack ord x))
    have hnotin : ∀ y ∈ l, y.1 ≠ x.1 := fun y hy heq =>
      hnodup.1 (heq ▸ List.mem_map_of_mem hy)
    rw [map_cons, foldl_cons]
    refine ⟨fun y hy => ?_, fun id hid => ?_⟩
    · rcases List.mem_cons.mp hy with rfl | hy
      · rw [hout _ hnotin, lookup_apply_putBack hx, if_pos rfl]
      · exact hin y hy
    · obtain ⟨hne, hrest⟩ := List.forall_mem_cons.mp hid
      rw [hout id hrest, lookup_apply_putBack hx, if_neg (Ne.symm hne)]

/-- Each recorded id is put back, and nothing else changes. -/
theorem lookup_restore {preState : GoMap GoString (Option Element)}
    (hid : ∀ id el, preState.lookup id = some (some el) → el.id = id) :
    ((restore ord preState).foldl Contents.apply m).lookup id =
      (preState.lookup id).elim (m.lookup id) fun pre => pre.map (·.head) := by
  have hperm := ord.shuffle_perm 0 0 preState.entries
  have hnodup : ((ord.shuffle 0 0 preState.entries).map (·.1)).Nodup :=
    (hperm.map _).nodup_iff.mpr preState.nodupKeys
  have hel : ∀ x ∈ ord.shuffle 0 0 preState.entries, ∀ el, x.2 = some el → el.id = x.1 := by
    intro x hx el hel
    apply hid x.1 el
    rw [GoMap.lookup_eq_some_iff, ← hel]
    exact hperm.mem_iff.mp hx
  obtain ⟨hin, hout⟩ := @lookup_foldl_putBack ord _ hnodup hel m
  cases hlookup : preState.lookup id with
  | some pre =>
    exact hin ⟨id, pre⟩ (hperm.mem_iff.mpr (GoMap.lookup_eq_some_iff.mp hlookup))
  | none =>
    refine hout id fun x hx heq => ?_
    have hmem := GoMap.lookup_eq_some_iff.mpr (hperm.mem_iff.mp hx)
    rw [heq, hlookup] at hmem
    cases hmem

end Restore

/-! ## Calls -/

/-- The diff has one element for each row, with its timestamp. -/
def Storage.Mirrors (st : Storage) : Prop :=
  ∀ id, (contents st.diff).lookup id = (st.rows.lookup id).map fun doc => timestampHead doc.t

section Set

variable {H : Hashing} {fuel : ℕ} {float64 : ℤ → ℤ} {st : Storage} {values : List KeyValue}
  {ok : ℕ → Bool} {ord : RangeOrder}
variable {res : UpdateResult} {diff : List Op}

/-- A failed call puts the diff back, whatever it had set and removed of the ids it touched. -/
theorem Storage.Mirrors.undo {rows : Rows} (hpre : PreOk float64 st.rows rows res)
    (hkeyed : Keyed st.rows) (h : st.Mirrors) (hdiff : ∀ id, res.preState.lookup id = none →
      (contents diff).lookup id = (contents st.diff).lookup id) :
    ({ st with diff := diff ++ restore ord res.preState } : Storage).Mirrors := by
  intro id
  rw [contents_append, lookup_restore]
  · cases hlookup : res.preState.lookup id with
    | some pre =>
      rw [Option.elim_some, hpre.recorded id pre hlookup, Option.map_map]
      rfl
    | none => rw [Option.elim_none, hdiff id hlookup, h id]
  · intro id el hlookup
    have hrow := hpre.recorded id _ hlookup
    rw [eq_comm, Option.map_eq_some_iff] at hrow
    obtain ⟨doc, hdoc, rfl⟩ := hrow
    exact hkeyed id doc hdoc

theorem contents_update {id : GoString} :
    (contents (diff ++ .set res.elements ord ::
        res.removed.map fun el => .removeId el.id ord)).lookup id =
      if ∃ el ∈ res.removed, el.id = id then none
      else ((contents diff).set res.elements).lookup id := by
  rw [contents_append, foldl_cons, lookup_foldl_removeId]
  rfl

variable (H fuel float64 st values ok ord) in
theorem Storage.set_cases :
    let tx := updateValues float64 ok st.rows st.watermarks values
    let diff := st.diff ++ .set tx.res.elements ord ::
      tx.res.removed.map fun el => .removeId el.id ord
    st.set H fuel float64 values ok ord = (st, none) ∨
      (∃ diff', (diff' = st.diff ∨ diff' = diff) ∧ st.set H fuel float64 values ok ord =
        ({ st with diff := diff' ++ restore ord tx.res.preState }, none)) ∨
      tx.failed = false ∧ ∃ head r, st.set H fuel float64 values ok ord =
        ({ rows := tx.rows, watermarks := publish st.watermarks tx.res.watermarks, diff := diff,
           head := head }, some r) ∧ (r.applied ≠ [] → head = diffHash H fuel ord diff) ∧
        (r.applied = [] ∨ r.applied = tx.res.applied) := by
  intro tx diff
  generalize hout : st.set H fuel float64 values ok ord = out
  unfold Storage.set at hout
  simp only at hout
  split_ifs at hout with hok hfailed hempty hcommit hcommit hhead <;> subst hout
  · exact .inl rfl
  · exact .inr (.inl ⟨st.diff, .inl rfl, rfl⟩)
  · exact .inr (.inr ⟨by simpa using hfailed, _, _, rfl, fun h => absurd rfl h, .inl rfl⟩)
  · exact .inr (.inl ⟨diff, .inr rfl, rfl⟩)
  · exact .inr (.inl ⟨diff, .inr rfl, rfl⟩)
  · exact .inr (.inr ⟨by simpa using hfailed, _, _, rfl, fun _ => rfl, .inr rfl⟩)
  · exact .inr (.inl ⟨diff, .inr rfl, rfl⟩)

/-- One call keeps the mirror. -/
theorem Storage.Mirrors.set (hkeyed : Keyed st.rows) (h : st.Mirrors)
    (hbatch : BatchOk float64 st.rows values) :
    Keyed (st.set H fuel float64 values ok ord).1.rows ∧
      (st.set H fuel float64 values ok ord).1.Mirrors ∧
      ∀ r, (st.set H fuel float64 values ok ord).2 = some r → r.applied ≠ [] →
        (st.set H fuel float64 values ok ord).1.head =
          diffHash H fuel ord (st.set H fuel float64 values ok ord).1.diff := by
  set tx := updateValues float64 ok st.rows st.watermarks values with htx
  have hpre : PreOk float64 st.rows tx.rows tx.res := preOk_updateValues hkeyed
  rcases Storage.set_cases H fuel float64 st values ok ord with
    heq | ⟨diff', hdiff', heq⟩ | ⟨hfailed, head, r, heq, hr, -⟩
  · rw [heq]
    exact ⟨hkeyed, h, fun r hr => by cases hr⟩
  · rw [heq]
    refine ⟨hkeyed, Storage.Mirrors.undo hpre hkeyed h fun id hnone => ?_, fun r hr => by cases hr⟩
    rcases hdiff' with rfl | rfl
    · rfl
    · -- what is not recorded was neither set nor removed
      have hne : ∀ el : Element, (tx.res.preState.lookup el.id).isSome → el.id ≠ id := by
        rintro el hsome rfl
        rw [hnone] at hsome
        cases hsome
      rw [contents_update, if_neg]
      · exact Contents.lookup_set_of_forall_ne fun el hel => hne el (hpre.elements el hel)
      · rintro ⟨el, hel, hid⟩
        exact hne el (hpre.removed el hel) hid
  · have htracks : Tracks float64 st.rows (contents st.diff) st.watermarks ([] ++ values) tx.rows
        tx.res := by
      refine Tracks.foldl_updateValue (L := []) hbatch ?_ hfailed
      refine ⟨hkeyed, fun id doc hdoc => .inl hdoc, fun id hid => ?_, fun id hid => ?_,
        fun id _ => h id⟩
      · obtain ⟨el, hel, -⟩ := hid
        cases hel
      · obtain ⟨el, hel, -⟩ := hid
        cases hel
    rw [heq]
    refine ⟨htracks.keyed, fun id => ?_, fun r' hr' hne => ?_⟩
    · rw [contents_update]
      split_ifs with hremoved
      · rw [htracks.absent id hremoved]
        rfl
      · exact htracks.present id hremoved
    · obtain rfl := Option.some.inj hr'
      exact hr hne

end Set

/-! ## Runs -/

/-- The arguments of a call, with the operations of the store that succeed. -/
structure Call where
  values : List KeyValue
  ok : ℕ → Bool
  ord : RangeOrder

section Run

variable (H : Hashing) (fuel : ℕ) (float64 : ℤ → ℤ)

/-- The storage after calls of `Set`. -/
def Storage.run (st : Storage) (calls : List Call) : Storage :=
  calls.foldl (fun st call => (st.set H fuel float64 call.values call.ok call.ord).1) st

/-- All the calls of a run meet `BatchOk`. -/
def RunOk (st : Storage) (calls : List Call) : Prop :=
  ∀ before call after, calls = before ++ call :: after →
    BatchOk float64 (st.run H fuel float64 before).rows call.values

variable {H fuel float64} {st : Storage} {calls : List Call} {ord : RangeOrder} {rows : Rows}

theorem mirrors_opened (hkeyed : Keyed rows) : (opened H fuel ord rows).Mirrors := by
  intro id
  change ((∅ : Contents).set (rows.entries.map fun row => anyEncToElement row.2)).lookup id = _
  -- one element for each row, under the id of the row
  have hmem : ∀ e, e ∈ rows.entries.map (fun row => anyEncToElement row.2) ↔
      ∃ doc, rows.lookup e.id = some doc ∧ anyEncToElement doc = e := by
    intro e
    rw [List.mem_map]
    constructor
    · rintro ⟨⟨id, doc⟩, hrow, rfl⟩
      have hlookup := GoMap.lookup_eq_some_iff.mpr hrow
      have hid : (anyEncToElement doc).id = id := hkeyed id doc hlookup
      exact ⟨doc, hid ▸ hlookup, rfl⟩
    · rintro ⟨doc, hlookup, he⟩
      exact ⟨⟨e.id, doc⟩, GoMap.lookup_eq_some_iff.mp hlookup, he⟩
  change _ = (rows.lookup id).map _
  cases hlookup : rows.lookup id with
  | none =>
    rw [Contents.lookup_set_of_forall_ne]
    · rfl
    · rintro e he rfl
      obtain ⟨doc, hdoc, -⟩ := (hmem e).mp he
      rw [hlookup] at hdoc
      cases hdoc
  | some doc =>
    have hid : doc.id = id := hkeyed id doc hlookup
    subst hid
    refine Contents.lookup_set_of_mem (e := anyEncToElement doc) ((hmem _).mpr ⟨doc, hlookup, rfl⟩)
      fun e' he' hid => ?_
    obtain ⟨doc', hdoc', rfl⟩ := (hmem e').mp he'
    have hid' : doc'.id = doc.id := hid
    have hsome : rows.lookup doc.id = some doc' := hid' ▸ hdoc'
    obtain rfl := Option.some.inj (hlookup.symm.trans hsome)
    rfl

theorem Storage.Mirrors.run (hkeyed : Keyed st.rows) (h : st.Mirrors)
    (hrun : RunOk H fuel float64 st calls) :
    Keyed (st.run H fuel float64 calls).rows ∧ (st.run H fuel float64 calls).Mirrors := by
  induction calls generalizing st with
  | nil => exact ⟨hkeyed, h⟩
  | cons call calls ih =>
    obtain ⟨hkeyed', h', -⟩ := h.set hkeyed (hrun [] call calls rfl)
    refine ih hkeyed' h' fun before call' after hcalls => ?_
    exact hrun (call :: before) call' after (by rw [hcalls, cons_append])

/-- After every call of a run in which each call meets `BatchOk`, committed or failed, a container
of the diff has one element for each row and no other, with the row's id and timestamp; and a call
that applies a value writes the hash of the diff. -/
theorem diff_mirrors_rows (hkeyed : Keyed rows) {call : Call}
    (hrun : RunOk H fuel float64 (opened H fuel ord rows) (calls ++ [call])) :
    let st := (opened H fuel ord rows).run H fuel float64 calls
    let out := st.set H fuel float64 call.values call.ok call.ord
    out.1.Mirrors ∧
      (∀ ord' d, Container.run H fuel 32 256 ord' out.1.diff = .ok d →
        (d.elements.map (·.id)).Nodup ∧ ∀ e, e ∈ d.elements ↔
          ∃ doc, out.1.rows.lookup e.id = some doc ∧ e.head = timestampHead doc.t) ∧
      ∀ r, out.2 = some r → r.applied ≠ [] →
        out.1.head = diffHash H fuel call.ord out.1.diff := by
  intro st out
  have hcalls : RunOk H fuel float64 (opened H fuel ord rows) calls := by
    intro before call' after heq
    exact hrun before call' (after ++ [call]) (by rw [heq, append_assoc, cons_append])
  obtain ⟨hkeyed', hmirrors⟩ := (mirrors_opened hkeyed).run hkeyed hcalls
  have hset : Keyed out.1.rows ∧ out.1.Mirrors ∧ ∀ r, out.2 = some r → r.applied ≠ [] →
      out.1.head = diffHash H fuel call.ord out.1.diff :=
    hmirrors.set hkeyed' (hrun calls call [] rfl)
  obtain ⟨-, hout, hhead⟩ := hset
  refine ⟨hout, fun ord' d hd => ?_, hhead⟩
  have hholds : d.Holds (contents out.1.diff) := Container.run_holds hd
  constructor
  · have hnodup := hholds.nodup
    rwa [Container.elements, List.map_map]
  · intro e
    rw [hholds.mem, hout, Option.map_eq_some_iff]
    simp only [eq_comm]

end Run

namespace Sample

/-- A later value with the key "p/x". -/
def noteAgain : KeyValue := value [112, 47, 120] [] 7

/-- An older one. -/
def noteBefore : KeyValue := value [112, 47, 120] [] 2

/-- A call in which every operation succeeds. -/
def call (values : List KeyValue) : Call := ⟨values, fun _ => true, .listed⟩

end Sample

open Sample

/-- A call that writes a row, drops it, and refuses to write it again. -/
theorem mirrors_droppedNote :
    let st := (opened hashing 70 .listed ∅).run hashing 70 id []
    let out := st.set hashing 70 id [note, clear, noteBefore]
      (fun _ => true) .listed
    out.1.Mirrors ∧ out.1.rows.lookup note.keyPeerId = none := by
  have hkeyed : Keyed ∅ := fun id doc hdoc => by cases hdoc
  have hrun : RunOk hashing 70 id (opened hashing 70 .listed ∅)
      ([] ++ [call [note, clear, noteBefore]]) := by
    intro before call after hcalls
    obtain ⟨rfl, rfl, rfl⟩ : before = [] ∧
        call = Sample.call [note, clear, noteBefore] ∧ after = [] := by
      rw [List.nil_append, List.cons_eq_append_iff] at hcalls
      simpa [eq_comm] using hcalls
    exact batchOk_of_forall _ _ (by decide)
  exact ⟨(diff_mirrors_rows hkeyed hrun).1, by decide +kernel⟩

/-- A row that is dropped and written again in one call is stored, but not in the diff. -/
theorem diff_lostRow :
    let st := (opened hashing 70 .listed ∅).run hashing 70 id
        [call [note]]
    let out := st.set hashing 70 id [clear, noteAgain] (fun _ => true) .listed
    out.2 = some ⟨[clear, noteAgain], [note.keyPeerId]⟩ ∧
      out.1.rows.lookup note.keyPeerId = some (noteAgain.anyEnc id) ∧
      (contents out.1.diff).lookup note.keyPeerId = none := by
  refine ⟨by decide +kernel, by decide +kernel, by decide +kernel⟩

end InnerStorage
