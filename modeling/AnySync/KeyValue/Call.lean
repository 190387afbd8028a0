import AnySync.KeyValue.Model
import Mathlib.Data.List.Lex

/-!
# What one value of a call does

The scan by ids, the watermarks and the updates of rows, if no operation of the store fails
(`applyWatermark_spec`, `updateValue_cases`), and what a call records of the state before it in any
case (`PreOk`).
-/

namespace InnerStorage

open Ldiff
open UpdateResult (recordPre)

/-! ## The scan by ids -/

variable {a b p pre : GoString}

theorem cons_le_cons_iff {x y : UInt8} : x :: a ≤ y :: b ↔ x < y ∨ x = y ∧ a ≤ b := by
  rw [← not_lt, List.cons_lt_cons_iff, ← not_lt (a := b)]
  rcases lt_trichotomy x y with h | rfl | h
  · simp [h, h.ne', h.not_gt]
  · simp
  · simp [h, h.ne', h.not_gt]

/-- A string between a prefix and a string with that prefix has the prefix. -/
theorem isPrefix_of_le_of_le (hpa : p ≤ a) (hab : a ≤ b) (hpb : p <+: b) : p <+: a := by
  induction p generalizing a b with
  | nil => exact List.nil_prefix
  | cons x p ih =>
    obtain ⟨b', rfl⟩ := hpb
    cases a with
    | nil => exact absurd hpa (not_le.mpr (List.nil_lt_cons x p))
    | cons y a =>
      rw [List.cons_append, cons_le_cons_iff] at hab
      rw [cons_le_cons_iff] at hpa
      rcases hpa with hxy | ⟨rfl, hpa⟩
      · rcases hab with hyx | ⟨rfl, -⟩
        · exact absurd hxy (lt_asymm hyx)
        · exact absurd hxy (lt_irrefl _)
      · rcases hab with hyx | ⟨-, hab⟩
        · exact absurd hyx (lt_irrefl _)
        · exact List.cons_prefix_cons.mpr ⟨rfl, ih hpa hab <| List.prefix_append p b'⟩

theorem le_of_isPrefix (h : p <+: a) : p ≤ a := by
  induction p generalizing a with
  | nil => exact not_lt.mp (List.not_lt_nil a)
  | cons x p ih =>
    obtain ⟨a', rfl⟩ := h
    rw [List.cons_append, cons_le_cons_iff]
    exact .inr ⟨rfl, ih <| List.prefix_append p a'⟩

/-- In a list in the order of the ids, the run from the prefix on has all the ids with it. -/
theorem takeWhile_dropWhile_eq_filter {l : List Doc} (hl : l.Pairwise fun a b => a.id ≤ b.id) :
    (l.dropWhile (·.id < pre)).takeWhile (pre <+: ·.id) = l.filter (pre <+: ·.id) := by
  induction l with
  | nil => rfl
  | cons a l ih =>
    obtain ⟨ha, hl⟩ := List.pairwise_cons.mp hl
    by_cases hlt : a.id < pre
    · have hpre : ¬ pre <+: a.id := fun h => absurd (le_of_isPrefix h) (not_le.mpr hlt)
      rw [List.dropWhile_cons_of_pos (by simpa using hlt), ih hl,
        List.filter_cons_of_neg (by simpa using hpre)]
    · rw [List.dropWhile_cons_of_neg (by simpa using hlt)]
      -- from here on nothing is below the prefix
      have hdrop : l.dropWhile (·.id < pre) = l := by
        cases l with
        | nil => rfl
        | cons b l =>
          have hab := ha b List.mem_cons_self
          exact List.dropWhile_cons_of_neg (by simpa using (not_lt.mp hlt).trans hab)
      rw [hdrop] at ih
      by_cases hpre : pre <+: a.id
      · rw [List.takeWhile_cons_of_pos (by simpa using hpre), ih hl,
          List.filter_cons_of_pos (by simpa using hpre)]
      · rw [List.takeWhile_cons_of_neg (by simpa using hpre), List.filter_cons_of_neg
          (by simpa using hpre), eq_comm, List.filter_eq_nil_iff]
        intro b hb hpreb
        exact hpre (isPrefix_of_le_of_le (not_lt.mp hlt) (ha b hb) (of_decide_eq_true hpreb))

/-- The scan by ids visits the rows whose id has the prefix. -/
theorem mem_iterateIdPrefix {rows : Rows} {doc : Doc} :
    doc ∈ iterateIdPrefix rows pre ↔ (∃ id, rows.lookup id = some doc) ∧ pre <+: doc.id := by
  have : Std.Total fun a b : Doc => a.id ≤ b.id := ⟨fun a b => le_total a.id b.id⟩
  have : IsTrans Doc fun a b => a.id ≤ b.id := ⟨fun _ _ _ => le_trans⟩
  have hsorted := List.pairwise_insertionSort (fun a b : Doc => a.id ≤ b.id)
    (rows.entries.map (·.2))
  rw [iterateIdPrefix, takeWhile_dropWhile_eq_filter hsorted, List.mem_filter,
    (List.perm_insertionSort _ _).mem_iff, List.mem_map, decide_eq_true_iff]
  refine and_congr_left fun _ => ⟨?_, ?_⟩
  · rintro ⟨⟨id, doc⟩, hmem, rfl⟩
    exact ⟨id, GoMap.lookup_eq_some_iff.mpr hmem⟩
  · rintro ⟨id, hlookup⟩
    exact ⟨⟨id, doc⟩, GoMap.lookup_eq_some_iff.mp hlookup, rfl⟩

/-! ## Watermarks -/

/-- The value is a watermark and deletes the row. -/
def KeyValue.Drops (wm : KeyValue) (doc : Doc) : Prop :=
  wm.deletePrefix ≠ [] ∧ wm.deletePrefix <+: doc.id ∧ wm.deletePrefix <+: doc.k ∧
    doc.t < wm.timestampMicro

instance (wm : KeyValue) (doc : Doc) : Decidable (wm.Drops doc) :=
  inferInstanceAs (Decidable (_ ∧ _))

/-- Every row has its id as key. -/
def Keyed (rows : Rows) : Prop := ∀ id doc, rows.lookup id = some doc → doc.id = id

section Steps

variable {float64 : ℤ → ℤ} {ok : ℕ → Bool} {tx tx' : Tx} {wm value : KeyValue}

/-- If a call goes on after an operation, the operation succeeded. -/
theorem Tx.op_failed {next : Tx → Tx} (h : (tx.op ok next).failed = false) :
    tx.failed = false ∧ tx.op ok next = next { tx with used := tx.used + 1 } := by
  unfold Tx.op at h ⊢
  split_ifs at h ⊢ with hfailed hok
  · rw [hfailed] at h
    cases h
  · exact ⟨by simpa using hfailed, rfl⟩

section RecordPre

variable {res : UpdateResult} {id : GoString} {el : Option Element}

@[simp]
theorem recordPre_elements : (res.recordPre id el).elements = res.elements := by
  unfold recordPre
  split <;> rfl

@[simp]
theorem recordPre_removed : (res.recordPre id el).removed = res.removed := by
  unfold recordPre
  split <;> rfl

@[simp]
theorem recordPre_watermarks : (res.recordPre id el).watermarks = res.watermarks := by
  unfold recordPre
  split <;> rfl

@[simp]
theorem recordPre_applied : (res.recordPre id el).applied = res.applied := by
  unfold recordPre
  split <;> rfl

@[simp]
theorem recordPre_droppedIds : (res.recordPre id el).droppedIds = res.droppedIds := by
  unfold recordPre
  split <;> rfl

end RecordPre

variable {acc : Tx × List GoString} {rows : Rows}

/-- The rows that a watermark drops among those that the scan visits. -/
def droppedAmong (wm : KeyValue) (docs : List Doc) : List Doc :=
  docs.filter fun doc => wm.deletePrefix <+: doc.k ∧ doc.t < wm.timestampMicro

/-- What visiting documents changes. -/
structure Visited (wm : KeyValue) (docs : List Doc) (acc out : Tx × List GoString) : Prop where
  failed : acc.1.failed = false
  rows : out.1.rows = acc.1.rows
  elements : out.1.res.elements = acc.1.res.elements
  removed : out.1.res.removed = acc.1.res.removed ++ (droppedAmong wm docs).map anyEncToElement
  watermarks : out.1.res.watermarks = acc.1.res.watermarks
  applied : out.1.res.applied = acc.1.res.applied
  dropIds : out.2 = acc.2 ++ (droppedAmong wm docs).map (·.id)

/-- What the scan does with one row. -/
theorem visited_visitDoc {doc : Doc} (h : (visitDoc ok wm acc doc).1.failed = false) :
    Visited wm [doc] acc (visitDoc ok wm acc doc) := by
  unfold visitDoc at h ⊢
  by_cases hfailed : acc.1.failed = true
  · rw [if_pos hfailed, hfailed] at h
    cases h
  · rw [if_neg hfailed] at h ⊢
    by_cases hok : ok acc.1.used = false
    · rw [if_pos hok] at h
      cases h
    · rw [if_neg hok]
      by_cases hpre : wm.deletePrefix <+: doc.k
      · by_cases ht : doc.t ≥ wm.timestampMicro
        · constructor <;> simp [hpre, ht, droppedAmong, hfailed]
        · constructor <;> simp [hpre, ht, droppedAmong, hfailed, anyEncToElement, not_le.mp ht]
      · constructor <;> simp [hpre, droppedAmong, hfailed]

/-- What the scan of a watermark does. -/
theorem visited_foldl {docs : List Doc} (h : (docs.foldl (visitDoc ok wm) acc).1.failed = false) :
    Visited wm docs acc (docs.foldl (visitDoc ok wm) acc) := by
  induction docs generalizing acc with
  | nil => constructor <;> simp_all [droppedAmong]
  | cons doc docs ih =>
    have hrest := ih h
    have hdoc := visited_visitDoc hrest.failed
    have hcons : droppedAmong wm (doc :: docs) =
        droppedAmong wm [doc] ++ droppedAmong wm docs := by
      rw [droppedAmong, ← List.singleton_append, List.filter_append]
      rfl
    rw [List.foldl_cons]
    refine ⟨hdoc.failed, hrest.rows.trans hdoc.rows, hrest.elements.trans hdoc.elements, ?_,
      hrest.watermarks.trans hdoc.watermarks, hrest.applied.trans hdoc.applied, ?_⟩
    · rw [hrest.removed, hdoc.removed, hcons, List.map_append, List.append_assoc]
    · rw [hrest.dropIds, hdoc.dropIds, hcons, List.map_append, List.append_assoc]

/-- The rows after the deletions. -/
theorem foldl_deleteId {ids : List GoString} (h : (ids.foldl (deleteId ok) tx).failed = false) :
    tx.failed = false ∧ (ids.foldl (deleteId ok) tx).res = tx.res ∧
      ∀ id, (ids.foldl (deleteId ok) tx).rows.lookup id =
        if id ∈ ids then none else tx.rows.lookup id := by
  induction ids generalizing tx with
  | nil => exact ⟨h, rfl, fun id => by simp⟩
  | cons id ids ih =>
    obtain ⟨hfailed, hres, hrows⟩ := ih h
    obtain ⟨hfailed', hop⟩ := Tx.op_failed hfailed
    have hdelete : deleteId ok tx id =
        { tx with used := tx.used + 1, rows := tx.rows.erase id } := hop
    rw [List.foldl_cons]
    refine ⟨hfailed', by rw [hres, hdelete], fun id' => ?_⟩
    rw [hrows, hdelete]
    simp only [GoMap.lookup_erase_eq, List.mem_cons]
    by_cases hid : id' = id <;> by_cases hmem : id' ∈ ids <;> simp [hid, hmem]

/-- The watermarks after a value is applied. -/
def KeyValue.mark (value : KeyValue) (watermarks : Watermarks) : Watermarks :=
  if value.deletePrefix ≠ [] ∧
      value.timestampMicro > (watermarks.lookup value.deletePrefix).getD 0 then
    watermarks.insert value.deletePrefix value.timestampMicro
  else watermarks

/-- `applyWatermark` deletes what the watermark drops. -/
theorem applyWatermark_spec (hwm : wm.deletePrefix ≠ []) (hkeyed : Keyed tx.rows)
    (h : (applyWatermark ok tx wm).failed = false) :
    tx.failed = false ∧
      (∀ id, (applyWatermark ok tx wm).rows.lookup id =
        (tx.rows.lookup id).filter fun doc => ¬ wm.Drops doc) ∧
      (applyWatermark ok tx wm).res.elements = tx.res.elements ∧
      (∀ id, (∃ el ∈ (applyWatermark ok tx wm).res.removed, el.id = id) ↔
        (∃ el ∈ tx.res.removed, el.id = id) ∨ ∃ doc, tx.rows.lookup id = some doc ∧ wm.Drops doc) ∧
      (applyWatermark ok tx wm).res.applied = tx.res.applied ∧
      (applyWatermark ok tx wm).res.watermarks = wm.mark tx.res.watermarks := by
  obtain ⟨hfailed, hop⟩ := Tx.op_failed h
  have heq : applyWatermark ok tx wm = _ := hop
  set tx₁ : Tx := { tx with used := tx.used + 1 } with htx₁
  set out := (iterateIdPrefix tx₁.rows wm.deletePrefix).foldl (visitDoc ok wm) (tx₁, []) with hout
  set tx₂ := out.2.foldl (deleteId ok) out.1 with htx₂
  rw [heq] at h ⊢
  have hok₂ : tx₂.failed = false := by
    by_contra hfail
    simp only [Bool.not_eq_false] at hfail
    simp only [← htx₂, hfail, if_true] at h
    cases h
  simp only [← htx₂, hok₂, Bool.false_eq_true, if_false]
  obtain ⟨hok₁, hres, hrows⟩ := foldl_deleteId hok₂
  have hv : Visited wm _ (tx₁, []) out := visited_foldl hok₁
  -- the rows with these ids are those that the watermark drops
  have hdrop : ∀ id, (∃ doc ∈ droppedAmong wm (iterateIdPrefix tx.rows wm.deletePrefix),
      doc.id = id) ↔ ∃ doc, tx.rows.lookup id = some doc ∧ wm.Drops doc := by
    intro id
    constructor
    · rintro ⟨doc, hdoc, rfl⟩
      obtain ⟨hmem, hdrops⟩ := List.mem_filter.mp hdoc
      obtain ⟨⟨id', hlookup⟩, hpre⟩ := mem_iterateIdPrefix.mp hmem
      obtain ⟨hkey, ht⟩ := of_decide_eq_true hdrops
      have hid := hkeyed id' doc hlookup
      subst hid
      exact ⟨doc, hlookup, hwm, hpre, hkey, ht⟩
    · rintro ⟨doc, hlookup, -, hpre, hkey, ht⟩
      refine ⟨doc, List.mem_filter.mpr ⟨mem_iterateIdPrefix.mpr ⟨⟨id, hlookup⟩, hpre⟩, ?_⟩,
        hkeyed id doc hlookup⟩
      exact decide_eq_true ⟨hkey, ht⟩
  have hids : ∀ id, id ∈ out.2 ↔ ∃ doc, tx.rows.lookup id = some doc ∧ wm.Drops doc := by
    intro id
    rw [hv.dropIds, List.nil_append, List.mem_map, ← hdrop]
  refine ⟨hfailed, fun id => ?_, ?_, fun id => ?_, ?_, ?_⟩
  · rw [hrows, hv.rows]
    change (if id ∈ out.2 then none else tx.rows.lookup id) = _
    by_cases hmem : id ∈ out.2
    · obtain ⟨doc, hlookup, hdrops⟩ := (hids id).mp hmem
      rw [if_pos hmem, hlookup, Option.filter_some, if_neg (by simpa using hdrops)]
    · rw [if_neg hmem]
      cases hlookup : tx.rows.lookup id with
      | none => rfl
      | some doc =>
        have hdrops : ¬ wm.Drops doc := fun hd => hmem ((hids id).mpr ⟨doc, hlookup, hd⟩)
        rw [Option.filter_some, if_pos (by simpa using hdrops)]
  · rw [hres, hv.elements]
  · rw [hres, hv.removed, ← hdrop]
    simp only [List.mem_append, List.mem_map, or_and_right, exists_or]
    refine or_congr_right ⟨?_, ?_⟩
    · rintro ⟨el, ⟨doc, hdoc, rfl⟩, rfl⟩
      exact ⟨doc, hdoc, rfl⟩
    · rintro ⟨doc, hdoc, rfl⟩
      exact ⟨_, ⟨doc, hdoc, rfl⟩, rfl⟩
  · rw [hres, hv.applied]
  · rw [hres, hv.watermarks]
    simp only [KeyValue.mark, hwm, ne_eq, not_false_eq_true, true_and]
    rfl

/-- What applying a value does, besides recording the state before. -/
structure Wrote (float64 : ℤ → ℤ) (tx tx' : Tx) (value : KeyValue) : Prop where
  lookup : ∀ id, tx'.rows.lookup id =
    ((tx.rows.insert value.keyPeerId (value.anyEnc float64)).lookup id).filter
      fun doc => ¬ value.Drops doc
  elements : tx'.res.elements = tx.res.elements ++ [anyEncToElement (value.anyEnc float64)]
  removed : ∀ id, (∃ el ∈ tx'.res.removed, el.id = id) ↔ (∃ el ∈ tx.res.removed, el.id = id) ∨
    ∃ doc, (tx.rows.insert value.keyPeerId (value.anyEnc float64)).lookup id = some doc ∧
      value.Drops doc
  applied : tx'.res.applied = tx.res.applied ++ [value]
  watermarks : tx'.res.watermarks = value.mark tx.res.watermarks

theorem Keyed.insert (h : Keyed rows) :
    Keyed (rows.insert value.keyPeerId (value.anyEnc float64)) := by
  intro id doc hdoc
  rw [GoMap.lookup_insert_eq] at hdoc
  split at hdoc
  · next hid =>
    obtain rfl := Option.some.inj hdoc
    exact hid.symm
  · exact h id doc hdoc

/-- A value that wins is written. -/
theorem wrote_upsertOne (h : (upsertOne float64 ok value tx).failed = false)
    (hkeyed : Keyed tx.rows) :
    tx.failed = false ∧ Wrote float64 tx (upsertOne float64 ok value tx) value := by
  obtain ⟨hfailed, hop⟩ := Tx.op_failed h
  refine ⟨hfailed, ?_⟩
  have heq : upsertOne float64 ok value tx = _ := hop
  rw [heq] at h ⊢
  by_cases hdp : value.deletePrefix = []
  · simp only [hdp, if_true]
    have hno : ∀ doc, ¬ value.Drops doc := fun doc hd => hd.1 hdp
    refine ⟨fun id => ?_, rfl, fun id => ?_, rfl, ?_⟩
    · cases hl : (tx.rows.insert value.keyPeerId (value.anyEnc float64)).lookup id with
      | none => exact hl
      | some doc =>
        rw [Option.filter_some, if_pos (by simpa using hno doc)]
        exact hl
    · simp [hno]
    · simp [KeyValue.mark, hdp]
  · simp only [hdp, if_false] at h ⊢
    obtain ⟨-, hlookup, helements, hremoved, happlied, hwatermarks⟩ :=
      applyWatermark_spec hdp hkeyed.insert h
    exact ⟨hlookup, helements, hremoved, happlied, hwatermarks⟩

theorem Wrote.of_recordPre {id : GoString} {el : Option Element} {n : ℕ} {failed : Bool}
    (h : Wrote float64 ⟨tx.rows, tx.res.recordPre id el, n, failed⟩ tx' value) :
    Wrote float64 tx tx' value where
  lookup := h.lookup
  elements := by simpa using h.elements
  removed := by simpa using h.removed
  applied := by simpa using h.applied
  watermarks := by simpa using h.watermarks

/-- A value is covered, or it is not newer than the row, or it is applied. -/
theorem updateValue_cases {watermarks : Watermarks} (hkeyed : Keyed tx.rows)
    (h : (updateValue float64 ok watermarks tx value).failed = false) :
    tx.failed = false ∧
      ((covered watermarks tx.res value.key value.timestampMicro = true ∧
          updateValue float64 ok watermarks tx value = tx) ∨
        (covered watermarks tx.res value.key value.timestampMicro = false ∧
          (∃ doc, tx.rows.lookup value.keyPeerId = some doc ∧ value.timestampMicro ≤ doc.t) ∧
          updateValue float64 ok watermarks tx value = { tx with used := tx.used + 1 }) ∨
        (covered watermarks tx.res value.key value.timestampMicro = false ∧
          (∀ doc, tx.rows.lookup value.keyPeerId = some doc → doc.t < value.timestampMicro) ∧
          Wrote float64 tx (updateValue float64 ok watermarks tx value) value)) := by
  unfold updateValue at h ⊢
  -- the order of the checks is that of the source
  by_cases hcov : covered watermarks tx.res value.key value.timestampMicro = true
  · rw [if_pos (.inr hcov)] at h ⊢
    exact ⟨h, .inl ⟨hcov, rfl⟩⟩
  by_cases hfail : tx.failed = true
  · rw [if_pos (.inl hfail), hfail] at h
    cases h
  have hskip : ¬ (tx.failed = true ∨ covered watermarks tx.res value.key value.timestampMicro) :=
    not_or.mpr ⟨hfail, hcov⟩
  rw [if_neg hskip] at h ⊢
  obtain ⟨hfailed, hop⟩ := Tx.op_failed h
  rw [hop] at h ⊢
  refine ⟨hfailed, .inr ?_⟩
  have hcov' : covered watermarks tx.res value.key value.timestampMicro = false := by
    simpa using hcov
  cases hlookup : tx.rows.lookup value.keyPeerId with
  | none =>
    simp only [hlookup] at h ⊢
    obtain ⟨-, hwrote⟩ := wrote_upsertOne h hkeyed
    exact .inr ⟨hcov', fun doc hdoc => (by cases hdoc), hwrote.of_recordPre⟩
  | some doc =>
    simp only [hlookup] at h ⊢
    by_cases ht : doc.t ≥ value.timestampMicro
    · rw [if_pos ht]
      exact .inl ⟨hcov', ⟨doc, rfl, ht⟩, rfl⟩
    · rw [if_neg ht] at h ⊢
      obtain ⟨-, hwrote⟩ := wrote_upsertOne h hkeyed
      refine .inr ⟨hcov', fun doc' hdoc' => ?_, hwrote.of_recordPre⟩
      exact Option.some.inj hdoc' ▸ not_le.mp ht

/-! ## The state before a call -/

/-- The rows and the result of a call, which started on `rows₀`: the ids that were touched are
recorded with the element they had. -/
structure PreOk (float64 : ℤ → ℤ) (rows₀ rows : Rows) (res : UpdateResult) : Prop where
  keyed : Keyed rows
  recorded : ∀ id pre, res.preState.lookup id = some pre →
    pre = (rows₀.lookup id).map anyEncToElement
  untouched : ∀ id, res.preState.lookup id = none → rows.lookup id = rows₀.lookup id
  elements : ∀ el ∈ res.elements, (res.preState.lookup el.id).isSome
  removed : ∀ el ∈ res.removed, (res.preState.lookup el.id).isSome
  applied : res.elements = res.applied.map fun value => anyEncToElement (value.anyEnc float64)

/-- At the start of a call nothing is recorded. -/
theorem preOk_empty (h : Keyed rows) : PreOk float64 rows rows .empty where
  keyed := h
  recorded := by
    intro id pre hpre
    cases hpre
  untouched _ _ := rfl
  elements := by
    intro el hel
    cases hel
  removed := by
    intro el hel
    cases hel
  applied := rfl

/-- If nothing is recorded then nothing was applied or removed. -/
theorem PreOk.of_isEmpty {rows₀ : Rows} {res : UpdateResult} (h : PreOk float64 rows₀ rows res)
    (hempty : res.preState.entries = []) : res.applied = [] ∧ res.removed = [] := by
  have hnone : ∀ id, ¬ (res.preState.lookup id).isSome := by
    intro id hsome
    obtain ⟨pre, hlookup⟩ := Option.isSome_iff_exists.mp hsome
    have hmem := GoMap.lookup_eq_some_iff.mp hlookup
    rw [hempty] at hmem
    cases hmem
  have helements : res.elements = [] :=
    List.eq_nil_iff_forall_not_mem.mpr fun el hel => hnone _ (h.elements el hel)
  refine ⟨?_, List.eq_nil_iff_forall_not_mem.mpr fun el hel => hnone _ (h.removed el hel)⟩
  have happlied := h.applied
  rwa [helements, eq_comm, List.map_eq_nil_iff] at happlied

section PreState

variable {rows₀ : Rows}
variable {res : UpdateResult} {id id' : GoString} {el : Option Element} {rows : Rows}
  {acc : Tx × List GoString} {watermarks : Watermarks} {values : List KeyValue}

/-- The first record of an id stays. -/
theorem lookup_recordPre :
    (res.recordPre id el).preState.lookup id' =
      if id' = id ∧ res.preState.lookup id = none then some el else res.preState.lookup id' := by
  unfold recordPre
  cases hid : res.preState.lookup id with
  | none => simp [GoMap.lookup_insert_eq]
  | some pre => simp

theorem isSome_recordPre :
    ((res.recordPre id el).preState.lookup id').isSome ↔
      id' = id ∨ (res.preState.lookup id').isSome := by
  rw [lookup_recordPre]
  by_cases hid : id' = id
  · subst hid
    cases res.preState.lookup id' <;> simp
  · simp [hid]

/-- The record is what the row was before the call. -/
theorem PreOk.recordPre (h : PreOk float64 rows₀ rows res)
    (hel : el = (rows.lookup id).map anyEncToElement) :
    PreOk float64 rows₀ rows (res.recordPre id el) where
  keyed := h.keyed
  recorded := by
    intro id' pre hpre
    rw [lookup_recordPre] at hpre
    split at hpre
    · next hid =>
      -- the id is touched for the first time
      obtain rfl := Option.some.inj hpre
      rw [hel, hid.1, h.untouched id hid.2]
    · exact h.recorded id' pre hpre
  untouched := by
    intro id' hnone
    rw [lookup_recordPre] at hnone
    split at hnone
    · cases hnone
    · exact h.untouched id' hnone
  elements := by
    intro el' hel'
    rw [recordPre_elements] at hel'
    exact isSome_recordPre.mpr (.inr (h.elements el' hel'))
  removed := by
    intro el' hel'
    rw [recordPre_removed] at hel'
    exact isSome_recordPre.mpr (.inr (h.removed el' hel'))
  applied := by simpa using h.applied

/-- An operation that may fail. -/
theorem PreOk.op {next : Tx → Tx} (h : PreOk float64 rows₀ tx.rows tx.res)
    (hnext : PreOk float64 rows₀ (next { tx with used := tx.used + 1 }).rows
      (next { tx with used := tx.used + 1 }).res) :
    PreOk float64 rows₀ (tx.op ok next).rows (tx.op ok next).res := by
  unfold Tx.op
  split_ifs
  · exact h
  · exact hnext
  · exact h

/-- The scan records a row before it is dropped. -/
theorem PreOk.visitDoc {doc : Doc} (h : PreOk float64 rows₀ acc.1.rows acc.1.res)
    (hdoc : acc.1.rows.lookup doc.id = some doc)
    (hdrop : ∀ id ∈ acc.2, (acc.1.res.preState.lookup id).isSome) :
    PreOk float64 rows₀ (visitDoc ok wm acc doc).1.rows (visitDoc ok wm acc doc).1.res ∧
      (visitDoc ok wm acc doc).1.rows = acc.1.rows ∧
      ∀ id ∈ (visitDoc ok wm acc doc).2,
        ((visitDoc ok wm acc doc).1.res.preState.lookup id).isSome := by
  unfold InnerStorage.visitDoc
  split_ifs
  · exact ⟨h, rfl, hdrop⟩
  · exact ⟨h, rfl, hdrop⟩
  · exact ⟨h, rfl, hdrop⟩
  · have hpre : PreOk float64 rows₀ acc.1.rows
        (acc.1.res.recordPre doc.id (some (anyEncToElement doc))) :=
      h.recordPre (by rw [hdoc, Option.map_some])
    refine ⟨⟨hpre.keyed, hpre.recorded, hpre.untouched, hpre.elements, fun el hel => ?_,
      hpre.applied⟩, rfl, fun id hid => ?_⟩
    · rcases List.mem_append.mp hel with hel | hel
      · exact hpre.removed el hel
      · obtain rfl := List.mem_singleton.mp hel
        exact isSome_recordPre.mpr (.inl rfl)
    · rcases List.mem_append.mp hid with hid | hid
      · exact isSome_recordPre.mpr (.inr (hdrop id hid))
      · obtain rfl := List.mem_singleton.mp hid
        exact isSome_recordPre.mpr (.inl rfl)
  · exact ⟨h, rfl, hdrop⟩

variable (ok wm) in
theorem PreOk.foldl_visitDoc {docs : List Doc} (h : PreOk float64 rows₀ acc.1.rows acc.1.res)
    (hdocs : ∀ doc ∈ docs, acc.1.rows.lookup doc.id = some doc)
    (hdrop : ∀ id ∈ acc.2, (acc.1.res.preState.lookup id).isSome) :
    PreOk float64 rows₀ (docs.foldl (InnerStorage.visitDoc ok wm) acc).1.rows
        (docs.foldl (InnerStorage.visitDoc ok wm) acc).1.res ∧
      ∀ id ∈ (docs.foldl (InnerStorage.visitDoc ok wm) acc).2,
        ((docs.foldl (InnerStorage.visitDoc ok wm) acc).1.res.preState.lookup id).isSome := by
  induction docs generalizing acc with
  | nil => exact ⟨h, hdrop⟩
  | cons doc docs ih =>
    obtain ⟨h, hrows, hdrop⟩ := h.visitDoc (hdocs doc List.mem_cons_self) hdrop
    refine ih h (fun doc' hdoc' => ?_) hdrop
    rw [hrows]
    exact hdocs doc' (List.mem_cons_of_mem _ hdoc')

variable (ok) in
theorem PreOk.foldl_deleteId {ids : List GoString} (h : PreOk float64 rows₀ tx.rows tx.res)
    (hids : ∀ id ∈ ids, (tx.res.preState.lookup id).isSome) :
    PreOk float64 rows₀ (ids.foldl (deleteId ok) tx).rows (ids.foldl (deleteId ok) tx).res := by
  induction ids generalizing tx with
  | nil => exact h
  | cons id ids ih =>
    have hres : (deleteId ok tx id).res = tx.res := by
      unfold deleteId Tx.op
      split_ifs <;> rfl
    have hdel : PreOk float64 rows₀ (tx.rows.erase id) tx.res := by
      refine ⟨fun id' doc hdoc => ?_, h.recorded, fun id' hnone => ?_, h.elements, h.removed,
        h.applied⟩
      · rw [GoMap.lookup_erase_eq] at hdoc
        split at hdoc
        · cases hdoc
        · exact h.keyed id' doc hdoc
      · have hne : id' ≠ id := by
          rintro rfl
          have hsome := hids id' List.mem_cons_self
          rw [hnone] at hsome
          cases hsome
        rw [GoMap.lookup_erase_eq, if_neg hne, h.untouched id' hnone]
    refine ih (h.op hdel) fun id' hid' => ?_
    rw [hres]
    exact hids id' (List.mem_cons_of_mem _ hid')

/-- A whole watermark, also if an operation of it fails. -/
theorem PreOk.applyWatermark (h : PreOk float64 rows₀ tx.rows tx.res) :
    PreOk float64 rows₀ (applyWatermark ok tx wm).rows (applyWatermark ok tx wm).res := by
  refine h.op ?_
  have hdocs : ∀ doc ∈ iterateIdPrefix tx.rows wm.deletePrefix,
      tx.rows.lookup doc.id = some doc := by
    intro doc hdoc
    obtain ⟨⟨id, hlookup⟩, -⟩ := mem_iterateIdPrefix.mp hdoc
    rwa [h.keyed id doc hlookup]
  set acc : Tx × List GoString := ({ tx with used := tx.used + 1 }, [])
  have hnil : ∀ id ∈ acc.2, (acc.1.res.preState.lookup id).isSome := by
    intro id hid
    cases hid
  obtain ⟨hvisit, hdrop⟩ := PreOk.foldl_visitDoc ok wm h hdocs hnil
  have hdel := hvisit.foldl_deleteId ok hdrop
  simp only
  split
  · exact hdel
  · exact ⟨hdel.keyed, hdel.recorded, hdel.untouched, hdel.elements, hdel.removed, hdel.applied⟩

theorem PreOk.upsertOne (h : PreOk float64 rows₀ tx.rows tx.res)
    (htouched : (tx.res.preState.lookup value.keyPeerId).isSome) :
    PreOk float64 rows₀ (upsertOne float64 ok value tx).rows
      (upsertOne float64 ok value tx).res := by
  refine h.op ?_
  set res : UpdateResult := { tx.res with
    elements := tx.res.elements ++ [anyEncToElement (value.anyEnc float64)]
    applied := tx.res.applied ++ [value] } with hres
  have hpre : PreOk float64 rows₀ (tx.rows.insert value.keyPeerId (value.anyEnc float64)) res := by
    refine ⟨h.keyed.insert, h.recorded, fun id hnone => ?_, fun el hel => ?_, h.removed, ?_⟩
    · have hne : id ≠ value.keyPeerId := by
        rintro rfl
        rw [hres] at hnone
        rw [hnone] at htouched
        cases htouched
      rw [GoMap.lookup_insert_eq, if_neg hne, h.untouched id hnone]
    · rcases List.mem_append.mp hel with hel | hel
      · exact h.elements el hel
      · obtain rfl := List.mem_singleton.mp hel
        exact htouched
    · simp only [hres, List.map_append, h.applied, List.map_cons, List.map_nil]
  simp only
  split_ifs
  · exact hpre
  · exact PreOk.applyWatermark hpre

/-- The step of the loop keeps the record, also when an operation fails. -/
theorem PreOk.updateValue (h : PreOk float64 rows₀ tx.rows tx.res) :
    PreOk float64 rows₀ (updateValue float64 ok watermarks tx value).rows
      (updateValue float64 ok watermarks tx value).res := by
  unfold InnerStorage.updateValue
  split_ifs
  · exact h
  refine h.op ?_
  simp only
  split
  · next doc hlookup =>
    have hid : doc.id = value.keyPeerId := h.keyed _ doc hlookup
    split_ifs
    · exact h
    · refine PreOk.upsertOne ?_ (isSome_recordPre.mpr (.inl hid.symm))
      refine h.recordPre ?_
      change _ = (tx.rows.lookup doc.id).map anyEncToElement
      rw [hid, hlookup, Option.map_some]
  · next hlookup =>
    refine PreOk.upsertOne ?_ (isSome_recordPre.mpr (.inl rfl))
    exact h.recordPre (by rw [hlookup, Option.map_none])

/-- A whole batch, wherever it fails. -/
theorem PreOk.foldl_updateValue (h : PreOk float64 rows₀ tx.rows tx.res) :
    PreOk float64 rows₀ (values.foldl (InnerStorage.updateValue float64 ok watermarks) tx).rows
      (values.foldl (InnerStorage.updateValue float64 ok watermarks) tx).res := by
  induction values generalizing tx with
  | nil => exact h
  | cons value values ih => exact ih h.updateValue

/-- What a call records, wherever it stops. -/
theorem preOk_updateValues (h : Keyed rows) :
    PreOk float64 rows (updateValues float64 ok rows watermarks values).rows
      (updateValues float64 ok rows watermarks values).res :=
  PreOk.foldl_updateValue (preOk_empty h)

end PreState

/-! ## Calls without failures -/

section Ok

variable {watermarks : Watermarks}

section

variable (hok : ∀ n, ok n = true)

include hok

theorem Tx.failed_op {next : Tx → Tx} (htx : tx.failed = false)
    (hnext : (next { tx with used := tx.used + 1 }).failed = false) :
    (tx.op ok next).failed = false := by
  unfold Tx.op
  rw [if_neg (by simp [htx]), if_pos (hok _)]
  exact hnext

theorem failed_foldl_visitDoc {docs : List Doc} {acc : Tx × List GoString}
    (h : acc.1.failed = false) : (docs.foldl (visitDoc ok wm) acc).1.failed = false := by
  induction docs generalizing acc with
  | nil => exact h
  | cons doc docs ih =>
    refine ih ?_
    unfold visitDoc
    rw [if_neg (by simp [h]), if_neg (by simp [hok])]
    split_ifs <;> exact h

theorem failed_foldl_deleteId {ids : List GoString} (h : tx.failed = false) :
    (ids.foldl (deleteId ok) tx).failed = false := by
  induction ids generalizing tx with
  | nil => exact h
  | cons id ids ih => exact ih (Tx.failed_op hok h h)

theorem failed_applyWatermark (h : tx.failed = false) :
    (applyWatermark ok tx wm).failed = false := by
  refine Tx.failed_op hok h ?_
  set acc : Tx × List GoString := ({ tx with used := tx.used + 1 }, [])
  have hvisit : ((iterateIdPrefix tx.rows wm.deletePrefix).foldl (visitDoc ok wm) acc).1.failed =
      false := failed_foldl_visitDoc hok h
  simp only
  split
  · next hfailed => exact absurd (failed_foldl_deleteId hok hvisit) (by simpa using hfailed)
  · exact failed_foldl_deleteId hok hvisit

theorem failed_upsertOne (h : tx.failed = false) :
    (upsertOne float64 ok value tx).failed = false := by
  refine Tx.failed_op hok h ?_
  simp only
  split
  · exact h
  · exact failed_applyWatermark hok h

theorem failed_updateValue (h : tx.failed = false) :
    (updateValue float64 ok watermarks tx value).failed = false := by
  unfold updateValue
  split
  · exact h
  · refine Tx.failed_op hok h ?_
    simp only
    split
    · split
      · exact h
      · exact failed_upsertOne hok h
    · exact failed_upsertOne hok h

/-- If no operation fails, a batch does not. -/
theorem failed_updateValues {rows : Rows} {values : List KeyValue} :
    (updateValues float64 ok rows watermarks values).failed = false := by
  have hfold : ∀ (values : List KeyValue) (tx : Tx), tx.failed = false →
      (values.foldl (updateValue float64 ok watermarks) tx).failed = false := by
    intro values
    induction values with
    | nil => exact fun _ h => h
    | cons value values ih => exact fun tx h => ih _ (failed_updateValue hok h)
  exact hfold values _ rfl

end

/-- A call without failures commits, and returns what it applied. -/
theorem set_of_ok (H : Hashing) (fuel : ℕ) (float64 : ℤ → ℤ) {st : Storage} (values : List KeyValue)
    (ord : RangeOrder) (hok : ∀ n, ok n = true) (hkeyed : Keyed st.rows) :
    let tx := updateValues float64 ok st.rows st.watermarks values
    (st.set H fuel float64 values ok ord).1.rows = tx.rows ∧
      (st.set H fuel float64 values ok ord).1.watermarks =
        publish st.watermarks tx.res.watermarks ∧
      (st.set H fuel float64 values ok ord).2.map (·.applied) = some tx.res.applied := by
  intro tx
  have hfailed : tx.failed = false := failed_updateValues hok
  have hpre : PreOk float64 st.rows tx.rows tx.res := preOk_updateValues hkeyed
  unfold Storage.set
  simp only [hok, Bool.true_eq_false, if_false, if_true]
  simp only [show updateValues float64 ok st.rows st.watermarks values = tx from rfl, hfailed,
    Bool.false_eq_true, if_false]
  split
  · next hempty =>
    have happlied := (hpre.of_isEmpty (List.isEmpty_iff.mp hempty)).1
    exact ⟨rfl, rfl, by rw [happlied]; rfl⟩
  · exact ⟨rfl, rfl, rfl⟩

end Ok

end Steps

end InnerStorage
