import AnySync.KeyValue.Call
import Mathlib.Data.List.SplitBy

/-!
# Iterating over keys

`Iterate` of the key-value storage goes over the rows in the order of their ids and hands the rows
of one key to its callback, a run of rows with equal keys at a time. An id is the key, a dash and
the peer id, so the rows of a key need not be neighbours: the rows of the key `a-p` lie between
those that the peers `p` and `q` have written under the key `a`.

The main result is `iterate_deliversOnce_iff`.
-/

namespace InnerStorage

open Ldiff
open List (mem_cons_self foldl_cons flatten_cons filter_append mem_append exists_mem_of_ne_nil)

/-! ## The loop -/

/-- `keyValueFromDoc`. -/
def keyValueFromDoc (doc : Doc) : KeyValue where
  keyPeerId := doc.id
  readKeyId := doc.r
  key := doc.k
  value := doc.v
  timestampMicro := doc.t
  identity := doc.i
  peerId := doc.p
  aclId := []
  deletePrefix := doc.dp

/-- The values that `IterateValues` visits, in the order of their ids. -/
def iterateValues (rows : Rows) : List KeyValue :=
  ((rows.entries.map (·.2)).insertionSort fun a b => a.id ≤ b.id).map keyValueFromDoc

/-- What a callback answers. -/
inductive Answer
  | goOn
  | stop
  | fail
deriving DecidableEq, Repr

/-- The variables of `Iterate`, the calls it has made and the answer that ended the loop. -/
structure Iteration where
  curKey : GoString
  values : List KeyValue
  calls : List (GoString × List KeyValue)
  answer : Answer

section Loop

variable (f : GoString → List KeyValue → Answer)

/-- The function that `Iterate` passes to `IterateValues`. -/
def visitValue (s : Iteration) (kv : KeyValue) : Iteration :=
  if s.answer ≠ .goOn ∨ kv.deletePrefix ≠ [] then s
  else if kv.key = s.curKey then { s with values := s.values ++ [kv] }
  else if s.curKey = [] then { s with curKey := kv.key, values := [kv] }
  else
    let calls := s.calls ++ [(s.curKey, s.values)]
    match f s.curKey s.values with
    | .goOn => { s with curKey := kv.key, values := [kv], calls := calls }
    | .stop => { s with values := [], calls := calls, answer := .stop }
    | .fail => { s with calls := calls, answer := .fail }

/-- `Iterate`: the calls of the callback. -/
def iterate (rows : Rows) : List (GoString × List KeyValue) :=
  let s := (iterateValues rows).foldl (visitValue f) ⟨[], [], [], .goOn⟩
  if s.answer = .fail ∨ s.values = [] then s.calls else s.calls ++ [(s.curKey, s.values)]

end Loop

/-- The regular rows, in the order of their ids. -/
def regularRows (rows : Rows) : List KeyValue :=
  (iterateValues rows).filter (·.deletePrefix = [])

/-- The regular rows of a key. -/
def rowsOf (rows : Rows) (key : GoString) : List KeyValue :=
  (regularRows rows).filter (·.key = key)

/-- The callback is called once for every key that has a regular row, with all its regular rows. -/
def DeliversOnce (rows : Rows) (calls : List (GoString × List KeyValue)) : Prop :=
  ∀ key, (rowsOf rows key = [] → ∀ call ∈ calls, call.1 ≠ key) ∧
    (rowsOf rows key ≠ [] → ∃ values, calls.filter (·.1 = key) = [(key, values)] ∧
      values.Perm (rowsOf rows key))

/-- Between two rows of a key there is no row of another key, and the rows of the empty key come
last. -/
structure Grouped (rows : Rows) : Prop where
  between : ∀ a ∈ regularRows rows, ∀ b ∈ regularRows rows, ∀ c ∈ regularRows rows,
    a.key = c.key → a.keyPeerId < b.keyPeerId → b.keyPeerId < c.keyPeerId → b.key = a.key
  empty_last : ∀ a ∈ regularRows rows, ∀ b ∈ regularRows rows,
    a.key = [] → b.key ≠ [] → b.keyPeerId < a.keyPeerId

/-! ## Runs -/

/-- The runs of values with equal keys. -/
def runs (l : List KeyValue) : List (List KeyValue) := l.splitBy fun a b => a.key = b.key

/-- The key of a run. -/
def runKey (run : List KeyValue) : GoString := (run.head?.map (·.key)).getD []

section Runs

variable {l : List KeyValue} {run : List KeyValue} {v : KeyValue}
variable {R : List (List KeyValue)}

theorem runKey_singleton (v : KeyValue) : runKey [v] = v.key := rfl

theorem key_eq_of_isChain (h : run.IsChain fun a b => decide (a.key = b.key) = true)
    (hv : v ∈ run) : v.key = runKey run := by
  induction run with
  | nil => cases hv
  | cons a run ih =>
    rcases List.mem_cons.mp hv with rfl | hv
    · rfl
    · rw [List.isChain_cons] at h
      rw [ih h.2 hv]
      cases run with
      | nil => cases hv
      | cons b run =>
        have hab := h.1 b rfl
        exact (of_decide_eq_true hab).symm

theorem key_of_mem_run (hrun : run ∈ runs l) (hv : v ∈ run) : v.key = runKey run :=
  key_eq_of_isChain (List.isChain_of_mem_splitBy hrun) hv

theorem run_ne_nil (hrun : run ∈ runs l) : run ≠ [] := List.ne_nil_of_mem_splitBy hrun

theorem flatten_runs (l : List KeyValue) : (runs l).flatten = l := List.flatten_splitBy _ l

/-- Neighbouring runs have different keys. -/
theorem isChain_runs (l : List KeyValue) : (runs l).IsChain fun a b => runKey a ≠ runKey b := by
  have hchain := List.isChain_getLast_head_splitBy (fun a b : KeyValue => a.key = b.key) l
  refine (List.IsChain.imp_of_mem_imp ?_ hchain)
  rintro a b ha hb ⟨hane, hbne, hab⟩ heq
  rw [decide_eq_false_iff_not, key_of_mem_run ha (List.getLast_mem hane),
    key_of_mem_run hb (List.head_mem hbne)] at hab
  exact hab heq

/-- The values of a key are those of the runs with the key. -/
theorem filter_key_eq (l : List KeyValue) (key : GoString) :
    l.filter (·.key = key) = ((runs l).filter (runKey · = key)).flatten := by
  have hflat : ∀ R : List (List KeyValue), (∀ run ∈ R, ∀ v ∈ run, v.key = runKey run) →
      R.flatten.filter (·.key = key) = (R.filter (runKey · = key)).flatten := by
    intro R hR
    induction R with
    | nil => rfl
    | cons run R ih =>
      obtain ⟨hrun, hR⟩ := List.forall_mem_cons.mp hR
      rw [flatten_cons, filter_append, ih hR]
      by_cases hkey : runKey run = key
      · have hall : run.filter (·.key = key) = run := by
          rw [List.filter_eq_self]
          intro v hv
          simpa [hrun v hv] using hkey
        rw [List.filter_cons_of_pos (by simpa using hkey), flatten_cons, hall]
      · have hnone : run.filter (·.key = key) = [] := by
          rw [List.filter_eq_nil_iff]
          intro v hv
          simpa [hrun v hv] using hkey
        rw [List.filter_cons_of_neg (by simpa using hkey), hnone, List.nil_append]
  conv_lhs => rw [← flatten_runs l]
  exact hflat (runs l) fun run hrun v hv => key_of_mem_run hrun hv

/-- A value with the key of the last run joins it. -/
theorem runs_append_of_eq (h : runs l = R ++ [run]) (hv : v.key = runKey run) :
    runs (l ++ [v]) = R ++ [run ++ [v]] := by
  obtain ⟨hflat, hnil, hchain, hnext⟩ := List.splitBy_eq_iff.mp h
  have hrun : run ∈ runs l := by simp [h]
  have hne : run ≠ [] := run_ne_nil hrun
  refine List.splitBy_eq_iff.mpr ⟨?_, ?_, ?_, ?_⟩
  · simp [hflat]
  · simpa [hne] using hnil
  · intro m hm
    rcases List.mem_append.mp hm with hm | hm
    · exact hchain m (List.mem_append_left _ hm)
    · obtain rfl := List.mem_singleton.mp hm
      refine List.isChain_append.mpr ⟨hchain run (by simp), List.isChain_singleton v, ?_⟩
      intro x hx y hy
      obtain rfl := Option.some.inj hy
      simpa [key_of_mem_run hrun (List.mem_of_mem_getLast? hx)] using hv.symm
  · rw [List.isChain_append] at hnext ⊢
    refine ⟨hnext.1, List.isChain_singleton _, fun x hx y hy => ?_⟩
    obtain rfl := Option.some.inj hy
    obtain ⟨hx', hrun', hlast⟩ := hnext.2.2 x hx run rfl
    exact ⟨hx', by simp, by rwa [List.head_append_of_ne_nil hrun']⟩

/-- A value with another key starts a run. -/
theorem runs_append_of_ne (h : runs l = R ++ [run]) (hv : v.key ≠ runKey run) :
    runs (l ++ [v]) = R ++ [run] ++ [[v]] := by
  have hrun : run ∈ runs l := by simp [h]
  have hlast : ∀ x ∈ l.getLast?, decide (x.key = v.key) = false := by
    intro x hx
    have hl : l = R.flatten ++ run := by
      rw [← flatten_runs l, h]
      simp
    rw [hl, List.getLast?_append_of_ne_nil _ (run_ne_nil hrun)] at hx
    rw [decide_eq_false_iff_not, key_of_mem_run hrun (List.mem_of_mem_getLast? hx)]
    exact fun heq => hv heq.symm
  have happend := List.splitBy_append_cons (r := fun a b : KeyValue => a.key = b.key) [] hlast
  exact happend.trans (congrArg (· ++ [[v]]) h)

end Runs

/-! ## What the loop does -/

section Calls

variable {f : GoString → List KeyValue → Answer} {l : List KeyValue}

/-- The call for a run. -/
def callOf (run : List KeyValue) : GoString × List KeyValue := (runKey run, run)

/-- The variables of the loop after the regular values `l`, for a callback that always continues:
all runs but the last one are closed, and those of the empty key were not delivered. -/
inductive After : List KeyValue → Iteration → Prop
  | start : After [] ⟨[], [], [], .goOn⟩
  | run {l : List KeyValue} {R : List (List KeyValue)} {values : List KeyValue}
      (runs_eq : runs l = R ++ [values]) :
      After l ⟨runKey values, values, (R.filter (runKey · ≠ [])).map callOf, .goOn⟩

theorem After.visitValue {s : Iteration} {v : KeyValue} (h : After l s)
    (hgo : ∀ key values, f key values = .goOn) (hv : v.deletePrefix = []) :
    After (l ++ [v]) (visitValue f s v) := by
  cases h with
  | start =>
    have hstart : InnerStorage.visitValue f ⟨[], [], [], .goOn⟩ v = ⟨v.key, [v], [], .goOn⟩ := by
      by_cases hkey : v.key = [] <;> simp [InnerStorage.visitValue, hv, hkey]
    rw [hstart]
    have hone : runs [v] = [] ++ [[v]] := rfl
    exact .run hone
  | @run _ R values hruns =>
    by_cases hkey : v.key = runKey values
    · have hjoin := After.run (runs_append_of_eq hruns hkey)
      have hne : values ≠ [] := run_ne_nil (l := l) (by simp [hruns])
      have hsame : runKey (values ++ [v]) = runKey values := by
        rw [runKey, runKey, List.head?_append_of_ne_nil _ hne]
      rw [hsame] at hjoin
      simpa [InnerStorage.visitValue, hv, hkey] using hjoin
    · have hclose := After.run (runs_append_of_ne hruns hkey)
      by_cases hempty : runKey values = []
      · rw [hempty] at hkey
        simpa [InnerStorage.visitValue, hv, hkey, hempty, runKey_singleton] using hclose
      · simpa [InnerStorage.visitValue, hv, hkey, hempty, hgo, runKey_singleton, callOf]
          using hclose

theorem foldl_visitValue_filter (l : List KeyValue) (s : Iteration) :
    l.foldl (visitValue f) s = (l.filter (·.deletePrefix = [])).foldl (visitValue f) s := by
  induction l generalizing s with
  | nil => rfl
  | cons v l ih =>
    by_cases hv : v.deletePrefix = []
    · rw [List.filter_cons_of_pos (by simpa using hv), foldl_cons, foldl_cons, ih]
    · have hskip : visitValue f s v = s := if_pos (.inr hv)
      rw [List.filter_cons_of_neg (by simpa using hv), foldl_cons, hskip, ih]

theorem after_foldl (hgo : ∀ key values, f key values = .goOn) (hl : ∀ v ∈ l, v.deletePrefix = []) :
    After l (l.foldl (visitValue f) ⟨[], [], [], .goOn⟩) := by
  induction l using List.reverseRecOn with
  | nil => exact .start
  | append_singleton l v ih =>
    rw [List.foldl_append]
    obtain ⟨hl, hv⟩ := List.forall_mem_append.mp hl
    exact (ih hl).visitValue hgo (hv v mem_cons_self)

/-- The runs that are delivered: all of a key that is not empty, and the last one. -/
def delivered (R : List (List KeyValue)) : List (List KeyValue) :=
  R.dropLast.filter (runKey · ≠ []) ++ R.getLast?.toList

/-- A callback that always continues is called for the delivered runs of the regular rows. -/
theorem iterate_eq (hgo : ∀ key values, f key values = .goOn) (rows : Rows) :
    iterate f rows = (delivered (runs (regularRows rows))).map callOf := by
  have hafter := after_foldl hgo (l := regularRows rows) fun v hv => by
    simpa using (List.mem_filter.mp hv).2
  have hfold : (iterateValues rows).foldl (visitValue f) ⟨[], [], [], .goOn⟩ =
      (regularRows rows).foldl (visitValue f) ⟨[], [], [], .goOn⟩ := foldl_visitValue_filter _ _
  simp only [iterate, hfold]
  generalize (regularRows rows).foldl (visitValue f) ⟨[], [], [], .goOn⟩ = s at hafter
  generalize regularRows rows = l at hafter
  cases hafter with
  | start => rfl
  | @run _ R values hruns =>
    have hne : values ≠ [] := run_ne_nil (l := l) (by simp [hruns])
    simp [hruns, hne, delivered, callOf]

end Calls

/-! ## Order -/

theorem regularRows_sorted {rows : Rows} (hkeyed : Keyed rows) :
    (regularRows rows).Pairwise fun a b => a.keyPeerId < b.keyPeerId := by
  have : Std.Total fun a b : Doc => a.id ≤ b.id := ⟨fun a b => le_total a.id b.id⟩
  have : IsTrans Doc fun a b => a.id ≤ b.id := ⟨fun _ _ _ => le_trans⟩
  set docs := (rows.entries.map (·.2)).insertionSort fun a b => a.id ≤ b.id with hdocs
  have hsorted : docs.Pairwise fun a b => a.id ≤ b.id := List.pairwise_insertionSort _ _
  have hids : (rows.entries.map (·.2)).map (·.id) = rows.entries.map (·.1) := by
    rw [List.map_map]
    refine List.map_congr_left fun row hrow => ?_
    exact hkeyed row.1 row.2 (GoMap.lookup_eq_some_iff.mpr hrow)
  have hnodup : (docs.map (·.id)).Nodup := by
    rw [((List.perm_insertionSort _ _).map _).nodup_iff, hids]
    exact rows.nodupKeys
  have hlt : docs.Pairwise fun a b => a.id < b.id :=
    hsorted.imp₂ (fun _ _ => lt_of_le_of_ne) (List.pairwise_map.mp hnodup)
  refine List.Pairwise.filter _ ?_
  rw [iterateValues, List.pairwise_map]
  exact hlt

section Sorted

variable {l : List KeyValue} {A B : List (List KeyValue)} {run : List KeyValue}

/-- The values before a run are smaller than its values, and those behind it are greater. -/
theorem lt_of_runs_eq (hl : l.Pairwise fun a b => a.keyPeerId < b.keyPeerId)
    (h : runs l = A ++ run :: B) :
    (∀ a ∈ A.flatten, ∀ b ∈ run, a.keyPeerId < b.keyPeerId) ∧
      ∀ b ∈ run, ∀ c ∈ B.flatten, b.keyPeerId < c.keyPeerId := by
  rw [← flatten_runs l, h, List.flatten_append, flatten_cons, List.pairwise_append,
    List.pairwise_append] at hl
  refine ⟨fun a ha b hb => hl.2.2 a ha b (List.mem_append_left _ hb), hl.2.1.2.2⟩

/-- A value between two values of a run is in the run. -/
theorem mem_run_of_between (hl : l.Pairwise fun a b => a.keyPeerId < b.keyPeerId)
    (hrun : run ∈ runs l) {a b c : KeyValue} (ha : a ∈ run) (hc : c ∈ run) (hb : b ∈ l)
    (hab : a.keyPeerId < b.keyPeerId) (hbc : b.keyPeerId < c.keyPeerId) : b ∈ run := by
  obtain ⟨A, B, hruns⟩ := List.append_of_mem hrun
  obtain ⟨hbefore, hbehind⟩ := lt_of_runs_eq hl hruns
  rw [← flatten_runs l, hruns, List.flatten_append, flatten_cons, mem_append, mem_append] at hb
  rcases hb with hb | hb | hb
  · exact absurd (hbefore b hb a ha) (lt_asymm hab)
  · exact hb
  · exact absurd (hbehind c hc b hb) (lt_asymm hbc)

end Sorted

/-! ## The condition -/

section Grouped

variable {f : GoString → List KeyValue → Answer} {rows : Rows}

theorem dropLast_append_toList (R : List (List KeyValue)) :
    R.dropLast ++ R.getLast?.toList = R := by
  rcases List.eq_nil_or_concat R with rfl | ⟨R, run, rfl⟩
  · rfl
  · simp

theorem mem_delivered {R : List (List KeyValue)} {run : List KeyValue} (h : run ∈ delivered R) :
    run ∈ R ∧ (runKey run = [] → run ∈ R.getLast?) := by
  rcases List.mem_append.mp h with h | h
  · obtain ⟨hmem, hne⟩ := List.mem_filter.mp h
    exact ⟨(List.dropLast_sublist _).subset hmem, fun hempty => absurd hempty (by simpa using hne)⟩
  · rw [Option.mem_toList] at h
    exact ⟨List.mem_of_mem_getLast? h, fun _ => h⟩

/-- A key with rows is delivered as one run of all of them. -/
theorem DeliversOnce.exists_run (hgo : ∀ key values, f key values = .goOn)
    (h : DeliversOnce rows (iterate f rows)) {a : KeyValue} (ha : a ∈ regularRows rows) :
    ∃ run ∈ delivered (runs (regularRows rows)), runKey run = a.key ∧
      ∀ b ∈ regularRows rows, b.key = a.key → b ∈ run := by
  have hne : rowsOf rows a.key ≠ [] :=
    List.ne_nil_of_mem (List.mem_filter.mpr ⟨ha, by simp⟩)
  obtain ⟨values, hfilter, hperm⟩ := (h a.key).2 hne
  have hcall : (a.key, values) ∈ iterate f rows := by
    refine List.mem_of_mem_filter (p := (·.1 = a.key)) ?_
    rw [hfilter]
    exact mem_cons_self
  rw [iterate_eq hgo] at hcall
  obtain ⟨run, hrun, heq⟩ := List.mem_map.mp hcall
  obtain ⟨hkey, rfl⟩ := Prod.mk.inj heq
  refine ⟨run, hrun, hkey, fun b hb hbkey => hperm.mem_iff.mpr ?_⟩
  exact List.mem_filter.mpr ⟨hb, by simpa using hbkey⟩

theorem DeliversOnce.grouped (hgo : ∀ key values, f key values = .goOn) (hkeyed : Keyed rows)
    (h : DeliversOnce rows (iterate f rows)) : Grouped rows := by
  have hsorted := regularRows_sorted hkeyed
  constructor
  · intro a ha b hb c hc hac hab hbc
    obtain ⟨run, hrun, hkey, hall⟩ := h.exists_run hgo ha
    have hmem : run ∈ runs (regularRows rows) := (mem_delivered hrun).1
    have hbrun := mem_run_of_between hsorted hmem (hall a ha rfl) (hall c hc hac.symm) hb hab hbc
    rw [key_of_mem_run hmem hbrun, hkey]
  · intro a ha b hb hempty hne
    obtain ⟨run, hrun, hkey, hall⟩ := h.exists_run hgo ha
    obtain ⟨hmem, hlast⟩ := mem_delivered hrun
    -- the run of the empty key is the last one, so everything else lies before it
    obtain ⟨A, hruns⟩ := List.getLast?_eq_some_iff.mp (hlast (hkey.trans hempty))
    have hlt := (lt_of_runs_eq (B := []) hsorted hruns).1
    refine hlt b ?_ a (hall a ha rfl)
    rw [← flatten_runs (regularRows rows), hruns, List.flatten_append, mem_append] at hb
    refine hb.resolve_right fun hbrun => hne ?_
    rw [key_of_mem_run hmem (by simpa using hbrun), hkey, hempty]

/-- If rows of a key are not separated, the key has one run. -/
theorem Grouped.filter_runs (h : Grouped rows) (hkeyed : Keyed rows) {key : GoString}
    (hne : rowsOf rows key ≠ []) :
    (runs (regularRows rows)).filter (runKey · = key) = [rowsOf rows key] := by
  have hsorted := regularRows_sorted hkeyed
  have hflat : rowsOf rows key = ((runs (regularRows rows)).filter (runKey · = key)).flatten :=
    filter_key_eq _ _
  cases hR : (runs (regularRows rows)).filter (runKey · = key) with
  | nil =>
    rw [hR] at hflat
    exact absurd hflat hne
  | cons run R =>
    cases R with
    | nil =>
      rw [hR] at hflat
      simpa using hflat.symm
    | cons run' R =>
      exfalso
      -- two runs of one key: the run behind the first one has another key
      obtain ⟨A, rest, hruns, -, hkey, hrest⟩ := List.filter_eq_cons_iff.mp hR
      obtain ⟨mid, B, rfl, hmid, hkey', -⟩ := List.filter_eq_cons_iff.mp hrest
      have hkey : runKey run = key := by simpa using hkey
      have hkey' : runKey run' = key := by simpa using hkey'
      have hchain := isChain_runs (regularRows rows)
      rw [hruns] at hchain
      have hnext := (List.isChain_append.mp hchain).2.1
      cases mid with
      | nil =>
        exact (List.isChain_cons.mp hnext).1 run' rfl (hkey.trans hkey'.symm)
      | cons other mid =>
        have hother : runKey other ≠ key := by simpa using hmid other mem_cons_self
        have hmem : ∀ r, r ∈ run :: (other :: mid) ++ run' :: B →
            r ∈ runs (regularRows rows) := fun r hr => by
          rw [hruns]
          exact List.mem_append_right _ hr
        have hrun := hmem run (by simp)
        have hotherRun := hmem other (by simp)
        have hrun' := hmem run' (by simp)
        obtain ⟨a, ha⟩ := exists_mem_of_ne_nil _ (run_ne_nil hrun)
        obtain ⟨b, hb⟩ := exists_mem_of_ne_nil _ (run_ne_nil hotherRun)
        obtain ⟨c, hc⟩ := exists_mem_of_ne_nil _ (run_ne_nil hrun')
        have hrow : ∀ r ∈ runs (regularRows rows), ∀ v ∈ r, v ∈ regularRows rows := by
          intro r hr v hv
          rw [← flatten_runs (regularRows rows)]
          exact List.mem_flatten.mpr ⟨r, hr, hv⟩
        have hab := (lt_of_runs_eq hsorted hruns).2 a ha b
          (List.mem_flatten.mpr ⟨other, by simp, hb⟩)
        have hruns' : runs (regularRows rows) = (A ++ run :: other :: mid) ++ run' :: B := by
          simpa using hruns
        have hbc := (lt_of_runs_eq hsorted hruns').1 b
          (List.mem_flatten.mpr ⟨other, by simp, hb⟩) c hc
        have hkeys := h.between a (hrow _ hrun a ha) b (hrow _ hotherRun b hb) c
          (hrow _ hrun' c hc)
          (by rw [key_of_mem_run hrun ha, key_of_mem_run hrun' hc, hkey, hkey']) hab hbc
        rw [key_of_mem_run hotherRun hb, key_of_mem_run hrun ha, hkey] at hkeys
        exact hother hkeys

/-- The run of the empty key is the last one. -/
theorem Grouped.getLast?_runs (h : Grouped rows) (hkeyed : Keyed rows) (hne : rowsOf rows [] ≠ []) :
    (runs (regularRows rows)).getLast? = some (rowsOf rows []) := by
  have hfilter := h.filter_runs hkeyed hne
  obtain ⟨A, B, hruns, -, hkey, hB⟩ := List.filter_eq_cons_iff.mp hfilter
  cases B with
  | nil => simp [hruns]
  | cons other B =>
    exfalso
    have hother : runKey other ≠ [] := by
      simpa using List.filter_eq_nil_iff.mp hB other mem_cons_self
    have hrun : rowsOf rows [] ∈ runs (regularRows rows) := by simp [hruns]
    have hotherRun : other ∈ runs (regularRows rows) := by simp [hruns]
    obtain ⟨a, ha⟩ := exists_mem_of_ne_nil _ hne
    obtain ⟨b, hb⟩ := exists_mem_of_ne_nil _ (run_ne_nil hotherRun)
    have hbrow : b ∈ regularRows rows := by
      rw [← flatten_runs (regularRows rows)]
      exact List.mem_flatten.mpr ⟨other, hotherRun, hb⟩
    have hempty : a.key = [] := by simpa using (List.mem_filter.mp ha).2
    have hlt := h.empty_last a (List.mem_of_mem_filter ha) b hbrow hempty
      (by rwa [key_of_mem_run hotherRun hb])
    have hgt := (lt_of_runs_eq (regularRows_sorted hkeyed) hruns).2 a ha b
      (List.mem_flatten.mpr ⟨other, mem_cons_self, hb⟩)
    exact lt_asymm hlt hgt

theorem Grouped.deliversOnce (hgo : ∀ key values, f key values = .goOn) (hkeyed : Keyed rows)
    (h : Grouped rows) : DeliversOnce rows (iterate f rows) := by
  rw [iterate_eq hgo]
  intro key
  constructor
  · rintro hnone call hcall rfl
    obtain ⟨run, hrun, rfl⟩ := List.mem_map.mp hcall
    have hmem : run ∈ runs (regularRows rows) := (mem_delivered hrun).1
    have hflat : rowsOf rows (runKey run) =
        ((runs (regularRows rows)).filter (runKey · = runKey run)).flatten := filter_key_eq _ _
    have hnil : rowsOf rows (runKey run) = [] := hnone
    rw [hnil, eq_comm, List.flatten_eq_nil_iff] at hflat
    exact run_ne_nil hmem (hflat run (List.mem_filter.mpr ⟨hmem, by simp⟩))
  · intro hne
    have hrun : runKey (rowsOf rows key) = key := by
      have hmem : rowsOf rows key ∈ (runs (regularRows rows)).filter (runKey · = key) := by
        rw [h.filter_runs hkeyed hne]
        exact mem_cons_self
      simpa using (List.mem_filter.mp hmem).2
    -- the rows of a key are one run, which is not skipped
    have hdelivered : (delivered (runs (regularRows rows))).filter (runKey · = key) =
        [rowsOf rows key] := by
      by_cases hkey : key = []
      · subst hkey
        rw [delivered, h.getLast?_runs hkeyed hne, filter_append, List.filter_filter]
        simp [hrun]
      · rw [← h.filter_runs hkeyed hne, delivered, filter_append, List.filter_filter]
        have hsame : (runs (regularRows rows)).dropLast.filter
            (fun run => decide (runKey run = key) && decide (runKey run ≠ [])) =
            (runs (regularRows rows)).dropLast.filter (runKey · = key) := by
          refine List.filter_congr fun run _ => ?_
          by_cases hrun : runKey run = key
          · simp [hrun, hkey]
          · simp [hrun]
        rw [hsame, ← filter_append, dropLast_append_toList]
    refine ⟨rowsOf rows key, ?_, .refl _⟩
    have hmap : ∀ R : List (List KeyValue), (R.map callOf).filter (·.1 = key) =
        (R.filter (runKey · = key)).map callOf := fun R => List.filter_map
    rw [hmap, hdelivered, List.map_singleton, callOf, hrun]

/-- The callback is called exactly once for every key with a regular row, with all regular rows of
the key, iff the rows are grouped. -/
theorem iterate_deliversOnce_iff (hgo : ∀ key values, f key values = .goOn) (hkeyed : Keyed rows) :
    DeliversOnce rows (iterate f rows) ↔ Grouped rows :=
  ⟨fun h => h.grouped hgo hkeyed, fun h => h.deliversOnce hgo hkeyed⟩

end Grouped

namespace Sample

/-- A row that `peer` has written under `key`. -/
def rowOf (key peer : GoString) : Doc :=
  ⟨keyPeerId key peer, key, [], ⟨[], [], []⟩, 1, [], peer, []⟩

/-- Rows under the ids they have. -/
def rowsOfDocs (docs : List Doc) : Rows :=
  docs.foldl (fun rows doc => rows.insert doc.id doc) ∅

theorem keyed_rowsOfDocs (docs : List Doc) : Keyed (rowsOfDocs docs) := by
  unfold rowsOfDocs
  induction docs using List.reverseRecOn with
  | nil => exact fun id doc hdoc => by cases hdoc
  | append_singleton docs doc ih =>
    intro id doc' hdoc
    rw [List.foldl_append, foldl_cons, List.foldl_nil, GoMap.lookup_insert_eq] at hdoc
    split at hdoc
    · next hid =>
      obtain rfl := Option.some.inj hdoc
      exact hid.symm
    · exact ih id doc' hdoc

/-- The peers `p` and `q` have written under the key "a", and `p` under "b", with a watermark in
between. -/
def groupedRows : Rows :=
  rowsOfDocs [rowOf [97] [112], rowOf [97] [113], rowOf [98] [112],
    { rowOf [97, 97] [112] with dp := [97, 97] }]

/-- The peer `x` has written under the key "a-p". -/
def separatedRows : Rows :=
  rowsOfDocs [rowOf [97] [112], rowOf [97] [113], rowOf [97, 45, 112] [120]]

end Sample

open Sample

/-- The two rows of the key "a" are delivered in one call, whatever lies behind them. -/
theorem iterate_groupedRows :
    DeliversOnce groupedRows (iterate (fun _ _ => .goOn) groupedRows) ∧
      (rowsOf groupedRows [97]).length = 2 := by
  refine ⟨(iterate_deliversOnce_iff (fun _ _ => rfl) (keyed_rowsOfDocs _)).mpr ?_, ?_⟩
  · exact ⟨by decide +kernel, by decide +kernel⟩
  · decide +kernel

/-- The key "a" is delivered twice, with one of its two rows each time, if the key "a-p" has a
row. -/
theorem iterate_separatedRows :
    (iterate (fun _ _ => .goOn) separatedRows).map (fun call => (call.1, call.2.length)) =
        [([97], 1), ([97, 45, 112], 1), ([97], 1)] ∧
      (rowsOf separatedRows [97]).length = 2 ∧
      ¬ DeliversOnce separatedRows (iterate (fun _ _ => .goOn) separatedRows) := by
  have hcalls : (iterate (fun _ _ => .goOn) separatedRows).map
      (fun call => (call.1, call.2.length)) = [([97], 1), ([97, 45, 112], 1), ([97], 1)] := by
    decide +kernel
  refine ⟨hcalls, by decide +kernel, fun h => ?_⟩
  obtain ⟨values, hfilter, -⟩ := (h [97]).2 (by decide +kernel)
  have hlength : ((iterate (fun _ _ => .goOn) separatedRows).filter
      (·.1 = [97])).length = 2 := by decide +kernel
  rw [hfilter] at hlength
  cases hlength

end InnerStorage
