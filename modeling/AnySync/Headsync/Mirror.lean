import AnySync.Headsync.Model

/-!
# The head diff mirrors the stored heads

After every run whose events meet a condition (`StepOk`), the drained diff mirrors the stored
documents, a restart gives the same diff up to roots without a common snapshot, and the container
holds the diff (`run_mirrors`).
-/

namespace Headsync

open Ldiff
open Contents (apply removeId set_nil)

/-- The entry is marked as queued or deleted. -/
def HeadsDoc.Marked (doc : HeadsDoc) : Prop := doc.deletedStatus.isSome

instance (doc : HeadsDoc) : Decidable doc.Marked := inferInstanceAs (Decidable (_ = true))

/-- The only head is the id. -/
def HeadsDoc.IsEmptyRoot (id : GoString) (doc : HeadsDoc) : Prop :=
  (entryFromVal id doc).heads = [id]

/-- Neither derived nor with a common snapshot. -/
def HeadsDoc.NoSnapshot (id : GoString) (doc : HeadsDoc) : Prop :=
  (entryFromVal id doc).isDerived = false ∧ (entryFromVal id doc).commonSnapshot = []

/-- The id of an object is a head only if it is the only one, and marks are never taken back. -/
structure HeadsDoc.WellFormed (id : GoString) (doc : HeadsDoc) : Prop where
  heads : (entryFromVal id doc).heads.head? = some id → doc.IsEmptyRoot id
  status : doc.deletedStatus ≠ some .notDeleted

/-- What the diff has for a document: an element with the stored heads, and nothing for marked
entries. For an empty root it has nothing, or what `FillDiff` took over. -/
def Shows (hashId : GoString → GoString) (id : GoString) (doc : Option HeadsDoc)
    (head : Option GoString) : Prop :=
  match doc with
  | none => head = none
  | some doc =>
    (doc.Marked → head = none) ∧
    (¬ doc.Marked → ¬ doc.IsEmptyRoot id →
      head = some (headOf hashId (entryFromVal id doc).heads)) ∧
    (¬ doc.Marked → doc.IsEmptyRoot id →
      head = none ∨ doc.NoSnapshot id ∧ head = some (headOf hashId (entryFromVal id doc).heads))

/-- The entry is absent or marked. -/
def Fresh (coll : HeadsColl) (id : GoString) : Prop := ∀ doc, coll.lookup id = some doc → doc.Marked

/-- What a transaction relies on: trees and the ACL are created once, and later heads are not the
id of the object. -/
def ChangeOk (view : HeadsColl) : Change → Prop
  | .createTree root _ _ => Fresh view root
  | .addChanges id heads _ _ => heads.head? ≠ some id
  | .createAcl root => Fresh view root
  | .addRecords id head => head ≠ id
  | .setKeyValues storageName hash => hash ≠ storageName

/-- The condition on an event: a transaction that changed an entry commits, and a mark that fails
is for an entry that is marked. -/
def StepOk (s : State) : Event → Prop
  | .update change => ChangeOk s.view change
  | .abort => ∀ id, s.view.lookup id = s.docs.lookup id
  | .delete id fails => fails = true → ∃ doc, s.docs.lookup id = some doc ∧ doc.Marked
  | _ => True

/-! ## One document -/

section Doc

variable {hashId : GoString → GoString} {id : GoString} {doc : HeadsDoc} {coll : HeadsColl}
  {u : HeadsUpdate} {diff : Contents}

/-- An update does not take the mark of a deleted document away. -/
theorem HeadsDoc.Marked.modify (h : doc.Marked) : (doc.modify u).Marked := by
  unfold Marked HeadsDoc.modify modifyKey at *
  cases u.deletedStatus with
  | none => exact h
  | some status => rfl

/-- An update that is made to a document keeps it well formed, and does not make an unmarked empty
root of an entry. -/
structure UpdateOk (coll : HeadsColl) (u : HeadsUpdate) : Prop where
  wellFormed : (coll.doc u.id).WellFormed u.id → ((coll.doc u.id).modify u).WellFormed u.id
  root : ¬ ((coll.doc u.id).modify u).Marked → ((coll.doc u.id).modify u).IsEmptyRoot u.id →
    coll.lookup u.id = none

theorem wellFormed_empty : HeadsDoc.WellFormed id {} where
  heads h := by cases h
  status h := by cases h

theorem doc_eq_of_lookup (h : coll.lookup id = some doc) : coll.doc id = doc := by
  rw [HeadsColl.doc, h]
  rfl

/-- The update that marks a document as deleted. -/
theorem updateOk_mark {status : DeletedStatus} (hstatus : status ≠ .notDeleted) :
    UpdateOk coll { id := id, deletedStatus := some status } where
  wellFormed h := ⟨h.heads, by simpa [HeadsDoc.modify, modifyKey] using hstatus⟩
  root h := absurd rfl h

/-- The heads after an update that sets them. -/
theorem heads_modify (hs : List GoString) (hheads : u.heads = some hs) :
    (entryFromVal id (doc.modify u)).heads = hs := by
  simp [entryFromVal, HeadsDoc.modify, modifyKey, hheads]

/-- An update with heads among which the id is not the first. -/
theorem updateOk_of_heads {hs : List GoString} (hheads : u.heads = some hs)
    (hne : hs.head? ≠ some u.id) (hstatus : u.deletedStatus = none) : UpdateOk coll u where
  wellFormed h := by
    refine ⟨fun hfirst => ?_, ?_⟩
    · rw [heads_modify hs hheads] at hfirst
      exact absurd hfirst hne
    · simpa [HeadsDoc.modify, modifyKey, hstatus] using h.status
  root _ hroot := by
    rw [HeadsDoc.IsEmptyRoot, heads_modify hs hheads] at hroot
    rw [hroot] at hne
    exact absurd rfl hne

/-- An update that creates a document, or that is made to a marked one. -/
theorem updateOk_of_fresh (hfresh : Fresh coll u.id) (hheads : u.heads = some [u.id])
    (hstatus : u.deletedStatus ≠ some .notDeleted) : UpdateOk coll u where
  wellFormed h := by
    refine ⟨fun _ => heads_modify _ hheads, ?_⟩
    change u.deletedStatus.or _ ≠ _
    cases hu : u.deletedStatus with
    | none => exact h.status
    | some status =>
      rw [hu] at hstatus
      exact hstatus
  root hmarked _ := by
    cases hlookup : coll.lookup u.id with
    | none => rfl
    | some doc =>
      rw [doc_eq_of_lookup hlookup] at hmarked
      exact absurd (hfresh doc hlookup).modify hmarked

theorem headsUpdate_createTree (coll : HeadsColl) (root parentId : GoString) (isDerived : Bool) :
    let u := (Change.createTree root isDerived parentId).headsUpdate coll
    u.id = root ∧ u.heads = some [root] ∧ u.deletedStatus ≠ some .notDeleted := by
  simp only [Change.headsUpdate]
  split_ifs
  · simp
  · split
    · split_ifs <;> simp
    · simp

/-- The updates of the storages meet the condition if the changes do. -/
theorem ChangeOk.updateOk {change : Change} (h : ChangeOk coll change) :
    UpdateOk coll (change.headsUpdate coll) := by
  cases change with
  | createTree root isDerived parentId =>
    obtain ⟨hid, hheads, hstatus⟩ := headsUpdate_createTree coll root parentId isDerived
    exact updateOk_of_fresh (hid.symm ▸ h) (hid.symm ▸ hheads) hstatus
  | addChanges id heads commonSnapshot seq => exact updateOk_of_heads rfl h rfl
  | createAcl root => exact updateOk_of_fresh h rfl (by simp [Change.headsUpdate])
  | addRecords id head => exact updateOk_of_heads rfl (fun heq => h (Option.some.inj heq)) rfl
  | setKeyValues storageName hash =>
    exact updateOk_of_heads rfl (fun heq => h (Option.some.inj heq)) rfl

end Doc

/-! ## The buffer -/

/-- The last buffered update of an id. -/
def lastFor (buffered : List HeadsEntry) (id : GoString) : Option HeadsEntry :=
  (buffered.filter (·.id = id)).getLast?

section Buffer

variable {buffered : List HeadsEntry} {id : GoString} {e : HeadsEntry}

@[simp]
theorem lastFor_nil : lastFor [] id = none := rfl

/-- What is buffered last for an id. -/
theorem lastFor_concat :
    lastFor (buffered ++ [e]) id = if e.id = id then some e else lastFor buffered id := by
  unfold lastFor
  rw [List.filter_append, List.filter_singleton]
  by_cases hid : e.id = id
  · simp [hid]
  · simp [hid]

theorem lastFor_cons :
    lastFor (e :: buffered) id = (lastFor buffered id).or (if e.id = id then some e else none) := by
  unfold lastFor
  by_cases hid : e.id = id
  · rw [List.filter_cons_of_pos (by simpa using hid), if_pos hid, List.getLast?_cons]
    cases (buffered.filter (·.id = id)).getLast? <;> rfl
  · rw [List.filter_cons_of_neg (by simpa using hid), if_neg hid, Option.or_none]

end Buffer

/-! ## Elements of the diff -/

section Elements

variable {hashId : GoString → GoString} {id : GoString} {doc : HeadsDoc} {coll : HeadsColl}
  {diff : Contents} {e : HeadsEntry} {ex : Bool}

/-- `FillDiff` leaves out marked documents, and roots that are derived or have a common snapshot. -/
theorem fillElement_eq_some {el : Element} :
    fillElement hashId id doc = some el ↔ el = ⟨id, headOf hashId (entryFromVal id doc).heads⟩ ∧
      ¬ doc.Marked ∧ ¬ ((entryFromVal id doc).heads.head? = some id ∧
        ((entryFromVal id doc).isDerived ∨ (entryFromVal id doc).commonSnapshot ≠ [])) := by
  unfold fillElement HeadsDoc.Marked
  simp only
  split_ifs with hmarked hskip
  · simp [hmarked]
  · exact iff_of_false (by simp) fun h => h.2.2 hskip
  · rw [Option.some.injEq, eq_comm]
    exact ⟨fun h => ⟨h, hmarked, hskip⟩, fun h => h.1⟩

/-- `FillDiff` adds its elements to those that the diff has. -/
theorem lookup_fillDiff : (fillDiff hashId coll diff).lookup id =
    (((coll.lookup id).bind (fillElement hashId id)).map Element.head).or (diff.lookup id) := by
  have hmem : ∀ el, el ∈ coll.entries.filterMap (fun doc => fillElement hashId doc.1 doc.2) ↔
      ∃ doc, coll.lookup el.id = some doc ∧ fillElement hashId el.id doc = some el := by
    intro el
    rw [List.mem_filterMap]
    constructor
    · rintro ⟨⟨id', doc⟩, hdoc, hel⟩
      have hid : el.id = id' := by rw [(fillElement_eq_some.mp hel).1]
      subst hid
      exact ⟨doc, GoMap.lookup_eq_some_iff.mpr hdoc, hel⟩
    · rintro ⟨doc, hdoc, hel⟩
      exact ⟨⟨el.id, doc⟩, GoMap.lookup_eq_some_iff.mp hdoc, hel⟩
  cases hbind : (coll.lookup id).bind (fillElement hashId id) with
  | none =>
    refine Contents.lookup_set_of_forall_ne fun el hel hid => ?_
    obtain ⟨doc, hdoc, hfill⟩ := (hmem el).mp hel
    rw [← hid, hdoc, Option.bind_some, hfill] at hbind
    cases hbind
  | some el =>
    obtain ⟨doc, hdoc, hfill⟩ := Option.bind_eq_some_iff.mp hbind
    have hid : el.id = id := by rw [(fillElement_eq_some.mp hfill).1]
    subst hid
    rw [fillDiff, Contents.lookup_set_of_mem ((hmem el).mpr ⟨doc, hdoc, hfill⟩)]
    · rfl
    · intro el' hel' hid
      obtain ⟨doc', hdoc', hfill'⟩ := (hmem el').mp hel'
      rw [hid, hdoc] at hdoc'
      obtain rfl := Option.some.inj hdoc'
      rw [(fillElement_eq_some.mp hfill).1, (fillElement_eq_some.mp hfill').1, hid]

variable (hashId) in
/-- On an empty diff, `FillDiff` shows every document. -/
theorem shows_fillDiff (hwf : ∀ doc, coll.lookup id = some doc → doc.WellFormed id) :
    Shows hashId id (coll.lookup id) ((fillDiff hashId coll ∅).lookup id) := by
  rw [lookup_fillDiff]
  cases hlookup : coll.lookup id with
  | none => rfl
  | some doc =>
    rw [Option.bind_some, AList.lookup_empty, Option.or_none]
    refine ⟨fun hmarked => ?_, fun hmarked hroot => ?_, fun hmarked hroot => ?_⟩
    · rw [Option.map_eq_none_iff, Option.eq_none_iff_forall_ne_some]
      exact fun el hel => (fillElement_eq_some.mp hel).2.1 hmarked
    · rw [Option.map_eq_some_iff]
      refine ⟨_, fillElement_eq_some.mpr ⟨rfl, hmarked, fun hskip => ?_⟩, rfl⟩
      exact hroot ((hwf doc hlookup).heads hskip.1)
    · by_cases hskip : (entryFromVal id doc).isDerived ∨
          (entryFromVal id doc).commonSnapshot ≠ []
      · left
        rw [Option.map_eq_none_iff, Option.eq_none_iff_forall_ne_some]
        intro el hel
        refine (fillElement_eq_some.mp hel).2.2 ⟨?_, hskip⟩
        rw [hroot]
        rfl
      · right
        refine ⟨?_, ?_⟩
        · rw [not_or, not_not, Bool.not_eq_true] at hskip
          exact hskip
        · rw [Option.map_eq_some_iff]
          exact ⟨_, fillElement_eq_some.mpr ⟨rfl, hmarked, fun h => hskip h.2⟩, rfl⟩

/-- `UpdateHeads` changes the element of its own entry only. -/
theorem lookup_updateHeads_of_ne (hne : e.id ≠ id) :
    (updateHeads hashId ex e diff).lookup id = diff.lookup id := by
  unfold updateHeads
  split_ifs
  · rw [removeId, GoMap.lookup_erase_eq, if_neg (Ne.symm hne)]
  · rfl
  · rfl
  · exact Contents.lookup_set_of_forall_ne fun el hel => List.mem_singleton.mp hel ▸ hne

/-- `UpdateHeads` with the entry of a document shows it. An empty root must be shown before. -/
theorem shows_updateHeads (hwf : doc.WellFormed id) (hex : ex = true → doc.Marked)
    (hroot : ¬ doc.Marked → doc.IsEmptyRoot id → Shows hashId id (some doc) (diff.lookup id)) :
    Shows hashId id (some doc)
      ((updateHeads hashId ex (entryFromVal id doc) diff).lookup id) := by
  unfold updateHeads
  by_cases hmarked : doc.Marked
  · have hstatus : (entryFromVal id doc).deletedStatus ≠ .notDeleted := by
      obtain ⟨status, hsome⟩ := Option.isSome_iff_exists.mp hmarked
      have hne := hwf.status
      rw [hsome] at hne
      intro heq
      apply hne
      rw [← heq, entryFromVal, hsome]
      rfl
    rw [if_pos hstatus]
    have hnone : (diff.removeId (entryFromVal id doc).id).lookup id = none := by
      rw [removeId, GoMap.lookup_erase_eq]
      exact if_pos rfl
    exact ⟨fun _ => hnone, fun h => absurd hmarked h, fun h => absurd hmarked h⟩
  · have hstatus : ¬ (entryFromVal id doc).deletedStatus ≠ .notDeleted := by
      have hnone : doc.deletedStatus = none := by simpa [HeadsDoc.Marked] using hmarked
      simp [entryFromVal, hnone]
    rw [if_neg hstatus, if_neg fun h => hmarked (hex h)]
    by_cases hempty : doc.IsEmptyRoot id
    · rw [if_pos (show (entryFromVal id doc).heads = [(entryFromVal id doc).id] from hempty)]
      exact hroot hmarked hempty
    · rw [if_neg (show ¬ (entryFromVal id doc).heads = [(entryFromVal id doc).id] from hempty)]
      refine ⟨fun h => absurd h hmarked, fun _ _ => ?_, fun _ h => absurd h hempty⟩
      rw [Contents.set_cons, set_nil, GoMap.lookup_insert_eq]
      exact if_pos rfl

end Elements

/-! ## The invariant -/

/-- The diff follows what the open transaction sees. The last buffered update of an id is the entry
that the open transaction sees, and an id without a buffered update is shown by the diff. -/
structure Mirrored (hashId : GoString → GoString) (s : State) : Prop where
  docs_wellFormed : ∀ id doc, s.docs.lookup id = some doc → doc.WellFormed id
  view_wellFormed : ∀ id doc, s.view.lookup id = some doc → doc.WellFormed id
  absent : ∀ id, s.view.lookup id = none → s.docs.lookup id = none
  /-- What the deletion state knows is marked. -/
  marked : ∀ id, s.exists' id = true → ∃ doc, s.view.lookup id = some doc ∧ doc.Marked
  last : ∀ id e, lastFor s.buffered id = some e →
    ∃ doc, s.view.lookup id = some doc ∧ e = entryFromVal id doc
  shown : s.filled = true → ∀ id, lastFor s.buffered id = none →
    Shows hashId id (s.view.lookup id) (s.diff.lookup id)
  /-- An empty root was never anything else. -/
  root : ∀ id doc, s.view.lookup id = some doc → ¬ doc.Marked → doc.IsEmptyRoot id →
    (∀ e ∈ s.buffered, e.id = id → e = entryFromVal id doc) ∧
      (s.filled = true → Shows hashId id (some doc) (s.diff.lookup id)) ∧
      (s.docs.lookup id = none ∨ s.docs.lookup id = some doc)
  /-- Nothing is drained before `FillDiff`. -/
  unfilled : s.filled = false → s.diff = ∅ ∧
    ∀ id, lastFor s.buffered id = none → s.view.lookup id = s.docs.lookup id

section Invariant

variable {hashId : GoString → GoString} {s s' : State}

/-- The deletion state starts with ids whose documents are marked. -/
theorem loaded_marked {docs : HeadsColl} {status : DeletedStatus} {id : GoString}
    (h : id ∈ State.loaded docs status) : ∃ doc, docs.lookup id = some doc ∧ doc.Marked := by
  rw [State.loaded, List.mem_toFinset, List.mem_map] at h
  obtain ⟨⟨id, doc⟩, hdoc, rfl⟩ := h
  obtain ⟨hdoc, hstatus⟩ := List.mem_filter.mp hdoc
  refine ⟨doc, GoMap.lookup_eq_some_iff.mpr hdoc, ?_⟩
  rw [HeadsDoc.Marked, of_decide_eq_true hstatus]
  rfl

/-- A space that was just opened, before `FillDiff`. -/
theorem mirrored_opened {docs : HeadsColl}
    (hwf : ∀ id doc, docs.lookup id = some doc → doc.WellFormed id) :
    Mirrored hashId (State.opened docs) where
  docs_wellFormed := hwf
  view_wellFormed := hwf
  absent _ h := h
  marked id hexists := by
    rcases of_decide_eq_true hexists with h | h
    · exact loaded_marked h
    · exact loaded_marked h
  last id e he := by cases he
  shown hfilled := by cases hfilled
  root id doc hdoc _ _ := ⟨fun e he => (by cases he), fun hfilled => (by cases hfilled), .inr hdoc⟩
  unfilled _ := ⟨rfl, fun id _ => rfl⟩

/-- What changes nothing but what the deletion state knows, and which documents are stored. -/
theorem Mirrored.congr (hs : Mirrored hashId s) (hview : ∀ id, s'.view.lookup id = s.view.lookup id)
    (hdocs : (∀ id, s'.docs.lookup id = s.docs.lookup id) ∨
      ∀ id, s'.docs.lookup id = s'.view.lookup id) (hbuffered : s'.buffered = s.buffered)
    (hdiff : s'.diff = s.diff) (hfilled : s'.filled = s.filled)
    (hexists : ∀ id, s'.exists' id = true → ∃ doc, s'.view.lookup id = some doc ∧ doc.Marked) :
    Mirrored hashId s' where
  docs_wellFormed id doc hdoc := by
    rcases hdocs with hdocs | hdocs
    · exact hs.docs_wellFormed id doc (hdocs id ▸ hdoc)
    · exact hs.view_wellFormed id doc (hview id ▸ hdocs id ▸ hdoc)
  view_wellFormed id doc hdoc := hs.view_wellFormed id doc (hview id ▸ hdoc)
  absent id hnone := by
    rcases hdocs with hdocs | hdocs
    · rw [hdocs]
      exact hs.absent id (hview id ▸ hnone)
    · rw [hdocs, hnone]
  marked := hexists
  last id e he := by
    rw [hview]
    exact hs.last id e (hbuffered ▸ he)
  shown h id hlast := by
    rw [hview, hdiff]
    exact hs.shown (hfilled ▸ h) id (hbuffered ▸ hlast)
  root id doc hdoc hmarked hroot := by
    rw [hview] at hdoc
    obtain ⟨hall, hshows, hdoc'⟩ := hs.root id doc hdoc hmarked hroot
    rw [hbuffered, hfilled, hdiff]
    refine ⟨hall, hshows, ?_⟩
    rcases hdocs with hdocs | hdocs
    · rwa [hdocs]
    · rw [hdocs, hview]
      exact .inr hdoc
  unfilled h := by
    obtain ⟨hempty, hsame⟩ := hs.unfilled (hfilled ▸ h)
    refine ⟨hdiff.trans hempty, fun id hlast => ?_⟩
    rcases hdocs with hdocs | hdocs
    · rw [hview, hdocs]
      exact hsame id (hbuffered ▸ hlast)
    · exact (hdocs id).symm

/-- `UpdateEntry` tells nobody if the document stays as it is. -/
theorem updateEntry_cases (coll : HeadsColl) (u : HeadsUpdate) :
    ((coll.doc u.id).modify u = coll.doc u.id ∧ updateEntry coll u = (coll, none)) ∨
      updateEntry coll u = (coll.insert u.id ((coll.doc u.id).modify u),
        some (entryFromVal u.id ((coll.doc u.id).modify u))) := by
  unfold updateEntry
  simp only
  split_ifs with h
  · exact .inl ⟨h, rfl⟩
  · exact .inr rfl

/-- A document is written in a transaction, and its entry is buffered at once. -/
structure Written (s s' : State) (id : GoString) (doc : HeadsDoc) : Prop where
  view : s'.view = s.view.insert id doc
  docs : s'.docs = s.docs ∨ s'.docs = s'.view
  buffered : s'.buffered = s.buffered ++ [entryFromVal id doc]
  diff : s'.diff = s.diff
  filled : s'.filled = s.filled

namespace Written

variable {id k : GoString} {doc d : HeadsDoc} (h : Written s s' id doc)

include h

theorem lookup_view (k : GoString) :
    s'.view.lookup k = if k = id then some doc else s.view.lookup k := by
  rw [h.view, GoMap.lookup_insert_eq]

theorem lastFor_buffered (k : GoString) : lastFor s'.buffered k =
    if id = k then some (entryFromVal id doc) else lastFor s.buffered k := by
  rw [h.buffered, lastFor_concat]
  rfl

/-- Without a buffered update, the document is another one. -/
theorem ne_of_lastFor (hnone : lastFor s'.buffered k = none) :
    k ≠ id ∧ lastFor s.buffered k = none := by
  rw [h.lastFor_buffered] at hnone
  split at hnone
  · cases hnone
  · next hne => exact ⟨Ne.symm hne, hnone⟩

variable (hs : Mirrored hashId s)

include hs

/-- What the open transaction sees stays well formed. -/
theorem view_wellFormed (hwf : doc.WellFormed id) (hd : s'.view.lookup k = some d) :
    d.WellFormed k := by
  rw [h.lookup_view] at hd
  split at hd
  · next hk => exact hk ▸ Option.some.inj hd ▸ hwf
  · exact hs.view_wellFormed k d hd

/-- So do the stored documents. -/
theorem docs_wellFormed (hwf : doc.WellFormed id) (hd : s'.docs.lookup k = some d) :
    d.WellFormed k := by
  rcases h.docs with hdocs | hdocs
  · exact hs.docs_wellFormed k d (hdocs ▸ hd)
  · exact h.view_wellFormed hs hwf (hdocs ▸ hd)

theorem absent (hnone : s'.view.lookup k = none) : s'.docs.lookup k = none := by
  rcases h.docs with hdocs | hdocs
  · rw [h.lookup_view] at hnone
    split at hnone
    · cases hnone
    · rw [hdocs]
      exact hs.absent k hnone
  · rw [hdocs, hnone]

/-- The last buffered update of an id is the entry that the transaction sees. -/
theorem last {e : HeadsEntry} (he : lastFor s'.buffered k = some e) :
    ∃ d, s'.view.lookup k = some d ∧ e = entryFromVal k d := by
  rw [h.lastFor_buffered] at he
  rw [h.lookup_view]
  split at he
  · next hk => exact ⟨doc, if_pos hk.symm, hk ▸ (Option.some.inj he).symm⟩
  · next hk =>
    rw [if_neg (Ne.symm hk)]
    exact hs.last k e he

/-- Without a buffered update, the diff shows what the transaction sees. -/
theorem shown (hfilled : s'.filled = true) (hnone : lastFor s'.buffered k = none) :
    Shows hashId k (s'.view.lookup k) (s'.diff.lookup k) := by
  obtain ⟨hk, hlast⟩ := h.ne_of_lastFor hnone
  rw [h.lookup_view, if_neg hk, h.diff]
  exact hs.shown (h.filled ▸ hfilled) k hlast

/-- Before `FillDiff`, what is not buffered is as it is stored. -/
theorem unfilled (hfilled : s'.filled = false) (hnone : lastFor s'.buffered k = none) :
    s'.view.lookup k = s'.docs.lookup k := by
  obtain ⟨hk, hlast⟩ := h.ne_of_lastFor hnone
  rcases h.docs with hdocs | hdocs
  · rw [h.lookup_view, if_neg hk, hdocs]
    exact (hs.unfilled (h.filled ▸ hfilled)).2 k hlast
  · rw [hdocs]

/-- An empty root is written only where there was nothing. -/
theorem root_self (hroot : doc.IsEmptyRoot id) (habsent : s.view.lookup id = none) :
    (∀ e ∈ s'.buffered, e.id = id → e = entryFromVal id doc) ∧
      (s'.filled = true → Shows hashId id (some doc) (s'.diff.lookup id)) ∧
      (s'.docs.lookup id = none ∨ s'.docs.lookup id = some doc) := by
  have hnone : lastFor s.buffered id = none := by
    by_contra hsome
    obtain ⟨e, he⟩ := Option.ne_none_iff_exists'.mp hsome
    obtain ⟨d, hd, -⟩ := hs.last id e he
    rw [habsent] at hd
    cases hd
  refine ⟨fun e he heq => ?_, fun hfilled => ?_, ?_⟩
  · rw [h.buffered, List.mem_append, List.mem_singleton] at he
    refine he.resolve_left fun he => ?_
    have hmem : e ∈ s.buffered.filter (·.id = id) := by simpa using ⟨he, heq⟩
    rw [List.getLast?_eq_none_iff.mp hnone] at hmem
    cases hmem
  · have hshows := hs.shown (h.filled ▸ hfilled) id hnone
    rw [habsent] at hshows
    rw [h.diff, show s.diff.lookup id = none from hshows]
    exact ⟨fun _ => rfl, fun _ h => absurd hroot h, fun _ _ => .inl rfl⟩
  · rcases h.docs with hdocs | hdocs
    · rw [hdocs]
      exact .inl (hs.absent id habsent)
    · rw [hdocs, h.lookup_view, if_pos rfl]
      exact .inr rfl

/-- The empty roots under other ids are as before. -/
theorem root_of_ne (hk : k ≠ id) (hd : s.view.lookup k = some d) (hmarked : ¬ d.Marked)
    (hroot : d.IsEmptyRoot k) :
    (∀ e ∈ s'.buffered, e.id = k → e = entryFromVal k d) ∧
      (s'.filled = true → Shows hashId k (some d) (s'.diff.lookup k)) ∧
      (s'.docs.lookup k = none ∨ s'.docs.lookup k = some d) := by
  obtain ⟨hall, hshows, hdocs'⟩ := hs.root k d hd hmarked hroot
  refine ⟨fun e he heq => ?_, fun hfilled => h.diff ▸ hshows (h.filled ▸ hfilled), ?_⟩
  · rw [h.buffered, List.mem_append, List.mem_singleton] at he
    rcases he with he | rfl
    · exact hall e he heq
    · exact absurd heq.symm hk
  · rcases h.docs with hdocs | hdocs
    · rwa [hdocs]
    · rw [hdocs, h.lookup_view, if_neg hk]
      exact .inr hd

/-- A written document keeps the invariant. -/
theorem mirrored (hwf : doc.WellFormed id)
    (habsent : ¬ doc.Marked → doc.IsEmptyRoot id → s.view.lookup id = none)
    (hexists : ∀ k, s'.exists' k = true → ∃ d, s'.view.lookup k = some d ∧ d.Marked) :
    Mirrored hashId s' where
  docs_wellFormed _ _ := h.docs_wellFormed hs hwf
  view_wellFormed _ _ := h.view_wellFormed hs hwf
  absent _ := h.absent hs
  marked := hexists
  last _ _ := h.last hs
  shown hfilled _ := h.shown hs hfilled
  root k d hd hmarked hroot := by
    rw [h.lookup_view] at hd
    split at hd
    · next hk =>
      subst hk
      obtain rfl := Option.some.inj hd
      exact h.root_self hs hroot (habsent hmarked hroot)
    · next hk => exact h.root_of_ne hs hk hd hmarked hroot
  unfilled hfilled :=
    ⟨h.diff.trans (hs.unfilled (h.filled ▸ hfilled)).1, fun _ => h.unfilled hs hfilled⟩

end Written

section

variable (hs : Mirrored hashId s)

include hs

/-- The document that an update starts from. -/
theorem Mirrored.doc_wellFormed (id : GoString) : (s.view.doc id).WellFormed id := by
  cases h : s.view.lookup id with
  | none =>
    rw [HeadsColl.doc, h]
    exact wellFormed_empty
  | some doc =>
    rw [doc_eq_of_lookup h]
    exact hs.view_wellFormed _ _ h

/-- An update in a transaction that is buffered at once. -/
theorem Mirrored.update {u : HeadsUpdate} (hok : UpdateOk s.view u)
    (hview : s'.view = (updateEntry s.view u).1) (hdocs : s'.docs = s.docs ∨ s'.docs = s'.view)
    (hbuffered : s'.buffered = s.buffered ++ (updateEntry s.view u).2.toList)
    (hdiff : s'.diff = s.diff) (hfilled : s'.filled = s.filled)
    (hexists : ∀ id, s'.exists' id = true →
      s.exists' id = true ∨ ∃ doc, s'.view.lookup id = some doc ∧ doc.Marked) :
    Mirrored hashId s' := by
  rcases updateEntry_cases s.view u with ⟨-, hsame⟩ | hmod
  · -- no key is modified, and nobody is told
    rw [hsame] at hview hbuffered
    refine hs.congr (fun id => by rw [hview])
      (hdocs.imp (fun h id => by rw [h]) fun h id => by rw [h])
      (by rw [hbuffered]; exact List.append_nil _) hdiff hfilled fun id hid => ?_
    rcases hexists id hid with h | h
    · rw [hview]
      exact hs.marked id h
    · exact h
  · rw [hmod] at hview hbuffered
    have hwritten : Written s s' u.id ((s.view.doc u.id).modify u) :=
      ⟨hview, hdocs, hbuffered, hdiff, hfilled⟩
    refine hwritten.mirrored hs (hok.wellFormed (hs.doc_wellFormed u.id)) hok.root fun id hid => ?_
    rcases hexists id hid with h | h
    · -- a marked document stays marked
      obtain ⟨doc, hdoc, hmarked⟩ := hs.marked id h
      rw [hwritten.lookup_view]
      split
      · next heq =>
        subst heq
        exact ⟨_, rfl, (doc_eq_of_lookup hdoc).symm ▸ hmarked.modify⟩
      · exact ⟨doc, hdoc, hmarked⟩
    · exact h

/-- Only marked documents are in the deletion state. -/
theorem Mirrored.marked_of_exists {id : GoString} {doc : HeadsDoc}
    (hdoc : s.view.lookup id = some doc) (hex : s.exists' id = true) : doc.Marked := by
  obtain ⟨doc', hdoc', hmarked⟩ := hs.marked id hex
  rw [hdoc] at hdoc'
  exact Option.some.inj hdoc' ▸ hmarked

/-- A buffered update is drained. -/
theorem Mirrored.drain {update : HeadsEntry} {buffered : List HeadsEntry}
    (hfilled : s.filled = true) (hbuffered : s.buffered = update :: buffered) :
    Mirrored hashId { s with
      buffered := buffered
      diff := updateHeads hashId (s.exists' update.id) update s.diff } := by
  have hcons : ∀ id, lastFor s.buffered id =
      (lastFor buffered id).or (if update.id = id then some update else none) :=
    fun id => by rw [hbuffered, lastFor_cons]
  -- the diff shows an empty root whose updates are all the same
  have hroot : ∀ id doc, s.view.lookup id = some doc → ¬ doc.Marked → doc.IsEmptyRoot id →
      Shows hashId id (some doc)
        ((updateHeads hashId (s.exists' update.id) update s.diff).lookup id) := by
    intro id doc hdoc hmarked hempty
    obtain ⟨hall, hshows, -⟩ := hs.root id doc hdoc hmarked hempty
    by_cases hid : update.id = id
    · have hupdate := hall update (hbuffered ▸ List.mem_cons_self) hid
      subst hid
      rw [hupdate]
      exact shows_updateHeads (hs.view_wellFormed _ _ hdoc) (hs.marked_of_exists hdoc) fun _ _ =>
        hshows hfilled
    · rw [lookup_updateHeads_of_ne hid]
      exact hshows hfilled
  refine ⟨hs.docs_wellFormed, hs.view_wellFormed, hs.absent, hs.marked, fun id e he => ?_,
    fun _ id hnone => ?_, fun id doc hdoc hmarked hempty => ?_, fun h => ?_⟩
  · refine hs.last id e ?_
    rw [hcons, show lastFor buffered id = some e from he]
    rfl
  · change Shows hashId id (s.view.lookup id) _
    by_cases hid : update.id = id
    · -- the last update of the id
      subst hid
      obtain ⟨doc, hdoc, hupdate⟩ := hs.last update.id update (by
        rw [hcons, show lastFor buffered update.id = none from hnone, if_pos rfl]
        rfl)
      rw [hdoc]
      have hshows := shows_updateHeads (hs.view_wellFormed _ _ hdoc) (hs.marked_of_exists hdoc)
        fun hmarked hempty => (hs.root _ doc hdoc hmarked hempty).2.1 hfilled
      rwa [← hupdate] at hshows
    · have hshows := hs.shown hfilled id (by
        rw [hcons, show lastFor buffered id = none from hnone, if_neg hid]
        rfl)
      change Shows hashId id _ ((updateHeads hashId _ update s.diff).lookup id)
      rwa [lookup_updateHeads_of_ne hid]
  · obtain ⟨hall, -, hdocs⟩ := hs.root id doc hdoc hmarked hempty
    exact ⟨fun e he => hall e (hbuffered ▸ List.mem_cons_of_mem _ he),
      fun _ => hroot id doc hdoc hmarked hempty, hdocs⟩
  · rw [show s.filled = false from h] at hfilled
    cases hfilled

/-- `FillDiff`, before anything is drained. -/
theorem Mirrored.fill (hfilled : s.filled = false) :
    Mirrored hashId { s with diff := fillDiff hashId s.docs s.diff, filled := true } := by
  obtain ⟨hempty, hsame⟩ := hs.unfilled hfilled
  have hshows : ∀ id, Shows hashId id (s.docs.lookup id)
      ((fillDiff hashId s.docs s.diff).lookup id) := fun id => by
    rw [hempty]
    exact shows_fillDiff hashId (hs.docs_wellFormed id)
  refine ⟨hs.docs_wellFormed, hs.view_wellFormed, hs.absent, hs.marked, hs.last,
    fun _ id hnone => ?_, fun id doc hdoc hmarked hroot => ?_, fun h => by cases h⟩
  · change Shows hashId id (s.view.lookup id) _
    rw [hsame id hnone]
    exact hshows id
  · obtain ⟨hall, -, hdocs⟩ := hs.root id doc hdoc hmarked hroot
    refine ⟨hall, fun _ => ?_, hdocs⟩
    have hid := hshows id
    rcases hdocs with hnone | hsome
    · rw [hnone] at hid
      change Shows hashId id (some doc) ((fillDiff hashId s.docs s.diff).lookup id)
      rw [show (fillDiff hashId s.docs s.diff).lookup id = none from hid]
      exact ⟨fun _ => rfl, fun _ h => absurd hroot h, fun _ _ => .inl rfl⟩
    · rw [hsome] at hid
      exact hid

/-- A mark in a transaction of its own. -/
theorem Mirrored.updateStatus (htx : s.tx = none) {id : GoString} {status : DeletedStatus}
    (hstatus : status ≠ .notDeleted) {queued deleted : Finset GoString}
    (hexists : ∀ id', id' ∈ deleted ∨ id' ∈ queued → id' = id ∨ s.exists' id' = true) :
    Mirrored hashId
      { s.updateStatus id status with queued := queued, deleted := deleted } := by
  have hview : s.view = s.docs := by
    rw [State.view, htx]
    rfl
  set u : HeadsUpdate := { id := id, deletedStatus := some status } with hu
  refine hs.update (u := u) (hview ▸ updateOk_mark hstatus) ?_ (.inr ?_) ?_ rfl rfl
    fun id' hid' => ?_
  · rw [hview, State.view]
    change (s.tx.getD _) = _
    rw [htx]
    rfl
  · change _ = s.tx.getD _
    rw [htx]
    rfl
  · rw [hview]
    rfl
  · rcases hexists id' (of_decide_eq_true hid') with rfl | h
    · right
      -- the document that was written
      change ∃ doc, (s.tx.getD (updateEntry s.docs u).1).lookup u.id = some doc ∧ _
      rw [htx, Option.getD_none]
      rcases updateEntry_cases s.docs u with ⟨hsame, heq⟩ | heq
      · rw [heq]
        have hmarked : (s.docs.doc u.id).Marked := by
          rw [← hsame]
          rfl
        cases hlookup : s.docs.lookup u.id with
        | none =>
          rw [HeadsColl.doc, hlookup] at hmarked
          cases hmarked
        | some doc => exact ⟨doc, rfl, doc_eq_of_lookup hlookup ▸ hmarked⟩
      · rw [heq, GoMap.lookup_insert_eq, if_pos rfl]
        exact ⟨_, rfl, rfl⟩
    · exact .inl h

/-- Every event that meets the condition keeps the invariant. -/
theorem Mirrored.step {event : Event} (hok : StepOk s event)
    (hstep : s.step hashId event = .ok s') : Mirrored hashId s' := by
  cases event with
  | beginTx =>
    simp only [State.step] at hstep
    split at hstep
    · next htx =>
      obtain rfl := Except.ok.inj hstep
      have hview : s.view = s.docs := by rw [State.view, htx]; rfl
      refine hs.congr (fun id => by rw [hview]; rfl) (.inl fun _ => rfl) rfl rfl rfl ?_
      exact fun id hid => hview ▸ hs.marked id hid
    · cases hstep
  | update change =>
    simp only [State.step] at hstep
    split at hstep
    · cases hstep
    · next view htx =>
      obtain rfl := Except.ok.inj hstep
      have hview : s.view = view := by rw [State.view, htx]; rfl
      have hok' : UpdateOk s.view (change.headsUpdate view) := hview ▸ ChangeOk.updateOk hok
      exact hs.update hok' (by rw [hview]; rfl) (.inl rfl) (by rw [hview]) rfl rfl
        fun id hid => .inl hid
  | commit =>
    simp only [State.step] at hstep
    split at hstep
    · cases hstep
    · next view htx =>
      obtain rfl := Except.ok.inj hstep
      have hview : s.view = view := by rw [State.view, htx]; rfl
      refine hs.congr (fun id => by rw [hview]; rfl) (.inr fun _ => rfl) rfl rfl rfl ?_
      exact fun id hid => hview ▸ hs.marked id hid
  | abort =>
    simp only [State.step] at hstep
    split at hstep
    · cases hstep
    · obtain rfl := Except.ok.inj hstep
      refine hs.congr (fun id => (hok id).symm) (.inl fun _ => rfl) rfl rfl rfl fun id hid => ?_
      obtain ⟨doc, hdoc, hmarked⟩ := hs.marked id hid
      exact ⟨doc, (hok id).symm.trans hdoc, hmarked⟩
  | drain =>
    simp only [State.step] at hstep
    split at hstep
    · next update buffered hfilled hbuffered =>
      obtain rfl := Except.ok.inj hstep
      exact hs.drain hfilled hbuffered
    · cases hstep
  | queue id fails =>
    simp only [State.step] at hstep
    split_ifs at hstep with htx hskip
    · obtain rfl := Except.ok.inj hstep
      exact hs
    · obtain rfl := Except.ok.inj hstep
      refine hs.updateStatus (by simpa using htx) (by simp) fun id' hid' => ?_
      rw [Finset.mem_insert] at hid'
      rcases hid' with h | rfl | h
      · exact .inr (decide_eq_true (.inl h))
      · exact .inl rfl
      · exact .inr (decide_eq_true (.inr h))
  | delete id fails =>
    simp only [State.step] at hstep
    split_ifs at hstep with htx hfails
    · -- only the deletion state changes
      obtain rfl := Except.ok.inj hstep
      refine hs.congr (fun _ => rfl) (.inl fun _ => rfl) rfl rfl rfl fun id' hid' => ?_
      rcases of_decide_eq_true hid' with h | h
      · rcases Finset.mem_insert.mp h with rfl | h
        · have hview : s.view = s.docs := by
            rw [State.view, show s.tx = none by simpa using htx]
            rfl
          obtain ⟨doc, hdoc, hmarked⟩ := hok hfails
          rw [← hview] at hdoc
          exact ⟨doc, hdoc, hmarked⟩
        · exact hs.marked id' (decide_eq_true (.inl h))
      · exact hs.marked id' (decide_eq_true (.inr (Finset.mem_of_mem_erase h)))
    · obtain rfl := Except.ok.inj hstep
      refine hs.updateStatus (by simpa using htx) (by simp) fun id' hid' => ?_
      rcases hid' with h | h
      · exact (Finset.mem_insert.mp h).imp_right fun h => decide_eq_true (.inl h)
      · exact .inr (decide_eq_true (.inr (Finset.mem_of_mem_erase h)))
  | fill =>
    simp only [State.step] at hstep
    split_ifs at hstep with hfilled
    obtain rfl := Except.ok.inj hstep
    exact hs.fill (by simpa using hfilled)
  | restart =>
    obtain rfl := Except.ok.inj hstep
    exact mirrored_opened hs.docs_wellFormed

end

end Invariant

/-! ## The container -/

section Calls

variable (hashId : GoString → GoString) (order : ℕ → RangeOrder)

/-- The call of `FillDiff` on the container, if there are elements to set. -/
def fillDiffCalls (coll : HeadsColl) (ord : RangeOrder) : List Op :=
  let els := coll.entries.filterMap fun doc => fillElement hashId doc.1 doc.2
  if els = [] then [] else [.set els ord]

/-- The calls of `UpdateHeads` on the container. -/
def updateHeadsCalls (exists' : Bool) (update : HeadsEntry) (ord : RangeOrder) : List Op :=
  if update.deletedStatus ≠ .notDeleted then [.removeId update.id ord]
  else if exists' then []
  else if update.heads = [update.id] then []
  else [.set [{ id := update.id, head := headOf hashId update.heads }] ord]

/-- The calls on the container so far, after one more event. A restart makes a new container. The
`n`-th call has the map order `order n`. -/
def State.calls (s : State) (ops : List Op) : Event → List Op
  | .drain => ops ++ s.buffered.head?.elim [] fun update =>
      updateHeadsCalls hashId (s.exists' update.id) update (order ops.length)
  | .fill => ops ++ fillDiffCalls hashId s.docs (order ops.length)
  | .restart => []
  | _ => ops

/-- The calls on the container in the steps of a run. -/
def traceCalls (trace : List (State × Event)) : List Op :=
  trace.foldl (fun ops x => x.1.calls hashId order ops x.2) []

variable {hashId order} {s s' : State} {event : Event} {ops : List Op} {ord : RangeOrder}
  {diff : Contents}

/-- The calls of `FillDiff` do to the contents what `fillDiff` does. -/
theorem foldl_fillDiffCalls {coll : HeadsColl} :
    (fillDiffCalls hashId coll ord).foldl apply diff = fillDiff hashId coll diff := by
  unfold fillDiffCalls fillDiff
  simp only
  split_ifs with hnil
  · rw [hnil]
    rfl
  · rfl

/-- The calls of `UpdateHeads` do to the contents what `updateHeads` does. -/
theorem foldl_updateHeadsCalls {ex : Bool} {update : HeadsEntry} :
    (updateHeadsCalls hashId ex update ord).foldl apply diff
      = updateHeads hashId ex update diff := by
  unfold updateHeadsCalls updateHeads
  split_ifs <;> rfl

/-- The diff is what the calls so far make of an empty one. -/
theorem diff_step (h : s.diff = ops.foldl apply ∅) (hstep : s.step hashId event = .ok s') :
    s'.diff = (s.calls hashId order ops event).foldl apply ∅ := by
  cases event with
  | drain =>
    simp only [State.step] at hstep
    split at hstep
    · next update buffered hfilled hbuffered =>
      obtain rfl := Except.ok.inj hstep
      rw [State.calls, hbuffered, List.foldl_append, ← h]
      exact foldl_updateHeadsCalls.symm
    · cases hstep
  | fill =>
    simp only [State.step] at hstep
    split_ifs at hstep
    obtain rfl := Except.ok.inj hstep
    rw [State.calls, List.foldl_append, ← h]
    exact foldl_fillDiffCalls.symm
  | restart =>
    obtain rfl := Except.ok.inj hstep
    rfl
  | beginTx | update | commit | abort =>
    simp only [State.step] at hstep
    split at hstep <;> cases hstep; exact h
  | queue | delete =>
    simp only [State.step] at hstep
    split_ifs at hstep <;> cases hstep <;> exact h

/-- The diff of a state is what all calls of the run do to an empty one. -/
theorem diff_run {docs : HeadsColl} {events : List Event}
    (hrun : State.run hashId docs events = .ok s) :
    s.diff = (traceCalls hashId order (runTrace (State.step hashId) (State.opened docs)
      events)).foldl apply ∅ := by
  refine foldlM_trace_induction (t := [])
    (fun trace s => s.diff = (traceCalls hashId order trace).foldl apply ∅)
    (fun _ => True) (fun trace s event s' h _ hstep => ?_) rfl (fun _ _ => trivial) hrun
  rw [traceCalls, List.foldl_append]
  exact diff_step h hstep

end Calls

/-- After every run whose events meet the condition, once the buffer is drained and no transaction
is open, the diff shows the stored documents. `FillDiff` on an empty diff gives the same elements,
except for empty roots without a common snapshot. A container that took the calls of the run holds
the diff. -/
theorem run_mirrors {hashId : GoString → GoString} {docs : HeadsColl} {events : List Event}
    {s : State} (hwf : ∀ id doc, docs.lookup id = some doc → doc.WellFormed id)
    (hrun : State.run hashId docs events = .ok s)
    (hok : ∀ x ∈ runTrace (State.step hashId) (State.opened docs) events, StepOk x.1 x.2)
    (hfilled : s.filled = true) (hdrained : s.buffered = []) (htx : s.tx = none) (id : GoString) :
    Shows hashId id (s.docs.lookup id) (s.diff.lookup id) ∧
      (s.diff.lookup id = (fillDiff hashId s.docs ∅).lookup id ∨
        ∃ doc, s.docs.lookup id = some doc ∧ ¬ doc.Marked ∧ doc.IsEmptyRoot id ∧
          doc.NoSnapshot id) ∧
      ∀ H fuel order ord d,
        Container.run H fuel 32 256 ord (traceCalls hashId order
          (runTrace (State.step hashId) (State.opened docs) events)) = .ok d → d.Holds s.diff := by
  have hs : Mirrored hashId s := foldlM_invariant_of_trace (Mirrored hashId)
    (fun x => StepOk x.1 x.2) (fun _ _ _ hs hok hstep => hs.step hok hstep)
    (mirrored_opened hwf) hok hrun
  -- no transaction is open, so what is seen is what is stored
  have hview : s.view = s.docs := by rw [State.view, htx]; rfl
  have hshows := hs.shown hfilled id (by rw [hdrained]; rfl)
  rw [hview] at hshows
  refine ⟨hshows, ?_, fun H fuel order ord d hd => diff_run hrun ▸ Container.run_holds hd⟩
  -- after a restart the diff shows the same documents
  have hrefill := shows_fillDiff hashId (hs.docs_wellFormed id)
  cases hlookup : s.docs.lookup id with
  | none =>
    rw [hlookup] at hshows hrefill
    exact .inl (hshows.trans hrefill.symm)
  | some doc =>
    rw [hlookup] at hshows hrefill
    by_cases hmarked : doc.Marked
    · exact .inl ((hshows.1 hmarked).trans (hrefill.1 hmarked).symm)
    · by_cases hroot : doc.IsEmptyRoot id
      · by_cases hsnapshot : doc.NoSnapshot id
        · exact .inr ⟨doc, rfl, hmarked, hroot, hsnapshot⟩
        · have hnone := (hshows.2.2 hmarked hroot).resolve_right fun h => hsnapshot h.1
          have hnone' := (hrefill.2.2 hmarked hroot).resolve_right fun h => hsnapshot h.1
          exact .inl (hnone.trans hnone'.symm)
      · exact .inl ((hshows.2.1 hmarked hroot).trans (hrefill.2.1 hmarked hroot).symm)

instance (coll : HeadsColl) (id : GoString) : Decidable (Fresh coll id) :=
  decidable_of_iff ((coll.lookup id).all fun doc => decide doc.Marked) (by
    unfold Fresh
    cases coll.lookup id <;> simp)

instance (view : HeadsColl) (change : Change) : Decidable (ChangeOk view change) :=
  match change with
  | .createTree root _ _ => inferInstanceAs (Decidable (Fresh view root))
  | .addChanges id heads _ _ => inferInstanceAs (Decidable (heads.head? ≠ some id))
  | .createAcl root => inferInstanceAs (Decidable (Fresh view root))
  | .addRecords id head => inferInstanceAs (Decidable (head ≠ id))
  | .setKeyValues storageName hash => inferInstanceAs (Decidable (hash ≠ storageName))

/-- What decides `StepOk` if every transaction commits and no mark fails. -/
def stepCheck (s : State) : Event → Bool
  | .update change => decide (ChangeOk s.view change)
  | .abort => false
  | .delete _ fails => !fails
  | _ => true

/-- The condition on an event, decided on a given state. -/
theorem stepOk_of_check {s : State} {event : Event} (h : stepCheck s event = true) :
    StepOk s event := by
  cases event with
  | update change =>
    have hchange : ChangeOk s.view change := of_decide_eq_true h
    exact hchange
  | abort => cases h
  | delete id fails =>
    intro hfails
    rw [stepCheck, hfails] at h
    cases h
  | beginTx | commit | drain | queue | fill | restart => trivial

namespace Sample

/-- Values of `HashId` for "a", "c" and "t". -/
def hashId (id : GoString) : GoString :=
  hexEncode (bytesOfNat 32
    (if id = [97] then 0x17762fddd969a453925d65717ac3eea21320b66b54342fde15128d6caf21215f
    else if id = [99] then 0xea7aa1fc9efdbe106dbb70369a75e9671fa29d52bd55536711bf197477b8f021
    else if id = [116] then 0x0538661423236a5d8df6286a8633369e2a03c5f90d48eded333222dbee8cdbdd
    else 0))

/-- An ACL "a" and a tree "t" that gets a change "c" in a transaction that ends with `last`. -/
def events (last : Event) : List Event :=
  [.fill, .beginTx, .update (.createAcl [97]), .commit, .beginTx,
    .update (.createTree [116] false []), .commit, .drain, .drain, .beginTx,
    .update (.addChanges [116] [[99]] [116] 1), last, .drain]

/-- The state after the events. -/
def state (last : Event) : State :=
  match State.run hashId ∅ (events last) with
  | .ok s => s
  | .error _ => State.opened ∅

theorem run_eq_state {last : Event} (hok : (State.run hashId ∅ (events last)).isOk = true) :
    State.run hashId ∅ (events last) = .ok (state last) := by
  unfold state
  cases hrun : State.run hashId ∅ (events last) with
  | ok s => rfl
  | error => simp [hrun, Except.isOk, Except.toBool] at hok

end Sample

open Sample

/-- The transaction commits, and the diff has the change of the tree and nothing for the ACL. -/
theorem mirrors_committedChange :
    let s := state .commit
    State.run hashId ∅ (events .commit) = .ok s ∧
      Shows hashId [116] (s.docs.lookup [116]) (s.diff.lookup [116]) ∧
      s.diff.lookup [116] = some (hashId [99]) ∧ s.diff.lookup [97] = none := by
  intro s
  have hrun : State.run hashId ∅ (events .commit) = .ok s :=
    run_eq_state (by decide +kernel)
  have hok : ∀ x ∈ runTrace (State.step hashId) (State.opened ∅) (events .commit),
      stepCheck x.1 x.2 = true := by decide +kernel
  have hmirrors := run_mirrors (fun _ _ h => by cases h) hrun
    (fun x hx => stepOk_of_check (hok x hx)) (by decide +kernel) (by decide +kernel)
    (by decide +kernel) [116]
  exact ⟨hrun, hmirrors.1, by decide +kernel, by decide +kernel⟩

/-- The transaction fails to commit: the diff has a head that is not stored. -/
theorem diff_rolledBackChange :
    let s := state .abort
    State.run hashId ∅ (events .abort) = .ok s ∧
      s.buffered = [] ∧ s.tx.isNone ∧
      (s.docs.lookup [116]).bind HeadsDoc.heads = some [[116]] ∧
      s.diff.lookup [116] = some (hashId [99]) ∧
      (fillDiff hashId s.docs ∅).lookup [116] = none := by
  intro s
  exact ⟨run_eq_state (by decide +kernel), by decide +kernel, by decide +kernel,
    by decide +kernel, by decide +kernel, by decide +kernel⟩

end Headsync
