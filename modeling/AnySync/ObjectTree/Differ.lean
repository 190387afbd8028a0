import AnySync.Go.Run
import AnySync.Go.Sorted
import AnySync.Graph.Search
import AnySync.ObjectTree.Object

/-!
# The frontier of seen changes

`ChangeDiffer` of `changediffer.go` holds the changes that were not seen yet. `RemoveBefore` takes
ids that were seen, removes them with everything before them, and computes the heads of all that was
seen from the heads it is given, by counting ids in sorted slices.

As in the tree, a change points to others by id. `Previous` of an attached change points to attached
changes only, since `RemoveBefore` drops the pointers to what it removes.

`Session.Reachable.frontier` says what was removed and what the heads are along any calls.
-/

namespace ObjectTree

open List (count_append mem_filter mem_append_left)
open Relation.ReflTransGen (cases_tail mono)
open Graph (kept weight)

/-- `diffChange`. -/
structure DiffChange where
  id : GoString
  previousIds : List GoString
  /-- The ids of the changes in `Previous`. -/
  previous : List GoString
deriving DecidableEq

/-- `newDiffChange`. -/
def newDiffChange (id : GoString) (previousIds : List GoString) : DiffChange :=
  { id := id, previousIds := previousIds, previous := [] }

/-- `ChangeDiffer`, without the buffer of `dfsPrev`. -/
structure ChangeDiffer where
  known : GoMap GoString Unit
  attached : GoMap GoString DiffChange
  /-- For the id of a change that is not attached, the ids of the changes that point to it. -/
  waitList : GoMap GoString (List GoString)

/-- The results of `RemoveBefore`. -/
structure Removal where
  removed : List GoString
  notFound : List GoString
  heads : List GoString
deriving DecidableEq

namespace ChangeDiffer

/-- The change is attached. -/
def has (d : ChangeDiffer) (id : GoString) : Bool := (d.attached.lookup id).isSome

/-- `Previous` of an attached change. -/
def previous (d : ChangeDiffer) (id : GoString) : List GoString :=
  match d.attached.lookup id with
  | some ch => ch.previous
  | none => []

/-- The body of the second loop of `add`: the change `id` points to `pid` or waits for it. -/
def link (id : GoString) (d : ChangeDiffer) (pid : GoString) : ChangeDiffer :=
  if d.has pid then
    { d with attached :=
        d.attached.adjust id fun ch => { ch with previous := ch.previous ++ [pid] } }
  else { d with waitList := d.waitList.insert pid ((d.waitList.lookup pid).getD [] ++ [id]) }

/-- The first loop of `add`: the changes that wait for `id` point to it. -/
def linkWaiting (id : GoString) (d : ChangeDiffer) : ChangeDiffer :=
  match d.waitList.lookup id with
  | none => d
  | some wl =>
    { d with
      attached := wl.foldl (fun attached waiting =>
        attached.adjust waiting fun ch => { ch with previous := ch.previous ++ [id] }) d.attached
      waitList := d.waitList.erase id }

/-- `add`. -/
def add (d : ChangeDiffer) (change : DiffChange) : ChangeDiffer :=
  if d.has change.id then d
  else
    change.previousIds.foldl (link change.id)
      ({ d with attached := d.attached.insert change.id change }.linkWaiting change.id)

/-- `Add`. -/
def addAll (d : ChangeDiffer) (changes : List Change) : ChangeDiffer :=
  changes.foldl (fun d ch => d.add (newDiffChange ch.id ch.previousIds)) d

/-- The change is known from the tree. -/
def know (d : ChangeDiffer) (id : GoString) : ChangeDiffer :=
  { d with known := d.known.insert id () }

/-- `NewChangeDiffer`, for a tree that iterates over `changes`. -/
def new (changes : List Change) : ChangeDiffer :=
  changes.foldl (fun d c => (d.know c.id).add (newDiffChange c.id c.previousIds))
    { known := ∅, attached := ∅, waitList := ∅ }

/-- `dfsPrev`: the changes in the order in which they are visited. -/
def dfsPrev (d : ChangeDiffer) (stack : List GoString) : Option (List GoString) :=
  let fuel := weight d.previous d.attached.keys [] + stack.length
  (Graph.search d.previous d.has fuel [] stack.reverse).map List.reverse

/-- The first part of `afterVisit`: the changes are removed, and no change points to them. -/
def without (d : ChangeDiffer) (removed : List GoString) : ChangeDiffer :=
  let attached := removed.foldl (fun attached id => attached.erase id) d.attached
  { d with
    attached := GoMap.mapKV (Equiv.refl _)
      (fun ch => { ch with previous := ch.previous.filter (· ∉ removed) }) attached }

/-- What `RemoveBefore` collects in `heads` during the visit. -/
def collect (d : ChangeDiffer) (seenHeads visited : List GoString) : List GoString :=
  seenHeads ++ (visited.filterMap d.attached.lookup).flatMap fun ch => ch.id :: ch.previousIds

/-- The end of `RemoveBefore`: the heads from what was collected. -/
def headsOf (collected attachedIds seenHeads : List GoString) : List GoString :=
  let heads := removeRepeatedSorted (sortStrings collected)
  let heads := sortStrings (heads ++ attachedIds ++ seenHeads)
  discardDuplicatesSorted (removeUniqueElementsSorted heads)

/-- `RemoveBefore`. -/
def removeBefore (d : ChangeDiffer) (ids seenHeads : List GoString) :
    Option (Removal × ChangeDiffer) := do
  let attachedIds := ids.filter d.has
  let removed ← d.dfsPrev attachedIds
  pure
    ({ removed := removed
       notFound := ids.filter fun id => !d.has id && (d.known.lookup id).isNone
       heads := headsOf (d.collect seenHeads removed) attachedIds seenHeads },
     d.without removed)

end ChangeDiffer

/-! ## Counting -/

section Counting

variable {collected attachedIds seenHeads : List GoString} {x : GoString}

theorem pairwise_sortStrings (l : List GoString) : (sortStrings l).Pairwise (· ≤ ·) :=
  List.pairwise_insertionSort (· ≤ ·) l

theorem sortStrings_perm (l : List GoString) : (sortStrings l).Perm l :=
  List.perm_insertionSort _ l

/-- The ids that were collected once, each once. -/
theorem count_removeRepeatedSorted (l : List GoString) (x : GoString) :
    (removeRepeatedSorted (sortStrings l)).count x = if l.count x = 1 then 1 else 0 := by
  rw [removeRepeatedSorted_eq_filter (pairwise_sortStrings l)]
  have hcount := (sortStrings_perm l).count_eq x
  by_cases hone : l.count x = 1
  · rw [List.count_filter (by simp [hcount, hone]), if_pos hone, hcount, hone]
  · rw [if_neg hone, List.count_eq_zero, mem_filter]
    simp [hcount, hone]

/-- A head is collected once, requested or seen: two of the three. -/
theorem mem_headsOf (hattached : attachedIds.Nodup) (hseen : seenHeads.Nodup) :
    x ∈ ChangeDiffer.headsOf collected attachedIds seenHeads ↔
      1 < (if collected.count x = 1 then 1 else 0) + (if x ∈ attachedIds then 1 else 0) +
        if x ∈ seenHeads then 1 else 0 := by
  have hsorted := pairwise_sortStrings
    (removeRepeatedSorted (sortStrings collected) ++ attachedIds ++ seenHeads)
  rw [ChangeDiffer.headsOf, discardDuplicatesSorted]
  rw [removeUniqueElementsSorted_eq_filter hsorted,
    (hsorted.filter _).destutter_eq_dedup, List.mem_dedup, mem_filter, decide_eq_true_eq,
    (sortStrings_perm _).count_eq, count_append, count_append,
    count_removeRepeatedSorted, hattached.count, hseen.count]
  refine and_iff_right_of_imp fun hlt => ?_
  rw [(sortStrings_perm _).mem_iff, ← List.count_pos_iff, count_append, count_append,
    count_removeRepeatedSorted, hattached.count, hseen.count]
  omega

theorem nodup_headsOf : (ChangeDiffer.headsOf collected attachedIds seenHeads).Nodup := by
  have hsorted := pairwise_sortStrings
    (removeRepeatedSorted (sortStrings collected) ++ attachedIds ++ seenHeads)
  rw [ChangeDiffer.headsOf, discardDuplicatesSorted]
  rw [removeUniqueElementsSorted_eq_filter hsorted, (hsorted.filter _).destutter_eq_dedup]
  exact List.nodup_dedup _

end Counting

/-! ## The calls on the differ -/

namespace ChangeDiffer

variable {d : ChangeDiffer} {id x : GoString} {pids removed : List GoString}

theorem previous_of_lookup {ch : DiffChange} (h : d.attached.lookup id = some ch) :
    d.previous id = ch.previous := by
  simp [previous, h]

@[simp]
theorem has_link (d : ChangeDiffer) (id pid x : GoString) : (d.link id pid).has x = d.has x := by
  unfold link
  split
  · simp only [has, GoMap.lookup_adjust_eq]
    split <;> simp
  · rfl

/-- The second loop of `add`. -/
theorem lookup_foldl_link (d : ChangeDiffer) (id : GoString) (pids : List GoString)
    (x : GoString) :
    (pids.foldl (link id) d).attached.lookup x =
      if x = id then (d.attached.lookup x).map fun ch =>
        { ch with previous := ch.previous ++ pids.filter d.has }
      else d.attached.lookup x := by
  induction pids generalizing d with
  | nil => simp
  | cons pid pids ih =>
    have hhas : (d.link id pid).has = d.has := funext fun x => has_link d id pid x
    rw [List.foldl_cons, ih, hhas]
    unfold link
    cases hpid : d.has pid with
    | true =>
      simp only [if_true, GoMap.lookup_adjust_eq, List.filter_cons_of_pos hpid]
      split <;> simp [Function.comp_def]
    | false => simp [hpid]

/-- A change waits for previous changes that are not attached. -/
theorem lookup_waitList_foldl_link (d : ChangeDiffer) (id : GoString) (pids : List GoString)
    (h : ((pids.foldl (link id) d).waitList.lookup x).isSome = true) :
    (d.waitList.lookup x).isSome = true ∨ x ∈ pids ∧ d.has x = false := by
  induction pids generalizing d with
  | nil => exact .inl h
  | cons pid pids ih =>
    rcases ih (d.link id pid) h with h | ⟨hmem, hnot⟩
    · unfold link at h
      split at h
      · exact .inl h
      · next hpid =>
        simp only [GoMap.lookup_insert_eq] at h
        split at h
        · next heq => exact .inr ⟨by simp [heq], by simpa [heq] using hpid⟩
        · exact .inl h
    · exact .inr ⟨List.mem_cons_of_mem _ hmem, by simpa using hnot⟩

/-- Adding a change that nothing waits for. -/
theorem add_eq_of_new {change : DiffChange} (hnew : d.has change.id = false)
    (hwait : d.waitList.lookup change.id = none) :
    d.add change = change.previousIds.foldl (link change.id)
      { d with attached := d.attached.insert change.id change } := by
  simp [add, hnew, linkWaiting, hwait]

theorem lookup_without (d : ChangeDiffer) (removed : List GoString) (x : GoString) :
    (d.without removed).attached.lookup x =
      if x ∈ removed then none
      else (d.attached.lookup x).map fun ch =>
        { ch with previous := ch.previous.filter (· ∉ removed) } := by
  have hmap := GoMap.lookup_mapKV (Equiv.refl GoString)
    (fun ch : DiffChange => { ch with previous := ch.previous.filter (· ∉ removed) })
    (removed.foldl (fun attached id => attached.erase id) d.attached) x
  rw [Equiv.refl_apply] at hmap
  rw [without, hmap, GoMap.lookup_foldl_erase]
  split <;> rfl

end ChangeDiffer

/-! ## Sessions -/

/-- A differ with what its calls were given and have returned. -/
structure Session where
  differ : ChangeDiffer
  /-- The changes that were added. -/
  added : List Change
  /-- The ids that were requested while they were attached. -/
  requested : List GoString
  /-- The ids that all calls together have removed. -/
  removed : List GoString
  /-- The heads that the last call has returned. -/
  seenHeads : List GoString

/-- The changes come after their previous changes, and no change comes twice. -/
def CausalOrder (changes : List Change) : Prop :=
  ∀ before c after, changes = before ++ c :: after →
    c.id ∉ before.map Change.id ∧ ∀ pid ∈ c.previousIds, pid ∈ before.map Change.id

namespace Session

/-- A new differ for a tree that iterates over `changes`. -/
def new (changes : List Change) : Session :=
  { differ := .new changes, added := changes, requested := [], removed := [], seenHeads := [] }

/-- `Add` with one change. A change that is attached is not added again. -/
def add (s : Session) (c : Change) : Session :=
  { s with
    differ := s.differ.addAll [c]
    added := if s.differ.has c.id then s.added else s.added ++ [c] }

/-- `RemoveBefore` with the heads that the last call has returned. -/
def removeBefore (s : Session) (ids : List GoString) : Option Session := do
  let (result, differ) ← s.differ.removeBefore ids s.seenHeads
  pure
    { s with
      differ := differ
      requested := s.requested ++ ids.filter s.differ.has
      removed := s.removed ++ result.removed
      seenHeads := result.heads }

/-- The change comes after its previous changes, and if it was added before, it is attached
still. -/
def Follows (s : Session) (c : Change) : Prop :=
  (c.id ∈ s.added.map Change.id → s.differ.has c.id = true) ∧
    ∀ pid ∈ c.previousIds, pid ∈ s.added.map Change.id

/-- The sessions of the changes of a graph in causal order. `Add` with several changes is a
sequence of calls with one. -/
inductive Reachable : Session → Prop
  | new {changes : List Change} : CausalOrder changes → Reachable (.new changes)
  | add {s : Session} {c : Change} : Reachable s → s.Follows c → Reachable (s.add c)
  | removeBefore {s s' : Session} {ids : List GoString} : Reachable s → ids.Nodup →
      s.removeBefore ids = some s' → Reachable s'

/-- The previous ids of a change that was added. -/
def previousIds (s : Session) (id : GoString) : List GoString :=
  ((s.added.find? fun c => c.id = id).map Change.previousIds).getD []

/-- The change was removed, and no change that was removed comes after it. -/
def IsHead (s : Session) (x : GoString) : Prop :=
  x ∈ s.removed ∧ ∀ y ∈ s.removed, x ∉ s.previousIds y

/-- What holds of the session between calls. -/
structure WF (s : Session) : Prop where
  has_iff : ∀ x, s.differ.has x = true ↔ x ∈ s.added.map Change.id ∧ x ∉ s.removed
  node : ∀ x ch, s.differ.attached.lookup x = some ch →
    ch.id = x ∧ ch.previousIds = s.previousIds x ∧
      ∀ pid, pid ∈ ch.previous ↔ pid ∈ ch.previousIds ∧ s.differ.has pid = true
  waiting : ∀ x, (s.differ.waitList.lookup x).isSome = true → x ∈ s.removed
  previous_added : ∀ x, ∀ pid ∈ s.previousIds x, pid ∈ s.added.map Change.id
  removed_added : ∀ x ∈ s.removed, x ∈ s.added.map Change.id
  closed : ∀ x ∈ s.removed, ∀ pid ∈ s.previousIds x, pid ∈ s.removed
  nodup : s.removed.Nodup
  requested : ∀ x ∈ s.requested, x ∈ s.removed
  ancestor : ∀ x ∈ s.removed, ∃ id ∈ s.requested, Graph.Reaches s.previousIds id x
  heads_nodup : s.seenHeads.Nodup
  mem_heads : ∀ x, x ∈ s.seenHeads ↔ s.IsHead x

variable {s : Session} {c : Change} {x : GoString}

/-- Only changes that were added have previous ids. -/
theorem mem_added_of_mem_previousIds {pid : GoString} (h : pid ∈ s.previousIds x) :
    x ∈ s.added.map Change.id := by
  unfold previousIds at h
  cases hfind : s.added.find? fun c => c.id = x with
  | none => simp [hfind] at h
  | some c =>
    have hid : c.id = x := by simpa using List.find?_some hfind
    exact hid ▸ List.mem_map_of_mem (List.mem_of_find?_eq_some hfind)

theorem WF.know (h : s.WF) (id : GoString) :
    ({ s with differ := s.differ.know id } : Session).WF :=
  ⟨h.has_iff, h.node, h.waiting, h.previous_added, h.removed_added, h.closed, h.nodup, h.requested,
    h.ancestor, h.heads_nodup, h.mem_heads⟩

section Add

variable (hhas : s.differ.has c.id = false) (hnew : c.id ∉ s.added.map Change.id)
  (hwait : s.differ.waitList.lookup c.id = none) (hself : c.id ∉ c.previousIds)

include hhas

theorem mem_added_add (x : GoString) :
    x ∈ (s.add c).added.map Change.id ↔ x ∈ s.added.map Change.id ∨ x = c.id := by
  simp [add, hhas]

include hnew in
/-- One more change does not change the previous ids of the others. -/
theorem previousIds_add (x : GoString) :
    (s.add c).previousIds x = if x = c.id then c.previousIds else s.previousIds x := by
  have hadded : (s.add c).added = s.added ++ [c] := by simp [add, hhas]
  rw [previousIds, hadded, List.find?_append]
  by_cases hx : x = c.id
  · have hnone : s.added.find? (fun c => c.id = x) = none := by
      rw [List.find?_eq_none]
      intro c' hc'
      have hne : c'.id ≠ x := fun heq => hnew (hx ▸ heq ▸ List.mem_map_of_mem hc')
      simpa using hne
    rw [if_pos hx, hnone]
    simp [hx]
  · rw [if_neg hx, previousIds]
    cases s.added.find? fun c => c.id = x with
    | some c' => rfl
    | none => simp [Ne.symm hx]

include hwait

theorem differ_add : (s.add c).differ = c.previousIds.foldl (ChangeDiffer.link c.id)
    { s.differ with
      attached := s.differ.attached.insert c.id (newDiffChange c.id c.previousIds) } :=
  ChangeDiffer.add_eq_of_new hhas hwait

include hself

theorem lookup_add (x : GoString) :
    (s.add c).differ.attached.lookup x =
      if x = c.id then some { newDiffChange c.id c.previousIds with
        previous := c.previousIds.filter s.differ.has }
      else s.differ.attached.lookup x := by
  rw [differ_add hhas hwait, ChangeDiffer.lookup_foldl_link, GoMap.lookup_insert_eq]
  split
  · simp only [Option.map_some, newDiffChange, List.nil_append, Option.some.injEq,
      DiffChange.mk.injEq, true_and]
    refine List.filter_congr fun pid hpid => ?_
    have hne : pid ≠ c.id := fun heq => hself (heq ▸ hpid)
    simp [ChangeDiffer.has, hne]
  · rfl

theorem has_add (x : GoString) :
    (s.add c).differ.has x = true ↔ x = c.id ∨ s.differ.has x = true := by
  rw [ChangeDiffer.has, lookup_add hhas hwait hself]
  split
  · next hx => simp [hx]
  · next hx => simp [hx, ChangeDiffer.has]

end Add

theorem WF.add_of_new (h : s.WF) (hhas : s.differ.has c.id = false)
    (hnew : c.id ∉ s.added.map Change.id)
    (hpids : ∀ pid ∈ c.previousIds, pid ∈ s.added.map Change.id) : (s.add c).WF := by
  -- nothing waits for a change that was never added
  have hwait : s.differ.waitList.lookup c.id = none := by
    rw [← Option.not_isSome_iff_eq_none]
    exact fun hsome => hnew (h.removed_added _ (h.waiting _ hsome))
  have hself : c.id ∉ c.previousIds := fun hmem => hnew (hpids _ hmem)
  have hne : ∀ x ∈ s.removed, x ≠ c.id := fun x hx heq => hnew (heq ▸ h.removed_added x hx)
  have hsame : ∀ x ∈ s.removed, (s.add c).previousIds x = s.previousIds x :=
    fun x hx => by rw [previousIds_add hhas hnew, if_neg (hne x hx)]
  -- a change that points to attached changes does not point to the new one
  have hpoints : ∀ pids : List GoString, (∀ pid ∈ pids, pid ∈ s.added.map Change.id) → ∀ pid,
      pid ∈ pids ∧ s.differ.has pid = true ↔ pid ∈ pids ∧ (s.add c).differ.has pid = true := by
    intro pids hadded pid
    rw [has_add hhas hwait hself]
    refine and_congr_right fun hpid => (or_iff_right fun heq => ?_).symm
    exact hnew (heq ▸ hadded pid hpid)
  constructor
  case has_iff =>
    intro x
    rw [has_add hhas hwait hself, mem_added_add hhas, h.has_iff, or_and_right, or_comm]
    refine or_congr Iff.rfl ?_
    exact ⟨fun hx => ⟨hx, fun hmem => hne x hmem hx⟩, fun hx => hx.1⟩
  case node =>
    intro x ch hch
    rw [lookup_add hhas hwait hself] at hch
    rw [previousIds_add hhas hnew]
    split at hch
    · next hx =>
      obtain rfl := Option.some.inj hch
      refine ⟨hx.symm, by rw [if_pos hx]; rfl, fun pid => ?_⟩
      rw [mem_filter]
      exact hpoints c.previousIds hpids pid
    · next hx =>
      obtain ⟨hid, hchpids, hmem⟩ := h.node x ch hch
      refine ⟨hid, by rw [if_neg hx]; exact hchpids, fun pid => ?_⟩
      rw [hmem]
      exact hpoints ch.previousIds (hchpids ▸ h.previous_added x) pid
  case waiting =>
    intro x hx
    rw [differ_add hhas hwait] at hx
    rcases ChangeDiffer.lookup_waitList_foldl_link _ _ _ hx with hx | ⟨hmem, hnot⟩
    · exact h.waiting x hx
    · -- a previous change that is not attached was removed
      by_contra hremoved
      have hattached := (h.has_iff x).mpr ⟨hpids x hmem, hremoved⟩
      have hxne : x ≠ c.id := fun heq => hself (heq ▸ hmem)
      simp [ChangeDiffer.has, hxne] at hnot
      simp [ChangeDiffer.has, hnot] at hattached
  case previous_added =>
    intro x pid hpid
    rw [mem_added_add hhas]
    rw [previousIds_add hhas hnew] at hpid
    split at hpid
    · exact .inl (hpids pid hpid)
    · exact .inl (h.previous_added x pid hpid)
  case removed_added => exact fun x hx => (mem_added_add hhas x).mpr (.inl (h.removed_added x hx))
  case closed => exact fun x hx pid hpid => h.closed x hx pid (hsame x hx ▸ hpid)
  case nodup => exact h.nodup
  case requested => exact h.requested
  case ancestor =>
    intro x hx
    obtain ⟨id, hid, hreach⟩ := h.ancestor x hx
    refine ⟨id, hid, mono (fun a b hab => ?_) _ _ hreach⟩
    have ha : a ≠ c.id := fun heq => hnew (heq ▸ mem_added_of_mem_previousIds hab)
    show b ∈ (s.add c).previousIds a
    rw [previousIds_add hhas hnew, if_neg ha]
    exact hab
  case heads_nodup => exact h.heads_nodup
  case mem_heads =>
    intro x
    refine Iff.trans (h.mem_heads x) (and_congr_right fun _ => ?_)
    exact forall₂_congr fun y hy => by rw [hsame y hy]

theorem WF.add (h : s.WF) (hfollows : s.Follows c) : (s.add c).WF := by
  cases hhas : s.differ.has c.id with
  | true =>
    have hsame : s.add c = s := by
      simp [Session.add, ChangeDiffer.addAll, ChangeDiffer.add, newDiffChange, hhas]
    rw [hsame]
    exact h
  | false =>
    refine h.add_of_new hhas (fun hmem => ?_) hfollows.2
    rw [hfollows.1 hmem] at hhas
    cases hhas

/-- The differ of a tree. -/
theorem WF.new {changes : List Change} (hcausal : CausalOrder changes) :
    (Session.new changes).WF := by
  induction changes using List.reverseRecOn with
  | nil =>
    constructor <;> intros <;>
      simp_all [Session.new, ChangeDiffer.new, ChangeDiffer.has, previousIds, IsHead]
  | append_singleton changes c ih =>
    obtain ⟨hcausal, hnew, hpids⟩ := forall_split_concat.mp hcausal
    have hhas : (ChangeDiffer.new changes).has c.id = false := by
      rw [← Bool.not_eq_true]
      exact fun hhas => hnew (((ih hcausal).has_iff c.id).mp hhas).1
    have hhas' : ((ChangeDiffer.new changes).know c.id).has c.id = false := hhas
    have heq : Session.new (changes ++ [c]) = Session.add
        { Session.new changes with differ := (ChangeDiffer.new changes).know c.id } c := by
      simp [Session.new, Session.add, ChangeDiffer.addAll, hhas']
      simp [ChangeDiffer.new]
    rw [heq]
    exact ((ih hcausal).know c.id).add_of_new hhas' hnew hpids

/-! ## Removing -/

section Remove

variable {d : ChangeDiffer} {ids stack visited : List GoString} {y : GoString}

theorem exists_dfsPrev (d : ChangeDiffer) (stack : List GoString) :
    ∃ visited, d.dfsPrev stack = some visited := by
  have hkeys : ∀ id, d.has id = true → id ∈ d.attached.keys :=
    fun id hid => AList.mem_keys.mp (AList.lookup_isSome.mp hid)
  have hfuel : weight d.previous d.attached.keys [] + stack.reverse.length
      ≤ weight d.previous d.attached.keys [] + stack.length := by
    rw [List.length_reverse]
  obtain ⟨marked, hmarked⟩ := Graph.exists_search hkeys hfuel
  exact ⟨marked.reverse, by rw [ChangeDiffer.dfsPrev, hmarked, Option.map_some]⟩

/-- What is visited, when the search starts from attached changes. -/
theorem mem_dfsPrev (h : d.dfsPrev stack = some visited) (hstack : ∀ id ∈ stack, d.has id = true) :
    visited.Nodup ∧
      (x ∈ visited ↔ ∃ id ∈ stack, Graph.Reaches (kept d.previous d.has) id x) := by
  obtain ⟨marked, hmarked, rfl⟩ := Option.map_eq_some_iff.mp h
  refine ⟨List.nodup_reverse.mpr (Graph.nodup_search List.nodup_nil hmarked), ?_⟩
  rw [List.mem_reverse, Graph.mem_search_iff hmarked]
  constructor
  · rintro ⟨id, hid, -, hreach⟩
    exact ⟨id, List.mem_reverse.mp hid, hreach⟩
  · rintro ⟨id, hid, hreach⟩
    exact ⟨id, List.mem_reverse.mpr hid, hstack id hid, hreach⟩

/-- What a visit from the requested changes finds. -/
structure Visits (s : Session) (attachedIds visited : List GoString) : Prop where
  nodup : visited.Nodup
  requested : ∀ x ∈ attachedIds, x ∈ visited
  has : ∀ x ∈ visited, s.differ.has x = true
  closed : ∀ x ∈ visited, ∀ pid ∈ s.previousIds x, pid ∈ visited ∨ pid ∈ s.removed
  ancestor : ∀ x ∈ visited, ∃ id ∈ attachedIds, Graph.Reaches s.previousIds id x
  successor : ∀ x ∈ visited, x ∉ attachedIds → ∃ y ∈ visited, x ∈ s.previousIds y

/-- An attached change points to its previous changes that are attached. -/
theorem WF.mem_kept (h : s.WF) (hx : s.differ.has x = true) :
    y ∈ kept s.differ.previous s.differ.has x ↔
      y ∈ s.previousIds x ∧ s.differ.has y = true := by
  obtain ⟨ch, hch⟩ := Option.isSome_iff_exists.mp hx
  obtain ⟨-, hpids, hmem⟩ := h.node x ch hch
  rw [kept, mem_filter, ChangeDiffer.previous_of_lookup hch, hmem, hpids, and_assoc,
    and_self]

theorem WF.visits (h : s.WF) (hstack : ∀ id ∈ stack, s.differ.has id = true)
    (hdfs : s.differ.dfsPrev stack = some visited) : s.Visits stack visited := by
  have hmem : ∀ x, x ∈ visited ↔
      ∃ id ∈ stack, Graph.Reaches (kept s.differ.previous s.differ.has) id x :=
    fun x => (mem_dfsPrev hdfs hstack).2
  have hhas : ∀ x ∈ visited, s.differ.has x = true := by
    intro x hx
    obtain ⟨id, hid, hreach⟩ := (hmem x).mp hx
    rcases cases_tail hreach with rfl | ⟨y, -, hedge⟩
    · exact hstack _ hid
    · exact (List.mem_filter.mp hedge).2
  constructor
  case nodup => exact (mem_dfsPrev (x := []) hdfs hstack).1
  case requested => exact fun x hx => (hmem x).mpr ⟨x, hx, .refl⟩
  case has => exact hhas
  case closed =>
    intro x hx pid hpid
    by_cases hremoved : pid ∈ s.removed
    · exact .inr hremoved
    · have hattached := (h.has_iff pid).mpr ⟨h.previous_added x pid hpid, hremoved⟩
      obtain ⟨id, hid, hreach⟩ := (hmem x).mp hx
      exact .inl ((hmem pid).mpr ⟨id, hid, hreach.tail ((h.mem_kept (hhas x hx)).mpr
        ⟨hpid, hattached⟩)⟩)
  case ancestor =>
    intro x hx
    obtain ⟨id, hid, hreach⟩ := (hmem x).mp hx
    refine ⟨id, hid, ?_⟩
    -- each step of the path leaves an attached change
    induction hreach with
    | refl => exact .refl
    | tail hreach hedge ih =>
      have hb := (hmem _).mpr ⟨id, hid, hreach⟩
      exact (ih hb).tail ((h.mem_kept (hhas _ hb)).mp hedge).1
  case successor =>
    intro x hx hnot
    obtain ⟨id, hid, hreach⟩ := (hmem x).mp hx
    rcases cases_tail hreach with rfl | ⟨y, hy, hedge⟩
    · exact absurd hid hnot
    · have hvisited := (hmem y).mpr ⟨id, hid, hy⟩
      exact ⟨y, hvisited, ((h.mem_kept (hhas y hvisited)).mp hedge).1⟩

/-- What is collected: the heads, what is visited, and the previous ids of what is visited. -/
theorem WF.count_collect (h : s.WF) (hhas : ∀ x ∈ visited, s.differ.has x = true) (x : GoString) :
    (s.differ.collect s.seenHeads visited).count x =
      s.seenHeads.count x + (visited.count x + (visited.flatMap s.previousIds).count x) := by
  rw [ChangeDiffer.collect, count_append]
  congr 1
  induction visited with
  | nil => rfl
  | cons y visited ih =>
    obtain ⟨hy, hvisited⟩ := List.forall_mem_cons.mp hhas
    obtain ⟨ch, hch⟩ := Option.isSome_iff_exists.mp hy
    obtain ⟨hid, hpids, -⟩ := h.node y ch hch
    have hcons : (y :: visited).filterMap s.differ.attached.lookup
        = ch :: visited.filterMap s.differ.attached.lookup :=
      List.filterMap_cons_some (f := s.differ.attached.lookup) hch
    rw [hcons, List.flatMap_cons, List.flatMap_cons, count_append, count_append,
      ih hvisited, hid, hpids, List.count_cons, List.count_cons]
    omega

/-- The heads after a removal are the changes without a removed successor. -/
theorem WF.mem_headsOf (h : s.WF) (hids : ids.Nodup)
    (hvisits : s.Visits (ids.filter s.differ.has) visited) (x : GoString) :
    x ∈ ChangeDiffer.headsOf (s.differ.collect s.seenHeads visited) (ids.filter s.differ.has)
        s.seenHeads ↔
      x ∈ s.removed ++ visited ∧ ∀ y ∈ s.removed ++ visited, x ∉ s.previousIds y := by
  have hfresh : ∀ y ∈ visited, y ∉ s.removed :=
    fun y hy => ((h.has_iff y).mp (hvisits.has y hy)).2
  have hsuccessors : (visited.flatMap s.previousIds).count x = 0 ↔
      ∀ y ∈ visited, x ∉ s.previousIds y := by
    rw [List.count_eq_zero, List.mem_flatMap]
    push Not
    rfl
  rw [ObjectTree.mem_headsOf (hids.filter _) h.heads_nodup, h.count_collect hvisits.has,
    h.heads_nodup.count, hvisits.nodup.count, List.mem_append, List.forall_mem_append]
  by_cases hseen : x ∈ s.seenHeads
  · -- an old head stays one unless something new comes after it
    obtain ⟨hremoved, hmax⟩ := (h.mem_heads x).mp hseen
    have hnot : x ∉ visited := fun hx => hfresh x hx hremoved
    have hnot' : x ∉ ids.filter s.differ.has := fun hx => hnot (hvisits.requested x hx)
    rw [if_pos hseen, if_neg hnot, if_neg hnot', and_iff_right (.inl hremoved),
      and_iff_right hmax, ← hsuccessors]
    split <;> omega
  · rw [if_neg hseen]
    constructor
    · intro hlt
      have hrequested : x ∈ ids.filter s.differ.has := by
        by_contra hnot
        rw [if_neg hnot] at hlt
        split_ifs at hlt <;> omega
      have hvisited := hvisits.requested x hrequested
      have hnone : (visited.flatMap s.previousIds).count x = 0 := by
        rw [if_pos hvisited] at hlt
        split_ifs at hlt <;> omega
      refine ⟨.inr hvisited, fun y hy hmem => ?_, hsuccessors.mp hnone⟩
      exact hfresh x hvisited (h.closed y hy x hmem)
    · rintro ⟨hmem, hmax, hnone⟩
      rcases hmem with hremoved | hvisited
      · exact absurd ((h.mem_heads x).mpr ⟨hremoved, hmax⟩) hseen
      · have hrequested : x ∈ ids.filter s.differ.has := by
          by_contra hnot
          obtain ⟨y, hy, hmem⟩ := hvisits.successor x hvisited hnot
          exact hnone y hy hmem
        rw [if_pos hvisited, if_pos hrequested, hsuccessors.mpr hnone]
        decide

/-- `RemoveBefore` returns, and keeps the session well formed. -/
theorem WF.removeBefore (h : s.WF) (hids : ids.Nodup) :
    ∃ s', s.removeBefore ids = some s' ∧ s'.WF := by
  obtain ⟨visited, hdfs⟩ := exists_dfsPrev s.differ (ids.filter s.differ.has)
  have hvisits := h.visits (fun id hid => (List.mem_filter.mp hid).2) hdfs
  refine ⟨_, by rw [Session.removeBefore, ChangeDiffer.removeBefore, hdfs]; rfl, ?_⟩
  -- the differ no longer has what was removed before
  have hfresh : ∀ y ∈ visited, y ∉ s.removed :=
    fun y hy => ((h.has_iff y).mp (hvisits.has y hy)).2
  -- what is visited is taken out of the graph
  have hhas : ∀ x, (s.differ.without visited).has x = true ↔
      s.differ.has x = true ∧ x ∉ visited := by
    intro x
    rw [ChangeDiffer.has, ChangeDiffer.lookup_without]
    split
    · next hx => simp [hx]
    · next hx => simp [hx, ChangeDiffer.has]
  constructor
  case has_iff =>
    intro x
    show (s.differ.without visited).has x = true ↔
      x ∈ s.added.map Change.id ∧ x ∉ s.removed ++ visited
    rw [hhas, h.has_iff, List.mem_append, not_or, and_assoc]
  case node =>
    intro x ch hch
    change (s.differ.without visited).attached.lookup x = some ch at hch
    rw [ChangeDiffer.lookup_without] at hch
    split at hch
    · cases hch
    · obtain ⟨old, hold, rfl⟩ := Option.map_eq_some_iff.mp hch
      obtain ⟨hid, hpids, hmem⟩ := h.node x old hold
      refine ⟨hid, hpids, fun pid => ?_⟩
      show pid ∈ old.previous.filter (· ∉ visited) ↔
        pid ∈ old.previousIds ∧ (s.differ.without visited).has pid = true
      rw [mem_filter, hmem, hhas, decide_eq_true_eq, and_assoc]
  case waiting => exact fun x hx => mem_append_left _ (h.waiting x hx)
  case previous_added => exact h.previous_added
  case removed_added =>
    intro x hx
    rcases List.mem_append.mp hx with hx | hx
    · exact h.removed_added x hx
    · exact ((h.has_iff x).mp (hvisits.has x hx)).1
  case closed =>
    intro x hx pid hpid
    rcases List.mem_append.mp hx with hx | hx
    · exact mem_append_left _ (h.closed x hx pid hpid)
    · exact List.mem_append.mpr (hvisits.closed x hx pid hpid).symm
  case nodup => exact List.nodup_append'.mpr ⟨h.nodup, hvisits.nodup,
    fun x hx hx' => hfresh x hx' hx⟩
  case requested =>
    intro x hx
    rcases List.mem_append.mp hx with hx | hx
    · exact mem_append_left _ (h.requested x hx)
    · exact List.mem_append_right _ (hvisits.requested x hx)
  case ancestor =>
    intro x hx
    rcases List.mem_append.mp hx with hx | hx
    · obtain ⟨id, hid, hreach⟩ := h.ancestor x hx
      exact ⟨id, mem_append_left _ hid, hreach⟩
    · obtain ⟨id, hid, hreach⟩ := hvisits.ancestor x hx
      exact ⟨id, List.mem_append_right _ hid, hreach⟩
  case heads_nodup => exact nodup_headsOf
  case mem_heads => exact h.mem_headsOf hids hvisits

end Remove

theorem Reachable.wf (h : s.Reachable) : s.WF := by
  induction h with
  | new hcausal => exact .new hcausal
  | add _ hfollows ih => exact ih.add hfollows
  | removeBefore _ hids hs ih =>
    obtain ⟨s', hs', hwf⟩ := ih.removeBefore hids
    obtain rfl := Option.some.inj (hs.symm.trans hs')
    exact hwf

/-- In every session of a graph of changes in causal order: each `RemoveBefore` with distinct ids
returns; the calls have removed the requested ids that were attached with all their ancestors, each
once; and the heads they have returned are the removed changes that no removed change comes
after. -/
theorem Reachable.frontier (h : s.Reachable) :
    (∀ ids : List GoString, ids.Nodup → ∃ s', s.removeBefore ids = some s') ∧
    s.removed.Nodup ∧
    (∀ x, x ∈ s.removed ↔ ∃ id ∈ s.requested, Graph.Reaches s.previousIds id x) ∧
    s.seenHeads.Nodup ∧ ∀ x, x ∈ s.seenHeads ↔ s.IsHead x := by
  have hwf := h.wf
  refine ⟨fun ids hids => ?_, hwf.nodup, fun x => ⟨hwf.ancestor x, ?_⟩, hwf.heads_nodup,
    hwf.mem_heads⟩
  · obtain ⟨s', hs', -⟩ := hwf.removeBefore hids
    exact ⟨s', hs'⟩
  · rintro ⟨id, hid, hreach⟩
    induction hreach with
    | refl => exact hwf.requested id hid
    | tail _ hedge ih => exact hwf.closed _ ih _ hedge

end Session

namespace Session.Sample

/-- A change with one byte as its id. -/
def change (id : UInt8) (previousIds : List UInt8) : Change where
  id := [id]
  previousIds := previousIds.map fun x => [x]
  snapshotId := []
  isSnapshot := false
  orderId := []
  snapshotCounter := 0

/-- Two changes after a first one, and one that merges them. -/
def diamond : List Change := [change 0 [], change 1 [0], change 2 [0], change 3 [1, 2]]

/-- One side of the diamond is seen. -/
def oneSide : Option Session := (Session.new diamond).removeBefore [[1]]

/-- A change is added to the other side, and then it and an unknown one are seen. -/
def otherSide : Option Session :=
  oneSide.bind fun s => (s.add (change 4 [2])).removeBefore [[4], [9]]

end Session.Sample

/-- The heads are then the side that was seen first and the new change. -/
theorem frontier_otherSide :
    ∃ s, Session.Sample.otherSide = some s ∧ s.Reachable ∧ s.removed = [[1], [0], [4], [2]] ∧
      s.seenHeads = [[1], [4]] ∧ ∀ x, x ∈ s.seenHeads ↔ s.IsHead x := by
  have hrun : (Session.Sample.otherSide.map fun s => (s.removed, s.seenHeads)) =
      some ([[1], [0], [4], [2]], [[1], [4]]) := by
    decide +kernel
  obtain ⟨s, hs, hresult⟩ := Option.map_eq_some_iff.mp hrun
  obtain ⟨m, hm, hlast⟩ := Option.bind_eq_some_iff.mp hs
  have hcausal : CausalOrder Session.Sample.diamond := by
    have hnil : CausalOrder [] := fun before c after h => by simp at h
    have hstep : ∀ {changes : List Change} {c : Change}, CausalOrder changes →
        c.id ∉ changes.map Change.id → (∀ pid ∈ c.previousIds, pid ∈ changes.map Change.id) →
        CausalOrder (changes ++ [c]) :=
      fun h hnew hpids => forall_split_concat.mpr ⟨h, hnew, hpids⟩
    exact hstep (hstep (hstep (hstep hnil (by decide) (by decide)) (by decide) (by decide))
      (by decide) (by decide)) (by decide) (by decide)
  have hm' : m.Reachable := .removeBefore (.new hcausal) (by decide) hm
  have hfollows : m.Follows (Session.Sample.change 4 [2]) := by
    have hadded : m.added = Session.Sample.diamond := by
      have htest : (Session.Sample.oneSide.map Session.added) = some Session.Sample.diamond := by
        decide +kernel
      rw [hm] at htest
      exact Option.some.inj htest
    rw [Session.Follows, hadded]
    exact ⟨fun hmem => absurd hmem (by decide), by decide⟩
  have hreach : s.Reachable := .removeBefore (.add hm' hfollows) (by decide) hlast
  exact ⟨s, hs, hreach, congrArg Prod.fst hresult, congrArg Prod.snd hresult,
    hreach.frontier.2.2.2.2⟩

end ObjectTree
