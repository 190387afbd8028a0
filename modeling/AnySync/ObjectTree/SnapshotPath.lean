import AnySync.Go.Basic
import Mathlib.Data.List.Chain

/-!
# Snapshot paths

Replicas tell each other the snapshots from the root of their trees in memory down to the first
one (`SnapshotPath`). `commonSnapshotForTwoPaths` of `util.go` finds the last snapshot that two
paths have in common: it looks from the right for some common id and walks left from there.

The main result is `commonSnapshotForTwoPaths_spec`.
-/

namespace SnapshotPath

/-- The snapshots of a tree. Every snapshot names the one before it, and no snapshot is before
itself. -/
structure SnapshotForest where
  /-- The `SnapshotId` of a snapshot, if it has one. -/
  next : GoString → Option GoString
  acyclic : ∀ id, ¬ Relation.TransGen (fun a b => next a = some b) id id

/-- A part of a branch of the forest, from a snapshot towards the root. -/
def SnapshotForest.IsPath (F : SnapshotForest) (path : List GoString) : Prop :=
  path.IsChain fun a b => F.next a = some b

/-- What `commonSnapshotForTwoPaths` fails with. -/
inductive PathError
  /-- `ErrNoCommonSnapshot`. -/
  | noCommonSnapshot
  /-- The panic of an index that is out of range. -/
  | outOfRange
deriving DecidableEq, Repr

section Search

variable (ourPath theirPath : List GoString)

/-- The inner loop: `j + 1` for the last `j` below the bound with the id, and 0 if there is none. -/
def searchTheirs (id : GoString) : ℕ → ℕ
  | 0 => 0
  | j + 1 => if some id = theirPath[j]? then j + 1 else searchTheirs id j

/-- The outer loop, with both variables plus one. -/
def search : ℕ → ℕ × ℕ
  | 0 => (0, 0)
  | i + 1 =>
    match ourPath[i]? with
    | none => search i
    | some id =>
      match searchTheirs theirPath id theirPath.length with
      | 0 => search i
      | j + 1 => (i + 1, j + 1)

/-- The walk to the left, with both variables plus one. -/
def walk : ℕ → ℕ → ℕ
  | i + 1, j + 1 => if ourPath[i]? = theirPath[j]? then walk i j else i + 1
  | i, _ => i

/-- `commonSnapshotForTwoPaths`. -/
def commonSnapshotForTwoPaths : Except PathError GoString :=
  let (i, j) := search ourPath theirPath ourPath.length
  if i = 0 ∨ j = 0 then .error .noCommonSnapshot
  else
    match ourPath[walk ourPath theirPath i j]? with
    | some id => .ok id
    | none => .error .outOfRange

end Search

/-! ## Two paths of a forest -/

variable {F : SnapshotForest} {p q : List GoString}
variable {i i' j n : ℕ} {a b id : GoString}

theorem SnapshotForest.IsPath.next_eq (hp : F.IsPath p) (ha : p[i]? = some a)
    (hb : p[i + 1]? = some b) : F.next a = some b := by
  obtain ⟨hi, rfl⟩ := List.getElem?_eq_some_iff.mp ha
  obtain ⟨hi', rfl⟩ := List.getElem?_eq_some_iff.mp hb
  exact List.isChain_iff_getElem.mp hp i hi'

/-- An id is before the ids on its left. -/
theorem SnapshotForest.IsPath.transGen (hp : F.IsPath p) {k : ℕ} (ha : p[i]? = some a)
    (hb : p[i + k + 1]? = some b) : Relation.TransGen (fun a b => F.next a = some b) a b := by
  induction k generalizing b with
  | zero => exact .single (hp.next_eq ha hb)
  | succ k ih =>
    obtain ⟨hlt, -⟩ := List.getElem?_eq_some_iff.mp hb
    have hc : p[i + k + 1]? = some p[i + k + 1] := List.getElem?_eq_getElem (by omega)
    exact (ih hc).tail (hp.next_eq hc hb)

/-- A position further to the right is a snapshot before. -/
theorem SnapshotForest.IsPath.lt_of_lt (hp : F.IsPath p) (hq : F.IsPath q) {j' : ℕ}
    (ha : p[i]? = some a) (hb : p[i']? = some b) (ha' : q[j]? = some a) (hb' : q[j']? = some b)
    (hlt : i < i') : j < j' := by
  by_contra hle
  obtain ⟨k, rfl⟩ := Nat.exists_eq_add_of_lt hlt
  have hab := hp.transGen ha hb
  obtain heq | hlt' := (not_lt.mp hle).eq_or_lt
  · subst heq
    obtain rfl := Option.some.inj (hb'.symm.trans ha')
    exact F.acyclic _ hab
  · obtain ⟨k', rfl⟩ := Nat.exists_eq_add_of_lt hlt'
    exact F.acyclic _ (hab.trans (hq.transGen hb' ha'))

/-- No id is twice on a path. -/
theorem SnapshotForest.IsPath.index_eq (hp : F.IsPath p) (ha : p[i]? = some a)
    (ha' : p[i']? = some a) : i = i' := by
  obtain hlt | heq | hgt := lt_trichotomy i i'
  · exact absurd (hp.lt_of_lt hp ha ha' ha' ha hlt) (by omega)
  · exact heq
  · exact absurd (hp.lt_of_lt hp ha' ha ha ha' hgt) (by omega)

/-- From a common id on the paths agree as far as both reach. -/
theorem getElem?_add_eq (hp : F.IsPath p) (hq : F.IsPath q) (ha : p[i]? = some a)
    (ha' : q[j]? = some a) {m : ℕ} (hm : i + m < p.length) (hm' : j + m < q.length) :
    p[i + m]? = q[j + m]? := by
  induction m with
  | zero => exact ha.trans ha'.symm
  | succ m ih =>
    have hx : p[i + m]? = some p[i + m] := List.getElem?_eq_getElem (by omega)
    have hy : p[i + m + 1]? = some p[i + m + 1] := List.getElem?_eq_getElem hm
    have hy' : q[j + m + 1]? = some q[j + m + 1] := List.getElem?_eq_getElem hm'
    have hnext := hp.next_eq hx hy
    rw [hq.next_eq ((ih (by omega) (by omega)).symm.trans hx) hy'] at hnext
    show p[i + m + 1]? = q[j + m + 1]?
    rw [hy, hy', hnext]

/-! ## The search and the walk -/

theorem searchTheirs_eq_zero :
    searchTheirs q id n = 0 ↔ ∀ j < n, q[j]? ≠ some id := by
  induction n with
  | zero => simp [searchTheirs]
  | succ n ih =>
    rw [searchTheirs]
    split
    · next heq =>
      exact iff_of_false (Nat.succ_ne_zero n) fun h => h n (Nat.lt_succ_self n) heq.symm
    · next hne =>
      rw [ih]
      constructor
      · intro h j hj
        obtain hlt | rfl := Nat.lt_succ_iff_lt_or_eq.mp hj
        · exact h j hlt
        · exact fun heq => hne heq.symm
      · exact fun h j hj => h j (by omega)

theorem getElem?_of_searchTheirs (h : searchTheirs q id n = j + 1) : q[j]? = some id := by
  induction n with
  | zero => cases h
  | succ n ih =>
    rw [searchTheirs] at h
    split at h
    · next heq =>
      obtain rfl := Nat.succ.inj h
      exact heq.symm
    · exact ih h

/-- The search ends at a common id, or there is none. -/
theorem search_spec (p q : List GoString) (n : ℕ) (hn : n ≤ p.length) :
    (∃ i j id, search p q n = (i + 1, j + 1) ∧ p[i]? = some id ∧ q[j]? = some id) ∨
      search p q n = (0, 0) ∧ ∀ i < n, ∀ id, p[i]? = some id → id ∉ q := by
  induction n with
  | zero => exact .inr ⟨rfl, fun i hi => absurd hi (Nat.not_lt_zero i)⟩
  | succ n ih =>
    have hid : p[n]? = some p[n] := List.getElem?_eq_getElem hn
    have hstep : search p q (n + 1) =
        match searchTheirs q p[n] q.length with
        | 0 => search p q n
        | j + 1 => (n + 1, j + 1) := by
      rw [search, hid]
    rw [hstep]
    cases hfound : searchTheirs q p[n] q.length with
    | succ j => exact .inl ⟨n, j, _, rfl, hid, getElem?_of_searchTheirs hfound⟩
    | zero =>
      refine (ih (by omega)).imp id fun ⟨hzero, hnone⟩ => ⟨hzero, fun i hi x hx hmem => ?_⟩
      obtain hlt | rfl := Nat.lt_succ_iff_lt_or_eq.mp hi
      · exact hnone i hlt x hx hmem
      · obtain rfl := Option.some.inj (hid.symm.trans hx)
        obtain ⟨j, hj⟩ := List.mem_iff_getElem?.mp hmem
        obtain ⟨hlt, -⟩ := List.getElem?_eq_some_iff.mp hj
        exact searchTheirs_eq_zero.mp hfound j hlt hj

/-- The walk passes common ids only, and stops before two that differ. -/
theorem walk_spec (hi : p[i]? = some id) (hj : q[j]? = some id) :
    ∃ j' id', p[walk p q (i + 1) (j + 1)]? = some id' ∧ q[j']? = some id' ∧
      ∀ k, walk p q (i + 1) (j + 1) = k + 1 → ∀ l, j' = l + 1 → p[k]? ≠ q[l]? := by
  rw [walk, if_pos (hi.trans hj.symm)]
  induction i generalizing j id with
  | zero =>
    have hzero : walk p q 0 j = 0 := by simp [walk]
    exact ⟨j, id, by rwa [hzero], hj, fun k hk => absurd (hzero.symm.trans hk) (by omega)⟩
  | succ i ih =>
    cases j with
    | zero =>
      have hsucc : walk p q (i + 1) 0 = i + 1 := by simp [walk]
      exact ⟨0, id, by rwa [hsucc], hj, fun k _ l hl => absurd hl (by omega)⟩
    | succ j =>
      rw [walk]
      split
      · next heq =>
        obtain ⟨hlt, -⟩ := List.getElem?_eq_some_iff.mp hi
        have hx : p[i]? = some p[i] := List.getElem?_eq_getElem (by omega)
        exact ih hx (heq.symm.trans hx)
      · next hne =>
        refine ⟨j + 1, id, hi, hj, fun k hk l hl => ?_⟩
        obtain rfl := Nat.succ.inj hk
        obtain rfl := Nat.succ.inj hl
        exact hne

/-- A common id with no common ids on its left is the first one of the path. -/
theorem find?_eq_some_of_stop (hp : F.IsPath p) (hq : F.IsPath q) (hi : p[i]? = some id)
    (hj : q[j]? = some id) (hstop : ∀ k, i = k + 1 → ∀ l, j = l + 1 → p[k]? ≠ q[l]?) :
    p.find? (fun x => decide (x ∈ q)) = some id := by
  obtain ⟨hlt, hget⟩ := List.getElem?_eq_some_iff.mp hi
  have hmem : id ∈ q := List.mem_of_getElem? hj
  refine List.find?_eq_some_iff_getElem.mpr ⟨decide_eq_true hmem, i, hlt, hget, ?_⟩
  intro a ha
  rw [Bool.not_eq_true', decide_eq_false_iff_not]
  -- an earlier common id would be on the left in both paths, at the same distance
  intro hmem'
  have ha' : p[a]? = some p[a] := List.getElem?_eq_getElem (by omega)
  obtain ⟨b, hb⟩ := List.mem_iff_getElem?.mp hmem'
  obtain ⟨hjlt, -⟩ := List.getElem?_eq_some_iff.mp hj
  have hbj : b < j := hp.lt_of_lt hq ha' hi hb hj ha
  have hdist : i - a = j - b := by
    rcases Nat.le_total (i - a) (j - b) with hle | hle
    · have hagree := getElem?_add_eq hp hq ha' hb (m := i - a) (by omega) (by omega)
      rw [Nat.add_sub_cancel' ha.le, hi] at hagree
      have := hq.index_eq hagree.symm hj
      omega
    · have hagree := getElem?_add_eq hp hq ha' hb (m := j - b) (by omega) (by omega)
      rw [Nat.add_sub_cancel' hbj.le, hj] at hagree
      have := hp.index_eq hagree hi
      omega
  have hagree := getElem?_add_eq hp hq ha' hb (m := i - a - 1) (by omega) (by omega)
  refine hstop (i - 1) (by omega) (j - 1) (by omega) ?_
  rwa [show a + (i - a - 1) = i - 1 by omega, show b + (i - a - 1) = j - 1 by omega] at hagree

/-- The function computes the first id of the path that is on the other path. -/
theorem commonSnapshotForTwoPaths_eq (hp : F.IsPath p) (hq : F.IsPath q) :
    commonSnapshotForTwoPaths p q =
      match p.find? (fun x => decide (x ∈ q)) with
      | some id => .ok id
      | none => .error .noCommonSnapshot := by
  unfold commonSnapshotForTwoPaths
  obtain ⟨i, j, id, hsearch, hi, hj⟩ | ⟨hsearch, hnone⟩ := search_spec p q p.length le_rfl
  · obtain ⟨j', id', hi', hj', hstop⟩ := walk_spec hi hj
    rw [hsearch, find?_eq_some_of_stop hp hq hi' hj' hstop]
    simp [hi']
  · have hfind : p.find? (fun x => decide (x ∈ q)) = none := by
      rw [List.find?_eq_none]
      intro x hx
      obtain ⟨i, hi⟩ := List.mem_iff_getElem?.mp hx
      obtain ⟨hlt, -⟩ := List.getElem?_eq_some_iff.mp hi
      simpa using hnone i hlt x hi
    rw [hsearch, hfind]
    rfl

/-- The first common id is the same for both paths. -/
theorem find?_mem_comm (hp : F.IsPath p) (hq : F.IsPath q) :
    p.find? (fun x => decide (x ∈ q)) = q.find? (fun x => decide (x ∈ p)) := by
  cases hfind : p.find? (fun x => decide (x ∈ q)) with
  | none =>
    rw [List.find?_eq_none] at hfind
    refine (List.find?_eq_none.mpr fun x hx => ?_).symm
    simpa using fun hx' => hfind x hx' (decide_eq_true hx)
  | some x =>
    obtain ⟨hxq, i, hi, hxi, hfirst⟩ := List.find?_eq_some_iff_getElem.mp hfind
    obtain ⟨j, hj⟩ := List.mem_iff_getElem?.mp (of_decide_eq_true hxq)
    obtain ⟨hjlt, hxj⟩ := List.getElem?_eq_some_iff.mp hj
    have hi' : p[i]? = some x := List.getElem?_eq_some_iff.mpr ⟨hi, hxi⟩
    symm
    refine List.find?_eq_some_iff_getElem.mpr
      ⟨by simpa using List.mem_of_getElem? hi', j, hjlt, hxj, fun b hb => ?_⟩
    rw [Bool.not_eq_true', decide_eq_false_iff_not]
    intro hmem
    have hb' : q[b]? = some q[b] := List.getElem?_eq_getElem (by omega)
    obtain ⟨a, ha⟩ := List.mem_iff_getElem?.mp hmem
    have hai : a < i := hq.lt_of_lt hp hb' hj ha hi' hb
    obtain ⟨halt, hax⟩ := List.getElem?_eq_some_iff.mp ha
    have hno := hfirst a hai
    rw [hax] at hno
    simp at hno

/-- For two paths of one forest the first id of one that is on the other is found, whichever comes
first, and the search fails iff the paths have nothing in common. -/
theorem commonSnapshotForTwoPaths_spec (F : SnapshotForest) (ourPath theirPath : List GoString)
    (hour : F.IsPath ourPath) (htheir : F.IsPath theirPath) :
    (∀ id, commonSnapshotForTwoPaths ourPath theirPath = .ok id ↔
      ourPath.find? (fun x => decide (x ∈ theirPath)) = some id) ∧
    commonSnapshotForTwoPaths theirPath ourPath = commonSnapshotForTwoPaths ourPath theirPath ∧
    ((∃ e, commonSnapshotForTwoPaths ourPath theirPath = .error e) ↔
      ∀ id ∈ ourPath, id ∉ theirPath) ∧
    ∀ e, commonSnapshotForTwoPaths ourPath theirPath = .error e → e = .noCommonSnapshot := by
  rw [commonSnapshotForTwoPaths_eq htheir hour, ← find?_mem_comm hour htheir,
    commonSnapshotForTwoPaths_eq hour htheir]
  cases hfind : ourPath.find? (fun x => decide (x ∈ theirPath)) with
  | none =>
    refine ⟨fun id => by simp, rfl, ⟨fun _ => ?_, fun _ => ⟨_, rfl⟩⟩, fun e he => ?_⟩
    · simpa using hfind
    · cases he
      rfl
  | some x =>
    refine ⟨fun id => by simp, rfl, ⟨fun he => ?_, fun hnone => ?_⟩, fun e he => ?_⟩
    · obtain ⟨e, he⟩ := he
      cases he
    · have hmem := List.find?_some hfind
      exact absurd (of_decide_eq_true hmem) (hnone x (List.mem_of_find?_eq_some hfind))
    · cases he

/-- The forest 3 → 2 → 1 and 4 → 2. -/
def sampleForest : SnapshotForest where
  next id := if id = [3] ∨ id = [4] then some [2] else if id = [2] then some [1] else none
  acyclic id h := by
    -- the ids get smaller
    have hlt : ∀ {a b : GoString}, Relation.TransGen (fun a b =>
        (if a = [3] ∨ a = [4] then some [2] else if a = [2] then some [1] else none) = some b) a b →
        b.headD 0 < a.headD 0 := by
      intro a b hab
      induction hab with
      | single hnext => grind
      | tail _ hnext ih => grind
    exact absurd (hlt h) (lt_irrefl _)

/-- A path that is cut short and one from another branch. -/
theorem commonSnapshotForTwoPaths_sample :
    commonSnapshotForTwoPaths [[3], [2]] [[4], [2], [1]] = .ok [2] ∧
      commonSnapshotForTwoPaths [[4], [2], [1]] [[3], [2]] = .ok [2] := by
  have hspec := commonSnapshotForTwoPaths_spec sampleForest [[3], [2]] [[4], [2], [1]]
    (by simp [SnapshotForest.IsPath, sampleForest]) (by simp [SnapshotForest.IsPath, sampleForest])
  have hour := (hspec.1 [2]).mpr (by decide)
  exact ⟨hour, hspec.2.1.trans hour⟩

end SnapshotPath
