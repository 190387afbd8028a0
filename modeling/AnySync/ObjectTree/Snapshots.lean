import AnySync.Graph.Search
import AnySync.ObjectTree.Object
import Mathlib.Data.List.Perm.Subperm

/-!
# The common snapshot

`commonSnapshot` of `treebuilder.go`: given some snapshots, it goes down to older ones until they
meet.

The main result is `commonSnapshotBy_isLowest_iff`.
-/

namespace ObjectTree

open Graph (Reaches)
open Change (snapshotId)
open List (mem_cons_self map_cons mem_map_of_mem mem_cons_of_mem)

namespace Storage

variable (st : Storage)
variable {id : GoString} {c : Change}

/-- The last loop of `commonSnapshot`, when the order of snapshots with the same snapshot is open:
`slices.SortFunc` is not stable. -/
def convergeBy (ord : RangeOrder) : ℕ → List Change → Except Stop GoString
  | 0, _ => .error .endless
  | fuel + 1, current =>
    let current := ((ord.shuffle fuel 0 current).insertionSort
      fun a b => a.snapshotId ≤ b.snapshotId).destutter fun a b => a.snapshotId ≠ b.snapshotId
    match current with
    | [ch] => .ok ch.id
    | current => do
      let current ← current.mapM fun ch => st.get ch.snapshotId
      convergeBy ord fuel current

/-- `commonSnapshot`, for any order that the sort leaves open. -/
def commonSnapshotBy (ord : RangeOrder) (snapshots : List GoString) : Except Stop GoString := do
  let current := snapshots.filterMap st.changes.lookup
  let lowestCounter := (current.map (·.snapshotCounter)).min?.getD 0
  let fuel := st.changes.entries.length + 2
  let current ← current.mapM (st.goDown lowestCounter fuel)
  st.convergeBy ord fuel current

/-- The snapshot before a stored one. -/
def snapshotOf (id : GoString) : List GoString :=
  match st.changes.lookup id with
  | some c => if c.snapshotId = [] then [] else [c.snapshotId]
  | none => []

/-- The snapshot counter of a stored change. -/
def counterOf (id : GoString) : ℕ := ((st.changes.lookup id).map Change.snapshotCounter).getD 0

/-- A stored snapshot. -/
def IsSnapshot (id : GoString) : Prop := ∃ c, st.changes.lookup id = some c ∧ c.isSnapshot = true

/-- The snapshots form a tree: all but one have a snapshot before them, whose counter is smaller by
one. -/
structure SnapshotTree : Prop where
  /-- Changes are stored under their ids. -/
  id_eq : ∀ id c, st.changes.lookup id = some c → c.id = id
  parent : ∀ id c, st.changes.lookup id = some c → c.isSnapshot = true → c.snapshotId ≠ [] →
    st.IsSnapshot c.snapshotId ∧ c.snapshotCounter = st.counterOf c.snapshotId + 1
  root : ∀ a b, st.IsSnapshot a → st.IsSnapshot b → st.snapshotOf a = [] → st.snapshotOf b = [] →
    a = b

/-- The snapshot `id` is an ancestor of all of the snapshots, or one of them, and every other common
ancestor is an ancestor of it. -/
structure IsLowest (snapshots : List GoString) (id : GoString) : Prop where
  common : ∀ x ∈ snapshots, Reaches st.snapshotOf x id
  lowest : ∀ a, (∀ x ∈ snapshots, Reaches st.snapshotOf x a) → Reaches st.snapshotOf id a

variable {st}

theorem counterOf_eq (hc : st.changes.lookup id = some c) :
    st.counterOf id = c.snapshotCounter := by
  rw [counterOf, hc]
  rfl

theorem snapshotOf_eq (hc : st.changes.lookup id = some c) :
    st.snapshotOf id = if c.snapshotId = [] then [] else [c.snapshotId] := by
  rw [snapshotOf, hc]

/-- A change has at most one snapshot before it. -/
theorem reaches_total {x a b : GoString} (ha : Reaches st.snapshotOf x a)
    (hb : Reaches st.snapshotOf x b) : Reaches st.snapshotOf a b ∨ Reaches st.snapshotOf b a := by
  refine Relation.ReflTransGen.total_of_right_unique (fun y c d hc hd => ?_) ha hb
  rw [Graph.Edge, snapshotOf] at hc hd
  cases hlookup : st.changes.lookup y with
  | none => simp [hlookup] at hc
  | some s =>
    rw [hlookup] at hc hd
    dsimp only at hc hd
    split at hc
    · cases hc
    · next hne =>
      rw [if_neg hne, List.mem_singleton] at hd
      rw [List.mem_singleton.mp hc, hd]

namespace SnapshotTree

variable {x y a b r : GoString} (hs : st.SnapshotTree)

include hs

/-- One level down. -/
theorem step (hx : st.IsSnapshot x) (hy : y ∈ st.snapshotOf x) :
    st.IsSnapshot y ∧ st.counterOf x = st.counterOf y + 1 := by
  obtain ⟨c, hc, hsnapshot⟩ := hx
  rw [snapshotOf_eq hc] at hy
  split at hy
  · cases hy
  · next hne =>
    obtain rfl := List.mem_singleton.mp hy
    rw [counterOf_eq hc]
    exact hs.parent x c hc hsnapshot hne

/-- The ancestors of a snapshot are snapshots of smaller levels. -/
theorem reaches (hx : st.IsSnapshot x) (ha : Reaches st.snapshotOf x a) :
    st.IsSnapshot a ∧ st.counterOf a ≤ st.counterOf x ∧
      (st.counterOf a = st.counterOf x → a = x) := by
  induction ha with
  | refl => exact ⟨hx, le_rfl, fun _ => rfl⟩
  | tail _ hedge ih =>
    obtain ⟨hb, hle, -⟩ := ih
    obtain ⟨hc, hcounter⟩ := hs.step hb hedge
    exact ⟨hc, by omega, fun heq => absurd heq (by omega)⟩

/-- There is one ancestor on each level. -/
theorem eq_of_level (hx : st.IsSnapshot x) (ha : Reaches st.snapshotOf x a)
    (hb : Reaches st.snapshotOf x b) (hlevel : st.counterOf a = st.counterOf b) : a = b := by
  rcases reaches_total ha hb with hab | hba
  · exact ((hs.reaches (hs.reaches hx ha).1 hab).2.2 hlevel.symm).symm
  · exact (hs.reaches (hs.reaches hx hb).1 hba).2.2 hlevel

/-- Every snapshot comes after the root. The way to the root has at most as many snapshots as there
are changes. -/
theorem exists_root (hx : st.IsSnapshot x) :
    ∃ r, st.IsSnapshot r ∧ st.snapshotOf r = [] ∧ Reaches st.snapshotOf x r ∧
      ∃ path : List GoString, path.Nodup ∧ (∀ y ∈ path, st.IsSnapshot y ∧
        st.counterOf y ≤ st.counterOf x) ∧ st.counterOf x + 1 = st.counterOf r + path.length := by
  obtain ⟨n, hn⟩ : ∃ n, st.counterOf x = n := ⟨_, rfl⟩
  induction n using Nat.strong_induction_on generalizing x with
  | _ n ih =>
    cases hsnapshot : st.snapshotOf x with
    | nil => exact ⟨x, hx, hsnapshot, .refl, [x], by simp, by simp [hx], rfl⟩
    | cons y ys =>
      have hedge : y ∈ st.snapshotOf x := hsnapshot ▸ mem_cons_self
      obtain ⟨hy, hcounter⟩ := hs.step hx hedge
      obtain ⟨r, hr, hroot, hreach, path, hnodup, hpath, hlength⟩ :=
        ih (st.counterOf y) (by omega) hy rfl
      refine ⟨r, hr, hroot, .head hedge hreach, x :: path, ?_, ?_, ?_⟩
      · refine List.nodup_cons.mpr ⟨fun hmem => ?_, hnodup⟩
        have := (hpath x hmem).2
        omega
      · refine List.forall_mem_cons.mpr ⟨⟨hx, le_rfl⟩, fun z hz => ?_⟩
        obtain ⟨hz, hle⟩ := hpath z hz
        exact ⟨hz, by omega⟩
      · rw [List.length_cons]
        omega

/-- The root is alone on its level, the first one. -/
theorem root_le (hr : st.IsSnapshot r) (hroot : st.snapshotOf r = []) (hx : st.IsSnapshot x) :
    st.counterOf r ≤ st.counterOf x ∧ (st.counterOf r = st.counterOf x → r = x) := by
  obtain ⟨r', hr', hroot', hreach, -⟩ := hs.exists_root hx
  obtain rfl := hs.root r r' hr hr' hroot hroot'
  exact (hs.reaches hx hreach).2

/-- There are at most as many levels as changes. -/
theorem level_lt (hr : st.IsSnapshot r) (hroot : st.snapshotOf r = []) (hx : st.IsSnapshot x) :
    st.counterOf x < st.counterOf r + st.changes.entries.length := by
  obtain ⟨r', hr', hroot', -, path, hnodup, hpath, hlength⟩ := hs.exists_root hx
  obtain rfl := hs.root r r' hr hr' hroot hroot'
  have hsub : path ⊆ st.changes.keys := by
    intro y hy
    obtain ⟨⟨c, hc, -⟩, -⟩ := hpath y hy
    exact AList.mem_keys.mp (AList.lookup_isSome.mp (by rw [hc]; rfl))
  have hle := (hnodup.subperm hsub).length_le
  rw [AList.keys, List.keys, List.length_map] at hle
  omega

omit hs in
theorem get_of_lookup {id : GoString} {c : Change} (hc : st.changes.lookup id = some c) :
    st.get id = .ok c := by
  rw [get, hc]

end SnapshotTree

/-! ## The loops -/

/-- Snapshots of one level. -/
structure Level (st : Storage) (k : ℕ) (current : List Change) : Prop where
  lookup : ∀ c ∈ current, st.changes.lookup c.id = some c
  isSnapshot : ∀ c ∈ current, c.isSnapshot = true
  counter : ∀ c ∈ current, c.snapshotCounter = k

theorem Level.mono {st : Storage} {k : ℕ} {current sub : List Change} (h : Level st k current)
    (hsub : ∀ c ∈ sub, c ∈ current) : Level st k sub :=
  ⟨fun c hc => h.lookup c (hsub c hc), fun c hc => h.isSnapshot c (hsub c hc),
    fun c hc => h.counter c (hsub c hc)⟩

/-- The list that a turn of the last loop goes on with. -/
def representatives (ord : RangeOrder) (fuel : ℕ) (current : List Change) : List Change :=
  ((ord.shuffle fuel 0 current).insertionSort
    fun a b => a.snapshotId ≤ b.snapshotId).destutter fun a b => a.snapshotId ≠ b.snapshotId

section Representatives

variable {ord : RangeOrder} {fuel : ℕ} {current : List Change}

theorem sorted_perm : ((ord.shuffle fuel 0 current).insertionSort
    fun a b => a.snapshotId ≤ b.snapshotId).Perm current :=
  (List.perm_insertionSort _ _).trans (ord.shuffle_perm _ _ _)

theorem mem_of_mem_representatives {c : Change} (hc : c ∈ representatives ord fuel current) :
    c ∈ current :=
  sorted_perm.mem_iff.mp ((List.destutter_sublist _ _).subset hc)

variable (ord fuel current) in
/-- The representatives have each snapshot once. -/
theorem map_snapshotId_representatives :
    ((representatives ord fuel current).map snapshotId).Nodup ∧
      ∀ c ∈ current, ∃ d ∈ representatives ord fuel current, d.snapshotId = c.snapshotId := by
  have hmap : (representatives ord fuel current).map snapshotId =
      (((ord.shuffle fuel 0 current).insertionSort
        fun a b => a.snapshotId ≤ b.snapshotId).map snapshotId).dedup := by
    have hdestutter : (representatives ord fuel current).map snapshotId =
        (((ord.shuffle fuel 0 current).insertionSort
          fun a b => a.snapshotId ≤ b.snapshotId).map snapshotId).destutter (· ≠ ·) :=
      List.map_destutter fun _ _ _ _ => Iff.rfl
    rw [hdestutter]
    refine List.Pairwise.destutter_eq_dedup (r := (· ≤ ·)) ?_
    exact List.pairwise_map.mpr (List.pairwise_insertionSort
      (fun a b : Change => a.snapshotId ≤ b.snapshotId) _)
  constructor
  · rw [hmap]
    exact List.nodup_dedup _
  · intro c hc
    have hmem : c.snapshotId ∈ (representatives ord fuel current).map snapshotId := by
      rw [hmap, List.mem_dedup]
      exact mem_map_of_mem (sorted_perm.mem_iff.mpr hc)
    exact List.mem_map.mp hmem

end Representatives

section Loops

variable {ord : RangeOrder} {fuel k : ℕ} {current : List Change} {c : Change} {r : GoString}
  (hs : st.SnapshotTree)
variable {x : GoString} {d : Change}

include hs

/-- The change that `Get` finds for the snapshot of a snapshot other than the root. -/
theorem SnapshotTree.exists_parent (hc : st.changes.lookup c.id = some c)
    (hsnapshot : c.isSnapshot = true) (hne : c.snapshotId ≠ []) :
    ∃ p, st.get c.snapshotId = .ok p ∧ st.changes.lookup p.id = some p ∧ p.isSnapshot = true ∧
      p.id = c.snapshotId ∧ c.snapshotCounter = p.snapshotCounter + 1 ∧
      p.id ∈ st.snapshotOf c.id := by
  obtain ⟨⟨p, hp, hpsnapshot⟩, hcounter⟩ := hs.parent c.id c hc hsnapshot hne
  have hid := hs.id_eq _ p hp
  rw [counterOf_eq hp] at hcounter
  refine ⟨p, SnapshotTree.get_of_lookup hp, hid.symm ▸ hp, hpsnapshot, hid, hcounter, ?_⟩
  rw [snapshotOf_eq hc, if_neg hne, hid]
  exact List.mem_singleton_self _

/-- Above the level of some snapshot there are only snapshots with a snapshot before them. -/
theorem SnapshotTree.snapshotId_ne_nil (hc : st.changes.lookup c.id = some c)
    (hsnapshot : c.isSnapshot = true) (hx : st.IsSnapshot x)
    (hlt : st.counterOf x < c.snapshotCounter) : c.snapshotId ≠ [] := by
  intro hnil
  have hroot : st.snapshotOf c.id = [] := by rw [snapshotOf_eq hc, if_pos hnil]
  have hle := (hs.root_le ⟨c, hc, hsnapshot⟩ hroot hx).1
  rw [counterOf_eq hc] at hle
  omega

/-- The loop down to the level of some snapshot. -/
theorem goDown_spec (hx : st.IsSnapshot x) (hc : st.changes.lookup c.id = some c)
    (hsnapshot : c.isSnapshot = true) (hle : st.counterOf x ≤ c.snapshotCounter)
    (hfuel : c.snapshotCounter < st.counterOf x + fuel) :
    ∃ d, st.goDown (st.counterOf x) fuel c = .ok d ∧ st.changes.lookup d.id = some d ∧
      d.isSnapshot = true ∧ d.snapshotCounter = st.counterOf x ∧
      Reaches st.snapshotOf c.id d.id := by
  induction fuel generalizing c with
  | zero => omega
  | succ fuel ih =>
    rw [goDown]
    split
    · next hlt =>
      obtain ⟨p, hget, hp, hpsnapshot, -, hcounter, hedge⟩ :=
        hs.exists_parent hc hsnapshot (hs.snapshotId_ne_nil hc hsnapshot hx hlt)
      obtain ⟨d, hok, hd, hdsnapshot, hdcounter, hreach⟩ :=
        ih hp hpsnapshot (by omega) (by omega)
      refine ⟨d, ?_, hd, hdsnapshot, hdcounter, .head hedge hreach⟩
      rw [hget]
      exact hok
    · exact ⟨c, rfl, hc, hsnapshot, by omega, .refl⟩

/-- Two snapshots of one level are not ancestors of each other. -/
theorem Level.not_reaches (hl : Level st k current) (hc : c ∈ current) (hd : d ∈ current)
    (hne : c.id ≠ d.id) : ¬ Reaches st.snapshotOf c.id d.id := by
  intro hreach
  refine hne ((hs.reaches ⟨c, hl.lookup c hc, hl.isSnapshot c hc⟩ hreach).2.2 ?_).symm
  rw [counterOf_eq (hl.lookup c hc), counterOf_eq (hl.lookup d hd), hl.counter c hc,
    hl.counter d hd]

/-- Two snapshots of one level with different snapshots are both not the root. -/
theorem Level.snapshotId_ne_nil (hl : Level st k current) (hc : c ∈ current) (hd : d ∈ current)
    (hne : c.snapshotId ≠ d.snapshotId) : c.snapshotId ≠ [] := by
  intro hnil
  have hroot : st.snapshotOf c.id = [] := by rw [snapshotOf_eq (hl.lookup c hc), if_pos hnil]
  have heq := (hs.root_le ⟨c, hl.lookup c hc, hl.isSnapshot c hc⟩ hroot
    ⟨d, hl.lookup d hd, hl.isSnapshot d hd⟩).2 (by
      rw [counterOf_eq (hl.lookup c hc), counterOf_eq (hl.lookup d hd), hl.counter c hc,
        hl.counter d hd])
  have hcd := hl.lookup c hc
  rw [heq, hl.lookup d hd] at hcd
  exact hne (congrArg snapshotId (Option.some.inj hcd).symm)

/-- One level down from snapshots that have snapshots before them. -/
theorem Level.down (hl : Level st k current) (hne : ∀ c ∈ current, c.snapshotId ≠ []) :
    ∃ next, current.mapM (fun ch => st.get ch.snapshotId) = .ok next ∧ Level st (k - 1) next ∧
      next.map Change.id = current.map snapshotId := by
  induction current with
  | nil => exact ⟨[], rfl, ⟨by simp, by simp, by simp⟩, rfl⟩
  | cons c current ih =>
    have hl' : Level st k current := hl.mono fun d => mem_cons_of_mem c
    obtain ⟨p, hget, hp, hpsnapshot, hid, hcounter, -⟩ :=
      hs.exists_parent (hl.lookup c mem_cons_self) (hl.isSnapshot c mem_cons_self)
        (hne c mem_cons_self)
    obtain ⟨next, hok, hnext, hids⟩ := ih hl' fun d hd => hne d (mem_cons_of_mem _ hd)
    refine ⟨p :: next, ?_, ⟨?_, ?_, ?_⟩, by rw [map_cons, map_cons, hid, hids]⟩
    · rw [List.mapM_cons, hget, hok]
      rfl
    · exact List.forall_mem_cons.mpr ⟨hp, hnext.lookup⟩
    · exact List.forall_mem_cons.mpr ⟨hpsnapshot, hnext.isSnapshot⟩
    · have hk := hl.counter c mem_cons_self
      exact List.forall_mem_cons.mpr ⟨by omega, hnext.counter⟩

/-- If two snapshots of one level have different snapshots, then all have one. -/
theorem Level.forall_snapshotId_ne_nil (hl : Level st k current) (hc : c ∈ current)
    (hd : d ∈ current) (hcd : c.snapshotId ≠ d.snapshotId) : ∀ e ∈ current, e.snapshotId ≠ [] := by
  intro e he
  by_cases hec : e.snapshotId = c.snapshotId
  · exact hl.snapshotId_ne_nil hs he hd (hec ▸ hcd)
  · exact hl.snapshotId_ne_nil hs he hc hec

/-- What the last loop returns: an ancestor of one of the snapshots. It is that snapshot if there is
only one, and otherwise it is not an ancestor of all of them: when all that are left have the same
snapshot, one of them is returned. -/
structure Converges (st : Storage) (current : List Change) (id : GoString) : Prop where
  reaches : ∃ c ∈ current, Reaches st.snapshotOf c.id id
  cases : (∀ c ∈ current, c.id = id) ∨ ∃ c ∈ current, ¬ Reaches st.snapshotOf c.id id

/-- One of the snapshots is returned. -/
theorem Level.converges (hl : Level st k current) (hc : c ∈ current) :
    Converges st current c.id := by
  refine ⟨⟨c, hc, .refl⟩, ?_⟩
  by_cases hall : ∀ d ∈ current, d.id = c.id
  · exact .inl hall
  · push Not at hall
    obtain ⟨d, hd, hdc⟩ := hall
    exact .inr ⟨d, hd, hl.not_reaches hs hd hc hdc⟩

section Up

variable {next : List Change} {id : GoString} (hl : Level st k current)
  (hnonroot : ∀ c ∈ current, c.snapshotId ≠ []) (hids : next.map Change.id = current.map snapshotId)

include hl hnonroot hids

omit hs in
/-- The snapshots of the next level come right before those of this one. -/
theorem Level.exists_edge {p : Change} (hp : p ∈ next) :
    ∃ c ∈ current, st.snapshotOf c.id = [p.id] := by
  have hpid := mem_map_of_mem (f := Change.id) hp
  rw [hids] at hpid
  obtain ⟨c, hc, heq⟩ := List.mem_map.mp hpid
  refine ⟨c, hc, ?_⟩
  rw [snapshotOf_eq (hl.lookup c hc), if_neg (hnonroot c hc), heq]

omit hs in
theorem Level.exists_reaches (hnext : Converges st next id) :
    ∃ c ∈ current, Reaches st.snapshotOf c.id id := by
  obtain ⟨p, hp, hreach⟩ := hnext.reaches
  obtain ⟨c, hc, hedge⟩ := hl.exists_edge hnonroot hids hp
  refine ⟨c, hc, .head ?_ hreach⟩
  rw [Graph.Edge, hedge]
  exact List.mem_singleton_self _

/-- Two snapshots are left on the next level, so the result does not come before all. -/
theorem Level.exists_not_reaches {d : Change} (hc : c ∈ current) (hd : d ∈ current)
    (hcd : c.snapshotId ≠ d.snapshotId) (hk : k = k - 1 + 1) (hlnext : Level st (k - 1) next)
    (hnext : Converges st next id) : ∃ c ∈ current, ¬ Reaches st.snapshotOf c.id id := by
  have hsome : ∃ p ∈ next, ¬ Reaches st.snapshotOf p.id id := by
    refine hnext.cases.resolve_left fun hall => hcd ?_
    have hall' : ∀ e ∈ current, e.snapshotId = id := by
      intro e he
      have heid := mem_map_of_mem (f := snapshotId) he
      rw [← hids] at heid
      obtain ⟨q, hq, hqe⟩ := List.mem_map.mp heid
      exact hqe.symm.trans (hall q hq)
    exact (hall' c hc).trans (hall' d hd).symm
  obtain ⟨q, hq, hnot⟩ := hsome
  obtain ⟨e, he, hedge⟩ := hl.exists_edge hnonroot hids hq
  refine ⟨e, he, fun hreach' => ?_⟩
  rcases Relation.ReflTransGen.cases_head hreach' with heid | ⟨y, hy, hrest⟩
  · -- the result lies below this level
    obtain ⟨p, hp, hreach⟩ := hnext.reaches
    have hlow := (hs.reaches ⟨p, hlnext.lookup p hp, hlnext.isSnapshot p hp⟩ hreach).2.1
    rw [← heid, counterOf_eq (hl.lookup e he), hl.counter e he,
      counterOf_eq (hlnext.lookup p hp), hlnext.counter p hp] at hlow
    omega
  · rw [Graph.Edge, hedge, List.mem_singleton] at hy
    exact hnot (hy ▸ hrest)

end Up

variable (ord) in
/-- The last loop, by induction on its fuel. -/
theorem convergeBy_spec (hr : st.IsSnapshot r) (hroot : st.snapshotOf r = [])
    (hl : Level st k current) (hne : current ≠ []) (hfuel : k < st.counterOf r + fuel) :
    ∃ id, st.convergeBy ord fuel current = .ok id ∧ Converges st current id := by
  -- every round goes one level up, and the root is on the last one
  induction fuel generalizing k current with
  | zero =>
    obtain ⟨c, hc⟩ := List.exists_mem_of_ne_nil _ hne
    have hle := (hs.root_le hr hroot ⟨c, hl.lookup c hc, hl.isSnapshot c hc⟩).1
    rw [counterOf_eq (hl.lookup c hc), hl.counter c hc] at hle
    omega
  | succ fuel ih =>
    obtain ⟨hnodup, hcover⟩ := map_snapshotId_representatives ord fuel current
    have hsub : ∀ c ∈ representatives ord fuel current, c ∈ current :=
      fun c => mem_of_mem_representatives
    rw [convergeBy, ← representatives]
    match hrep : representatives ord fuel current with
    | [] =>
      obtain ⟨c, hc⟩ := List.exists_mem_of_ne_nil _ hne
      obtain ⟨d, hd, -⟩ := hcover c hc
      rw [hrep] at hd
      cases hd
    | [d] => exact ⟨d.id, rfl, hl.converges hs (hsub d (hrep ▸ List.mem_singleton_self d))⟩
    | c :: d :: rest =>
      rw [hrep] at hnodup hsub
      have hc : c ∈ c :: d :: rest := mem_cons_self
      have hd : d ∈ c :: d :: rest := mem_cons_of_mem _ mem_cons_self
      have hcd : c.snapshotId ≠ d.snapshotId := fun heq => by
        simp [heq] at hnodup
      have hlrep : Level st k (c :: d :: rest) := hl.mono hsub
      -- two different snapshots before them, so none of them is the root
      have hnonroot := hlrep.forall_snapshotId_ne_nil hs hc hd hcd
      obtain ⟨next, hok, hnext, hids⟩ := hlrep.down hs hnonroot
      have hk : k = k - 1 + 1 := by
        obtain ⟨p, -, -, -, -, hcounter, -⟩ := hs.exists_parent (hlrep.lookup c hc)
          (hlrep.isSnapshot c hc) (hnonroot c hc)
        have := hlrep.counter c hc
        omega
      have hne' : next ≠ [] := by
        rintro rfl
        cases hids
      obtain ⟨id, hid, hconverges⟩ := ih hnext hne' (by omega)
      refine ⟨id, Except.bind_eq_ok.mpr ⟨next, hok, hid⟩, ?_, .inr ?_⟩
      · obtain ⟨e, he, hreach⟩ := hlrep.exists_reaches hnonroot hids hconverges
        exact ⟨e, hsub e he, hreach⟩
      · obtain ⟨e, he, hnot⟩ :=
          hlrep.exists_not_reaches hs hnonroot hids hc hd hcd hk hnext hconverges
        exact ⟨e, hsub e he, hnot⟩

omit hs in
theorem exists_mem_of_forall₂ {next : List Change} {R : Change → Change → Prop}
    (h : List.Forall₂ R current next) {d : Change} (hd : d ∈ next) : ∃ c ∈ current, R c d := by
  induction h with
  | nil => cases hd
  | cons hR _ ih =>
    rcases List.mem_cons.mp hd with rfl | hd
    · exact ⟨_, mem_cons_self, hR⟩
    · obtain ⟨c, hc, hR⟩ := ih hd
      exact ⟨c, mem_cons_of_mem _ hc, hR⟩

/-- The loop that equalises the levels. -/
theorem mapM_goDown_spec {x : GoString} (hx : st.IsSnapshot x)
    (hcurrent : ∀ c ∈ current, st.changes.lookup c.id = some c ∧ c.isSnapshot = true ∧
      st.counterOf x ≤ c.snapshotCounter ∧ c.snapshotCounter < st.counterOf x + fuel) :
    ∃ next, current.mapM (st.goDown (st.counterOf x) fuel) = .ok next ∧
      Level st (st.counterOf x) next ∧
      List.Forall₂ (fun c d => Reaches st.snapshotOf c.id d.id) current next := by
  induction current with
  | nil => exact ⟨[], rfl, ⟨by simp, by simp, by simp⟩, .nil⟩
  | cons c current ih =>
    obtain ⟨⟨hc, hsnapshot, hle, hlt⟩, hcurrent⟩ := List.forall_mem_cons.mp hcurrent
    obtain ⟨d, hok, hd, hdsnapshot, hdcounter, hreach⟩ :=
      goDown_spec hs hx hc hsnapshot hle hlt
    obtain ⟨next, hoks, hnext, hall⟩ := ih hcurrent
    refine ⟨d :: next, ?_, ⟨?_, ?_, ?_⟩, .cons hreach hall⟩
    · rw [List.mapM_cons, hok, hoks]
      rfl
    · exact List.forall_mem_cons.mpr ⟨hd, hnext.lookup⟩
    · exact List.forall_mem_cons.mpr ⟨hdsnapshot, hnext.isSnapshot⟩
    · exact List.forall_mem_cons.mpr ⟨hdcounter, hnext.counter⟩

/-- The given snapshots are all found, and the one with the lowest counter is one of them. -/
theorem SnapshotTree.exists_lowest {snapshots : List GoString} (hne : snapshots ≠ [])
    (hall : ∀ x ∈ snapshots, st.IsSnapshot x) :
    (snapshots.filterMap st.changes.lookup).map Change.id = snapshots ∧
      (∀ c ∈ snapshots.filterMap st.changes.lookup,
        st.changes.lookup c.id = some c ∧ c.isSnapshot = true) ∧
      ∃ x ∈ snapshots, (∀ y ∈ snapshots, st.counterOf x ≤ st.counterOf y) ∧
        (((snapshots.filterMap st.changes.lookup).map (·.snapshotCounter)).min?.getD 0 =
          st.counterOf x) := by
  have hfound : ∀ c ∈ snapshots.filterMap st.changes.lookup,
      st.changes.lookup c.id = some c ∧ c.isSnapshot = true := by
    intro c hc
    obtain ⟨y, hy, hlookup⟩ := List.mem_filterMap.mp hc
    obtain ⟨d, hd, hsnapshot⟩ := hall y hy
    obtain rfl := Option.some.inj (hd.symm.trans hlookup)
    exact ⟨hs.id_eq y d hd ▸ hd, hsnapshot⟩
  have hmap : (snapshots.filterMap st.changes.lookup).map Change.id = snapshots := by
    clear hne hfound
    induction snapshots with
    | nil => rfl
    | cons x snapshots ih =>
      obtain ⟨⟨c, hc, -⟩, hall⟩ := List.forall_mem_cons.mp hall
      rw [List.filterMap_cons_some (f := st.changes.lookup) hc, map_cons, hs.id_eq x c hc, ih hall]
  -- the counters of the loaded changes are those of the ids
  have hcounters : (snapshots.filterMap st.changes.lookup).map (·.snapshotCounter) =
      snapshots.map st.counterOf := by
    conv_rhs => rw [← hmap]
    rw [List.map_map]
    exact List.map_congr_left fun c hc => (counterOf_eq (hfound c hc).1).symm
  refine ⟨hmap, hfound, ?_⟩
  rw [hcounters]
  cases hmin : (snapshots.map st.counterOf).min? with
  | none => exact absurd (List.map_eq_nil_iff.mp (List.min?_eq_none_iff.mp hmin)) hne
  | some m =>
    obtain ⟨hmem, hle⟩ := List.min?_eq_some_iff.mp hmin
    obtain ⟨x, hx, rfl⟩ := List.mem_map.mp hmem
    exact ⟨x, hx, fun y hy => hle _ (mem_map_of_mem hy), rfl⟩

variable (ord) in
/-- `commonSnapshot` returns. What it returns is the lowest common ancestor of the snapshots exactly
if one of them is an ancestor of all. Duplicates are recognised by the snapshot of a snapshot, so
that otherwise the loop stops one level too early. -/
theorem commonSnapshotBy_isLowest_iff {snapshots : List GoString} (hne : snapshots ≠ [])
    (hall : ∀ x ∈ snapshots, st.IsSnapshot x) :
    ∃ id, st.commonSnapshotBy ord snapshots = .ok id ∧
      (st.IsLowest snapshots id ↔
        ∃ s ∈ snapshots, ∀ x ∈ snapshots, Reaches st.snapshotOf x s) := by
  obtain ⟨hmap, hfound, m, hm, hmin, hlowest⟩ := hs.exists_lowest hne hall
  obtain ⟨r, hr, hroot, -⟩ := hs.exists_root (hall m hm)
  have hmr := (hs.root_le hr hroot (hall m hm)).1
  have hmem : ∀ {x}, x ∈ snapshots ↔ ∃ c ∈ snapshots.filterMap st.changes.lookup, c.id = x := by
    intro x
    rw [← List.mem_map, hmap]
  have hlevels : ∀ c ∈ snapshots.filterMap st.changes.lookup,
      st.changes.lookup c.id = some c ∧ c.isSnapshot = true ∧
        st.counterOf m ≤ c.snapshotCounter ∧
        c.snapshotCounter < st.counterOf m + (st.changes.entries.length + 2) := by
    intro c hc
    obtain ⟨hlookup, hsnapshot⟩ := hfound c hc
    have hle := hmin c.id (hmem.mpr ⟨c, hc, rfl⟩)
    have hlt := hs.level_lt hr hroot ⟨c, hlookup, hsnapshot⟩
    rw [counterOf_eq hlookup] at hle hlt
    exact ⟨hlookup, hsnapshot, hle, by omega⟩
  obtain ⟨next, hoks, hnext, hdown⟩ := mapM_goDown_spec hs (hall m hm) hlevels
  have hdown' : ∀ d ∈ next, ∃ x ∈ snapshots, Reaches st.snapshotOf x d.id := by
    intro d hd
    obtain ⟨c, hc, hreach⟩ := exists_mem_of_forall₂ hdown hd
    exact ⟨c.id, hmem.mpr ⟨c, hc, rfl⟩, hreach⟩
  have hlevel : ∀ d ∈ next, st.counterOf d.id = st.counterOf m := by
    intro d hd
    rw [counterOf_eq (hnext.lookup d hd), hnext.counter d hd]
  have hne' : next ≠ [] := by
    rintro rfl
    obtain ⟨c, hc, -⟩ := hmem.mp hm
    rw [List.forall₂_nil_right_iff.mp hdown] at hc
    cases hc
  have hmlt := hs.level_lt hr hroot (hall m hm)
  obtain ⟨id, hid, ⟨q, hq, hqreach⟩, hcases⟩ := convergeBy_spec ord hs hr hroot hnext hne'
    (show st.counterOf m < st.counterOf r + (st.changes.entries.length + 2) by omega)
  refine ⟨id, ?_, fun hlow => ?_, ?_⟩
  · rw [commonSnapshotBy, hlowest]
    exact Except.bind_eq_ok.mpr ⟨next, hoks, hid⟩
  · rcases hcases with hsame | ⟨d, hd, hnot⟩
    · obtain ⟨c, hc, rfl⟩ := hmem.mp hm
      obtain ⟨d, hd, hreach⟩ := exists_mem_of_forall₂ hdown.flip hc
      have hdm := (hs.reaches (hall _ hm) hreach).2.2 (hlevel d hd)
      exact ⟨c.id, hm, (hdm.symm.trans (hsame d hd)) ▸ hlow.common⟩
    · -- a common ancestor on this level or below it is an ancestor of all that are on the level
      obtain ⟨x, hx, hreach⟩ := hdown' d hd
      rcases reaches_total hreach (hlow.common x hx) with hto | hfrom
      · exact absurd hto hnot
      · have hqid := hs.reaches ⟨q, hnext.lookup q hq, hnext.isSnapshot q hq⟩ hqreach
        have hd' := hs.reaches hqid.1 hfrom
        have heq := hd'.2.2 (le_antisymm hd'.2.1 (by
          rw [hlevel d hd, ← hlevel q hq]
          exact hqid.2.1))
        exact absurd (heq ▸ .refl) hnot
  · rintro ⟨s, hsmem, hcommon⟩
    have hsm : st.counterOf s = st.counterOf m :=
      le_antisymm (hs.reaches (hall m hm) (hcommon m hm)).2.1 (hmin s hsmem)
    have hnexts : ∀ d ∈ next, d.id = s := by
      intro d hd
      obtain ⟨x, hx, hreach⟩ := hdown' d hd
      exact hs.eq_of_level (hall x hx) hreach (hcommon x hx) ((hlevel d hd).trans hsm.symm)
    have hids : id = s := by
      rcases hcases with hsame | ⟨d, hd, hnot⟩
      · exact (hsame q hq).symm.trans (hnexts q hq)
      · rw [hnexts d hd, ← hnexts q hq] at hnot
        exact absurd hqreach hnot
    subst hids
    exact ⟨hcommon, fun a ha => ha id hsmem⟩

end Loops

namespace Sample

/-- A snapshot after another one. -/
def sn (id : UInt8) (snapshotId : GoString) (snapshotCounter : ℕ) : Change where
  id := [id]
  previousIds := if snapshotId = [] then [] else [snapshotId]
  snapshotId := snapshotId
  isSnapshot := true
  orderId := [id]
  snapshotCounter := snapshotCounter

/-- The tree drawn in the comment at `commonSnapshot`. -/
def drawn : Storage where
  id := [1]
  changes := [sn 1 [] 1, sn 2 [1] 2, sn 3 [2] 3, sn 4 [2] 3, sn 5 [3] 4, sn 6 [4] 4, sn 7 [4] 4,
    sn 8 [5] 5].foldl (fun changes c => changes.insert c.id c) ∅

theorem mem_drawn {id : GoString} {c : Change} (hc : drawn.changes.lookup id = some c) :
    (⟨id, c⟩ : (_ : GoString) × Change) ∈ drawn.changes.entries :=
  GoMap.lookup_eq_some_iff.mp hc

theorem isSnapshot_drawn {id : GoString} (h : (drawn.changes.lookup id).isSome) :
    drawn.IsSnapshot id := by
  obtain ⟨c, hc⟩ := Option.isSome_iff_exists.mp h
  exact ⟨c, hc, (by decide : ∀ x ∈ drawn.changes.entries, x.2.isSnapshot = true) _ (mem_drawn hc)⟩

theorem snapshotTree_drawn : drawn.SnapshotTree where
  id_eq id c hc := (by decide : ∀ x ∈ drawn.changes.entries, x.2.id = x.1) _ (mem_drawn hc)
  parent id c hc _ hne := by
    obtain ⟨hsome, hcounter⟩ := (by decide : ∀ x ∈ drawn.changes.entries, x.2.snapshotId ≠ [] →
      (drawn.changes.lookup x.2.snapshotId).isSome ∧
        x.2.snapshotCounter = drawn.counterOf x.2.snapshotId + 1) _ (mem_drawn hc) hne
    exact ⟨isSnapshot_drawn hsome, hcounter⟩
  root a b ha hb ha' hb' := by
    obtain ⟨c, hc, -⟩ := ha
    obtain ⟨d, hd, -⟩ := hb
    exact (by decide : ∀ x ∈ drawn.changes.entries, ∀ y ∈ drawn.changes.entries,
      drawn.snapshotOf x.1 = [] → drawn.snapshotOf y.1 = [] → x.1 = y.1) _ (mem_drawn hc) _
        (mem_drawn hd) ha' hb'

end Sample

open Sample

/-- One of the snapshots is an ancestor of the other. -/
theorem commonSnapshotBy_isLowest_iff_eightFive :
    ∃ id, drawn.commonSnapshotBy .listed [[8], [5]] = .ok id ∧
      drawn.IsLowest [[8], [5]] id := by
  have hall : ∀ x ∈ [[8], [5]], drawn.IsSnapshot x := fun x hx =>
    isSnapshot_drawn ((by decide : ∀ x ∈ ([[8], [5]] : List GoString),
      (drawn.changes.lookup x).isSome) x hx)
  obtain ⟨id, hid, hiff⟩ := commonSnapshotBy_isLowest_iff .listed
    snapshotTree_drawn (by decide) hall
  refine ⟨id, hid, hiff.mpr ⟨[5], by decide, fun x hx => ?_⟩⟩
  rcases List.mem_cons.mp hx with rfl | hx
  · exact .single (show [5] ∈ drawn.snapshotOf [8] by decide)
  · rw [List.mem_singleton.mp hx]

/-- The comment says that the common snapshot of these three is `sn 2`. -/
theorem commonSnapshotBy_drawn :
    drawn.SnapshotTree ∧ (∀ x ∈ [[8], [6], [7]], drawn.IsSnapshot x) ∧
      drawn.commonSnapshotBy .listed [[8], [6], [7]] = .ok [3] ∧
      ¬ drawn.IsLowest [[8], [6], [7]] [3] := by
  refine ⟨snapshotTree_drawn, fun x hx => isSnapshot_drawn
    ((by decide : ∀ x ∈ ([[8], [6], [7]] : List GoString),
      (drawn.changes.lookup x).isSome) x hx), by decide +kernel, fun hlow => ?_⟩
  have hbefore : ∀ y, Reaches drawn.snapshotOf [6] y → y ∈ [[6], [4], [2], [1]] := by
    intro y hy
    induction hy with
    | refl => exact mem_cons_self
    | tail _ hedge ih =>
      exact (by decide : ∀ y ∈ ([[6], [4], [2], [1]] : List GoString),
        ∀ z ∈ drawn.snapshotOf y, z ∈ ([[6], [4], [2], [1]] : List GoString)) _ ih _ hedge
  exact absurd (hbefore [3] (hlow.common [6] (by decide))) (by decide)

end Storage

end ObjectTree
