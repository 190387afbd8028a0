import AnySync.Ldiff.Model
import Mathlib.Data.Prod.Lex

/-!
# The elements of a container

The skip list keeps the elements sorted by the hash of their id, and then by id.
-/

namespace Ldiff

/-- The order of the skip list. -/
def HashedElement.key (x : HashedElement) : ℕ ×ₗ GoString := toLex (x.hash, x.id)

/-- The list is sorted, hashes are the hashes of ids, and no id is empty: an element with an empty
id compares as equal to the key with which the loops over a range begin. -/
structure Ordered (H : Hashing) (sl : List HashedElement) : Prop where
  sorted : sl.Pairwise (·.key < ·.key)
  hash : ∀ x ∈ sl, x.hash = H.sum64 x.id
  id_ne_nil : ∀ x ∈ sl, x.id ≠ []

/-- The number of elements in a range. -/
def count (sl : List HashedElement) (c : RangeTuple) : ℕ := sl.countP fun x => x.hash ∈ c

section Compare

variable {H : Hashing} {sl : List HashedElement} {x y el : HashedElement} {c : RangeTuple}

theorem compare_eq_eq : compare x el = .eq ↔ x.id = el.id := by
  unfold compare
  split
  · simp [*]
  · split_ifs <;> simp [*]

/-- The skip list compares hashes, and ids if these are equal. -/
theorem compare_eq_lt (hx : x.hash = H.sum64 x.id) (hel : el.hash = H.sum64 el.id) :
    compare x el = .lt ↔ x.key < el.key := by
  rw [HashedElement.key, HashedElement.key, Prod.Lex.toLex_lt_toLex]
  unfold compare
  split
  · next hid =>
    have hhash : x.hash = el.hash := by rw [hx, hel, hid]
    simp [hid, hhash]
  · next hid =>
    split_ifs with hgt hlt hid'
    · simp; omega
    · simp [hlt]
    · have hhash : x.hash = el.hash := by omega
      simp [hhash, le_of_lt hid']
    · have hhash : x.hash = el.hash := by omega
      simpa [hhash] using lt_of_le_of_ne (not_lt.mp hid') hid

/-- The key with an empty id comes before all elements with the same hash. -/
theorem compare_nil_eq_lt {n : ℕ} (hid : x.id ≠ []) :
    compare x { id := [], head := [], hash := n } = .lt ↔ x.hash < n := by
  have hlt : ([] : GoString) < x.id := by
    cases hx : x.id with
    | nil => exact absurd hx hid
    | cons => simp
  unfold compare
  simp only [hid, if_false]
  split_ifs with hgt hlt' <;> simp <;> omega

theorem mem_slRemove : x ∈ slRemove sl el ↔ x ∈ sl ∧ x.id ≠ el.id := by
  simp [slRemove, compare_eq_eq]

/-- `Set` of the skip list adds an element. -/
theorem slSet_perm : (slSet sl el).Perm (el :: sl) := by
  refine List.perm_middle.trans ?_
  rw [List.takeWhile_append_dropWhile]

theorem mem_slSet : x ∈ slSet sl el ↔ x = el ∨ x ∈ sl := by
  rw [slSet_perm.mem_iff, List.mem_cons]

namespace Ordered

variable (h : Ordered H sl)

include h

theorem pairwise_hash : sl.Pairwise (·.hash ≤ ·.hash) := by
  refine h.sorted.imp fun {a b} hab => ?_
  rcases Prod.Lex.toLex_lt_toLex.mp hab with hlt | ⟨heq, -⟩
  · exact hlt.le
  · exact heq.le

theorem nodup_keys : (sl.map HashedElement.key).Nodup := by
  have hpair : (sl.map HashedElement.key).Pairwise (· < ·) := List.pairwise_map.mpr h.sorted
  exact hpair.imp fun hab => hab.ne

/-- There is one element for each id. -/
theorem eq_of_id (hx : x ∈ sl) (hy : y ∈ sl) (hid : x.id = y.id) : x = y := by
  have hkey : x.key = y.key := by
    rw [HashedElement.key, HashedElement.key, h.hash x hx, h.hash y hy, hid]
  exact List.inj_on_of_nodup_map h.nodup_keys hx hy hkey

/-- The order of the list is determined by its elements. -/
theorem eq_of_elements {sl' : List HashedElement} (h' : Ordered H sl')
    (heq : ∀ e, e ∈ sl.map HashedElement.toElement ↔ e ∈ sl'.map HashedElement.toElement) :
    sl = sl' := by
  have hsub : ∀ {sl sl' : List HashedElement}, Ordered H sl → Ordered H sl' →
      (∀ e, e ∈ sl.map HashedElement.toElement → e ∈ sl'.map HashedElement.toElement) →
      ∀ x ∈ sl, x ∈ sl' := by
    intro sl sl' h h' himp x hx
    obtain ⟨y, hy, hyx⟩ := List.mem_map.mp (himp _ (List.mem_map_of_mem hx))
    have hid : y.id = x.id := congrArg Element.id hyx
    have hhash : y.hash = x.hash := by rw [h'.hash y hy, h.hash x hx, hid]
    have hxy : y = x := by
      cases x
      cases y
      simp_all
    exact hxy ▸ hy
  have hperm : sl.Perm sl' := (List.perm_ext_iff_of_nodup h.nodup_keys.of_map
    h'.nodup_keys.of_map).mpr fun x => ⟨hsub h h' (fun e => (heq e).mp) x,
      hsub h' h (fun e => (heq e).mpr) x⟩
  exact hperm.eq_of_pairwise (fun a b _ _ hab hba => absurd hab hba.asymm) h.sorted h'.sorted

theorem filter (f : HashedElement → Bool) : Ordered H (sl.filter f) where
  sorted := h.sorted.filter _
  hash x hx := h.hash x (List.mem_of_mem_filter hx)
  id_ne_nil x hx := h.id_ne_nil x (List.mem_of_mem_filter hx)

theorem remove : Ordered H (slRemove sl el) := h.filter _

theorem insert (hel : el.hash = H.sum64 el.id) (hid : el.id ≠ []) (hnew : ∀ x ∈ sl, x.id ≠ el.id) :
    Ordered H (slSet sl el) where
  sorted := by
    induction sl with
    | nil => exact List.pairwise_singleton _ _
    | cons x sl ih =>
      obtain ⟨hx, hsl⟩ := List.pairwise_cons.mp h.sorted
      have hhash := h.hash x List.mem_cons_self
      have hrest : Ordered H sl := ⟨hsl, fun y hy => h.hash y (List.mem_cons_of_mem _ hy),
        fun y hy => h.id_ne_nil y (List.mem_cons_of_mem _ hy)⟩
      have hlt := compare_eq_lt hhash hel
      -- the element is put before the first one that is not smaller
      by_cases hcompare : compare x el = .lt
      · have hset : slSet (x :: sl) el = x :: slSet sl el := by simp [slSet, hcompare]
        rw [hset, List.pairwise_cons]
        refine ⟨fun y hy => ?_, ih hrest fun y hy => hnew y (List.mem_cons_of_mem _ hy)⟩
        rcases mem_slSet.mp hy with rfl | hy
        · exact hlt.mp hcompare
        · exact hx y hy
      · have hset : slSet (x :: sl) el = el :: x :: sl := by simp [slSet, hcompare]
        have hid : x.key ≠ el.key := by
          intro hkey
          exact hnew x List.mem_cons_self (congrArg Prod.snd (toLex.injective hkey))
        have helx : el.key < x.key :=
          lt_of_le_of_ne (not_lt.mp fun hlt' => hcompare (hlt.mpr hlt')) hid.symm
        rw [hset, List.pairwise_cons]
        refine ⟨fun y hy => ?_, h.sorted⟩
        rcases List.mem_cons.mp hy with rfl | hy
        · exact helx
        · exact helx.trans (hx y hy)
  hash x hx := by
    rcases mem_slSet.mp hx with rfl | hx
    · exact hel
    · exact h.hash x hx
  id_ne_nil x hx := by
    rcases mem_slSet.mp hx with rfl | hx
    · exact hid
    · exact h.id_ne_nil x hx

/-- `Set` keeps the order. -/
theorem update (hel : el.hash = H.sum64 el.id) (hid : el.id ≠ []) :
    Ordered H (slSet (slRemove sl el) el) :=
  h.remove.insert hel hid fun _ hx => (mem_slRemove.mp hx).2

/-- The loops over a range visit the elements whose hash lies in it. -/
theorem within_eq_filter (c : RangeTuple) : within sl c = sl.filter fun x => x.hash ∈ c := by
  unfold within slFind
  have hsorted := h.pairwise_hash
  have hids := h.id_ne_nil
  clear h
  induction sl with
  | nil => rfl
  | cons x sl ih =>
    obtain ⟨hx, hsl⟩ := List.pairwise_cons.mp hsorted
    obtain ⟨hidx, hids⟩ := List.forall_mem_cons.mp hids
    have hlt := compare_nil_eq_lt (n := c.lo) hidx
    rcases Nat.lt_or_ge x.hash c.lo with hlo | hlo
    · -- before the range
      have hout : ¬ x.hash ∈ c := fun hmem => absurd hmem.1 (by omega)
      rw [List.dropWhile_cons_of_pos (by simpa [hlt] using hlo), ih hsl hids,
        List.filter_cons_of_neg (by simpa using hout)]
    · rw [List.dropWhile_cons_of_neg (by simpa [hlt] using hlo)]
      rcases Nat.lt_or_ge c.hi x.hash with hhi | hhi
      · -- behind the range, like everything that follows
        have hout : ∀ y ∈ x :: sl, ¬ y.hash ∈ c := by
          rintro y hy ⟨-, hle⟩
          rcases List.mem_cons.mp hy with rfl | hy
          · omega
          · have := hx y hy
            omega
        rw [List.takeWhile_cons_of_neg (by simpa using hhi), eq_comm, List.filter_eq_nil_iff]
        intro y hy
        simpa using hout y hy
      · have hrest : sl.dropWhile
            (fun y => decide (compare y { id := [], head := [], hash := c.lo } = .lt)) = sl := by
          cases sl with
          | nil => rfl
          | cons y sl =>
            have := hx y List.mem_cons_self
            have hlty := compare_nil_eq_lt (n := c.lo) (hids y List.mem_cons_self)
            rw [List.dropWhile_cons_of_neg (by simp [hlty]; omega)]
        have hin : x.hash ∈ c := ⟨hlo, hhi⟩
        have ih' := ih hsl hids
        rw [hrest] at ih'
        rw [List.takeWhile_cons_of_pos (by simpa using hhi), ih',
          List.filter_cons_of_pos (by simpa using hin)]

/-- All elements lie in the top range. -/
theorem within_topTuple : within sl topTuple = sl := by
  rw [h.within_eq_filter, List.filter_eq_self]
  intro x hx
  have hlt := H.sum64_lt x.id
  rw [← h.hash x hx] at hlt
  exact decide_eq_true ⟨Nat.zero_le _, Nat.le_sub_one_of_lt hlt⟩

theorem length_within (c : RangeTuple) : (within sl c).length = count sl c := by
  rw [h.within_eq_filter, count, List.countP_eq_length_filter]

end Ordered

/-! ## Updates -/

section

variable (h : Ordered H sl) (hel : el.hash = H.sum64 el.id)

include h hel

/-- A range without the hash of a removed element is not affected. -/
theorem Ordered.within_slRemove (hc : el.hash ∉ c) : within (slRemove sl el) c = within sl c := by
  rw [h.remove.within_eq_filter, h.within_eq_filter, slRemove, List.filter_filter]
  refine List.filter_congr fun x hx => ?_
  have hid : x.hash ∈ c → compare x el ≠ .eq := by
    intro hmem heq
    rw [h.hash x hx, compare_eq_eq.mp heq, ← hel] at hmem
    exact hc hmem
  simpa using hid

/-- Ranges without the hash keep their elements. -/
theorem Ordered.within_slSet (hid : el.id ≠ []) (hc : el.hash ∉ c) :
    within (slSet (slRemove sl el) el) c = within sl c := by
  rw [← h.within_slRemove hel hc, (h.update hel hid).within_eq_filter, h.remove.within_eq_filter,
    slSet, List.filter_append, List.filter_cons_of_neg (by simpa using hc), ← List.filter_append,
    List.takeWhile_append_dropWhile]

/-- The elements with the id of `el` are at most one. -/
theorem Ordered.count_eq_add (c : RangeTuple) :
    count sl c = count (slRemove sl el) c +
      if el.hash ∈ c ∧ ∃ x ∈ sl, x.id = el.id then 1 else 0 := by
  have hsplit := List.countP_eq_countP_filter_add sl (fun x => decide (x.hash ∈ c))
    (fun x => decide (compare x el ≠ .eq))
  rw [count, hsplit, count, slRemove]
  congr 1
  by_cases hex : ∃ x ∈ sl, x.id = el.id
  · obtain ⟨x, hx, hid⟩ := hex
    have hfilter : (sl.filter fun y => !decide (compare y el ≠ .eq)) = [x] := by
      refine List.perm_singleton.mp ((List.perm_ext_iff_of_nodup
        (h.nodup_keys.of_map.filter _) (List.nodup_singleton x)).mpr fun y => ?_)
      simp only [List.mem_filter, List.mem_singleton, ne_eq, decide_not, Bool.not_not,
        decide_eq_true_eq, compare_eq_eq]
      constructor
      · exact fun hy => h.eq_of_id hy.1 hx (hy.2.trans hid.symm)
      · rintro rfl
        exact ⟨hx, hid⟩
    have hhash : x.hash = el.hash := by rw [h.hash x hx, hid, hel]
    have hex : ∃ x ∈ sl, x.id = el.id := ⟨x, hx, hid⟩
    rw [hfilter]
    simp [hhash, hex]
  · have hfilter : (sl.filter fun y => !decide (compare y el ≠ .eq)) = [] := by
      rw [List.filter_eq_nil_iff]
      intro y hy hcompare
      refine hex ⟨y, hy, compare_eq_eq.mp ?_⟩
      simpa using hcompare
    rw [hfilter, if_neg fun hboth => hex hboth.2, List.countP_nil]

end

theorem count_slSet (c : RangeTuple) :
    count (slSet sl el) c = count sl c + if el.hash ∈ c then 1 else 0 := by
  rw [count, slSet_perm.countP_eq, List.countP_cons, count]
  simp

/-- `Set` adds at most one element to a range around the hash of the id. -/
theorem Ordered.count_update (h : Ordered H sl) (hel : el.hash = H.sum64 el.id) (c : RangeTuple) :
    count sl c ≤ count (slSet (slRemove sl el) el) c ∧
      count (slSet (slRemove sl el) el) c ≤ count sl c + if el.hash ∈ c then 1 else 0 := by
  have hsplit := h.count_eq_add hel c
  rw [count_slSet]
  by_cases hmem : el.hash ∈ c
  · simp only [hmem, true_and, if_true] at hsplit ⊢
    split_ifs at hsplit <;> omega
  · simp only [hmem, false_and, if_false] at hsplit ⊢
    omega

end Compare

/-- The elements of a tiled range are those of its tiles. -/
theorem Ordered.within_eq_flatMap {H : Hashing} {sl : List HashedElement} (h : Ordered H sl)
    {c : RangeTuple} {tiles : List RangeTuple} (ht : Tiles c.lo c.hi tiles) :
    within sl c = tiles.flatMap (within sl) := by
  have hwithin : within sl = fun c => sl.filter fun x => x.hash ∈ c := funext h.within_eq_filter
  rw [hwithin]
  exact ht.filter_eq_flatMap HashedElement.hash h.pairwise_hash

end Ldiff
