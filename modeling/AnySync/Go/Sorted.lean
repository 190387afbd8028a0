import Mathlib.Data.List.Sort
import Mathlib.Data.List.Destutter

/-!
# Counting in sorted slices

Two functions of `util/slice` that go over the runs of equal elements of a sorted slice. They write
into the slice they read, behind the position they read at, so a list is enough.

On a sorted slice they keep the elements that occur once, and those that occur more than once.
-/

section Runs

variable {α : Type} [LinearOrder α]

/-- `RemoveRepeatedSorted`. -/
def removeRepeatedSorted : List α → List α
  | [] => []
  | a :: nums =>
    if nums.takeWhile (· = a) = [] then a :: removeRepeatedSorted (nums.dropWhile (· = a))
    else removeRepeatedSorted (nums.dropWhile (· = a))
termination_by nums => nums.length
decreasing_by
  all_goals exact Nat.lt_succ_of_le (List.dropWhile_suffix _).length_le

/-- `RemoveUniqueElementsSorted`. -/
def removeUniqueElementsSorted : List α → List α
  | [] => []
  | a :: nums =>
    if nums.takeWhile (· = a) = [] then removeUniqueElementsSorted (nums.dropWhile (· = a))
    else
      a :: nums.takeWhile (· = a) ++ removeUniqueElementsSorted (nums.dropWhile (· = a))
termination_by nums => nums.length
decreasing_by
  all_goals exact Nat.lt_succ_of_le (List.dropWhile_suffix _).length_le

end Runs

section Sorted

variable {α : Type} [LinearOrder α] {a : α} {nums : List α}

/-- Behind a run of a sorted slice, its element does not occur. -/
theorem not_mem_dropWhile_of_sorted (h : (a :: nums).Pairwise (· ≤ ·)) :
    a ∉ nums.dropWhile (· = a) := by
  obtain ⟨hle, hnums⟩ := List.pairwise_cons.mp h
  cases hdrop : nums.dropWhile (· = a) with
  | nil => exact List.not_mem_nil
  | cons b rest =>
    have hsuffix : b :: rest <:+ nums := hdrop ▸ List.dropWhile_suffix _
    have hb : b ≠ a := by
      have hhead := List.head_dropWhile_not (fun x => decide (x = a)) (l := nums)
        (by simp [hdrop])
      simpa [hdrop] using hhead
    have hlt : a < b := lt_of_le_of_ne (hle b (hsuffix.subset List.mem_cons_self)) hb.symm
    have hrest := (List.pairwise_cons.mp (hnums.sublist hsuffix.sublist)).1
    rw [List.mem_cons, not_or]
    exact ⟨hb.symm, fun hmem => absurd (hrest a hmem) (not_le.mpr hlt)⟩

theorem sorted_dropWhile (h : (a :: nums).Pairwise (· ≤ ·)) :
    (nums.dropWhile (· = a)).Pairwise (· ≤ ·) :=
  (List.pairwise_cons.mp h).2.sublist (List.dropWhile_suffix _).sublist

/-- The first run of a slice has this many elements. -/
theorem takeWhile_eq_replicate (a : α) (nums : List α) :
    nums.takeWhile (· = a) = List.replicate (nums.takeWhile (· = a)).length a := by
  refine List.eq_replicate_of_mem fun b hb => ?_
  simpa using List.all_eq_true.mp List.all_takeWhile b hb

variable [BEq α] [LawfulBEq α]

/-- The filter of a sorted slice by the number of occurrences goes over its runs. -/
theorem filter_count_cons (p : ℕ → Bool) (h : (a :: nums).Pairwise (· ≤ ·)) :
    (a :: nums).filter (fun x => p ((a :: nums).count x)) =
      (if p ((nums.takeWhile (· = a)).length + 1) then a :: nums.takeWhile (· = a) else []) ++
        (nums.dropWhile (· = a)).filter fun x => p ((nums.dropWhile (· = a)).count x) := by
  have hnot := not_mem_dropWhile_of_sorted h
  have hsplit : a :: nums
      = (a :: nums.takeWhile (· = a)) ++ nums.dropWhile (· = a) := by
    rw [List.cons_append, List.takeWhile_append_dropWhile]
  have hrun : a :: nums.takeWhile (· = a)
      = List.replicate ((nums.takeWhile (· = a)).length + 1) a := by
    rw [List.replicate_succ, ← takeWhile_eq_replicate]
  generalize nums.dropWhile (· = a) = rest at hnot hsplit ⊢
  generalize (nums.takeWhile (· = a)).length = k at hrun ⊢
  rw [hsplit, List.filter_append, hrun]
  congr 1
  · rw [List.filter_replicate, List.count_append, List.count_replicate_self,
      List.count_eq_zero_of_not_mem hnot, Nat.add_zero]
  · refine List.filter_congr fun x hx => ?_
    have hne : x ≠ a := fun heq => hnot (heq ▸ hx)
    rw [List.count_append, List.count_replicate, if_neg (by simpa using hne.symm), Nat.zero_add]

theorem removeRepeatedSorted_eq_filter (h : nums.Pairwise (· ≤ ·)) :
    removeRepeatedSorted nums = nums.filter fun x => decide (nums.count x = 1) := by
  fun_induction removeRepeatedSorted nums with
  | case1 => rfl
  | case2 a nums hrun ih =>
    rw [filter_count_cons (fun n => decide (n = 1)) h, hrun, ih (sorted_dropWhile h)]
    rfl
  | case3 a nums hrun ih =>
    have hlong : ¬ (nums.takeWhile (· = a)).length + 1 = 1 := by simpa using hrun
    rw [filter_count_cons (fun n => decide (n = 1)) h, decide_eq_false hlong,
      ih (sorted_dropWhile h)]
    rfl

theorem removeUniqueElementsSorted_eq_filter (h : nums.Pairwise (· ≤ ·)) :
    removeUniqueElementsSorted nums = nums.filter fun x => decide (1 < nums.count x) := by
  fun_induction removeUniqueElementsSorted nums with
  | case1 => rfl
  | case2 a nums hrun ih =>
    rw [filter_count_cons (fun n => decide (1 < n)) h, hrun, ih (sorted_dropWhile h)]
    rfl
  | case3 a nums hrun ih =>
    have hlong : 1 < (nums.takeWhile (· = a)).length + 1 := by
      have := List.length_pos_iff.mpr hrun
      omega
    rw [filter_count_cons (fun n => decide (1 < n)) h, decide_eq_true hlong,
      ih (sorted_dropWhile h)]
    rfl

end Sorted
