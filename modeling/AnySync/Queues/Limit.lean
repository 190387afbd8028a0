import AnySync.Go.Run
import AnySync.Go.Sum
import Mathlib.Data.List.Induction
import Mathlib.Data.List.Sort

/-!
# The request limit

`util/syncqueues/limit.go`: how many requests a peer may have at a time. The limit goes down in
steps as the total of all peers grows.
-/

namespace SyncQueues

/-- The fields of `Limit` that do not change. -/
structure LimitConfig where
  peerStep : List ℤ
  totalStep : List ℤ
  excludeIds : List GoString
  excludedLimit : ℤ
  length_eq : peerStep.length = totalStep.length
  two_le : 2 ≤ totalStep.length

/-- `NewLimit`, which panics if the numbers of steps do not match. -/
def newLimit (peerStep totalStep : List ℤ) (excludeIds : List GoString) (excludedLimit : ℤ) :
    Option LimitConfig :=
  if h : totalStep ≠ [] ∧ peerStep.length = totalStep.length + 1 then
    some
      { peerStep := peerStep.insertionSort (· ≥ ·)
        totalStep := totalStep.insertionSort (· ≤ ·) ++
          [(totalStep.insertionSort (· ≤ ·)).getLastD 0]
        excludeIds := excludeIds
        excludedLimit := excludedLimit
        length_eq := by simp [h.2]
        two_le := by
          have hpos := List.length_pos_iff.mpr h.1
          simp
          omega }
  else none

/-- The fields of `Limit` that change. The counter is always an index of the steps. -/
structure Limit (c : LimitConfig) where
  counter : Fin c.totalStep.length
  excludedTotal : ℤ
  total : ℤ
  tokens : GoMap GoString ℤ

namespace Limit

variable {c : LimitConfig}

/-- The state that `NewLimit` makes. -/
def init (c : LimitConfig) : Limit c where
  counter := ⟨0, by have := c.two_le; omega⟩
  excludedTotal := 0
  total := 0
  tokens := ∅

variable (l : Limit c) (id : GoString)

/-- `tokens[id]`. -/
def held : ℤ := (l.tokens.lookup id).getD 0

/-- `totalStep[counter]`. -/
def totalStep : ℤ := c.totalStep.get l.counter

/-- `peerStep[counter]`. -/
def peerStep : ℤ := c.peerStep.get (l.counter.cast c.length_eq.symm)

/-- `Take`. -/
def take : Limit c × Bool :=
  if id ∈ c.excludeIds then
    if c.excludedLimit ≤ l.held id then (l, false)
    else
      ({ l with
        tokens := l.tokens.insert id (l.held id + 1)
        excludedTotal := l.excludedTotal + 1 }, true)
  else if l.peerStep ≤ l.held id then (l, false)
  else
    let l := { l with tokens := l.tokens.insert id (l.held id + 1), total := l.total + 1 }
    if h : l.totalStep ≤ l.total ∧ l.counter.val + 1 < c.totalStep.length then
      ({ l with counter := ⟨l.counter + 1, h.2⟩ }, true)
    else (l, true)

/-- A counter that goes down, to zero at least. -/
def down (i : Fin c.totalStep.length) : Fin c.totalStep.length := ⟨i - 1, by omega⟩

/-- `Release`. -/
def release : Limit c :=
  if 0 < l.held id then
    let l := { l with tokens := l.tokens.insert id (l.held id - 1) }
    if id ∈ c.excludeIds then { l with excludedTotal := l.excludedTotal - 1 }
    else
      let l := { l with total := l.total - 1 }
      if l.total < l.totalStep then
        let counter := if l.counter.val + 1 = c.totalStep.length then down l.counter else l.counter
        { l with counter := down counter }
      else l
  else l

end Limit

/-- A call by a peer. -/
inductive LimitCall
  | take (id : GoString)
  | release (id : GoString)

namespace Limit

variable {c : LimitConfig}

/-- The state after a call. -/
def step (l : Limit c) : LimitCall → Limit c
  | .take id => (l.take id).1
  | .release id => l.release id

/-- The state after some calls. -/
def run (c : LimitConfig) (calls : List LimitCall) : Limit c := calls.foldl step (init c)

/-! ## The total -/

/-- The tokens of the peers that are not excluded. -/
def load (l : Limit c) : ℤ := GoMap.sum (fun id n => if id ∈ c.excludeIds then 0 else n) l.tokens

/-- What a new number of tokens of a peer adds. -/
theorem sum_insert_tokens (l : Limit c) (id : GoString) (n : ℤ) :
    GoMap.sum (fun id n => if id ∈ c.excludeIds then 0 else n) (l.tokens.insert id n) =
      l.load + if id ∈ c.excludeIds then 0 else n - l.held id := by
  rw [GoMap.sum_insert_eq, load, held]
  cases l.tokens.lookup id with
  | none => split <;> simp
  | some m => split <;> simp

/-- Every call counts in the total what it counts for the peer. -/
theorem total_step {l : Limit c} (h : l.total = l.load) (call : LimitCall) :
    (l.step call).total = (l.step call).load := by
  cases call with
  | take id =>
    rw [step, take]
    split
    · split
      · exact h
      · rw [load, sum_insert_tokens]
        simp_all
    · split
      · exact h
      · dsimp only
        split
        all_goals
          rw [load, sum_insert_tokens]
          simp_all
  | release id =>
    rw [step, release]
    split
    · dsimp only
      split
      · rw [load, sum_insert_tokens]
        simp_all
      · split
        all_goals
          rw [load, sum_insert_tokens]
          simp_all [sub_eq_add_neg]
    · exact h

/-- What holds at the start and after every call holds after any calls. -/
theorem run_induction {P : Limit c → Prop} (h0 : P (init c))
    (hstep : ∀ l call, P l → P (l.step call)) (calls : List LimitCall) : P (run c calls) := by
  induction calls using List.reverseRecOn with
  | nil => exact h0
  | append_singleton calls call ih =>
    rw [run, List.foldl_concat]
    exact hstep _ call ih

theorem total_run (calls : List LimitCall) : (run c calls).total = (run c calls).load :=
  run_induction (P := fun l => l.total = l.load) rfl (fun _ call h => total_step h call) calls

end Limit

/-! ## The step in force -/

/-- One more makes up the elements that are equal to it. -/
theorem countP_le_succ (s : List ℤ) (t : ℤ) :
    s.countP (· ≤ t + 1) = s.countP (· ≤ t) + s.count (t + 1) := by
  induction s with
  | nil => rfl
  | cons a s ih =>
    simp only [List.countP_cons, List.count_cons, ih, decide_eq_true_eq, beq_iff_eq]
    -- `a` is at most `t`, or the next number, or above it
    split_ifs <;> omega

/-- Of increasing numbers, the first ones are those that are at most `t`. -/
theorem lt_countP_le_iff {s : List ℤ} (hs : s.Pairwise (· < ·)) (t : ℤ) {i : ℕ}
    (hi : i < s.length) :
    i < s.countP (· ≤ t) ↔ s[i] ≤ t := by
  induction s generalizing i with
  | nil => simp at hi
  | cons a s ih =>
    have hsorted := List.pairwise_cons.mp hs
    by_cases ha : a ≤ t
    · cases i with
      | zero => simp [ha]
      | succ i =>
        have hi' : i < s.length := by simpa using hi
        simpa [ha] using ih hsorted.2 hi'
    · -- no element is at most `t`
      have hzero : (a :: s).countP (· ≤ t) = 0 := by
        rw [List.countP_eq_zero]
        intro b hb
        rcases List.mem_cons.mp hb with rfl | hb
        · simpa using ha
        · have hab := hsorted.1 b hb
          simp only [decide_eq_true_eq]
          omega
      have hle : a ≤ (a :: s)[i] := by
        rcases List.mem_cons.mp (List.getElem_mem hi) with h | h
        · exact h.ge
        · exact (hsorted.1 _ h).le
      rw [hzero]
      omega

namespace LimitConfig

/-- The total steps as they were given. -/
def steps (c : LimitConfig) : List ℤ := c.totalStep.dropLast

/-- The number of total steps that are at most `t`. -/
def level (c : LimitConfig) (t : ℤ) : Fin c.totalStep.length :=
  ⟨c.steps.countP (· ≤ t), by
    have hle : c.steps.countP (· ≤ t) ≤ c.steps.length := List.countP_le_length
    have hlen : c.steps.length = c.totalStep.length - 1 := List.length_dropLast
    have htwo := c.two_le
    omega⟩

/-- The peer step of a level. -/
def limitAt (c : LimitConfig) (i : Fin c.totalStep.length) : ℤ :=
  c.peerStep.get (i.cast c.length_eq.symm)

/-- The steps increase, and the last one is there twice. -/
structure Increasing (c : LimitConfig) : Prop where
  steps : c.steps.Pairwise (· < ·)
  last : c.totalStep.getLast? = c.steps.getLast?

variable {c : LimitConfig}

theorem length_steps (c : LimitConfig) : c.steps.length + 1 = c.totalStep.length := by
  have := c.two_le
  simp only [steps, List.length_dropLast]
  omega

theorem get_of_lt {i : Fin c.totalStep.length} (hi : i.val < c.steps.length) :
    c.totalStep.get i = c.steps[i.val] :=
  (List.getElem_dropLast hi).symm

theorem Increasing.get_last (h : c.Increasing) {i : Fin c.totalStep.length}
    (hi : i.val = c.steps.length) : c.steps.getLast? = some (c.totalStep.get i) := by
  have hlast : i.val = c.totalStep.length - 1 := by
    have hlen := c.length_steps
    omega
  rw [← h.last, List.getLast?_eq_getElem?, ← hlast, List.getElem?_eq_getElem i.isLt]
  rfl

/-- With `newLimit`, increasing total steps are kept as they are. -/
theorem increasing_of_newLimit {peerStep totalStep : List ℤ} {excludeIds : List GoString}
    {excludedLimit : ℤ} (hc : newLimit peerStep totalStep excludeIds excludedLimit = some c)
    (hs : totalStep.Pairwise (· < ·)) : c.Increasing ∧ c.steps = totalStep := by
  rw [newLimit] at hc
  split at hc
  case isFalse => exact nomatch hc
  case isTrue h =>
    cases hc
    have hsort : totalStep.insertionSort (· ≤ ·) = totalStep :=
      List.Pairwise.insertionSort_eq (hs.imp le_of_lt)
    have hsteps : List.dropLast (totalStep ++ [totalStep.getLastD 0]) = totalStep :=
      List.dropLast_concat
    refine ⟨⟨?_, ?_⟩, ?_⟩
    · simpa only [steps, hsort, hsteps] using hs
    · simp only [steps, hsort, hsteps, List.getLast?_concat]
      rw [List.getLastD_eq_getLast?, List.getLast?_eq_some_getLast h.1, Option.getD_some]
    · simp only [steps, hsort, hsteps]

/-- The total passes at most one step at a time. -/
theorem Increasing.level_succ (h : c.Increasing) (t : ℤ) :
    (c.level (t + 1)).val = (c.level t).val + if t + 1 ∈ c.steps then 1 else 0 := by
  have hnodup : c.steps.Nodup := h.steps.imp ne_of_lt
  rw [← hnodup.count]
  exact countP_le_succ c.steps t

end LimitConfig

namespace Limit

variable {c : LimitConfig}
variable {l : Limit c}

/-- The counter is the level of the total. -/
def Right (l : Limit c) : Prop := l.counter = c.level l.total

section

variable (h : l.Right) (hc : c.Increasing)

include h hc

/-- In a right state, the step of the counter is above the total. -/
theorem Right.total_lt (hi : l.counter.val < c.steps.length) : l.total < l.totalStep := by
  have hnot : ¬ l.counter.val < (c.level l.total).val := by
    rw [h]
    exact lt_irrefl _
  rw [totalStep, LimitConfig.get_of_lt hi]
  exact not_le.mp fun hle => hnot ((lt_countP_le_iff hc.steps _ hi).mpr hle)

/-- The steps above the total of a right state begin at the counter. -/
theorem Right.le_of_mem {t : ℤ} (hmem : t ∈ c.steps) (ht : l.total < t) :
    l.counter.val < c.steps.length ∧ l.totalStep ≤ t := by
  obtain ⟨i, hi, rfl⟩ := List.getElem_of_mem hmem
  have hge : l.counter.val ≤ i := by
    by_contra hlt
    rw [h, not_le] at hlt
    exact ht.not_ge ((lt_countP_le_iff hc.steps l.total hi).mp hlt)
  refine ⟨hge.trans_lt hi, ?_⟩
  rw [totalStep, LimitConfig.get_of_lt (hge.trans_lt hi)]
  exact (hc.steps.imp le_of_lt).rel_get_of_le (a := ⟨_, hge.trans_lt hi⟩) (b := ⟨i, hi⟩) hge

/-- `Take` moves the counter exactly when the new total is a step. -/
theorem Right.next_le_iff :
    (l.totalStep ≤ l.total + 1 ∧ l.counter.val + 1 < c.totalStep.length) ↔
      l.total + 1 ∈ c.steps := by
  have hlen := c.length_steps
  constructor
  · rintro ⟨hle, hlt⟩
    have hi : l.counter.val < c.steps.length := by omega
    have hbelow := h.total_lt hc hi
    have heq : l.totalStep = l.total + 1 := by omega
    rw [← heq, totalStep, LimitConfig.get_of_lt hi]
    exact List.getElem_mem hi
  · intro hmem
    obtain ⟨hi, hle⟩ := h.le_of_mem hc hmem (by omega)
    exact ⟨hle, by omega⟩

/-- `Take` keeps a right counter right. -/
theorem Right.take (id : GoString) : (l.take id).1.Right := by
  rw [Limit.take]
  split
  · split <;> exact h
  · split
    · exact h
    · -- the one branch that moves the total
      have hnext := h.next_le_iff hc
      have hlevel := hc.level_succ l.total
      have hval : l.counter.val = (c.level l.total).val := congrArg Fin.val h
      dsimp only
      split
      case isTrue hcond =>
        apply Fin.ext
        change l.counter.val + 1 = (c.level (l.total + 1)).val
        rw [hlevel, if_pos (hnext.mp hcond), hval]
      case isFalse hcond =>
        apply Fin.ext
        change l.counter.val = (c.level (l.total + 1)).val
        rw [hlevel, if_neg (hcond ∘ hnext.mpr), hval, Nat.add_zero]

end

/-! ## Releases -/

/-- The totals from which a release leaves the counter right: no step has been reached, or the
total is at a step that is not the last one, or it is above the last one; and any total if there
is one step. -/
def Releasable (c : LimitConfig) (t : ℤ) : Prop :=
  (c.level t).val = 0 ∨
    if (c.level t).val < c.steps.length then t ∈ c.steps else t ∉ c.steps ∨ c.steps.length = 1

instance (c : LimitConfig) (t : ℤ) : Decidable (Releasable c t) :=
  inferInstanceAs (Decidable (_ ∨
    if (c.level t).val < c.steps.length then t ∈ c.steps else t ∉ c.steps ∨ c.steps.length = 1))

/-- A call that changes the total moves it to where the counter follows. -/
def Meets (l : Limit c) : LimitCall → Prop
  | .take _ => True
  | .release id => id ∈ c.excludeIds ∨ l.held id ≤ 0 ∨ Releasable c l.total

instance (l : Limit c) (call : LimitCall) : Decidable (l.Meets call) :=
  match call with
  | .take _ => isTrue trivial
  | .release _ => inferInstanceAs (Decidable (_ ∨ _ ∨ _))

section

variable (h : l.Right) (hc : c.Increasing)

include h hc

/-- On the last level, a release is below the last step exactly if the total was at it. -/
theorem Right.last_lt_iff (hi : l.counter.val = c.steps.length) :
    l.total - 1 < l.totalStep ↔ l.total ∈ c.steps := by
  have hlast : c.steps.getLast? = some l.totalStep := hc.get_last hi
  have hmem : l.totalStep ∈ c.steps := List.mem_of_getLast? hlast
  have hall : ∀ s ∈ c.steps, s ≤ l.total := by
    rw [h] at hi
    simpa using List.countP_eq_length.mp hi
  constructor
  · intro hlt
    have hle := hall _ hmem
    have heq : l.totalStep = l.total := by omega
    exact heq ▸ hmem
  · intro htotal
    have hle : l.total ≤ l.totalStep := by
      by_contra hlt
      -- the last step would not be the last
      obtain ⟨i, hi', heq⟩ := List.getElem_of_mem htotal
      rw [List.getLast?_eq_getElem?] at hlast
      obtain ⟨hlen, hget⟩ := List.getElem?_eq_some_iff.mp hlast
      have hsorted := (hc.steps.imp le_of_lt).rel_get_of_le (a := ⟨i, hi'⟩) (b := ⟨_, hlen⟩)
        (Nat.le_sub_one_of_lt hi')
      simp only [List.get_eq_getElem, heq, hget] at hsorted
      exact hlt hsorted
    omega

/-- What a release does to a counter. -/
theorem Right.counter_release :
    (if l.total - 1 < l.totalStep then
        down (if l.counter.val + 1 = c.totalStep.length then down l.counter else l.counter)
      else l.counter).val =
      if l.counter.val < c.steps.length then l.counter.val - 1
      else if l.total ∈ c.steps then l.counter.val - 2 else l.counter.val := by
  have hlen := c.length_steps
  have hlt := l.counter.isLt
  by_cases hi : l.counter.val < c.steps.length
  · -- below the last level the comparison is always true
    have hbelow := h.total_lt hc hi
    rw [if_pos (by omega), if_pos hi, if_neg (by omega)]
    rfl
  · -- on the last level the comparison is with the last step again
    have htop := h.last_lt_iff hc (by omega)
    by_cases hmem : l.total ∈ c.steps
    · rw [if_pos (htop.mpr hmem), if_neg hi, if_pos hmem, if_pos (by omega)]
      change l.counter.val - 1 - 1 = _
      omega
    · rw [if_neg (mt htop.mp hmem), if_neg hi, if_neg hmem]

/-- A release with a token leaves the counter right exactly from those totals. -/
theorem Right.release_iff (id : GoString) : (l.release id).Right ↔ l.Meets (.release id) := by
  rw [Limit.release]
  split
  case isFalse hheld =>
    simpa [Meets, not_lt.mp hheld] using h
  case isTrue hheld =>
    dsimp only
    split
    case isTrue hex =>
      simp only [Meets, hex, true_or, iff_true]
      exact h
    case isFalse hex =>
      have hcounter := h.counter_release hc
      have hlevel := hc.level_succ (l.total - 1)
      have hval : l.counter.val = (c.level l.total).val := congrArg Fin.val h
      have hle : (c.level l.total).val ≤ c.steps.length := List.countP_le_length
      rw [sub_add_cancel] at hlevel
      -- only the counter matters from here on
      trans (if l.total - 1 < l.totalStep then
          down (if l.counter.val + 1 = c.totalStep.length then down l.counter else l.counter)
        else l.counter) = c.level (l.total - 1)
      · split
        case isTrue hlt =>
          rw [if_pos (show l.total - 1 < l.totalStep from hlt)]
          rfl
        case isFalse hlt =>
          rw [if_neg (show ¬ l.total - 1 < l.totalStep from hlt)]
          rfl
      · rw [Fin.ext_iff, hcounter, hval]
        simp only [Meets, hex, not_le.mpr hheld, false_or, Releasable]
        split_ifs at hlevel ⊢ <;> simp_all <;> omega

/-- A call keeps a right counter right exactly if it meets the condition. -/
theorem Right.step_iff (call : LimitCall) : (l.step call).Right ↔ l.Meets call := by
  cases call with
  | take id => exact iff_of_true (h.take hc id) trivial
  | release id => exact h.release_iff hc id

end

/-- The counter starts right exactly if all steps are positive. -/
theorem right_init (c : LimitConfig) : (init c).Right ↔ ∀ s ∈ c.steps, 0 < s := by
  rw [Right, Fin.ext_iff]
  change 0 = c.steps.countP (· ≤ 0) ↔ _
  rw [eq_comm, List.countP_eq_zero]
  simp

/-- The counter is right all along exactly if it starts right and every call meets the
condition. -/
theorem right_run_iff (hc : c.Increasing) (calls : List LimitCall) :
    (∀ before, before <+: calls → (run c before).Right) ↔
      (∀ s ∈ c.steps, 0 < s) ∧
        ∀ before call after, calls = before ++ call :: after → (run c before).Meets call := by
  induction calls using List.reverseRecOn with
  | nil => simp [← right_init, run]
  | append_singleton calls call ih =>
    rw [forall_split_concat, ← and_assoc, ← ih]
    have hstep : run c (calls ++ [call]) = (run c calls).step call := List.foldl_concat ..
    constructor
    · intro hall
      have hbefore : ∀ before, before <+: calls → (run c before).Right :=
        fun before hb => hall before (hb.trans (List.prefix_append ..))
      have hlast := hall _ List.prefix_rfl
      rw [hstep, (hbefore calls List.prefix_rfl).step_iff hc] at hlast
      exact ⟨hbefore, hlast⟩
    · rintro ⟨hbefore, hmeets⟩ before hb
      rcases List.prefix_concat_iff.mp hb with rfl | hb
      · rw [hstep, (hbefore calls List.prefix_rfl).step_iff hc]
        exact hmeets
      · exact hbefore before hb

/-- The limit in force is the peer step of the level of the total. -/
def Follows (l : Limit c) : Prop :=
  l.peerStep = c.limitAt (c.level l.total) ∧
    ∀ id, id ∉ c.excludeIds → ((l.take id).2 = true ↔ l.held id < c.limitAt (c.level l.total))

theorem take_snd_iff (l : Limit c) {id : GoString} (hid : id ∉ c.excludeIds) :
    (l.take id).2 = true ↔ l.held id < l.peerStep := by
  rw [take, if_neg hid]
  split
  case isTrue h => simpa using h
  case isFalse h =>
    dsimp only
    split <;> simpa using h

theorem Right.follows (h : l.Right) : l.Follows := by
  have hpeer : l.peerStep = c.limitAt (c.level l.total) := congrArg c.limitAt h
  refine ⟨hpeer, fun id hid => ?_⟩
  rw [take_snd_iff l hid, hpeer]

/-- Where the peer steps are different, the limit tells the counter. -/
theorem Follows.right (h : l.Follows) (hnodup : c.peerStep.Nodup) : l.Right := by
  have hget := List.nodup_iff_injective_get.mp hnodup h.1
  exact Fin.cast_injective _ hget

/-- After any calls, the total is what the peers that are not excluded hold. If the total steps
are positive, and each release that takes a token back happens at a total from which the counter
goes down right, then the limit in force is the peer step of the current load. Where the peer
steps are different, it is so only then. -/
theorem limit_follows_load {peerStep totalStep : List ℤ} {excludeIds : List GoString}
    {excludedLimit : ℤ} {c : LimitConfig}
    (hc : newLimit peerStep totalStep excludeIds excludedLimit = some c)
    (hs : totalStep.Pairwise (· < ·)) (calls : List LimitCall) :
    (run c calls).total = (run c calls).load ∧
      (((∀ s ∈ totalStep, 0 < s) ∧
          ∀ before call after, calls = before ++ call :: after → (run c before).Meets call) →
        ∀ before, before <+: calls → (run c before).Follows) ∧
      (c.peerStep.Nodup →
        (∀ before, before <+: calls → (run c before).Follows) →
        (∀ s ∈ totalStep, 0 < s) ∧
          ∀ before call after, calls = before ++ call :: after → (run c before).Meets call) := by
  obtain ⟨hinc, hsteps⟩ := LimitConfig.increasing_of_newLimit hc hs
  have hiff := right_run_iff hinc calls
  rw [hsteps] at hiff
  refine ⟨total_run calls, ?_, ?_⟩
  · intro hmeets before hb
    exact (hiff.mpr hmeets before hb).follows
  · intro hnodup hall
    exact hiff.mp fun before hb => (hall before hb).right hnodup

/-- A peer takes three tokens, which reaches the first step, and gives one back; an excluded peer
takes one, and a peer without tokens releases one. -/
theorem limit_follows_load_sample :
    ∃ c, newLimit [3, 2, 1] [3, 6] [[7]] 10 = some c ∧
      (run c ([] ++ [.take [1]] ++ [.take [1]] ++ [.take [1]] ++ [.take [7]] ++ [.release [1]] ++
        [.release [9]])).Follows := by
  obtain ⟨c, hc⟩ : ∃ c, newLimit [3, 2, 1] [3, 6] [[7]] 10 = some c := ⟨_, rfl⟩
  refine ⟨c, hc, (limit_follows_load hc (by decide) _).2.1 ⟨by decide, ?_⟩ _ List.prefix_rfl⟩
  cases hc
  simp only [forall_split_concat, List.nil_eq, List.append_eq_nil_iff, reduceCtorEq, and_false,
    false_implies, implies_true, true_and]
  decide +kernel

/-- Four tokens are taken, so that the second step is in force, and one is given back: the second
step would still be right, but the limit is that of the first one. -/
theorem release_drops_step :
    ((newLimit [3, 2, 1] [3, 6] [] 10).map fun c =>
      let l := run c [.take [1], .take [1], .take [1], .take [2], .release [2]]
      (l.load, l.peerStep, c.limitAt (c.level l.total), (l.take [1]).2)) =
        some (3, 3, 2, false) := by
  decide +kernel

end Limit

end SyncQueues
