import Mathlib.Algebra.GroupWithZero.Nat
import Mathlib.Data.List.Nodup
import Mathlib.Logic.Relation
import Mathlib.Algebra.Order.BigOperators.Group.List
import Mathlib.Algebra.Order.Group.Nat

/-!
# Marking what can be reached

A search over a graph with an explicit stack. A vertex that is popped is marked, unless it is
marked already or not kept, and its successors that are kept and not marked are pushed.

The search ends (`exists_search`), and it marks what can be reached through vertices that are kept
(`mem_search_iff`).
-/

namespace Graph

variable {α : Type}

/-- The edges of a graph that is given by its successor lists. -/
def Edge (next : α → List α) (a b : α) : Prop := b ∈ next a

/-- There is a path from `a` to `b`. -/
abbrev Reaches (next : α → List α) : α → α → Prop := Relation.ReflTransGen (Edge next)

variable [DecidableEq α] (next : α → List α) (keep : α → Bool)

/-- The loop over the stack, whose top comes first. -/
def search : ℕ → List α → List α → Option (List α)
  | _, marked, [] => some marked
  | 0, _, _ :: _ => none
  | fuel + 1, marked, a :: stack =>
    if keep a ∧ a ∉ marked then
      search fuel (a :: marked)
        (((next a).filter fun b => keep b ∧ b ∉ a :: marked).reverse ++ stack)
    else search fuel marked stack

/-- The successors that are kept. -/
def kept (a : α) : List α := (next a).filter keep

variable {next keep} {fuel : ℕ} {marked marked' stack : List α} {x : α}

/-- What the vertices of `U` that are not visited can still add to the stack. -/
def weight (next : α → List α) (U visited : List α) : ℕ :=
  ((U.filter (· ∉ visited)).map fun x => (next x).length + 1).sum

/-- Entering a vertex uses up its weight. -/
theorem weight_cons (next : α → List α) {a : α} {U visited : List α} (ha : a ∈ U)
    (hnew : a ∉ visited) :
    weight next U (a :: visited) + ((next a).length + 1) ≤ weight next U visited := by
  have hle : ∀ U : List α, weight next U (a :: visited) ≤ weight next U visited := by
    intro U
    refine List.Sublist.sum_le_sum (List.Sublist.map _ ?_) fun _ _ => Nat.zero_le _
    refine List.monotone_filter_right U fun x hx => ?_
    simp only [decide_eq_true_eq, List.mem_cons, not_or] at hx ⊢
    exact hx.2
  obtain ⟨U₁, U₂, rfl⟩ := List.append_of_mem ha
  have h₁ := hle U₁
  have h₂ := hle U₂
  simp only [weight, List.filter_append, List.map_append, List.sum_append] at h₁ h₂ ⊢
  rw [List.filter_cons_of_neg (by simp), List.filter_cons_of_pos (by simpa using hnew),
    List.map_cons, List.sum_cons]
  omega

/-- There are enough turns for all vertices that are kept. -/
theorem exists_search {U : List α} (hU : ∀ a, keep a = true → a ∈ U)
    (hfuel : weight next U marked + stack.length ≤ fuel) :
    ∃ marked', search next keep fuel marked stack = some marked' := by
  induction fuel generalizing marked stack with
  | zero =>
    obtain rfl : stack = [] := List.eq_nil_of_length_eq_zero (by omega)
    exact ⟨marked, rfl⟩
  | succ fuel ih =>
    cases stack with
    | nil => exact ⟨marked, rfl⟩
    | cons a stack =>
      rw [List.length_cons] at hfuel
      rw [search]
      split
      · next hnew =>
        have hweight := weight_cons next (hU a hnew.1) hnew.2
        refine ih ?_
        rw [List.length_append, List.length_reverse]
        have hle := List.length_filter_le (fun b => keep b ∧ b ∉ a :: marked) (next a)
        omega
      · exact ih (by omega)

/-- What is marked can be reached from the stack, or was marked. -/
theorem reaches_of_mem_search (hok : search next keep fuel marked stack = some marked')
    (hx : x ∈ marked') :
    x ∈ marked ∨ ∃ a ∈ stack, keep a = true ∧ Reaches (kept next keep) a x := by
  induction fuel generalizing marked stack with
  | zero =>
    cases stack with
    | nil => exact .inl (Option.some.inj hok ▸ hx)
    | cons => cases hok
  | succ fuel ih =>
    cases stack with
    | nil => exact .inl (Option.some.inj hok ▸ hx)
    | cons a stack =>
      rw [search] at hok
      split at hok
      · next hnew =>
        rcases ih hok with hmem | ⟨b, hb, hkeep, hreach⟩
        · rcases List.mem_cons.mp hmem with rfl | hmem
          · exact .inr ⟨x, List.mem_cons_self, hnew.1, .refl⟩
          · exact .inl hmem
        · rcases List.mem_append.mp hb with hb | hb
          · -- a successor of `a`
            have hedge : Edge (kept next keep) a b := by
              rw [List.mem_reverse, List.mem_filter] at hb
              exact List.mem_filter.mpr ⟨hb.1, hkeep⟩
            exact .inr ⟨a, List.mem_cons_self, hnew.1, .head hedge hreach⟩
          · exact .inr ⟨b, List.mem_cons_of_mem _ hb, hkeep, hreach⟩
      · rcases ih hok with hmem | ⟨b, hb, hreach⟩
        · exact .inl hmem
        · exact .inr ⟨b, List.mem_cons_of_mem _ hb, hreach⟩

theorem nodup_search (hnodup : marked.Nodup)
    (hok : search next keep fuel marked stack = some marked') : marked'.Nodup := by
  induction fuel generalizing marked stack with
  | zero =>
    cases stack with
    | nil => exact Option.some.inj hok ▸ hnodup
    | cons => cases hok
  | succ fuel ih =>
    cases stack with
    | nil => exact Option.some.inj hok ▸ hnodup
    | cons a stack =>
      rw [search] at hok
      split at hok
      · next hnew => exact ih (List.nodup_cons.mpr ⟨hnew.2, hnodup⟩) hok
      · exact ih hnodup hok

/-- The successors of what is marked are marked or wait on the stack. -/
def Pending (next : α → List α) (keep : α → Bool) (marked stack : List α) : Prop :=
  ∀ a ∈ marked, ∀ b ∈ kept next keep a, b ∈ marked ∨ b ∈ stack

/-- The marks are closed in the end, and everything kept on the stack is marked. -/
theorem closed_search (hpending : Pending next keep marked stack)
    (hok : search next keep fuel marked stack = some marked') :
    Pending next keep marked' [] ∧ (∀ a ∈ marked, a ∈ marked') ∧
      ∀ a ∈ stack, keep a = true → a ∈ marked' := by
  -- successors of marked vertices are marked or on the stack
  induction fuel generalizing marked stack with
  | zero =>
    cases stack with
    | nil =>
      obtain rfl := Option.some.inj hok
      exact ⟨hpending, fun _ ha => ha, fun _ ha => absurd ha List.not_mem_nil⟩
    | cons => cases hok
  | succ fuel ih =>
    cases stack with
    | nil =>
      obtain rfl := Option.some.inj hok
      exact ⟨hpending, fun _ ha => ha, fun _ ha => absurd ha List.not_mem_nil⟩
    | cons a stack =>
      rw [search] at hok
      split at hok
      · -- a new vertex is marked, and its successors wait on the stack
        have hpending' : Pending next keep (a :: marked)
            (((next a).filter fun b => keep b ∧ b ∉ a :: marked).reverse ++ stack) := by
          intro x hx b hb
          rw [List.mem_append, List.mem_reverse, List.mem_filter]
          by_cases hmarked : b ∈ a :: marked
          · exact .inl hmarked
          · rcases List.mem_cons.mp hx with rfl | hx
            · obtain ⟨hnext, hkeep⟩ := List.mem_filter.mp hb
              exact .inr (.inl ⟨hnext, decide_eq_true ⟨hkeep, hmarked⟩⟩)
            · rcases hpending x hx b hb with hb | hb
              · exact absurd (List.mem_cons_of_mem _ hb) hmarked
              · rcases List.mem_cons.mp hb with rfl | hb
                · exact absurd List.mem_cons_self hmarked
                · exact .inr (.inr hb)
        obtain ⟨hclosed, hmarked, hstack⟩ := ih hpending' hok
        refine ⟨hclosed, fun x hx => hmarked x (List.mem_cons_of_mem _ hx), fun x hx hkeep => ?_⟩
        rcases List.mem_cons.mp hx with rfl | hx
        · exact hmarked x List.mem_cons_self
        · exact hstack x (List.mem_append_right _ hx) hkeep
      · next hold =>
        have hpending' : Pending next keep marked stack := by
          intro x hx b hb
          rcases hpending x hx b hb with hb' | hb'
          · exact .inl hb'
          · rcases List.mem_cons.mp hb' with rfl | hb'
            · have hkeep := (List.mem_filter.mp hb).2
              exact .inl (by_contra fun hnew => hold ⟨hkeep, hnew⟩)
            · exact .inr hb'
        obtain ⟨hclosed, hmarked, hstack⟩ := ih hpending' hok
        refine ⟨hclosed, hmarked, fun x hx hkeep => ?_⟩
        rcases List.mem_cons.mp hx with rfl | hx
        · exact hmarked x (by_contra fun hnew => hold ⟨hkeep, hnew⟩)
        · exact hstack x hx hkeep

/-- It marks what can be reached through vertices that are kept. -/
theorem mem_search_iff (hok : search next keep fuel [] stack = some marked') :
    x ∈ marked' ↔ ∃ a ∈ stack, keep a = true ∧ Reaches (kept next keep) a x := by
  constructor
  · intro hx
    exact (reaches_of_mem_search hok hx).resolve_left List.not_mem_nil
  · rintro ⟨a, ha, hkeep, hreach⟩
    obtain ⟨hclosed, -, hstack⟩ :=
      closed_search (fun _ ha => absurd ha List.not_mem_nil) hok
    induction hreach with
    | refl => exact hstack a ha hkeep
    | tail _ hedge ih => exact (hclosed _ ih _ hedge).resolve_right List.not_mem_nil

end Graph
