import Mathlib.Algebra.Group.Nat.Defs
import Mathlib.Data.List.Sort
import Mathlib.Order.Nat

/-!
# Nested tilings of an interval

Intervals of natural numbers that are cut into consecutive pieces, and the pieces again. A point
lies in exactly one piece, two cells that share a point are nested (`Cell.le_or_le`), and a cell
that lies properly inside another lies inside one of its pieces (`Cell.le_piece`).
-/

/-- A closed interval of natural numbers. -/
@[ext]
structure NatInterval where
  /-- The first point. -/
  lo : ℕ
  /-- The last point. -/
  hi : ℕ
deriving DecidableEq, Repr

namespace NatInterval

variable {c d : NatInterval} {h : ℕ}

instance : Membership ℕ NatInterval := ⟨fun c h => c.lo ≤ h ∧ h ≤ c.hi⟩

/-- The order is inclusion. -/
instance : PartialOrder NatInterval where
  le c d := d.lo ≤ c.lo ∧ c.hi ≤ d.hi
  le_refl _ := ⟨le_rfl, le_rfl⟩
  le_trans _ _ _ hcd hde := ⟨hde.1.trans hcd.1, hcd.2.trans hde.2⟩
  le_antisymm _ _ hcd hdc := NatInterval.ext (le_antisymm hdc.1 hcd.1) (le_antisymm hcd.2 hdc.2)

theorem mem_iff : h ∈ c ↔ c.lo ≤ h ∧ h ≤ c.hi := Iff.rfl

theorem le_iff : c ≤ d ↔ d.lo ≤ c.lo ∧ c.hi ≤ d.hi := Iff.rfl

instance (c : NatInterval) (h : ℕ) : Decidable (h ∈ c) := inferInstanceAs (Decidable (_ ∧ _))

theorem mem_of_le (hcd : c ≤ d) (hc : h ∈ c) : h ∈ d :=
  ⟨hcd.1.trans hc.1, hc.2.trans hcd.2⟩

end NatInterval

/-- A sorted list falls into the part up to `mid` and the part after it. -/
theorem List.filter_interval_append {α : Type} (key : α → ℕ) {xs : List α}
    (hsorted : xs.Pairwise (key · ≤ key ·)) {lo mid hi : ℕ} (hlo : lo ≤ mid) (hhi : mid ≤ hi) :
    xs.filter (fun x => key x ∈ (⟨lo, hi⟩ : NatInterval))
      = xs.filter (fun x => key x ∈ (⟨lo, mid⟩ : NatInterval)) ++
        xs.filter (fun x => key x ∈ (⟨mid + 1, hi⟩ : NatInterval)) := by
  induction xs with
  | nil => rfl
  | cons x xs ih =>
    obtain ⟨hx, hxs⟩ := List.pairwise_cons.mp hsorted
    have ih' := ih hxs
    simp only [NatInterval.mem_iff] at ih' ⊢
    rcases Nat.lt_or_ge mid (key x) with hmid | hmid
    · -- nothing after `x` comes up to `mid`
      have hnil : xs.filter (fun y => decide (lo ≤ key y ∧ key y ≤ mid)) = [] := by
        rw [List.filter_eq_nil_iff]
        intro y hy
        have := hx y hy
        simp
        omega
      rw [hnil, List.nil_append] at ih'
      have hleft : ¬ (lo ≤ key x ∧ key x ≤ mid) := by omega
      have hsame : (lo ≤ key x ∧ key x ≤ hi) ↔ (mid + 1 ≤ key x ∧ key x ≤ hi) := by omega
      simp only [List.filter_cons, hleft, hsame, hnil, ih', decide_false, Bool.false_eq_true,
        if_false, List.nil_append]
    · have hright : ¬ (mid + 1 ≤ key x ∧ key x ≤ hi) := by omega
      have hsame : (lo ≤ key x ∧ key x ≤ hi) ↔ (lo ≤ key x ∧ key x ≤ mid) := by omega
      simp only [List.filter_cons, hright, hsame, ih', decide_false, Bool.false_eq_true, if_false]
      split
      · rw [List.cons_append]
      · rfl

/-- The intervals of the list follow each other from `lo` to `hi`. -/
inductive Tiles : ℕ → ℕ → List NatInterval → Prop
  | single {lo hi : ℕ} (hle : lo ≤ hi) : Tiles lo hi [⟨lo, hi⟩]
  | cons {lo mid hi : ℕ} {l : List NatInterval} (hle : lo ≤ mid) (rest : Tiles (mid + 1) hi l) :
      Tiles lo hi (⟨lo, mid⟩ :: l)

namespace Tiles

variable {lo hi h : ℕ} {l : List NatInterval} {c d : NatInterval}

section

variable (t : Tiles lo hi l)

include t

theorem le : lo ≤ hi := by
  induction t with
  | single hle => exact hle
  | cons hle _ ih => omega

theorem le_of_mem (hc : c ∈ l) : c ≤ ⟨lo, hi⟩ := by
  induction t with
  | single => rw [List.mem_singleton.mp hc]
  | cons hle rest ih =>
    have := rest.le
    rcases List.mem_cons.mp hc with rfl | hc
    · simp only [NatInterval.le_iff]
      omega
    · have hsub := ih hc
      simp only [NatInterval.le_iff] at hsub ⊢
      omega

theorem nonempty (hc : c ∈ l) : c.lo ≤ c.hi := by
  induction t with
  | single hle =>
    rw [List.mem_singleton.mp hc]
    exact hle
  | cons hle _ ih =>
    rcases List.mem_cons.mp hc with rfl | hc
    · exact hle
    · exact ih hc

/-- The tiles cover the interval. -/
theorem exists_mem (hlo : lo ≤ h) (hhi : h ≤ hi) : ∃ c ∈ l, h ∈ c := by
  induction t with
  | single => exact ⟨_, List.mem_singleton_self _, hlo, hhi⟩
  | @cons lo mid hi l hle rest ih =>
    rcases Nat.lt_or_ge mid h with hmid | hmid
    · obtain ⟨c, hc, hmem⟩ := ih hmid hhi
      exact ⟨c, List.mem_cons_of_mem _ hc, hmem⟩
    · exact ⟨_, List.mem_cons_self, hlo, hmid⟩

/-- No point lies in two tiles. -/
theorem eq_of_mem (hc : c ∈ l) (hd : d ∈ l) (hhc : h ∈ c) (hhd : h ∈ d) : c = d := by
  induction t with
  | single => rw [List.mem_singleton.mp hc, List.mem_singleton.mp hd]
  | @cons lo mid hi l hle rest ih =>
    -- a point of the first tile lies before all other tiles
    have hrest : ∀ e ∈ l, h ∈ e → mid + 1 ≤ h := fun e he hhe =>
      (NatInterval.mem_of_le (rest.le_of_mem he) hhe).1
    rcases List.mem_cons.mp hc with rfl | hc' <;> rcases List.mem_cons.mp hd with rfl | hd'
    · rfl
    · have hfirst : h ≤ mid := hhc.2
      have := hrest d hd' hhd
      omega
    · have hfirst : h ≤ mid := hhd.2
      have := hrest c hc' hhc
      omega
    · exact ih hc' hd'

/-- One of several tiles is not the whole interval. -/
theorem ne_of_mem (hl : 2 ≤ l.length) (hc : c ∈ l) : c ≠ ⟨lo, hi⟩ := by
  rintro rfl
  cases t with
  | single => simp at hl
  | cons hle rest =>
    rcases List.mem_cons.mp hc with heq | hc
    · have hle' := rest.le
      obtain rfl : hi = _ := congrArg NatInterval.hi heq
      omega
    · have hsub := rest.le_of_mem hc
      simp only [NatInterval.le_iff] at hsub
      omega

end

section Sorted

variable {α : Type} (key : α → ℕ)

/-- A list sorted by a key falls into the parts whose keys lie in the tiles. -/
theorem filter_eq_flatMap (t : Tiles lo hi l) {xs : List α}
    (hsorted : xs.Pairwise (key · ≤ key ·)) :
    xs.filter (fun x => key x ∈ (⟨lo, hi⟩ : NatInterval))
      = l.flatMap fun c => xs.filter (fun x => key x ∈ c) := by
  induction t with
  | single => rw [List.flatMap_singleton]
  | cons hle rest ih =>
    have := rest.le
    rw [List.filter_interval_append key hsorted hle (by omega), ih, List.flatMap_cons]

end Sorted

end Tiles

/-! ## Cells -/

/-- The intervals that come from `top` by cutting intervals with `Splits` into the pieces
`split`. -/
inductive Cell (top : NatInterval) (split : NatInterval → List NatInterval)
    (Splits : NatInterval → Prop) :
    NatInterval → Prop
  | top : Cell top split Splits top
  | piece {c d : NatInterval} (hc : Cell top split Splits c) (hsplits : Splits c)
      (hd : d ∈ split c) :
      Cell top split Splits d

namespace Cell

section

variable {top : NatInterval} {split : NatInterval → List NatInterval} {Splits : NatInterval → Prop}
  (htiles : ∀ c, Splits c → Tiles c.lo c.hi (split c)) {a b c d : NatInterval} {h k : ℕ}

include htiles

theorem piece_le (hsplits : Splits c) (hd : d ∈ split c) : d ≤ c :=
  (htiles c hsplits).le_of_mem hd

theorem le_top (hc : Cell top split Splits c) : c ≤ top := by
  induction hc with
  | top => exact le_rfl
  | piece _ hsplits hd ih => exact (piece_le htiles hsplits hd).trans ih

theorem nonempty (htop : top.lo ≤ top.hi) (hc : Cell top split Splits c) : c.lo ≤ c.hi := by
  cases hc with
  | top => exact htop
  | piece _ hsplits hd => exact (htiles _ hsplits).nonempty hd

end

open Classical in
/-- The cell around `h` after `k` cuts, or the last one that is not cut. -/
noncomputable def around (top : NatInterval) (split : NatInterval → List NatInterval)
    (Splits : NatInterval → Prop) (h : ℕ) : ℕ → NatInterval
  | 0 => top
  | k + 1 =>
    if Splits (around top split Splits h k) then
      ((split (around top split Splits h k)).find? (fun d => h ∈ d)).getD
        (around top split Splits h k)
    else around top split Splits h k

section

variable {top : NatInterval} {split : NatInterval → List NatInterval} {Splits : NatInterval → Prop}
  (htiles : ∀ c, Splits c → Tiles c.lo c.hi (split c)) {a b c d : NatInterval} {h k : ℕ}

include htiles

/-- The piece around `h` is the next cell around it. -/
theorem around_succ (hc : around top split Splits h k = c) (hsplits : Splits c) (hd : d ∈ split c)
    (hh : h ∈ d) : around top split Splits h (k + 1) = d := by
  rw [around, hc, if_pos hsplits]
  cases hfind : (split c).find? (fun d => decide (h ∈ d)) with
  | none => exact absurd hh (by simpa using List.find?_eq_none.mp hfind d hd)
  | some e =>
    have he : h ∈ e := by simpa using List.find?_some hfind
    exact (htiles c hsplits).eq_of_mem (List.mem_of_find?_eq_some hfind) hd he hh

theorem exists_around (hc : Cell top split Splits c) (hh : h ∈ c) :
    ∃ k, around top split Splits h k = c := by
  induction hc with
  | top => exact ⟨0, rfl⟩
  | piece _ hsplits hd ih =>
    obtain ⟨k, hk⟩ := ih (NatInterval.mem_of_le (piece_le htiles hsplits hd) hh)
    exact ⟨k + 1, around_succ htiles hk hsplits hd hh⟩

theorem around_succ_le :
    around top split Splits h (k + 1) ≤ around top split Splits h k := by
  rw [around]
  split
  · next hsplits =>
    cases hfind : (split (around top split Splits h k)).find? (fun d => decide (h ∈ d)) with
    | none => exact le_rfl
    | some e => exact piece_le htiles hsplits (List.mem_of_find?_eq_some hfind)
  · exact le_rfl

theorem around_le {j : ℕ} (hjk : j ≤ k) :
    around top split Splits h k ≤ around top split Splits h j := by
  induction hjk with
  | refl => exact le_rfl
  | step _ ih => exact (around_succ_le htiles).trans ih

/-- Two cells that share a point are nested. -/
theorem le_or_le (ha : Cell top split Splits a) (hb : Cell top split Splits b) (hha : h ∈ a)
    (hhb : h ∈ b) : a ≤ b ∨ b ≤ a := by
  obtain ⟨i, rfl⟩ := exists_around htiles ha hha
  obtain ⟨j, rfl⟩ := exists_around htiles hb hhb
  rcases le_total i j with hij | hij
  · exact .inr (around_le htiles hij)
  · exact .inl (around_le htiles hij)

/-- A cell properly inside another lies inside each of its pieces that it meets. -/
theorem le_piece (ha : Cell top split Splits a) (hb : Cell top split Splits b) (hsplits : Splits a)
    (hba : b < a) (hd : d ∈ split a) (hhd : h ∈ d) (hhb : h ∈ b) : b ≤ d := by
  obtain ⟨i, hi⟩ := exists_around htiles ha (NatInterval.mem_of_le hba.le hhb)
  obtain ⟨j, rfl⟩ := exists_around htiles hb hhb
  have hij : i + 1 ≤ j := by
    by_contra hlt
    have hab : around top split Splits h i ≤ around top split Splits h j :=
      around_le htiles (Nat.lt_succ_iff.mp (not_le.mp hlt))
    rw [hi] at hab
    exact absurd hba (not_lt_of_ge hab)
  rw [← around_succ htiles hi hsplits hd hhd]
  exact around_le htiles hij

end

end Cell
