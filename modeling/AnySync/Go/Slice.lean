import Mathlib.Data.List.Range
import Mathlib.Logic.Function.Basic

/-!
# Slices with their arrays

For Go code in which slices share an array. A heap has numbered arrays, and a slice is a part of one
of them. `append` writes into the array of the slice as long as its capacity lasts.
-/

namespace Go

open Function (update update_of_ne update_self)
open List (range getElem?_eq_none append_assoc replicate range_succ map_take)

/-- A slice: its array, where it starts there, its length and its capacity. -/
structure Slice where
  arr : ℕ
  off : ℕ
  len : ℕ
  cap : ℕ
deriving DecidableEq, Repr

/-- `s[:k]`. -/
def Slice.upTo (s : Slice) (k : ℕ) : Slice := { s with len := k }

/-- `s[i:]`. -/
def Slice.dropFirst (s : Slice) (i : ℕ) : Slice :=
  { s with off := s.off + i, len := s.len - i, cap := s.cap - i }

/-- Arrays of elements. Those with a number from `arrays` on are not in use. -/
structure Heap (α : Type) where
  cells : ℕ → ℕ → α
  arrays : ℕ

/-- No element belongs to both slices, as far as their capacities reach. -/
def Slice.Apart (s t : Slice) : Prop :=
  s.arr = t.arr → ∀ i, s.off ≤ i → i < s.off + s.cap → t.off ≤ i → t.off + t.cap ≤ i

theorem Slice.Apart.symm {s t : Slice} (hst : s.Apart t) : t.Apart s := by
  intro harr i hti hti' hsi
  by_contra hlt
  exact absurd (hst harr.symm i hsi (by omega) hti) (by omega)

namespace Heap

variable {α : Type} {h h' h'' : Heap α} {s s' s'' t : Slice}
variable {i arr : ℕ} {l : List α}

/-- The elements of a slice. -/
def read (h : Heap α) (s : Slice) : List α :=
  (range s.len).map fun i => h.cells s.arr (s.off + i)

/-- An assignment to an element of an array. -/
def write (h : Heap α) (arr i : ℕ) (x : α) : Heap α :=
  { h with cells := update h.cells arr (update (h.cells arr) i x) }

/-- A new array with these elements, and a slice of it with some more capacity. -/
def alloc (h : Heap α) (l : List α) (x : α) (room : ℕ) : Heap α × Slice :=
  ({ cells := update h.cells h.arrays fun i => l.getD i x, arrays := h.arrays + 1 },
    { arr := h.arrays, off := 0, len := l.length, cap := l.length + room })

/-- `append(s, x)`. A new array gets the capacity that the runtime chooses. -/
def append (room : ℕ → ℕ) (h : Heap α) (s : Slice) (x : α) : Heap α × Slice :=
  if s.len < s.cap then (h.write s.arr (s.off + s.len) x, { s with len := s.len + 1 })
  else h.alloc (h.read s ++ [x]) x (room s.len)

/-- The slice is one of this heap. -/
structure Valid (h : Heap α) (s : Slice) : Prop where
  arr : s.arr < h.arrays
  len : s.len ≤ s.cap

@[simp]
theorem length_read : (h.read s).length = s.len := by simp [read]

theorem getElem?_read (hi : i < s.len) : (h.read s)[i]? = some (h.cells s.arr (s.off + i)) := by
  simp [read, hi]

/-- Slices are read alike where their cells are the same. -/
theorem read_congr (hcells : ∀ i < s.len, h'.cells s.arr (s.off + i) = h.cells s.arr (s.off + i)) :
    h'.read s = h.read s := by
  apply List.map_congr_left
  intro i hi
  exact hcells i (List.mem_range.mp hi)

theorem cells_write_of_ne {arr' i' : ℕ} {x : α} (hne : arr' = arr → i' ≠ i) :
    (h.write arr i x).cells arr' i' = h.cells arr' i' := by
  by_cases harr : arr' = arr
  · subst harr
    simp [write, update_of_ne (hne rfl)]
  · simp [write, update_of_ne harr]

/-- The slice `s` goes on to `s'` and leaves alone what is apart from it. -/
structure Extends (h : Heap α) (s : Slice) (h' : Heap α) (s' : Slice) : Prop where
  valid : h'.Valid s'
  arrays : h.arrays ≤ h'.arrays
  read_eq : ∀ t, h.Valid t → s.Apart t → h'.read t = h.read t
  apart : ∀ t, h.Valid t → s.Apart t → s'.Apart t

theorem Extends.refl (hs : h.Valid s) : Extends h s h s where
  valid := hs
  arrays := le_rfl
  read_eq _ _ _ := rfl
  apart _ _ ht := ht

theorem Valid.mono (ht : h.Valid t) (hle : h.arrays ≤ h'.arrays) : h'.Valid t :=
  ⟨ht.arr.trans_le hle, ht.len⟩

theorem Extends.trans (h₁ : Extends h s h' s') (h₂ : Extends h' s' h'' s'') :
    Extends h s h'' s'' where
  valid := h₂.valid
  arrays := h₁.arrays.trans h₂.arrays
  read_eq t ht hapart := by
    rw [h₂.read_eq t (ht.mono h₁.arrays) (h₁.apart t ht hapart), h₁.read_eq t ht hapart]
  apart t ht hapart := h₂.apart t (ht.mono h₁.arrays) (h₁.apart t ht hapart)

/-- A new array is apart from every slice in use. -/
theorem extends_alloc (h : Heap α) (s : Slice) (l : List α) (x : α) (room : ℕ) :
    Extends h s (h.alloc l x room).1 (h.alloc l x room).2 ∧
      (h.alloc l x room).1.read (h.alloc l x room).2 = l := by
  refine ⟨⟨⟨Nat.lt_succ_self _, Nat.le_add_right _ _⟩, Nat.le_succ _, ?_, ?_⟩, ?_⟩
  · intro t ht _
    apply read_congr
    intro i _
    simp [alloc, update_of_ne (ne_of_lt ht.arr)]
  · intro t ht _ harr
    exact absurd harr.symm (ne_of_lt ht.arr)
  · apply List.ext_getElem?
    intro i
    by_cases hi : i < l.length
    · rw [getElem?_read hi]
      simp [alloc, hi]
    · rw [getElem?_eq_none (by simpa [alloc] using hi), getElem?_eq_none (by omega)]

/-- Go's `append`, in place or moved, reads as the old slice with one value more. -/
theorem extends_append (room : ℕ → ℕ) (hs : h.Valid s) (x : α) :
    Extends h s (h.append room s x).1 (h.append room s x).2 ∧
      (h.append room s x).1.read (h.append room s x).2 = h.read s ++ [x] := by
  rw [append]
  split
  · next hroom =>
    refine ⟨⟨⟨hs.arr, hroom⟩, le_rfl, ?_, fun t _ hapart => hapart⟩, ?_⟩
    · -- the element that is written belongs to `s`
      intro t ht hapart
      apply read_congr
      intro i hi
      apply cells_write_of_ne
      rintro harr heq
      have hout := hapart harr.symm (s.off + s.len) (Nat.le_add_right _ _) (by omega) (by omega)
      have hle := ht.len
      omega
    · have hread : (h.write s.arr (s.off + s.len) x).read s = h.read s := by
        apply read_congr
        intro i hi
        apply cells_write_of_ne
        intro _
        omega
      rw [← hread]
      simp [read, range_succ, write]
  · exact extends_alloc h s (h.read s ++ [x]) x (room s.len)

/-! ## Growing and filling -/

/-- `slices.Grow(s, n)`: room for `n` more elements. -/
def grow (room : ℕ → ℕ) (zero : α) (h : Heap α) (s : Slice) (n : ℕ) : Heap α × Slice :=
  if n ≤ s.cap - s.len then (h, s)
  else
    let copied := h.read (s.upTo s.cap) ++ replicate (n - (s.cap - s.len)) zero
    let (h', s') := h.alloc copied zero (room n)
    (h', s'.upTo s.len)

/-- The elements are written into the array from the start of the slice on. -/
def fill (h : Heap α) (s : Slice) (l : List α) : Heap α :=
  { h with
    cells := update h.cells s.arr fun i =>
      if s.off ≤ i then l.getD (i - s.off) (h.cells s.arr i) else h.cells s.arr i }

/-- Filling a slice leaves the cells outside it as they were. -/
theorem cells_fill_of_out (hout : arr = s.arr → i < s.off ∨ s.off + l.length ≤ i) :
    (h.fill s l).cells arr i = h.cells arr i := by
  by_cases harr : arr = s.arr
  · subst harr
    simp only [fill, update_self]
    split
    · have hlen := hout rfl
      rw [List.getD_eq_getElem?_getD, getElem?_eq_none (by omega), Option.getD_none]
    · rfl
  · simp [fill, update_of_ne harr]

/-- A part of a slice is apart from what the slice is apart from. -/
theorem extends_upTo (hs : h.Valid s) {k : ℕ} (hk : k ≤ s.cap) : Extends h s h (s.upTo k) where
  valid := ⟨hs.arr, hk⟩
  arrays := le_rfl
  read_eq _ _ _ := rfl
  apart _ _ ht := ht

/-- `slices.Grow` keeps what is read and makes the room asked for. -/
theorem extends_grow (room : ℕ → ℕ) (zero : α) (hs : h.Valid s) (n : ℕ) :
    Extends h s (h.grow room zero s n).1 (h.grow room zero s n).2 ∧
      (h.grow room zero s n).1.read (h.grow room zero s n).2 = h.read s ∧
      (h.grow room zero s n).2.len = s.len ∧
      s.len + n ≤ (h.grow room zero s n).2.cap := by
  have hlen := hs.len
  rw [grow]
  split
  · exact ⟨.refl hs, rfl, rfl, by dsimp only; omega⟩
  · obtain ⟨hext, hread⟩ := extends_alloc h s
      (h.read (s.upTo s.cap) ++ replicate (n - (s.cap - s.len)) zero) zero (room n)
    set r := h.alloc (h.read (s.upTo s.cap) ++ replicate (n - (s.cap - s.len)) zero) zero
      (room n) with hr
    have hcap : s.len + n ≤ r.2.cap := by
      rw [hr]
      simp only [alloc, List.length_append, length_read, List.length_replicate, Slice.upTo]
      omega
    refine ⟨hext.trans (extends_upTo hext.valid (by omega)), ?_, rfl, hcap⟩
    -- the first elements of the copy
    have htake : r.1.read (r.2.upTo s.len) = (r.1.read r.2).take s.len := by
      have hle : s.len ≤ r.2.len := by
        rw [hr]
        simp only [alloc, List.length_append, length_read, Slice.upTo]
        omega
      simp only [read, Slice.upTo, ← map_take, List.take_range, min_eq_left hle]
    have htake' : h.read s = (h.read (s.upTo s.cap)).take s.len := by
      simp only [read, Slice.upTo, ← map_take, List.take_range, min_eq_left hlen]
    rw [htake, hread, htake', List.take_append_of_le_length (by simpa [Slice.upTo] using hlen)]

/-- Elements that are written behind those of a slice. -/
theorem extends_fill (hs : h.Valid s) (hroom : s.len + l.length ≤ s.cap) :
    Extends h s (h.fill ((s.upTo (s.len + l.length)).dropFirst s.len) l)
        (s.upTo (s.len + l.length)) ∧
      (h.fill ((s.upTo (s.len + l.length)).dropFirst s.len) l).read (s.upTo (s.len + l.length)) =
        h.read s ++ l := by
  refine ⟨⟨⟨hs.arr, hroom⟩, le_rfl, ?_, fun t _ hapart => hapart⟩, ?_⟩
  · -- what is written belongs to `s`
    intro t ht hapart
    apply read_congr
    intro i hi
    apply cells_fill_of_out
    intro harr
    by_contra hin
    have hout := hapart harr.symm (t.off + i)
    have hle := ht.len
    simp only [Slice.upTo, Slice.dropFirst] at hin
    omega
  · apply List.ext_getElem?
    intro i
    by_cases hi : i < s.len + l.length
    · rw [getElem?_read hi]
      by_cases hold : i < s.len
      · rw [List.getElem?_append_left (by simpa using hold), getElem?_read hold,
          cells_fill_of_out (fun _ => .inl (by simp [Slice.upTo, Slice.dropFirst]; omega))]
        rfl
      · rw [List.getElem?_append_right (by simpa using hold), length_read]
        have hle : s.off + s.len ≤ s.off + i := by omega
        have hsub : s.off + i - (s.off + s.len) = i - s.len := by omega
        simp only [fill, Slice.upTo, Slice.dropFirst, update_self, if_pos hle, hsub]
        rw [List.getD_eq_getElem?_getD, List.getElem?_eq_getElem (by omega), Option.getD_some]
    · rw [getElem?_eq_none (by simpa [Slice.upTo] using hi), getElem?_eq_none (by simpa using hi)]

theorem extends_fill_all (hs : h.Valid s) (hl : l.length = s.len) :
    Extends h s (h.fill s l) s ∧ (h.fill s l).read s = l := by
  have hempty := extends_upTo hs (Nat.zero_le s.cap)
  have hself : (s.upTo 0).upTo ((s.upTo 0).len + l.length) = s := by simp [Slice.upTo, hl]
  have hdrop : s.dropFirst (s.upTo 0).len = s := by simp [Slice.dropFirst, Slice.upTo]
  have hroom : (s.upTo 0).len + l.length ≤ (s.upTo 0).cap := by simpa [Slice.upTo, hl] using hs.len
  obtain ⟨hfill, hread⟩ := extends_fill hempty.valid hroom
  rw [hself, hdrop] at hfill hread
  exact ⟨hempty.trans hfill, hread⟩

/-! ## Loops -/

/-- The elements of `t` that are not dropped are appended to `s`, one by one; also those. What is
dropped may depend on the heap and the slice at that time. -/
def appendLoop (room : ℕ → ℕ) (drop : Heap α → Slice → α → Bool) (t : Slice) (h : Heap α)
    (s : Slice) : Heap α × Slice × List α :=
  (range t.len).foldl (fun (h, s, added) i =>
    let x := h.cells t.arr (t.off + i)
    if drop h s x then (h, s, added)
    else
      let (h, s) := h.append room s x
      (h, s, added ++ [x])) (h, s, [])

/-- A loop of appends reads as the old slice and the values it kept. -/
theorem extends_appendLoop (room : ℕ → ℕ) (drop : Heap α → Slice → α → Bool) (t : Slice)
    (hs : h.Valid s) :
    Extends h s (appendLoop room drop t h s).1 (appendLoop room drop t h s).2.1 ∧
      (appendLoop room drop t h s).1.read (appendLoop room drop t h s).2.1 =
        h.read s ++ (appendLoop room drop t h s).2.2 := by
  rw [appendLoop]
  induction t.len with
  | zero => exact ⟨.refl hs, (List.append_nil _).symm⟩
  | succ n ih =>
    rw [range_succ, List.foldl_concat]
    generalize (range n).foldl _ (h, s, []) = r at ih
    obtain ⟨h₁, s₁, added⟩ := r
    dsimp only at ih ⊢
    split
    · exact ih
    · obtain ⟨hext, hread⟩ := extends_append room ih.1.valid (h₁.cells t.arr (t.off + n))
      exact ⟨ih.1.trans hext, by rw [hread, ih.2, append_assoc]⟩

/-- A round of `filterLoop`. -/
def filterStep (room : ℕ → ℕ) (drop : Heap α → α → Bool) (s : Slice) :
    Heap α × Slice × List α → ℕ → Heap α × Slice × List α
  | (h, f, dropped), i =>
    let x := h.cells s.arr (s.off + i)
    if drop h x then (h, f, dropped ++ [x])
    else
      let (h, f) := h.append room f x
      (h, f, dropped)

/-- The elements of `s` that are not dropped are moved to its front; also those that are dropped. -/
def filterLoop (room : ℕ → ℕ) (drop : Heap α → α → Bool) (h : Heap α) (s : Slice) :
    Heap α × Slice × List α :=
  (range s.len).foldl (filterStep room drop s) (h, { s with len := 0 }, [])

/-- Every element is kept or dropped. -/
theorem extends_filterLoop (room : ℕ → ℕ) (drop : Heap α → α → Bool) (hs : h.Valid s) :
    Extends h s (filterLoop room drop h s).1 (filterLoop room drop h s).2.1 ∧
      ((filterLoop room drop h s).1.read (filterLoop room drop h s).2.1 ++
        (filterLoop room drop h s).2.2).Perm (h.read s) := by
  -- after `n` rounds the first `n` elements are sorted out and the others untouched
  have hloop : ∀ n ≤ s.len, ∃ h₁ f dropped,
      (range n).foldl (filterStep room drop s) (h, { s with len := 0 }, []) =
        (h₁, f, dropped) ∧
      Extends h s h₁ f ∧ (f.arr = s.arr ∧ f.off = s.off ∧ f.cap = s.cap ∧ f.len ≤ n) ∧
      (h₁.read f ++ dropped).Perm ((h.read s).take n) ∧
      ∀ j, n ≤ j → h₁.cells s.arr (s.off + j) = h.cells s.arr (s.off + j) := by
    intro n hn
    induction n with
    | zero =>
      refine ⟨h, { s with len := 0 }, [], rfl, ?_, ⟨rfl, rfl, rfl, le_rfl⟩, ?_, fun _ _ => rfl⟩
      · exact ⟨⟨hs.arr, Nat.zero_le _⟩, le_rfl, fun _ _ _ => rfl, fun _ _ hapart => hapart⟩
      · simp [read]
    | succ n ih =>
      obtain ⟨h₁, f, dropped, hfold, hext, ⟨harr, hoff, hcap, hlen⟩, hperm, hrest⟩ := ih (by omega)
      have hx : h₁.cells s.arr (s.off + n) = h.cells s.arr (s.off + n) := hrest n le_rfl
      have htake : (h.read s).take (n + 1) = (h.read s).take n ++ [h.cells s.arr (s.off + n)] := by
        rw [List.take_add_one, getElem?_read (by omega)]
        rfl
      rw [range_succ, List.foldl_concat, hfold, filterStep]
      dsimp only
      rw [hx, htake]
      split
      · refine ⟨h₁, f, _, rfl, hext, ⟨harr, hoff, hcap, by omega⟩, ?_,
          fun j hj => hrest j (by omega)⟩
        rw [← append_assoc]
        exact hperm.append_right _
      · obtain ⟨hext', hread⟩ := extends_append room hext.valid (h.cells s.arr (s.off + n))
        have hroom : f.len < f.cap := by
          have := hs.len
          omega
        have happend : h₁.append room f (h.cells s.arr (s.off + n)) =
            (h₁.write f.arr (f.off + f.len) (h.cells s.arr (s.off + n)),
              { f with len := f.len + 1 }) := if_pos hroom
        rw [happend] at hext' hread ⊢
        refine ⟨_, _, _, rfl, hext.trans hext', ⟨harr, hoff, hcap, by simpa using hlen⟩, ?_, ?_⟩
        · rw [hread, append_assoc]
          refine (List.perm_append_comm.append_left _).trans ?_
          rw [← append_assoc]
          exact hperm.append_right _
        · intro j hj
          rw [cells_write_of_ne (fun _ => by omega)]
          exact hrest j (by omega)
  obtain ⟨h₁, f, dropped, hfold, hext, -, hperm, -⟩ := hloop s.len le_rfl
  have htake : (h.read s).take s.len = h.read s := List.take_of_length_le (by simp)
  rw [filterLoop, hfold]
  exact ⟨hext, htake ▸ hperm⟩

end Heap

end Go
