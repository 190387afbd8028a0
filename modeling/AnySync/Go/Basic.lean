import Mathlib.Algebra.Group.Int.Defs
import Mathlib.Algebra.Group.Nat.Defs
import Mathlib.Algebra.GroupWithZero.Nat
import Mathlib.Data.List.AList
import Mathlib.Data.List.Sort
import Mathlib.Data.List.Lex
import Mathlib.Logic.Equiv.Basic

/-!
# Go strings and Go maps

The part of the Go language and its standard library that the models of this development
share, independent of any program.

* `Bytes`, `GoString`: byte slices whose capacity and aliasing are never observed, and strings.
  A Go string is an arbitrary byte sequence, ordered lexicographically by bytes.
* `sortStrings`: the result of `slices.Sort`; two slices are equal after sorting exactly when
  they are permutations of each other (`sortStrings_eq_iff_perm`).
* `GoMap`: a map, as Mathlib's association lists without duplicate keys.
* `RangeOrder`: the order in which the loops of one call range over maps. The language leaves
  it open, so a model takes it as an argument and its theorems hold for every value of it.
-/

/-- Bytes are ordered as numbers. -/
instance UInt8.linearOrder : LinearOrder UInt8 where
  le_refl := UInt8.le_refl
  le_trans _ _ _ := UInt8.le_trans
  le_antisymm _ _ := UInt8.le_antisymm
  le_total := UInt8.le_total
  lt_iff_le_not_ge a b := by
    rw [UInt8.lt_iff_toNat_lt, UInt8.le_iff_toNat_le, UInt8.le_iff_toNat_le]
    omega
  toDecidableLE := inferInstance
  toDecidableLT := inferInstance
  toDecidableEq := inferInstance

instance UInt8.lawfulBEq : LawfulBEq UInt8 := inferInstance

/-- A byte slice. Where the source tells `nil` from an empty slice, the model uses
`Option Bytes`. -/
abbrev Bytes := List UInt8

/-- A string: any sequence of bytes. -/
abbrev GoString := List UInt8

instance GoString.lawfulBEq : LawfulBEq GoString := inferInstance

/-- The `len` bytes of `n`, most significant first. -/
def bytesOfNat (len n : ℕ) : Bytes :=
  (List.range len).map fun i => UInt8.ofNat (n >>> (8 * (len - 1 - i)))

/-- 64 bytes, such as those of a signature, from their halves. -/
def bytesOfHalves (high low : ℕ) : Bytes := bytesOfNat 32 high ++ bytesOfNat 32 low

/-- The text as bytes. -/
def ascii (text : String) : GoString := text.toList.map fun c => UInt8.ofNat c.toNat

/-- A hexadecimal digit. -/
def hexDigit (n : UInt8) : UInt8 := if n < 10 then 48 + n else 87 + n

/-- `hex.EncodeToString`. -/
def hexEncode (b : Bytes) : GoString := b.flatMap fun x => [hexDigit (x / 16), hexDigit (x % 16)]

/-- `slices.Sort` on strings. -/
def sortStrings (l : List GoString) : List GoString :=
  l.insertionSort (· ≤ ·)

/-- Two slices of strings are equal after sorting iff they are permutations of each other. -/
theorem sortStrings_eq_iff_perm (l₁ l₂ : List GoString) :
    sortStrings l₁ = sortStrings l₂ ↔ l₁.Perm l₂ := by
  constructor
  · intro h
    calc l₁.Perm (sortStrings l₁) := (List.perm_insertionSort _ l₁).symm
      _ = sortStrings l₂ := h
      List.Perm _ l₂ := List.perm_insertionSort _ l₂
  · intro h
    apply List.Perm.eq_of_pairwise'
      (List.pairwise_insertionSort (· ≤ ·) l₁) (List.pairwise_insertionSort (· ≤ ·) l₂)
    exact (List.perm_insertionSort _ l₁).trans (h.trans (List.perm_insertionSort _ l₂).symm)

/-- A Go map with comparable keys. -/
abbrev GoMap (K V : Type) := AList (fun _ : K => V)

namespace GoMap

variable {K V : Type} [DecidableEq K]

/-- Inserting at `a` and looking up `b`, in one equation. -/
theorem lookup_insert_eq (m : GoMap K V) (a b : K) (v : V) :
    (m.insert a v).lookup b = if b = a then some v else m.lookup b := by
  by_cases h : b = a
  · subst h; simp
  · rw [if_neg h, AList.lookup_insert_ne h]

theorem entries_erase (m : GoMap K V) (a : K) : (m.erase a).entries = m.entries.kerase a := rfl

/-- Erasing `a` and looking up `b`, in one equation. -/
theorem lookup_erase_eq (m : GoMap K V) (a b : K) :
    (m.erase a).lookup b = if b = a then none else m.lookup b := by
  by_cases h : b = a
  · subst h; simp
  · rw [if_neg h, AList.lookup_erase_ne h]

/-- What a loop of deletions leaves at a key. -/
theorem lookup_foldl_erase (ids : List K) (m : GoMap K V) (a : K) :
    (ids.foldl (fun m id => m.erase id) m).lookup a = if a ∈ ids then none else m.lookup a := by
  induction ids generalizing m with
  | nil => rw [List.foldl_nil, if_neg List.not_mem_nil]
  | cons id ids ih =>
    rw [List.foldl_cons, ih, lookup_erase_eq]
    by_cases ha : a = id
    · simp [ha]
    · simp [ha]

theorem lookup_eq_some_iff {m : GoMap K V} {a : K} {v : V} :
    m.lookup a = some v ↔ ⟨a, v⟩ ∈ m.entries :=
  AList.mem_lookup_iff

/-- Assignment to a key that is present. The entries keep their order, so that an assignment
which changes nothing gives the same map. -/
def adjust (m : GoMap K V) (a : K) (f : V → V) : GoMap K V :=
  ⟨m.entries.map fun e => ⟨e.1, if e.1 = a then f e.2 else e.2⟩, by
    have hkeys : (m.entries.map fun e : (_ : K) × V =>
        (⟨e.1, if e.1 = a then f e.2 else e.2⟩ : (_ : K) × V)).keys = m.entries.keys := by
      simp [List.keys]
    rw [List.NodupKeys, hkeys]
    exact m.nodupKeys⟩

/-- An entry is determined by its key. -/
theorem eq_of_mem_entries {m : GoMap K V} {x y : (_ : K) × V} (hx : x ∈ m.entries)
    (hy : y ∈ m.entries) (h : x.1 = y.1) : x = y := by
  obtain ⟨a, v⟩ := x
  obtain ⟨b, w⟩ := y
  obtain rfl : a = b := h
  have hv := lookup_eq_some_iff.mpr hx
  rw [lookup_eq_some_iff.mpr hy] at hv
  rw [Option.some.inj hv]

theorem lookup_adjust_eq (m : GoMap K V) (a b : K) (f : V → V) :
    (m.adjust a f).lookup b = if b = a then (m.lookup b).map f else m.lookup b := by
  ext v
  rw [lookup_eq_some_iff, adjust]
  by_cases hb : b = a
  · rw [if_pos hb, Option.map_eq_some_iff]
    simp only [lookup_eq_some_iff]
    simp [hb]
  · rw [if_neg hb, lookup_eq_some_iff]
    simp [hb]

section Map

variable {W : Type} (e : Equiv.Perm K) (f : V → W)

/-- The map with its keys renamed by `e` and `f` applied to its values. -/
def mapKV (m : GoMap K V) : GoMap K W :=
  ⟨m.entries.map fun x => ⟨e x.1, f x.2⟩, by
    have hkeys : (m.entries.map fun x : (_ : K) × V =>
        (⟨e x.1, f x.2⟩ : (_ : K) × W)).keys = m.entries.keys.map e := by
      simp [List.keys, Function.comp_def]
    rw [List.NodupKeys, hkeys]
    exact m.nodupKeys.map e.injective⟩

omit [DecidableEq K] in
@[simp]
theorem mapKV_empty : mapKV e f (∅ : GoMap K V) = ∅ := rfl

omit [DecidableEq K] in
@[simp]
theorem entries_mapKV (m : GoMap K V) :
    (mapKV e f m).entries = m.entries.map fun x => ⟨e x.1, f x.2⟩ := rfl

/-- A renaming that leaves a map as it is leaves each entry as it is. -/
theorem fixed_of_mapKV_eq {e : Equiv.Perm K} {f : V → V} {m : GoMap K V} (h : mapKV e f m = m)
    {a : K} {v : V} (ha : m.lookup a = some v) : e a = a ∧ f v = v := by
  have hentries : m.entries.map (fun x => (⟨e x.1, f x.2⟩ : (_ : K) × V)) = m.entries.map id := by
    rw [← entries_mapKV, h, List.map_id]
  have hfix := List.map_inj_left.mp hentries ⟨a, v⟩ (lookup_eq_some_iff.mp ha)
  simpa using hfix

/-- A renaming that leaves each entry as it is leaves the map as it is. -/
theorem mapKV_eq_self {e : Equiv.Perm K} {f : V → V} {m : GoMap K V}
    (h : ∀ x ∈ m.entries, e x.1 = x.1 ∧ f x.2 = x.2) : mapKV e f m = m := by
  apply AList.ext
  rw [entries_mapKV, List.map_congr_left (g := id) fun x hx => ?_, List.map_id]
  rw [(h x hx).1, (h x hx).2]
  rfl

theorem lookup_mapKV (m : GoMap K V) (a : K) :
    (mapKV e f m).lookup (e a) = (m.lookup a).map f := by
  ext w
  rw [lookup_eq_some_iff, entries_mapKV, Option.map_eq_some_iff]
  simp [lookup_eq_some_iff]

theorem mapKV_insert (m : GoMap K V) (a : K) (v : V) :
    mapKV e f (m.insert a v) = (mapKV e f m).insert (e a) (f v) := by
  apply AList.ext
  simp [List.kerase, List.eraseP_map, Function.comp_def]

theorem mapKV_erase (m : GoMap K V) (a : K) :
    mapKV e f (m.erase a) = (mapKV e f m).erase (e a) := by
  apply AList.ext
  simp [entries_erase, List.kerase, List.eraseP_map, Function.comp_def]

theorem mapKV_adjust (m : GoMap K V) (a : K) (g : V → V) (g' : W → W)
    (hg : ∀ v, f (g v) = g' (f v)) :
    mapKV e f (m.adjust a g) = (mapKV e f m).adjust (e a) g' := by
  apply AList.ext
  simp [adjust, Function.comp_def, apply_ite f, hg]

end Map

end GoMap

/-- The order in which the loops of one call range over maps. The `step`-th loop run for the
`value`-th unit of work of the call, over a map with `n` entries, visits them in the order
`order value step n` of their positions. -/
structure RangeOrder where
  /-- The order chosen for one loop. -/
  order (value step n : ℕ) : List ℕ
  /-- A loop visits each entry exactly once. -/
  perm (value step n : ℕ) : (order value step n).Perm (List.range n)

namespace RangeOrder

/-- The order in which the entries are listed. -/
def listed : RangeOrder where
  order _ _ n := List.range n
  perm _ _ _ := List.Perm.refl _

/-- The reverse of the order in which the entries are listed. -/
def reversed : RangeOrder where
  order _ _ n := (List.range n).reverse
  perm _ _ _ := List.reverse_perm _

variable {α β : Type} (ord : RangeOrder) (value step : ℕ)

/-- The entries in the order in which the loop visits them. -/
def shuffle (entries : List α) : List α :=
  (ord.order value step entries.length).filterMap (entries[·]?)

theorem shuffle_map (f : α → β) (entries : List α) :
    ord.shuffle value step (entries.map f) = (ord.shuffle value step entries).map f := by
  simp only [shuffle, List.length_map, List.getElem?_map, List.map_filterMap]

@[simp]
theorem shuffle_listed (entries : List α) : listed.shuffle value step entries = entries := by
  rw [shuffle, listed]
  induction entries with
  | nil => rfl
  | cons a l ih => simpa [List.range_succ_eq_map, List.filterMap_map] using ih

/-- A loop visits the entries and nothing else. -/
theorem shuffle_perm (entries : List α) : (ord.shuffle value step entries).Perm entries := by
  have hperm := (ord.perm value step entries.length).filterMap (entries[·]?)
  exact hperm.trans (.of_eq (shuffle_listed value step entries))

/-- If at most one entry fits, a loop that stops at the first entry that fits finds the same in
every order. -/
theorem find?_shuffle {p : α → Bool} {entries : List α}
    (h : ∀ a ∈ entries, ∀ b ∈ entries, p a = true → p b = true → a = b) :
    (ord.shuffle value step entries).find? p = entries.find? p := by
  have hmem := fun a => (ord.shuffle_perm value step entries).mem_iff (a := a)
  cases hfind : (ord.shuffle value step entries).find? p with
  | none =>
    rw [eq_comm, List.find?_eq_none]
    exact fun a ha => List.find?_eq_none.mp hfind a ((hmem a).mpr ha)
  | some a =>
    have ha := (hmem a).mp (List.mem_of_find?_eq_some hfind)
    cases hfind' : entries.find? p with
    | none => exact absurd (List.find?_some hfind) (List.find?_eq_none.mp hfind' a ha)
    | some b =>
      rw [h a ha b (List.mem_of_find?_eq_some hfind') (List.find?_some hfind)
        (List.find?_some hfind')]

end RangeOrder
