import AnySync.Ldiff.Tree
import AnySync.Ldiff.Elements
import Mathlib.Order.Interval.Finset.Nat

/-!
# Divisions

What `makeBottomRanges` does to the heap, the map and the dirty set when it divides a wide range:
it makes the tree below the range in which exactly the ranges with too many elements are divided.

`makeBottomRanges_spec` is the whole call, by recursion on its fuel.
-/

namespace Ldiff

open List (mem_cons_self mem_singleton_self mem_cons_of_mem)
open HashedElement (hash)

variable {sl : List HashedElement}

/-- No range with fewer hashes than `divideFactor` has more than `compareThreshold` elements. -/
def Roomy (divideFactor compareThreshold : ℕ) (sl : List HashedElement) : Prop :=
  ∀ d, IsRange divideFactor d → compareThreshold < count sl d → Wide divideFactor d

/-- If no two elements share a hash, a range has at most as many elements as hashes. -/
theorem count_le_width (hnodup : (sl.map hash).Nodup) (c : RangeTuple) :
    count sl c ≤ c.hi + 1 - c.lo := by
  set hits := (sl.filter fun x => x.hash ∈ c).map hash with hhits
  have hsub : hits.Nodup := hnodup.sublist (List.filter_sublist.map _)
  have hicc : hits.toFinset ⊆ Finset.Icc c.lo c.hi := by
    intro n hn
    simp only [hhits, List.mem_toFinset, List.mem_map, List.mem_filter, decide_eq_true_eq] at hn
    obtain ⟨x, ⟨-, hx⟩, rfl⟩ := hn
    exact Finset.mem_Icc.mpr hx
  calc count sl c = hits.length := by rw [count, List.countP_eq_length_filter, List.length_map]
    _ = hits.toFinset.card := (List.toFinset_card_of_nodup hsub).symm
    _ ≤ (Finset.Icc c.lo c.hi).card := Finset.card_le_card hicc
    _ = c.hi + 1 - c.lo := Nat.card_Icc _ _

/-- Without collisions of hashes, narrow ranges are not too full. -/
theorem roomy_of_nodup {df th : ℕ} (hdf : 2 ≤ df) (hle : df ≤ th + 1)
    (hnodup : (sl.map hash).Nodup) : Roomy df th sl := by
  intro d hd hlt
  have hwidth := count_le_width hnodup d
  rw [hd.wide_iff hdf]
  omega

namespace HashRanges

/-- A range that is reached from `c` is dirty. -/
def DirtyBelow (h : HashRanges) (c : RangeTuple) : Prop :=
  ∃ d p, h.Reach c d ∧ h.ranges.lookup d = some p ∧ p ∈ h.dirty

/-- Only the map under the tuples `P`, new ranges and the dirty set changed, and of the old ranges
only `p` may have stopped to be dirty. -/
structure Frame (h h' : HashRanges) (p : ℕ) (P : RangeTuple → Prop) : Prop where
  topRange : h'.topRange = h.topRange
  divideFactor : h'.divideFactor = h.divideFactor
  compareThreshold : h'.compareThreshold = h.compareThreshold
  heap : ∃ new, h'.heap = h.heap ++ new
  outside : ∀ x, ¬ P x → h'.ranges.lookup x = h.ranges.lookup x
  dirty : ∀ q < h.heap.length, q ≠ p → (q ∈ h'.dirty ↔ q ∈ h.dirty)
  dirty_self : p ∈ h'.dirty → p ∈ h.dirty

/-- A range that `makeRange` made, divided iff it has too many elements, from the position `base`
of the heap on. -/
structure Grown (H : Hashing) (sl : List HashedElement) (h : HashRanges) (base : ℕ)
    (x : RangeTuple) (q : ℕ) (rng : HashRange) : Prop where
  found : h.At x q rng
  base_le : base ≤ q
  elements : rng.elements = (calcElementsHash H sl x).2
  hash : rng.hash = (calcElementsHash H sl x).1
  isDivided : rng.isDivided = true ↔ (h.compareThreshold : ℤ) < rng.elements
  wide : rng.isDivided = true → Wide h.divideFactor x
  parts : rng.isDivided = true → ∀ y ∈ genTupleRanges x h.divideFactor,
    ∃ r sub, h.At y r sub ∧ sub.parent = some q
  dirty : rng.isDivided = true → h.DirtyBelow x

/-- All ranges reached from `d` are new. -/
def Subtree (H : Hashing) (sl : List HashedElement) (h : HashRanges) (base : ℕ) (d : RangeTuple) :
    Prop :=
  ∀ x, h.Reach d x → ∃ q rng, Grown H sl h base x q rng

section Frame

variable {H : Hashing} {sl : List HashedElement} {h h' h'' : HashRanges} {p q base : ℕ}
  {P Q : RangeTuple → Prop} {c d x : RangeTuple} {rng : HashRange}

section

variable (hf : Frame h h' p P)

include hf

theorem Frame.length_le : h.heap.length ≤ h'.heap.length := by
  obtain ⟨new, hnew⟩ := hf.heap
  rw [hnew, List.length_append]
  omega

/-- Nodes that were there stay. -/
theorem Frame.heap_eq (hheap : h.heap[q]? = some rng) : h'.heap[q]? = some rng := by
  obtain ⟨new, hnew⟩ := hf.heap
  obtain ⟨hlt, _⟩ := List.getElem?_eq_some_iff.mp hheap
  rw [hnew, List.getElem?_append_left hlt, hheap]

/-- One division after another. -/
theorem Frame.trans (hf' : Frame h' h'' p Q) :
    Frame h h'' p fun x => P x ∨ Q x where
  topRange := hf'.topRange.trans hf.topRange
  divideFactor := hf'.divideFactor.trans hf.divideFactor
  compareThreshold := hf'.compareThreshold.trans hf.compareThreshold
  heap := by
    obtain ⟨new, hnew⟩ := hf.heap
    obtain ⟨new', hnew'⟩ := hf'.heap
    exact ⟨new ++ new', by rw [hnew', hnew, List.append_assoc]⟩
  outside x hx := by
    rw [not_or] at hx
    rw [hf'.outside x hx.2, hf.outside x hx.1]
  dirty q hq hne := by
    rw [hf'.dirty q (hq.trans_le hf.length_le) hne, hf.dirty q hq hne]
  dirty_self hp := hf.dirty_self (hf'.dirty_self hp)

theorem Frame.mono (hPQ : ∀ x, P x → Q x) : Frame h h' p Q :=
  { hf with outside := fun x hx => hf.outside x fun hP => hx (hPQ x hP) }

/-- Ranges that are not made are found as before. -/
theorem Frame.at (hx : ¬ P x) (hat : h.At x q rng) : h'.At x q rng :=
  ⟨(hf.outside x hx).trans hat.lookup, hf.heap_eq hat.heap⟩

end

theorem Grown.mono {base' : ℕ} (hg : Grown H sl h base x q rng) (hle : base' ≤ base) :
    Grown H sl h base' x q rng :=
  { hg with base_le := hle.trans hg.base_le }

/-- The ranges of a subtree lie in its root. -/
theorem Subtree.le (hs : Subtree H sl h base d) (hdf : 2 ≤ h.divideFactor) (hd : d.lo ≤ d.hi)
    (hx : h.Reach d x) : x ≤ d ∧ x.lo ≤ x.hi := by
  induction hx with
  | refl => exact ⟨le_rfl, hd⟩
  | step hy hat hdivided hmem ih =>
    obtain ⟨q, rng, hg⟩ := hs _ hy
    obtain ⟨rfl, rfl⟩ := hat.unique hg.found
    have ht := tiles_genTupleRanges hdf (hg.wide hdivided)
    exact ⟨(ht.le_of_mem hmem).trans ih.1, ht.nonempty hmem⟩

/-- A change elsewhere leaves a subtree alone. -/
theorem Subtree.frame (hs : Subtree H sl h base d) (hdf : 2 ≤ h.divideFactor) (hd : d.lo ≤ d.hi)
    (hf : Frame h h' p P) (hP : ∀ x ≤ d, x.lo ≤ x.hi → ¬ P x) (hbase : p < base) :
    Subtree H sl h' base d ∧ (∀ x, h.Reach d x → h'.Reach d x) ∧
      (h.DirtyBelow d → h'.DirtyBelow d) := by
  -- what is found under a tuple of the subtree is still found
  have hat : ∀ {y r sub}, h.Reach d y → h.At y r sub → h'.At y r sub := fun hy hat =>
    hf.at (hP _ (hs.le hdf hd hy).1 (hs.le hdf hd hy).2) hat
  have hto : ∀ {x y}, h.Reach d x → h.Reach x y → h'.Reach x y := by
    intro x y hx hy
    induction hy with
    | refl => exact .refl
    | step hz hat' hdivided hmem ih =>
      exact .step ih (hat (hx.trans hz) hat') hdivided (hf.divideFactor.symm ▸ hmem)
  have hfrom : ∀ {x}, h'.Reach d x → h.Reach d x := by
    intro x hx
    induction hx with
    | refl => exact .refl
    | step _ hat' hdivided hmem ih =>
      obtain ⟨r, sub, hg⟩ := hs _ ih
      obtain ⟨rfl, rfl⟩ := hat'.unique (hat ih hg.found)
      exact .step ih hg.found hdivided (hf.divideFactor ▸ hmem)
  have hdirty : ∀ {x}, h.Reach d x → h.DirtyBelow x → h'.DirtyBelow x := by
    rintro x hx ⟨y, r, hy, hlookup, hdirty⟩
    obtain ⟨r', sub, hg⟩ := hs y (hx.trans hy)
    obtain rfl := Option.some.inj (hlookup.symm.trans hg.found.lookup)
    obtain ⟨hlt, _⟩ := List.getElem?_eq_some_iff.mp hg.found.heap
    have hle := hg.base_le
    have hne : r ≠ p := by omega
    exact ⟨y, r, hto hx hy, (hat (hx.trans hy) hg.found).lookup, (hf.dirty r hlt hne).mpr hdirty⟩
  refine ⟨fun x hx => ?_, fun x hx => hto .refl hx, hdirty .refl⟩
  have hx' := hfrom hx
  obtain ⟨q, rng, hg⟩ := hs x hx'
  refine ⟨q, rng, hat hx' hg.found, hg.base_le, hg.elements, hg.hash, ?_, ?_, ?_,
    fun hdivided => hdirty hx' (hg.dirty hdivided)⟩
  · rw [hf.compareThreshold]
    exact hg.isDivided
  · rw [hf.divideFactor]
    exact hg.wide
  · intro hdivided y hy
    rw [hf.divideFactor] at hy
    obtain ⟨r, sub, hsub, hparent⟩ := hg.parts hdivided y hy
    exact ⟨r, sub, hat (hx'.step hg.found hdivided hy) hsub, hparent⟩

end Frame

/-! ## One range after the other -/

/-- `h'` has new ranges with the parent `p` under the tuples `l`, and what is below them. -/
structure Divides (H : Hashing) (sl : List HashedElement) (h h' : HashRanges) (p : ℕ)
    (l : List RangeTuple) : Prop where
  frame : Frame h h' p fun x => ∃ d ∈ l, x ≤ d
  keys : h.Keyed → h'.Keyed
  parent_lt : h.ParentFirst → h'.ParentFirst
  subtree : ∀ d ∈ l, Subtree H sl h' h.heap.length d
  parts : ∀ d ∈ l, ∃ q sub, h'.At d q sub ∧ sub.parent = some p
  /-- The new dirty ranges are among them. -/
  new_dirty : ∀ q ∈ h'.dirty,
    q ∈ h.dirty ∨ ∃ d ∈ l, ∃ x, h'.Reach d x ∧ h'.ranges.lookup x = some q
  /-- If `p` was dirty, then it is still, or a range below it is. -/
  self : p ∈ h.dirty → p ∈ h'.dirty ∨ ∃ d ∈ l, h'.DirtyBelow d

section Divides

variable {H : Hashing} {sl : List HashedElement} {h h' h'' : HashRanges} {p : ℕ}
  {c d : RangeTuple} {l : List RangeTuple} {rng : HashRange}
variable {x : RangeTuple} {fuel : ℕ}

/-- Disjoint ranges are made one after the other. -/
theorem Divides.cons (hfirst : Divides H sl h h' p [d]) (hrest : Divides H sl h' h'' p l)
    (hdf : 2 ≤ h.divideFactor) (hp : p < h.heap.length) (hd : d.lo ≤ d.hi)
    (hdisjoint : ∀ x ≤ d, x.lo ≤ x.hi → ¬ ∃ y ∈ l, x ≤ y) : Divides H sl h h'' p (d :: l) := by
  have hself := mem_singleton_self d
  have hdf' : 2 ≤ h'.divideFactor := hfirst.frame.divideFactor.symm ▸ hdf
  have hsubtree := hfirst.subtree d hself
  -- the ranges below the other parts are disjoint from those below `d`
  obtain ⟨hsubtree', hreach, hdirty⟩ :=
    hsubtree.frame hdf' hd hrest.frame hdisjoint hp
  have hlen := hfirst.frame.length_le
  have hfirst_or : ∀ {P : RangeTuple → Prop}, (∃ e ∈ [d], P e) → P d := by
    rintro P ⟨e, he, hPe⟩
    rwa [← List.mem_singleton.mp he]
  constructor
  · refine (hfirst.frame.trans hrest.frame).mono ?_
    rintro x (⟨e, he, hxe⟩ | ⟨e, he, hxe⟩)
    · exact ⟨d, mem_cons_self, List.mem_singleton.mp he ▸ hxe⟩
    · exact ⟨e, mem_cons_of_mem _ he, hxe⟩
  · exact fun hk => hrest.keys (hfirst.keys hk)
  · exact fun hk => hrest.parent_lt (hfirst.parent_lt hk)
  · intro e he
    rcases List.mem_cons.mp he with rfl | he
    · exact hsubtree'
    · intro x hx
      obtain ⟨q, rng, hg⟩ := hrest.subtree e he x hx
      exact ⟨q, rng, hg.mono hlen⟩
  · intro e he
    rcases List.mem_cons.mp he with rfl | he
    · obtain ⟨q, sub, hat, hparent⟩ := hfirst.parts e hself
      exact ⟨q, sub, hrest.frame.at (hdisjoint e le_rfl hd) hat, hparent⟩
    · exact hrest.parts e he
  · intro q hq
    rcases hrest.new_dirty q hq with hq | ⟨e, he, hx⟩
    · rcases hfirst.new_dirty q hq with hq | hx
      · exact .inl hq
      · obtain ⟨x, hx, hlookup⟩ := hfirst_or hx
        obtain ⟨hxd, hne⟩ := hsubtree.le hdf' hd hx
        refine .inr ⟨d, mem_cons_self, x, hreach x hx, ?_⟩
        rw [hrest.frame.outside x (hdisjoint x hxd hne), hlookup]
    · exact .inr ⟨e, mem_cons_of_mem _ he, hx⟩
  · intro hdirtyp
    rcases hfirst.self hdirtyp with hdirtyp | hbelow
    · rcases hrest.self hdirtyp with hdirtyp | ⟨e, he, hbelow⟩
      · exact .inl hdirtyp
      · exact .inr ⟨e, mem_cons_of_mem _ he, hbelow⟩
    · exact .inr ⟨d, mem_cons_self, hdirty (hfirst_or hbelow)⟩

/-- The map after a range is made. -/
theorem lookup_alloc : (h.alloc rng).ranges.lookup x =
    if x = rng.tuple then some h.heap.length else h.ranges.lookup x := by
  rw [alloc, GoMap.lookup_insert_eq]

theorem lookup_alloc_cases {q : ℕ} (hlookup : (h.alloc rng).ranges.lookup x = some q) :
    x = rng.tuple ∨ h.ranges.lookup x = some q := by
  rw [lookup_alloc] at hlookup
  split at hlookup
  · exact .inl ‹_›
  · exact .inr hlookup

theorem Keyed.alloc (hk : h.Keyed) : (h.alloc rng).Keyed := by
  intro c p hlookup
  rw [lookup_alloc] at hlookup
  split at hlookup
  · next hc =>
    obtain rfl := Option.some.inj hlookup
    exact ⟨rng, List.getElem?_concat_length, hc.symm⟩
  · obtain ⟨rng', hrng', htuple⟩ := hk c p hlookup
    obtain ⟨hlt, _⟩ := List.getElem?_eq_some_iff.mp hrng'
    exact ⟨rng', (List.getElem?_append_left hlt).trans hrng', htuple⟩

theorem ParentFirst.alloc (hpf : h.ParentFirst) (hparent : rng.parent = some p)
    (hp : p < h.heap.length) : (h.alloc rng).ParentFirst := by
  intro q rng' r hheap hr
  rw [HashRanges.alloc, List.getElem?_append] at hheap
  split at hheap
  · exact hpf q rng' r hheap hr
  · next hge =>
    rw [List.getElem?_singleton] at hheap
    split at hheap
    · obtain rfl := Option.some.inj hheap
      obtain rfl := Option.some.inj (hparent.symm.trans hr)
      omega
    · cases hheap

/-- A part with few elements is made and stays undivided. -/
theorem Divides.alloc (hp : p < h.heap.length)
    (hfew : ¬ (h.compareThreshold : ℤ) < (makeRange H sl d p rng).elements) :
    Divides H sl h (h.alloc (makeRange H sl d p rng)) p [d] := by
  have hself := mem_singleton_self d
  have hat : (h.alloc (makeRange H sl d p rng)).At d h.heap.length (makeRange H sl d p rng) :=
    ⟨lookup_alloc.trans (if_pos rfl), List.getElem?_concat_length⟩
  constructor
  · refine ⟨rfl, rfl, rfl, ⟨_, rfl⟩, fun x hx => ?_, fun _ _ _ => Iff.rfl, id⟩
    rw [lookup_alloc, if_neg]
    rintro rfl
    exact hx ⟨_, hself, le_rfl⟩
  · exact Keyed.alloc
  · exact fun hpf => hpf.alloc rfl hp
  · intro e he x hx
    obtain rfl := List.mem_singleton.mp he
    -- a range that is not divided reaches only itself
    rcases hx.eq_or_part with rfl | ⟨q, sub, y, hat', hdivided, -, -⟩
    · exact ⟨_, _, hat, le_rfl, rfl, rfl, ⟨fun hd => absurd hd (by simp [makeRange]),
        fun hmany => absurd hmany hfew⟩, fun hd => absurd hd (by simp [makeRange]),
        fun hd => absurd hd (by simp [makeRange]), fun hd => absurd hd (by simp [makeRange])⟩
    · obtain ⟨rfl, rfl⟩ := hat'.unique hat
      simp [makeRange] at hdivided
  · intro e he
    rw [List.mem_singleton.mp he]
    exact ⟨_, _, hat, rfl⟩
  · exact fun q hq => .inl hq
  · exact fun hq => .inl hq

theorem allocDivided_eq : h.allocDivided p rng =
    ((h.alloc { rng with isDivided := true }).unsetDirty p).setDirty h.heap.length := by
  have hheap : ((h.heap ++ [rng]).modify h.heap.length fun rng => { rng with isDivided := true })
      = h.heap ++ [{ rng with isDivided := true }] := by
    rw [List.modify_eq_take_cons_drop (by simp)]
    simp
  simp only [allocDivided, HashRanges.modify, HashRanges.alloc, unsetDirty, setDirty, hheap]
  rfl

theorem getElem?_allocDivided (h : HashRanges) (p : ℕ) (rng : HashRange) :
    (h.allocDivided p rng).heap[h.heap.length]? = some { rng with isDivided := true } := by
  rw [allocDivided_eq]
  exact List.getElem?_concat_length

/-- A part with many elements is wide, since the elements are spread enough. -/
theorem wide_part_of_roomy {df th : ℕ} (hroomy : Roomy df th sl) (hord : Ordered H sl)
    (hrange : IsRange df rng.tuple) (hwide : Wide df rng.tuple)
    (hd : d ∈ genTupleRanges rng.tuple df) (hmany : (th : ℤ) < (makeRange H sl d p rng).elements) :
    IsRange df d ∧ Wide df d := by
  have hranged : IsRange df d := .piece hrange hwide hd
  have hcount : (makeRange H sl d p rng).elements = (count sl d : ℤ) := by
    rw [← hord.length_within]
    rfl
  exact ⟨hranged, hroomy d hranged (by omega)⟩

/-- The new range is found after it is divided further. -/
theorem Divides.found_allocDivided (hdf : 2 ≤ h.divideFactor) (hwide : Wide h.divideFactor d)
    (hbelow : Divides H sl (h.allocDivided p (makeRange H sl d p rng)) h' h.heap.length
      (genTupleRanges d h.divideFactor)) :
    h'.At d h.heap.length { makeRange H sl d p rng with isDivided := true } := by
  have ht := tiles_genTupleRanges hdf hwide
  have hnotpart : ¬ ∃ e ∈ genTupleRanges d h.divideFactor, d ≤ e := by
    rintro ⟨e, he, hde⟩
    have hne := ht.ne_of_mem (by rw [length_genTupleRanges hdf]; exact hdf) he
    exact hne (le_antisymm (ht.le_of_mem he) hde)
  rw [allocDivided_eq] at hbelow
  exact hbelow.frame.at hnotpart ⟨lookup_alloc.trans (if_pos rfl), List.getElem?_concat_length⟩

/-- A part with many elements is made and divided. -/
theorem Divides.allocDivided (hp : p < h.heap.length) (hdf : 2 ≤ h.divideFactor)
    (hwide : Wide h.divideFactor d)
    (hmany : (h.compareThreshold : ℤ) < (makeRange H sl d p rng).elements)
    (hbelow : Divides H sl (h.allocDivided p (makeRange H sl d p rng)) h' h.heap.length
      (genTupleRanges d h.divideFactor)) : Divides H sl h h' p [d] := by
  have hself := mem_singleton_self d
  have ht := tiles_genTupleRanges hdf hwide
  have hat := hbelow.found_allocDivided hdf hwide
  -- the state with the new range, before it is divided
  rw [allocDivided_eq] at hbelow
  set new : HashRange := { makeRange H sl d p rng with isDivided := true } with hnew
  set h₁ := ((h.alloc new).unsetDirty p).setDirty h.heap.length with hh₁
  have hlookup₁ : ∀ x, h₁.ranges.lookup x =
      if x = d then some h.heap.length else h.ranges.lookup x := fun x => lookup_alloc
  have hdirty₁ : ∀ q, q ∈ h₁.dirty ↔ (q ∈ h.dirty ∧ q ≠ p) ∨ q = h.heap.length := fun q => by
    rw [hh₁, mem_setDirty, mem_unsetDirty]
    rfl
  have hlen₁ : h₁.heap.length = h.heap.length + 1 := by
    simp [hh₁, setDirty, unsetDirty, HashRanges.alloc]
  have hframe := hbelow.frame
  have hdf' : h'.divideFactor = h.divideFactor := hframe.divideFactor
  have hreach : ∀ e ∈ genTupleRanges d h.divideFactor, h'.Reach d e := fun e he =>
    Reach.refl.step hat rfl (hdf' ▸ he)
  have hdirty : h'.DirtyBelow d := by
    rcases hbelow.self ((hdirty₁ _).mpr (.inr rfl)) with hq | ⟨e, he, x, q, hx, hq⟩
    · exact ⟨d, _, .refl, hat.lookup, hq⟩
    · exact ⟨x, q, (hreach e he).trans hx, hq⟩
  have hgrown : Grown H sl h' h.heap.length d h.heap.length new :=
    { found := hat
      base_le := le_rfl
      elements := rfl
      hash := rfl
      isDivided := ⟨fun _ => hframe.compareThreshold ▸ hmany, fun _ => rfl⟩
      wide := fun _ => hdf' ▸ hwide
      parts := fun _ e he => hbelow.parts e (hdf' ▸ he)
      dirty := fun _ => hdirty }
  constructor
  · refine ⟨hframe.topRange, hframe.divideFactor, hframe.compareThreshold, ?_, fun x hx => ?_,
      fun q hq hne => ?_, fun hq => ?_⟩
    · obtain ⟨l, hl⟩ := hframe.heap
      exact ⟨[new] ++ l, by rw [hl, ← List.append_assoc]; rfl⟩
    · rw [hframe.outside, hlookup₁, if_neg]
      · rintro rfl
        exact hx ⟨_, hself, le_rfl⟩
      · rintro ⟨e, he, hxe⟩
        exact hx ⟨d, hself, hxe.trans (ht.le_of_mem he)⟩
    · rw [hframe.dirty q (by omega) (by omega), hdirty₁]
      simp [hne, hq.ne]
    · exact absurd ((hdirty₁ p).mp ((hframe.dirty p (by omega) (by omega)).mp hq))
        (by simp [hp.ne])
  · exact fun hk => hbelow.keys hk.alloc
  · exact fun hpf => hbelow.parent_lt (hpf.alloc rfl hp)
  · intro e he x hx
    obtain rfl := List.mem_singleton.mp he
    rcases hx.eq_or_part with rfl | ⟨q, sub, y, hat', -, hy, hyx⟩
    · exact ⟨_, _, hgrown⟩
    · obtain ⟨r, sub', hg⟩ := hbelow.subtree y (hdf' ▸ hy) x hyx
      exact ⟨r, sub', hg.mono (by omega)⟩
  · intro e he
    rw [List.mem_singleton.mp he]
    exact ⟨_, _, hat, rfl⟩
  · intro q hq
    rcases hbelow.new_dirty q hq with hq | ⟨e, he, x, hx, hlookup⟩
    · rcases (hdirty₁ q).mp hq with ⟨hq, -⟩ | rfl
      · exact .inl hq
      · exact .inr ⟨d, hself, d, .refl, hat.lookup⟩
    · exact .inr ⟨d, hself, x, (hreach e he).trans hx, hlookup⟩
  · exact fun _ => .inr ⟨d, hself, hdirty⟩

/-- What every step of a loop over tiles does for its tile, the loop does for all of them. -/
theorem foldlM_tiles {R : HashRanges → HashRanges → List RangeTuple → Prop} {I : HashRanges → Prop}
    {lo hi : ℕ} {step : HashRanges → RangeTuple → Except Failure HashRanges}
    (hstep : ∀ h h' d, d ∈ l → step h d = .ok h' → I h → R h h' [d] ∧ I h')
    (hcons : ∀ {h h' h'' d l}, I h → R h h' [d] → R h' h'' l → d.lo ≤ d.hi →
      (∀ x ≤ d, x.lo ≤ x.hi → ¬ ∃ y ∈ l, x ≤ y) → R h h'' (d :: l)) (ht : Tiles lo hi l)
    (hinv : I h) (hok : l.foldlM step h = .ok h') : R h h' l := by
  induction ht generalizing h with
  | single hle =>
    obtain ⟨h₁, hfirst, hrest⟩ := foldlM_cons_eq_ok.mp hok
    obtain rfl := Except.ok.inj hrest
    exact (hstep _ _ _ mem_cons_self hfirst hinv).1
  | @cons lo mid hi l hle ht ih =>
    obtain ⟨h₁, hfirst, hrest⟩ := foldlM_cons_eq_ok.mp hok
    obtain ⟨hd, hinv₁⟩ := hstep _ _ _ mem_cons_self hfirst hinv
    have hrest := ih (fun h h' d hmem => hstep h h' d (mem_cons_of_mem _ hmem)) hinv₁ hrest
    refine hcons hinv hd hrest hle ?_
    -- the first tile ends before the others begin
    rintro x hx hne ⟨y, hy, hxy⟩
    have hylo := (ht.le_of_mem hy).1
    have hxhi := hx.2
    have hxlo := hxy.1
    simp only at hylo hxhi
    omega

/-- The tuples in the map of `h'` were in the map of `h`, or they are reached from `l`. -/
def Rooted (h h' : HashRanges) (l : List RangeTuple) : Prop :=
  ∀ x q, h'.ranges.lookup x = some q → h.ranges.lookup x = some q ∨ ∃ d ∈ l, h'.Reach d x

/-- The first part and the others. -/
theorem Rooted.cons (hrooted : Rooted h h' [d]) (hrooted' : Rooted h' h'' l)
    (hfirst : Divides H sl h h' p [d]) (hrest : Divides H sl h' h'' p l) (hdf : 2 ≤ h.divideFactor)
    (hp : p < h.heap.length) (hd : d.lo ≤ d.hi)
    (hdisjoint : ∀ x ≤ d, x.lo ≤ x.hi → ¬ ∃ y ∈ l, x ≤ y) : Rooted h h'' (d :: l) := by
  have hsubtree := hfirst.subtree d (mem_singleton_self d)
  obtain ⟨-, hreach, -⟩ := hsubtree.frame (hfirst.frame.divideFactor.symm ▸ hdf) hd hrest.frame
    hdisjoint hp
  intro x q hlookup
  rcases hrooted' x q hlookup with hlookup | ⟨e, he, hx⟩
  · rcases hrooted x q hlookup with hlookup | ⟨e, he, hx⟩
    · exact .inl hlookup
    · obtain rfl := List.mem_singleton.mp he
      exact .inr ⟨e, mem_cons_self, hreach x hx⟩
  · exact .inr ⟨e, mem_cons_of_mem _ he, hx⟩

/-- A range that stays undivided is the only new one. -/
theorem Rooted.alloc : Rooted h (h.alloc rng) [rng.tuple] := by
  intro x q hlookup
  rcases lookup_alloc_cases hlookup with rfl | hlookup
  · exact .inr ⟨_, mem_singleton_self _, .refl⟩
  · exact .inl hlookup

/-- The new ranges below a divided part are reached from it. -/
theorem Rooted.allocDivided (hdf : 2 ≤ h.divideFactor) (hwide : Wide h.divideFactor d)
    (hbelow : Divides H sl (h.allocDivided p (makeRange H sl d p rng)) h' h.heap.length
      (genTupleRanges d h.divideFactor))
    (hrooted : Rooted (h.allocDivided p (makeRange H sl d p rng)) h'
      (genTupleRanges d h.divideFactor)) : Rooted h h' [d] := by
  have hat := hbelow.found_allocDivided hdf hwide
  have hfactor : h'.divideFactor = h.divideFactor := hbelow.frame.divideFactor
  have hself := mem_singleton_self d
  intro x q hlookup
  rcases hrooted x q hlookup with hlookup | ⟨e, he, hx⟩
  · rw [allocDivided_eq] at hlookup
    rcases lookup_alloc_cases hlookup with rfl | hlookup
    · exact .inr ⟨_, hself, .refl⟩
    · exact .inl hlookup
  · exact .inr ⟨d, hself, (Reach.refl.step hat rfl (hfactor.symm ▸ he)).trans hx⟩

section

variable (hord : Ordered H sl) (hheap : h.heap[p]? = some rng) (hdf : 2 ≤ h.divideFactor)
  (hrange : IsRange h.divideFactor rng.tuple) (hwide : Wide h.divideFactor rng.tuple)
  (hroomy : Roomy h.divideFactor h.compareThreshold sl)
  (hok : makeBottomRanges H sl fuel h p = .ok h')

include hord hheap hdf hrange hwide hroomy hok

/-- `makeBottomRanges` divides a wide range, and makes no other ranges. -/
theorem makeBottomRanges_rooted :
    Divides H sl h h' p (genTupleRanges rng.tuple h.divideFactor) ∧
      Rooted h h' (genTupleRanges rng.tuple h.divideFactor) := by
  induction fuel generalizing h h' p rng with
  | zero => cases hok
  | succ fuel ih =>
    rw [makeBottomRanges, get, hheap] at hok
    obtain ⟨hp, _⟩ := List.getElem?_eq_some_iff.mp hheap
    -- the loop over the parts, part by part
    refine foldlM_tiles (R := fun h h' l => Divides H sl h h' p l ∧ Rooted h h' l)
      (I := fun h₀ => p < h₀.heap.length ∧ h₀.divideFactor = h.divideFactor ∧
        h₀.compareThreshold = h.compareThreshold) ?_ ?_ (tiles_genTupleRanges hdf hwide)
      ⟨hp, rfl, rfl⟩ hok
    · rintro h₀ h₁ d hd hstep ⟨hp₀, hfactor, hthreshold⟩
      have hboth : Divides H sl h₀ h₁ p [d] ∧ Rooted h₀ h₁ [d] := by
        simp only at hstep
        split at hstep
        · next hmany =>
          obtain ⟨hranged, hwided⟩ :=
            wide_part_of_roomy hroomy hord hrange hwide hd (hthreshold ▸ hmany)
          rw [← hfactor] at hranged hwided hdf
          rw [← hfactor, ← hthreshold] at hroomy
          have hheap₀ := getElem?_allocDivided h₀ p (makeRange H sl d p rng)
          obtain ⟨hbelow, hrooted⟩ := ih hheap₀ hdf hranged hwided hroomy hstep
          exact ⟨.allocDivided hp₀ hdf hwided hmany hbelow,
            .allocDivided hdf hwided hbelow hrooted⟩
        · next hfew =>
          obtain rfl := Except.ok.inj hstep
          exact ⟨.alloc hp₀ hfew, .alloc⟩
      have hframe := hboth.1.frame
      exact ⟨hboth, hp₀.trans_le hframe.length_le, hframe.divideFactor.trans hfactor,
        hframe.compareThreshold.trans hthreshold⟩
    · rintro h₀ h₁ h₂ d l ⟨hp₀, hfactor, -⟩ ⟨hfirst, hrooted⟩ ⟨hrest, hrooted'⟩ hle hdisjoint
      have hdf₀ : 2 ≤ h₀.divideFactor := hfactor.symm ▸ hdf
      exact ⟨hfirst.cons hrest hdf₀ hp₀ hle hdisjoint,
        hrooted.cons hrooted' hfirst hrest hdf₀ hp₀ hle hdisjoint⟩

/-- The whole call, by recursion on its fuel. -/
theorem makeBottomRanges_spec :
    Divides H sl h h' p (genTupleRanges rng.tuple h.divideFactor) :=
  (makeBottomRanges_rooted hord hheap hdf hrange hwide hroomy hok).1

end

end Divides

/-! ## The tree with the new ranges -/

/-- Marks a range as divided. -/
def mark (h : HashRanges) (p : ℕ) : HashRanges :=
  h.modify p fun rng => { rng with isDivided := true }

section Graft

variable {H : Hashing} {sl : List HashedElement} {h h' : HashRanges} {p q : ℕ}
  {c x y : RangeTuple} {rng r : HashRange}

theorem Keyed.mark (hk : h.Keyed) : (h.mark p).Keyed := by
  intro c q hlookup
  obtain ⟨rng, hheap, htuple⟩ := hk c q hlookup
  have hat : h.At c q rng := ⟨hlookup, hheap⟩
  refine ⟨_, hat.modify.heap, ?_⟩
  split <;> exact htuple

theorem ParentFirst.mark (hpf : h.ParentFirst) : (h.mark p).ParentFirst := by
  intro q rng r hheap hparent
  rw [HashRanges.mark, HashRanges.modify, List.getElem?_modify] at hheap
  obtain ⟨rng', hheap', rfl⟩ := Option.map_eq_some_iff.mp hheap
  refine hpf q rng' r hheap' ?_
  split at hparent <;> exact hparent

/-- `h'` has the tree of `h` with the live range `c` divided, which was not. -/
structure Graft (H : Hashing) (sl : List HashedElement) (h h' : HashRanges) (c : RangeTuple)
    (p : ℕ) (rng : HashRange) : Prop where
  shape : h.Shape
  live : h.Live c
  found : h.At c p rng
  leaf : rng.isDivided = false
  wide : Wide h.divideFactor c
  divides : Divides H sl (h.mark p) h' p (genTupleRanges c h.divideFactor)

namespace Graft

variable (hg : Graft H sl h h' c p rng)

include hg

/-- The old live ranges are not among the new ones. -/
theorem not_le_part (hx : h.Live x) : ¬ ∃ d ∈ genTupleRanges c h.divideFactor, x ≤ d := by
  rintro ⟨d, hd, hxd⟩
  exact hg.shape.not_lt_leaf hg.live hg.found hg.leaf hx
    (hxd.trans_lt (hg.shape.lt_of_mem hg.wide hd))

theorem at_if (hx : h.Live x) (hr : h.At x q r) :
    h'.At x q (if p = q then { r with isDivided := true } else r) :=
  hg.divides.frame.at (hg.not_le_part hx) hr.modify

theorem at_self : h'.At c p { rng with isDivided := true } := by
  simpa using hg.at_if hg.live hg.found

/-- The other live ranges are as before. -/
theorem at_of_ne (hx : h.Live x) (hne : x ≠ c) (hr : h.At x q r) : h'.At x q r := by
  have hpq : p ≠ q := by
    rintro rfl
    exact hne (hg.shape.eq_of_lookup hr.lookup hg.found.lookup)
  simpa [hpq] using hg.at_if hx hr

/-- What was reached is still reached. -/
theorem reach (hx : h.Live x) (hy : h.Reach x y) : h'.Reach x y := by
  induction hy with
  | refl => exact .refl
  | @step y d q r hy hr hdivided hd ih =>
    have hat' := hg.at_if (hx.trans hy) hr
    refine .step ih hat' ?_ (hg.divides.frame.divideFactor.symm ▸ hd)
    split
    · rfl
    · exact hdivided

/-- The parts are reached from the divided range. -/
theorem reach_part {d : RangeTuple} (hd : d ∈ genTupleRanges c h.divideFactor) : h'.Reach c d :=
  Reach.refl.step hg.at_self rfl (hg.divides.frame.divideFactor.symm ▸ hd)

/-- A live range was live before or is reached from a part. -/
theorem live_or (hx : h'.Live x) :
    h.Live x ∨ ∃ d ∈ genTupleRanges c h.divideFactor, h'.Reach d x := by
  induction hx with
  | refl => exact .inl .refl
  | @step y x q r _ hr hdivided hmem ih =>
    have hmem' : x ∈ genTupleRanges y h.divideFactor := hg.divides.frame.divideFactor ▸ hmem
    rcases ih with hy | ⟨d, hd, hy⟩
    · by_cases hyc : y = c
      · exact .inr ⟨x, hyc ▸ hmem', .refl⟩
      · obtain ⟨q', r', hr'⟩ := hg.shape.exists_at hy
        obtain ⟨rfl, rfl⟩ := hr.unique (hg.at_of_ne hy hyc hr')
        exact .inl (hy.step hr' hdivided hmem')
    · exact .inr ⟨d, hd, hy.step hr hdivided hmem⟩

/-- The shape of the tree is kept. -/
theorem shape_after : h'.Shape where
  factor := hg.divides.frame.divideFactor.symm ▸ hg.shape.factor
  keys := hg.divides.keys hg.shape.keys.mark
  parent_lt := hg.divides.parent_lt hg.shape.parent_lt.mark
  top := by
    obtain ⟨rng, hr, hparent⟩ := hg.shape.top
    have hat' := hg.at_if .refl hr
    refine ⟨_, hg.divides.frame.topRange.symm ▸ hat', ?_⟩
    split <;> exact hparent
  divided x q r hx hr hdivided := by
    have hdf : h'.divideFactor = h.divideFactor := hg.divides.frame.divideFactor
    rcases hg.live_or hx with hx | ⟨d, hd, hx⟩
    · rw [hdf]
      by_cases hxc : x = c
      · subst hxc
        obtain ⟨rfl, rfl⟩ := hr.unique hg.at_self
        exact ⟨hg.wide, hg.divides.parts⟩
      · obtain ⟨q', r', hr'⟩ := hg.shape.exists_at hx
        obtain ⟨rfl, rfl⟩ := hr.unique (hg.at_of_ne hx hxc hr')
        obtain ⟨hwidex, hparts⟩ := hg.shape.divided x q r hx hr' hdivided
        refine ⟨hwidex, fun d hd => ?_⟩
        obtain ⟨q₁, sub, hsub, hparent⟩ := hparts d hd
        refine ⟨q₁, _, hg.at_if (hx.step hr' hdivided hd) hsub, ?_⟩
        split <;> exact hparent
    · obtain ⟨q', r', hx⟩ := hg.divides.subtree d hd x hx
      obtain ⟨rfl, rfl⟩ := hr.unique hx.found
      exact ⟨hx.wide hdivided, hx.parts hdivided⟩
  dirty q hq := by
    rcases hg.divides.new_dirty q hq with hq | ⟨d, hd, x, hx, hlookup⟩
    · obtain ⟨x, hx, hlookup⟩ := hg.shape.dirty q hq
      obtain ⟨q', r, hr⟩ := hg.shape.exists_at hx
      obtain rfl := Option.some.inj (hlookup.symm.trans hr.lookup)
      exact ⟨x, hg.reach .refl hx, (hg.at_if hx hr).lookup⟩
    · exact ⟨x, ((hg.reach .refl hg.live).trans (hg.reach_part hd)).trans hx, hlookup⟩

end Graft

end Graft

end HashRanges

end Ldiff
