import AnySync.Go.Basic
import Mathlib.Data.Finset.Basic

/-!
# The suppression of duplicates

The model of `commonspace/pubsub/dedup.go`: a set of message ids, and a ring of them in the order in
which they were recorded. When the ring is full, recording an id evicts the oldest one.
-/

namespace Pubsub

/-- `msgIdLen`. -/
def msgIdLen : ℕ := 16

/-- `msgIdDedup`. -/
structure MsgIdDedup where
  set : Finset Bytes
  ring : List Bytes
  pos : ℕ
  full : Bool

namespace MsgIdDedup

/-- `newMsgIdDedup`. -/
def new (size : ℕ) : MsgIdDedup where
  set := ∅
  ring := List.replicate size (List.replicate msgIdLen 0)
  pos := 0
  full := false

/-- `seen`: the answer, and the cache after it. -/
def seen (d : MsgIdDedup) (id : Bytes) : Bool × MsgIdDedup :=
  if id.length ≠ msgIdLen then (false, d)
  else if id ∈ d.set then (true, d)
  else
    let kept := if d.full then d.set.erase (d.ring.getD d.pos []) else d.set
    let wraps := d.pos + 1 = d.ring.length
    (false,
      { set := insert id kept
        ring := d.ring.set d.pos id
        pos := if wraps then 0 else d.pos + 1
        full := if wraps then true else d.full })

/-- The cache after the ids `log` were recorded, with room for `size`. -/
structure Recent (size : ℕ) (log : List Bytes) (d : MsgIdDedup) : Prop where
  length : d.ring.length = size
  pos : d.pos = log.length % size
  full : d.full = decide (size ≤ log.length)
  /-- The ring has the last ids, each at its number. -/
  ring : ∀ j < log.length, log.length ≤ j + size → d.ring[j % size]? = log[j]?
  set : d.set = (log.drop (log.length - size)).toFinset
  /-- An id comes back only after `size` others. -/
  apart : ∀ i j, i < j → j < log.length → j ≤ i + size → log[i]? ≠ log[j]?

variable {size : ℕ} {log : List Bytes} {d : MsgIdDedup} {id : Bytes}

theorem recent_new (hsize : 0 < size) : Recent size [] (new size) where
  length := by simp [new]
  pos := by simp [new]
  full := by simp [new, hsize.ne']
  ring _ h := by cases h
  set := by simp [new]
  apart _ _ _ h := by cases h

/-- What is evicted is the oldest of the last ids, and it is not among the others. -/
theorem Recent.kept_eq (h : d.Recent size log) (hsize : 0 < size) :
    (if d.full then d.set.erase (d.ring.getD d.pos []) else d.set) =
      (log.drop (log.length + 1 - size)).toFinset := by
  rw [h.full, h.set]
  by_cases hfull : size ≤ log.length
  · have hlt : log.length - size < log.length := by omega
    have hold : d.ring.getD d.pos [] = log[log.length - size] := by
      have hmod : (log.length - size) % size = log.length % size := by
        rw [← Nat.add_mod_right, Nat.sub_add_cancel hfull]
      have hring := h.ring (log.length - size) hlt (by omega)
      rw [hmod, ← h.pos, List.getElem?_eq_getElem hlt] at hring
      rw [List.getD_eq_getElem?_getD, hring, Option.getD_some]
    have hdrop : log.drop (log.length - size) =
        log[log.length - size] :: log.drop (log.length - size + 1) :=
      List.drop_eq_getElem_cons hlt
    have hnot : log[log.length - size] ∉ log.drop (log.length - size + 1) := by
      intro hmem
      obtain ⟨k, hk⟩ := List.mem_iff_getElem?.mp hmem
      rw [List.getElem?_drop] at hk
      have hklt := (List.getElem?_eq_some_iff.mp hk).1
      refine h.apart (log.length - size) (log.length - size + 1 + k) (by omega) hklt (by omega) ?_
      rw [hk, List.getElem?_eq_getElem hlt]
    rw [if_pos (decide_eq_true hfull), hold, hdrop, List.toFinset_cons,
      Finset.erase_insert (by simpa using hnot), show log.length + 1 - size =
        log.length - size + 1 by omega]
  · rw [if_neg (by simpa using hfull), show log.length - size = 0 by omega,
      show log.length + 1 - size = 0 by omega]

/-- An id that is not among the last ones is recorded, and one that is among them is refused. -/
theorem Recent.seen (h : d.Recent size log) (hsize : 0 < size) (hid : id.length = msgIdLen) :
    (d.seen id).1 = true ∧ (d.seen id).2 = d ∨
      (d.seen id).1 = false ∧ (d.seen id).2.Recent size (log ++ [id]) := by
  unfold MsgIdDedup.seen
  rw [if_neg (by simpa using hid)]
  by_cases hmem : id ∈ d.set
  · rw [if_pos hmem]
    exact Or.inl ⟨rfl, rfl⟩
  rw [if_neg hmem]
  refine Or.inr ⟨rfl, ?_⟩
  have hpos : d.pos < size := by
    rw [h.pos]
    exact Nat.mod_lt _ hsize
  have hdivmod := Nat.div_add_mod log.length size
  have hnew : id ∉ log.drop (log.length - size) := by rwa [h.set, List.mem_toFinset] at hmem
  -- the next number is at the next place of the ring
  have hnext : (log.length + 1) % size = if d.pos + 1 = d.ring.length then 0 else d.pos + 1 := by
    rw [h.length, Nat.add_mod, ← h.pos]
    split
    · next heq =>
      rcases Nat.eq_or_lt_of_le (Nat.succ_le_of_lt hsize) with hone | htwo
      · rw [← hone]
        exact Nat.mod_one _
      · rw [Nat.mod_eq_of_lt htwo, heq, Nat.mod_self]
    · next hne =>
      have htwo : 1 < size := by omega
      rw [Nat.mod_eq_of_lt htwo, Nat.mod_eq_of_lt (by omega)]
  constructor
  · rw [List.length_set, h.length]
  · rw [List.length_append, List.length_singleton, hnext]
  · rw [List.length_append, List.length_singleton]
    change (if d.pos + 1 = d.ring.length then true else d.full) = _
    rw [h.full]
    split
    · next heq =>
      rw [eq_comm, decide_eq_true_eq]
      rw [h.pos, h.length] at heq
      have hle := Nat.mod_le log.length size
      omega
    · next hne =>
      rw [h.pos, h.length] at hne
      rw [decide_eq_decide]
      constructor
      · omega
      · intro hle
        by_contra hlt
        have hlen : log.length + 1 = size := by omega
        rw [Nat.mod_eq_of_lt (by omega)] at hne
        exact hne hlen
  · intro j hj hjsize
    rw [List.length_append, List.length_singleton] at hj hjsize
    rcases Nat.lt_or_ge j log.length with hlt | hge
    · -- an older id is at another place
      have hne : d.pos ≠ j % size := by
        rw [h.pos]
        intro heq
        have hmod : (log.length - j) % size = 0 := Nat.sub_mod_eq_zero_of_mod_eq heq
        rw [Nat.mod_eq_of_lt (by omega)] at hmod
        omega
      rw [List.getElem?_set_ne hne, List.getElem?_append_left hlt]
      exact h.ring j hlt (by omega)
    · have hjeq : j = log.length := by omega
      rw [hjeq, ← h.pos, List.getElem?_concat_length,
        List.getElem?_set_self (by rw [h.length]; exact hpos)]
  · change insert id (if d.full then d.set.erase (d.ring.getD d.pos []) else d.set) = _
    rw [h.kept_eq hsize, List.length_append, List.length_singleton,
      List.drop_append_of_le_length (by omega)]
    ext x
    rw [Finset.mem_insert, List.mem_toFinset, List.mem_toFinset, List.mem_append,
      List.mem_singleton, or_comm]
  · intro i j hij hj hjsize
    rw [List.length_append, List.length_singleton] at hj
    rw [List.getElem?_append_left (by omega)]
    rcases Nat.lt_or_ge j log.length with hlt | hge
    · rw [List.getElem?_append_left hlt]
      exact h.apart i j hij hlt hjsize
    · have hjeq : j = log.length := by omega
      rw [hjeq, List.getElem?_concat_length]
      intro heq
      refine hnew (List.mem_iff_getElem?.mpr ⟨i - (log.length - size), ?_⟩)
      rw [List.getElem?_drop, show log.length - size + (i - (log.length - size)) = i by omega, heq]

end MsgIdDedup

end Pubsub
