import AnySync.Go.Basic
import Mathlib.Algebra.BigOperators.Group.List.Basic
import Mathlib.Tactic.Abel

/-!
# Sums over maps and their keys

What a map adds up to and which keys it has, and how assignments and deletions change that.
-/

namespace GoMap

variable {K V M : Type} [DecidableEq K] [AddCommMonoid M]

/-- The sum over the entries of a map. -/
def sum (f : K → V → M) (m : GoMap K V) : M := (m.entries.map fun e => f e.1 e.2).sum

variable {m : GoMap K V} {a : K}

/-- The entry of a key and the rest. -/
theorem sum_eq_add_erase (f : K → V → M) (m : GoMap K V) (a : K) :
    sum f m = ((m.lookup a).map (f a)).getD 0 + sum f (m.erase a) := by
  cases hlookup : m.lookup a with
  | none =>
      have hnot : a ∉ m.entries.keys := AList.lookup_eq_none.mp hlookup
      have herase : (m.erase a).entries = m.entries := List.kerase_of_notMem_keys hnot
      rw [sum, sum, herase]
      simp
  | some v =>
      have hmem : a ∈ m.entries.keys := AList.mem_keys.mp
          (AList.lookup_isSome.mp (by simp [hlookup]))
      obtain ⟨w, l₁, l₂, -, hentries, herase⟩ := List.exists_of_kerase hmem
      have hw : w = v := by
        have hin : (⟨a, w⟩ : (_ : K) × V) ∈ m.entries := by simp [hentries]
        exact Option.some.inj ((lookup_eq_some_iff.mpr hin).symm.trans hlookup)
      have herase' : (m.erase a).entries = l₁ ++ l₂ := herase
      rw [sum, sum, herase', hentries, hw]
      simp [add_left_comm]

theorem erase_insert (m : GoMap K V) (a : K) (v : V) : (m.insert a v).erase a = m.erase a := by
  apply AList.ext
  simp [entries_erase, AList.insert, List.kinsert, List.kerase]

/-- An insertion replaces the key's old summand by the new one. -/
theorem sum_insert (f : K → V → M) (m : GoMap K V) (a : K) (v : V) :
    sum f (m.insert a v) = f a v + sum f (m.erase a) := by
  rw [sum_eq_add_erase f (m.insert a v) a, AList.lookup_insert, erase_insert]
  rfl

/-- An assignment adds what it changes. -/
theorem sum_insert_eq {N : Type} [AddCommGroup N] (f : K → V → N) (m : GoMap K V) (a : K) (v : V) :
    sum f (m.insert a v) = sum f m + (f a v - ((m.lookup a).map (f a)).getD 0) := by
  rw [sum_insert, sum_eq_add_erase f m a]
  abel

/-! ## Keys -/

theorem keys_insert_of_mem {v : V} (hmem : a ∈ m) : (m.insert a v).keys.Perm m.keys := by
  rw [AList.keys_insert]
  exact (List.perm_cons_erase (AList.mem_keys.mp hmem)).symm

theorem keys_insert_of_notMem {v : V} (hmem : a ∉ m) : (m.insert a v).keys = a :: m.keys := by
  rw [AList.keys_insert, List.erase_of_not_mem (mt AList.mem_keys.mpr hmem)]

/-- Deleting a present key takes exactly one key away. -/
theorem length_keys_erase (hmem : a ∈ m) : (m.erase a).keys.length + 1 = m.keys.length := by
  rw [AList.keys_erase, List.length_erase_of_mem (AList.mem_keys.mp hmem)]
  have hpos := List.length_pos_of_mem (AList.mem_keys.mp hmem)
  omega

end GoMap
