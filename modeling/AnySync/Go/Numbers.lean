import AnySync.Go.Basic
import Mathlib.Tactic.NormNum
import Mathlib.Tactic.Positivity

/-!
# Numbers of Go

Two representations of integers that are compared with each other: the bytes of `binary.BigEndian`,
whose order is the order of the numbers, and `float64`, which is exact up to `2 ^ 53`.
-/

/-! ## Big-endian bytes -/

theorem bytesOfNat_succ (len n : ℕ) :
    bytesOfNat (len + 1) n = UInt8.ofNat (n / 256 ^ len) :: bytesOfNat len n := by
  have hpow : (2 : ℕ) ^ (8 * len) = 256 ^ len := by
    rw [pow_mul]
    norm_num
  rw [bytesOfNat, bytesOfNat, List.range_succ_eq_map, List.map_cons, List.map_map]
  congr 1
  · rw [Nat.add_sub_cancel, Nat.sub_zero, Nat.shiftRight_eq_div_pow, hpow]
  · refine List.map_congr_left fun i hi => ?_
    have hi' := List.mem_range.mp hi
    rw [Function.comp, show len + 1 - 1 - i.succ = len - 1 - i by omega]

/-- Only the lower bytes are written. -/
theorem bytesOfNat_mod (len n : ℕ) : bytesOfNat len (n % 256 ^ len) = bytesOfNat len n := by
  rw [bytesOfNat, bytesOfNat]
  refine List.map_congr_left fun i hi => ?_
  have hi' := List.mem_range.mp hi
  apply UInt8.toNat_inj.mp
  have hlen : (256 : ℕ) ^ len = 256 ^ (len - 1 - i) * 256 * 256 ^ i := by
    rw [← pow_succ, ← pow_add]
    congr 1
    omega
  have hpow : (2 : ℕ) ^ (8 * (len - 1 - i)) = 256 ^ (len - 1 - i) := by
    rw [pow_mul]
    norm_num
  rw [Nat.shiftRight_eq_div_pow, Nat.shiftRight_eq_div_pow, hpow, UInt8.toNat_ofNat',
    UInt8.toNat_ofNat', hlen, mul_assoc, Nat.mod_mul_right_div_self]
  exact Nat.mod_mod_of_dvd _ (Nat.dvd_mul_right _ _)

/-- The bytes are ordered as the numbers. -/
theorem bytesOfNat_lt_iff {len a b : ℕ} (ha : a < 256 ^ len) (hb : b < 256 ^ len) :
    bytesOfNat len a < bytesOfNat len b ↔ a < b := by
  induction len generalizing a b with
  | zero =>
    have hab : a = b := by omega
    simp [hab]
  | succ len ih =>
    have hpos : 0 < 256 ^ len := Nat.pos_of_ne_zero (by positivity)
    have hdiv : ∀ {n}, n < 256 ^ (len + 1) → n / 256 ^ len < 256 := by
      intro n hn
      rw [Nat.div_lt_iff_lt_mul hpos, ← pow_succ']
      exact hn
    have hbyte : ∀ {n}, n < 256 ^ (len + 1) →
        (UInt8.ofNat (n / 256 ^ len)).toNat = n / 256 ^ len :=
      fun hn => UInt8.toNat_ofNat_of_lt' (hdiv hn)
    have htail := ih (Nat.mod_lt a hpos) (Nat.mod_lt b hpos)
    rw [bytesOfNat_mod, bytesOfNat_mod] at htail
    rw [bytesOfNat_succ, bytesOfNat_succ, List.cons_lt_cons_iff, htail, UInt8.lt_iff_toNat_lt,
      ← UInt8.toNat_inj, hbyte ha, hbyte hb]
    -- the first byte is the quotient and the others are the remainder
    have hadiv := Nat.div_add_mod a (256 ^ len)
    have hbdiv := Nat.div_add_mod b (256 ^ len)
    constructor
    · rintro (hlt | ⟨heq, hlt⟩)
      · exact lt_of_not_ge fun hba => absurd (Nat.div_le_div_right hba) (not_le.mpr hlt)
      · rw [heq] at hadiv
        omega
    · intro hab
      rcases lt_or_ge (a / 256 ^ len) (b / 256 ^ len) with hlt | hge
      · exact .inl hlt
      · have heq : a / 256 ^ len = b / 256 ^ len :=
          le_antisymm (Nat.div_le_div_right hab.le) hge
        rw [heq] at hadiv
        exact .inr ⟨heq, by omega⟩

/-! ## Floating point -/

namespace Float64

variable {n : ℕ}

/-- The number of bits that are rounded off. -/
def excess (n : ℕ) : ℕ := n.log2 - 52

/-- The nearest multiple of `2 ^ e`, and the even one of two. -/
def roundAt (e n : ℕ) : ℕ :=
  let q := n / 2 ^ e
  let r := n % 2 ^ e
  (if 2 ^ e < 2 * r ∨ 2 * r = 2 ^ e ∧ q % 2 = 1 then q + 1 else q) * 2 ^ e

/-- The value of `float64(n)` for a natural number. -/
def ofNat (n : ℕ) : ℕ := roundAt (excess n) n

/-- The value of `float64(n)` for an integer, rounded to the nearest value with 53 bits and to the
even one of two. -/
def ofInt (n : ℤ) : ℤ := n.sign * ofNat n.natAbs

example : ofInt (2 ^ 53 + 1) = 2 ^ 53 ∧ ofInt (2 ^ 53 + 3) = 2 ^ 53 + 4 ∧
    ofInt (-(2 ^ 63 - 1)) = -2 ^ 63 := by decide +kernel

theorem ofNat_of_le (h : n ≤ 2 ^ 53) : ofNat n = n := by
  rcases h.lt_or_eq with hlt | rfl
  · have hexcess : excess n = 0 := by
      rcases Nat.eq_zero_or_pos n with rfl | hpos
      · rfl
      · have hlog : n.log2 < 53 := (Nat.log2_lt hpos.ne').mpr hlt
        rw [excess]
        omega
    rw [ofNat, hexcess, roundAt]
    simp [Nat.mod_one]
  · decide +kernel

/-- The quotient has 53 bits. -/
theorem le_quotient (h : 2 ^ 53 ≤ n) : 2 ^ 52 ≤ n / 2 ^ excess n := by
  have hlog : 53 ≤ n.log2 := (Nat.le_log2 (by omega)).mpr h
  have hself : 2 ^ n.log2 ≤ n := Nat.log2_self_le (by omega)
  rw [Nat.le_div_iff_mul_le (by positivity), ← pow_add]
  have hexcess : 52 + excess n = n.log2 := by
    rw [excess]
    omega
  rwa [hexcess]

theorem ofNat_pos (h : 0 < n) : 0 < ofNat n := by
  rcases le_or_gt n (2 ^ 53) with hle | hgt
  · rwa [ofNat_of_le hle]
  · have hq := le_quotient hgt.le
    have hpow : 0 < 2 ^ excess n := by positivity
    rw [ofNat, roundAt]
    refine Nat.mul_pos ?_ hpow
    split <;> omega

/-- Rounding does not pass a power of two. -/
theorem ofNat_le {k : ℕ} (hk : 53 ≤ k) (h : n ≤ 2 ^ k) : ofNat n ≤ 2 ^ k := by
  rcases le_or_gt n (2 ^ 53) with hle | hgt
  · rwa [ofNat_of_le hle]
  · have hlog : 53 ≤ n.log2 := (Nat.le_log2 (by omega)).mpr hgt.le
    rcases h.lt_or_eq with hlt | rfl
    · have hlogk : n.log2 < k := (Nat.log2_lt (by omega)).mpr hlt
      have hq : n / 2 ^ excess n < 2 ^ (k - excess n) := by
        rw [Nat.div_lt_iff_lt_mul (by positivity), ← pow_add]
        rwa [Nat.sub_add_cancel (by rw [excess]; omega)]
      calc ofNat n ≤ (n / 2 ^ excess n + 1) * 2 ^ excess n := by
            rw [ofNat, roundAt]
            refine Nat.mul_le_mul_right _ ?_
            split <;> omega
        _ ≤ 2 ^ (k - excess n) * 2 ^ excess n := Nat.mul_le_mul_right _ hq
        _ = 2 ^ k := by
            rw [← pow_add, Nat.sub_add_cancel (by rw [excess]; omega)]
    · -- a power of two is exact
      have hexcess : excess (2 ^ k) ≤ k := by
        rw [excess, Nat.log2_two_pow]
        omega
      have hdvd : 2 ^ excess (2 ^ k) ∣ 2 ^ k := pow_dvd_pow 2 hexcess
      rw [ofNat, roundAt, Nat.mod_eq_zero_of_dvd hdvd]
      have hpos : ¬ 2 ^ excess (2 ^ k) < 2 * 0 := by omega
      have hne : ¬ 2 * 0 = 2 ^ excess (2 ^ k) := by
        have : 0 < 2 ^ excess (2 ^ k) := by positivity
        omega
      simp only [hpos, hne, false_and, or_self, if_false]
      exact (Nat.div_mul_cancel hdvd).le

theorem ofInt_nonneg_iff {n : ℤ} : 0 ≤ ofInt n ↔ 0 ≤ n := by
  rcases lt_trichotomy n 0 with h | rfl | h
  · have hpos := ofNat_pos (n := n.natAbs) (by omega)
    rw [ofInt, Int.sign_eq_neg_one_of_neg h]
    omega
  · simp [ofInt]
  · rw [ofInt, Int.sign_eq_one_of_pos h]
    omega

theorem natAbs_ofInt (n : ℤ) : (ofInt n).natAbs = ofNat n.natAbs := by
  rcases lt_trichotomy n 0 with h | rfl | h
  · rw [ofInt, Int.sign_eq_neg_one_of_neg h]
    omega
  · decide +kernel
  · rw [ofInt, Int.sign_eq_one_of_pos h]
    omega

/-- The conversion of an `int64` leaves the range at most at its upper end. -/
theorem ofInt_mem {n : ℤ} (h : -2 ^ 63 ≤ n ∧ n < 2 ^ 63) :
    -2 ^ 63 ≤ ofInt n ∧ ofInt n ≤ 2 ^ 63 := by
  have hle : ofNat n.natAbs ≤ 2 ^ 63 := ofNat_le (by norm_num) (by omega)
  rw [← natAbs_ofInt] at hle
  omega

end Float64
