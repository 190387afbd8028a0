import AnySync.Order.Tiles

/-!
# Hash ranges

`genTupleRanges` and the arithmetic of `getBottomRange` in `app/ldiff/hashrange.go`. A range of
64-bit hashes is divided into `divideFactor` ranges of one size, of which the last takes the rest.
-/

namespace Ldiff

variable {a b : ℕ}

/-- The number of hashes, 2⁶⁴. -/
def hashes : ℕ := 2 ^ 64

/-- `uint64` addition. -/
def add64 (a b : ℕ) : ℕ := (a + b) % hashes

/-- `uint64` subtraction. -/
def sub64 (a b : ℕ) : ℕ := (a + (hashes - b)) % hashes

theorem add64_eq (h : a + b < hashes) : add64 a b = a + b := Nat.mod_eq_of_lt h

theorem sub64_eq (hba : b ≤ a) (ha : a < hashes) : sub64 a b = a - b := by
  have hsum : a + (hashes - b) = (a - b) + hashes := by omega
  rw [sub64, hsum, Nat.add_mod_right, Nat.mod_eq_of_lt (by omega)]

/-- `rangeTuple`. -/
abbrev RangeTuple := NatInterval

/-- The range of all hashes. -/
def topTuple : RangeTuple := ⟨0, hashes - 1⟩

/-- The rest that the last of the ranges takes. -/
def align (c : RangeTuple) (divideFactor : ℕ) : ℕ :=
  (sub64 c.hi c.lo % divideFactor + 1) % divideFactor

/-- The size of the other ranges. -/
def perRange (c : RangeTuple) (divideFactor : ℕ) : ℕ :=
  sub64 c.hi c.lo / divideFactor + if align c divideFactor = 0 then 1 else 0

/-- The loop of `genTupleRanges`, with `n + 1` ranges to come, the next from `j` on. -/
def genTuples (perRange align : ℕ) : ℕ → ℕ → List RangeTuple
  | 0, j => [⟨j, sub64 (add64 j (perRange + align)) 1⟩]
  | n + 1, j => ⟨j, sub64 (add64 j perRange) 1⟩ :: genTuples perRange align n (add64 j perRange)

/-- `genTupleRanges`. -/
def genTupleRanges (c : RangeTuple) (divideFactor : ℕ) : List RangeTuple :=
  genTuples (perRange c divideFactor) (align c divideFactor) (divideFactor - 1) c.lo

/-- The tuple that `getBottomRange` looks up for `elHash`. It panics on `perRange = 0`. -/
def bottomTuple (c : RangeTuple) (divideFactor elHash : ℕ) : RangeTuple :=
  let bucket := sub64 elHash c.lo / perRange c divideFactor
  let tuple : RangeTuple :=
    ⟨add64 c.lo (bucket * perRange c divideFactor),
      add64 (sub64 c.lo 1) ((bucket + 1) * perRange c divideFactor)⟩
  if bucket = divideFactor - 1 then ⟨tuple.lo, add64 tuple.hi (align c divideFactor)⟩ else tuple

/-- The range has at least `divideFactor` hashes. A narrower range is not divided but repeated. -/
structure Wide (divideFactor : ℕ) (c : RangeTuple) : Prop where
  le : c.lo ≤ c.hi
  lt : c.hi < hashes
  wide : divideFactor ≤ c.hi - c.lo + 1

instance (divideFactor : ℕ) (c : RangeTuple) : Decidable (Wide divideFactor c) :=
  decidable_of_iff (c.lo ≤ c.hi ∧ c.hi < hashes ∧ divideFactor ≤ c.hi - c.lo + 1)
    ⟨fun h => ⟨h.1, h.2.1, h.2.2⟩, fun h => ⟨h.le, h.lt, h.wide⟩⟩

section Wide

variable {df : ℕ} {c : RangeTuple}
variable {j q r n : ℕ} {d : RangeTuple}

/-- The rest and the size, without the care for overflow. -/
theorem Wide.sizes (h : Wide df c) (hdf : 2 ≤ df) :
    align c df = (c.hi - c.lo + 1) % df ∧ perRange c df = (c.hi - c.lo + 1) / df := by
  have halign : align c df = (c.hi - c.lo + 1) % df := by
    rw [align, sub64_eq h.le h.lt, Nat.add_mod (c.hi - c.lo) 1,
      Nat.mod_eq_of_lt (show 1 < df by omega)]
  refine ⟨halign, ?_⟩
  rw [perRange, halign, sub64_eq h.le h.lt, Nat.succ_div]
  simp only [Nat.dvd_iff_mod_eq_zero]

theorem sub64_add64_one {k : ℕ} (hpos : 1 ≤ j + k) (hle : j + k ≤ hashes) :
    sub64 (add64 j k) 1 = j + k - 1 := by
  rcases hle.lt_or_eq with hlt | heq
  · rw [add64_eq hlt, sub64_eq hpos hlt]
  · -- the range ends with the last hash, and the sum is zero
    rw [add64, heq, Nat.mod_self]
    decide

/-- The loop of `genTupleRanges` makes consecutive ranges. -/
theorem tiles_genTuples (hq : 1 ≤ q) (hle : j + (n + 1) * q + r ≤ hashes) :
    Tiles j (j + (n + 1) * q + r - 1) (genTuples q r n j) := by
  induction n generalizing j with
  | zero =>
    rw [genTuples, sub64_add64_one (by omega) (by omega)]
    have hend : j + (0 + 1) * q + r - 1 = j + (q + r) - 1 := by omega
    rw [hend]
    exact .single (by omega)
  | succ n ih =>
    have hmul : (n + 1 + 1) * q = (n + 1) * q + q := Nat.succ_mul _ _
    have hrest : 1 ≤ (n + 1) * q := Nat.mul_pos (by omega) hq
    rw [genTuples, sub64_add64_one (by omega) (by omega), add64_eq (by omega)]
    have ht := ih (j := j + q) (by omega)
    have hend : j + q + (n + 1) * q + r - 1 = j + (n + 1 + 1) * q + r - 1 := by omega
    have hnext : j + q = j + q - 1 + 1 := by omega
    rw [hend] at ht
    refine .cons (by omega) ?_
    rwa [← hnext]

theorem length_genTuples : (genTuples q r n j).length = n + 1 := by
  induction n generalizing j with
  | zero => rfl
  | succ n ih => rw [genTuples, List.length_cons, ih]

theorem length_genTupleRanges (hdf : 2 ≤ df) : (genTupleRanges c df).length = df := by
  rw [genTupleRanges, length_genTuples]
  omega

/-- A wide range is tiled by the ranges that `genTupleRanges` makes of it. -/
theorem tiles_genTupleRanges (hdf : 2 ≤ df) (h : Wide df c) :
    Tiles c.lo c.hi (genTupleRanges c df) := by
  obtain ⟨halign, hper⟩ := h.sizes hdf
  have hle := h.le
  have hlt := h.lt
  have hpos : 1 ≤ (c.hi - c.lo + 1) / df := (Nat.one_le_div_iff (by omega)).mpr h.wide
  have hsum : df * ((c.hi - c.lo + 1) / df) + (c.hi - c.lo + 1) % df = c.hi - c.lo + 1 :=
    Nat.div_add_mod _ _
  rw [genTupleRanges, halign, hper]
  have hdf' : df - 1 + 1 = df := by omega
  have ht := tiles_genTuples (q := (c.hi - c.lo + 1) / df) (r := (c.hi - c.lo + 1) % df)
    (n := df - 1) (j := c.lo) hpos (by rw [hdf']; omega)
  have hend : c.lo + (df - 1 + 1) * ((c.hi - c.lo + 1) / df) + (c.hi - c.lo + 1) % df - 1 =
      c.hi := by
    rw [hdf']
    omega
  rwa [hend] at ht

/-- The ranges that the loop of `genTupleRanges` makes. -/
theorem mem_genTuples (hq : 1 ≤ q) (hle : j + (n + 1) * q + r ≤ hashes) :
    d ∈ genTuples q r n j ↔
      (∃ i < n, d = ⟨j + i * q, j + (i + 1) * q - 1⟩) ∨
        d = ⟨j + n * q, j + (n + 1) * q + r - 1⟩ := by
  induction n generalizing j with
  | zero =>
    have hend : j + (0 + 1) * q + r - 1 = j + (q + r) - 1 := by omega
    rw [genTuples, sub64_add64_one (by omega) (by omega), List.mem_singleton, hend]
    simp
  | succ n ih =>
    have hmul : (n + 1 + 1) * q = (n + 1) * q + q := Nat.succ_mul _ _
    have hrest : 1 ≤ (n + 1) * q := Nat.mul_pos (by omega) hq
    have hshift : ∀ i, j + q + i * q = j + (i + 1) * q := fun i => by rw [Nat.succ_mul]; omega
    rw [genTuples, sub64_add64_one (by omega) (by omega), add64_eq (by omega), List.mem_cons,
      ih (by omega)]
    simp only [hshift]
    constructor
    · rintro (rfl | ⟨i, hi, rfl⟩ | rfl)
      · exact .inl ⟨0, by omega, by simp⟩
      · exact .inl ⟨i + 1, by omega, rfl⟩
      · exact .inr rfl
    · rintro (⟨i, hi, rfl⟩ | rfl)
      · cases i with
        | zero => exact .inl (by simp)
        | succ i => exact .inr (.inl ⟨i, by omega, rfl⟩)
      · exact .inr (.inr rfl)

/-- The ranges that `genTupleRanges` makes of a wide range, without the care for overflow. -/
theorem Wide.mem_genTupleRanges (h : Wide df c) (hdf : 2 ≤ df) :
    d ∈ genTupleRanges c df ↔
      (∃ i < df - 1, d = ⟨c.lo + i * perRange c df, c.lo + (i + 1) * perRange c df - 1⟩) ∨
        d = ⟨c.lo + (df - 1) * perRange c df, c.hi⟩ := by
  obtain ⟨halign, hper⟩ := h.sizes hdf
  have hle := h.le
  have hlt := h.lt
  have hpos : 1 ≤ (c.hi - c.lo + 1) / df := (Nat.one_le_div_iff (by omega)).mpr h.wide
  have hsum : df * ((c.hi - c.lo + 1) / df) + (c.hi - c.lo + 1) % df = c.hi - c.lo + 1 :=
    Nat.div_add_mod _ _
  have hdf' : df - 1 + 1 = df := by omega
  have hend : c.lo + df * ((c.hi - c.lo + 1) / df) + (c.hi - c.lo + 1) % df - 1 = c.hi := by omega
  rw [genTupleRanges, halign, hper, mem_genTuples hpos (by rw [hdf']; omega), hdf', hend]

end Wide

/-! ## The hierarchy of ranges -/

/-- The ranges that come from the range of all hashes by divisions of wide ranges. -/
def IsRange (divideFactor : ℕ) : RangeTuple → Prop :=
  Cell topTuple (fun c => genTupleRanges c divideFactor) (Wide divideFactor)

/-- The bucket that `getBottomRange` computes for the hash is one of the ranges, for every wide
range around it. It may miss the rest that the last range takes; there is none if `divideFactor` is
a power of two. -/
def Routed (divideFactor elHash : ℕ) : Prop :=
  ∀ c, IsRange divideFactor c → Wide divideFactor c → elHash ∈ c →
    (elHash - c.lo) / perRange c divideFactor < divideFactor

section Hierarchy

variable {df h : ℕ} {c d : RangeTuple}
variable {k m : ℕ}

theorem add64_sub64_one {lo : ℕ} (hk : 1 ≤ k) (hle : lo + k ≤ hashes) :
    add64 (sub64 lo 1) k = lo + k - 1 := by
  rcases Nat.eq_zero_or_pos lo with rfl | hpos
  · -- `lo - 1` wraps around, and the sum wraps back
    have hwrap : sub64 0 1 = hashes - 1 := by decide
    rw [hwrap, add64, show hashes - 1 + k = (k - 1) + hashes by omega, Nat.add_mod_right,
      Nat.mod_eq_of_lt (by omega)]
    omega
  · rw [sub64_eq hpos (by omega), add64_eq (by omega)]
    omega

/-- `getBottomRange` looks up the range around the hash. -/
theorem Wide.bottomTuple_spec (hc : Wide df c) (hdf : 2 ≤ df) (hh : h ∈ c)
    (hbucket : (h - c.lo) / perRange c df < df) :
    bottomTuple c df h ∈ genTupleRanges c df ∧ h ∈ bottomTuple c df h := by
  obtain ⟨halign, hper⟩ := hc.sizes hdf
  have hle := hc.le
  have hlt := hc.lt
  obtain ⟨hlo, hhi⟩ := hh
  have hpos : 1 ≤ perRange c df := by
    rw [hper]
    exact (Nat.one_le_div_iff (by omega)).mpr hc.wide
  have hsum : df * perRange c df + align c df = c.hi - c.lo + 1 := by
    rw [hper, halign]
    exact Nat.div_add_mod _ _
  have hbelow : (h - c.lo) / perRange c df * perRange c df ≤ h - c.lo := Nat.div_mul_le_self _ _
  have habove : h - c.lo < ((h - c.lo) / perRange c df + 1) * perRange c df := by
    rw [Nat.mul_comm]
    exact Nat.lt_mul_div_succ _ hpos
  have hle' : ((h - c.lo) / perRange c df + 1) * perRange c df ≤ df * perRange c df :=
    Nat.mul_le_mul_right _ hbucket
  have hstep : ((h - c.lo) / perRange c df + 1) * perRange c df
      = (h - c.lo) / perRange c df * perRange c df + perRange c df := Nat.succ_mul _ _
  -- the ends of the bucket, before the last one takes the rest
  have hfirst : add64 c.lo ((h - c.lo) / perRange c df * perRange c df)
      = c.lo + (h - c.lo) / perRange c df * perRange c df := add64_eq (by omega)
  have hend : add64 (sub64 c.lo 1) (((h - c.lo) / perRange c df + 1) * perRange c df)
      = c.lo + ((h - c.lo) / perRange c df + 1) * perRange c df - 1 :=
    add64_sub64_one (by omega) (by omega)
  simp only [bottomTuple, sub64_eq hlo (show h < hashes by omega), hfirst, hend,
    hc.mem_genTupleRanges hdf]
  split
  · next hlast =>
    have hdf' : df - 1 + 1 = df := by omega
    rw [hlast] at hbelow ⊢
    rw [hdf']
    have hhi' : add64 (c.lo + df * perRange c df - 1) (align c df) = c.hi := by
      rw [add64_eq (by omega)]
      omega
    rw [hhi']
    exact ⟨.inr rfl, show c.lo + (df - 1) * perRange c df ≤ h by omega, hhi⟩
  · next hlast =>
    refine ⟨.inl ⟨_, by omega, rfl⟩, ?_⟩
    rw [NatInterval.mem_iff]
    simp only
    omega

/-- A wide range is not divided into empty ranges. -/
theorem Wide.perRange_pos (hc : Wide df c) (hdf : 2 ≤ df) : 0 < perRange c df := by
  rw [(hc.sizes hdf).2]
  exact Nat.div_pos hc.wide (by omega)

/-- `getBottomRange` looks up the range around the hash only if it computes one of the buckets. -/
theorem Wide.bucket_lt (hc : Wide df c) (hdf : 2 ≤ df) (hh : h ∈ c)
    (hmem : bottomTuple c df h ∈ genTupleRanges c df) : (h - c.lo) / perRange c df < df := by
  have hlt := hc.lt
  obtain ⟨hlo, hhi⟩ := hh
  have hpos := hc.perRange_pos hdf
  have hbelow : (h - c.lo) / perRange c df * perRange c df ≤ h - c.lo := Nat.div_mul_le_self _ _
  -- the tuple starts where the bucket starts, and no range starts after the last bucket
  have hfirst : (bottomTuple c df h).lo = c.lo + (h - c.lo) / perRange c df * perRange c df := by
    simp only [bottomTuple, sub64_eq hlo (show h < hashes by omega)]
    split
    · exact add64_eq (by omega)
    · exact add64_eq (by omega)
  refine Nat.lt_of_mul_lt_mul_right (a := perRange c df) ?_
  rcases (hc.mem_genTupleRanges hdf).mp hmem with ⟨i, hi, heq⟩ | heq
  · have hstart : c.lo + (h - c.lo) / perRange c df * perRange c df = c.lo + i * perRange c df :=
      hfirst.symm.trans (congrArg NatInterval.lo heq)
    have hi' : i * perRange c df < df * perRange c df := Nat.mul_lt_mul_of_pos_right (by omega) hpos
    omega
  · have hstart : c.lo + (h - c.lo) / perRange c df * perRange c df =
        c.lo + (df - 1) * perRange c df :=
      hfirst.symm.trans (congrArg NatInterval.lo heq)
    have hlast : (df - 1) * perRange c df < df * perRange c df :=
      Nat.mul_lt_mul_of_pos_right (by omega) hpos
    omega

section

variable (hdf : 2 ≤ df) (hc : IsRange df c)

include hdf hc

theorem IsRange.le_topTuple : c ≤ topTuple :=
  Cell.le_top (fun _ => tiles_genTupleRanges hdf) hc

theorem IsRange.nonempty : c.lo ≤ c.hi :=
  Cell.nonempty (fun _ => tiles_genTupleRanges hdf) (by decide) hc

theorem IsRange.lt : c.hi < hashes := by
  have htop : c.hi ≤ hashes - 1 := (hc.le_topTuple hdf).2
  have hpos : 0 < hashes := by decide
  omega

/-- Only the number of its hashes keeps a range from being wide. -/
theorem IsRange.wide_iff : Wide df c ↔ df ≤ c.hi - c.lo + 1 :=
  ⟨Wide.wide, fun h => ⟨hc.nonempty hdf, hc.lt hdf, h⟩⟩

end

/-- A proper part of a range is narrower. -/
theorem width_lt (hdf : 2 ≤ df) (hc : Wide df c) (hd : d ∈ genTupleRanges c df) :
    d.hi - d.lo < c.hi - c.lo := by
  have ht := tiles_genTupleRanges hdf hc
  have hle := ht.le_of_mem hd
  have hne := ht.ne_of_mem (by rw [length_genTupleRanges hdf]; exact hdf) hd
  have hnonempty := ht.nonempty hd
  simp only [NatInterval.le_iff] at hle
  by_contra hlt
  exact hne (NatInterval.ext (show d.lo = c.lo by omega) (show d.hi = c.hi by omega))

/-! ### Powers of two -/

theorem two_le_two_pow (hm : 1 ≤ m) : 2 ≤ 2 ^ m := by
  simpa using Nat.pow_le_pow_right (show 0 < 2 by omega) hm

/-- Each division takes `m` from the exponent. -/
theorem Wide.width_part (hm : 1 ≤ m) (hwide : Wide (2 ^ m) c) (hk : c.hi - c.lo + 1 = 2 ^ k)
    (hd : d ∈ genTupleRanges c (2 ^ m)) : m ≤ k ∧ d.hi - d.lo + 1 = 2 ^ (k - m) := by
  have hdf : 2 ≤ 2 ^ m := two_le_two_pow hm
  obtain ⟨halign, hper⟩ := hwide.sizes hdf
  have hmk : m ≤ k := by
    have hle := hwide.wide
    rw [hk] at hle
    exact (Nat.pow_le_pow_iff_right (by omega)).mp hle
  have hper' : perRange c (2 ^ m) = 2 ^ (k - m) := by rw [hper, hk, Nat.pow_div hmk (by omega)]
  have hpos : 1 ≤ 2 ^ (k - m) := Nat.one_le_two_pow
  have hsum : 2 ^ m * 2 ^ (k - m) = c.hi - c.lo + 1 := by
    rw [hk, ← Nat.pow_add]
    congr 1
    omega
  have hle := hwide.le
  refine ⟨hmk, ?_⟩
  rcases (hwide.mem_genTupleRanges hdf).mp hd with ⟨i, _, rfl⟩ | rfl
  · rw [hper', Nat.succ_mul]
    simp only
    omega
  · have hlast : (2 ^ m - 1) * 2 ^ (k - m) + 2 ^ (k - m) = 2 ^ m * 2 ^ (k - m) := by
      rw [← Nat.succ_mul]
      congr 1
      omega
    rw [hper']
    simp only
    omega

theorem IsRange.width_pow_two (hm : 1 ≤ m) (hc : IsRange (2 ^ m) c) :
    ∃ k, c.hi - c.lo + 1 = 2 ^ k ∧ k ≤ 64 ∧ m ∣ 64 - k := by
  induction hc with
  | top => exact ⟨64, by decide, le_rfl, Nat.sub_self 64 ▸ Nat.dvd_zero m⟩
  | @piece c d hc hwide hd ih =>
    obtain ⟨k, hk, hle64, hdvd⟩ := ih
    obtain ⟨hmk, hwidth⟩ := hwide.width_part hm hk hd
    have hsub : 64 - (k - m) = 64 - k + m := by omega
    exact ⟨k - m, hwidth, (Nat.sub_le k m).trans hle64, hsub ▸ Nat.dvd_add hdvd (Nat.dvd_refl m)⟩

/-- If `divideFactor` is a power of two, all hashes are routed. -/
theorem routed_of_pow_two (hm : 1 ≤ m) (h : ℕ) : Routed (2 ^ m) h := by
  intro c hc hwide hh
  have hdf : 2 ≤ 2 ^ m := two_le_two_pow hm
  obtain ⟨k, hk, -, -⟩ := IsRange.width_pow_two hm hc
  obtain ⟨-, hper⟩ := hwide.sizes hdf
  have hmk : m ≤ k := by
    have hle := hwide.wide
    rw [hk] at hle
    exact (Nat.pow_le_pow_iff_right (by omega)).mp hle
  obtain ⟨hlo, hhi⟩ := hh
  have hpos : 0 < perRange c (2 ^ m) := by
    rw [hper]
    exact Nat.div_pos hwide.wide (by omega)
  rw [Nat.div_lt_iff_lt_mul hpos, hper, hk, Nat.mul_div_cancel' (Nat.pow_dvd_pow 2 hmk)]
  omega

end Hierarchy

end Ldiff
