import Mathlib.Algebra.Order.Ring.Int
import Mathlib.Data.Int.Order.Basic
import Mathlib.Tactic.Linarith
import Mathlib.Tactic.Ring

/-!
# Token buckets

`rate.Limiter` of `golang.org/x/time` as an exact token bucket: it has room for `max` tokens, gets
`rate` tokens in a second, and a call takes one of them if it is there. Times are nanoseconds and
tokens are counted in billionths, so that nothing is rounded. As in the package, a rate that is not
positive gives nothing, and a bucket is full at the start.
-/

/-- The billionths of a token, or of a second. -/
def nano : ℤ := 1000000000

/-- The limits of a bucket. -/
structure Bucket.Limits where
  rate : ℤ
  max : ℤ
deriving DecidableEq, Repr

/-- A bucket that had `tokens` at the time `last`. -/
structure Bucket where
  tokens : ℤ
  last : ℤ
deriving DecidableEq, Repr

namespace Bucket

variable (l : Limits)

/-- A bucket that is full. -/
def full (now : ℤ) : Bucket where
  tokens := l.max * nano
  last := now

/-- The tokens at a time. -/
def avail (b : Bucket) (now : ℤ) : ℤ :=
  min (l.max * nano) (b.tokens + max 0 l.rate * (now - b.last))

/-- `Allow`. -/
def allow (b : Bucket) (now : ℤ) : Bool × Bucket :=
  if nano ≤ b.avail l now then (true, { tokens := b.avail l now - nano, last := now })
  else (false, { tokens := b.avail l now, last := now })

variable {l} {b : Bucket} {now later : ℤ}

/-- A bucket never holds more than its burst. -/
theorem avail_le_max : b.avail l now ≤ l.max * nano := min_le_left _ _

theorem avail_full : (full l now).avail l now = l.max * nano := by
  simp [avail, full]

/-- Waiting earns at most the rate times the time waited. -/
theorem avail_le_of_le (h : now ≤ later) :
    b.avail l later ≤ b.avail l now + max 0 l.rate * (later - now) := by
  have hrate : 0 ≤ max 0 l.rate * (later - now) :=
    mul_nonneg (le_max_left _ _) (by linarith)
  have hsplit : max 0 l.rate * (later - b.last) =
      max 0 l.rate * (now - b.last) + max 0 l.rate * (later - now) := by ring
  rw [avail, avail, hsplit]
  omega

/-- A call takes a token if there is one. -/
theorem avail_allow :
    (b.allow l now).2.avail l now = b.avail l now - if (b.allow l now).1 then nano else 0 := by
  have hmax : b.avail l now ≤ l.max * nano := avail_le_max
  have hnano : 0 < nano := by decide
  rw [allow]
  split
  · simp only [if_true]
    rw [avail, sub_self, mul_zero, add_zero]
    dsimp only
    omega
  · simp only [Bool.false_eq_true, if_false]
    rw [avail, sub_self, mul_zero, add_zero]
    dsimp only
    omega

/-- A call is let through exactly when a whole token is there. -/
theorem allow_fst : (b.allow l now).1 = decide (nano ≤ b.avail l now) := by
  rw [allow]
  split
  · next h => simp [h]
  · next h => simp [h]

theorem allow_last : (b.allow l now).2.last = now := by
  rw [allow]
  split <;> rfl

theorem allow_tokens_nonneg (hmax : 0 ≤ l.max) (hb : 0 ≤ b.tokens) (h : b.last ≤ now) :
    0 ≤ (b.allow l now).2.tokens := by
  have hnano : 0 < nano := by decide
  have hrate : 0 ≤ max 0 l.rate * (now - b.last) := mul_nonneg (le_max_left _ _) (by linarith)
  have hfull : 0 ≤ l.max * nano := mul_nonneg hmax hnano.le
  have havail : 0 ≤ b.avail l now := by
    rw [avail]
    omega
  rw [allow]
  split
  · next hle =>
    dsimp only
    omega
  · exact havail

end Bucket
