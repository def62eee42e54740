import Imgdl.Retry

/-!
# The backoff

The delay after the attempt `a` is `min (b * 2 ^ a) (2 ^ 64 - 1)` milliseconds and less than
half of that again, where `b` is the base delay. `backoffMillis` is the same computation on
machine words, with a panic for a division by zero.

A delay is at most the next one, whatever the two clock readings are, as the band of an attempt
ends where that of the next one begins (`computeBackoff_band`).
-/

namespace Imgdl

/-! ## Machine words -/

/-- `u64::saturating_mul`. -/
def saturatingMul (a b : UInt64) : UInt64 :=
  UInt64.ofNat (min (a.toNat * b.toNat) u64Max)

/-- `u64::saturating_add`. -/
def saturatingAdd (a b : UInt64) : UInt64 :=
  UInt64.ofNat (min (a.toNat + b.toNat) u64Max)

/-- `1u64.checked_shl(n)`. -/
def checkedShl (n : UInt32) : Option UInt64 :=
  if n.toNat < 64 then some (UInt64.ofNat (2 ^ n.toNat)) else none

/-- `a % b`. `none` is a panic. -/
def remU64 (a b : UInt64) : Option UInt64 :=
  if b = 0 then none else some (a % b)

/-- The jitter from a range. -/
def jitterMillis (attempt subsecNanos : UInt32) (jitterRange : UInt64) : Option UInt64 :=
  if 0 < jitterRange then
    remU64 (subsecNanos.toUInt64 * 6364136223846793005 + attempt.toUInt64) jitterRange
  else some 0

/-- The delay after an attempt without `Retry-After`, in milliseconds. -/
def backoffMillis (attempt : UInt32) (baseDelayMs : UInt64) (subsecNanos : UInt32) :
    Option UInt64 :=
  let multiplier := (checkedShl attempt).getD (UInt64.ofNat u64Max)
  let baseMs := saturatingMul baseDelayMs multiplier
  (jitterMillis attempt subsecNanos (baseMs / 2)).map (saturatingAdd baseMs)

theorem toNat_ofNat_min (n : ℕ) : (UInt64.ofNat (min n u64Max)).toNat = min n u64Max := by
  rw [UInt64.toNat_ofNat']
  exact Nat.mod_eq_of_lt (Nat.lt_of_le_of_lt (Nat.min_le_right _ _) (by decide))

theorem toNat_checkedShl (n : UInt32) :
    ((checkedShl n).getD (UInt64.ofNat u64Max)).toNat =
      if n.toNat < 64 then 2 ^ n.toNat else u64Max := by
  unfold checkedShl
  split_ifs with h
  · rw [Option.getD_some, UInt64.toNat_ofNat']
    exact Nat.mod_eq_of_lt (Nat.pow_lt_pow_right (by decide) h)
  · rfl

/-! ## The band of an attempt -/

/-- `Duration::as_millis`. -/
def Duration.asMillis (d : Duration) : ℕ :=
  d / 1000000

/-- The least delay after the attempt `a`, in milliseconds. -/
def backoffBase (b a : ℕ) : ℕ :=
  min (b * 2 ^ a) u64Max

/-- The jitter of a delay. -/
def backoffJitter (baseMs : ℕ) (attempt : UInt32) (subsecNanos : ℕ) : ℕ :=
  if 0 < baseMs / 2 then
    (subsecNanos * 6364136223846793005 + attempt.toNat) % 2 ^ 64 % (baseMs / 2)
  else 0

theorem backoffJitter_le (baseMs : ℕ) (attempt : UInt32) (subsecNanos : ℕ) :
    backoffJitter baseMs attempt subsecNanos ≤ baseMs / 2 := by
  unfold backoffJitter
  split_ifs with h
  · exact (Nat.mod_lt _ h).le
  · exact Nat.zero_le _

/-- The multiplier of the source, beyond the width of a word as well. -/
theorem backoffBase_eq (b : ℕ) (attempt : UInt32) :
    min (b * if attempt.toNat < 64 then 2 ^ attempt.toNat else u64Max) u64Max =
      backoffBase b attempt.toNat := by
  unfold backoffBase
  split_ifs with h
  · rfl
  · rcases Nat.eq_zero_or_pos b with rfl | hb
    · simp
    · have hpow : u64Max ≤ 2 ^ attempt.toNat := by
        refine le_trans ?_ (Nat.pow_le_pow_right (by decide) (Nat.not_lt.1 h))
        decide
      rw [Nat.min_eq_right (Nat.le_mul_of_pos_left _ hb),
        Nat.min_eq_right (hpow.trans (Nat.le_mul_of_pos_left _ hb))]

variable {attempt : UInt32} {baseDelay : Duration}

/-- The delay of an attempt, by its base and its jitter. -/
theorem computeBackoff_eq (hbase : baseDelay.asMillis < 2 ^ 64) (attempt : UInt32)
    (subsecNanos : ℕ) : computeBackoff attempt baseDelay none subsecNanos =
      let baseMs := backoffBase baseDelay.asMillis attempt.toNat
      Duration.fromMillis (min (baseMs + backoffJitter baseMs attempt subsecNanos) u64Max) := by
  unfold Duration.asMillis at hbase ⊢
  unfold computeBackoff
  simp only [Nat.mod_eq_of_lt hbase, backoffBase_eq]
  rfl

/-- The jitter is a remainder by a range that is not empty. -/
theorem jitterMillis_eq (baseMs : UInt64) (attempt subsecNanos : UInt32) :
    ∃ jitter, jitterMillis attempt subsecNanos (baseMs / 2) = some jitter ∧
      jitter.toNat = backoffJitter baseMs.toNat attempt subsecNanos.toNat := by
  have hhalf : (baseMs / 2).toNat = baseMs.toNat / 2 := UInt64.toNat_div _ _
  have hseed : (subsecNanos.toUInt64 * 6364136223846793005 + attempt.toUInt64).toNat =
      (subsecNanos.toNat * 6364136223846793005 + attempt.toNat) % 2 ^ 64 := by
    rw [UInt64.toNat_add, UInt64.toNat_mul, Nat.mod_add_mod]
    rfl
  have hpos : 0 < baseMs / 2 ↔ 0 < baseMs.toNat / 2 := by
    rw [UInt64.lt_iff_toNat_lt, hhalf]
    rfl
  unfold jitterMillis backoffJitter
  by_cases h : 0 < baseMs / 2
  · have hne : baseMs / 2 ≠ 0 := UInt64.pos_iff_ne_zero.1 h
    rw [if_pos h, if_pos (hpos.1 h), remU64, if_neg hne]
    exact ⟨_, rfl, by rw [UInt64.toNat_mod, hseed, hhalf]⟩
  · rw [if_neg h, if_neg (mt hpos.2 h)]
    exact ⟨0, rfl, rfl⟩

/-- The words neither overflow nor divide by zero, and hold the delay. -/
theorem backoffMillis_eq (baseDelayMs : UInt64) (attempt subsecNanos : UInt32) :
    ∃ d, backoffMillis attempt baseDelayMs subsecNanos = some d ∧
      let baseMs := backoffBase baseDelayMs.toNat attempt.toNat
      d.toNat = min (baseMs + backoffJitter baseMs attempt subsecNanos.toNat) u64Max := by
  have hmul : (saturatingMul baseDelayMs
      ((checkedShl attempt).getD (UInt64.ofNat u64Max))).toNat =
        backoffBase baseDelayMs.toNat attempt.toNat := by
    rw [saturatingMul, toNat_ofNat_min, toNat_checkedShl, backoffBase_eq]
  unfold backoffMillis
  obtain ⟨jitter, hjitter, hto⟩ := jitterMillis_eq (saturatingMul baseDelayMs
    ((checkedShl attempt).getD (UInt64.ofNat u64Max))) attempt subsecNanos
  rw [hmul] at hto
  simp only [hjitter, Option.map_some]
  exact ⟨_, rfl, by rw [saturatingAdd, toNat_ofNat_min, hmul, hto]⟩

/-! ## The next attempt -/

theorem backoffBase_succ (b a : ℕ) : backoffBase b (a + 1) = min (2 * (b * 2 ^ a)) u64Max := by
  rw [backoffBase, Nat.pow_succ, ← Nat.mul_assoc, Nat.mul_comm _ 2]

/-- The band of an attempt ends where that of the next one begins, or before. -/
theorem backoffBase_le_succ (b a : ℕ) :
    min (backoffBase b a + backoffBase b a / 2) u64Max ≤ backoffBase b (a + 1) := by
  rw [backoffBase_succ, backoffBase]
  omega

/-- Below the limit of a word it ends before. -/
theorem backoffBase_lt_succ {b a : ℕ} (hb : 1 ≤ b) (hlt : b * 2 ^ (a + 1) < 2 ^ 64) :
    min (backoffBase b a + backoffBase b a / 2) u64Max < backoffBase b (a + 1) := by
  have hpos : 1 ≤ b * 2 ^ a := Nat.mul_pos hb (Nat.two_pow_pos a)
  rw [Nat.pow_succ, ← Nat.mul_assoc] at hlt
  rw [backoffBase_succ, backoffBase]
  unfold u64Max
  omega

theorem fromMillis_le {m n : ℕ} : Duration.fromMillis m ≤ Duration.fromMillis n ↔ m ≤ n :=
  Nat.mul_le_mul_right_iff (by decide)

theorem fromMillis_lt {m n : ℕ} : Duration.fromMillis m < Duration.fromMillis n ↔ m < n :=
  Nat.mul_lt_mul_right (by decide)

/-- A delay is in its band. -/
theorem backoff_mem (baseMs : ℕ) (hbaseMs : baseMs ≤ u64Max) (attempt : UInt32) (subsecNanos : ℕ) :
    baseMs ≤ min (baseMs + backoffJitter baseMs attempt subsecNanos) u64Max ∧
      min (baseMs + backoffJitter baseMs attempt subsecNanos) u64Max ≤
        min (baseMs + baseMs / 2) u64Max := by
  have hjitter := backoffJitter_le baseMs attempt subsecNanos
  omega

/-- Without `Retry-After`, the delay after the attempt `a` is between `B a`, which is
`min (b * 2 ^ a) (2 ^ 64 - 1)` for the base delay `b`, and `B a + B a / 2`, saturating. Its
computation on words neither overflows nor divides by zero. It is at most the delay after the next
attempt, at any two readings of the clock, and less as long as that is below the limit of a
word. -/
theorem computeBackoff_band (hbase : baseDelay.asMillis < 2 ^ 64)
    (attempt subsecNanos : UInt32) :
    (∃ d, backoffMillis attempt (UInt64.ofNat baseDelay.asMillis) subsecNanos = some d ∧
      computeBackoff attempt baseDelay none subsecNanos.toNat = Duration.fromMillis d.toNat ∧
      backoffBase baseDelay.asMillis attempt.toNat ≤ d.toNat ∧
      d.toNat ≤ min (backoffBase baseDelay.asMillis attempt.toNat +
        backoffBase baseDelay.asMillis attempt.toNat / 2) u64Max) ∧
    ∀ attempt' subsecNanos' : UInt32, attempt'.toNat = attempt.toNat + 1 →
      computeBackoff attempt baseDelay none subsecNanos.toNat ≤
        computeBackoff attempt' baseDelay none subsecNanos'.toNat ∧
      (1 ≤ baseDelay.asMillis → baseDelay.asMillis * 2 ^ attempt'.toNat < 2 ^ 64 →
        computeBackoff attempt baseDelay none subsecNanos.toNat <
          computeBackoff attempt' baseDelay none subsecNanos'.toNat) := by
  have hmem := fun (attempt subsecNanos : UInt32) =>
    backoff_mem (backoffBase baseDelay.asMillis attempt.toNat) (Nat.min_le_right _ _) attempt
      subsecNanos.toNat
  simp only [computeBackoff_eq hbase]
  refine ⟨?_, fun attempt' subsecNanos' hsucc => ⟨?_, fun hb hlt => ?_⟩⟩
  · obtain ⟨d, hd, hto⟩ :=
      backoffMillis_eq (UInt64.ofNat baseDelay.asMillis) attempt subsecNanos
    have hb : (UInt64.ofNat baseDelay.asMillis).toNat = baseDelay.asMillis := by
      rw [UInt64.toNat_ofNat']
      exact Nat.mod_eq_of_lt hbase
    rw [hb] at hto
    refine ⟨d, hd, by rw [hto], ?_⟩
    rw [hto]
    exact hmem attempt subsecNanos
  · rw [fromMillis_le]
    have hnext := (hmem attempt' subsecNanos').1
    rw [hsucc] at hnext ⊢
    exact (hmem attempt subsecNanos).2.trans ((backoffBase_le_succ _ attempt.toNat).trans hnext)
  · rw [fromMillis_lt]
    have hnext := (hmem attempt' subsecNanos').1
    rw [hsucc] at hnext hlt ⊢
    exact (hmem attempt subsecNanos).2.trans_lt ((backoffBase_lt_succ hb hlt).trans_le hnext)

/-- The default delay of 100 milliseconds. -/
theorem computeBackoff_band_default :
    computeBackoff 1 100000000 none 999999999 < computeBackoff 2 100000000 none 0 := by
  have hbase : Duration.asMillis 100000000 < 2 ^ 64 := by decide
  exact ((computeBackoff_band hbase 1 999999999).2 2 0 rfl).2 (by decide) (by decide)

end Imgdl
