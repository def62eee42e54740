import Imgdl.Retry
import Mathlib.Data.Nat.Find
import Mathlib.Order.Bounds.Defs

/-!
# The retry loop

`withRetry` is the loop of `with_retry` over the results its operation would give, with the
calls and the sleeps in order. `clock k` is the nanoseconds of the second in which the delay
after the result `results k` is computed.

The loop stops at the first index whose result is final or which is the limit
(`withRetry_spec`). The counter is that index, so it does not overflow.
-/

namespace Imgdl

/-- What the loop does to the outside. -/
inductive RetryEvent where
  | call
  | sleep (delay : Duration)
  deriving DecidableEq, Repr

/-- How the loop ends. -/
inductive RetryEnd (α : Type*) where
  | returned (result : Except DownloadError α) (retriesAttempted : UInt32)
  /-- `attempt += 1` at `u32::MAX`. -/
  | overflowed

/-- A run of the loop. -/
structure RetryRun (α : Type*) where
  log : List RetryEvent
  outcome : RetryEnd α

section Loop

variable {α : Type*} (maxRetries : UInt32) (baseDelay : Duration)
  (results : ℕ → Except DownloadError α) (clock : ℕ → ℕ)

/-- The loop from the call `k` with the counter `attempt`, for at most `fuel` calls. -/
def withRetryFrom : (fuel : ℕ) → (attempt : UInt32) → (k : ℕ) → Option (RetryRun α)
  | 0, _, _ => none
  | fuel + 1, attempt, k =>
    match retryTurn maxRetries baseDelay attempt (clock k) (results k) with
    | .done result retriesAttempted => some ⟨[.call], .returned result retriesAttempted⟩
    | .sleep delay =>
      if attempt.toNat + 1 < 2 ^ 32 then
        (withRetryFrom fuel (attempt + 1) (k + 1)).map fun r =>
          { r with log := .call :: .sleep delay :: r.log }
      else some ⟨[.call, .sleep delay], .overflowed⟩

/-- `with_retry`. -/
def withRetry (fuel : ℕ) : Option (RetryRun α) :=
  withRetryFrom maxRetries baseDelay results clock fuel 0 0

/-! ## The policy -/

/-- The results at which the policy stops. -/
def Stops (k : ℕ) : Prop :=
  (∃ data, results k = .ok data) ∨ (∃ e, results k = .error e ∧ isRetryable e = false) ∨
    k = maxRetries.toNat

/-- The delay of the policy after the result `k`. -/
def policyDelay (k : ℕ) : Duration :=
  match results k with
  | .error (.httpStatus _ _ (some retryAfter)) => retryAfter
  | _ => computeBackoff (UInt32.ofNat k) baseDelay none (clock k)

/-- The calls from the call `k` to the call `n`, with the delays between them. -/
def policyLog (k n : ℕ) : List RetryEvent :=
  (List.range' k (n - k)).flatMap (fun j => [.call, .sleep (policyDelay baseDelay results clock j)])
    ++ [.call]

variable {maxRetries baseDelay results clock}

theorem policyLog_self (n : ℕ) : policyLog baseDelay results clock n n = [.call] := by
  rw [policyLog, Nat.sub_self]
  rfl

theorem policyLog_of_lt {k n : ℕ} (h : k < n) : policyLog baseDelay results clock k n =
    .call :: .sleep (policyDelay baseDelay results clock k) ::
      policyLog baseDelay results clock (k + 1) n := by
  have hlen : n - k = n - (k + 1) + 1 := by omega
  rw [policyLog, hlen, List.range'_succ, List.flatMap_cons]
  rfl

theorem count_call_policyLog {n : ℕ} : ∀ {d k : ℕ}, k + d = n →
    (policyLog baseDelay results clock k n).count .call = d + 1
  | 0, k, h => by
    rw [← h, Nat.add_zero, policyLog_self]
    rfl
  | d + 1, k, h => by
    rw [policyLog_of_lt (by omega), List.count_cons_self, List.count_cons_of_ne (by simp),
      count_call_policyLog (d := d) (by omega)]

/-! ## The loop follows the policy -/

/-- The delay of an error is the one of the policy. -/
theorem computeBackoff_retryAfter {k : ℕ} {e : DownloadError} (h : results k = .error e) :
    computeBackoff (UInt32.ofNat k) baseDelay e.retryAfter (clock k) =
      policyDelay baseDelay results clock k := by
  unfold policyDelay
  rw [h]
  unfold DownloadError.retryAfter
  cases e with
  | httpStatus code message retryAfter =>
    cases retryAfter with
    | some ra => rfl
    | none => rfl
  | _ => rfl

/-- A turn at which the policy stops. -/
theorem retryTurn_of_stops {k : ℕ} (h : Stops maxRetries results k) {attempt : UInt32}
    (hattempt : attempt.toNat = k) :
    retryTurn maxRetries baseDelay attempt (clock k) (results k) = .done (results k) attempt := by
  unfold retryTurn
  cases hk : results k with
  | ok data => rfl
  | error e =>
    rcases h with ⟨data, hd⟩ | ⟨e', he, hfinal⟩ | hlimit
    · rw [hk] at hd
      cases hd
    · obtain rfl := Except.error.inj (hk.symm.trans he)
      simp [hfinal]
    · have hge : attempt ≥ maxRetries := by
        rw [ge_iff_le, UInt32.le_iff_toNat_le, hattempt, hlimit]
      simp [hge]

/-- A turn before that. -/
theorem retryTurn_of_not_stops {k : ℕ} (h : ¬Stops maxRetries results k) {attempt : UInt32}
    (hattempt : attempt.toNat = k) (hlt : k < maxRetries.toNat) :
    retryTurn maxRetries baseDelay attempt (clock k) (results k) =
      .sleep (policyDelay baseDelay results clock k) := by
  have hnat : attempt = UInt32.ofNat k := by rw [← hattempt, UInt32.ofNat_toNat]
  unfold retryTurn
  cases hk : results k with
  | ok data => exact absurd (Or.inl ⟨data, hk⟩) h
  | error e =>
    have hretry : isRetryable e = true := by
      by_contra hfinal
      exact h (Or.inr (Or.inl ⟨e, hk, Bool.eq_false_of_not_eq_true hfinal⟩))
    have hless : ¬attempt ≥ maxRetries := by
      rw [ge_iff_le, UInt32.le_iff_toNat_le]
      omega
    simp only [hretry, Bool.not_true, Bool.false_eq_true, if_false, hless]
    rw [hnat, computeBackoff_retryAfter hk]

/-- The loop from the call `k` on, if the policy stops at `n`. -/
theorem withRetryFrom_eq {n : ℕ} (hn : Stops maxRetries results n)
    (hfirst : ∀ k < n, ¬Stops maxRetries results k) (hle : n ≤ maxRetries.toNat) :
    ∀ {fuel k : ℕ} {attempt : UInt32}, attempt.toNat = k → k ≤ n → n - k < fuel →
      withRetryFrom maxRetries baseDelay results clock fuel attempt k =
        some ⟨policyLog baseDelay results clock k n, .returned (results n) (UInt32.ofNat n)⟩
  | 0, _, _, _, _, hfuel => absurd hfuel (Nat.not_lt_zero _)
  | fuel + 1, k, attempt, hattempt, hk, hfuel => by
    rcases hk.eq_or_lt with rfl | hlt
    · rw [withRetryFrom, retryTurn_of_stops hn hattempt, policyLog_self]
      simp only [← hattempt, UInt32.ofNat_toNat]
    · have hmax := maxRetries.toNat_lt
      have hbound : attempt.toNat + 1 < 2 ^ 32 := by omega
      have hsucc : (attempt + 1).toNat = k + 1 := by
        rw [UInt32.toNat_add, hattempt]
        exact Nat.mod_eq_of_lt (hattempt ▸ hbound)
      have hrest := withRetryFrom_eq hn hfirst hle hsucc hlt (show n - (k + 1) < fuel by omega)
      rw [withRetryFrom, retryTurn_of_not_stops (hfirst k hlt) hattempt (by omega)]
      simp only [if_pos hbound]
      rw [hrest, policyLog_of_lt hlt]
      rfl

variable (maxRetries baseDelay results clock)

/-- The loop returns the first result at which the policy stops, with its index. It has made one
call for each index up to that one, and slept in between as the policy says. -/
theorem withRetry_spec : ∃ n, IsLeast {k | Stops maxRetries results k} n ∧
    n ≤ maxRetries.toNat ∧
    (policyLog baseDelay results clock 0 n).count .call = n + 1 ∧
    ∃ retries : UInt32, retries.toNat = n ∧ ∀ fuel, n < fuel →
      withRetry maxRetries baseDelay results clock fuel =
        some ⟨policyLog baseDelay results clock 0 n, .returned (results n) retries⟩ := by
  classical
  have hlimit : Stops maxRetries results maxRetries.toNat := Or.inr (Or.inr rfl)
  have hexists : ∃ n, Stops maxRetries results n := ⟨_, hlimit⟩
  have hle : Nat.find hexists ≤ maxRetries.toNat := Nat.find_min' hexists hlimit
  have hfirst : ∀ k < Nat.find hexists, ¬Stops maxRetries results k :=
    fun k => Nat.find_min hexists
  refine ⟨Nat.find hexists, ⟨Nat.find_spec hexists, fun k => Nat.find_min' hexists⟩, hle,
    count_call_policyLog (Nat.zero_add _), UInt32.ofNat (Nat.find hexists), ?_,
    fun fuel hfuel => ?_⟩
  · have hmax := maxRetries.toNat_lt
    exact UInt32.toNat_ofNat_of_lt (by change _ < 2 ^ 32; omega)
  · exact withRetryFrom_eq (Nat.find_spec hexists) hfirst hle rfl (Nat.zero_le _) hfuel

end Loop

end Imgdl
