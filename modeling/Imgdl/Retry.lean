import Imgdl.Types

/-!
# Retries

One turn of the loop of `with_retry`, after the operation gave a result : return it with
the number of retries, or sleep and try again. The clock enters as the nanoseconds of the
current second, from which the jitter is taken.
-/

namespace Imgdl

/-- `u64::MAX`. -/
def u64Max : ℕ :=
  2 ^ 64 - 1

/-- Which errors are retried. -/
def isRetryable : DownloadError → Bool
  | .httpStatus code _ _ => code = 429 || code = 503
  | .timeout => true
  | .connectionFailed _ => true
  | _ => false

/-- `Retry-After` of an error. -/
def DownloadError.retryAfter : DownloadError → Option Duration
  | .httpStatus _ _ retryAfter => retryAfter
  | _ => none

/-- `Duration::from_millis`. -/
def Duration.fromMillis (n : ℕ) : Duration :=
  n * 1000000

/-- The delay after attempt `attempt`. -/
def computeBackoff (attempt : UInt32) (baseDelay : Duration) (retryAfter : Option Duration)
    (subsecNanos : ℕ) : Duration :=
  match retryAfter with
  | some ra => ra
  | none =>
    let multiplier := if attempt.toNat < 64 then 2 ^ attempt.toNat else u64Max
    -- `as_millis() as u64`, `saturating_mul`, `wrapping_mul`, `wrapping_add`, `saturating_add`
    let baseMs := min ((baseDelay / 1000000) % 2 ^ 64 * multiplier) u64Max
    let jitterRange := baseMs / 2
    let jitter :=
      if 0 < jitterRange then
        (subsecNanos * 6364136223846793005 + attempt.toNat) % 2 ^ 64 % jitterRange
      else 0
    Duration.fromMillis (min (baseMs + jitter) u64Max)

/-- How a turn of the retry loop ends. -/
inductive Turn (α : Type*) where
  | done (result : Except DownloadError α) (retriesAttempted : UInt32)
  | sleep (delay : Duration)

/-- A turn of the retry loop. -/
def retryTurn {α : Type*} (maxRetries : UInt32) (baseDelay : Duration) (attempt : UInt32)
    (subsecNanos : ℕ) : Except DownloadError α → Turn α
  | .ok data => .done (.ok data) attempt
  | .error e =>
    if !isRetryable e then .done (.error e) attempt
    else if attempt ≥ maxRetries then .done (.error e) attempt
    else .sleep (computeBackoff attempt baseDelay e.retryAfter subsecNanos)

/-- A turn that ends the loop returns the result it was given. -/
theorem retryTurn_done {α : Type*} {maxRetries attempt n : UInt32} {baseDelay : Duration}
    {subsecNanos : ℕ} {result r : Except DownloadError α}
    (h : retryTurn maxRetries baseDelay attempt subsecNanos result = .done r n) :
    r = result ∧ n = attempt := by
  unfold retryTurn at h
  cases result with
  | ok data =>
    obtain ⟨rfl, rfl⟩ := Turn.done.inj h
    exact ⟨rfl, rfl⟩
  | error e =>
    simp only at h
    split_ifs at h <;> obtain ⟨rfl, rfl⟩ := Turn.done.inj h <;> exact ⟨rfl, rfl⟩

/-- Only below the limit is there another turn. -/
theorem retryTurn_sleep {α : Type*} {maxRetries attempt : UInt32} {baseDelay delay : Duration}
    {subsecNanos : ℕ} {result : Except DownloadError α}
    (h : retryTurn maxRetries baseDelay attempt subsecNanos result = .sleep delay) :
    attempt < maxRetries := by
  unfold retryTurn at h
  cases result with
  | ok data => cases h
  | error e =>
    simp only at h
    split_ifs at h with _ hless
    exact UInt32.not_le.1 hless

end Imgdl
