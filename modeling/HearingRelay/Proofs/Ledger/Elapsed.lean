import HearingRelay.Ledger.PendingRequest
import HearingRelay.Proofs.Ledger.Age

/-!
Whether a request has been outstanding for longer than a limit. Where there is
an answer it is exact, and the cutoff of the ledger gives the same one. There is
none where the limit can be taken from the reading but leads to before the first
date, though a request submitted at a date cannot be that old.
-/

namespace HearingRelay

namespace Time.Instant

/-- From a date, a span leads to no date only when it leads to before the first. -/
theorem minus?_eq_none_iff {i : Instant} (hi : i.IsDate) (s : Span) :
    i.minus? s = none ↔ i.toNanos - s.nanos < firstSecond * nanosPerSecond := by
  have hbounds := hi.bounds
  have hin : inRange ((i.toNanos - s.nanos).fdiv nanosPerSecond) = true ↔
      firstSecond * nanosPerSecond ≤ i.toNanos - s.nanos := by
    simp only [inRange, Bool.and_eq_true, decide_eq_true_eq,
      Int.fdiv_eq_ediv_of_nonneg _ (by decide : (0 : Int) ≤ nanosPerSecond)]
    simp only [firstSecond, lastSecond, nanosPerSecond] at hbounds ⊢
    omega
  unfold minus?
  dsimp only
  split
  · next hdate => exact iff_of_false (by simp) (Int.not_lt.mpr (hin.mp hdate))
  · next hdate => exact iff_of_true rfl (Int.not_le.mp fun hle => hdate (hin.mpr hle))

/-- Ages are measured by subtraction up to the longest span only. -/
theorem elapsed?_eq_none_iff {i now : Instant} (hnow : now.IsDate) (limit : Span) :
    i.elapsed? now limit = none ↔ limit.nanos ≤ longestSpan.nanos ∧
      now.toNanos - limit.nanos < firstSecond * nanosPerSecond := by
  rw [← minus?_eq_none_iff hnow]
  unfold elapsed?
  split
  · next hlong => exact iff_of_false (by simp) fun h => Nat.not_lt.mpr h.1 hlong
  · next hshort =>
    rw [Option.map_eq_none_iff]
    exact (and_iff_right (Nat.not_lt.mp hshort)).symm

/-- On whole milliseconds the cutoff of the ledger is exact for every age: the
part of the age below a millisecond makes no difference, and a cutoff that ends
at the bounds of 64 bits lies before all dates. -/
theorem lt_cutoff_iff_toNanos {ms reading : Int} (hms : (ofMillis ms).IsDate)
    (hreading : (ofMillis reading).IsDate) (age : Span) : ms < Ledger.cutoff reading age ↔
      (ofMillis ms).toNanos < (ofMillis reading).toNanos - age.nanos := by
  have hms := hms.bounds
  have hreading := hreading.bounds
  rw [toNanos_ofMillis] at hms hreading ⊢
  rw [toNanos_ofMillis]
  simp only [firstSecond, lastSecond, nanosPerSecond] at hms hreading
  simp only [Ledger.cutoff, Span.toMillis, Bounds.minInt64, Bounds.maxInt64]
  omega

end Time.Instant

namespace PendingRequest

open Time.Instant

/-- When the age of a request goes unanswered, for all dates and every limit. It
does exactly when the limit is no longer than the longest span and leads from
the reading to before the first date; a limit so long has not passed then. Every
answer is exact over the integers, and on whole milliseconds the ledger's cutoff
tells the same for every limit, unanswered or not. -/
theorem age_unanswered_iff (r : PendingRequest) (limit : Time.Span) (now : Time.Instant)
    (hsubmitted : r.submitted.IsDate) (hnow : now.IsDate) :
    (r.elapsed? limit now = none ↔ limit.nanos ≤ longestSpan.nanos ∧
        now.toNanos - limit.nanos < firstSecond * nanosPerSecond) ∧
      (r.elapsed? limit now = none → ¬ r.submitted.toNanos < now.toNanos - limit.nanos) ∧
      (∀ elapsed, r.elapsed? limit now = some elapsed →
        (elapsed = true ↔ r.submitted.toNanos < now.toNanos - limit.nanos)) ∧
      ∀ ms reading, r.submitted = ofMillis ms → now = ofMillis reading →
        (ms < Ledger.cutoff reading limit ↔
          r.submitted.toNanos < now.toNanos - limit.nanos) := by
  have hnone := elapsed?_eq_none_iff (i := r.submitted) hnow limit
  refine ⟨hnone, fun h => ?_, fun elapsed h => ?_, ?_⟩
  · have hfirst := hsubmitted.bounds.1
    have hcutoff := (hnone.mp h).2
    omega
  · have hmeasured : longestSpan.nanos < limit.nanos ∨ (now.minus? limit).isSome = true := by
      by_cases hlong : longestSpan.nanos < limit.nanos
      · exact .inl hlong
      · refine .inr (Option.isSome_iff_ne_none.mpr fun hout => ?_)
        have hunanswered : r.submitted.elapsed? now limit = none :=
          hnone.mpr ⟨Nat.not_lt.mp hlong, (minus?_eq_none_iff hnow limit).mp hout⟩
        cases hunanswered.symm.trans h
    have hexact := (elapsed?_eq_some hsubmitted hnow hmeasured).symm.trans h
    rw [← Option.some.inj hexact]
    exact decide_eq_true_iff
  · intro ms reading hms hreading
    rw [hms] at hsubmitted ⊢
    rw [hreading] at hnow ⊢
    exact lt_cutoff_iff_toNanos hsubmitted hnow limit

def submittedInNovember : PendingRequest :=
  { id := 1, hearing := 1, eventType := .request, version := 1, message := "\x7b\x7d",
    status := .pending, submitted := ofMillis 1700000000000, lastTried := none, retryCount := 0,
    incident := false, deployment := none }

theorem age_unanswered_iff_november :
    submittedInNovember.submitted.IsDate ∧ (ofMillis 1700000000000).IsDate ∧
      (submittedInNovember.elapsed? (.ofSeconds 8336301228801) (ofMillis 1700000000000) = none ↔
        (Time.Span.ofSeconds 8336301228801).nanos ≤ longestSpan.nanos ∧
          (ofMillis 1700000000000).toNanos - (Time.Span.ofSeconds 8336301228801).nanos <
            firstSecond * nanosPerSecond) := by
  have hdate : (ofMillis 1700000000000).IsDate := ⟨by decide, by decide⟩
  exact ⟨hdate, hdate, (age_unanswered_iff submittedInNovember (.ofSeconds 8336301228801)
    (ofMillis 1700000000000) hdate hdate).1⟩

/-- A limit that leads to the second before the first date has no answer, while
the limits around it have one: a second less has not passed, and one that is too
long to be taken away has not either, nor has the limit by the ledger's cutoff. -/
theorem age_unanswered :
    submittedInNovember.elapsed? (.ofSeconds 8336301228801) (ofMillis 1700000000000) = none ∧
      submittedInNovember.elapsed? (.ofSeconds 8336301228800) (ofMillis 1700000000000) =
        some false ∧
      submittedInNovember.elapsed? (.ofSeconds 9223372036854776) (ofMillis 1700000000000) =
        some false ∧
      ¬ (1700000000000 : Int) < Ledger.cutoff 1700000000000 (.ofSeconds 8336301228801) := by
  decide

end PendingRequest

end HearingRelay
