import HearingRelay.Proofs.Ledger.Legible

/-!
Ages. The dates in range lie far inside the bounds of 64 bits, so between two
of them the cutoff of an age is the plain difference, and whether more than a
limit has passed can be told by counts of nanoseconds from 1970.
-/

namespace HearingRelay

namespace Time

/-- The range of dates, in milliseconds. -/
theorem dated_iff {ms : Int} : Dated ms ↔
    Instant.firstSecond * 1000 ≤ ms ∧ ms < (Instant.lastSecond + 1) * 1000 := by
  have hin : Instant.inRange (ms.fdiv 1000) = true ↔
      Instant.firstSecond * 1000 ≤ ms ∧ ms < (Instant.lastSecond + 1) * 1000 := by
    simp only [Instant.inRange, Instant.firstSecond, Instant.lastSecond, Bool.and_eq_true,
      decide_eq_true_eq, Int.fdiv_eq_ediv_of_nonneg ms (by decide : (0 : Int) ≤ 1000)]
    omega
  unfold Dated Instant.ofMillis?
  by_cases hdate : Instant.inRange (ms.fdiv 1000) = true
  · simpa [hdate] using hin.mp hdate
  · simpa [hdate] using fun hfirst => Int.not_lt.mp fun hlast => hdate (hin.mpr ⟨hfirst, hlast⟩)

theorem Dated.bounds {ms : Int} (h : Dated ms) :
    -9000000000000000 < ms ∧ ms < 9000000000000000 := by
  have h := dated_iff.mp h
  simp only [Instant.firstSecond, Instant.lastSecond] at h
  omega

namespace Instant

theorem toNanos_ofMillis (ms : Int) : (ofMillis ms).toNanos = ms * 1000000 := by
  simp only [ofMillis, toNanos, nanosPerSecond,
    Int.fdiv_eq_ediv_of_nonneg ms (by decide : (0 : Int) ≤ 1000)]
  omega

theorem nanos_ofMillis_lt (ms : Int) : (ofMillis ms).nanos < 1000000000 := by
  simp only [ofMillis, Int.fdiv_eq_ediv_of_nonneg ms (by decide : (0 : Int) ≤ 1000)]
  omega

/-- Without leap seconds instants are ordered by their nanoseconds from 1970. -/
theorem before_iff {i j : Instant} (hi : i.nanos < 1000000000) (hj : j.nanos < 1000000000) :
    i.before j = true ↔ i.toNanos < j.toNanos := by
  simp only [before, toNanos, nanosPerSecond, Bool.or_eq_true, Bool.and_eq_true,
    decide_eq_true_eq, beq_iff_eq]
  omega

/-- An instant that can be taken back by a span is that many nanoseconds earlier. -/
theorem minus?_spec {i j : Instant} {s : Span} (h : i.minus? s = some j) :
    j.nanos < 1000000000 ∧ j.toNanos = i.toNanos - s.nanos := by
  unfold minus? at h
  dsimp only at h
  split at h
  · obtain rfl := Option.some.inj h
    simp only [toNanos, nanosPerSecond,
      Int.fdiv_eq_ediv_of_nonneg _ (by decide : (0 : Int) ≤ 1000000000)]
    omega
  · cases h

/-- An instant whose date is in range, outside of leap seconds. -/
structure IsDate (i : Instant) : Prop where
  inRange : inRange i.seconds = true
  nanos_lt : i.nanos < 1000000000

theorem isDate_ofMillis {ms : Int} (h : Dated ms) : (ofMillis ms).IsDate := by
  refine ⟨?_, nanos_ofMillis_lt ms⟩
  unfold Dated ofMillis? at h
  split at h
  · next hin => exact hin
  · cases h

/-- The range of dates, in nanoseconds. -/
theorem IsDate.bounds {i : Instant} (h : i.IsDate) :
    firstSecond * nanosPerSecond ≤ i.toNanos ∧
      i.toNanos < (lastSecond + 1) * nanosPerSecond := by
  obtain ⟨hin, hnanos⟩ := h
  simp only [Instant.inRange, Bool.and_eq_true, decide_eq_true_eq] at hin
  simp only [toNanos, nanosPerSecond]
  omega

/-- Between dates more than a limit has passed when that many nanoseconds have,
if the limit leads to a date or is longer than any. -/
theorem elapsed?_eq_some {i now : Instant} (hi : i.IsDate) (hnow : now.IsDate) {limit : Span}
    (hlimit : longestSpan.nanos < limit.nanos ∨ (now.minus? limit).isSome = true) :
    i.elapsed? now limit = some (decide (i.toNanos < now.toNanos - limit.nanos)) := by
  unfold elapsed?
  split
  · next hlong =>
    have hi := hi.bounds
    have hnow := hnow.bounds
    have hspan : longestSpan.nanos = 9223372036854775807000000 := rfl
    simp only [firstSecond, lastSecond, nanosPerSecond] at hi hnow
    have hnot : ¬ i.toNanos < now.toNanos - (limit.nanos : Int) := by omega
    rw [decide_eq_false hnot]
  · next hshort =>
    obtain ⟨cutoff, hcutoff⟩ := Option.isSome_iff_exists.mp (hlimit.resolve_left hshort)
    obtain ⟨hnanos, htotal⟩ := minus?_spec hcutoff
    have hbefore := before_iff hi.nanos_lt hnanos
    rw [htotal] at hbefore
    rw [hcutoff, Option.map_some]
    exact congrArg some (Bool.eq_iff_iff.mpr (hbefore.trans decide_eq_true_iff.symm))

/-- Whether a limit can be measured at a reading: it leads to a date in range,
or it is so long that it never passes. -/
def Measures (limit : Span) (now : Int) : Prop :=
  longestSpan.nanos < limit.nanos ∨ ((ofMillis now).minus? limit).isSome = true

theorem elapsed?_ofMillis {ms now : Int} (hms : Dated ms) (hnow : Dated now) {limit : Span}
    (hlimit : Measures limit now) : (ofMillis ms).elapsed? (ofMillis now) limit =
      some (decide (ms * 1000000 < now * 1000000 - limit.nanos)) := by
  rw [elapsed?_eq_some (isDate_ofMillis hms) (isDate_ofMillis hnow) hlimit, toNanos_ofMillis,
    toNanos_ofMillis]

end Instant

end Time

namespace Ledger

/-- Between dates in range the cutoff is the difference. -/
theorem lt_cutoff_iff {now t : Int} (hnow : Time.Dated now) (ht : Time.Dated t)
    (age : Time.Span) : t < cutoff now age ↔ t < now - age.toMillis := by
  have hnow := hnow.bounds
  have ht := ht.bounds
  simp only [cutoff, Bounds.minInt64, Bounds.maxInt64]
  omega

end Ledger

namespace Row

/-- A row that passes its check has dates in range, and its request shows when
it was submitted. -/
theorem dates_of_check {row : Row} {r : PendingRequest} (h : row.check = .ok r) :
    Time.Dated row.submitted ∧ r.submitted = Time.Instant.ofMillis row.submitted ∧
      ∀ t, row.lastTried = some t → Time.Dated t := by
  obtain ⟨_, _, -, -, hsubmitted, htried, rfl⟩ := exists_of_check h
  exact ⟨hsubmitted, rfl, htried⟩

end Row

end HearingRelay
