import HearingRelay.Proofs.Ledger.LifeCycle

/-!
Rows that have not been tried yet at a clock reading. A claim takes such a row,
for every wait, because no cutoff lies past the reading. The time of the try is
kept when the row waits again, so the calls of a re-drive bring no row back
among them at that reading.
-/

namespace HearingRelay

def Row.untried (now : Int) (r : Row) : Bool :=
  r.is .pending && r.lastTried.all fun t => t < now

namespace Ledger

def redrives : StoreCall → Bool
  | .claim .. | .markCompleted .. | .markException .. | .markPendingWithRetry .. => true
  | _ => false

def inProgress (l : Ledger) (id : Int) : Bool := (l.row? id).any (·.is .processing)

section Untried

variable {l : Ledger} {now : Int} {wait : Time.Span} {c : StoreCall} {r q : Row}

theorem cutoff_le (hnow : Bounds.minInt64 ≤ now) (age : Time.Span) : cutoff now age ≤ now := by
  simp only [cutoff, Bounds.maxInt64]
  omega

theorem untried_of_isEligible (hnow : Bounds.minInt64 ≤ now)
    (h : l.isEligible now wait r = true) : r.untried now = true := by
  simp only [isEligible, Bool.and_eq_true] at h
  obtain ⟨⟨hpending, hwaited⟩, _⟩ := h
  refine Bool.and_eq_true_iff.mpr ⟨hpending, ?_⟩
  cases htried : r.lastTried with
  | none => rfl
  | some t =>
    have hlt : t < cutoff now wait := by simpa [htried] using hwaited
    have hle := cutoff_le hnow wait
    simp only [Option.all_some, decide_eq_true_eq]
    omega

/-- A row is untried after a call of a re-drive only if it stayed as it was. -/
theorem Passage.eq_of_untried (h : Passage l now c r q) (hc : redrives c = true)
    (hq : q.untried now = true) : q = r := by
  cases h with
  | stays => rfl
  | claimed => simp [Row.untried] at hq
  | completed => simp [Row.untried] at hq
  | givenUp => simp [Row.untried] at hq
  | retried =>
    -- The time of the last try is at least the reading now.
    have hlt := of_decide_eq_true (Bool.and_eq_true_iff.mp hq).2
    exact absurd hlt (Int.not_lt.mpr (Int.le_max_right _ _))
  | taken => cases hc
  | requeued => cases hc
  | flagged => cases hc
  | reclaimed => cases hc

theorem added_of_redrives (hc : redrives c = true) : l.added now c = [] := by
  cases c with
  | create => cases hc
  | _ => rfl

variable {p : Row → Bool}

/-- The calls of a re-drive make no row untried. -/
theorem countP_untried_step_le (hinc : l.IdsIncrease) (hc : redrives c = true) :
    (l.step now c).1.rows.countP (fun r => p r && r.untried now) ≤
      l.rows.countP fun r => p r && r.untried now := by
  have hle := countP_step_le_of_passage hinc now c (p := fun r => p r && r.untried now) ?_
  · rwa [added_of_redrives hc, List.countP_nil, Nat.add_zero] at hle
  · intro r q hpass hq
    rwa [hpass.eq_of_untried hc (Bool.and_eq_true_iff.mp hq).2] at hq

/-- A claim takes a row from the untried ones. -/
theorem countP_untried_claim_lt (hinc : l.IdsIncrease) (hnow : Bounds.minInt64 ≤ now)
    (h : l.oldestEligible? now wait = some r) (hp : p r = true) (deployment : String) :
    (l.step now (.claim wait deployment)).1.rows.countP (fun r => p r && r.untried now) <
      l.rows.countP fun r => p r && r.untried now := by
  obtain ⟨hr, heligible⟩ := mem_of_oldestEligible? h
  refine countP_step_lt_of_passage hinc (added_of_redrives rfl) ?_ hr
    (rowAfter_claim h deployment) ?_ ?_
  · intro r q hpass hq
    rwa [hpass.eq_of_untried rfl (Bool.and_eq_true_iff.mp hq).2] at hq
  · rw [hp, untried_of_isEligible hnow heligible]
    rfl
  · simp [Row.untried]

/-- A row that a claim takes comes into progress by it. -/
theorem inProgress_claim (hwf : l.WellFormed) (h : l.oldestEligible? now wait = some r)
    (deployment : String) : l.inProgress r.id = false ∧
      (l.step now (.claim wait deployment)).1.inProgress r.id = true := by
  obtain ⟨hr, heligible⟩ := mem_of_oldestEligible? h
  have hpending := (pending_of_isEligible heligible).1
  unfold inProgress
  rw [row?_of_mem hwf.ids_increase hr, row?_step hwf now _ hr, rowAfter_claim h deployment]
  exact ⟨Row.is_eq_false hpending (by decide), by simp⟩

/-- The calls of a re-drive bring the rows into progress that claims take, and no others. -/
theorem inProgress_step_iff (hwf : l.WellFormed) (hc : redrives c = true) {id : Int} :
    (l.inProgress id = false ∧ (l.step now c).1.inProgress id = true) ↔
      ∃ wait deployment r, c = .claim wait deployment ∧ l.oldestEligible? now wait = some r ∧
        r.id = id := by
  constructor
  · rintro ⟨hbefore, hafter⟩
    obtain ⟨q, hrow, hprocessing⟩ := (Option.any_eq_true _ _).mp hafter
    obtain ⟨hq, rfl⟩ := mem_of_row? hrow
    rcases (mem_step_rows hwf.ids_increase).mp hq with ⟨r, hr, hpass⟩ | hnew
    · have hpassage := passage_of_rowAfter hpass
      rw [hpassage.sameEvent.id] at hbefore ⊢
      rcases hpassage.processing hprocessing with hstill | ⟨_, htakes⟩
      · rw [inProgress, row?_of_mem hwf.ids_increase hr, Option.any_some, hstill] at hbefore
        cases hbefore
      · cases c with
        | claim wait deployment => exact ⟨wait, deployment, r, rfl, htakes, rfl⟩
        | markProcessing => cases hc
        | _ => exact htakes.elim
    · rw [added_of_redrives hc] at hnew
      cases hnew
  · rintro ⟨wait, deployment, r, rfl, hrow, rfl⟩
    exact inProgress_claim hwf hrow deployment

end Untried

end Ledger

end HearingRelay
