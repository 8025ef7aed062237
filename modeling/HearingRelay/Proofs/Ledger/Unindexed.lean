import HearingRelay.Ledger.Call
import Mathlib.Data.List.Nodup

/-!
The ledger without its index. Claims are guarded by two rules on hearings, and
the index behind them refuses a second row in progress for one hearing. Here
every call is made with no index at all. Both ledgers take the same steps with
the same answers: what the index refuses, the rules on hearings refuse before.
-/

namespace HearingRelay

namespace Row

theorem is_iff (r : Row) (s : Status) : r.is s = true ↔ r.status = s.name := by
  simp [is]

/-- A row is in one status at most. -/
theorem status_unique {r : Row} {s t : Status} (hs : r.is s = true) (ht : r.is t = true) :
    s = t := by
  rw [is_iff] at hs ht
  exact Status.name_injective (hs.symm.trans ht)

theorem is_eq_false {r : Row} {s t : Status} (hs : r.is s = true) (hne : s ≠ t) :
    r.is t = false := by
  cases ht : r.is t with
  | false => rfl
  | true => exact absurd (status_unique hs ht) hne

/-- A row whose status has just been written is in that status alone. -/
theorem is_of_status {r : Row} {s : Status} (h : r.status = s.name) (t : Status) :
    r.is t = decide (s = t) := by
  rw [is, h]
  cases s <;> cases t <;> decide

end Row

namespace Ledger

def retry (now : Int) (deployment : String) (r : Row) : Row :=
  { finish .pending now deployment r with retryCount := r.retryCount + 1 }

def requeue (deployment : String) (r : Row) : Row :=
  { r with status := Status.pending.name, deployment := some deployment }

@[simp] theorem is_begin (now : Int) (deployment : String) (r : Row) (t : Status) :
    (begin now deployment r).is t = decide (.processing = t) := Row.is_of_status rfl t

@[simp] theorem is_finish (s : Status) (now : Int) (deployment : String) (r : Row) (t : Status) :
    (finish s now deployment r).is t = decide (s = t) := Row.is_of_status rfl t

@[simp] theorem is_retry (now : Int) (deployment : String) (r : Row) (t : Status) :
    (retry now deployment r).is t = decide (.pending = t) := Row.is_of_status rfl t

@[simp] theorem is_requeue (deployment : String) (r : Row) (t : Status) :
    (requeue deployment r).is t = decide (.pending = t) := Row.is_of_status rfl t

def changeUnindexed (l : Ledger) (id : Int) (applies : Row → Bool) (f : Row → Row) :
    Ledger × Bool :=
  match l.row? id with
  | none => (l, false)
  | some r => if applies r then (l.replace (f r), true) else (l, false)

def claimUnindexed (l : Ledger) (now : Int) (wait : Time.Span) (deployment : String) :
    Ledger × Except StoreError (Option PendingRequest) :=
  match l.oldestEligible? now wait with
  | none => (l, .ok none)
  | some r => (l.replace (begin now deployment r), (begin now deployment r).read.map some)

/-- A step of the ledger with no index behind it. -/
def stepUnindexed (l : Ledger) (now : Int) :
    (c : StoreCall) → Ledger × Except StoreError c.Answer
  | .create hearing eventType message deployment =>
    l.create now hearing eventType message deployment
  | .claim wait deployment => l.claimUnindexed now wait deployment
  | .markProcessing id deployment =>
    StoreCall.succeed (l.changeUnindexed id (fun r => r.is .pending && !l.isBlocked r)
      (begin now deployment))
  | .markCompleted id deployment =>
    StoreCall.succeed (l.changeUnindexed id (·.is .processing) (finish .completed now deployment))
  | .markException id deployment =>
    StoreCall.succeed (l.changeUnindexed id (·.is .processing) (finish .exception now deployment))
  | .markPendingWithRetry id deployment =>
    StoreCall.succeed (l.changeUnindexed id (·.is .processing) (retry now deployment))
  | .requeueException id deployment =>
    StoreCall.succeed (l.changeUnindexed id (·.is .exception) (requeue deployment))
  | .rowsOfHearing hearing => (l, l.findByHearing hearing)
  | .escalationCandidates threshold => (l, l.escalationCandidates now threshold)
  | .markForEscalation threshold deployment =>
    StoreCall.succeed (l.markForEscalation now threshold deployment)
  | .deleteCompleted threshold => StoreCall.succeed (l.deleteCompleted now threshold)
  | .reclaimStuck timeout deployment => StoreCall.succeed (l.reclaimStuck now timeout deployment)

def afterUnindexed (l : Ledger) (history : List (Int × StoreCall)) : Ledger :=
  history.foldl (fun l p => (l.stepUnindexed p.1 p.2).1) l

theorem mem_of_oldestEligible? {l : Ledger} {now : Int} {wait : Time.Span} {r : Row}
    (h : l.oldestEligible? now wait = some r) :
    r ∈ l.rows ∧ l.isEligible now wait r = true := by
  have hmem : r ∈ Sorting.sort olderOrSame (l.rows.filter (l.isEligible now wait)) :=
    List.mem_of_mem_head? h
  rw [Sorting.mem_sort, List.mem_filter] at hmem
  exact hmem

/-- A row that may be taken waits, and nothing of its hearing is in its way. -/
theorem pending_of_isEligible {l : Ledger} {now : Int} {wait : Time.Span} {r : Row}
    (h : l.isEligible now wait r = true) : r.is .pending = true ∧ l.isBlocked r = false := by
  simp only [isEligible, Bool.and_eq_true, Bool.not_eq_true'] at h
  exact ⟨h.1.1, h.2⟩

/-- The index lets every row pass that the rules on hearings admit. -/
theorem store?_begin {l : Ledger} {r : Row} (h : l.isBlocked r = false) (now : Int)
    (deployment : String) :
    l.store? (begin now deployment r) = some (l.replace (begin now deployment r)) := by
  simp only [isBlocked, List.any_eq_false, Bool.and_eq_true, Bool.or_eq_true] at h
  have hfree : l.collides (begin now deployment r) = false := by
    simp only [collides, List.any_eq_false, Bool.and_eq_true]
    rintro q hq ⟨⟨_, hhearing⟩, hprocessing⟩
    exact h q hq ⟨hhearing, Or.inl hprocessing⟩
  simp [store?, hfree]

/-- Rows that are not put in progress are stored without a look at the index. -/
theorem store?_of_status {l : Ledger} {r : Row} {s : Status} (h : r.status = s.name)
    (hs : s ≠ .processing) : l.store? r = some (l.replace r) := by
  simp [store?, Row.is_of_status h, hs]

theorem change_eq_changeUnindexed {l : Ledger} {applies : Row → Bool} {f : Row → Row}
    (hindex : ∀ r, applies r = true → l.store? (f r) = some (l.replace (f r))) (id : Int) :
    l.change id applies f = l.changeUnindexed id applies f := by
  unfold change changeUnindexed
  cases l.row? id with
  | none => rfl
  | some r =>
    by_cases ha : applies r = true
    · simp only [ha, if_true, hindex r ha]
    · simp only [ha, Bool.false_eq_true, if_false]

theorem claim_eq_claimUnindexed (l : Ledger) (now : Int) (wait : Time.Span)
    (deployment : String) : l.claim now wait deployment = l.claimUnindexed now wait deployment := by
  unfold claim claimUnindexed
  cases holdest : l.oldestEligible? now wait with
  | none => rfl
  | some r =>
    have hfree := (pending_of_isEligible (mem_of_oldestEligible? holdest).2).2
    simp only [store?_begin hfree]

/-- The index never decides how a call ends. -/
theorem step_eq_stepUnindexed (l : Ledger) (now : Int) (c : StoreCall) :
    l.step now c = l.stepUnindexed now c := by
  have aux : ∀ (id : Int) {applies : Row → Bool} {f : Row → Row} {s : Status},
      (∀ r, (f r).status = s.name) → s ≠ .processing →
        StoreCall.succeed (l.change id applies f) =
          StoreCall.succeed (l.changeUnindexed id applies f) := by
    intro id applies f s hstatus hs
    rw [change_eq_changeUnindexed fun r _ => store?_of_status (hstatus r) hs]
  cases c with
  | claim wait deployment => exact claim_eq_claimUnindexed l now wait deployment
  | markProcessing id deployment =>
    have hindex : ∀ r, (r.is .pending && !l.isBlocked r) = true →
        l.store? (begin now deployment r) = some (l.replace (begin now deployment r)) := by
      intro r ha
      simp only [Bool.and_eq_true, Bool.not_eq_true'] at ha
      exact store?_begin ha.2 now deployment
    exact congrArg StoreCall.succeed (change_eq_changeUnindexed hindex id)
  | markCompleted id deployment => exact aux id (s := .completed) (fun r => rfl) (by decide)
  | markException id deployment => exact aux id (s := .exception) (fun r => rfl) (by decide)
  | markPendingWithRetry id deployment => exact aux id (s := .pending) (fun r => rfl) (by decide)
  | requeueException id deployment => exact aux id (s := .pending) (fun r => rfl) (by decide)
  | create hearing eventType message deployment => rfl
  | rowsOfHearing hearing => rfl
  | escalationCandidates threshold => rfl
  | markForEscalation threshold deployment => rfl
  | deleteCompleted threshold => rfl
  | reclaimStuck timeout deployment => rfl

theorem after_eq_afterUnindexed (l : Ledger) (history : List (Int × StoreCall)) :
    l.after history = l.afterUnindexed history := by
  induction history generalizing l with
  | nil => rfl
  | cons call rest ih =>
    change (l.step call.1 call.2).1.after rest =
      (l.stepUnindexed call.1 call.2).1.afterUnindexed rest
    rw [step_eq_stepUnindexed, ih]

end Ledger

end HearingRelay
