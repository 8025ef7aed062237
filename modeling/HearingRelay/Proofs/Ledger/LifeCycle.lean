import HearingRelay.Proofs.Ledger.WellFormed

/-!
The life of a row. A call deletes a completed row that is past its retention,
or leaves a row that carries the same event, whose status made one of five
moves or none, whose failures are counted, and whose mark of an incident stays.
A call that answers with no change leaves the whole ledger as it was.
-/

namespace HearingRelay

inductive Status.Moves : Status → Status → Prop
  | taken : Moves .pending .processing
  | completed : Moves .processing .completed
  | givenUp : Moves .processing .exception
  | freed : Moves .processing .pending
  | requeued : Moves .exception .pending

def StoreCall.tellsNoChange : (c : StoreCall) → c.Answer → Bool
  | .create .., _ => false
  | .claim .., claimed => claimed.isNone
  | .markProcessing .., applied => !applied
  | .markCompleted .., applied => !applied
  | .markException .., applied => !applied
  | .markPendingWithRetry .., applied => !applied
  | .requeueException .., applied => !applied
  | .rowsOfHearing _, _ => true
  | .escalationCandidates _, _ => true
  | .markForEscalation .., changed => changed == 0
  | .deleteCompleted _, changed => changed == 0
  | .reclaimStuck .., changed => changed == 0

/-- The failures counted for a row. A row that is not there has none. -/
def Ledger.retriesOf (l : Ledger) (id : Int) : Int := ((l.row? id).map (·.retryCount)).getD 0

namespace Row

/-- A row that is freed has failed once more. -/
def failures (r q : Row) : Int := if r.is .processing && q.is .pending then 1 else 0

/-- What a call may make of a row that it does not delete. -/
structure LivesOn (r q : Row) : Prop where
  event : r.SameEvent q
  status : q.status = r.status ∨ ∃ s t : Status, r.status = s.name ∧ q.status = t.name ∧ s.Moves t
  retryCount : q.retryCount = r.retryCount + r.failures q
  incident : r.incident = true → q.incident = true

/-- What any number of calls may make of a row that none of them deletes. -/
structure Ages (r q : Row) : Prop where
  event : r.SameEvent q
  retryCount_le : r.retryCount ≤ q.retryCount
  incident : r.incident = true → q.incident = true
  completed : r.is .completed = true → q.is .completed = true

theorem Ages.refl (r : Row) : r.Ages r := ⟨.refl r, Int.le_refl _, fun hr => hr, fun hr => hr⟩

theorem Ages.trans {r q t : Row} (h : r.Ages q) (h' : q.Ages t) : r.Ages t where
  event := h.event.trans h'.event
  retryCount_le := Int.le_trans h.retryCount_le h'.retryCount_le
  incident := fun hr => h'.incident (h.incident hr)
  completed := fun hr => h'.completed (h.completed hr)

theorem failures_nonneg (r q : Row) : 0 ≤ r.failures q := by
  unfold failures
  split <;> omega

/-- A row that was not in progress has not failed. -/
theorem failures_of_is {r : Row} {s : Status} (hr : r.is s = true) (hs : s ≠ .processing)
    (q : Row) : r.failures q = 0 := by
  simp [failures, Row.is_eq_false hr hs]

/-- A row that does not wait has not failed. -/
theorem failures_of_not_pending {q : Row} (hq : q.is .pending = false) (r : Row) :
    r.failures q = 0 := by
  simp [failures, hq]

theorem failures_freed {r q : Row} (hr : r.is .processing = true) (hq : q.is .pending = true) :
    r.failures q = 1 := by
  simp [failures, hr, hq]

/-- A row in the status that it had has not failed. -/
theorem failures_of_status {r q : Row} (h : q.status = r.status) : r.failures q = 0 := by
  have hsame : q.is .pending = r.is .pending := by simp [is, h]
  cases hprocessing : r.is .processing with
  | false => simp [failures, hprocessing]
  | true => simp [failures, hsame, Row.is_eq_false hprocessing]

end Row

namespace Ledger

theorem Passage.livesOn {l : Ledger} {now : Int} {c : StoreCall} {r q : Row}
    (h : Passage l now c r q) : r.LivesOn q := by
  have hevent := h.sameEvent
  have hmoves : ∀ {s t : Status}, r.is s = true → q.status = t.name → s.Moves t →
      q.status = r.status ∨ ∃ s t : Status, r.status = s.name ∧ q.status = t.name ∧ s.Moves t :=
    fun hs ht hmove => Or.inr ⟨_, _, (Row.is_iff r _).mp hs, ht, hmove⟩
  have hsame : r.failures q = 0 → q.retryCount = r.retryCount →
      q.retryCount = r.retryCount + r.failures q := by omega
  have hfreed : r.failures q = 1 → q.retryCount = r.retryCount + 1 →
      q.retryCount = r.retryCount + r.failures q := by omega
  cases h with
  | stays => exact ⟨hevent, Or.inl rfl, hsame (Row.failures_of_status rfl) rfl, id⟩
  | flagged => exact ⟨hevent, Or.inl rfl, hsame (Row.failures_of_status rfl) rfl, fun _ => rfl⟩
  | claimed wait deployment r h =>
    have hpending := (pending_of_isEligible (mem_of_oldestEligible? h).2).1
    exact ⟨hevent, hmoves hpending rfl .taken,
      hsame (Row.failures_of_is hpending (by decide) _) rfl, id⟩
  | taken deployment r hpending =>
    exact ⟨hevent, hmoves hpending rfl .taken,
      hsame (Row.failures_of_is hpending (by decide) _) rfl, id⟩
  | completed deployment r hprocessing =>
    exact ⟨hevent, hmoves hprocessing rfl .completed,
      hsame (Row.failures_of_not_pending (by simp) r) rfl, id⟩
  | givenUp deployment r hprocessing =>
    exact ⟨hevent, hmoves hprocessing rfl .givenUp,
      hsame (Row.failures_of_not_pending (by simp) r) rfl, id⟩
  | retried deployment r hprocessing =>
    exact ⟨hevent, hmoves hprocessing rfl .freed,
      hfreed (Row.failures_freed hprocessing (by simp)) rfl, id⟩
  | requeued deployment r hexception =>
    exact ⟨hevent, hmoves hexception rfl .requeued,
      hsame (Row.failures_of_is hexception (by decide) _) rfl, id⟩
  | reclaimed timeout deployment r hstuck =>
    have hprocessing : r.is .processing = true := (Bool.and_eq_true_iff.mp hstuck).1
    exact ⟨hevent, hmoves hprocessing rfl .freed,
      hfreed (Row.failures_freed hprocessing (by simp)) rfl, id⟩

/-- A row goes through a call under its identifier, unless the call deletes it. -/
theorem row?_step {l : Ledger} (h : l.WellFormed) (now : Int) (c : StoreCall) {r : Row}
    (hr : r ∈ l.rows) : (l.step now c).1.row? r.id = l.rowAfter now c r := by
  cases hpass : l.rowAfter now c r with
  | some q =>
    rw [← (passage_of_rowAfter hpass).sameEvent.id]
    exact row?_of_mem (step_ids_increase h now c) (mem_step_of_rowAfter h.ids_increase hr hpass)
  | none =>
    cases hrow : (l.step now c).1.row? r.id with
    | none => rfl
    | some q =>
      obtain ⟨hq, hid⟩ := mem_of_row? hrow
      rcases (mem_step_rows h.ids_increase).mp hq with ⟨p, hp, hpassed⟩ | hnew
      · have hsame := (passage_of_rowAfter hpassed).sameEvent.id
        rw [eq_of_id_eq h.ids_increase hp hr (hsame.symm.trans hid), hpass] at hpassed
        cases hpassed
      · have hnext := (added_spec hnew).1
        have hle := h.id_le r hr
        omega

theorem Passage.ages {l : Ledger} {now : Int} {c : StoreCall} {r q : Row}
    (h : Passage l now c r q) : r.Ages q := by
  obtain ⟨hevent, _, hretry, hincident⟩ := h.livesOn
  have hfailures := r.failures_nonneg q
  exact ⟨hevent, by omega, hincident, h.keeps_completed⟩

/-- An identifier that was given out and has no row any more gets none again. -/
theorem row?_after_eq_none {l : Ledger} (h : l.WellFormed) {id : Int} (hid : id ≤ l.lastId)
    (hnone : l.row? id = none) (history : List (Int × StoreCall)) :
    (l.after history).row? id = none := by
  induction history generalizing l with
  | nil => exact hnone
  | cons call rest ih =>
    refine ih (step_wellFormed h call.1 call.2) ?_ ?_
    · rw [step_lastId]
      omega
    · refine List.find?_eq_none.mpr fun q hq => ?_
      rcases (mem_step_rows h.ids_increase).mp hq with ⟨r, hr, hpass⟩ | hnew
      · have hsame := (passage_of_rowAfter hpass).sameEvent.id
        simpa [hsame] using row?_eq_none hnone r hr
      · have hnext := (added_spec hnew).1
        simp only [beq_iff_eq]
        omega

/-- Over a history a row ages under its identifier, or is deleted for good. -/
theorem ages_after {l : Ledger} (h : l.WellFormed) {r : Row} (hr : r ∈ l.rows)
    (history : List (Int × StoreCall)) :
    (l.after history).row? r.id = none ∨
      ∃ q, (l.after history).row? r.id = some q ∧ r.Ages q := by
  induction history generalizing l r with
  | nil => exact Or.inr ⟨r, row?_of_mem h.ids_increase hr, .refl r⟩
  | cons call rest ih =>
    have hwf := step_wellFormed h call.1 call.2
    have hrow := row?_step h call.1 call.2 hr
    cases hpass : l.rowAfter call.1 call.2 r with
    | none =>
      refine Or.inl (row?_after_eq_none hwf ?_ (hrow.trans hpass) rest)
      have hle := h.id_le r hr
      rw [step_lastId]
      omega
    | some q =>
      have hages := (passage_of_rowAfter hpass).ages
      rw [← hages.event.id]
      rcases ih hwf (mem_step_of_rowAfter h.ids_increase hr hpass) with hgone | ⟨t, ht, hlater⟩
      · exact Or.inl hgone
      · exact Or.inr ⟨t, ht, hages.trans hlater⟩

section NoChange

variable {l : Ledger}

theorem change_eq_self {id : Int} {applies : Row → Bool} {f : Row → Row}
    (h : (l.change id applies f).2 = false) : (l.change id applies f).1 = l := by
  unfold change at h ⊢
  cases hrow : l.row? id with
  | none => rfl
  | some r =>
    rw [hrow] at h
    by_cases ha : applies r = true
    · cases hstore : l.store? (f r) with
      | none => simp [ha, hstore]
      | some l' => simp [ha, hstore] at h
    · simp [ha]

theorem changeAll_eq_self {applies : Row → Bool} {f : Row → Row}
    (h : (l.changeAll applies f).2 = 0) : (l.changeAll applies f).1 = l := by
  have hnone : ∀ r ∈ l.rows, applies r = false := by
    simpa [changeAll] using h
  have hsame := Row.map_changeIf_eq_self (f := f) hnone
  unfold changeAll
  exact congrArg (Ledger.mk · l.lastId) hsame

theorem deleteCompleted_eq_self {now : Int} {threshold : Time.Span}
    (h : (l.deleteCompleted now threshold).2 = 0) : (l.deleteCompleted now threshold).1 = l := by
  have hnone : ∀ r ∈ l.rows, isPastRetention now threshold r = false := by
    simpa [deleteCompleted] using h
  have hsame : l.rows.filter (fun r => !isPastRetention now threshold r) = l.rows :=
    List.filter_eq_self.mpr fun r hr => by simp [hnone r hr]
  unfold deleteCompleted
  exact congrArg (Ledger.mk · l.lastId) hsame

theorem claim_eq_self {now : Int} {wait : Time.Span} {deployment : String}
    (h : (l.claim now wait deployment).2 = .ok none) : (l.claim now wait deployment).1 = l := by
  unfold claim at h ⊢
  cases holdest : l.oldestEligible? now wait with
  | none => rfl
  | some r =>
    rw [holdest] at h
    cases hstore : l.store? (begin now deployment r) with
    | none => simp [hstore]
    | some l' =>
      simp only [hstore] at h
      cases hread : (begin now deployment r).read <;> simp [hread, Except.map] at h

/-- A call that tells of no change leaves the ledger as it was. -/
theorem step_eq_self {now : Int} {c : StoreCall} {answer : c.Answer}
    (hanswer : (l.step now c).2 = .ok answer) (h : c.tellsNoChange answer = true) :
    (l.step now c).1 = l := by
  have hchange : ∀ {id : Int} {applies : Row → Bool} {f : Row → Row} {applied : Bool},
      (StoreCall.succeed (l.change id applies f)).2 = .ok applied → (!applied) = true →
        (l.change id applies f).1 = l := by
    intro id applies f applied happlied hnot
    refine change_eq_self ?_
    rw [Except.ok.inj happlied]
    simpa using hnot
  have hcount : ∀ {changed : Ledger × Nat} {n : Nat},
      (StoreCall.succeed changed).2 = .ok n → (n == 0) = true → changed.2 = 0 := by
    intro changed n hn hzero
    rw [Except.ok.inj hn]
    simpa using hzero
  cases c with
  | create => cases h
  | claim wait deployment =>
    obtain rfl := Option.isNone_iff_eq_none.mp h
    exact claim_eq_self hanswer
  | markProcessing id deployment => exact hchange hanswer h
  | markCompleted id deployment => exact hchange hanswer h
  | markException id deployment => exact hchange hanswer h
  | markPendingWithRetry id deployment => exact hchange hanswer h
  | requeueException id deployment => exact hchange hanswer h
  | rowsOfHearing hearing => rfl
  | escalationCandidates threshold => rfl
  | markForEscalation threshold deployment => exact changeAll_eq_self (hcount hanswer h)
  | deleteCompleted threshold => exact deleteCompleted_eq_self (hcount hanswer h)
  | reclaimStuck timeout deployment => exact changeAll_eq_self (hcount hanswer h)

end NoChange

/-- The life of a row. In every ledger that calls lead to, every call at every
clock reading either deletes a row, which is completed and past its retention,
or leaves a row with the same event: its status stays or makes a move, its
failures are counted when it is freed and only then, and an incident stays one.
A call that tells of no change leaves the whole ledger as it was. -/
theorem row_life_cycle (history : List (Int × StoreCall)) (now : Int) (c : StoreCall) :
    let l := empty.after history
    let stepped := l.step now c
    (∀ r ∈ l.rows,
      (stepped.1.row? r.id = none ∧ r.is .completed = true ∧
        ∃ threshold, c = .deleteCompleted threshold ∧ r.submitted ≤ cutoff now threshold) ∨
      ∃ q, stepped.1.row? r.id = some q ∧ q.id = r.id ∧ q.hearing = r.hearing ∧
        q.eventType = r.eventType ∧ q.version = r.version ∧ q.message = r.message ∧
        q.submitted = r.submitted ∧
        (q.status = r.status ∨
          ∃ s t : Status, r.status = s.name ∧ q.status = t.name ∧ s.Moves t) ∧
        q.retryCount = r.retryCount + (if r.is .processing && q.is .pending then 1 else 0) ∧
        (r.incident = true → q.incident = true)) ∧
      ∀ answer, stepped.2 = .ok answer → c.tellsNoChange answer = true → stepped.1 = l := by
  intro l stepped
  have hwf : l.WellFormed := after_wellFormed empty_wellFormed history
  refine ⟨fun r hr => ?_, fun answer hanswer h => step_eq_self hanswer h⟩
  have hrow : stepped.1.row? r.id = l.rowAfter now c r := row?_step hwf now c hr
  cases hpass : l.rowAfter now c r with
  | none =>
    obtain ⟨threshold, hc, hpast⟩ := pastRetention_of_rowAfter_eq_none hpass
    simp only [isPastRetention, Bool.and_eq_true, decide_eq_true_eq] at hpast
    exact Or.inl ⟨hrow.trans hpass, hpast.1, threshold, hc, hpast.2⟩
  | some q =>
    obtain ⟨hevent, hstatus, hretry, hincident⟩ := (passage_of_rowAfter hpass).livesOn
    exact Or.inr ⟨q, hrow.trans hpass, hevent.id, hevent.hearing, hevent.eventType, hevent.version,
      hevent.message, hevent.submitted, hstatus, hretry, hincident⟩

end Ledger

end HearingRelay
