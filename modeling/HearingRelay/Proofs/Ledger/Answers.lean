import HearingRelay.Proofs.Ledger.Columns
import HearingRelay.Proofs.Ledger.Identity
import HearingRelay.Proofs.Ledger.Untried

/-!
Calls that are answered. The failures of a row count exactly the calls that freed
it, and versions count creations, so while the counts fit 32 bits and the clock
shows dates in range every row can be read. What a call answers with is a row
that it has stored or rows that were stored before, so no call fails after it
has changed the ledger.
-/

namespace HearingRelay.Ledger

section Failures

variable {l : Ledger} {now : Int} {c : StoreCall} {id : Int} {q : Row}

def freesRow (l : Ledger) (now : Int) (c : StoreCall) (id : Int) : Bool :=
  l.inProgress id && ((l.step now c).1.row? id).any (·.is .pending)

def timesFreed (l : Ledger) (id : Int) : List (Int × StoreCall) → Nat
  | [] => 0
  | (now, c) :: rest => (if l.freesRow now c id then 1 else 0) + (l.step now c).1.timesFreed id rest

theorem retriesOf_of_row? (h : l.row? id = some q) : l.retriesOf id = q.retryCount := by
  simp [retriesOf, h]

/-- A row after a call has failed once more if the call freed it. -/
theorem retryCount_step (hwf : l.WellFormed) (hrow : (l.step now c).1.row? id = some q) :
    q.retryCount = l.retriesOf id + (if l.freesRow now c id then 1 else 0 : Nat) := by
  obtain ⟨hq, hid⟩ := mem_of_row? hrow
  rcases (mem_step_rows hwf.ids_increase).mp hq with ⟨r, hr, hpass⟩ | hnew
  · have hlives := (passage_of_rowAfter hpass).livesOn
    have hbefore : l.row? id = some r := by
      rw [← hid, hlives.event.id]
      exact row?_of_mem hwf.ids_increase hr
    have hfreed : l.freesRow now c id = (r.is .processing && q.is .pending) := by
      simp [freesRow, inProgress, hbefore, hrow]
    rw [retriesOf_of_row? hbefore, hfreed, hlives.retryCount, Row.failures]
    split <;> rfl
  · have hnext := (added_spec hnew).1
    have hbefore : l.row? id = none := row?_of_lastId_lt hwf (by omega)
    obtain ⟨_, _, _, _, _, rfl⟩ := exists_newRow_of_added hnew
    simp [retriesOf, freesRow, inProgress, hbefore, newRow]

/-- The failures of a row count the calls that freed it. -/
theorem retryCount_after (hwf : l.WellFormed) {history : List (Int × StoreCall)}
    (hrow : (l.after history).row? id = some q) :
    q.retryCount = l.retriesOf id + l.timesFreed id history := by
  induction history generalizing l with
  | nil => exact ((Int.add_zero _).trans (retriesOf_of_row? hrow)).symm
  | cons call rest ih =>
    obtain ⟨now, c⟩ := call
    have hrest := ih (step_wellFormed hwf now c) hrow
    suffices hstep : (l.step now c).1.retriesOf id =
        l.retriesOf id + (if l.freesRow now c id then 1 else 0 : Nat) by
      rw [hrest, hstep, timesFreed, Int.natCast_add, Int.add_assoc]
    cases hafter : (l.step now c).1.row? id with
    | some p => exact (retriesOf_of_row? hafter).trans (retryCount_step hwf hafter)
    | none =>
      -- A row that was deleted here would not be there at the end.
      have hbefore : l.row? id = none := by
        cases hr : l.row? id with
        | none => rfl
        | some r =>
          obtain ⟨hmem, hid⟩ := mem_of_row? hr
          have hle := hwf.id_le r hmem
          have hmono := l.lastId_le_step now c
          have hgone := row?_after_eq_none (step_wellFormed hwf now c) (by omega) hafter rest
          cases hgone.symm.trans hrow
      simp [retriesOf, freesRow, inProgress, hbefore, hafter]

theorem timesFreed_append (l : Ledger) (id : Int) (h₁ h₂ : List (Int × StoreCall)) :
    l.timesFreed id (h₁ ++ h₂) = l.timesFreed id h₁ + (l.after h₁).timesFreed id h₂ := by
  induction h₁ generalizing l with
  | nil => exact (Nat.zero_add _).symm
  | cons call rest ih =>
    obtain ⟨now, c⟩ := call
    rw [List.cons_append, timesFreed, timesFreed, ih, Nat.add_assoc]
    rfl

theorem frees_of_freesRow (hwf : l.WellFormed) (h : l.freesRow now c id = true) :
    c.frees = true := by
  obtain ⟨hbefore, hafter⟩ := Bool.and_eq_true_iff.mp h
  obtain ⟨r, hrow, hprocessing⟩ := (Option.any_eq_true _ _).mp hbefore
  obtain ⟨hr, rfl⟩ := mem_of_row? hrow
  rw [row?_step hwf now c hr] at hafter
  obtain ⟨q, hpass, hpending⟩ := (Option.any_eq_true _ _).mp hafter
  have hpassage := passage_of_rowAfter hpass
  have hcounted := hpassage.livesOn.retryCount
  have hle := hpassage.retryCount_le
  rw [Row.failures_freed hprocessing hpending] at hcounted
  by_contra hnot
  rw [if_neg hnot] at hle
  omega

/-- No row is freed more often than there are calls that may free rows. -/
theorem timesFreed_le (hwf : l.WellFormed) (id : Int) (history : List (Int × StoreCall)) :
    l.timesFreed id history ≤ history.countP (·.2.frees) := by
  induction history generalizing l with
  | nil => exact Nat.le_refl _
  | cons call rest ih =>
    obtain ⟨now, c⟩ := call
    have hrest := ih (step_wellFormed hwf now c)
    rw [timesFreed, List.countP_cons]
    by_cases hfreed : l.freesRow now c id = true
    · have hfrees := frees_of_freesRow hwf hfreed
      simp only [hfreed, hfrees, if_true]
      omega
    · simp only [if_neg hfreed]
      omega

end Failures

/-- Histories at readings whose dates are in range, with fewer than 2³¹ creations
and no row freed 2³¹ times. -/
structure InBounds (history : List (Int × StoreCall)) : Prop where
  dated : ∀ call ∈ history, Time.Dated call.1
  creations : history.countP (·.2.adds) < 2 ^ 31
  freed : ∀ id, empty.timesFreed id history < 2 ^ 31

section Answers

variable {history before rest : List (Int × StoreCall)} {l : Ledger}

theorem InBounds.of_append (h : InBounds (before ++ rest)) : InBounds before where
  dated := fun call hcall => h.dated call (List.mem_append_left _ hcall)
  creations := by
    have hcreations := h.creations
    rw [List.countP_append] at hcreations
    omega
  freed := by
    intro id
    have hfreed := h.freed id
    rw [timesFreed_append] at hfreed
    omega

theorem retryCount_eq_timesFreed {row : Row} (hrow : row ∈ (empty.after history).rows) :
    row.retryCount = empty.timesFreed row.id history := by
  have hwf := after_wellFormed empty_wellFormed history
  exact (retryCount_after empty_wellFormed (row?_of_mem hwf.ids_increase hrow)).trans
    (Int.zero_add _)

theorem InBounds.fitsColumns (h : InBounds history) :
    ∀ row ∈ (empty.after history).rows, row.FitsColumns := by
  intro row hrow
  have hcounted := after_counted empty_wellFormed empty_counted history
  have hversion := hcounted.version row hrow
  have hretry := retryCount_eq_timesFreed hrow
  have hcreations := h.creations
  have hfreed := h.freed row.id
  constructor
  · rw [Bounds.fitsInt32_iff]
    omega
  · rw [Bounds.fitsInt32_iff]
    omega

/-- Within the bounds every row can be read. -/
theorem InBounds.exists_read (h : InBounds history) :
    ∀ row ∈ (empty.after history).rows, ∃ a, row.read = .ok a := by
  intro row hrow
  have hlegible := after_legible empty_wellFormed (by simp [empty]) h.dated row hrow
  exact (h.fitsColumns row hrow).exists_read_iff.mpr hlegible

/-- A call answers with rows that are stored after it, so it fails only when one of
these cannot be read or no identifier is left. -/
theorem exists_answer (hinc : l.IdsIncrease) (hleft : l.lastId < Bounds.maxInt64) {now : Int}
    {c : StoreCall} (hrows : ∀ row ∈ (l.step now c).1.rows, ∃ a, row.read = .ok a) :
    ∃ answer, (l.step now c).2 = .ok answer := by
  cases c with
  | create hearing eventType message deployment =>
    rw [step_create hleft] at hrows ⊢
    exact hrows _ (by simp)
  | claim wait deployment =>
    cases holdest : l.oldestEligible? now wait with
    | none =>
      have hnone := oldestEligible?_eq_none_iff.mp holdest
      exact ⟨none, congrArg Prod.snd (claim_of_none hnone deployment)⟩
    | some r =>
      have hr := (mem_of_oldestEligible? holdest).1
      obtain ⟨a, ha⟩ :=
        hrows _ (mem_step_of_rowAfter hinc hr (rowAfter_claim holdest deployment))
      refine ⟨some a, (congrArg Prod.snd (claim_of_oldestEligible holdest deployment)).trans ?_⟩
      rw [ha]
      rfl
  | rowsOfHearing hearing =>
    exact readable_iff.mp fun row hrow _ => hrows row hrow
  | escalationCandidates threshold =>
    refine Row.exists_readAll fun row hrow => hrows row ?_
    exact (List.mem_filter.mp (Sorting.mem_sort.mp hrow)).1
  | markProcessing | markCompleted | markException | markPendingWithRetry | requeueException
  | markForEscalation | deleteCompleted | reclaimStuck => exact ⟨_, rfl⟩

/-- Within the bounds every call of a history is answered. -/
theorem InBounds.exists_answer {now : Int} {c : StoreCall}
    (h : InBounds (before ++ (now, c) :: rest)) :
    ∃ answer, ((empty.after before).step now c).2 = .ok answer := by
  have hwf := after_wellFormed empty_wellFormed before
  have hleft := lastId_lt_maxInt64 h.of_append.creations
  rw [← List.singleton_append, ← List.append_assoc] at h
  have hrows := h.of_append.exists_read
  rw [after_append] at hrows
  exact Ledger.exists_answer hwf.ids_increase hleft hrows

end Answers

/-- What is stored can be read. A row whose counts fit the columns of a request is
read exactly when its type and status are known and its times are dates in range,
and fails under its identifier for the first column at fault otherwise. A request
that was read is written back to the columns that it came from. In every ledger
that calls lead to, the failures of a row count the calls that freed it, of which
there are no more than calls that free rows; and after a history within the bounds
every row can be read, and every call of it was answered, so none failed after it
had changed the ledger. -/
theorem stored_rows_readable :
    (∀ row : Row, row.FitsColumns →
      ((∃ a, row.read = .ok a) ↔ row.Legible) ∧
      ∀ e, row.read = .error e ↔ ∃ reason, row.Fault reason ∧ e = .corruptRow row.id reason) ∧
    (∀ ms : Int, Time.Dated ms ↔ Time.Instant.firstSecond * 1000 ≤ ms ∧
      ms < (Time.Instant.lastSecond + 1) * 1000) ∧
    (∀ (row : Row) (a : PendingRequest), row.read = .ok a → a.toRow = row) ∧
    ∀ history,
      (∀ row ∈ (empty.after history).rows,
        row.retryCount = empty.timesFreed row.id history) ∧
      (∀ id, empty.timesFreed id history ≤ history.countP (·.2.frees)) ∧
      (InBounds history →
        (∀ row ∈ (empty.after history).rows, ∃ a, row.read = .ok a) ∧
        ∀ before now c rest, history = before ++ (now, c) :: rest →
          ∃ answer, ((empty.after before).step now c).2 = .ok answer) := by
  refine ⟨fun row hfits => ⟨hfits.exists_read_iff, fun e => hfits.read_eq_error_iff⟩,
    fun ms => Time.dated_iff, fun row a => Row.toRow_of_read, fun history => ?_⟩
  refine ⟨fun row hrow => retryCount_eq_timesFreed hrow,
    fun id => timesFreed_le empty_wellFormed id history,
    fun hbounds => ⟨hbounds.exists_read, fun before now c rest hhistory => ?_⟩⟩
  rw [hhistory] at hbounds
  exact hbounds.exists_answer

theorem dated_interruptedHistory : ∀ call ∈ interruptedHistory, Time.Dated call.1 := by
  unfold Time.Dated
  decide

theorem interruptedHistory_readable :
    InBounds interruptedHistory ∧ empty.timesFreed 1 interruptedHistory = 1 ∧
      (∀ row ∈ (empty.after interruptedHistory).rows, ∃ a, row.read = .ok a) ∧
      ∃ answer, ((empty.after (interruptedHistory.take 9)).step 100
        (.claim (.ofMillis 50) "local")).2 = .ok answer := by
  have hcreations : interruptedHistory.countP (·.2.adds) = 4 := by decide
  have hfrees : interruptedHistory.countP (·.2.frees) = 2 := by decide
  have hafter := stored_rows_readable.2.2.2 interruptedHistory
  have hbounds : InBounds interruptedHistory := by
    refine ⟨dated_interruptedHistory, by omega, fun id => ?_⟩
    have hle := hafter.2.1 id
    omega
  obtain ⟨hread, hanswered⟩ := hafter.2.2 hbounds
  exact ⟨hbounds, by decide +kernel, hread, hanswered _ _ _ (interruptedHistory.drop 10) rfl⟩

end HearingRelay.Ledger
