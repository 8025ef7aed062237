import HearingRelay.Proofs.Ledger.Readable

/-!
The columns of a row and the request that they stand for. A row whose counts fit
the columns of a request is read exactly when its names are known and its times
are dates in range, and otherwise the first column at fault is told. A request
that was read is written back to the columns that it came from.
-/

namespace HearingRelay

def Time.Instant.toMillis (i : Instant) : Int := i.seconds * 1000 + (i.nanos / 1000000 : Nat)

theorem Time.Instant.toMillis_ofMillis (ms : Int) : (ofMillis ms).toMillis = ms := by
  simp only [ofMillis, toMillis, Int.fdiv_eq_ediv_of_nonneg ms (by decide : (0 : Int) ≤ 1000)]
  omega

def PendingRequest.toRow (r : PendingRequest) : Row :=
  { id := r.id, hearing := r.hearing, eventType := r.eventType.name, version := r.version,
    message := r.message, status := r.status.name, submitted := r.submitted.toMillis,
    lastTried := r.lastTried.map (·.toMillis), retryCount := r.retryCount,
    incident := r.incident, deployment := r.deployment }

theorem EventType.parse_eq_error {text : String} (h : ∀ t : EventType, text ≠ t.name) :
    EventType.parse text = .error ⟨"message type", text⟩ := by
  unfold EventType.parse
  cases hname : EventType.ofName? text with
  | none => rfl
  | some t => exact absurd (EventType.ofName?_eq_some hname).symm (h t)

theorem Status.parse_eq_error {text : String} (h : ∀ s : Status, text ≠ s.name) :
    Status.parse text = .error ⟨"pending request status", text⟩ := by
  unfold Status.parse
  cases hname : Status.ofName? text with
  | none => rfl
  | some s => exact absurd (Status.ofName?_eq_some hname).symm (h s)

namespace Row

/-- A row whose counts fit the columns of a request. -/
structure FitsColumns (row : Row) : Prop where
  version : Bounds.fitsInt32 row.version = true
  retryCount : Bounds.fitsInt32 row.retryCount = true

/-- The first column of a row that stands for nothing. -/
inductive Fault (row : Row) : Corruption → Prop
  | eventType (htype : ∀ t : EventType, row.eventType ≠ t.name) :
      Fault row (.unknownName ⟨"message type", row.eventType⟩)
  | status (t : EventType) (htype : row.eventType = t.name)
      (hstatus : ∀ s : Status, row.status ≠ s.name) :
      Fault row (.unknownName ⟨"pending request status", row.status⟩)
  | submitted (t : EventType) (htype : row.eventType = t.name) (s : Status)
      (hstatus : row.status = s.name) (hsubmitted : ¬ Time.Dated row.submitted) :
      Fault row .submittedOutOfRange
  | lastTried (t : EventType) (htype : row.eventType = t.name) (s : Status)
      (hstatus : row.status = s.name) (hsubmitted : Time.Dated row.submitted) (ms : Int)
      (htried : row.lastTried = some ms) (hms : ¬ Time.Dated ms) :
      Fault row .lastTriedOutOfRange

variable {row : Row}

/-- A row with a fault does not pass its check. -/
theorem Fault.check_eq {reason : Corruption} (h : row.Fault reason) :
    row.check = .error reason := by
  cases h with
  | eventType htype =>
    simp only [check, EventType.parse_eq_error htype]
    rfl
  | status t htype hstatus =>
    simp only [check, htype, EventType.parse_name, Status.parse_eq_error hstatus]
    rfl
  | submitted t htype s hstatus hsubmitted =>
    have hnone := Option.not_isSome_iff_eq_none.mp hsubmitted
    simp only [check, htype, hstatus, EventType.parse_name, Status.parse_name, hnone]
    rfl
  | lastTried t htype s hstatus hsubmitted ms htried hms =>
    obtain ⟨i, hi⟩ := Option.isSome_iff_exists.mp hsubmitted
    have hnone := Option.not_isSome_iff_eq_none.mp hms
    simp only [check, htype, hstatus, EventType.parse_name, Status.parse_name, hi, htried, hnone]
    rfl

/-- A row is legible or has a fault. -/
theorem legible_or_fault (row : Row) : row.Legible ∨ ∃ reason, row.Fault reason := by
  by_cases htype : ∃ t : EventType, row.eventType = t.name
  case neg => exact .inr ⟨_, .eventType fun t ht => htype ⟨t, ht⟩⟩
  obtain ⟨t, ht⟩ := htype
  by_cases hstatus : ∃ s : Status, row.status = s.name
  case neg => exact .inr ⟨_, .status t ht fun s hs => hstatus ⟨s, hs⟩⟩
  obtain ⟨s, hs⟩ := hstatus
  by_cases hsubmitted : Time.Dated row.submitted
  case neg => exact .inr ⟨_, .submitted t ht s hs hsubmitted⟩
  by_cases htried : ∀ ms, row.lastTried = some ms → Time.Dated ms
  · exact .inl ⟨⟨t, ht⟩, ⟨s, (is_iff row s).mpr hs⟩, hsubmitted, htried⟩
  · obtain ⟨ms, hms⟩ := not_forall.mp htried
    obtain ⟨hlast, hout⟩ := Classical.not_imp.mp hms
    exact .inr ⟨_, .lastTried t ht s hs hsubmitted ms hlast hout⟩

/-- The fault of a row is what its check tells. -/
theorem check_eq_error_iff {reason : Corruption} :
    row.check = .error reason ↔ row.Fault reason := by
  refine ⟨fun herror => ?_, Fault.check_eq⟩
  rcases row.legible_or_fault with hlegible | ⟨other, hfault⟩
  · obtain ⟨a, ha⟩ := hlegible.exists_check
    cases ha.symm.trans herror
  · have hsame : other = reason := Except.error.inj (hfault.check_eq.symm.trans herror)
    exact hsame ▸ hfault

theorem FitsColumns.read_eq (h : row.FitsColumns) :
    row.read = row.check.mapError (.corruptRow row.id) := by
  unfold read
  simp [h.version, h.retryCount]

theorem FitsColumns.exists_read_iff (h : row.FitsColumns) :
    (∃ a, row.read = .ok a) ↔ row.Legible :=
  Row.exists_read_iff.trans (and_iff_left ⟨h.version, h.retryCount⟩)

/-- A row whose counts fit fails for its fault and under its identifier. -/
theorem FitsColumns.read_eq_error_iff (h : row.FitsColumns) {e : StoreError} :
    row.read = .error e ↔ ∃ reason, row.Fault reason ∧ e = .corruptRow row.id reason := by
  rw [h.read_eq]
  constructor
  · intro herror
    cases hcheck : row.check with
    | ok a =>
      rw [hcheck] at herror
      cases herror
    | error reason =>
      rw [hcheck] at herror
      exact ⟨reason, check_eq_error_iff.mp hcheck, (Except.error.inj herror).symm⟩
  · rintro ⟨reason, hfault, rfl⟩
    rw [hfault.check_eq]
    rfl

/-- Of two columns at fault the status is told before the time. -/
example : (⟨7, 2000000001, "AMEND_HEARING", 2, "\x7b\x7d", "RETRYING", 8210266876800000, none, 1,
    false, some "local"⟩ : Row).read =
      .error (.corruptRow 7 (.unknownName ⟨"pending request status", "RETRYING"⟩)) := by
  decide

/-- A request that was read has the columns that it was read from. -/
theorem toRow_of_read {a : PendingRequest} (h : row.read = .ok a) : a.toRow = row := by
  obtain ⟨t, s, htype, hstatus, -, -, rfl⟩ := exists_of_check (check_of_read h)
  have htried : (row.lastTried.map Time.Instant.ofMillis).map (·.toMillis) = row.lastTried := by
    rw [Option.map_map]
    cases row.lastTried with
    | none => rfl
    | some ms => exact congrArg some (Time.Instant.toMillis_ofMillis ms)
  simp only [PendingRequest.toRow, EventType.name_of_parse htype, Status.name_of_parse hstatus,
    Time.Instant.toMillis_ofMillis, htried]

end Row

end HearingRelay
