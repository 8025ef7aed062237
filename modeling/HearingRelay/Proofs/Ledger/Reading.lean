import HearingRelay.Ledger.Basic
import HearingRelay.Proofs.Except
import Mathlib.Data.List.Basic

/-!
Rows as they are read. A row that can be read shows its identifier, its event
and its status as they are stored, and rows are read in their order, each of
them or none.
-/

namespace HearingRelay

theorem EventType.name_of_parse {text : String} {t : EventType} (h : EventType.parse text = .ok t) :
    t.name = text := by
  unfold EventType.parse at h
  split at h
  · next hname => exact Except.ok.inj h ▸ EventType.ofName?_eq_some hname
  · cases h

theorem Status.name_of_parse {text : String} {s : Status} (h : Status.parse text = .ok s) :
    s.name = text := by
  unfold Status.parse at h
  split at h
  · next hname => exact Except.ok.inj h ▸ Status.ofName?_eq_some hname
  · cases h

theorem Time.Instant.eq_ofMillis {ms : Int} {i : Instant} (h : ofMillis? ms = some i) :
    i = ofMillis ms := by
  unfold ofMillis? at h
  split at h
  · exact (Option.some.inj h).symm
  · cases h

namespace Row

structure Shows (row : Row) (r : PendingRequest) : Prop where
  id : r.id = row.id
  hearing : r.hearing = row.hearing
  eventType : r.eventType.name = row.eventType
  message : r.message = row.message
  status : r.status.name = row.status
  retryCount : r.retryCount = row.retryCount

/-- What a row that passes its check holds, and the request that it becomes. -/
theorem exists_of_check {row : Row} {r : PendingRequest} (h : row.check = .ok r) :
    ∃ t s, EventType.parse row.eventType = .ok t ∧ Status.parse row.status = .ok s ∧
      (Time.Instant.ofMillis? row.submitted).isSome = true ∧
      (∀ ms, row.lastTried = some ms → (Time.Instant.ofMillis? ms).isSome = true) ∧
      r = { id := row.id, hearing := row.hearing, eventType := t, version := row.version,
            message := row.message, status := s,
            submitted := Time.Instant.ofMillis row.submitted,
            lastTried := row.lastTried.map Time.Instant.ofMillis,
            retryCount := row.retryCount, incident := row.incident,
            deployment := row.deployment } := by
  unfold check at h
  obtain ⟨t, htype, h⟩ := exists_of_bind_eq_ok h
  obtain ⟨s, hstatus, h⟩ := exists_of_bind_eq_ok h
  refine ⟨t, s, eq_ok_of_mapError htype, eq_ok_of_mapError hstatus, ?_⟩
  dsimp only at h
  cases hsubmitted : Time.Instant.ofMillis? row.submitted with
  | none =>
    rw [hsubmitted] at h
    cases h
  | some i =>
    obtain rfl := Time.Instant.eq_ofMillis hsubmitted
    rw [hsubmitted] at h
    cases htried : row.lastTried with
    | none =>
      rw [htried] at h
      exact ⟨rfl, by simp, (Except.ok.inj h).symm⟩
    | some ms =>
      rw [htried] at h
      cases hlast : Time.Instant.ofMillis? ms with
      | none =>
        simp only [hlast] at h
        cases h
      | some j =>
        obtain rfl := Time.Instant.eq_ofMillis hlast
        simp only [hlast] at h
        refine ⟨rfl, fun ms' hms' => ?_, (Except.ok.inj h).symm⟩
        obtain rfl := Option.some.inj hms'
        exact Option.isSome_iff_exists.mpr ⟨_, hlast⟩

theorem shows_of_check {row : Row} {r : PendingRequest} (h : row.check = .ok r) : row.Shows r := by
  obtain ⟨t, s, htype, hstatus, -, -, rfl⟩ := exists_of_check h
  exact ⟨rfl, rfl, EventType.name_of_parse htype, rfl, Status.name_of_parse hstatus, rfl⟩

/-- A row that is read passes its check. -/
theorem check_of_read {row : Row} {r : PendingRequest} (h : row.read = .ok r) :
    row.check = .ok r := by
  unfold read at h
  split at h
  · cases h
  · split at h
    · cases h
    · exact eq_ok_of_mapError h

theorem shows_of_read {row : Row} {r : PendingRequest} (h : row.read = .ok r) : row.Shows r :=
  shows_of_check (check_of_read h)

theorem version_of_check {row : Row} {r : PendingRequest} (h : row.check = .ok r) :
    r.version = row.version := by
  obtain ⟨_, _, -, -, -, -, rfl⟩ := exists_of_check h
  rfl

theorem Shows.is_iff {row : Row} {r : PendingRequest} (h : row.Shows r) (s : Status) :
    row.is s = true ↔ r.status = s := by
  simp only [is, beq_iff_eq, ← h.status]
  exact ⟨Status.name_injective, congrArg Status.name⟩

/-- Rows are read one by one. -/
theorem readAll_eq_ok {rows : List Row} {rs : List PendingRequest} (h : readAll rows = .ok rs) :
    rows.map read = rs.map .ok := by
  induction rows generalizing rs with
  | nil =>
    obtain rfl := Except.ok.inj h
    rfl
  | cons row rest ih =>
    unfold readAll at h
    cases hrow : row.read with
    | error e => simp [hrow] at h
    | ok r =>
      cases hrest : readAll rest with
      | error e => simp [hrow, hrest, Except.map] at h
      | ok others =>
        simp only [hrow, hrest, Except.map] at h
        obtain rfl := Except.ok.inj h
        simp only [List.map_cons, hrow, ih hrest]

/-- What every request has of its row, the requests have of the rows in their order. -/
theorem map_of_readAll {β : Type} {f : PendingRequest → β} {g : Row → β}
    (hfg : ∀ row r, row.read = .ok r → f r = g row) {rows : List Row} {rs : List PendingRequest}
    (h : readAll rows = .ok rs) : rs.map f = rows.map g := by
  have hread := readAll_eq_ok h
  clear h
  induction rows generalizing rs with
  | nil =>
    obtain rfl : rs = [] := by simpa using hread.symm
    rfl
  | cons row rest ih =>
    cases rs with
    | nil => cases hread
    | cons r others =>
      obtain ⟨hfirst, hrest⟩ := List.cons.inj hread
      rw [List.map_cons, List.map_cons, ih hrest, hfg row r hfirst]

/-- Rows of which each can be read are read. -/
theorem exists_readAll {rows : List Row} (h : ∀ row ∈ rows, ∃ a, row.read = .ok a) :
    ∃ rs, readAll rows = .ok rs := by
  induction rows with
  | nil => exact ⟨[], rfl⟩
  | cons row rest ih =>
    obtain ⟨hfirst, hrest⟩ := List.forall_mem_cons.mp h
    obtain ⟨a, ha⟩ := hfirst
    obtain ⟨rs, hrs⟩ := ih hrest
    exact ⟨a :: rs, by rw [readAll, ha, hrs]; rfl⟩

theorem exists_row_of_readAll {rows : List Row} {rs : List PendingRequest}
    (h : readAll rows = .ok rs) {r : PendingRequest} (hr : r ∈ rs) :
    ∃ row ∈ rows, row.read = .ok r := by
  have hmem : Except.ok r ∈ rows.map read := readAll_eq_ok h ▸ List.mem_map_of_mem hr
  exact List.mem_map.mp hmem

theorem exists_request_of_readAll {rows : List Row} {rs : List PendingRequest}
    (h : readAll rows = .ok rs) {row : Row} (hrow : row ∈ rows) :
    ∃ r ∈ rs, row.read = .ok r := by
  have hmem : row.read ∈ rs.map .ok := readAll_eq_ok h ▸ List.mem_map_of_mem hrow
  obtain ⟨r, hr, hread⟩ := List.mem_map.mp hmem
  exact ⟨r, hr, hread.symm⟩

/-- The last request is the last row as it is read. -/
theorem getLast?_of_readAll {rows : List Row} {rs : List PendingRequest}
    (h : readAll rows = .ok rs) : rows.getLast?.map read = rs.getLast?.map .ok := by
  rw [← List.getLast?_map, ← List.getLast?_map, readAll_eq_ok h]

end Row

theorem Ledger.mem_byVersion {l : Ledger} {hearing : Int} {row : Row} :
    row ∈ l.byVersion hearing ↔ row ∈ l.rows ∧ row.hearing = hearing := by
  simp [byVersion, Sorting.mem_sort, rowsOf]

end HearingRelay
