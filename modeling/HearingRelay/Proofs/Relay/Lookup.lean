import HearingRelay.Proofs.Ledger.Reading
import HearingRelay.Proofs.Ledger.RowStep
import HearingRelay.Dispatch

/-!
Looking up the row of an event. What the dispatcher finds among the rows that
it has read is described here by the rows that are stored: the row found
carries the event, and a completed one is found only as the newest of its
hearing. Nothing is found exactly when every row of the event is completed and
the newest row of the hearing carries another event.
-/

namespace HearingRelay

theorem EventType.name_injective {s t : EventType} (h : s.name = t.name) : s = t := by
  have := congrArg EventType.ofName? h
  simpa [EventType.ofName?_name] using this

/-- Whether a row stands for an event. -/
def Row.carries (row : Row) (event : Dispatch.Event) : Bool :=
  row.hearing == event.key.hearing && row.eventType == event.key.eventType.name &&
    row.message == event.body

namespace Row

theorem carries_iff {row : Row} {event : Dispatch.Event} :
    row.carries event = true ↔ row.hearing = event.key.hearing ∧
      row.eventType = event.key.eventType.name ∧ row.message = event.body := by
  simp [carries, and_assoc]

theorem SameEvent.carries {r q : Row} (h : r.SameEvent q) (event : Dispatch.Event) :
    q.carries event = r.carries event := by
  simp only [Row.carries, h.hearing, h.eventType, h.message]

/-- The dispatcher compares what it has read, with the hearing already fixed. -/
theorem Shows.matchesRow {row : Row} {r : PendingRequest} (h : row.Shows r)
    {event : Dispatch.Event} (hhearing : row.hearing = event.key.hearing) :
    event.matchesRow r = row.carries event := by
  have htype : r.eventType = event.key.eventType ↔ row.eventType = event.key.eventType.name := by
    rw [← h.eventType]
    exact ⟨congrArg EventType.name, EventType.name_injective⟩
  rw [Bool.eq_iff_iff, carries_iff]
  simp [Dispatch.Event.matchesRow, htype, h.message, hhearing]

end Row

namespace Ledger

theorem mem_of_latest? {l : Ledger} {hearing : Int} {row : Row}
    (h : l.latest? hearing = some row) : row ∈ l.rows ∧ row.hearing = hearing :=
  mem_byVersion.mp (List.mem_of_getLast? h)

/-- No row waits for an event: those that carry it are completed, and the
newest row of its hearing carries another one. -/
structure Settles (l : Ledger) (event : Dispatch.Event) : Prop where
  completed : ∀ row ∈ l.rows, row.carries event = true → row.is .completed = true
  superseded : ∀ row, l.latest? event.key.hearing = some row → row.carries event = false

end Ledger

namespace Dispatch

open Ledger

variable {l : Ledger} {event : Event} {rows : List PendingRequest}

def Event.lookup (event : Event) (l : Ledger) : Except StoreError (Option PendingRequest) :=
  (l.findByHearing event.key.hearing).map (matchRow? event)

theorem findByHearing_of_lookup_error {e : StoreError} (h : event.lookup l = .error e) :
    l.findByHearing event.key.hearing = .error e := by
  unfold Event.lookup at h
  cases hread : l.findByHearing event.key.hearing with
  | error e' =>
    rw [hread] at h
    exact congrArg _ (Except.error.inj h)
  | ok rows =>
    rw [hread] at h
    cases h

/-- A lookup that does not fail has read the hearing. -/
theorem exists_rows_of_lookup {found : Option PendingRequest} (h : event.lookup l = .ok found) :
    ∃ rows, l.findByHearing event.key.hearing = .ok rows ∧ matchRow? event rows = found := by
  unfold Event.lookup at h
  cases hread : l.findByHearing event.key.hearing with
  | error e =>
    rw [hread] at h
    cases h
  | ok rows =>
    rw [hread] at h
    exact ⟨rows, rfl, Except.ok.inj h⟩

theorem matchesRow_of_matchRow? {r : PendingRequest} (h : matchRow? event rows = some r) :
    event.matchesRow r = true := by
  unfold matchRow? at h
  split at h
  · next q hfind =>
    obtain rfl := Option.some.inj h
    exact List.find?_some hfind
  · exact (Option.filter_eq_some_iff.mp h).2

theorem message_of_matchRow? {r : PendingRequest} (h : matchRow? event rows = some r) :
    r.message = event.body := by
  have hmatches := matchesRow_of_matchRow? h
  simp only [Event.matchesRow, Bool.and_eq_true, beq_iff_eq] at hmatches
  exact hmatches.2

/-- The row found carries the event, and is the newest of its hearing if it is completed. -/
theorem row_of_matchRow? (hread : l.findByHearing event.key.hearing = .ok rows)
    {r : PendingRequest} (hmatch : matchRow? event rows = some r) :
    ∃ row ∈ l.rows, row.read = .ok r ∧ row.carries event = true ∧
      (row.is .completed = true → l.latest? event.key.hearing = some row) := by
  unfold matchRow? at hmatch
  split at hmatch
  · next q hfind =>
    obtain rfl := Option.some.inj hmatch
    have hmem := List.mem_of_find?_eq_some hfind
    simp only [List.mem_filter, List.mem_reverse, bne_iff_ne] at hmem
    obtain ⟨row, hrow, hshown⟩ := Row.exists_row_of_readAll hread hmem.1
    obtain ⟨hstored, hhearing⟩ := mem_byVersion.mp hrow
    have hshows := Row.shows_of_read hshown
    have hcarries : row.carries event = true := by
      rw [← hshows.matchesRow hhearing]
      exact List.find?_some hfind
    exact ⟨row, hstored, hshown, hcarries, fun hc => absurd ((hshows.is_iff _).mp hc) hmem.2⟩
  · obtain ⟨hlast, hmatches⟩ := Option.filter_eq_some_iff.mp hmatch
    have hread := Row.getLast?_of_readAll hread
    rw [hlast] at hread
    obtain ⟨row, hrow, hshown⟩ := Option.map_eq_some_iff.mp hread
    obtain ⟨hstored, hhearing⟩ := mem_of_latest? hrow
    have hshows := Row.shows_of_read hshown
    refine ⟨row, hstored, hshown, ?_, fun _ => hrow⟩
    rw [← hshows.matchesRow hhearing]
    exact hmatches

theorem settles_of_matchRow? (hread : l.findByHearing event.key.hearing = .ok rows)
    (hmatch : matchRow? event rows = none) : l.Settles event := by
  unfold matchRow? at hmatch
  split at hmatch
  · cases hmatch
  · next hfind =>
    constructor
    · intro row hrow hcarries
      have hhearing := (Row.carries_iff.mp hcarries).1
      obtain ⟨r, hr, hshown⟩ :=
        Row.exists_request_of_readAll hread (mem_byVersion.mpr ⟨hrow, hhearing⟩)
      have hshows := Row.shows_of_read hshown
      by_contra hopen
      have hstatus : r.status ≠ .completed := fun hs => hopen ((hshows.is_iff _).mpr hs)
      have hnot := List.find?_eq_none.mp hfind r (by simp [hr, hstatus])
      rw [hshows.matchesRow hhearing] at hnot
      exact hnot hcarries
    · intro row hlatest
      have hread := Row.getLast?_of_readAll hread
      rw [show (l.byVersion event.key.hearing).getLast? = some row from hlatest] at hread
      obtain ⟨r, hlast, hshown⟩ := Option.map_eq_some_iff.mp hread.symm
      have hnot := Option.filter_eq_none_iff.mp hmatch r hlast
      rw [(Row.shows_of_read hshown.symm).matchesRow (mem_of_latest? hlatest).2] at hnot
      simpa using hnot

end Dispatch

end HearingRelay
