import HearingRelay.Proofs.Ledger.Readable
import HearingRelay.Proofs.Relay.Agreement
import HearingRelay.Proofs.Relay.OpenRows

/-!
Dispatching a message again. What the dispatcher finds for an event depends on
the ledger alone. After a message was completed its event is refused: the row
it used is completed and the newest of its hearing, or it is in progress, or it
waits behind another row. A dispatch that is refused asks for nothing that
changes the ledger, calls nobody and publishes nothing, so it is refused again.
-/

namespace HearingRelay

open Ledger

namespace Dispatch

variable {event : Event}

/-- The identifier of the row that a dispatch uses for an event: the one that is
found, or else the next one. -/
def Event.usedId? (event : Event) (l : Ledger) : Option Int :=
  match event.lookup l with
  | .error _ => none
  | .ok none => some (l.lastId + 1)
  | .ok (some r) => some r.id

/-- What a dispatch finds that ends it at once: an event that was delivered, one
that is in progress, or one that waits behind another row. -/
def Event.IsRefused (event : Event) (l : Ledger) : Prop :=
  ∃ r, event.lookup l = .ok (some r) ∧
    (r.status = .completed ∨ r.status = .processing ∨
      (r.status = .pending ∧ ∃ row ∈ l.rows, row.id = r.id ∧ row.is .pending = true ∧
        l.isBlocked row = true))

section Lookup

variable {l : Ledger}

/-- A completed row is found only when no row of the event is open. -/
theorem matchRow?_completed {rows : List PendingRequest} {r : PendingRequest}
    (hmatch : matchRow? event rows = some r) (hcompleted : r.status = .completed) :
    ∀ q ∈ rows, q.status ≠ .completed → event.matchesRow q = false := by
  intro q hq hopen
  unfold matchRow? at hmatch
  split at hmatch
  · next found hfind =>
    obtain rfl := Option.some.inj hmatch
    have hmem := List.mem_of_find?_eq_some hfind
    simp [hcompleted] at hmem
  · next hfind =>
    have hnot := List.find?_eq_none.mp hfind q (by simp [hq, hopen])
    simpa using hnot

/-- At most one row of an event is open. -/
theorem eq_of_isOpenFor (hone : l.OneOpen) {r q : Row} (hr : r ∈ l.rows) (hq : q ∈ l.rows)
    (hropen : r.isOpenFor event = true) (hqopen : q.isOpenFor event = true) : r = q := by
  have hcount := hone event
  rw [List.countP_eq_length_filter] at hcount
  have hr' := List.mem_filter.mpr ⟨hr, hropen⟩
  have hq' := List.mem_filter.mpr ⟨hq, hqopen⟩
  cases hopen : l.rows.filter (Row.isOpenFor event) with
  | nil =>
    rw [hopen] at hr'
    cases hr'
  | cons row rest =>
    rw [hopen] at hr' hq' hcount
    obtain rfl : rest = [] := List.length_eq_zero_iff.mp (by simpa using hcount)
    exact (List.mem_singleton.mp hr').trans (List.mem_singleton.mp hq').symm

theorem isOpenFor_of_is {row : Row} {s : Status} (hcarries : row.carries event = true)
    (hs : row.is s = true) (hne : s ≠ .completed) : row.isOpenFor event = true := by
  simp [Row.isOpenFor, hcarries, Row.is_eq_false hs hne]

/-- A row that is found is open, if any row of the event is. -/
theorem isOpenFor_of_matchRow? {rs : List PendingRequest}
    (hrs : l.findByHearing event.key.hearing = .ok rs) {r : PendingRequest}
    (hmatch : matchRow? event rs = some r) {q : Row} (hq : q.read = .ok r)
    (hcarries : q.carries event = true) {row : Row} (hrow : row ∈ l.rows)
    (hopen : row.isOpenFor event = true) : q.isOpenFor event = true := by
  obtain ⟨hrowcarries, hstatus⟩ := Bool.and_eq_true_iff.mp hopen
  by_contra hclosed
  have hcompleted : q.is .completed = true := by simpa [Row.isOpenFor, hcarries] using hclosed
  have hhearing := (Row.carries_iff.mp hrowcarries).1
  obtain ⟨a, ha, hread⟩ :=
    Row.exists_request_of_readAll hrs (mem_byVersion.mpr ⟨hrow, hhearing⟩)
  have hshows := Row.shows_of_read hread
  have hastatus : a.status ≠ .completed := by
    intro hs
    rw [(hshows.is_iff .completed).mpr hs] at hstatus
    cases hstatus
  have hnot := matchRow?_completed hmatch
    (((Row.shows_of_read hq).is_iff .completed).mp hcompleted) a ha hastatus
  rw [hshows.matchesRow hhearing, hrowcarries] at hnot
  cases hnot

/-- After the open row of an event was completed, none is open. -/
theorem isOpenFor_eq_false_of_completed {l' : Ledger} (hone : l.OneOpen) {row final : Row}
    (hrow : row ∈ l.rows) (hopen : row.isOpenFor event = true) (hinc : l'.IdsIncrease)
    (hfinal : final ∈ l'.rows) (hid : final.id = row.id) (hcompleted : final.is .completed = true)
    (hothers : l'.rows.filter (·.id != row.id) = l.rows.filter (·.id != row.id)) :
    ∀ q ∈ l'.rows, q.isOpenFor event = false := by
  intro q hq
  by_cases hsame : q.id = row.id
  · rw [eq_of_id_eq hinc hq hfinal (hsame.trans hid.symm)]
    simp [Row.isOpenFor, hcompleted]
  · have hmem : q ∈ l.rows.filter (·.id != row.id) :=
      hothers ▸ List.mem_filter.mpr ⟨hq, by simpa using hsame⟩
    by_contra hqopen
    rw [Bool.not_eq_false] at hqopen
    exact hsame (congrArg Row.id
      (eq_of_isOpenFor hone (List.mem_filter.mp hmem).1 hrow hqopen hopen))

theorem readable_of_lookup {found : Option PendingRequest}
    (h : event.lookup l = .ok found) : l.Readable event.key.hearing := by
  obtain ⟨rows, hread, _⟩ := exists_rows_of_lookup h
  exact readable_iff.mpr ⟨rows, hread⟩

variable (hreadable : l.Readable event.key.hearing)
include hreadable

theorem exists_lookup : ∃ rs, l.findByHearing event.key.hearing = .ok rs ∧
    event.lookup l = .ok (matchRow? event rs) := by
  obtain ⟨rs, hrs⟩ := readable_iff.mp hreadable
  exact ⟨rs, hrs, by rw [Event.lookup, hrs]; rfl⟩

/-- The open row of an event is found. -/
theorem lookup_of_isOpenFor (hone : l.OneOpen) {row : Row} (hrow : row ∈ l.rows)
    (hopen : row.isOpenFor event = true) :
    ∃ r, event.lookup l = .ok (some r) ∧ row.read = .ok r := by
  obtain ⟨rs, hrs, hlookup⟩ := exists_lookup hreadable
  cases hmatch : matchRow? event rs with
  | none =>
    obtain ⟨hcarries, hstatus⟩ := Bool.and_eq_true_iff.mp hopen
    have hcompleted := (settles_of_matchRow? hrs hmatch).completed row hrow hcarries
    simp [hcompleted] at hstatus
  | some r =>
    obtain ⟨q, hq, hshown, hcarries, _⟩ := row_of_matchRow? hrs hmatch
    have hqopen := isOpenFor_of_matchRow? hrs hmatch hshown hcarries hrow hopen
    rw [eq_of_isOpenFor hone hrow hq hopen hqopen]
    exact ⟨r, hmatch ▸ hlookup, hshown⟩

/-- The newest row of a hearing is found for its event, when no row of the event is open. -/
theorem lookup_of_latest {row : Row} (hlatest : l.latest? event.key.hearing = some row)
    (hcarries : row.carries event = true)
    (hclosed : ∀ q ∈ l.rows, q.isOpenFor event = false) :
    ∃ r, event.lookup l = .ok (some r) ∧ row.read = .ok r := by
  obtain ⟨rs, hrs, hlookup⟩ := exists_lookup hreadable
  cases hmatch : matchRow? event rs with
  | none =>
    have hother := (settles_of_matchRow? hrs hmatch).superseded row hlatest
    rw [hcarries] at hother
    cases hother
  | some r =>
    obtain ⟨q, hq, hshown, hqcarries, hnewest⟩ := row_of_matchRow? hrs hmatch
    have hqcompleted : q.is .completed = true := by
      simpa [Row.isOpenFor, hqcarries] using hclosed q hq
    obtain rfl : row = q := Option.some.inj (hlatest.symm.trans (hnewest hqcompleted))
    exact ⟨r, hmatch ▸ hlookup, hshown⟩

/-- Nothing is found for an event that no row waits for. -/
theorem lookup_of_settles (hsettles : l.Settles event) : event.lookup l = .ok none := by
  obtain ⟨rs, hrs, hlookup⟩ := exists_lookup hreadable
  cases hmatch : matchRow? event rs with
  | none => exact hmatch ▸ hlookup
  | some r =>
    obtain ⟨q, hq, _, hcarries, hnewest⟩ := row_of_matchRow? hrs hmatch
    have hother := hsettles.superseded q (hnewest (hsettles.completed q hq hcarries))
    rw [hcarries] at hother
    cases hother

theorem isRefused_of_processing (hone : l.OneOpen) {row : Row} (hrow : row ∈ l.rows)
    (hcarries : row.carries event = true) (hprocessing : row.is .processing = true) :
    event.IsRefused l := by
  obtain ⟨r, hlookup, hread⟩ := lookup_of_isOpenFor hreadable hone hrow
    (isOpenFor_of_is hcarries hprocessing (by decide))
  have hstatus := ((Row.shows_of_read hread).is_iff .processing).mp hprocessing
  exact ⟨r, hlookup, Or.inr (Or.inl hstatus)⟩

theorem isRefused_of_isBlocked (hone : l.OneOpen) {row : Row} (hrow : row ∈ l.rows)
    (hcarries : row.carries event = true) (hpending : row.is .pending = true)
    (hblocked : l.isBlocked row = true) : event.IsRefused l := by
  obtain ⟨r, hlookup, hread⟩ := lookup_of_isOpenFor hreadable hone hrow
    (isOpenFor_of_is hcarries hpending (by decide))
  have hshows := Row.shows_of_read hread
  have hstatus := (hshows.is_iff .pending).mp hpending
  exact ⟨r, hlookup, Or.inr (Or.inr ⟨hstatus, row, hrow, hshows.id.symm, hpending, hblocked⟩)⟩

theorem isRefused_of_latest {row : Row} (hlatest : l.latest? event.key.hearing = some row)
    (hcarries : row.carries event = true) (hcompleted : row.is .completed = true)
    (hclosed : ∀ q ∈ l.rows, q.isOpenFor event = false) : event.IsRefused l := by
  obtain ⟨r, hlookup, hread⟩ := lookup_of_latest hreadable hlatest hcarries hclosed
  exact ⟨r, hlookup, Or.inl (((Row.shows_of_read hread).is_iff .completed).mp hcompleted)⟩

end Lookup

section Run

variable (service : Service) (visibility : Nat) (settings : DispatchSettings) (o : Observed)

/-- An attempt ends otherwise than with an event that was delivered before. -/
theorem attempt_ne_duplicate (event : Event) (r : PendingRequest) (deliveryCount : Nat) :
    ((attempt settings event r deliveryCount).run (Observed.handle service visibility) o).2 ≠
      .ok .duplicate := by
  unfold attempt
  rw [Program.run_bind]
  generalize (Delivery.deliver settings.timeout event.key.hearing event.key.eventType
    r.message).run (Observed.handle service visibility) o = p
  obtain ⟨o', result⟩ := p
  cases result with
  | ok response =>
    dsimp only
    rw [Program.run_bind, Observed.run_store service visibility
      (.markCompleted r.id settings.deployment)]
    cases (o'.world.ledger.step o'.world.now (.markCompleted r.id settings.deployment)).2 <;>
      simp
  | error e =>
    dsimp only
    rw [Program.run_bind]
    simp

/-- An event that is refused leaves everything as it was. -/
theorem process_of_isRefused (hinc : o.world.ledger.IdsIncrease)
    (h : event.IsRefused o.world.ledger) (deliveryCount : Nat) :
    let ended := (process settings event deliveryCount).run (Observed.handle service visibility) o
    (∃ outcome, ended.2 = .ok outcome) ∧ ended.1.world = o.world ∧
      callsIn ended.1.trace = callsIn o.trace := by
  intro ended
  obtain ⟨r, hlookup, hstatus⟩ := h
  have hended : ended = _ := run_process service visibility settings event deliveryCount o
  rw [run_findEntry, hlookup] at hended
  dsimp only at hended
  rcases hstatus with hcompleted | hprocessing | ⟨hpending, row, hrow, hid, hwaits, hblocked⟩
  · rw [hended, hcompleted]
    exact ⟨⟨_, rfl⟩, rfl, rfl⟩
  · rw [hended, hprocessing]
    exact ⟨⟨_, rfl⟩, rfl, rfl⟩
  · have hanswer : ((looked service visibility event o).world.ledger.step
        (looked service visibility event o).world.now
        (.markProcessing r.id settings.deployment)).2 = .ok false := by
      rw [← hid]
      exact (markProcessing_answer hinc hrow hwaits _ _).trans (by rw [hblocked]; rfl)
    have hledger := step_eq_self hanswer rfl
    rw [hpending] at hended
    dsimp only [proceeded] at hended
    rw [hanswer] at hended
    rw [hended]
    refine ⟨⟨_, rfl⟩, ?_, rfl⟩
    change ((looked service visibility event o).ask service visibility
      (.store (.markProcessing r.id settings.deployment))).world = o.world
    rw [Observed.ask_store_world, hledger]
    rfl

/-- An event comes to an end without failure only if it was found, and only one
that was found completed is one that was delivered before. -/
theorem exists_entry_of_proceeded {deliveryCount : Nat} {found : Except StoreError Entry}
    {outcome : Outcome} (hok : (proceeded service visibility settings event deliveryCount
      o found).2 = .ok outcome) :
    ∃ entry, found = .ok entry ∧ (outcome = .duplicate → ∃ r, entry = .completed r) := by
  cases found with
  | error e => cases hok
  | ok entry =>
    refine ⟨entry, rfl, ?_⟩
    rintro rfl
    cases entry with
    | completed r => exact ⟨r, rfl⟩
    | inFlight r => cases hok
    | claimable r =>
      dsimp only [proceeded] at hok
      cases hanswer : (o.world.ledger.step o.world.now
          (.markProcessing r.id settings.deployment)).2 with
      | error e =>
        rw [hanswer] at hok
        cases hok
      | ok applied =>
        rw [hanswer] at hok
        cases applied with
        | false => cases hok
        | true => exact absurd hok (attempt_ne_duplicate service visibility settings _ event r _)

/-- What a dispatch has found that did not fail. -/
theorem lookup_of_process_ok {deliveryCount : Nat} {outcome : Outcome}
    (hok : ((process settings event deliveryCount).run
      (Observed.handle service visibility) o).2 = .ok outcome) :
    ∃ found, event.lookup o.world.ledger = .ok found ∧
      (found = none → ∃ r, (o.world.ledger.step o.world.now
        (event.creation settings.deployment)).2 = .ok r) ∧
      (outcome = .duplicate → ∃ r, found = some r ∧ r.status = .completed) := by
  rw [run_process, run_findEntry] at hok
  obtain ⟨entry, hentry, hduplicate⟩ := exists_entry_of_proceeded service visibility settings _ hok
  cases hlookup : event.lookup o.world.ledger with
  | error e =>
    rw [hlookup] at hentry
    cases hentry
  | ok found =>
    rw [hlookup] at hentry
    cases found with
    | none =>
      cases hcreated : (o.world.ledger.step o.world.now
          (event.creation settings.deployment)).2 with
      | error e =>
        rw [hcreated] at hentry
        cases hentry
      | ok r =>
        rw [hcreated] at hentry
        refine ⟨none, rfl, fun _ => ⟨r, rfl⟩, fun houtcome => ?_⟩
        obtain ⟨q, rfl⟩ := hduplicate houtcome
        cases hentry
    | some r =>
      refine ⟨some r, rfl, by simp, fun houtcome => ⟨r, rfl, ?_⟩⟩
      obtain ⟨q, rfl⟩ := hduplicate houtcome
      dsimp only at hentry
      cases hstatus : r.status with
      | completed => rfl
      | processing | pending | exception =>
        rw [hstatus] at hentry
        cases hentry

end Run

section Readied

variable {service : Service} {visibility : Nat} {settings : DispatchSettings} {o o' : Observed}
  {row : Row} (h : Readied service visibility settings event o row o')
include h

/-- Making a row ready opens a row only for an event that has none. -/
theorem Readied.oneOpen (hwf : o.world.ledger.WellFormed) (hone : o.world.ledger.OneOpen) :
    o'.world.ledger.OneOpen := by
  cases h with
  | waiting => exact hone
  | replayed => exact step_oneOpen hone hwf.ids_increase _ (by simp [StoreCall.creates])
  | created hsettles =>
    refine step_oneOpen hone hwf.ids_increase _ fun other hcreates => ?_
    obtain rfl := creates_creation hcreates
    exact hsettles

/-- The row that is made ready is the one that the dispatch uses. -/
theorem Readied.usedId (hreadable : o.world.ledger.Readable event.key.hearing)
    (hone : o.world.ledger.OneOpen) : event.usedId? o.world.ledger = some row.id := by
  cases h with
  | waiting row hrow hcarries hpending =>
    obtain ⟨r, hlookup, hread⟩ := lookup_of_isOpenFor hreadable hone hrow
      (isOpenFor_of_is hcarries hpending (by decide))
    simp only [Event.usedId?, hlookup, (Row.shows_of_read hread).id]
  | replayed row hrow hcarries hexception =>
    obtain ⟨r, hlookup, hread⟩ := lookup_of_isOpenFor hreadable hone hrow
      (isOpenFor_of_is hcarries hexception (by decide))
    simp only [Event.usedId?, hlookup, (Row.shows_of_read hread).id, requeue]
  | created hsettles =>
    simp only [Event.usedId?, lookup_of_settles hreadable hsettles]
    rfl

/-- A hearing that could be read can still be read, unless its new row cannot. -/
theorem Readied.readable (hwf : o.world.ledger.WellFormed) (hnow : Time.Dated o.world.now)
    (hreadable : o.world.ledger.Readable event.key.hearing)
    (hcreated : event.lookup o.world.ledger = .ok none → ∃ r, (o.world.ledger.step o.world.now
      (event.creation settings.deployment)).2 = .ok r) :
    o'.world.ledger.Readable event.key.hearing := by
  cases h with
  | waiting => exact hreadable
  | replayed => exact step_readable hwf.ids_increase hnow rfl (by simp [added]) hreadable
  | created hsettles hspace =>
    obtain ⟨r, hr⟩ := hcreated (lookup_of_settles hreadable hsettles)
    refine step_readable hwf.ids_increase hnow (c := event.creation settings.deployment) rfl
      (fun q hq => ?_) hreadable
    rw [added_creation event hspace] at hq
    obtain rfl := List.mem_singleton.mp hq
    exact ⟨r, (read_of_create event hr).2⟩

/-- A row that has to wait leaves the ledger as it was made ready. -/
theorem Readied.asked_ledger (hwf : o.world.ledger.WellFormed)
    (hblocked : o'.world.ledger.isBlocked row = true) :
    (asked service visibility settings o' row).world.ledger = o'.world.ledger := by
  obtain ⟨hrow, _, hpending⟩ := h.row service visibility settings event hwf
  have hinc := (h.wellFormed service visibility settings event hwf).ids_increase
  have hanswer : (o'.world.ledger.step o'.world.now
      (.markProcessing row.id settings.deployment)).2 = .ok false :=
    (markProcessing_answer hinc hrow hpending _ _).trans (by rw [hblocked]; rfl)
  exact step_eq_self hanswer rfl

theorem Readied.now : o'.world.now = o.world.now := by
  cases h <;> rfl

/-- A hearing that could be read when a row was made ready can be read after
the row was delivered. -/
theorem Readied.delivered_readable (hwf : o.world.ledger.WellFormed)
    (hnow : Time.Dated o.world.now) (hreadable : o'.world.ledger.Readable event.key.hearing)
    (call : DownstreamCall) :
    Ledger.Readable (((asked service visibility settings o' row).called service visibility
      settings.timeout call).ask service visibility
        (.store (.markCompleted row.id settings.deployment))).world.ledger event.key.hearing := by
  have hwf' := h.wellFormed service visibility settings event hwf
  have hnow' : Time.Dated o'.world.now := h.now ▸ hnow
  have hasked : (asked service visibility settings o' row).world.ledger.Readable
      event.key.hearing :=
    step_readable hwf'.ids_increase hnow' rfl (by simp [added]) hreadable
  have hwf'' : (asked service visibility settings o' row).world.ledger.WellFormed :=
    step_wellFormed hwf' _ _
  rw [Observed.ask_store_ledger, Observed.called_ledger, Observed.called_now]
  exact step_readable hwf''.ids_increase hnow' rfl (by simp [added]) hasked

end Readied

/-- After a dispatch that did not fail its event is refused, if the row that it
used is not completed or is the newest of its hearing. -/
theorem Course.isRefused {service : Service} {visibility : Nat} {settings : DispatchSettings}
    {o o' : Observed} {document : Json.Value} {deliveryCount : Nat} {outcome : Outcome}
    (hcourse : Course service visibility settings event document deliveryCount o (.ok outcome) o')
    (hwf : o.world.ledger.WellFormed) (hone : o.world.ledger.OneOpen)
    (hnow : Time.Dated o.world.now) (hreadable : o.world.ledger.Readable event.key.hearing)
    (hcreated : event.lookup o.world.ledger = .ok none → ∃ r, (o.world.ledger.step o.world.now
      (event.creation settings.deployment)).2 = .ok r)
    (hduplicate : outcome = .duplicate →
      ∃ r, event.lookup o.world.ledger = .ok (some r) ∧ r.status = .completed)
    (hnewest : ∀ row ∈ o'.world.ledger.rows, event.usedId? o.world.ledger = some row.id →
      row.is .completed = false ∨ o'.world.ledger.latest? event.key.hearing = some row) :
    o'.world.ledger.IdsIncrease ∧ event.IsRefused o'.world.ledger := by
  cases hcourse with
  | duplicate r o' hfound =>
    obtain ⟨found, hlookup, hstatus⟩ := hduplicate rfl
    obtain ⟨⟩ | ⟨row, _, hrow, hcarries, hcompleted, hlatest⟩ | ⟨⟩ | ⟨⟩ | ⟨⟩ := hfound
    exact ⟨hwf.ids_increase, found, hlookup, Or.inl hstatus⟩
  | underway r o' hfound =>
    obtain ⟨⟩ | ⟨⟩ | ⟨row, _, hrow, hcarries, hprocessing⟩ | ⟨⟩ | ⟨⟩ := hfound
    exact ⟨hwf.ids_increase, isRefused_of_processing hreadable hone hrow hcarries hprocessing⟩
  | held row o₁ hready hblocked =>
    obtain ⟨hrow, hcarries, hpending⟩ := hready.row service visibility settings event hwf
    have hwf₁ := hready.wellFormed service visibility settings event hwf
    rw [hready.asked_ledger hwf hblocked]
    exact ⟨hwf₁.ids_increase, isRefused_of_isBlocked (hready.readable hwf hnow hreadable hcreated)
      (hready.oneOpen hwf hone) hrow hcarries hpending hblocked⟩
  | delivered row o₁ hready hfree response hresult =>
    obtain ⟨hrow, hcarries, hpending⟩ := hready.row service visibility settings event hwf
    obtain ⟨hchanges, hinc, hfinal⟩ := hready.recorded hwf hfree (event.call document)
      (c := .markCompleted row.id settings.deployment) (by simp [marks])
      (fun _ => rowAfter_markCompleted (r := begin o₁.world.now settings.deployment row) (by simp))
    have hlatest := (hnewest _ hfinal (hready.usedId hreadable hone)).resolve_left (by simp)
    have hothers := hchanges.others.trans (hready.changes hwf).1.others.symm
    exact ⟨hinc, isRefused_of_latest (hready.delivered_readable hwf hnow
      (hready.readable hwf hnow hreadable hcreated) _) hlatest hcarries (by simp)
      (isOpenFor_eq_false_of_completed (hready.oneOpen hwf hone) hrow
        (isOpenFor_of_is hcarries hpending (by decide)) hinc hfinal rfl (by simp) hothers)⟩

/-- What a dispatch leaves behind that ends complete. -/
theorem isRefused_of_complete (service : Service) (visibility : Nat) (settings : DispatchSettings)
    {e : Envelope} (hevent : eventOf e = .ok event) (deliveryCount : Nat) {w : World}
    (hwf : w.ledger.WellFormed) (hone : w.ledger.OneOpen) (hnow : Time.Dated w.now) :
    let ended := (dispatch settings e deliveryCount).run (Observed.handle service visibility)
      (.start w)
    let after := ended.1.world
    ended.2 = .complete →
      (∀ row ∈ after.ledger.rows, event.usedId? w.ledger = some row.id →
        row.is .completed = false ∨ after.ledger.latest? event.key.hearing = some row) →
      after.ledger.IdsIncrease ∧ event.IsRefused after.ledger := by
  intro ended after hcomplete hnewest
  obtain ⟨_, document, hdoc⟩ := body_of_eventOf hevent
  have hcourse := course_process service visibility settings event (o := .start w) hwf hdoc
    deliveryCount
  have hended : ended = (((process settings event deliveryCount).run
      (Observed.handle service visibility) (.start w)).1, conclusion settings e.body deliveryCount
        ((process settings event deliveryCount).run (Observed.handle service visibility)
          (.start w)).2) := run_dispatch hevent deliveryCount (Observed.start w)
  unfold after at hnewest ⊢
  rw [hended] at hcomplete hnewest ⊢
  obtain ⟨outcome, hok⟩ := exists_of_conclusion hcomplete
  rw [hok] at hcourse
  obtain ⟨found, hlookup, hcreated, hduplicate⟩ :=
    lookup_of_process_ok service visibility settings (.start w) hok
  refine hcourse.isRefused hwf hone hnow (readable_of_lookup hlookup) ?_ ?_ hnewest
  · intro hnone
    exact hcreated (Except.ok.inj (hlookup.symm.trans hnone))
  · intro hdelivered
    obtain ⟨r, rfl, hstatus⟩ := hduplicate hdelivered
    exact ⟨r, hlookup, hstatus⟩

/-- A dispatch that is refused is complete, and leaves everything as it was. -/
theorem dispatch_of_isRefused (service : Service) (visibility : Nat) (settings : DispatchSettings)
    {e : Envelope} (hevent : eventOf e = .ok event) (deliveryCount : Nat) {w : World}
    (hinc : w.ledger.IdsIncrease) (hrefused : event.IsRefused w.ledger) :
    let ended := (dispatch settings e deliveryCount).run (Observed.handle service visibility)
      (.start w)
    ended.2 = .complete ∧ ended.1.world = w ∧ callsIn ended.1.trace = [] := by
  intro ended
  obtain ⟨⟨outcome, hok⟩, hworld, hcalls⟩ := process_of_isRefused service visibility settings
    (.start w) hinc hrefused deliveryCount
  have hended : ended = _ := run_dispatch hevent deliveryCount (Observed.start w)
  rw [hended, hok]
  exact ⟨rfl, hworld, hcalls⟩

/-- Dispatching a message again is idempotent. In every ledger that dispatches,
re-drives and upkeep lead to that are done one after the other, if a dispatch
of a message at a reading whose date is in range ends complete, and the row that
it used is then not completed or is the newest of its hearing, any further
dispatch of the message, at any reading and for any delivery, is complete, calls
nobody and leaves everything as it was: the ledger, the queues and the reports. -/
theorem redispatch_idempotent (service : Service) (visibility : Nat) (start : Int)
    (steps : List (Int × Task)) (now : Int) (hnow : Time.Dated now) (settings : DispatchSettings)
    (e : Envelope) (deliveryCount : Nat) (event : Event) (hevent : eventOf e = .ok event) :
    let w : World := { ((Observed.start (.empty start)).performed service visibility steps).world
      with now := now }
    let first := (dispatch settings e deliveryCount).run (Observed.handle service visibility)
      (.start w)
    let after := first.1.world
    first.2 = .complete →
      (∀ row ∈ after.ledger.rows, event.usedId? w.ledger = some row.id →
        row.is .completed = false ∨ after.ledger.latest? event.key.hearing = some row) →
      ∀ (service' : Service) (settings' : DispatchSettings) (later : Int) (deliveryCount' : Nat),
        let second := (dispatch settings' e deliveryCount').run
          (Observed.handle service' visibility) (.start { after with now := later })
        second.2 = .complete ∧ second.1.world = { after with now := later } ∧
          callsIn second.1.trace = [] := by
  intro w first after hcomplete hnewest service' settings' later deliveryCount' second
  have hrows : ((Observed.start (.empty start)).performed service visibility steps).SingleRows :=
    performed_singleRows service visibility (start_balanced start)
      ⟨empty_wellFormed, empty_oneOpen, by simp [Observed.start]⟩ steps
  obtain ⟨hinc, hrefused⟩ := isRefused_of_complete service visibility settings hevent deliveryCount
    (w := w) hrows.wellFormed hrows.present hnow hcomplete hnewest
  exact dispatch_of_isRefused service' visibility settings' hevent deliveryCount'
    (w := { after with now := later }) hinc hrefused

def messageOfType (id type : String) : Envelope :=
  ⟨id, Properties.ofList [("message_type", type), ("hearing_id", "1")], "\x7b\x7d"⟩

/-- The service refuses everything, so a request comes to wait. -/
def refusesAll : Service := fun _ _ => some (.error (.rejected 503 none none))

def requestWaits : World :=
  { ((Observed.start (.empty 0)).performed refusesAll 30
      [(0, .dispatch { timeout := .ofMillis 50 } (messageOfType "a" "REQUEST_HEARING") 1)]).world
    with now := 5 }

/-- The amendment of a request that waits, dispatched for the first time. -/
def amended : Observed × Disposition :=
  (dispatch { timeout := .ofMillis 50 } (messageOfType "b" "AMEND_HEARING") 1).run
    (Observed.handle refusesAll 30) (.start requestWaits)

/-- It waits behind the request, however often it is dispatched. -/
theorem redispatch_idempotent_amended :
    Time.Dated 5 ∧ eventOf (messageOfType "b" "AMEND_HEARING") =
        .ok ⟨⟨.amend, 1⟩, "\x7b\x7d"⟩ ∧ amended.2 = .complete ∧
      (∀ row ∈ amended.1.world.ledger.rows,
        Event.usedId? ⟨⟨.amend, 1⟩, "\x7b\x7d"⟩ requestWaits.ledger = some row.id →
          row.is .completed = false ∨ amended.1.world.ledger.latest? 1 = some row) ∧
      let second := (dispatch { timeout := .ofMillis 50 } (messageOfType "b" "AMEND_HEARING") 7).run
        (Observed.handle (fun _ _ => some (.ok ⟨200, none⟩)) 30)
        (.start { amended.1.world with now := 9 })
      second.2 = .complete ∧ second.1.world = { amended.1.world with now := 9 } ∧
        callsIn second.1.trace = [] := by
  have hevent : eventOf (messageOfType "b" "AMEND_HEARING") = .ok ⟨⟨.amend, 1⟩, "\x7b\x7d"⟩ := by
    decide +kernel
  have hcomplete : amended.2 = .complete := by decide +kernel
  have hnewest : ∀ row ∈ amended.1.world.ledger.rows,
      Event.usedId? ⟨⟨.amend, 1⟩, "\x7b\x7d"⟩ requestWaits.ledger = some row.id →
        row.is .completed = false ∨ amended.1.world.ledger.latest? 1 = some row := by
    decide +kernel
  exact ⟨rfl, hevent, hcomplete, hnewest, redispatch_idempotent refusesAll 30 0
    [(0, .dispatch { timeout := .ofMillis 50 } (messageOfType "a" "REQUEST_HEARING") 1)] 5 rfl
    { timeout := .ofMillis 50 } (messageOfType "b" "AMEND_HEARING") 1 _ hevent hcomplete hnewest
    (fun _ _ => some (.ok ⟨200, none⟩)) { timeout := .ofMillis 50 } 9 7⟩

end Dispatch

end HearingRelay
