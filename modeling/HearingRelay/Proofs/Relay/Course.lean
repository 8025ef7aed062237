import HearingRelay.Proofs.Relay.Lookup
import HearingRelay.Proofs.Relay.Observation

/-!
The courses that a dispatch can take. The row of an event is found completed,
found in progress, or made ready for an attempt; a row made ready is taken
unless another row of its hearing is in its way, and a row taken gets one call
whose result decides what is recorded. Each course says what was asked, in
order, and what held of the ledger when it was asked.
-/

namespace HearingRelay.Dispatch

open Ledger

variable (service : Service) (visibility : Nat) (settings : DispatchSettings) (event : Event)

def looked (o : Observed) : Observed :=
  o.ask service visibility (.store (.rowsOfHearing event.key.hearing))

def Event.creation (event : Event) (deployment : String) : StoreCall :=
  .create event.key.hearing event.key.eventType event.body deployment

def Event.newRow (event : Event) (l : Ledger) (now : Int) (deployment : String) : Row :=
  l.newRow now event.key.hearing event.key.eventType event.body deployment

/-- How a pending row comes to stand for an event: it waited already, it was
an exception that is sent once more, or it is new. -/
inductive Readied (o : Observed) : Row → Observed → Prop
  | waiting (row : Row) (hrow : row ∈ o.world.ledger.rows) (hcarries : row.carries event = true)
      (hpending : row.is .pending = true) :
      Readied o row (looked service visibility event o)
  | replayed (row : Row) (hrow : row ∈ o.world.ledger.rows) (hcarries : row.carries event = true)
      (hexception : row.is .exception = true) :
      Readied o (requeue settings.deployment row) ((looked service visibility event o).ask
        service visibility (.store (.requeueException row.id settings.deployment)))
  | created (hsettles : o.world.ledger.Settles event)
      (hspace : o.world.ledger.lastId < Bounds.maxInt64) :
      Readied o (event.newRow o.world.ledger o.world.now settings.deployment)
        ((looked service visibility event o).ask service visibility
          (.store (event.creation settings.deployment)))

inductive Found (o : Observed) : Except StoreError Entry → Observed → Prop
  | unread (e : StoreError) (he : o.world.ledger.findByHearing event.key.hearing = .error e) :
      Found o (.error e) (looked service visibility event o)
  | completed (row : Row) (r : PendingRequest) (hrow : row ∈ o.world.ledger.rows)
      (hcarries : row.carries event = true) (hcompleted : row.is .completed = true)
      (hlatest : o.world.ledger.latest? event.key.hearing = some row) :
      Found o (.ok (.completed r)) (looked service visibility event o)
  | inFlight (row : Row) (r : PendingRequest) (hrow : row ∈ o.world.ledger.rows)
      (hcarries : row.carries event = true) (hprocessing : row.is .processing = true) :
      Found o (.ok (.inFlight r)) (looked service visibility event o)
  | claimable (row : Row) (r : PendingRequest) (o' : Observed)
      (hready : Readied service visibility settings event o row o') (hid : r.id = row.id)
      (hmessage : r.message = event.body) : Found o (.ok (.claimable r)) o'
  | refused (e : StoreError) (hsettles : o.world.ledger.Settles event)
      (he : (o.world.ledger.step o.world.now (event.creation settings.deployment)).2 = .error e) :
      Found o (.error e) ((looked service visibility event o).ask service visibility
        (.store (event.creation settings.deployment)))

/-- A new row that was stored is read, and is the next row. -/
theorem read_of_create {l : Ledger} {now : Int} {deployment : String} {r : PendingRequest}
    (h : (l.step now (event.creation deployment)).2 = .ok r) :
    l.lastId < Bounds.maxInt64 ∧ (event.newRow l now deployment).read = .ok r := by
  unfold Event.creation at h
  simp only [Ledger.step, Ledger.create] at h
  split at h
  · cases h
  · next hspace => exact ⟨Int.not_le.mp hspace, h⟩

theorem shows_of_create {l : Ledger} {now : Int} {deployment : String} {r : PendingRequest}
    (h : (l.step now (event.creation deployment)).2 = .ok r) :
    l.lastId < Bounds.maxInt64 ∧ (event.newRow l now deployment).Shows r := by
  obtain ⟨hspace, hread⟩ := read_of_create event h
  exact ⟨hspace, Row.shows_of_read hread⟩

/-- The row that a creation adds, as long as there is space. -/
theorem added_creation {l : Ledger} (hspace : l.lastId < Bounds.maxInt64) (now : Int)
    (deployment : String) : l.added now (event.creation deployment) =
      [event.newRow l now deployment] := if_neg (Int.not_le.mpr hspace)

/-- The dispatcher goes on as the lookup says. -/
theorem run_findEntry (o : Observed) :
    (findEntry settings.deployment event).run (Observed.handle service visibility) o =
      match event.lookup o.world.ledger with
      | .error e => (looked service visibility event o, .error e)
      | .ok none => ((looked service visibility event o).ask service visibility
          (.store (event.creation settings.deployment)),
          (o.world.ledger.step o.world.now (event.creation settings.deployment)).2.map .claimable)
      | .ok (some r) =>
        match r.status with
        | .completed => (looked service visibility event o, .ok (.completed r))
        | .processing => (looked service visibility event o, .ok (.inFlight r))
        | .pending => (looked service visibility event o, .ok (.claimable r))
        | .exception => ((looked service visibility event o).ask service visibility
            (.store (.requeueException r.id settings.deployment)), .ok (.claimable r)) := by
  unfold findEntry Event.lookup
  rw [Program.run_bind, Observed.run_store service visibility (.rowsOfHearing event.key.hearing)]
  cases hread : (o.world.ledger.step o.world.now (.rowsOfHearing event.key.hearing)).2 with
  | error e =>
    have hfind : o.world.ledger.findByHearing event.key.hearing = .error e := hread
    rw [hfind]
    rfl
  | ok rows =>
    have hfind : o.world.ledger.findByHearing event.key.hearing = .ok rows := hread
    simp only [hfind, Except.map]
    cases matchRow? event rows with
    | some r =>
      dsimp only
      cases r.status <;> rfl
    | none =>
      dsimp only [Event.creation]
      rw [Program.run_bind, Observed.run_store service visibility (.create event.key.hearing
        event.key.eventType event.body settings.deployment)]
      have hsame : (o.world.ledger.step o.world.now (.rowsOfHearing event.key.hearing)).1 =
          o.world.ledger := rfl
      dsimp only [Observed.ask_store_ledger, Observed.ask_store_now]
      rw [hsame]
      cases (o.world.ledger.step o.world.now (.create event.key.hearing event.key.eventType
          event.body settings.deployment)).2 <;> rfl

theorem found_findEntry (o : Observed) :
    Found service visibility settings event o
      ((findEntry settings.deployment event).run (Observed.handle service visibility) o).2
      ((findEntry settings.deployment event).run (Observed.handle service visibility) o).1 := by
  rw [run_findEntry]
  cases hlookup : event.lookup o.world.ledger with
  | error e => exact .unread e (findByHearing_of_lookup_error hlookup)
  | ok found =>
    obtain ⟨rows, hread, hmatch⟩ := exists_rows_of_lookup hlookup
    cases found with
    | none =>
      have hsettles := settles_of_matchRow? hread hmatch
      cases hcreate : (o.world.ledger.step o.world.now
          (event.creation settings.deployment)).2 with
      | error e => exact .refused e hsettles hcreate
      | ok r =>
        obtain ⟨hspace, hshows⟩ := shows_of_create event hcreate
        exact .claimable _ r _ (.created hsettles hspace) hshows.id hshows.message
    | some r =>
      obtain ⟨row, hrow, hshown, hcarries, hlatest⟩ := row_of_matchRow? hread hmatch
      have hshows := Row.shows_of_read hshown
      have hmessage : r.message = event.body :=
        hshows.message.trans (Row.carries_iff.mp hcarries).2.2
      dsimp only
      cases hstatus : r.status with
      | completed =>
        have hcompleted := (hshows.is_iff .completed).mpr hstatus
        exact .completed row r hrow hcarries hcompleted (hlatest hcompleted)
      | processing => exact .inFlight row r hrow hcarries ((hshows.is_iff .processing).mpr hstatus)
      | pending =>
        have hpending := (hshows.is_iff .pending).mpr hstatus
        exact .claimable row r _ (.waiting row hrow hcarries hpending) hshows.id hmessage
      | exception =>
        have hexception := (hshows.is_iff .exception).mpr hstatus
        rw [hshows.id]
        exact .claimable _ r _ (.replayed row hrow hcarries hexception) hshows.id hmessage

theorem Readied.wellFormed {o o' : Observed} {row : Row}
    (h : Readied service visibility settings event o row o') (hwf : o.world.ledger.WellFormed) :
    o'.world.ledger.WellFormed := by
  cases h with
  | waiting => exact step_wellFormed hwf _ _
  | replayed => exact step_wellFormed (step_wellFormed hwf _ _) _ _
  | created => exact step_wellFormed (step_wellFormed hwf _ _) _ _

/-- A row made ready is in the ledger, pending, and carries the event. -/
theorem Readied.row {o o' : Observed} {row : Row}
    (h : Readied service visibility settings event o row o') (hwf : o.world.ledger.WellFormed) :
    row ∈ o'.world.ledger.rows ∧ row.carries event = true ∧ row.is .pending = true := by
  cases h with
  | waiting row hrow hcarries hpending => exact ⟨hrow, hcarries, hpending⟩
  | replayed r hrow hcarries hexception =>
    refine ⟨mem_step_of_rowAfter hwf.ids_increase hrow ?_, hcarries, by simp⟩
    simp [rowAfter, Row.changeIf, hexception]
  | created hsettles hspace =>
    refine ⟨(mem_step_rows hwf.ids_increase).mpr (Or.inr ?_), ?_, (Row.is_iff _ _).mpr rfl⟩
    · exact added_creation event hspace _ _ ▸ List.mem_singleton_self _
    · simp [Row.carries, Event.newRow, Ledger.newRow]

/-- The call of the service for an event whose body reads as a document. -/
def Event.call (event : Event) (document : Json.Value) : DownstreamCall :=
  ⟨event.key.eventType, event.key.hearing, document⟩

def asked (o : Observed) (row : Row) : Observed :=
  o.ask service visibility (.store (.markProcessing row.id settings.deployment))

/-- A row made ready with nothing in its way is in progress after it was asked for. -/
theorem Readied.taken {o o' : Observed} {row : Row}
    (h : Readied service visibility settings event o row o') (hwf : o.world.ledger.WellFormed)
    (hfree : o'.world.ledger.isBlocked row = false) :
    begin o'.world.now settings.deployment row ∈
      (asked service visibility settings o' row).world.ledger.rows := by
  obtain ⟨hrow, _, hpending⟩ := h.row service visibility settings event hwf
  have hinc := (h.wellFormed service visibility settings event hwf).ids_increase
  refine mem_step_of_rowAfter hinc hrow ?_
  simp [rowAfter, Row.changeIf, hpending, hfree]

/-- The row that has been taken is the one that the call of its event is for. -/
theorem Readied.isFor {o o' : Observed} {row : Row}
    (h : Readied service visibility settings event o row o') (hwf : o.world.ledger.WellFormed)
    (hfree : o'.world.ledger.isBlocked row = false) {document : Json.Value}
    (hdoc : Json.parse event.body = .ok document) :
    (event.call document).IsFor (begin o'.world.now settings.deployment row)
      (asked service visibility settings o' row).world.ledger := by
  have htaken := h.taken service visibility settings event hwf hfree
  obtain ⟨_, hcarries, _⟩ := h.row service visibility settings event hwf
  obtain ⟨hhearing, htype, hmessage⟩ := Row.carries_iff.mp hcarries
  exact ⟨htaken, by simp, hhearing, htype, hmessage ▸ hdoc⟩

def failureCall (id : Int) (deliveryCount : Nat) (e : DispatchError) : StoreCall :=
  if willRetry settings e.kind deliveryCount then .markPendingWithRetry id settings.deployment
  else .markException id settings.deployment

theorem run_recordFailure (id : Int) (deliveryCount : Nat) (e : DispatchError) (o : Observed) :
    ((recordFailure settings id deliveryCount e).run (Observed.handle service visibility) o).1 =
      o.ask service visibility (.store (failureCall settings id deliveryCount e)) := by
  unfold recordFailure failureCall
  split <;> rfl

section Attempt

variable {r : PendingRequest} (hmessage : r.message = event.body) {document : Json.Value}
  (hdoc : Json.parse event.body = .ok document) (deliveryCount : Nat) {o : Observed}

include hmessage hdoc

theorem run_attempt_ok {response : HearingResponse}
    (h : o.resultOf service settings.timeout (event.call document) = .ok response) :
    (attempt settings event r deliveryCount).run (Observed.handle service visibility) o =
      ((o.called service visibility settings.timeout (event.call document)).ask service visibility
        (.store (.markCompleted r.id settings.deployment)), .ok .delivered) := by
  unfold Event.call at h ⊢
  unfold attempt
  rw [Program.run_bind, hmessage, Observed.run_deliver service visibility settings.timeout
    event.key.hearing event.key.eventType hdoc, h]
  rfl

theorem run_attempt_error {e : DownstreamError}
    (h : o.resultOf service settings.timeout (event.call document) = .error e) :
    (attempt settings event r deliveryCount).run (Observed.handle service visibility) o =
      ((o.called service visibility settings.timeout (event.call document)).ask service visibility
        (.store (failureCall settings r.id deliveryCount (.downstream e))),
          .error (.downstream e)) := by
  unfold Event.call at h ⊢
  unfold attempt
  rw [Program.run_bind, hmessage, Observed.run_deliver service visibility settings.timeout
    event.key.hearing event.key.eventType hdoc, h]
  dsimp only [Except.mapError]
  rw [Program.run_bind, Program.run_pure, run_recordFailure]

end Attempt

inductive Course (document : Json.Value) (deliveryCount : Nat) (o : Observed) :
    Except DispatchError Outcome → Observed → Prop
  | failed (e : StoreError) (o' : Observed)
      (hfound : Found service visibility settings event o (.error e) o') :
      Course document deliveryCount o (.error (.store e)) o'
  | duplicate (r : PendingRequest) (o' : Observed)
      (hfound : Found service visibility settings event o (.ok (.completed r)) o') :
      Course document deliveryCount o (.ok .duplicate) o'
  | underway (r : PendingRequest) (o' : Observed)
      (hfound : Found service visibility settings event o (.ok (.inFlight r)) o') :
      Course document deliveryCount o (.ok .deferred) o'
  | held (row : Row) (o' : Observed)
      (hready : Readied service visibility settings event o row o')
      (hblocked : o'.world.ledger.isBlocked row = true) :
      Course document deliveryCount o (.ok .deferred) (asked service visibility settings o' row)
  | delivered (row : Row) (o' : Observed)
      (hready : Readied service visibility settings event o row o')
      (hfree : o'.world.ledger.isBlocked row = false) (response : HearingResponse)
      (hresult : (asked service visibility settings o' row).resultOf service settings.timeout
        (event.call document) = .ok response) :
      Course document deliveryCount o (.ok .delivered)
        (((asked service visibility settings o' row).called service visibility settings.timeout
          (event.call document)).ask service visibility
            (.store (.markCompleted row.id settings.deployment)))
  | rejected (row : Row) (o' : Observed)
      (hready : Readied service visibility settings event o row o')
      (hfree : o'.world.ledger.isBlocked row = false) (e : DownstreamError)
      (hresult : (asked service visibility settings o' row).resultOf service settings.timeout
        (event.call document) = .error e) :
      Course document deliveryCount o (.error (.downstream e))
        (((asked service visibility settings o' row).called service visibility settings.timeout
          (event.call document)).ask service visibility
            (.store (failureCall settings row.id deliveryCount (.downstream e))))

def proceeded (deliveryCount : Nat) (o : Observed) :
    Except StoreError Entry → Observed × Except DispatchError Outcome
  | .error e => (o, .error (.store e))
  | .ok (.completed _) => (o, .ok .duplicate)
  | .ok (.inFlight _) => (o, .ok .deferred)
  | .ok (.claimable r) =>
    let claimed := o.ask service visibility (.store (.markProcessing r.id settings.deployment))
    match (o.world.ledger.step o.world.now (.markProcessing r.id settings.deployment)).2 with
    | .error e => (claimed, .error (.store e))
    | .ok false => (claimed, .ok .deferred)
    | .ok true =>
      (attempt settings event r deliveryCount).run (Observed.handle service visibility) claimed

theorem run_process (deliveryCount : Nat) (o : Observed) :
    (process settings event deliveryCount).run (Observed.handle service visibility) o =
      proceeded service visibility settings event deliveryCount
        ((findEntry settings.deployment event).run (Observed.handle service visibility) o).1
        ((findEntry settings.deployment event).run (Observed.handle service visibility) o).2 := by
  unfold process
  rw [Program.run_bind]
  generalize (findEntry settings.deployment event).run (Observed.handle service visibility) o = p
  obtain ⟨o', found⟩ := p
  cases found with
  | error e => rfl
  | ok entry =>
    cases entry with
    | completed r => rfl
    | inFlight r => rfl
    | claimable r =>
      dsimp only [proceeded]
      rw [Program.run_bind,
        Observed.run_store service visibility (.markProcessing r.id settings.deployment)]
      cases (o'.world.ledger.step o'.world.now
          (.markProcessing r.id settings.deployment)).2 with
      | error e => rfl
      | ok applied => cases applied <;> rfl

/-- Every run takes one of the courses. -/
theorem course_process {o : Observed} (hwf : o.world.ledger.WellFormed) {document : Json.Value}
    (hdoc : Json.parse event.body = .ok document) (deliveryCount : Nat) :
    Course service visibility settings event document deliveryCount o
      ((process settings event deliveryCount).run (Observed.handle service visibility) o).2
      ((process settings event deliveryCount).run (Observed.handle service visibility) o).1 := by
  have hfound := found_findEntry service visibility settings event o
  rw [run_process]
  generalize (findEntry settings.deployment event).run (Observed.handle service visibility) o = p
    at hfound ⊢
  obtain ⟨o', answer⟩ := p
  cases answer with
  | error e => exact .failed e o' hfound
  | ok entry =>
    cases entry with
    | completed r => exact .duplicate r o' hfound
    | inFlight r => exact .underway r o' hfound
    | claimable r =>
      obtain ⟨⟩ | ⟨⟩ | ⟨⟩ | ⟨row, _, _, hready, hid, hmessage⟩ | ⟨⟩ := hfound
      obtain ⟨hrow, hcarries, hpending⟩ := hready.row service visibility settings event hwf
      have hinc := (hready.wellFormed service visibility settings event hwf).ids_increase
      dsimp only [proceeded]
      rw [hid, markProcessing_answer hinc hrow hpending]
      cases hblocked : o'.world.ledger.isBlocked row with
      | true => exact .held row o' hready hblocked
      | false =>
        change Course service visibility settings event document deliveryCount o
          ((attempt settings event r deliveryCount).run _
            (asked service visibility settings o' row)).2
          ((attempt settings event r deliveryCount).run _
            (asked service visibility settings o' row)).1
        cases hresult : (asked service visibility settings o' row).resultOf service settings.timeout
            (event.call document) with
        | ok response =>
          rw [run_attempt_ok service visibility settings event hmessage hdoc _ hresult, hid]
          exact .delivered row o' hready hblocked response hresult
        | error e =>
          rw [run_attempt_error service visibility settings event hmessage hdoc _ hresult, hid]
          exact .rejected row o' hready hblocked e hresult

section Disposition

variable {service visibility settings event}

/-- An event has the body of its message, which is JSON. -/
theorem body_of_eventOf {e : Envelope} (h : eventOf e = .ok event) :
    event.body = e.body ∧ ∃ document, Json.parse event.body = .ok document := by
  unfold eventOf at h
  obtain ⟨key, _, h⟩ := exists_of_bind_eq_ok h
  obtain ⟨document, hdoc, h⟩ := exists_of_bind_eq_ok h
  obtain rfl := Except.ok.inj h
  exact ⟨rfl, document, eq_ok_of_mapError hdoc⟩

def conclusion (settings : DispatchSettings) (body : String) (deliveryCount : Nat) :
    Except DispatchError Outcome → Disposition
  | .ok _ => .complete
  | .error e => failureDisposition settings body deliveryCount e

/-- A message is complete only without a failure. -/
theorem exists_of_conclusion {body : String} {deliveryCount : Nat}
    {result : Except DispatchError Outcome}
    (h : conclusion settings body deliveryCount result = .complete) :
    ∃ outcome, result = .ok outcome := by
  cases result with
  | ok outcome => exact ⟨outcome, rfl⟩
  | error e =>
    unfold conclusion failureDisposition at h
    dsimp only at h
    split at h <;> cases h

/-- A message is sent back only below the limit. -/
theorem lt_of_conclusion {body : String} {deliveryCount : Nat}
    {result : Except DispatchError Outcome}
    (h : conclusion settings body deliveryCount result = .retry) :
    deliveryCount < settings.maxDeliveries := by
  cases result with
  | ok outcome => cases h
  | error e =>
    unfold conclusion failureDisposition at h
    dsimp only at h
    split at h
    · next hretry =>
      unfold willRetry at hretry
      exact of_decide_eq_true (Bool.and_eq_true_iff.mp hretry).2
    · cases h

theorem run_dispatch {σ : Type} {handle : Handler Request.Answer σ} {e : Envelope}
    (hevent : eventOf e = .ok event) (deliveryCount : Nat) (s : σ) :
    (dispatch settings e deliveryCount).run handle s =
      (((process settings event deliveryCount).run handle s).1,
        conclusion settings e.body deliveryCount
          ((process settings event deliveryCount).run handle s).2) := by
  unfold dispatch
  rw [hevent]
  dsimp only
  rw [Program.run_bind]
  generalize (process settings event deliveryCount).run handle s = p
  obtain ⟨s', result⟩ := p
  cases result <;> rfl

theorem run_dispatch_unreadable {σ : Type} {handle : Handler Request.Answer σ} {e : Envelope}
    {error : DispatchError} (hevent : eventOf e = .error error) (deliveryCount : Nat) (s : σ) :
    (dispatch settings e deliveryCount).run handle s =
      (s, conclusion settings e.body deliveryCount (.error error)) := by
  unfold dispatch
  rw [hevent]
  rfl

end Disposition

end HearingRelay.Dispatch
