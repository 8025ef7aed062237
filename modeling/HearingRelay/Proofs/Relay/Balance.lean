import HearingRelay.Proofs.Relay.Lookup
import HearingRelay.Proofs.Relay.Observation

/-!
The balance between the record of a run and its ledger. Completed rows are
the delivered ones, except for one row whose success is still to be recorded.
Each event has one outstanding or successful delivery at most, and one more for
each time that a row was added for it after a success. A message whose event
was accounted for when it was completed stays accounted for. The balance is
kept question by question.
-/

namespace HearingRelay

open Ledger

def StoreCall.creates (event : Dispatch.Event) : StoreCall → Bool
  | .create hearing eventType message _ =>
    hearing == event.key.hearing && eventType == event.key.eventType && message == event.body
  | _ => false

namespace Exchange

/-- Whether a row is added for an event, or the store is asked to. -/
def creates (x : Exchange) (event : Dispatch.Event) : Bool :=
  match x.question with
  | .store c => c.creates event
  | _ => false

structure Sound (x : Exchange) (earlier : List Exchange) : Prop where
  /-- Calls are made for rows in progress, with what the rows say. -/
  called : ∀ call, x.question = .send call →
    ∃ row, x.subject? = some row ∧ call.IsFor row x.before.ledger
  /-- Rows are completed only after a successful call for them. -/
  delivered : ∀ row ∈ x.after.ledger.rows, row.is .completed = true →
    ∃ d ∈ deliveries earlier, d.SameEvent row
  /-- Rows disappear only while they are completed. -/
  kept : ∀ row ∈ x.before.ledger.rows, row.is .completed = true ∨
    ∃ q ∈ x.after.ledger.rows, row.SameEvent q
  /-- A row is added for an event only when none waits for it. -/
  settled : ∀ event, x.creates event = true → x.before.ledger.Settles event

end Exchange

/-- How often a row was added for an event after a successful call for it. -/
def reentries (event : Dispatch.Event) : List Exchange → Nat
  | [] => 0
  | x :: earlier =>
    (if x.creates event && (deliveries earlier).any (·.carries event) then 1 else 0) +
      reentries event earlier

/-- Whether a row that no successful call was made for carries an event. -/
def isOutstanding (delivered : List Row) (event : Dispatch.Event) (row : Row) : Bool :=
  row.carries event && !delivered.any (·.id == row.id)

/-- An event is accounted for by a successful call or by a row that is still open. -/
def Observed.Accounts (o : Observed) (event : Dispatch.Event) : Prop :=
  (∃ d ∈ deliveries o.trace, d.carries event = true) ∨
    ∃ row ∈ o.world.ledger.rows, row.carries event = true ∧ row.is .completed = false

def Request.Completes (q : Request) (event : Dispatch.Event) : Prop :=
  ∃ leased, q = .settle leased .complete ∧ Dispatch.eventOf leased.envelope = .ok event

theorem Request.not_completes {q : Request} (hq : ∀ leased, q ≠ .settle leased .complete)
    (event : Dispatch.Event) : ¬ q.Completes event := by
  rintro ⟨leased, hsettle, _⟩
  exact hq leased hsettle

/-- The success of the row with the identifier `recording` is still to be recorded. -/
structure Balanced (recording : Option Int) (o : Observed) : Prop where
  wellFormed : o.world.ledger.WellFormed
  delivered_of_completed : ∀ row ∈ o.world.ledger.rows, row.is .completed = true →
    ∃ d ∈ deliveries o.trace, d.SameEvent row
  completed_of_delivered : ∀ row ∈ o.world.ledger.rows, ∀ d ∈ deliveries o.trace, d.id = row.id →
    row.is .completed = true ∨ recording = some row.id
  delivered_le : ∀ d ∈ deliveries o.trace, d.id ≤ o.world.ledger.lastId
  repeated_le : ∀ event, (deliveries o.trace).countP (·.carries event) +
    o.world.ledger.rows.countP (isOutstanding (deliveries o.trace) event) ≤
      1 + reentries event o.trace
  accounted : ∀ x ∈ o.trace, ∀ event, x.question.Completes event → o.Accounts event
  sound : ∀ x earlier, x :: earlier <:+ o.trace → x.Sound earlier

theorem start_balanced (now : Int) : Balanced none (.start (.empty now)) where
  wellFormed := empty_wellFormed
  delivered_of_completed := by simp [Observed.start, World.empty, Ledger.empty]
  completed_of_delivered := by simp [Observed.start, World.empty, Ledger.empty]
  delivered_le := by simp [Observed.start, deliveries]
  repeated_le := by simp [Observed.start, World.empty, Ledger.empty, deliveries]
  accounted := by simp [Observed.start]
  sound := by
    intro x earlier h
    exact absurd (List.suffix_nil.mp h) (List.cons_ne_nil x earlier)

theorem deliveries_cons_none {x : Exchange} (h : x.delivered? = none) (earlier : List Exchange) :
    deliveries (x :: earlier) = deliveries earlier :=
  List.filterMap_cons_none h

theorem deliveries_cons_some {x : Exchange} {d : Row} (h : x.delivered? = some d)
    (earlier : List Exchange) : deliveries (x :: earlier) = d :: deliveries earlier :=
  List.filterMap_cons_some h

theorem isOutstanding_congr {r q : Row} (h : r.SameEvent q) (delivered : List Row)
    (event : Dispatch.Event) :
    isOutstanding delivered event q = isOutstanding delivered event r := by
  simp only [isOutstanding, h.carries, h.id]

theorem carries_of_added {l : Ledger} {now : Int} {c : StoreCall} {row : Row}
    (h : row ∈ l.added now c) (event : Dispatch.Event) : row.carries event = c.creates event := by
  cases c with
  | create hearing eventType message deployment =>
    simp only [added] at h
    split at h
    · cases h
    · obtain rfl := List.mem_singleton.mp h
      have htype : eventType.name = event.key.eventType.name ↔ eventType = event.key.eventType :=
        ⟨EventType.name_injective, congrArg EventType.name⟩
      rw [Bool.eq_iff_iff, Row.carries_iff]
      simp [StoreCall.creates, Ledger.newRow, htype, and_assoc]
  | _ => cases h

/-- A call adds one row at most, and only for an event that it creates. -/
theorem countP_added_le (l : Ledger) (now : Int) (c : StoreCall) {p : Row → Bool}
    {event : Dispatch.Event} (hp : ∀ row, p row = true → row.carries event = true) :
    (l.added now c).countP p ≤ if c.creates event then 1 else 0 := by
  cases hadded : l.added now c with
  | nil => simp
  | cons row rest =>
    have hrow : row ∈ l.added now c := hadded ▸ List.mem_cons_self
    rw [← hadded, (added_spec hrow).2.2]
    by_cases hcreates : c.creates event = true
    · rw [hcreates, if_pos rfl]
      exact List.countP_le_length
    · have hout : p row ≠ true := fun h => hcreates (carries_of_added hrow event ▸ hp row h)
      simp [hout]

theorem isOutstanding_of_cons {delivered : List Row} {d row : Row} {event : Dispatch.Event}
    (h : isOutstanding (d :: delivered) event row = true) :
    isOutstanding delivered event row = true := by
  simp only [isOutstanding, List.any_cons, Bool.not_or, Bool.and_eq_true] at h ⊢
  exact ⟨h.1, h.2.2⟩

/-- A successful call takes its row from the outstanding ones. -/
theorem countP_isOutstanding_lt {rows delivered : List Row} {row : Row} (hrow : row ∈ rows)
    (hnew : ∀ d ∈ delivered, d.id ≠ row.id) {event : Dispatch.Event}
    (hcarries : row.carries event = true) :
    rows.countP (isOutstanding (row :: delivered) event) <
      rows.countP (isOutstanding delivered event) := by
  have hbefore : isOutstanding delivered event row = true := by
    simpa [isOutstanding, hcarries] using hnew
  have hafter : isOutstanding (row :: delivered) event row = false := by
    simp [isOutstanding]
  exact Ledger.countP_lt_countP (fun r _ => isOutstanding_of_cons) hrow hafter hbefore

theorem creates_eq_false (service : Service) (visibility : Nat) {q : Request}
    (hq : ∀ c, q ≠ .store c) {o : Observed} (event : Dispatch.Event) :
    (o.exchange service visibility q).creates event = false := by
  cases q with
  | store c => exact absurd rfl (hq c)
  | _ => rfl

theorem reentries_cons {x : Exchange} {event : Dispatch.Event} (hx : x.creates event = false)
    (earlier : List Exchange) : reentries event (x :: earlier) = reentries event earlier := by
  simp [reentries, hx]

/-- An open row stays open until a successful call for it is recorded. -/
theorem Observed.Accounts.ask_store (service : Service) (visibility : Nat) {o : Observed}
    {event : Dispatch.Event} {c : StoreCall} (haccounts : o.Accounts event)
    (hinc : o.world.ledger.IdsIncrease)
    (hcompleted : ∀ row ∈ (o.world.ledger.step o.world.now c).1.rows, row.is .completed = true →
      ∃ d ∈ deliveries o.trace, d.SameEvent row) :
    (o.ask service visibility (.store c)).Accounts event := by
  have hdeliveries : deliveries (o.ask service visibility (.store c)).trace = deliveries o.trace :=
    deliveries_cons_none rfl _
  unfold Observed.Accounts
  rw [hdeliveries]
  rcases haccounts with hd | ⟨row, hrow, hcarries, hopen⟩
  · exact Or.inl hd
  · rcases step_kept hinc o.world.now c hrow with hc | ⟨q, hq, hsame⟩
    · rw [hc] at hopen
      cases hopen
    · rw [← hsame.carries event] at hcarries
      cases hstatus : q.is .completed with
      | false => exact Or.inr ⟨q, hq, hcarries, hstatus⟩
      | true =>
        obtain ⟨d, hd, hdq⟩ := hcompleted q hq hstatus
        exact Or.inl ⟨d, hd, (hdq.carries event).symm.trans hcarries⟩

namespace Balanced

variable {recording : Option Int} {o : Observed}

/-- A row that is not completed has had no successful call. -/
theorem undelivered (h : Balanced none o) {row : Row} (hrow : row ∈ o.world.ledger.rows)
    (hopen : row.is .completed = false) : ∀ d ∈ deliveries o.trace, d.id ≠ row.id := by
  intro d hd hid
  rcases h.completed_of_delivered row hrow d hd hid with hc | hr
  · rw [hc] at hopen
    cases hopen
  · cases hr

/-- What carries an event is outstanding or delivered, so an event of which
all rows are completed has nothing outstanding. -/
theorem countP_isOutstanding_eq_zero (h : Balanced recording o) {event : Dispatch.Event}
    (hsettles : o.world.ledger.Settles event) :
    o.world.ledger.rows.countP (isOutstanding (deliveries o.trace) event) = 0 := by
  rw [List.countP_eq_zero]
  intro row hrow hout
  simp only [isOutstanding, Bool.and_eq_true, Bool.not_eq_true', List.any_eq_false,
    beq_iff_eq] at hout
  obtain ⟨d, hd, hsame⟩ := h.delivered_of_completed row hrow (hsettles.completed row hrow hout.1)
  exact hout.2 d hd hsame.id.symm

variable (service : Service) (visibility : Nat)

theorem sound_ask (h : Balanced recording o) {q : Request}
    (hx : (o.exchange service visibility q).Sound o.trace) :
    ∀ x earlier, x :: earlier <:+ (o.ask service visibility q).trace → x.Sound earlier := by
  intro x earlier hsuffix
  rw [Observed.ask_trace] at hsuffix
  rcases List.suffix_cons_iff.mp hsuffix with he | hold
  · obtain ⟨rfl, rfl⟩ := List.cons.inj he
    exact hx
  · exact h.sound x earlier hold

theorem accounted_ask (h : Balanced recording o) {q : Request}
    (hkeeps : ∀ event, o.Accounts event → (o.ask service visibility q).Accounts event)
    (hcompletes : ∀ event, q.Completes event → (o.ask service visibility q).Accounts event) :
    ∀ x ∈ (o.ask service visibility q).trace, ∀ event, x.question.Completes event →
      (o.ask service visibility q).Accounts event := by
  intro x hx event hevent
  rcases List.mem_cons.mp hx with rfl | hold
  · exact hcompletes event hevent
  · exact hkeeps event (h.accounted x hold event hevent)

/-- A question that is no call of the store and delivers nothing. -/
theorem ask_quiet (h : Balanced recording o) {q : Request} (hstore : ∀ c, q ≠ .store c)
    (hquiet : (o.exchange service visibility q).delivered? = none)
    (hcalled : ∀ call, q = .send call → ∃ row,
      (o.exchange service visibility q).subject? = some row ∧ call.IsFor row o.world.ledger)
    (hcompletes : ∀ event, q.Completes event → o.Accounts event) :
    Balanced recording (o.ask service visibility q) := by
  have hledger := Observed.ask_ledger service visibility hstore o
  have hcreates := creates_eq_false service visibility hstore (o := o)
  have hdeliveries : deliveries (o.ask service visibility q).trace = deliveries o.trace :=
    deliveries_cons_none hquiet _
  have haccounts : ∀ event, o.Accounts event → (o.ask service visibility q).Accounts event := by
    intro event haccounts
    unfold Observed.Accounts
    rw [hdeliveries, hledger]
    exact haccounts
  constructor
  · exact hledger ▸ h.wellFormed
  · rw [hdeliveries, hledger]
    exact h.delivered_of_completed
  · rw [hdeliveries, hledger]
    exact h.completed_of_delivered
  · rw [hdeliveries, hledger]
    exact h.delivered_le
  · intro event
    rw [hdeliveries, hledger, Observed.ask_trace, reentries_cons (hcreates event)]
    exact h.repeated_le event
  · exact h.accounted_ask service visibility haccounts fun event hq =>
      haccounts event (hcompletes event hq)
  · refine h.sound_ask service visibility ⟨hcalled, ?_, ?_, ?_⟩
    · rw [Observed.exchange_after, hledger]
      exact h.delivered_of_completed
    · intro row hrow
      rw [Observed.exchange_after, hledger]
      exact Or.inr ⟨row, hrow, .refl row⟩
    · intro event hevent
      rw [hcreates event] at hevent
      cases hevent

/-- Questions that concern neither the ledger nor the service. A message is
completed when its event is accounted for. -/
theorem ask_plain (h : Balanced recording o) {q : Request} (hstore : ∀ c, q ≠ .store c)
    (hsend : ∀ call, q ≠ .send call) (hcompletes : ∀ event, q.Completes event → o.Accounts event) :
    Balanced recording (o.ask service visibility q) :=
  h.ask_quiet service visibility hstore (Observed.delivered?_exchange service visibility hsend o)
    (fun call hcall => absurd hcall (hsend call)) hcompletes

theorem ask_send_error (h : Balanced none o) {row : Row} {call : DownstreamCall}
    (hfor : call.IsFor row o.world.ledger) {timeout : Time.Span} {e : DownstreamError}
    (he : o.resultOf service timeout call = .error e) :
    Balanced none (o.ask service visibility (.send call)) := by
  have hsubject := Observed.subject?_send service visibility h.wellFormed hfor
  refine h.ask_quiet service visibility (by simp) ?_ ?_ ?_
  · rw [Observed.delivered?_send service visibility o timeout call, he]
  · intro call' hcall
    obtain rfl : call = call' := by injection hcall
    exact ⟨row, hsubject, hfor⟩
  · intro event hevent
    exact absurd hevent (Request.not_completes (by simp) event)

/-- A successful call of a row in progress leaves its success to be recorded. -/
theorem ask_send_ok (h : Balanced none o) {row : Row} {call : DownstreamCall}
    (hfor : call.IsFor row o.world.ledger) {timeout : Time.Span} {response : HearingResponse}
    (hok : o.resultOf service timeout call = .ok response) :
    Balanced (some row.id) (o.ask service visibility (.send call)) ∧
      row ∈ deliveries (o.ask service visibility (.send call)).trace := by
  have hsubject := Observed.subject?_send service visibility h.wellFormed hfor
  have hcreates := creates_eq_false service visibility
    (q := .send call) (fun c => by simp) (o := o)
  have hdeliveries : deliveries (o.ask service visibility (.send call)).trace =
      row :: deliveries o.trace := by
    refine deliveries_cons_some ?_ _
    rw [Observed.delivered?_send service visibility o timeout call, hok, hsubject]
  have hopen : row.is .completed = false := Row.is_eq_false hfor.processing (by decide)
  have hnew := h.undelivered hfor.mem hopen
  refine ⟨⟨h.wellFormed, ?_, ?_, ?_, ?_, ?_, ?_⟩, hdeliveries ▸ List.mem_cons_self⟩
  · intro r hr hcompleted
    obtain ⟨d, hd, hsame⟩ := h.delivered_of_completed r hr hcompleted
    exact ⟨d, hdeliveries ▸ List.mem_cons_of_mem row hd, hsame⟩
  · intro r hr d hd hid
    rw [hdeliveries] at hd
    rcases List.mem_cons.mp hd with rfl | hd
    · exact Or.inr (congrArg some hid)
    · rcases h.completed_of_delivered r hr d hd hid with hcompleted | hrecording
      · exact Or.inl hcompleted
      · cases hrecording
  · intro d hd
    rw [hdeliveries] at hd
    rcases List.mem_cons.mp hd with rfl | hd
    · exact h.wellFormed.id_le d hfor.mem
    · exact h.delivered_le d hd
  · intro event
    have hbefore := h.repeated_le event
    rw [hdeliveries, Observed.ask_trace, reentries_cons (hcreates event), List.countP_cons]
    change _ + o.world.ledger.rows.countP _ ≤ _
    by_cases hcarries : row.carries event = true
    · have hless := countP_isOutstanding_lt hfor.mem hnew hcarries
      rw [if_pos hcarries]
      omega
    · have hle : o.world.ledger.rows.countP (isOutstanding (row :: deliveries o.trace) event) ≤
          o.world.ledger.rows.countP (isOutstanding (deliveries o.trace) event) :=
        List.countP_mono_left fun r _ => isOutstanding_of_cons
      rw [if_neg hcarries]
      omega
  · refine h.accounted_ask service visibility ?_ ?_
    · rintro event (⟨d, hd, hcarries⟩ | hrow)
      · exact Or.inl ⟨d, hdeliveries ▸ List.mem_cons_of_mem row hd, hcarries⟩
      · exact Or.inr hrow
    · intro event hevent
      exact absurd hevent (Request.not_completes (by simp) event)
  · refine h.sound_ask service visibility ⟨?_, h.delivered_of_completed, ?_, ?_⟩
    · intro call' hcall
      obtain rfl : call = call' := by injection hcall
      exact ⟨row, hsubject, hfor⟩
    · intro r hr
      exact Or.inr ⟨r, hr, .refl r⟩
    · intro event hevent
      rw [hcreates event] at hevent
      cases hevent

/-- A call of the store keeps the balance when the rows that are completed
after it are the delivered ones, and when it adds rows only for events that
none waits for. -/
theorem ask_store (h : Balanced recording o) {c : StoreCall} {recording' : Option Int}
    (hcompleted : ∀ row ∈ (o.world.ledger.step o.world.now c).1.rows, row.is .completed = true →
      ∃ d ∈ deliveries o.trace, d.SameEvent row)
    (hdelivered : ∀ row ∈ (o.world.ledger.step o.world.now c).1.rows, ∀ d ∈ deliveries o.trace,
      d.id = row.id → row.is .completed = true ∨ recording' = some row.id)
    (hcreates : ∀ event, c.creates event = true → o.world.ledger.Settles event) :
    Balanced recording' (o.ask service visibility (.store c)) := by
  have hinc := h.wellFormed.ids_increase
  have hdeliveries : deliveries (o.ask service visibility (.store c)).trace = deliveries o.trace :=
    deliveries_cons_none rfl _
  constructor
  · exact step_wellFormed h.wellFormed o.world.now c
  · rw [hdeliveries]
    exact hcompleted
  · rw [hdeliveries]
    exact hdelivered
  · intro d hd
    rw [hdeliveries] at hd
    rw [Observed.ask_store_ledger, step_lastId]
    have hle := h.delivered_le d hd
    omega
  · intro event
    rw [hdeliveries, Observed.ask_store_ledger, Observed.ask_trace]
    have hstep := countP_step_le hinc o.world.now c
      fun r q hsame => isOutstanding_congr hsame (deliveries o.trace) event
    have hadded := countP_added_le o.world.ledger o.world.now c
      (p := isOutstanding (deliveries o.trace) event)
      fun row hout => (Bool.and_eq_true_iff.mp hout).1
    have hbefore := h.repeated_le event
    by_cases hevent : c.creates event = true
    · have hnone := h.countP_isOutstanding_eq_zero (hcreates event hevent)
      rw [if_pos hevent] at hadded
      by_cases hagain : (deliveries o.trace).any (·.carries event) = true
      · have hone : reentries event (o.exchange service visibility (.store c) :: o.trace) =
            1 + reentries event o.trace := by
          simp [reentries, Exchange.creates, hevent, hagain]
        omega
      · have hfirst : (deliveries o.trace).countP (·.carries event) = 0 := by
          rw [List.countP_eq_zero]
          intro d hd hcarries
          exact hagain (List.any_eq_true.mpr ⟨d, hd, hcarries⟩)
        omega
    · have hsame : reentries event (o.exchange service visibility (.store c) :: o.trace) =
          reentries event o.trace := by
        simp [reentries, Exchange.creates, hevent]
      rw [if_neg hevent] at hadded
      omega
  · refine h.accounted_ask service visibility ?_ ?_
    · exact fun event haccounts =>
        haccounts.ask_store service visibility hinc hcompleted
    · intro event hevent
      exact absurd hevent (Request.not_completes (by simp) event)
  · refine h.sound_ask service visibility ⟨?_, hcompleted, ?_, hcreates⟩
    · intro call hcall
      cases hcall
    · exact fun row hrow => step_kept hinc o.world.now c hrow

/-- Calls other than the one that completes a row. -/
theorem ask_store_open (h : Balanced none o) {c : StoreCall}
    (hc : ∀ id deployment, c ≠ .markCompleted id deployment)
    (hcreates : ∀ event, c.creates event = true → o.world.ledger.Settles event) :
    Balanced none (o.ask service visibility (.store c)) := by
  have hinc := h.wellFormed.ids_increase
  refine h.ask_store service visibility ?_ ?_ hcreates
  · intro q hq hcompleted
    rcases (mem_step_rows hinc).mp hq with ⟨row, hrow, hpass⟩ | hnew
    · have hpassage := passage_of_rowAfter hpass
      rcases hpassage.of_completed hcompleted with hbefore | ⟨_, deployment, rfl⟩
      · obtain ⟨d, hd, hsame⟩ := h.delivered_of_completed row hrow hbefore
        exact ⟨d, hd, hsame.trans hpassage.sameEvent⟩
      · exact absurd rfl (hc row.id deployment)
    · exact absurd (Row.status_unique hcompleted (added_spec hnew).2.1) (by decide)
  · intro q hq d hd hid
    rcases (mem_step_rows hinc).mp hq with ⟨row, hrow, hpass⟩ | hnew
    · have hpassage := passage_of_rowAfter hpass
      rcases h.completed_of_delivered row hrow d hd (hid.trans hpassage.sameEvent.id) with
        hbefore | hrecording
      · exact Or.inl (hpassage.keeps_completed hbefore)
      · cases hrecording
    · have hle := h.delivered_le d hd
      have hnext := (added_spec hnew).1
      omega

/-- Recording a success completes the row that was delivered. -/
theorem ask_markCompleted {row : Row} (h : Balanced (some row.id) o)
    (hrow : row ∈ o.world.ledger.rows) (hprocessing : row.is .processing = true)
    (hdelivered : row ∈ deliveries o.trace) (deployment : String) :
    Balanced none (o.ask service visibility (.store (.markCompleted row.id deployment))) := by
  have hinc := h.wellFormed.ids_increase
  have hpassed : ∀ q ∈ (o.world.ledger.step o.world.now (.markCompleted row.id deployment)).1.rows,
      ∃ r ∈ o.world.ledger.rows,
        o.world.ledger.rowAfter o.world.now (.markCompleted row.id deployment) r = some q := by
    intro q hq
    rcases (mem_step_rows hinc).mp hq with hold | hnew
    · exact hold
    · cases hnew
  refine h.ask_store service visibility ?_ ?_ (fun event hcreates => by cases hcreates)
  · intro q hq hcompleted
    obtain ⟨r, hr, hpass⟩ := hpassed q hq
    have hpassage := passage_of_rowAfter hpass
    rcases hpassage.of_completed hcompleted with hbefore | ⟨_, _, hcall⟩
    · obtain ⟨d, hd, hsame⟩ := h.delivered_of_completed r hr hbefore
      exact ⟨d, hd, hsame.trans hpassage.sameEvent⟩
    · have hid : row.id = r.id := by injection hcall
      obtain rfl := eq_of_id_eq hinc hrow hr hid
      exact ⟨row, hdelivered, hpassage.sameEvent⟩
  · intro q hq d hd hid
    obtain ⟨r, hr, hpass⟩ := hpassed q hq
    have hpassage := passage_of_rowAfter hpass
    rcases h.completed_of_delivered r hr d hd (hid.trans hpassage.sameEvent.id) with
      hbefore | hrecording
    · exact Or.inl (hpassage.keeps_completed hbefore)
    · obtain rfl := eq_of_id_eq hinc hrow hr (Option.some.inj hrecording)
      simp only [rowAfter, Row.changeIf, beq_self_eq_true, hprocessing, Bool.and_self,
        if_true] at hpass
      obtain rfl := Option.some.inj hpass
      exact Or.inl (by simp)

end Balanced

end HearingRelay
