import HearingRelay.Proofs.Relay.Protocol
import HearingRelay.Proofs.Message.Reports
import HearingRelay.Proofs.Downstream.Refusals

/-!
What is reported of a delivery. A call over HTTP asks for a token and then for
its hearing; the response that decides it is the one to the last request, when
that response could be had. A delivery reports exactly the calls that a
response decided, once, with the status of that response. What the publication
comes to does not touch the result of the delivery.
-/

namespace HearingRelay

namespace Downstream

open Program

abbrev Exchanged := List (Reply fun _ : Http.HttpRequest => Http.Transmission)

def responseTo (reply : Reply fun _ : Http.HttpRequest => Http.Transmission) :
    Option Http.Response :=
  (Http.received reply.1.url reply.2).toOption

/-- The response that decides a call: a refusal of the token, or any response
to the call itself. -/
def decidingResponse : Exchanged → Option Http.Response
  | [] => none
  | [token] => (responseTo token).filter fun r => !r.IsSuccess
  | _ :: hearing :: _ => responseTo hearing

/-- A report tells the status of a response, and its code fits a message. -/
structure Reports (report : SyncResponse) (r : Http.Response) : Prop where
  status : report.status = r.status
  errorCode : ∀ code, report.errorCode = some code →
    Bounds.minInt32 ≤ code ∧ code ≤ Bounds.maxInt32

/-- Any response to a call is reported. -/
theorem report?_resultOf (r : Http.Response) :
    ∃ report, (resultOf r).report? = some report ∧ Reports report r := by
  unfold resultOf
  split_ifs with hsuccess hmissing hrefused
  · exact ⟨_, rfl, rfl, by simp [SyncResponse.success]⟩
  · exact ⟨_, rfl, hmissing.symm, fun code hcode => ErrorDetails.ofBody_code hcode⟩
  · exact ⟨_, rfl, rfl, by simp [SyncResponse.failure]⟩
  · exact ⟨_, rfl, rfl, fun code hcode => ErrorDetails.ofBody_code hcode⟩

/-- A request without a response is not reported. -/
theorem report?_ofFault (fault : Http.Fault) :
    CallResult.report? (.error (DownstreamError.ofFault fault)) = none := by
  cases fault <;> rfl

/-- A refused token is reported with the status of its response; a token that
cannot be read is not reported. -/
theorem report?_tokenOf {r : Http.Response} {e : DownstreamError} (h : tokenOf r = .error e) :
    Option.Rel Reports (CallResult.report? (.error e)) ((some r).filter fun r => !r.IsSuccess) := by
  unfold tokenOf at h
  split_ifs at h with hsuccess
  · cases hparse : AccessToken.parse r.text with
    | ok token => simp [hparse, Except.mapError] at h
    | error cause =>
      obtain rfl : _ = e := by simpa [hparse, Except.mapError] using h
      have hnone : (some r).filter (fun r => !r.IsSuccess) = none := by
        simp [Option.filter_some, hsuccess]
      rw [hnone]
      exact .none
  · obtain rfl := Except.error.inj h
    have hsome : (some r).filter (fun r => !r.IsSuccess) = some r := by
      simp [Option.filter_some, hsuccess]
    rw [hsome]
    exact .some ⟨rfl, by simp [SyncResponse.failure]⟩

theorem isSuccess_of_tokenOf {r : Http.Response} {token : AccessToken} (h : tokenOf r = .ok token) :
    r.IsSuccess := by
  unfold tokenOf at h
  split_ifs at h with hsuccess
  exact hsuccess

variable {ω : Type}

/-- A call is reported when a response decides it, as that response. -/
theorem perform_reports (c : Config.Downstream) (call : DownstreamCall)
    (web : Handler (fun _ : Http.HttpRequest => Http.Transmission) ω) (w : ω) :
    Option.Rel Reports ((perform c call).run web w).2.report?
      (decidingResponse ((perform c call).replies web w)) := by
  unfold perform authenticate
  cases tokenRequest c with
  | error fault => simp [Http.transmit, decidingResponse, report?_ofFault]
  | ok request =>
    simp only [Http.transmit, run_bind, run_call, run_pure, replies_bind, replies_call,
      replies_pure]
    cases hreceived : Http.received request.url (web request w).2 with
    | error fault =>
      simp [decidingResponse, responseTo, hreceived, Except.toOption, report?_ofFault]
    | ok response =>
      cases htoken : tokenOf response with
      | error e =>
        simpa [decidingResponse, responseTo, hreceived, Except.toOption, htoken]
          using report?_tokenOf htoken
      | ok token =>
        have hsuccess := isSuccess_of_tokenOf htoken
        simp only [run_pure, replies_pure, htoken]
        cases hearingRequest c token call with
        | error fault =>
          simp [decidingResponse, responseTo, hreceived, Except.toOption, report?_ofFault,
            Option.filter_some, hsuccess]
        | ok request' =>
          simp only [run_bind, run_call, run_pure, replies_bind, replies_call, replies_pure]
          cases hanswered : Http.received request'.url (web request' (web request w).1).2 with
          | error fault =>
            simp [decidingResponse, responseTo, hanswered, Except.toOption, report?_ofFault]
          | ok response' =>
            obtain ⟨report, hreport, hreports⟩ := report?_resultOf response'
            simp [decidingResponse, responseTo, hanswered, Except.toOption, hreport, hreports]

end Downstream

namespace Delivery

open Program

def published (replies : List (Reply Request.Answer)) : List (Int × SyncResponse) :=
  replies.filterMap fun reply =>
    match reply.1 with
    | .publish hearing report => some (hearing, report)
    | _ => none

section Run

variable {σ : Type} (handle : Handler Request.Answer σ) (s : σ)

theorem published_announce (hearing : Int) (report? : Option SyncResponse) :
    published ((announce hearing report?).replies handle s) = report?.toList.map (hearing, ·) := by
  cases report? with
  | none => rfl
  | some report => rfl

/-- A delivery makes its call, and then reports how it ended. -/
theorem replies_deliver (timeout : Time.Span) (hearing : Int) (eventType : EventType)
    {payload : String} {document : Json.Value} (hparse : Json.parse payload = .ok document) :
    (deliver timeout hearing eventType payload).replies handle s =
      ⟨.send ⟨eventType, hearing, document⟩, (handle (.send ⟨eventType, hearing, document⟩) s).2⟩ ::
        (announce hearing (resultWithin timeout
          (handle (.send ⟨eventType, hearing, document⟩) s).2).report?).replies handle
          (handle (.send ⟨eventType, hearing, document⟩) s).1 := by
  unfold deliver Relay.send
  rw [hparse]
  simp only [replies_bind, replies_call, run_call, replies_pure, List.append_nil,
    List.singleton_append]

/-- A delivery reports its call as it ended, and ends as the call did. -/
theorem deliver_reports (timeout : Time.Span) (hearing : Int) (eventType : EventType)
    {payload : String} {document : Json.Value} (hparse : Json.parse payload = .ok document) :
    let result := resultWithin timeout (handle (.send ⟨eventType, hearing, document⟩) s).2
    published ((deliver timeout hearing eventType payload).replies handle s) =
        result.report?.toList.map (hearing, ·) ∧
      ((deliver timeout hearing eventType payload).run handle s).2 =
        result.mapError .downstream := by
  constructor
  · rw [replies_deliver handle s timeout hearing eventType hparse]
    exact published_announce handle _ hearing _
  · unfold deliver Relay.send
    rw [hparse]
    simp only [run_bind, run_call, run_pure]

/-- A payload that is no document is neither sent nor reported. -/
theorem deliver_unreadable (timeout : Time.Span) (hearing : Int) (eventType : EventType)
    {payload : String} {e : Json.Error} (hparse : Json.parse payload = .error e) :
    deliver timeout hearing eventType payload = pure (.error (.payload e)) := by
  unfold deliver
  rw [hparse]

end Run

section Http

variable {ω σ : Type}

/-- Surroundings in which calls of the service go over HTTP. A call that does
not end in time has no result. -/
def overHttp (c : Config.Downstream)
    (web : Handler (fun _ : Http.HttpRequest => Http.Transmission) ω) (inTime : ω → Bool)
    (handle : Handler Request.Answer σ) : Handler Request.Answer (ω × σ)
  | .send call, (w, s) =>
    let called := (Downstream.perform c call).run web w
    ((called.1, s), if inTime called.1 then some called.2 else none)
  | question, (w, s) =>
    let answered := handle question s
    ((w, answered.1), answered.2)

/-- The response that decides a delivery: that of its call, when the payload is
a document and the call ends in time. -/
def decidedBy (c : Config.Downstream)
    (web : Handler (fun _ : Http.HttpRequest => Http.Transmission) ω) (inTime : ω → Bool)
    (hearing : Int) (eventType : EventType) (payload : String) (w : ω) : Option Http.Response :=
  match Json.parse payload with
  | .error _ => none
  | .ok document =>
    let exchange := Downstream.perform c ⟨eventType, hearing, document⟩
    if inTime (exchange.run web w).1 then Downstream.decidingResponse (exchange.replies web w)
    else none

variable (c : Config.Downstream) (web : Handler (fun _ : Http.HttpRequest => Http.Transmission) ω)
  (inTime : ω → Bool) (handle : Handler Request.Answer σ) (timeout : Time.Span) (hearing : Int)
  (eventType : EventType) {payload : String} {document : Json.Value} (w : ω) (s : σ)

def endOverHttp (document : Json.Value) : CallResult :=
  let called := (Downstream.perform c ⟨eventType, hearing, document⟩).run web w
  resultWithin timeout (if inTime called.1 then some called.2 else none)

theorem endOverHttp_reports (hparse : Json.parse payload = .ok document) :
    Option.Rel Downstream.Reports
      (endOverHttp c web inTime timeout hearing eventType w document).report?
      (decidedBy c web inTime hearing eventType payload w) := by
  have hreports := Downstream.perform_reports c ⟨eventType, hearing, document⟩ web w
  unfold endOverHttp decidedBy
  rw [hparse]
  dsimp only
  split_ifs with htime
  · exact hreports
  · exact .none

/-- A delivery over HTTP reports its call as it ended, and ends as the call did. -/
theorem deliver_overHttp (hparse : Json.parse payload = .ok document) :
    let delivery := deliver timeout hearing eventType payload
    let result := endOverHttp c web inTime timeout hearing eventType w document
    published (delivery.replies (overHttp c web inTime handle) (w, s)) =
        result.report?.toList.map (hearing, ·) ∧
      (delivery.run (overHttp c web inTime handle) (w, s)).2 = result.mapError .downstream :=
  deliver_reports (overHttp c web inTime handle) (w, s) timeout hearing eventType hparse

/-- The message of a report names the hearing, and the report can be read from it. -/
theorem reports_message {report : SyncResponse} {response : Http.Response}
    (h : Downstream.Reports report response) (id : String) :
    (report.toEnvelope id hearing).property? Envelope.hearingIdProperty =
        some (Text.writeInt hearing) ∧
      (response.status ≤ Bounds.maxUInt16 →
        SyncResponse.parse (report.toEnvelope id hearing).body = .ok report) :=
  ⟨(SyncResponse.toEnvelope_properties report id hearing).1, fun hstatus =>
    SyncResponse.parse_write ⟨h.status ▸ hstatus, h.errorCode⟩⟩

/-- A delivery that a response decides is reported once, in a message that has
the status of the response and names the hearing; any other is not reported.
Whatever the publication comes to, the delivery ends the same. -/
theorem reported_when_decided (payload : String) :
    (match decidedBy c web inTime hearing eventType payload w with
      | none =>
        published ((deliver timeout hearing eventType payload).replies
          (overHttp c web inTime handle) (w, s)) = []
      | some response => ∃ report,
        published ((deliver timeout hearing eventType payload).replies
          (overHttp c web inTime handle) (w, s)) = [(hearing, report)] ∧
        report.status = response.status ∧
        ∀ id, (report.toEnvelope id hearing).property? Envelope.hearingIdProperty =
            some (Text.writeInt hearing) ∧
          (response.status ≤ Bounds.maxUInt16 →
            SyncResponse.parse (report.toEnvelope id hearing).body = .ok report)) ∧
    ∀ (τ : Type) (handle' : Handler Request.Answer τ) (t : τ),
      ((deliver timeout hearing eventType payload).run
          (overHttp c web inTime handle') (w, t)).2 =
        ((deliver timeout hearing eventType payload).run
          (overHttp c web inTime handle) (w, s)).2 := by
  cases hparse : Json.parse payload with
  | error e =>
    have hdecided : decidedBy c web inTime hearing eventType payload w = none := by
      simp [decidedBy, hparse]
    rw [hdecided, deliver_unreadable timeout hearing eventType hparse]
    exact ⟨rfl, fun _ _ _ => rfl⟩
  | ok document =>
    obtain ⟨hpublished, hresult⟩ :=
      deliver_overHttp c web inTime handle timeout hearing eventType w s hparse
    have hreports := endOverHttp_reports c web inTime timeout hearing eventType w hparse
    refine ⟨?_, fun τ handle' t => ?_⟩
    · rw [hpublished]
      revert hreports
      generalize decidedBy c web inTime hearing eventType payload w = decided
      generalize (endOverHttp c web inTime timeout hearing eventType w document).report? = reported
      rintro (⟨hreports⟩ | _)
      · exact ⟨_, rfl, hreports.status, reports_message hearing hreports⟩
      · rfl
    · rw [hresult]
      exact (deliver_overHttp c web inTime handle' timeout hearing eventType w t hparse).2

end Http

end Delivery

end HearingRelay
