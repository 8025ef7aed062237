import HearingRelay.World
import HearingRelay.Proofs.Relay.Reporting

/-!
What a report tells of a refusal. An error object gives its code and its
description; any other document, and any text that cannot be read as details, is
told as it is. Two things are lost: a document that is read as an error object without a
description and a code, such as an object that has neither member, and the code
that comes with a refused authorization.
-/

namespace HearingRelay

namespace Downstream

def RefusesAuthorization (status : Nat) : Prop := status = 401 ∨ status = 403

instance (status : Nat) : Decidable (RefusesAuthorization status) := by
  unfold RefusesAuthorization
  infer_instance

/-- The report of a refusal has the details of its body, but for the code of a
refused authorization. -/
theorem report?_refused {r : Http.Response} (hrefused : ¬ r.IsSuccess) :
    (resultOf r).report? = some
      { status := r.status
        errorCode :=
          if RefusesAuthorization r.status then none else (ErrorDetails.ofBody r.text).code
        description := (ErrorDetails.ofBody r.text).description } := by
  unfold resultOf RefusesAuthorization
  rw [if_neg hrefused]
  by_cases hmissing : r.status = 404
  · simp [hmissing, CallResult.report?, DownstreamError.report?, SyncResponse.failure]
  · by_cases hauthorization : r.status = 401 ∨ r.status = 403
    · simp [hmissing, hauthorization, CallResult.report?, DownstreamError.report?,
        SyncResponse.failure]
    · simp [hmissing, hauthorization, CallResult.report?, DownstreamError.report?,
        SyncResponse.failure]

end Downstream

namespace ErrorDetails

/-- A text that the reader refuses is its own description. -/
theorem ofBody_of_refused {body : String} (hblank : ¬ Text.IsBlankText body) {e : Json.Error}
    (hrefused : Json.runReader reader body = .error e) : ofBody body = ⟨none, some body⟩ := by
  unfold ofBody
  rw [if_neg hblank, hrefused]

/-- The reader refuses a text that does not open an object or an array. -/
theorem ofBody_plain {body : String} (hblank : ¬ Text.IsBlankText body)
    (hplain : ∀ c, (Json.skipBlanks body.toList).head? = some c → c ≠ '\x7b' ∧ c ≠ '[') :
    ofBody body = ⟨none, some body⟩ := by
  have hrefused : Json.Gives (reader body.toList) none := by
    unfold reader Json.readRecord
    dsimp only
    split
    · next heq => exact absurd rfl (hplain _ (by rw [heq]; rfl)).1
    · next heq => exact absurd rfl (hplain _ (by rw [heq]; rfl)).2
    · exact Json.gives_refuseKind _ _
  obtain ⟨e, he⟩ := hrefused
  exact ofBody_of_refused hblank (e := e.place body.toList) (by simp [Json.runReader, he])

/-- Nothing is told of a body that is blank, or read as an error object without
a description whose code is missing or passed over. -/
theorem ofBody_tells_nothing_iff (body : String) (passed : Prop) [Decidable passed] :
    ((if passed then none else (ofBody body).code) = none ∧ (ofBody body).description = none) ↔
      Text.IsBlankText body ∨ ∃ details, Json.runReader reader body = .ok details ∧
        details.description = none ∧ (details.code = none ∨ passed) := by
  unfold ofBody
  by_cases hblank : Text.IsBlankText body
  · simp [hblank]
  · cases hread : Json.runReader reader body with
    | error e => simp [hblank]
    | ok details =>
      by_cases hpassed : passed
      · simp [hblank, hpassed]
      · simp [hblank, hpassed, and_comm]

end ErrorDetails

namespace Delivery

open Downstream

variable {σ : Type} (handle : Handler Request.Answer σ) (s : σ)

/-- What the report of a refused call tells of the body of the refusal. -/
theorem refusal_surfaced (timeout : Time.Span) (hearing : Int) (eventType : EventType)
    {payload : String} {document : Json.Value} (hparse : Json.parse payload = .ok document)
    {r : Http.Response} (hrefused : ¬ r.IsSuccess)
    (hanswer : (handle (.send ⟨eventType, hearing, document⟩) s).2 = some (resultOf r)) :
    ∃ report,
      published ((deliver timeout hearing eventType payload).replies handle s) =
        [(hearing, report)] ∧
      report.status = r.status ∧
      (∀ v, Json.parse r.text = .ok v →
        match ErrorDetails.ofDocument? v with
        | some details =>
          report.description = details.description ∧
            report.errorCode = if RefusesAuthorization r.status then none else details.code
        | none => report.errorCode = none ∧ report.description = some r.text) ∧
      (¬ Text.IsBlankText r.text →
        (∀ c, (Json.skipBlanks r.text.toList).head? = some c → c ≠ '\x7b' ∧ c ≠ '[') →
        report.errorCode = none ∧ report.description = some r.text) ∧
      (¬ Text.IsBlankText r.text → match Json.runReader ErrorDetails.reader r.text with
        | .ok details =>
          report.description = details.description ∧
            report.errorCode = if RefusesAuthorization r.status then none else details.code
        | .error _ => report.errorCode = none ∧ report.description = some r.text) ∧
      (report.errorCode = none ∧ report.description = none ↔
        Text.IsBlankText r.text ∨
          ∃ details, Json.runReader ErrorDetails.reader r.text = .ok details ∧
            details.description = none ∧
            (details.code = none ∨ RefusesAuthorization r.status)) := by
  have hpublished := (deliver_reports handle s timeout hearing eventType hparse).1
  simp only [hanswer, resultWithin, Option.getD_some, report?_refused hrefused, Option.toList_some,
    List.map_singleton] at hpublished
  refine ⟨_, hpublished, rfl, fun v hv => ?_, fun hblank hplain => ?_, fun hblank => ?_,
    ErrorDetails.ofBody_tells_nothing_iff r.text _⟩
  · rw [ErrorDetails.ofBody_of_parse hv]
    cases ErrorDetails.ofDocument? v with
    | some details => exact ⟨rfl, rfl⟩
    | none => exact ⟨ite_self none, rfl⟩
  · rw [ErrorDetails.ofBody_plain hblank hplain]
    exact ⟨ite_self none, rfl⟩
  · cases hread : Json.runReader ErrorDetails.reader r.text with
    | ok details =>
      have hdetails : ErrorDetails.ofBody r.text = details := by
        rw [ErrorDetails.ofBody, if_neg hblank, hread]
      exact hdetails ▸ ⟨rfl, rfl⟩
    | error e =>
      rw [ErrorDetails.ofBody_of_refused hblank hread]
      exact ⟨ite_self none, rfl⟩

def outage : Http.Response := ⟨503, "Service Unavailable"⟩

def outOfService : Handler Request.Answer World :=
  World.handle (fun _ _ => some (resultOf outage)) 30

theorem refusal_surfaced_outage :
    Json.parse "\x7b\x7d" = .ok (.object []) ∧ ¬ outage.IsSuccess ∧
      ∃ report, published ((deliver (.ofSeconds 30) 1 .request "\x7b\x7d").replies outOfService
          (World.empty 0)) = [(1, report)] ∧
        report.status = 503 ∧ report.errorCode = none ∧
        report.description = some "Service Unavailable" := by
  have hparse : Json.parse "\x7b\x7d" = .ok (.object []) := by rfl
  have hrefused : ¬ outage.IsSuccess := by decide
  have hblank : ¬ Text.IsBlankText outage.text := by decide
  have hplain : ∀ c, (Json.skipBlanks outage.text.toList).head? = some c →
      c ≠ '\x7b' ∧ c ≠ '[' := by
    have hfirst : (Json.skipBlanks outage.text.toList).head? = some 'S' := by decide
    intro c hc
    obtain rfl : 'S' = c := Option.some.inj (hfirst.symm.trans hc)
    decide
  obtain ⟨report, hpublished, hstatus, -, htold, -⟩ :=
    refusal_surfaced outOfService (World.empty 0) (.ofSeconds 30) 1 .request hparse hrefused rfl
  exact ⟨hparse, hrefused, report, hpublished, hstatus, htold hblank hplain⟩

/-- An object without a code and a description is not told, and neither is the
code of a refused authorization. -/
theorem refusal_dropped :
    (resultOf ⟨400, "\x7b\"message\":\"x\"\x7d"⟩).report? = some ⟨400, none, none⟩ ∧
      (resultOf ⟨403, "\x7b\"errCode\":1003,\"errorDesc\":\"locked\"\x7d"⟩).report? =
        some ⟨403, none, some "locked"⟩ := by
  decide +kernel

end Delivery

end HearingRelay
