import HearingRelay.World
import HearingRelay.Proofs.Json.Sameness
import HearingRelay.Proofs.Relay.Reporting

/-!
What reaches the service of the payload of an event. The payload is read as a
document, and every request behind the one for a token has the document as its
body, written anew. That text is read as the canonical form of the document,
which is the same document exactly when no object in it repeats a name and
every number in it keeps its decimal value. Whole numbers in the 64-bit ranges
keep theirs; longer ones are cut to the digits of a binary64 number.
-/

namespace HearingRelay

namespace Http

theorem build_body {method : Method} {address accept contentType : String}
    {authorization : Option String} {body : String} {request : HttpRequest}
    (h : build method address accept contentType authorization body = .ok request) :
    request.body = body := by
  unfold build at h
  split at h
  · cases h
  · split_ifs at h
    obtain rfl := Except.ok.inj h
    rfl

end Http

namespace Downstream

open Program

variable {ω : Type}

/-- Every request of a call behind the one for a token has the payload as its body. -/
theorem perform_bodies (c : Config.Downstream) (call : DownstreamCall)
    (web : Handler (fun _ : Http.HttpRequest => Http.Transmission) ω) (w : ω) :
    ∀ reply ∈ ((perform c call).replies web w).tail, reply.1.body = call.payload.write := by
  unfold perform authenticate
  cases tokenRequest c with
  | error fault => simp [Http.transmit]
  | ok request =>
    simp only [Http.transmit, run_bind, run_call, run_pure, replies_bind, replies_call,
      replies_pure]
    cases Http.received request.url (web request w).2 with
    | error fault => simp
    | ok response =>
      cases htoken : tokenOf response with
      | error e => simp [htoken]
      | ok token =>
        simp only [run_pure, replies_pure, htoken]
        cases hrequest : hearingRequest c token call with
        | error fault => simp
        | ok request' =>
          have hbody : request'.body = call.payload.write := Http.build_body hrequest
          cases hreceived : Http.received request'.url (web request' (web request w).1).2 <;>
            simp [hbody, hreceived]

end Downstream

namespace Delivery

open Program

def called (replies : List (Reply Request.Answer)) : List DownstreamCall :=
  replies.filterMap fun reply =>
    match reply.1 with
    | .send call => some call
    | _ => none

variable {σ ω : Type} (handle : Handler Request.Answer σ) (s : σ)

/-- A delivery makes one call, with the document that its payload is. -/
theorem deliver_calls (timeout : Time.Span) (hearing : Int) (eventType : EventType)
    {payload : String} {document : Json.Value} (hparse : Json.parse payload = .ok document) :
    called ((deliver timeout hearing eventType payload).replies handle s) =
      [⟨eventType, hearing, document⟩] := by
  have hannounce : ∀ (report? : Option SyncResponse) (t : σ),
      called ((announce hearing report?).replies handle t) = [] := by
    intro report? t
    cases report? <;> rfl
  rw [replies_deliver handle s timeout hearing eventType hparse]
  exact congrArg (_ :: ·) (hannounce _ _)

/-- The request of a delivery has the payload written anew as its body. That is
the same document exactly when no name is repeated and the numbers keep their
values. -/
theorem body_rewritten (c : Config.Downstream)
    (web : Handler (fun _ : Http.HttpRequest => Http.Transmission) ω) (w : ω)
    (timeout : Time.Span) (hearing : Int) (eventType : EventType) {payload : String}
    {document : Json.Value} (hparse : Json.parse payload = .ok document) :
    called ((deliver timeout hearing eventType payload).replies handle s) =
        [⟨eventType, hearing, document⟩] ∧
      (∀ reply ∈ ((Downstream.perform c ⟨eventType, hearing, document⟩).replies web w).tail,
        reply.1.body = document.write) ∧
      Json.parse document.write = .ok document.canonical ∧
      (Json.Same document document.canonical ↔ document.Faithful) :=
  ⟨deliver_calls handle s timeout hearing eventType hparse, Downstream.perform_bodies c _ web w,
    Json.parse_write hparse, Json.same_canonical_iff document⟩

def hearing7 : Json.Value :=
  .object [("slots", .array [.number ⟨true, ['1'], none, none⟩, .string "am"]),
    ("id", .number ⟨false, ['7'], none, none⟩)]

def granting : Handler (fun _ : Http.HttpRequest => Http.Transmission) Unit :=
  fun _ w => (w, .response 200 none "\x7b\"access_token\":\"t\"\x7d".toUTF8.toList)

theorem body_rewritten_whole_numbers :
    Json.parse "\x7b\"slots\":[-1, \"am\"], \"id\":7\x7d" = .ok hearing7 ∧
      called ((deliver (.ofSeconds 30) 1 .request
        "\x7b\"slots\":[-1, \"am\"], \"id\":7\x7d").replies
          (World.handle (fun _ _ => none) 30) (World.empty 0)) = [⟨.request, 1, hearing7⟩] ∧
      ((Downstream.perform {} ⟨.request, 1, hearing7⟩).replies granting ()).length = 2 ∧
      (∀ reply ∈ ((Downstream.perform {} ⟨.request, 1, hearing7⟩).replies granting ()).tail,
        reply.1.body = "\x7b\"id\":7,\"slots\":[-1,\"am\"]\x7d") ∧
      Json.Same hearing7 hearing7.canonical := by
  have hparse : Json.parse "\x7b\"slots\":[-1, \"am\"], \"id\":7\x7d" = .ok hearing7 := by
    decide +kernel
  have hwrite : hearing7.write = "\x7b\"id\":7,\"slots\":[-1,\"am\"]\x7d" := by decide +kernel
  have hsent :
      ((Downstream.perform {} ⟨.request, 1, hearing7⟩).replies granting ()).length = 2 := by
    decide +kernel
  have hfaithful : hearing7.Faithful := by
    refine ⟨by decide, ⟨?_, trivial, trivial⟩, ?_, trivial⟩
    · exact Json.Literal.canonical_value_of_integer (k := -1) (by decide)
    · exact Json.Literal.canonical_value_of_integer (k := 7) (by decide)
  obtain ⟨hcalled, hbody, -, hsame⟩ := body_rewritten (World.handle (fun _ _ => none) 30)
    (World.empty 0) {} granting () (.ofSeconds 30) 1 .request hparse
  exact ⟨hparse, hcalled, hsent, hwrite ▸ hbody, hsame.mpr hfaithful⟩

def longNumber : Json.Literal := ⟨false, "12345678901234567890123".toList, none, none⟩

def repeatedName : Json.Value :=
  .object [("fee", .number ⟨false, ['1'], none, none⟩), ("fee", .number ⟨false, ['2'], none, none⟩)]

theorem longNumber_unfaithful : ¬ longNumber.value = longNumber.canonical.value := by
  have hsignificand : longNumber.significand = 12345678901234567890123 := by decide +kernel
  have hscale : longNumber.scale = 0 := by decide +kernel
  have hcut : longNumber.canonical.significand = 12345678901234568 := by decide +kernel
  have hpower : longNumber.canonical.scale = 6 := by decide +kernel
  unfold Json.Literal.value
  rw [hsignificand, hscale, hcut, hpower]
  norm_num

/-- Long numbers are cut, and of the members with one name only the last is sent. -/
theorem body_altered :
    (Json.parse "\x7b\"n\":12345678901234567890123\x7d" =
        .ok (.object [("n", .number longNumber)]) ∧
      (Json.Value.object [("n", .number longNumber)]).write =
        "\x7b\"n\":1.2345678901234568e+22\x7d" ∧
      ¬ Json.Same (.object [("n", .number longNumber)])
        (Json.Value.object [("n", .number longNumber)]).canonical) ∧
    Json.parse "\x7b\"fee\":1,\"fee\":2\x7d" = .ok repeatedName ∧
      repeatedName.write = "\x7b\"fee\":2\x7d" ∧
      ¬ Json.Same repeatedName repeatedName.canonical := by
  refine ⟨⟨by decide +kernel, by decide +kernel, ?_⟩, by decide +kernel, by decide +kernel, ?_⟩
  · rw [Json.same_canonical_iff]
    exact fun h => longNumber_unfaithful h.2.1
  · rw [Json.same_canonical_iff]
    exact fun h => absurd h.1 (by decide)

end Delivery

end HearingRelay
