import HearingRelay.Downstream.Call
import HearingRelay.Downstream.Error
import HearingRelay.Downstream.Token
import HearingRelay.Downstream.Refusal
import HearingRelay.Config.Basic
import HearingRelay.Json.Printer
import HearingRelay.Http.Exchange

/-!
Calls of the scheduling service over HTTP. Every call asks for a token first;
without one the service is not called. The status of the response decides the
result, and its body explains a refusal.
-/

namespace HearingRelay

def DownstreamError.ofFault (fault : Http.Fault) : DownstreamError :=
  match fault with
  | .unbuildable | .notOfTheWeb _ | .dropped _ => .client fault.message
  | .refused _ => .connection fault.message
  | .timedOut _ => .connection ("request timed out: " ++ fault.message)
  | .truncated => .invalidResponse fault.message

namespace Downstream

/-! Tokens -/

/-- What a client says of itself. An empty scope is not asked for. -/
def credentials (c : Config.Downstream) : List (String × String) :=
  [("grant_type", "client_credentials"), ("client_id", c.clientId),
    ("client_secret", c.clientSecret)] ++
    if c.scope.isEmpty then [] else [("scope", c.scope)]

def tokenRequest (c : Config.Downstream) : Except Http.Fault Http.HttpRequest :=
  Http.build .post c.tokenUrl "*/*" "application/x-www-form-urlencoded" none
    (Http.writeForm (credentials c))

def tokenOf (r : Http.Response) : Except DownstreamError AccessToken :=
  if r.IsSuccess then
    (AccessToken.parse r.text).mapError fun e =>
      .invalidResponse ("token response: " ++ e.message)
  else .error (.authenticationFailed r.status (Text.nonBlank r.text))

def authenticate (c : Config.Downstream) : Http.Exchange (Except DownstreamError AccessToken) := do
  match ← Http.transmit (tokenRequest c) with
  | .error fault => pure (.error (DownstreamError.ofFault fault))
  | .ok response => pure (tokenOf response)

/-! Hearings -/

def dropEndSlashes (s : String) : String :=
  String.ofList (s.toList.reverse.dropWhile (· == '/')).reverse

/-- The address of a call. A call that names a hearing has its number at the end. -/
def hearingAddress (c : Config.Downstream) (call : DownstreamCall) : String :=
  dropEndSlashes c.baseUrl ++ "/hearing" ++
    match call.target? with
    | some hearing => "/" ++ Text.writeInt hearing
    | none => ""

def method : EventType → Http.Method
  | .request => .post
  | .amend => .put
  | .delete => .delete

def hearingRequest (c : Config.Downstream) (token : AccessToken) (call : DownstreamCall) :
    Except Http.Fault Http.HttpRequest :=
  Http.build (method call.eventType) (hearingAddress c call) "application/json" "application/json"
    (some ("Bearer " ++ token.token)) call.payload.write

def resultOf (r : Http.Response) : CallResult :=
  if r.IsSuccess then .ok ⟨r.status, Text.nonBlank r.text⟩
  else
    let details := ErrorDetails.ofBody r.text
    if r.status = 404 then .error (.notFound details.code details.description)
    else if r.status = 401 ∨ r.status = 403 then
      .error (.authenticationFailed r.status details.description)
    else .error (.rejected r.status details.code details.description)

def perform (c : Config.Downstream) (call : DownstreamCall) : Http.Exchange CallResult := do
  match ← authenticate c with
  | .error e => pure (.error e)
  | .ok token =>
    match ← Http.transmit (hearingRequest c token call) with
    | .error fault => pure (.error (DownstreamError.ofFault fault))
    | .ok response => pure (resultOf response)

end Downstream

end HearingRelay
