import HearingRelay.Http.Url
import HearingRelay.Http.Charset
import HearingRelay.Program

/-!
Requests over HTTP and what comes of them. A request is built before it is
sent: its address must name a host and be one of the web, and what is written
into a header must be printable. A request that was sent has a response with a
status, or is lost in one of four ways.
-/

namespace HearingRelay.Http

inductive Method where
  | post
  | put
  | delete
deriving DecidableEq, Repr

def Method.name : Method → String
  | post => "POST"
  | put => "PUT"
  | delete => "DELETE"

structure HttpRequest where
  method : Method
  url : Url
  accept : String
  authorization : Option String
  contentType : String
  body : String
deriving DecidableEq, Repr

inductive Transmission where
  | response (status : Nat) (contentType : Option String) (body : List UInt8)
  /-- The body of the response ends before its length is reached. -/
  | truncated
  /-- The connection ends without a response. -/
  | dropped
  /-- There is no connection. -/
  | refused
  | timedOut
deriving DecidableEq, Repr

abbrev Exchange (α : Type) := Program (fun _ : HttpRequest => Transmission) α

inductive Fault where
  /-- The address or a header cannot be written into a request. -/
  | unbuildable
  /-- Requests are not sent to addresses of this kind. -/
  | notOfTheWeb (url : Url)
  | dropped (url : Url)
  | refused (url : Url)
  | timedOut (url : Url)
  | truncated
deriving DecidableEq, Repr

namespace Fault

def unsent (url : Url) : String := "error sending request for url (" ++ url.write ++ ")"

def message : Fault → String
  | unbuildable => "builder error"
  | notOfTheWeb url => "builder error for url (" ++ url.write ++ ")"
  | dropped url | refused url | timedOut url => unsent url
  | truncated => "error decoding response body"

end Fault

structure Response where
  status : Nat
  text : String
deriving DecidableEq, Repr

def Response.IsSuccess (r : Response) : Prop := 200 ≤ r.status ∧ r.status < 300

instance (r : Response) : Decidable r.IsSuccess := by unfold Response.IsSuccess; infer_instance

/-- A character that a header can hold: any but the controls, and the tab. -/
def isHeaderChar (c : Char) : Bool := c == '\t' || (0x20 ≤ c.toNat && c.toNat != 0x7F)

/-- The host of an address is looked at first, then the header for the
authorization, and last the scheme. -/
def build (method : Method) (address accept contentType : String)
    (authorization : Option String) (body : String) : Except Fault HttpRequest :=
  match Url.parse address with
  | none => .error .unbuildable
  | some url =>
    if url.host.isNone then .error (.notOfTheWeb url)
    else if authorization.any fun a => a.toList.any (!isHeaderChar ·) then .error .unbuildable
    else if url.isHttp then .ok { method, url, accept, authorization, contentType, body }
    else .error (.notOfTheWeb url)

def received (url : Url) : Transmission → Except Fault Response
  | .response status contentType body => .ok ⟨status, Charset.decode contentType body⟩
  | .truncated => .error .truncated
  | .dropped => .error (.dropped url)
  | .refused => .error (.refused url)
  | .timedOut => .error (.timedOut url)

def transmit (request : Except Fault HttpRequest) : Exchange (Except Fault Response) :=
  match request with
  | .error fault => pure (.error fault)
  | .ok request => do
    let transmission ← Program.call request
    pure (received request.url transmission)

end HearingRelay.Http
