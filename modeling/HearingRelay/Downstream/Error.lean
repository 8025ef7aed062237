import HearingRelay.Message.SyncResponse
import HearingRelay.Time.Span

/-!
How a call of the scheduling service ends: with a response, or with one of
seven failures. Three of the failures come from an HTTP response and carry
what it said; the others never got one that could be read.
-/

namespace HearingRelay

structure HearingResponse where
  status : Nat
  description : Option String
deriving DecidableEq, Repr, Inhabited

inductive DownstreamError where
  | rejected (status : Nat) (code : Option Int) (description : Option String)
  | notFound (code : Option Int) (description : Option String)
  | authenticationFailed (status : Nat) (description : Option String)
  | timeout (limit : Time.Span)
  | connection (text : String)
  | invalidResponse (text : String)
  | client (text : String)
deriving DecidableEq, Repr

namespace DownstreamError

def describe (description : Option String) : String := description.getD "no description"

def message : DownstreamError → String
  | rejected status _ description =>
    "Downstream rejected request with HTTP " ++ Text.writeNat status ++ ": " ++ describe description
  | notFound _ description => "Hearing not found downstream: " ++ describe description
  | authenticationFailed status description =>
    "Authentication failed with HTTP " ++ Text.writeNat status ++ ": " ++ describe description
  | timeout limit => "Downstream call timed out after " ++ limit.write
  | connection text => "Connection to downstream failed: " ++ text
  | invalidResponse text => "Undecodable downstream response: " ++ text
  | client text => "HTTP client error: " ++ text

/-- The report of a failure that an HTTP response decided. -/
def report? : DownstreamError → Option SyncResponse
  | rejected status code description => some (.failure status code description)
  | notFound code description => some (.failure 404 code description)
  | authenticationFailed status description => some (.failure status none description)
  | timeout _ | connection _ | invalidResponse _ | client _ => none

end DownstreamError

abbrev CallResult := Except DownstreamError HearingResponse

def CallResult.report? : CallResult → Option SyncResponse
  | .ok response => some (.success response.status)
  | .error e => e.report?

end HearingRelay
