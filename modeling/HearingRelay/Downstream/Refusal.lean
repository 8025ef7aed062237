import HearingRelay.Json.Record
import HearingRelay.Text.Blank
import HearingRelay.Bounds

/-!
What the body of a refusal says: a code and a description when it is an object
that the service writes for errors, and otherwise its text as a description.
-/

namespace HearingRelay

structure ErrorDetails where
  code : Option Int
  description : Option String
deriving DecidableEq, Repr

namespace ErrorDetails

structure Draft where
  code : Option (Option Int)
  description : Option (Option String)

def fields : List (Json.Field Draft) := [
  { name := "errCode", isSet := fun d => d.code.isSome, hasDefault := false,
    read := fun d rest =>
      (Json.readOptional (Json.readIntegerWithin Bounds.minInt32 Bounds.maxInt32 "i32") rest).map
        fun p => ({ d with code := some p.1 }, p.2) },
  { name := "errorDesc", isSet := fun d => d.description.isSome, hasDefault := false,
    read := fun d rest => (Json.readOptional Json.readText rest).map fun p =>
      ({ d with description := some p.1 }, p.2) }]

def reader : Json.Reader ErrorDetails :=
  Json.readRecord "struct ErrorDetails" fields ⟨none, none⟩ fun d =>
    .ok ⟨d.code.getD none, d.description.getD none⟩

/-- The details in the body of a refusal. A blank body has none. -/
def ofBody (body : String) : ErrorDetails :=
  if Text.IsBlankText body then ⟨none, none⟩
  else
    match Json.runReader reader body with
    | .ok details => details
    | .error _ => ⟨none, some body⟩

end ErrorDetails

end HearingRelay
