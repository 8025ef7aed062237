import HearingRelay.Message.Envelope

/-!
The message that reports the outcome of a call of the scheduling service: the
HTTP status that decided it, and for a refusal the error code and the
description that came with it.
-/

namespace HearingRelay

structure SyncResponse where
  status : Nat
  errorCode : Option Int
  description : Option String
deriving DecidableEq, Repr, Inhabited

namespace SyncResponse

def messageType : String := "LA_SYNC_HEARING_RESPONSE"

def success (status : Nat) : SyncResponse := ⟨status, none, none⟩

def failure (status : Nat) (errorCode : Option Int) (description : Option String) : SyncResponse :=
  ⟨status, errorCode, description⟩

def write (r : SyncResponse) : String :=
  Json.writePairs [
    ("listAssistHttpStatus", Text.writeNat r.status),
    ("listAssistErrorCode", Json.writeOptional Text.writeInt r.errorCode),
    ("listAssistErrorDescription", Json.writeOptional Json.writeString r.description)]

structure Draft where
  status : Option Int
  errorCode : Option (Option Int)
  description : Option (Option String)

def fields : List (Json.Field Draft) := [
  { name := "listAssistHttpStatus", isSet := fun d => d.status.isSome, hasDefault := false,
    read := fun d rest => (Json.readIntegerWithin 0 Bounds.maxUInt16 "u16" rest).map fun p =>
      ({ d with status := some p.1 }, p.2) },
  { name := "listAssistErrorCode", isSet := fun d => d.errorCode.isSome, hasDefault := false,
    read := fun d rest =>
      (Json.readOptional (Json.readIntegerWithin Bounds.minInt32 Bounds.maxInt32 "i32") rest).map
        fun p => ({ d with errorCode := some p.1 }, p.2) },
  { name := "listAssistErrorDescription", isSet := fun d => d.description.isSome,
    hasDefault := false,
    read := fun d rest => (Json.readOptional Json.readText rest).map fun p =>
      ({ d with description := some p.1 }, p.2) }]

def reader : Json.Reader SyncResponse :=
  Json.readRecord "struct SyncResponse" fields ⟨none, none, none⟩ fun d => do
    let status ← Json.required "listAssistHttpStatus" d.status
    .ok ⟨status.toNat, d.errorCode.getD none, d.description.getD none⟩

def parse (text : String) : Except Json.Error SyncResponse := Json.runReader reader text

def properties (hearing : Int) : Properties :=
  Properties.ofList [(Envelope.messageTypeProperty, messageType),
    (Envelope.hearingIdProperty, Text.writeInt hearing)]

def toEnvelope (r : SyncResponse) (id : String) (hearing : Int) : Envelope :=
  ⟨id, properties hearing, r.write⟩

end SyncResponse

end HearingRelay
