import HearingRelay.Json.Record
import HearingRelay.Bounds

/-!
The token that the authorization server gives to a client for its own name and
secret.
-/

namespace HearingRelay

structure AccessToken where
  token : String
  kind : Option String
  expiresIn : Option Nat
deriving DecidableEq, Repr

namespace AccessToken

structure Draft where
  token : Option String
  kind : Option (Option String)
  expiresIn : Option (Option Int)

def fields : List (Json.Field Draft) := [
  { name := "access_token", isSet := fun d => d.token.isSome, hasDefault := false,
    read := fun d rest => (Json.readText rest).map fun p => ({ d with token := some p.1 }, p.2) },
  { name := "token_type", isSet := fun d => d.kind.isSome, hasDefault := true,
    read := fun d rest => (Json.readOptional Json.readText rest).map fun p =>
      ({ d with kind := some p.1 }, p.2) },
  { name := "expires_in", isSet := fun d => d.expiresIn.isSome, hasDefault := true,
    read := fun d rest =>
      (Json.readOptional (Json.readIntegerWithin 0 Bounds.maxUInt64 "u64") rest).map fun p =>
        ({ d with expiresIn := some p.1 }, p.2) }]

def reader : Json.Reader AccessToken :=
  Json.readRecord "struct AccessToken" fields ⟨none, none, none⟩ fun d => do
    let token ← Json.required "access_token" d.token
    .ok ⟨token, d.kind.getD none, (d.expiresIn.getD none).map Int.toNat⟩

def parse (text : String) : Except Json.Error AccessToken := Json.runReader reader text

end AccessToken

end HearingRelay
