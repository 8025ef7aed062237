import HearingRelay.Proofs.Json.Documents
import HearingRelay.Downstream.Client

/-!
What becomes of the body of a refusal. An object with an error code and a
description, each at most once and `null` or of the right kind, gives these two;
an array of two such values does too. Any other document, and a text that is
no document, is the description itself. So nothing is reported of an object
that has neither member, and nothing of a code that came with a refused
authorization.
-/

namespace HearingRelay

namespace ErrorDetails

def valuesOf (name : String) (members : List (String × Json.Value)) : List Json.Value :=
  (members.filter (·.1 == name)).map (·.2)

/-- What a member that may be left out, but not stand twice, says. -/
def atMostOne? {α : Type} (take : Json.Value → Option (Option α)) :
    List Json.Value → Option (Option α)
  | [] => some none
  | [v] => take v
  | _ => none

def codeOf? : Json.Value → Option (Option Int) :=
  Json.Value.optional? (Json.Value.integerWithin? Bounds.minInt32 Bounds.maxInt32)

def descriptionOf? : Json.Value → Option (Option String) :=
  Json.Value.optional? Json.Value.text?

/-- The details that a document states, if it is one that states details. -/
def ofDocument? : Json.Value → Option ErrorDetails
  | .object members => do
    let code ← atMostOne? codeOf? (valuesOf "errCode" members)
    let description ← atMostOne? descriptionOf? (valuesOf "errorDesc" members)
    some ⟨code, description⟩
  | .array [first, second] => do
    let code ← codeOf? first
    let description ← descriptionOf? second
    some ⟨code, description⟩
  | _ => none

section Reading

def takeField (name : String) (d : Draft) (v : Json.Value) : Option Draft :=
  if name = "errCode" then (codeOf? v).map fun code => { d with code := some code }
  else (descriptionOf? v).map fun description => { d with description := some description }

theorem decodes_fields :
    ∀ field ∈ fields, ∀ d, Json.Decodes (field.read d) (takeField field.name d) := by
  have hcode := Json.decodes_readOptional
    (Json.decodes_readIntegerWithin Bounds.minInt32 Bounds.maxInt32 "i32")
  have hdescription := Json.decodes_readOptional Json.decodes_readText
  refine List.forall_mem_cons.mpr ⟨fun d => ?_, List.forall_mem_cons.mpr ⟨fun d => ?_, by simp⟩⟩
  · intro depth rest v rest' h
    have hgives := (hcode h).map fun p => ({ d with code := some p.1 }, p.2)
    simpa [takeField, codeOf?, Option.map_map, Function.comp_def] using hgives
  · intro depth rest v rest' h
    have hgives := (hdescription h).map fun p => ({ d with description := some p.1 }, p.2)
    simpa [takeField, descriptionOf?, Option.map_map, Function.comp_def] using hgives

/-- Values under one name, taken in turn by a field that is set once. -/
def takeOnce {α : Type} (take : Json.Value → Option α) :
    Option α → List Json.Value → Option (Option α)
  | o, [] => some o
  | none, v :: values => (take v).bind fun a => takeOnce take (some a) values
  | some _, _ :: _ => none

theorem takeOnce_none {α : Type} (take : Json.Value → Option (Option α))
    (values : List Json.Value) :
    (takeOnce take none values).map (·.getD none) = atMostOne? take values := by
  match values with
  | [] => rfl
  | [v] => cases htake : take v <;> simp [takeOnce, atMostOne?, htake]
  | v :: w :: values => cases htake : take v <;> simp [takeOnce, atMostOne?, htake]

section Members

variable (d : Draft) (v : Json.Value) (members : List (String × Json.Value))

theorem valuesOf_cons_self (name : String) :
    valuesOf name ((name, v) :: members) = v :: valuesOf name members := by
  simp [valuesOf]

theorem valuesOf_cons_of_ne {name name' : String} (h : name' ≠ name) :
    valuesOf name ((name', v) :: members) = valuesOf name members := by
  simp [valuesOf, h]

theorem takeMembers_code : Json.takeMembers fields takeField d (("errCode", v) :: members) =
    if d.code.isSome then none
    else (codeOf? v).bind fun code =>
      Json.takeMembers fields takeField { d with code := some code } members := by
  have hfield : fields.find? (·.name == "errCode") = some fields[0] := rfl
  have hset : fields[0].isSet d = d.code.isSome := rfl
  simp only [Json.takeMembers, hfield, hset, takeField, if_true, Option.bind_map, Function.comp_def]

theorem takeMembers_description :
    Json.takeMembers fields takeField d (("errorDesc", v) :: members) =
      if d.description.isSome then none
      else (descriptionOf? v).bind fun description =>
        Json.takeMembers fields takeField { d with description := some description } members := by
  have hfield : fields.find? (·.name == "errorDesc") = some fields[1] := rfl
  have hset : fields[1].isSet d = d.description.isSome := rfl
  have hne : ¬ "errorDesc" = "errCode" := by decide
  simp only [Json.takeMembers, hfield, hset, takeField, hne, if_false, Option.bind_map,
    Function.comp_def]

theorem takeMembers_other {name : String} (hcode : name ≠ "errCode")
    (hdescription : name ≠ "errorDesc") :
    Json.takeMembers fields takeField d ((name, v) :: members) =
      Json.takeMembers fields takeField d members := by
  have hfield : fields.find? (·.name == name) = none := by
    simp [fields, hcode.symm, hdescription.symm]
  simp only [Json.takeMembers, hfield]

end Members

/-- The two fields are set independently, each from the values under its name. -/
theorem takeMembers_eq (code : Option (Option Int)) (description : Option (Option String))
    (members : List (String × Json.Value)) :
    Json.takeMembers fields takeField ⟨code, description⟩ members =
      (takeOnce codeOf? code (valuesOf "errCode" members)).bind fun code =>
        (takeOnce descriptionOf? description (valuesOf "errorDesc" members)).map fun description =>
          ⟨code, description⟩ := by
  induction members generalizing code description with
  | nil => rfl
  | cons member members ih =>
    obtain ⟨name, v⟩ := member
    by_cases hcode : name = "errCode"
    · subst hcode
      rw [takeMembers_code, valuesOf_cons_self, valuesOf_cons_of_ne _ _ (by decide)]
      cases code with
      | some c => rfl
      | none => cases htake : codeOf? v <;> simp [takeOnce, htake, ih]
    · by_cases hdescription : name = "errorDesc"
      · subst hdescription
        rw [takeMembers_description, valuesOf_cons_self, valuesOf_cons_of_ne _ _ (by decide)]
        cases description with
        | some t => cases takeOnce codeOf? code (valuesOf "errCode" members) <;> rfl
        | none =>
          cases htake : descriptionOf? v with
          | none =>
            cases takeOnce codeOf? code (valuesOf "errCode" members) <;> simp [takeOnce, htake]
          | some t => simp [takeOnce, htake, ih]
      · rw [takeMembers_other _ _ _ hcode hdescription, valuesOf_cons_of_ne _ _ hcode,
          valuesOf_cons_of_ne _ _ hdescription]
        exact ih code description

/-- Two values in turn are the details of an array. -/
theorem takeItems_eq (items : List Json.Value) :
    ((Json.takeItems takeField fields ⟨none, none⟩ items).map fun d =>
      (⟨d.code.getD none, d.description.getD none⟩ : ErrorDetails)) =
        ofDocument? (.array items) := by
  match items with
  | [] => rfl
  | [first] =>
    simp only [Json.takeItems, fields, takeField, ofDocument?]
    cases codeOf? first <;> rfl
  | first :: second :: third :: items =>
    simp only [Json.takeItems, fields, takeField, ofDocument?]
    cases codeOf? first <;> cases descriptionOf? second <;> simp
  | [first, second] =>
    simp only [Json.takeItems, fields, takeField, ofDocument?]
    cases codeOf? first <;> cases descriptionOf? second <;> simp

theorem takeRecord_eq (v : Json.Value) :
    ((Json.takeRecord fields takeField ⟨none, none⟩ v).map fun d =>
      (⟨d.code.getD none, d.description.getD none⟩ : ErrorDetails)) = ofDocument? v := by
  cases v with
  | object members =>
    have hcode := takeOnce_none codeOf? (valuesOf "errCode" members)
    have hdescription := takeOnce_none descriptionOf? (valuesOf "errorDesc" members)
    simp only [Json.takeRecord, takeMembers_eq, ofDocument?, ← hcode, ← hdescription]
    cases takeOnce codeOf? none (valuesOf "errCode" members) <;>
      cases takeOnce descriptionOf? none (valuesOf "errorDesc" members) <;> rfl
  | array items => exact takeItems_eq items
  | _ => rfl

/-- The reader of details makes of a document what the document states. -/
theorem decodes_reader : Json.Decodes reader ofDocument? := by
  intro depth rest v rest' h
  have htaken := takeRecord_eq v
  rw [Option.map_eq_bind] at htaken
  rw [← htaken]
  exact Json.decodes_readRecord "struct ErrorDetails" decodes_fields h

/-- The details in a body that is a document. -/
theorem ofBody_of_parse {body : String} {v : Json.Value} (h : Json.parse body = .ok v) :
    ofBody body = (ofDocument? v).getD ⟨none, some body⟩ := by
  have hgives := Json.runReader_gives decodes_reader h
  unfold ofBody
  rw [if_neg (Json.not_isBlankText_of_parse h)]
  cases hdetails : ofDocument? v with
  | none =>
    simp only [hdetails, Json.Gives] at hgives
    obtain ⟨e, he⟩ := hgives
    rw [he]
    rfl
  | some details =>
    simp only [hdetails, Json.Gives] at hgives
    rw [hgives]
    rfl

/-- A code is a 32-bit number, whatever the body is. -/
theorem ofBody_code {body : String} {code : Int} (h : (ofBody body).code = some code) :
    Bounds.minInt32 ≤ code ∧ code ≤ Bounds.maxInt32 := by
  have hfields : ∀ field ∈ fields, ∀ d rest d' rest',
      (∀ k, d.code = some (some k) → Bounds.minInt32 ≤ k ∧ k ≤ Bounds.maxInt32) →
      field.read d rest = .ok (d', rest') →
        ∀ k, d'.code = some (some k) → Bounds.minInt32 ≤ k ∧ k ≤ Bounds.maxInt32 := by
    refine List.forall_mem_cons.mpr ⟨?_, List.forall_mem_cons.mpr ⟨?_, by simp⟩⟩
    · intro d rest d' rest' _ hread k hk
      obtain ⟨⟨o, tail⟩, hvalue, heq⟩ := exists_of_map_eq_ok hread
      obtain ⟨rfl, rfl⟩ := Prod.mk.inj heq
      obtain rfl : o = some k := Option.some.inj hk
      obtain ⟨rest₁, hinteger⟩ := Json.exists_of_readOptional hvalue
      exact Json.within_of_readIntegerWithin hinteger
    · intro d rest d' rest' hd hread
      obtain ⟨p, -, heq⟩ := exists_of_map_eq_ok hread
      obtain ⟨rfl, -⟩ := Prod.mk.inj heq
      exact hd
  unfold ofBody at h
  split_ifs at h with hblank
  split at h
  · next details hread =>
    obtain ⟨rest, hreader, -⟩ := Json.exists_of_runReader hread
    obtain ⟨d, hd, hfinish⟩ := Json.readRecord_keeps hfields (by simp) hreader
    obtain rfl := Except.ok.inj hfinish
    cases hcode : d.code with
    | none => simp [hcode] at h
    | some o => exact hd code (by rw [hcode]; simpa [hcode] using h)
  · simp at h

end Reading

end ErrorDetails

end HearingRelay
