import HearingRelay.Json.Printer
import HearingRelay.Json.Record

/-!
Messages as the queues carry them: an identifier, a body that the transport
does not look into, and properties under distinct names.
-/

namespace HearingRelay

/-- Texts under distinct names, sorted by name. -/
structure Properties where
  entries : List (String × String)
  sorted : entries.Pairwise fun a b => a.1 < b.1
deriving DecidableEq

namespace Properties

def empty : Properties := ⟨[], .nil⟩

instance : Inhabited Properties := ⟨empty⟩

def get? (p : Properties) (name : String) : Option String :=
  (p.entries.find? (·.1 == name)).map (·.2)

theorem mem_insertSorted {α : Type} {name : String} {a : α} {l : List (String × α)}
    {x : String × α} (h : x ∈ Json.insertSorted name a l) : x = (name, a) ∨ x ∈ l := by
  induction l with
  | nil => simpa [Json.insertSorted] using h
  | cons head rest ih =>
    obtain ⟨k, b⟩ := head
    simp only [Json.insertSorted] at h
    split at h
    · simpa using h
    · split at h
      · rcases List.mem_cons.mp h with h | h
        · exact Or.inl h
        · exact Or.inr (List.mem_cons_of_mem _ h)
      · rcases List.mem_cons.mp h with h | h
        · exact Or.inr (by simp [h])
        · rcases ih h with h | h
          · exact Or.inl h
          · exact Or.inr (List.mem_cons_of_mem _ h)

theorem pairwise_insertSorted {α : Type} (name : String) (a : α) {l : List (String × α)}
    (h : l.Pairwise fun a b => a.1 < b.1) :
    (Json.insertSorted name a l).Pairwise fun a b => a.1 < b.1 := by
  induction l with
  | nil => simp [Json.insertSorted]
  | cons head rest ih =>
    obtain ⟨k, b⟩ := head
    obtain ⟨hk, hrest⟩ := List.pairwise_cons.mp h
    simp only [Json.insertSorted]
    split
    · next hlt =>
      refine List.pairwise_cons.mpr ⟨fun x hx => ?_, h⟩
      rcases List.mem_cons.mp hx with hx | hx
      · subst hx; exact hlt
      · exact String.lt_trans hlt (hk x hx)
    · next hge =>
      split
      · next heq => subst heq; exact List.pairwise_cons.mpr ⟨hk, hrest⟩
      · next hne =>
        refine List.pairwise_cons.mpr ⟨fun x hx => ?_, ih hrest⟩
        rcases mem_insertSorted hx with hx | hx
        · subst hx
          rcases Decidable.em (k < name) with h | h
          · exact h
          · exact absurd (String.le_antisymm (String.not_lt.mp h) (String.not_lt.mp hge)) hne
        · exact hk x hx

def set (p : Properties) (name text : String) : Properties :=
  ⟨Json.insertSorted name text p.entries, pairwise_insertSorted name text p.sorted⟩

/-- Of several texts under one name the last stays. -/
def ofList (pairs : List (String × String)) : Properties :=
  pairs.foldl (fun p pair => p.set pair.1 pair.2) empty

end Properties

structure Envelope where
  id : String
  properties : Properties
  body : String
deriving DecidableEq, Inhabited

namespace Envelope

def messageTypeProperty : String := "message_type"

def hearingIdProperty : String := "hearing_id"

structure Draft where
  id : Option String
  properties : Option Properties
  body : Option String

def fields : List (Json.Field Draft) := [
  { name := "id", isSet := fun d => d.id.isSome, hasDefault := false,
    read := fun d rest => (Json.readText rest).map fun p => ({ d with id := some p.1 }, p.2) },
  { name := "applicationProperties", isSet := fun d => d.properties.isSome, hasDefault := true,
    read := fun d rest => (Json.readTextMap rest).map fun p =>
      ({ d with properties := some (Properties.ofList p.1) }, p.2) },
  { name := "body", isSet := fun d => d.body.isSome, hasDefault := false,
    read := fun d rest => (Json.readText rest).map fun p => ({ d with body := some p.1 }, p.2) }]

def reader : Json.Reader Envelope :=
  Json.readRecord "struct Message" fields ⟨none, none, none⟩ fun d => do
    let id ← Json.required "id" d.id
    let body ← Json.required "body" d.body
    .ok ⟨id, d.properties.getD Properties.empty, body⟩

def parse (text : String) : Except Json.Error Envelope := Json.runReader reader text

def write (e : Envelope) : String :=
  Json.writePairs [
    ("id", Json.writeString e.id),
    ("applicationProperties",
      Json.writePairs (e.properties.entries.map fun p => (p.1, Json.writeString p.2))),
    ("body", Json.writeString e.body)]

def property? (e : Envelope) (name : String) : Option String := e.properties.get? name

end Envelope

end HearingRelay
