import HearingRelay.Message.RoutingKey
import HearingRelay.Proofs.Message.Reports
import HearingRelay.Proofs.Text.Numerals

/-!
The grammar of routing. A message is routed exactly when one property names an
event and another names a hearing, both after trimming; a failure tells which of
the two is wrong, the event first, and shows the text that stood there. So the
hearing that a report names is read back, whatever blanks come around it.
-/

namespace HearingRelay.RoutingKey

open Text (TrimsTo Numeral isBlank)

/-- The text is the name of an event, blanks around it aside. -/
def NamesEvent (text : String) (t : EventType) : Prop := TrimsTo text.toList t.name.toList

/-- The text is a numeral of a signed 64-bit number, blanks around it aside. -/
def NamesHearing (text : String) (n : Int) : Prop :=
  ∃ core, TrimsTo text.toList core ∧ Numeral core n ∧ -2 ^ 63 ≤ n ∧ n ≤ 2 ^ 63 - 1

/-- What is wrong with a property that has no text of the form asked for: it is
missing, or its text, shown as it stands, is of another form. -/
def IsFault (properties : Properties) (name : String) (wellFormed : String → Prop) :
    RoutingError → Prop
  | .missing other => other = name ∧ properties.get? name = none
  | .invalid other text =>
    other = name ∧ properties.get? name = some text ∧ ¬ wellFormed text

theorem readEventType?_iff {text : String} {t : EventType} :
    readEventType? (Text.trim text.toList) = some t ↔ NamesEvent text t := by
  unfold NamesEvent
  rw [Text.trimsTo_iff]
  constructor
  · intro h
    rw [EventType.ofName?_eq_some h, String.toList_ofList]
  · intro h
    unfold readEventType?
    rw [h, String.ofList_toList, EventType.ofName?_name]

theorem readHearing?_iff {text : String} {n : Int} :
    readHearing? (Text.trim text.toList) = some n ↔ NamesHearing text n := by
  unfold readHearing?
  rw [Text.readIntWithin?_eq_some]
  constructor
  · rintro ⟨hnumeral, hbounds⟩
    exact ⟨_, Text.trimsTo_iff.mpr rfl, hnumeral, hbounds⟩
  · rintro ⟨core, htrims, hnumeral, hbounds⟩
    rw [Text.trimsTo_iff.mp htrims]
    exact ⟨hnumeral, hbounds⟩

section Property

variable {α : Type} {read : List Char → Option α} {properties : Properties} {name : String}
  {Names : String → α → Prop}
  (hread : ∀ {text a}, read (Text.trim text.toList) = some a ↔ Names text a)

include hread

theorem readProperty_eq_ok {a : α} : readProperty read properties name = .ok a ↔
    ∃ text, properties.get? name = some text ∧ Names text a := by
  unfold readProperty
  cases hget : properties.get? name with
  | none => simp
  | some text =>
    dsimp only
    cases hvalue : read (Text.trim text.toList) with
    | none =>
      have hnot : ¬ Names text a := fun hnames => by simp [hread.mpr hnames] at hvalue
      simp [hnot]
    | some b =>
      have hiff : b = a ↔ Names text a := by simp [← hread, hvalue]
      simp [hiff]

/-- A property is at fault when it is missing or is of another form. -/
theorem readProperty_eq_error {e : RoutingError} :
    readProperty read properties name = .error e ↔
      IsFault properties name (fun text => ∃ a, Names text a) e := by
  unfold readProperty
  cases hget : properties.get? name with
  | none => cases e <;> simp [IsFault, hget, eq_comm]
  | some text =>
    dsimp only
    cases hvalue : read (Text.trim text.toList) with
    | none =>
      have hnot : ∀ a, ¬ Names text a := fun a hnames => by simp [hread.mpr hnames] at hvalue
      cases e with
      | missing other => simp [IsFault, hget]
      | invalid other shown =>
        have hshown : text = shown → ∀ a, ¬ Names shown a := fun h => h ▸ hnot
        simpa [IsFault, hget, eq_comm] using fun _ => hshown
    | some b =>
      have hnames : Names text b := hread.mp hvalue
      cases e with
      | missing other => simp [IsFault, hget]
      | invalid other shown =>
        have hshown : text = shown → ∃ a, Names shown a := fun h => ⟨b, h ▸ hnames⟩
        simpa [IsFault, hget] using fun _ => hshown

end Property

theorem ofProperties_eq_ok {properties : Properties} {key : RoutingKey} :
    ofProperties properties = .ok key ↔
      readProperty readEventType? properties Envelope.messageTypeProperty = .ok key.eventType ∧
        readProperty readHearing? properties Envelope.hearingIdProperty = .ok key.hearing := by
  obtain ⟨t, n⟩ := key
  unfold ofProperties
  cases readProperty readEventType? properties Envelope.messageTypeProperty with
  | error e => simp [bind, Except.bind]
  | ok t' =>
    cases readProperty readHearing? properties Envelope.hearingIdProperty with
    | error e => simp [bind, Except.bind]
    | ok n' => simp [bind, Except.bind]

/-- The event is looked at first. -/
theorem ofProperties_eq_error {properties : Properties} {e : RoutingError} :
    ofProperties properties = .error e ↔
      readProperty readEventType? properties Envelope.messageTypeProperty = .error e ∨
        (∃ t, readProperty readEventType? properties Envelope.messageTypeProperty = .ok t) ∧
          readProperty readHearing? properties Envelope.hearingIdProperty = .error e := by
  unfold ofProperties
  cases readProperty readEventType? properties Envelope.messageTypeProperty with
  | error e' => simp [bind, Except.bind]
  | ok t =>
    cases readProperty readHearing? properties Envelope.hearingIdProperty with
    | error e' => simp [bind, Except.bind]
    | ok n => simp [bind, Except.bind]

/-- A numeral of a hearing names it, whatever blanks come around it. -/
theorem namesHearing_writeInt {n : Int} (hlow : -2 ^ 63 ≤ n) (hhigh : n ≤ 2 ^ 63 - 1)
    {before after : String} (hbefore : Text.IsBlankText before) (hafter : Text.IsBlankText after) :
    NamesHearing (before ++ Text.writeInt n ++ after) n := by
  refine ⟨(Text.writeInt n).toList, ?_, Text.numeral_writeInt n, hlow, hhigh⟩
  rw [String.toList_append, String.toList_append]
  exact (Text.numeral_writeInt n).trimsTo hbefore hafter

end HearingRelay.RoutingKey
