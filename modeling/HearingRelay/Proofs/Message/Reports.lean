import HearingRelay.Message.SyncResponse
import HearingRelay.Proofs.Json.Literals

/-!
Reports as they are written. A report of an HTTP status whose error code is a
32-bit number comes back from its message as it was, and the message names the
hearing that the report is about.
-/

namespace HearingRelay

namespace Json

/-- A value that another member follows ends with a comma. -/
theorem endsValue_comma (text rest : List Char) : EndsValue (comma false ++ text ++ rest) := by
  intro c hc
  obtain rfl : ',' = c := by simpa [comma] using hc
  exact Or.inl rfl

/-- A value that is there, or `null` in its place, is read as it was written. -/
theorem readOptional_writeOptional {α : Type} {reader : Reader α} {write : α → String}
    {o : Option α} {rest : List Char}
    (hfirst : ∀ a, o = some a →
      ∃ c tail, (write a).toList = c :: tail ∧ isSeparator c = false ∧ c ≠ 'n')
    (hread : ∀ a, o = some a → reader ((write a).toList ++ rest) = .ok (a, rest)) :
    readOptional reader ((writeOptional write o).toList ++ rest) = .ok (o, rest) := by
  cases o with
  | none =>
    have hnull : "null".toList = ['n', 'u', 'l', 'l'] := by decide
    have hblank : isSeparator 'n' = false := by decide
    unfold readOptional writeOptional
    simp only [hnull, List.cons_append, List.nil_append, skipBlanks_cons hblank]
    rfl
  | some a =>
    obtain ⟨c, tail, htext, hblank, hn⟩ := hfirst a rfl
    have hvalue := hread a rfl
    rw [htext] at hvalue
    unfold readOptional writeOptional
    simp only [htext, List.cons_append, skipBlanks_cons hblank]
    split
    · next heq => exact absurd (List.cons.inj heq).1 hn
    · rw [List.cons_append] at hvalue
      rw [hvalue]
      rfl

theorem writeInt_first (k : Int) :
    ∃ c tail, (Text.writeInt k).toList = c :: tail ∧ isSeparator c = false ∧ c ≠ 'n' := by
  obtain ⟨c, tail, hdigits, hc⟩ := (Literal.ofInt_wellFormed k).whole.exists_cons
  rw [← Literal.ofInt_text]
  unfold Literal.text Literal.unsignedText
  rw [hdigits]
  by_cases hneg : (Literal.ofInt k).negative = true
  · rw [if_pos hneg]
    exact ⟨'-', _, rfl, by decide, by decide⟩
  · rw [if_neg hneg]
    refine ⟨c, _, rfl, isSeparator_of_isDigit hc, ?_⟩
    rintro rfl
    exact absurd hc (by decide)

theorem writeString_first (s : String) :
    ∃ c tail, (writeString s).toList = c :: tail ∧ isSeparator c = false ∧ c ≠ 'n' := by
  have htext := toList_writeString s []
  rw [List.append_nil] at htext
  exact ⟨'"', _, htext, by decide, by decide⟩

end Json

namespace SyncResponse

structure Fits (r : SyncResponse) : Prop where
  status : r.status ≤ Bounds.maxUInt16
  errorCode : ∀ code, r.errorCode = some code → Bounds.minInt32 ≤ code ∧ code ≤ Bounds.maxInt32

def members (r : SyncResponse) : List (String × String) :=
  [("listAssistHttpStatus", Text.writeNat r.status),
    ("listAssistErrorCode", Json.writeOptional Text.writeInt r.errorCode),
    ("listAssistErrorDescription", Json.writeOptional Json.writeString r.description)]

/-- The three fields are read in the order in which they are written. -/
theorem readFields_members {r : SyncResponse} (hr : r.Fits) (fuel : Nat) :
    Json.readFields fields (fuel + 4) true ⟨none, none, none⟩ (Json.membersText true r.members) =
      .ok (⟨some (r.status : Int), some r.errorCode, some r.description⟩, []) := by
  have hstatus : ∀ rest, Json.EndsValue rest → Json.readIntegerWithin 0 Bounds.maxUInt16 "u16"
      ((Text.writeNat r.status).toList ++ rest) = .ok ((r.status : Int), rest) := by
    intro rest hrest
    have hwrite : Text.writeInt (r.status : Int) = Text.writeNat r.status := by
      simp [Text.writeInt]
    have hbound := hr.status
    rw [← hwrite]
    exact Json.readIntegerWithin_writeInt "u16" (by decide) (by decide) ⟨by omega, by omega⟩ hrest
  have hcode : ∀ rest, Json.EndsValue rest →
      Json.readOptional (Json.readIntegerWithin Bounds.minInt32 Bounds.maxInt32 "i32")
        ((Json.writeOptional Text.writeInt r.errorCode).toList ++ rest) =
          .ok (r.errorCode, rest) := by
    intro rest hrest
    refine Json.readOptional_writeOptional (fun k _ => Json.writeInt_first k) fun k hk => ?_
    exact Json.readIntegerWithin_writeInt "i32" (by decide) (by decide) (hr.errorCode k hk) hrest
  have hdescription : ∀ rest, Json.readOptional Json.readText
      ((Json.writeOptional Json.writeString r.description).toList ++ rest) =
        .ok (r.description, rest) := fun rest =>
    Json.readOptional_writeOptional (fun s _ => Json.writeString_first s)
      fun s _ => Json.readText_writeString s rest
  simp only [members, Json.membersText]
  rw [Json.readFields_member rfl ⟨some (r.status : Int), none, none⟩ rfl]
  · rw [Json.readFields_member rfl ⟨some (r.status : Int), some r.errorCode, none⟩ rfl]
    · rw [Json.readFields_member rfl
        ⟨some (r.status : Int), some r.errorCode, some r.description⟩ rfl]
      · exact Json.readFields_end fields fuel false _ []
      · simp only [hdescription]
        rfl
    · simp only [hcode _ (Json.endsValue_comma _ _)]
      rfl
  · simp only [hstatus _ (Json.endsValue_comma _ _)]
    rfl

/-- A report comes back as it was written. -/
theorem parse_write {r : SyncResponse} (hr : r.Fits) : parse r.write = .ok r := by
  have hbrace : Json.isSeparator '\x7b' = false := by decide
  have hlength : 3 < (Json.membersText true r.members).length :=
    Json.length_le_membersText true r.members
  obtain ⟨fuel, hfuel⟩ : ∃ fuel, (Json.membersText true r.members).length + 1 = fuel + 4 :=
    ⟨(Json.membersText true r.members).length - 3, by omega⟩
  have hwrite : r.write.toList = '\x7b' :: Json.membersText true r.members :=
    Json.toList_writePairs r.members
  apply Json.runReader_eq_ok
  unfold reader Json.readRecord
  rw [hwrite, Json.skipBlanks_cons hbrace]
  simp only [hfuel, readFields_members hr]
  rfl

theorem properties_entries (hearing : Int) : (properties hearing).entries =
    [(Envelope.hearingIdProperty, Text.writeInt hearing),
      (Envelope.messageTypeProperty, messageType)] := by
  have hnames : Envelope.hearingIdProperty < Envelope.messageTypeProperty := by decide
  simp [properties, Properties.ofList, Properties.set, Properties.empty, Json.insertSorted, hnames]

/-- The message of a report names the hearing and marks the report as one. -/
theorem toEnvelope_properties (r : SyncResponse) (id : String) (hearing : Int) :
    (r.toEnvelope id hearing).property? Envelope.hearingIdProperty = some (Text.writeInt hearing) ∧
      (r.toEnvelope id hearing).property? Envelope.messageTypeProperty = some messageType := by
  have hnames : Envelope.hearingIdProperty ≠ Envelope.messageTypeProperty := by decide
  simp [toEnvelope, Envelope.property?, Properties.get?, properties_entries, hnames]

end SyncResponse

end HearingRelay
