import HearingRelay.Message.Envelope
import HearingRelay.Proofs.Json.RoundTrip
import Mathlib.Data.List.Sort

/-!
Envelopes as they are written. Properties have distinct names, so they come back
as they were from any list of them, sorted or not, and the three fields of an
envelope come back in the order in which they are written. What is published can
be read, and two envelopes that differ are written in two ways.
-/

namespace HearingRelay

namespace Properties

/-- A name that is not there yet is added. -/
theorem insertSorted_perm {α : Type} {name : String} (a : α) {entries : List (String × α)}
    (h : name ∉ entries.map (·.1)) :
    (Json.insertSorted name a entries).Perm ((name, a) :: entries) := by
  induction entries with
  | nil => exact .refl _
  | cons entry rest ih =>
    obtain ⟨hne, hrest⟩ : name ≠ entry.1 ∧ name ∉ rest.map (·.1) := by simpa using h
    simp only [Json.insertSorted, if_neg hne]
    split
    · exact .refl _
    · exact ((ih hrest).cons entry).trans (.swap _ _ _)

theorem foldl_set_perm (p : Properties) {entries : List (String × String)}
    (h : ((p.entries ++ entries).map (·.1)).Nodup) :
    (entries.foldl (fun p pair => p.set pair.1 pair.2) p).entries.Perm (p.entries ++ entries) := by
  induction entries generalizing p with
  | nil => simp
  | cons entry rest ih =>
    obtain ⟨hnew, _⟩ := List.nodup_cons.mp ((List.perm_middle.map _).nodup_iff.mp h)
    have hset : (p.set entry.1 entry.2).entries.Perm (entry :: p.entries) :=
      insertSorted_perm entry.2 fun hmem => hnew (by simpa using Or.inl hmem)
    have hmoved : ((p.set entry.1 entry.2).entries ++ rest).Perm (p.entries ++ entry :: rest) :=
      (hset.append_right rest).trans List.perm_middle.symm
    exact (ih (p.set entry.1 entry.2) ((hmoved.map _).nodup_iff.mpr h)).trans hmoved

theorem eq_of_entries {p q : Properties} (h : p.entries = q.entries) : p = q := by
  cases p
  cases q
  exact (Properties.mk.injEq ..).mpr h

theorem names_nodup (p : Properties) : (p.entries.map (·.1)).Nodup := by
  refine List.pairwise_map.mpr (p.sorted.imp fun {a b} hlt heq => ?_)
  rw [heq] at hlt
  exact String.lt_irrefl _ hlt

/-- The entries of properties come back from any order that they are written in. -/
theorem ofList_of_perm {p : Properties} {entries : List (String × String)}
    (h : entries.Perm p.entries) : ofList entries = p := by
  have hset : (ofList entries).entries.Perm entries :=
    foldl_set_perm empty ((h.map _).nodup_iff.mpr p.names_nodup)
  refine eq_of_entries (List.Perm.eq_of_pairwise ?_ (ofList entries).sorted p.sorted (hset.trans h))
  exact fun a b _ _ hlt hgt => absurd hgt (String.lt_asymm hlt)

end Properties

namespace Envelope

def membersIn (e : Envelope) (entries : List (String × String)) : List (String × String) :=
  [("id", Json.writeString e.id),
    ("applicationProperties", Json.writePairs (Json.textMembers entries)),
    ("body", Json.writeString e.body)]

/-- The written form of an envelope with its properties in a given order. -/
def writeIn (e : Envelope) (entries : List (String × String)) : String :=
  Json.writePairs (e.membersIn entries)

theorem write_eq_writeIn (e : Envelope) : e.write = e.writeIn e.properties.entries := rfl

/-- The three fields are read in the order in which they are written. -/
theorem readFields_membersIn {e : Envelope} {entries : List (String × String)}
    (h : entries.Perm e.properties.entries) (fuel : Nat) :
    Json.readFields fields (fuel + 4) true ⟨none, none, none⟩
        (Json.membersText true (e.membersIn entries)) =
      .ok (⟨some e.id, some e.properties, some e.body⟩, []) := by
  have hproperties : Properties.ofList entries = e.properties := Properties.ofList_of_perm h
  simp only [membersIn, Json.membersText]
  rw [Json.readFields_member rfl ⟨some e.id, none, none⟩ rfl]
  · rw [Json.readFields_member rfl ⟨some e.id, some e.properties, none⟩ rfl]
    · rw [Json.readFields_member rfl ⟨some e.id, some e.properties, some e.body⟩ rfl]
      · exact Json.readFields_end fields fuel false _ []
      · simp only [Json.readText_writeString]
        rfl
    · simp only [Json.readTextMap_writePairs, Except.map, hproperties]
  · simp only [Json.readText_writeString]
    rfl

/-- An envelope comes back in whatever order its properties were written. -/
theorem parse_writeIn {e : Envelope} {entries : List (String × String)}
    (h : entries.Perm e.properties.entries) : parse (e.writeIn entries) = .ok e := by
  have hbrace : Json.isSeparator '\x7b' = false := by decide
  have hlength : 3 < (Json.membersText true (e.membersIn entries)).length :=
    Json.length_le_membersText true (e.membersIn entries)
  obtain ⟨fuel, hfuel⟩ :
      ∃ fuel, (Json.membersText true (e.membersIn entries)).length + 1 = fuel + 4 :=
    ⟨(Json.membersText true (e.membersIn entries)).length - 3, by omega⟩
  have hwrite : (e.writeIn entries).toList =
      '\x7b' :: Json.membersText true (e.membersIn entries) :=
    Json.toList_writePairs (e.membersIn entries)
  apply Json.runReader_eq_ok
  unfold reader Json.readRecord
  rw [hwrite, Json.skipBlanks_cons hbrace]
  simp only [hfuel, readFields_membersIn h]
  rfl

/-- An envelope comes back as it was written. -/
theorem parse_write (e : Envelope) : parse e.write = .ok e := by
  rw [write_eq_writeIn]
  exact parse_writeIn (.refl _)

theorem write_injective {e e' : Envelope} (h : e.write = e'.write) : e = e' :=
  Except.ok.inj (e.parse_write.symm.trans ((congrArg parse h).trans e'.parse_write))

end Envelope

end HearingRelay
