import HearingRelay.Json.Printer
import HearingRelay.Json.Record
import Mathlib.Data.List.Basic

/-!
Reading what was written. The escapes of a written string are read back one by
one, each character with one step; a written object is read member by member.
What follows a written text does not matter to its reader, which stops behind
it. So texts under names, and records of such members, come back as they were.
-/

namespace HearingRelay.Json

/-- A character that no reader skips comes next. -/
theorem skipBlanks_cons {c : Char} (h : isSeparator c = false) (cs : List Char) :
    skipBlanks (c :: cs) = c :: cs := by
  simp [skipBlanks, h]

section Strings

/-- The digits of a control character have the values that they were written for. -/
theorem readHex4_control {n : Nat} (h : n < 0x20) (rest : List Char) :
    readHex4 ('0' :: '0' :: hexDigit (n / 16) :: hexDigit (n % 16) :: rest) = .ok (n, rest) := by
  have hdigit : ∀ k < 16, Text.hexDigitValue? (hexDigit k) = some k := by decide
  have hzero : Text.hexDigitValue? '0' = some 0 := by decide
  have hvalue : 0 * 4096 + 0 * 256 + n / 16 * 16 + n % 16 = n := by omega
  unfold readHex4
  simp only [hzero, hdigit (n / 16) (by omega), hdigit (n % 16) (by omega), hvalue]

theorem readUnicodeEscape_control {c : Char} (h : c.toNat < 0x20) (rest : List Char) :
    readUnicodeEscape ('0' :: '0' :: hexDigit (c.toNat / 16) :: hexDigit (c.toNat % 16) :: rest) =
      .ok (c, rest) := by
  have htrailing : isTrailingSurrogate c.toNat = false := by
    simp only [isTrailingSurrogate, Bool.and_eq_false_iff, decide_eq_false_iff_not]
    omega
  have hleading : isLeadingSurrogate c.toNat = false := by
    simp only [isLeadingSurrogate, Bool.and_eq_false_iff, decide_eq_false_iff_not]
    omega
  unfold readUnicodeEscape
  rw [readHex4_control h]
  simp only [bind, Except.bind, htrailing, hleading, Char.ofNat_toNat, Bool.false_eq_true, if_false]

/-- A written character is read with one step. -/
theorem readCharacters_escapeChar (fuel : Nat) (seen : List Char) (c : Char) (rest : List Char) :
    readCharacters (fuel + 1) seen (escapeChar c ++ rest) =
      readCharacters fuel (c :: seen) rest := by
  unfold escapeChar
  split_ifs with hquote hbackslash hbackspace hfeed hline hreturn htab hcontrol
  · subst hquote; rfl
  · subst hbackslash; rfl
  · subst hbackspace; rfl
  · subst hfeed; rfl
  · subst hline; rfl
  · subst hreturn; rfl
  · subst htab; rfl
  · have hescape := readUnicodeEscape_control hcontrol rest
    simp only [List.cons_append, List.nil_append, readCharacters, readEscape, hescape]
    rfl
  · simp only [List.cons_append, List.nil_append, readCharacters, hquote, hbackslash, hcontrol,
      if_false]

theorem escapeChar_ne_nil (c : Char) : escapeChar c ≠ [] := by
  unfold escapeChar
  split_ifs <;> simp

theorem readCharacters_escaped {fuel : Nat} (seen : List Char) {cs : List Char}
    (h : cs.length < fuel) (rest : List Char) :
    readCharacters fuel seen (cs.flatMap escapeChar ++ '"' :: rest) =
      .ok (seen.reverse ++ cs, rest) := by
  induction cs generalizing fuel seen with
  | nil =>
    obtain ⟨fuel, rfl⟩ := Nat.exists_eq_succ_of_ne_zero (Nat.ne_zero_of_lt h)
    simp [readCharacters]
  | cons c cs ih =>
    obtain ⟨fuel, rfl⟩ := Nat.exists_eq_succ_of_ne_zero (Nat.ne_zero_of_lt h)
    rw [List.flatMap_cons, List.append_assoc, readCharacters_escapeChar,
      ih (c :: seen) (by simpa using h)]
    simp

theorem length_le_escaped (cs : List Char) : cs.length ≤ (cs.flatMap escapeChar).length := by
  induction cs with
  | nil => simp
  | cons c cs ih =>
    have hpos : 0 < (escapeChar c).length := List.length_pos_of_ne_nil (escapeChar_ne_nil c)
    rw [List.flatMap_cons, List.length_append, List.length_cons]
    omega

/-- A written string behind its opening quote. -/
theorem readString_escaped (s : String) (rest : List Char) :
    readString (s.toList.flatMap escapeChar ++ '"' :: rest) = .ok (s, rest) := by
  have hlength := length_le_escaped s.toList
  have hfuel : s.toList.length < (s.toList.flatMap escapeChar ++ '"' :: rest).length + 1 := by
    rw [List.length_append]
    omega
  unfold readString
  rw [readCharacters_escaped [] hfuel]
  simp

theorem toList_writeString (s : String) (rest : List Char) :
    (writeString s).toList ++ rest = '"' :: (s.toList.flatMap escapeChar ++ '"' :: rest) := by
  simp [writeString, String.toList_append]

theorem readText_writeString (s : String) (rest : List Char) :
    readText ((writeString s).toList ++ rest) = .ok (s, rest) := by
  have hquote : isSeparator '"' = false := by decide
  unfold readText
  rw [toList_writeString, skipBlanks_cons hquote]
  exact readString_escaped s rest

end Strings

section Members

def comma (first : Bool) : List Char := if first then [] else [',']

def memberText (member : String × String) : List Char :=
  (writeString member.1).toList ++ ':' :: member.2.toList

def membersText : Bool → List (String × String) → List Char
  | _, [] => ['\x7d']
  | first, member :: rest => comma first ++ memberText member ++ membersText false rest

theorem membersText_later (members : List (String × String)) :
    membersText false members =
      members.flatMap (fun member => ',' :: memberText member) ++ ['\x7d'] := by
  induction members with
  | nil => rfl
  | cons member rest ih => simp [membersText, comma, ih]

theorem intercalate_comma (text : List Char) (texts : List (List Char)) :
    [','].intercalate (text :: texts) = text ++ texts.flatMap (',' :: ·) := by
  induction texts generalizing text with
  | nil => simp [List.intercalate]
  | cons next texts ih =>
    have hnext := ih next
    simp only [List.intercalate] at hnext ⊢
    simp [List.intersperse, hnext]

theorem toList_writePairs (members : List (String × String)) :
    (writePairs members).toList = '\x7b' :: membersText true members := by
  have htexts : (members.map fun p => writeString p.1 ++ ":" ++ p.2).map String.toList =
      members.map memberText := by
    rw [List.map_map]
    refine List.map_congr_left fun p _ => ?_
    simp [memberText, String.toList_append]
  unfold writePairs
  rw [String.toList_append, String.toList_append, String.toList_intercalate, htexts]
  cases members with
  | nil => rfl
  | cons member rest =>
    change '\x7b' :: ([','].intercalate (memberText member :: rest.map memberText) ++ ['\x7d']) = _
    rw [intercalate_comma, membersText, membersText_later, comma, if_pos rfl, List.nil_append,
      List.append_assoc, List.flatMap_map]

theorem nextKey_member (first : Bool) (member : String × String) (rest : List Char) :
    nextKey first (comma first ++ memberText member ++ rest) =
      .ok (some (member.1.toList.flatMap escapeChar ++
        '"' :: ':' :: (member.2.toList ++ rest))) := by
  have hquote : isSeparator '"' = false := by decide
  have hcomma : isSeparator ',' = false := by decide
  unfold memberText
  rw [List.append_assoc, List.append_assoc, toList_writeString]
  cases first with
  | true =>
    simp only [comma, if_true, List.nil_append, nextKey, skipBlanks_cons hquote]
    rfl
  | false =>
    simp only [comma, Bool.false_eq_true, if_false, List.cons_append, List.nil_append, nextKey,
      skipBlanks_cons hcomma]
    rfl

theorem nextKey_end (first : Bool) (rest : List Char) :
    nextKey first ('\x7d' :: rest) = .ok none := by
  have hbrace : isSeparator '\x7d' = false := by decide
  simp only [nextKey, skipBlanks_cons hbrace]

theorem readColon_colon (rest : List Char) : readColon (':' :: rest) = .ok rest := by
  have hcolon : isSeparator ':' = false := by decide
  simp only [readColon, skipBlanks_cons hcolon]

theorem dropClosing_brace (rest : List Char) : dropClosing ('\x7d' :: rest) = rest := by
  have hbrace : isSeparator '\x7d' = false := by decide
  simp [dropClosing, skipBlanks_cons hbrace]

def textMembers (entries : List (String × String)) : List (String × String) :=
  entries.map fun p => (p.1, writeString p.2)

theorem readTexts_members {fuel : Nat} (first : Bool) (seen : List (String × String))
    {entries : List (String × String)} (h : entries.length < fuel) (rest : List Char) :
    readTexts fuel first seen (membersText first (textMembers entries) ++ rest) =
      .ok (seen.reverse ++ entries, rest) := by
  induction entries generalizing fuel first seen with
  | nil =>
    obtain ⟨fuel, rfl⟩ := Nat.exists_eq_succ_of_ne_zero (Nat.ne_zero_of_lt h)
    simp [textMembers, membersText, readTexts, nextKey_end, dropClosing_brace]
  | cons entry entries ih =>
    obtain ⟨fuel, rfl⟩ := Nat.exists_eq_succ_of_ne_zero (Nat.ne_zero_of_lt h)
    have hfuel : entries.length < fuel := by simpa using h
    have hrest := ih false (entry :: seen) hfuel
    rw [textMembers, List.map_cons, membersText, List.append_assoc]
    simp only [readTexts, nextKey_member, readString_escaped, readColon_colon, readText_writeString,
      bind, Except.bind]
    rw [textMembers] at hrest
    rw [hrest]
    simp

theorem length_le_membersText (first : Bool) (members : List (String × String)) :
    members.length < (membersText first members).length := by
  induction members generalizing first with
  | nil => simp [membersText]
  | cons member rest ih =>
    have hrest := ih false
    have hmember : 0 < (memberText member).length := by
      simp only [memberText, List.length_append, List.length_cons]
      omega
    rw [membersText, List.length_append, List.length_append, List.length_cons]
    omega

/-- Texts under names are read as they were written. -/
theorem readTextMap_writePairs (entries : List (String × String)) (rest : List Char) :
    readTextMap ((writePairs (textMembers entries)).toList ++ rest) = .ok (entries, rest) := by
  have hbrace : isSeparator '\x7b' = false := by decide
  have hlength := length_le_membersText true (textMembers entries)
  rw [textMembers, List.length_map] at hlength
  have hfuel : entries.length < (membersText true (textMembers entries) ++ rest).length + 1 := by
    rw [List.length_append, textMembers]
    omega
  unfold readTextMap
  rw [toList_writePairs, List.cons_append, skipBlanks_cons hbrace]
  simpa using readTexts_members true [] hfuel rest

/-- A member of a record is read into the field that has its name. -/
theorem readFields_member {σ : Type} {fields : List (Field σ)} {field : Field σ} {name : String}
    (hfield : fields.find? (·.name == name) = some field) {record : σ} (record' : σ)
    (hunset : field.isSet record = false) {text : String} {rest : List Char}
    (hread : field.read record (text.toList ++ rest) = .ok (record', rest)) (fuel : Nat)
    (first : Bool) :
    readFields fields (fuel + 1) first record (comma first ++ memberText (name, text) ++ rest) =
      readFields fields fuel false record' rest := by
  simp only [readFields, nextKey_member, readString_escaped, hfield, hunset, readColon_colon,
    Except.bind, hread, Bool.false_eq_true, if_false]

/-- The brace that ends an object ends the record. -/
theorem readFields_end {σ : Type} (fields : List (Field σ)) (fuel : Nat) (first : Bool) (record : σ)
    (rest : List Char) :
    readFields fields (fuel + 1) first record ('\x7d' :: rest) = .ok (record, rest) := by
  simp only [readFields, nextKey_end, dropClosing_brace]

end Members

/-- A text that its reader consumes is read. -/
theorem runReader_eq_ok {α : Type} {reader : Reader α} {text : String} {a : α}
    (h : reader text.toList = .ok (a, [])) : runReader reader text = .ok a := by
  unfold runReader
  simp only [h]
  rfl

end HearingRelay.Json
