import HearingRelay.Proofs.Json.Consumption
import HearingRelay.Proofs.Json.RoundTrip
import Mathlib.Data.List.DropRight

/-!
What it is to read a document, without the count of steps: a value is read
from a text when its first character says of which kind it is and its parts
are read in turn. The reader of documents finds every such reading, and no
others. A value that is read can be passed over, to the same place.
-/

namespace HearingRelay.Json

mutual

/-- A value stands at the beginning of a text, at most so deep, and the given
rest of the text comes behind it. -/
inductive Reads : Nat → List Char → Value → List Char → Prop
  | nullWord {depth rest tail rest'} : skipBlanks rest = 'n' :: tail →
      readWord ['u', 'l', 'l'] tail = .ok ((), rest') → Reads depth rest .null rest'
  | trueWord {depth rest tail rest'} : skipBlanks rest = 't' :: tail →
      readWord ['r', 'u', 'e'] tail = .ok ((), rest') → Reads depth rest (.bool true) rest'
  | falseWord {depth rest tail rest'} : skipBlanks rest = 'f' :: tail →
      readWord ['a', 'l', 's', 'e'] tail = .ok ((), rest') → Reads depth rest (.bool false) rest'
  | minus {depth rest tail n x rest'} : skipBlanks rest = '-' :: tail →
      readNumber true tail = .ok ((n, x), rest') → Reads depth rest (.number n) rest'
  | digit {depth rest c tail n x rest'} : skipBlanks rest = c :: tail → Text.isDigit c = true →
      readNumber false (c :: tail) = .ok ((n, x), rest') → Reads depth rest (.number n) rest'
  | string {depth rest tail s rest'} : skipBlanks rest = '"' :: tail →
      readString tail = .ok (s, rest') → Reads depth rest (.string s) rest'
  | array {depth rest tail items rest'} : skipBlanks rest = '[' :: tail → 1 < depth →
      ReadsItems (depth - 1) true tail items rest' → Reads depth rest (.array items) rest'
  | object {depth rest tail members rest'} : skipBlanks rest = '\x7b' :: tail → 1 < depth →
      ReadsMembers (depth - 1) true tail members rest' → Reads depth rest (.object members) rest'

inductive ReadsItems : Nat → Bool → List Char → List Value → List Char → Prop
  | nil {depth first rest} : nextItem first rest = .ok none →
      ReadsItems depth first rest [] (dropClosing rest)
  | cons {depth first rest item v rest₁ items rest₂} : nextItem first rest = .ok (some item) →
      Reads depth item v rest₁ → ReadsItems depth false rest₁ items rest₂ →
      ReadsItems depth first rest (v :: items) rest₂

inductive ReadsMembers : Nat → Bool → List Char → List (String × Value) → List Char → Prop
  | nil {depth first rest} : nextKey first rest = .ok none →
      ReadsMembers depth first rest [] (dropClosing rest)
  | cons {depth first rest key name colon value v rest₁ members rest₂} :
      nextKey first rest = .ok (some key) → readString key = .ok (name, colon) →
      readColon colon = .ok value → Reads depth value v rest₁ →
      ReadsMembers depth false rest₁ members rest₂ →
      ReadsMembers depth first rest ((name, v) :: members) rest₂

end

section Consumption

theorem readWord_consumes {word rest rest' : List Char} {u : Unit}
    (h : readWord word rest = .ok (u, rest')) : rest'.length ≤ rest.length := by
  rw [readWord_eq_ok h, List.length_append]
  omega

mutual

theorem Reads.consumes {depth : Nat} {rest rest' : List Char} {v : Value} :
    Reads depth rest v rest' → rest'.length < rest.length
  | .nullWord hfirst hword | .trueWord hfirst hword | .falseWord hfirst hword =>
    Nat.lt_of_le_of_lt (readWord_consumes hword) (length_of_skipBlanks hfirst)
  | .minus hfirst hnumber =>
    Nat.lt_trans (readLiteral_consumes (readNumber_eq_ok hnumber).1) (length_of_skipBlanks hfirst)
  | .digit hfirst _ hnumber =>
    Nat.lt_of_lt_of_le (readLiteral_consumes (readNumber_eq_ok hnumber).1)
      (length_of_skipBlanks hfirst)
  | .string hfirst hstring =>
    Nat.lt_trans (readString_consumes hstring) (length_of_skipBlanks hfirst)
  | .array hfirst _ hitems => Nat.lt_trans hitems.consumes (length_of_skipBlanks hfirst)
  | .object hfirst _ hmembers => Nat.lt_trans hmembers.consumes (length_of_skipBlanks hfirst)

theorem ReadsItems.consumes {depth : Nat} {first : Bool} {rest rest' : List Char}
    {items : List Value} : ReadsItems depth first rest items rest' → rest'.length < rest.length
  | .nil hnext => length_of_skipBlanks (dropClosing_of_nextItem hnext)
  | .cons hnext hvalue hitems =>
    Nat.lt_trans hitems.consumes (Nat.lt_of_lt_of_le hvalue.consumes (nextItem_consumes hnext))

theorem ReadsMembers.consumes {depth : Nat} {first : Bool} {rest rest' : List Char}
    {members : List (String × Value)} :
    ReadsMembers depth first rest members rest' → rest'.length < rest.length
  | .nil hnext => length_of_skipBlanks (dropClosing_of_nextKey hnext)
  | .cons hnext hname hcolon hvalue hmembers => by
    have h₁ := nextKey_consumes hnext
    have h₂ := readString_consumes hname
    have h₃ := readColon_consumes hcolon
    have h₄ := hvalue.consumes
    have h₅ := hmembers.consumes
    omega

end

end Consumption

section Reader

variable {fuel depth : Nat} {rest rest' : List Char}

structure FindsReadings (fuel : Nat) : Prop where
  value : ∀ {depth rest v rest'}, readValue fuel depth rest = .ok (v, rest') →
    Reads depth rest v rest'
  items : ∀ {depth first seen rest items rest'},
    readItems fuel depth first seen rest = .ok (items, rest') →
    ∃ items', items = seen.reverse ++ items' ∧ ReadsItems depth first rest items' rest'
  members : ∀ {depth first seen rest members rest'},
    readMembers fuel depth first seen rest = .ok (members, rest') →
    ∃ members', members = seen.reverse ++ members' ∧
      ReadsMembers depth first rest members' rest'

theorem FindsReadings.value_succ (hfinds : FindsReadings fuel) {v : Value}
    (h : readValue (fuel + 1) depth rest = .ok (v, rest')) : Reads depth rest v rest' := by
  simp only [readValue, failNext] at h
  split at h
  · simp at h
  · next c tail hfirst =>
    split_ifs at h with hn ht hf hminus hdigit hquote hlist hdeep hobject hdeep
    · obtain ⟨⟨_, tail'⟩, hword, heq⟩ := exists_of_map_eq_ok h
      obtain ⟨rfl, rfl⟩ := Prod.mk.inj heq
      exact .nullWord (hn ▸ hfirst) hword
    · obtain ⟨⟨_, tail'⟩, hword, heq⟩ := exists_of_map_eq_ok h
      obtain ⟨rfl, rfl⟩ := Prod.mk.inj heq
      exact .trueWord (ht ▸ hfirst) hword
    · obtain ⟨⟨_, tail'⟩, hword, heq⟩ := exists_of_map_eq_ok h
      obtain ⟨rfl, rfl⟩ := Prod.mk.inj heq
      exact .falseWord (hf ▸ hfirst) hword
    · obtain ⟨⟨⟨n, x⟩, tail'⟩, hnumber, heq⟩ := exists_of_map_eq_ok h
      obtain ⟨rfl, rfl⟩ := Prod.mk.inj heq
      exact .minus (hminus ▸ hfirst) hnumber
    · obtain ⟨⟨⟨n, x⟩, tail'⟩, hnumber, heq⟩ := exists_of_map_eq_ok h
      obtain ⟨rfl, rfl⟩ := Prod.mk.inj heq
      exact .digit hfirst hdigit hnumber
    · obtain ⟨⟨s, tail'⟩, hstring, heq⟩ := exists_of_map_eq_ok h
      obtain ⟨rfl, rfl⟩ := Prod.mk.inj heq
      exact .string (hquote ▸ hfirst) hstring
    · obtain ⟨⟨items, tail'⟩, hitems, heq⟩ := exists_of_map_eq_ok h
      obtain ⟨rfl, rfl⟩ := Prod.mk.inj heq
      obtain ⟨items', rfl, hreads⟩ := hfinds.items hitems
      exact .array (hlist ▸ hfirst) (by omega) hreads
    · obtain ⟨⟨members, tail'⟩, hmembers, heq⟩ := exists_of_map_eq_ok h
      obtain ⟨rfl, rfl⟩ := Prod.mk.inj heq
      obtain ⟨members', rfl, hreads⟩ := hfinds.members hmembers
      exact .object (hobject ▸ hfirst) (by omega) hreads

theorem FindsReadings.items_succ (hfinds : FindsReadings fuel) {first : Bool}
    {seen items : List Value}
    (h : readItems (fuel + 1) depth first seen rest = .ok (items, rest')) :
    ∃ items', items = seen.reverse ++ items' ∧ ReadsItems depth first rest items' rest' := by
  simp only [readItems] at h
  split at h
  · simp at h
  · next hnext =>
    obtain ⟨rfl, rfl⟩ := Prod.mk.inj (Except.ok.inj h)
    exact ⟨[], by simp, .nil hnext⟩
  · next item hnext =>
    split at h
    · simp at h
    · next v rest₁ hvalue =>
      obtain ⟨items', rfl, hreads⟩ := hfinds.items h
      exact ⟨v :: items', by simp, .cons hnext (hfinds.value hvalue) hreads⟩

theorem FindsReadings.members_succ (hfinds : FindsReadings fuel) {first : Bool}
    {seen members : List (String × Value)}
    (h : readMembers (fuel + 1) depth first seen rest = .ok (members, rest')) :
    ∃ members', members = seen.reverse ++ members' ∧
      ReadsMembers depth first rest members' rest' := by
  simp only [readMembers] at h
  split at h
  · simp at h
  · next hnext =>
    obtain ⟨rfl, rfl⟩ := Prod.mk.inj (Except.ok.inj h)
    exact ⟨[], by simp, .nil hnext⟩
  · next key hnext =>
    split at h
    · simp at h
    · next name colon hname =>
      split at h
      · simp at h
      · next value hcolon =>
        split at h
        · simp at h
        · next v rest₁ hvalue =>
          obtain ⟨members', rfl, hreads⟩ := hfinds.members h
          exact ⟨(name, v) :: members', by simp,
            .cons hnext hname hcolon (hfinds.value hvalue) hreads⟩

/-- The readers find readings only. -/
theorem findsReadings (fuel : Nat) : FindsReadings fuel := by
  induction fuel with
  | zero => constructor <;> simp [readValue, readItems, readMembers, failHere]
  | succ fuel ih => exact ⟨ih.value_succ, ih.items_succ, ih.members_succ⟩

theorem reads_of_readValue {v : Value} (h : readValue fuel depth rest = .ok (v, rest')) :
    Reads depth rest v rest' :=
  (findsReadings fuel).value h

/-- A whole text that is read is used up, but for blanks. -/
theorem exists_of_runReader {α : Type} {reader : Reader α} {text : String} {a : α}
    (h : runReader reader text = .ok a) :
    ∃ rest, reader text.toList = .ok (a, rest) ∧ skipBlanks rest = [] := by
  unfold runReader at h
  dsimp only at h
  split at h
  · simp at h
  · next a' rest hread =>
    split at h
    · next hblank =>
      obtain rfl := Except.ok.inj h
      exact ⟨rest, hread, hblank⟩
    · simp at h

theorem reads_of_parse {text : String} {v : Value} (h : parse text = .ok v) :
    ∃ rest, Reads depthLimit text.toList v rest ∧ skipBlanks rest = [] := by
  obtain ⟨rest, hread, hblank⟩ := exists_of_runReader h
  exact ⟨rest, reads_of_readValue hread, hblank⟩

theorem skipBlanks_skipBlanks (rest : List Char) :
    skipBlanks (skipBlanks rest) = skipBlanks rest :=
  List.dropWhile_idempotent isSeparator rest

/-- Blanks in front of a value do not matter. -/
theorem Reads.of_skipBlanks {v : Value} (h : Reads depth rest v rest') :
    Reads depth (skipBlanks rest) v rest' := by
  have hblanks := skipBlanks_skipBlanks rest
  cases h with
  | nullWord hfirst hword => exact .nullWord (hblanks.trans hfirst) hword
  | trueWord hfirst hword => exact .trueWord (hblanks.trans hfirst) hword
  | falseWord hfirst hword => exact .falseWord (hblanks.trans hfirst) hword
  | minus hfirst hnumber => exact .minus (hblanks.trans hfirst) hnumber
  | digit hfirst hdigit hnumber => exact .digit (hblanks.trans hfirst) hdigit hnumber
  | string hfirst hstring => exact .string (hblanks.trans hfirst) hstring
  | array hfirst hdepth hitems => exact .array (hblanks.trans hfirst) hdepth hitems
  | object hfirst hdepth hmembers => exact .object (hblanks.trans hfirst) hdepth hmembers

theorem not_letter_of_isDigit {c : Char} (h : Text.isDigit c = true) :
    c ≠ 'n' ∧ c ≠ 't' ∧ c ≠ 'f' ∧ c ≠ '-' := by
  refine ⟨?_, ?_, ?_, ?_⟩ <;> rintro rfl <;> exact absurd h (by decide)

theorem not_digit_quote : Text.isDigit '"' = false := by decide

theorem not_digit_bracket : Text.isDigit '[' = false := by decide

theorem not_digit_brace : Text.isDigit '\x7b' = false := by decide

/-- Where something is used up there is a step to take. -/
theorem exists_step {fuel left given : Nat} (h : left < given) (hfuel : given ≤ fuel + left) :
    ∃ k, fuel = k + 1 := ⟨fuel - 1, by omega⟩

mutual

/-- The reader finds every reading, with one step for each character that it uses up. -/
theorem Reads.readValue_eq {fuel depth : Nat} {rest rest' : List Char} {v : Value}
    (hreads : Reads depth rest v rest') (hfuel : rest.length ≤ fuel + rest'.length) :
    readValue fuel depth rest = .ok (v, rest') := by
  obtain ⟨fuel, rfl⟩ := exists_step hreads.consumes hfuel
  match hreads with
  | .nullWord hfirst hword => simp [readValue, hfirst, hword, Except.map]
  | .trueWord hfirst hword => simp [readValue, hfirst, hword, Except.map]
  | .falseWord hfirst hword => simp [readValue, hfirst, hword, Except.map]
  | .minus hfirst hnumber => simp [readValue, hfirst, hnumber, Except.map]
  | .digit hfirst hdigit hnumber =>
    obtain ⟨hn, ht, hf, hminus⟩ := not_letter_of_isDigit hdigit
    simp [readValue, hfirst, hn, ht, hf, hminus, hdigit, hnumber, Except.map]
  | .string hfirst hstring => simp [readValue, hfirst, not_digit_quote, hstring, Except.map]
  | .array hfirst hdepth hitems =>
    have hlength := length_of_skipBlanks hfirst
    have hread : readItems fuel (depth - 1) true [] _ = .ok (_, rest') :=
      hitems.readItems_eq [] (by omega)
    have hdeep : ¬ depth ≤ 1 := by omega
    simp [readValue, hfirst, not_digit_bracket, hdeep, hread, Except.map]
  | .object hfirst hdepth hmembers =>
    have hlength := length_of_skipBlanks hfirst
    have hread : readMembers fuel (depth - 1) true [] _ = .ok (_, rest') :=
      hmembers.readMembers_eq [] (by omega)
    have hdeep : ¬ depth ≤ 1 := by omega
    simp [readValue, hfirst, not_digit_brace, hdeep, hread, Except.map]

theorem ReadsItems.readItems_eq {fuel depth : Nat} {first : Bool} {rest rest' : List Char}
    {items : List Value} (hreads : ReadsItems depth first rest items rest') (seen : List Value)
    (hfuel : rest.length ≤ fuel + rest'.length) :
    readItems fuel depth first seen rest = .ok (seen.reverse ++ items, rest') := by
  obtain ⟨fuel, rfl⟩ := exists_step hreads.consumes hfuel
  match hreads with
  | .nil hnext => simp [readItems, hnext]
  | .cons hnext hvalue hitems =>
    have h₁ := nextItem_consumes hnext
    have h₂ := hvalue.consumes
    have h₃ := hitems.consumes
    have hread : readValue fuel depth _ = .ok (_, _) := hvalue.readValue_eq (by omega)
    have hothers : ∀ seen, readItems fuel depth false seen _ = .ok (seen.reverse ++ _, rest') :=
      fun seen => hitems.readItems_eq seen (by omega)
    simp [readItems, hnext, hread, hothers]

theorem ReadsMembers.readMembers_eq {fuel depth : Nat} {first : Bool} {rest rest' : List Char}
    {members : List (String × Value)} (hreads : ReadsMembers depth first rest members rest')
    (seen : List (String × Value)) (hfuel : rest.length ≤ fuel + rest'.length) :
    readMembers fuel depth first seen rest = .ok (seen.reverse ++ members, rest') := by
  obtain ⟨fuel, rfl⟩ := exists_step hreads.consumes hfuel
  match hreads with
  | .nil hnext => simp [readMembers, hnext]
  | .cons hnext hname hcolon hvalue hmembers =>
    have h₁ := nextKey_consumes hnext
    have h₂ := readString_consumes hname
    have h₃ := readColon_consumes hcolon
    have h₄ := hvalue.consumes
    have h₅ := hmembers.consumes
    have hread : readValue fuel depth _ = .ok (_, _) := hvalue.readValue_eq (by omega)
    have hothers : ∀ seen, readMembers fuel depth false seen _ = .ok (seen.reverse ++ _, rest') :=
      fun seen => hmembers.readMembers_eq seen (by omega)
    simp [readMembers, hnext, hname, hcolon, hread, hothers]

end

/-- The reader of documents finds the readings of a text, and no others. -/
theorem readDocument_eq_ok_iff {v : Value} :
    readDocument rest = .ok (v, rest') ↔ Reads depthLimit rest v rest' := by
  refine ⟨reads_of_readValue, fun h => h.readValue_eq ?_⟩
  unfold stepsFor
  omega

end Reader

section Skipping

variable {rest rest' : List Char}

theorem skipCharacters_of_readCharacters {fuel k : Nat} {seen cs : List Char}
    (h : readCharacters fuel seen rest = .ok (cs, rest')) (hk : rest.length < k) :
    skipCharacters k rest = .ok ((), rest') := by
  induction fuel generalizing seen rest k with
  | zero => simp [readCharacters, failHere] at h
  | succ fuel ih =>
    obtain ⟨k, rfl⟩ : ∃ j, k = j + 1 := ⟨k - 1, by omega⟩
    cases rest with
    | nil => simp [readCharacters] at h
    | cons c rest =>
      simp only [readCharacters, failHere] at h
      simp only [List.length_cons] at hk
      simp only [skipCharacters]
      split_ifs at h ⊢ with hquote hbackslash hcontrol
      · rw [(Prod.mk.inj (Except.ok.inj h)).2]
      · split at h
        · simp at h
        · next d tail hescape =>
          have htail := readEscape_consumes hescape
          split
          · next tail' =>
            -- A pair of surrogates is one step for the reader and two for the skipper.
            obtain ⟨n, tail₁, hfirst, rfl | ⟨m, tail₂, rfl, hsecond⟩⟩ :=
              readUnicodeEscape_eq_ok hescape
            · rw [hfirst]
              exact ih h (by omega)
            · have h₁ := readHex4_consumes hfirst
              have h₂ := readHex4_consumes hsecond
              simp only [List.length_cons] at h₁ hk
              obtain ⟨k, rfl⟩ : ∃ j, k = j + 1 := ⟨k - 1, by omega⟩
              rw [hfirst]
              simp only [skipCharacters]
              rw [hsecond]
              exact ih h (by omega)
          · exact ih h (by omega)
      · exact ih h (by omega)

theorem skipString_of_readString {s : String} (h : readString rest = .ok (s, rest')) :
    skipString rest = .ok ((), rest') := by
  unfold readString at h
  split at h
  · simp at h
  · next cs tail hread =>
    obtain ⟨-, rfl⟩ := Prod.mk.inj (Except.ok.inj h)
    exact skipCharacters_of_readCharacters hread (by omega)

theorem skipInside_skipBlanks (k : Nat) (opened : List Bracket) (rest : List Char) :
    skipInside (k + 1) opened (skipBlanks rest) = skipInside (k + 1) opened rest := by
  simp only [skipInside, skipBlanks_skipBlanks]

/-- Passing over comes to a place inside the brackets, and has taken fewer than
four steps for each character on the way. -/
def Passes (start : Nat → Except Failure (Unit × List Char)) (opened : List Bracket)
    (rest rest' : List Char) (spare : Nat) : Prop :=
  ∀ k, 4 * rest.length ≤ k + 4 * rest'.length →
    ∃ k', k + spare + 4 * rest'.length ≤ k' + 4 * rest.length ∧
      start k = skipAfter k' opened rest'

/-- One step to begin with, a first part, and the part behind it. -/
theorem Passes.cons {start start₁ start₂ : Nat → Except Failure (Unit × List Char)}
    {inner opened : List Bracket} {rest item rest₁ rest₂ : List Char}
    (hstart : ∀ k, 0 < k → start (k + 1) = start₁ k) (hitem : item.length ≤ rest.length)
    (h₁ : Passes start₁ inner item rest₁ 3) (h₂ : Passes start₂ opened rest₁ rest₂ 2)
    (hlater : start₂ = fun k => skipAfter k inner rest₁)
    (hconsumes₁ : rest₁.length < item.length) (hconsumes₂ : rest₂.length < rest₁.length) :
    Passes start opened rest rest₂ 2 := by
  intro k hk
  obtain ⟨k, rfl⟩ : ∃ j, k = j + 1 := ⟨k - 1, by omega⟩
  obtain ⟨k₁, hk₁, heq₁⟩ := h₁ k (by omega)
  obtain ⟨k₂, hk₂, heq₂⟩ := h₂ k₁ (by omega)
  refine ⟨k₂, by omega, ?_⟩
  rw [hstart k (by omega), heq₁, ← heq₂, hlater]

/-- A value that is over after one step. -/
theorem Passes.scalar {opened : List Bracket} {rest rest' : List Char}
    (hconsumes : rest'.length < rest.length)
    (hstart : ∀ k, skipInside (k + 1) opened rest = skipAfter k opened rest') :
    Passes (fun k => skipInside k opened rest) opened rest rest' 3 := by
  intro k hk
  obtain ⟨k, rfl⟩ : ∃ j, k = j + 1 := ⟨k - 1, by omega⟩
  exact ⟨k, by omega, hstart k⟩

def skipEntry (bracket : Bracket) (first : Bool) (opened : List Bracket) (rest : List Char)
    (k : Nat) : Except Failure (Unit × List Char) :=
  if first then skipOpened k bracket opened rest else skipAfter k (bracket :: opened) rest

theorem skipEntry_item {first : Bool} {item : List Char} (h : nextItem first rest = .ok (some item))
    (opened : List Bracket) (k : Nat) :
    skipEntry .list first opened rest (k + 2) = skipInside (k + 1) (.list :: opened) item := by
  unfold nextItem failNext at h
  split at h
  · simp at h
  · simp at h
  · next c tail hc hblanks =>
    have hclosing : c ≠ Bracket.list.closing := hc
    split_ifs at h with hfirst hcomma
    · obtain rfl := Option.some.inj (Except.ok.inj h)
      subst hfirst
      simp [skipEntry, skipOpened, hblanks, hclosing]
    · split at h
      · simp at h
      · simp at h
      · obtain rfl := Option.some.inj (Except.ok.inj h)
        simp [skipEntry, hfirst, skipAfter, hblanks, hcomma, skipInside_skipBlanks]

theorem skipEntry_list_end {first : Bool} (h : nextItem first rest = .ok none)
    (opened : List Bracket) (k : Nat) :
    skipEntry .list first opened rest (k + 1) = skipAfter k opened (dropClosing rest) := by
  have hblanks := dropClosing_of_nextItem h
  have hcomma : ¬ ']' = ',' := by decide
  cases first <;> simp [skipEntry, skipOpened, skipAfter, hblanks, Bracket.closing]

theorem skipEntry_key {first : Bool} {key colon value : List Char} {name : String}
    (h : nextKey first rest = .ok (some key)) (hname : readString key = .ok (name, colon))
    (hcolon : readColon colon = .ok value) (opened : List Bracket) (k : Nat) :
    skipEntry .object first opened rest (k + 1) = skipInside k (.object :: opened) value := by
  have hquote : isSeparator '"' = false := by decide
  have hskip := skipString_of_readString hname
  unfold nextKey failNext at h
  split at h
  · simp at h
  · simp at h
  · next c tail hc hblanks =>
    have hclosing : c ≠ Bracket.object.closing := hc
    split_ifs at h with hfirst hc' hcomma
    · obtain rfl := Option.some.inj (Except.ok.inj h)
      subst hfirst hc'
      simp [skipEntry, skipOpened, hblanks, hclosing, skipKey, skipBlanks_cons hquote, hskip,
        hcolon, Except.bind]
    · split at h
      · simp at h
      · next hblanks' =>
        obtain rfl := Option.some.inj (Except.ok.inj h)
        simp [skipEntry, hfirst, skipAfter, hblanks, hcomma, skipKey, hblanks', hskip, hcolon,
          Except.bind]
      · simp at h
      · simp at h

theorem skipEntry_object_end {first : Bool} (h : nextKey first rest = .ok none)
    (opened : List Bracket) (k : Nat) :
    skipEntry .object first opened rest (k + 1) = skipAfter k opened (dropClosing rest) := by
  have hblanks := dropClosing_of_nextKey h
  cases first <;> simp [skipEntry, skipOpened, skipAfter, hblanks, Bracket.closing]

mutual

/-- A value that is read is passed over. -/
theorem Reads.passes {depth : Nat} {rest rest' : List Char} {v : Value} (opened : List Bracket) :
    Reads depth rest v rest' → Passes (fun k => skipInside k opened rest) opened rest rest' 3
  | .nullWord hfirst hword =>
    Passes.scalar (Reads.nullWord hfirst hword : Reads depth _ _ _).consumes fun k => by
      simp [skipInside, hfirst, hword, Except.bind]
  | .trueWord hfirst hword =>
    Passes.scalar (Reads.trueWord hfirst hword : Reads depth _ _ _).consumes fun k => by
      simp [skipInside, hfirst, hword, Except.bind]
  | .falseWord hfirst hword =>
    Passes.scalar (Reads.falseWord hfirst hword : Reads depth _ _ _).consumes fun k => by
      simp [skipInside, hfirst, hword, Except.bind]
  | .minus hfirst hnumber =>
    Passes.scalar (Reads.minus hfirst hnumber : Reads depth _ _ _).consumes fun k => by
      simp [skipInside, hfirst, (readNumber_eq_ok hnumber).1, Except.bind]
  | .digit hfirst hdigit hnumber =>
    Passes.scalar (Reads.digit hfirst hdigit hnumber : Reads depth _ _ _).consumes fun k => by
      obtain ⟨hn, ht, hf, hminus⟩ := not_letter_of_isDigit hdigit
      simp [skipInside, hfirst, hn, ht, hf, hminus, hdigit, (readNumber_eq_ok hnumber).1,
        Except.bind]
  | .string hfirst hstring =>
    Passes.scalar (Reads.string hfirst hstring : Reads depth _ _ _).consumes fun k => by
      simp [skipInside, hfirst, not_digit_quote, skipString_of_readString hstring, Except.bind]
  | .array hfirst _ hitems => by
    intro k hk
    have hlength := length_of_skipBlanks hfirst
    obtain ⟨k, rfl⟩ : ∃ j, k = j + 1 := ⟨k - 1, by have := hitems.consumes; omega⟩
    obtain ⟨k', hk', heq⟩ := hitems.passes opened k (by omega)
    refine ⟨k', by omega, ?_⟩
    rw [← heq]
    simp [skipInside, skipEntry, hfirst, not_digit_bracket]
  | .object hfirst _ hmembers => by
    intro k hk
    have hlength := length_of_skipBlanks hfirst
    obtain ⟨k, rfl⟩ : ∃ j, k = j + 1 := ⟨k - 1, by have := hmembers.consumes; omega⟩
    obtain ⟨k', hk', heq⟩ := hmembers.passes opened k (by omega)
    refine ⟨k', by omega, ?_⟩
    rw [← heq]
    simp [skipInside, skipEntry, hfirst, not_digit_brace]

theorem ReadsItems.passes {depth : Nat} {first : Bool} {rest rest' : List Char}
    {items : List Value} (opened : List Bracket) :
    ReadsItems depth first rest items rest' →
      Passes (skipEntry .list first opened rest) opened rest rest' 2
  | .nil hnext => by
    intro k hk
    have hlength := length_of_skipBlanks (dropClosing_of_nextItem hnext)
    obtain ⟨k, rfl⟩ : ∃ j, k = j + 1 := ⟨k - 1, by omega⟩
    exact ⟨k, by omega, skipEntry_list_end hnext opened k⟩
  | .cons hnext hvalue hitems =>
    Passes.cons
      (fun k hk => by
        obtain ⟨k, rfl⟩ : ∃ j, k = j + 1 := ⟨k - 1, by omega⟩
        exact skipEntry_item hnext opened k)
      (nextItem_consumes hnext) (hvalue.passes (.list :: opened)) (hitems.passes opened) rfl
      hvalue.consumes hitems.consumes

theorem ReadsMembers.passes {depth : Nat} {first : Bool} {rest rest' : List Char}
    {members : List (String × Value)} (opened : List Bracket) :
    ReadsMembers depth first rest members rest' →
      Passes (skipEntry .object first opened rest) opened rest rest' 2
  | .nil hnext => by
    intro k hk
    have hlength := length_of_skipBlanks (dropClosing_of_nextKey hnext)
    obtain ⟨k, rfl⟩ : ∃ j, k = j + 1 := ⟨k - 1, by omega⟩
    exact ⟨k, by omega, skipEntry_object_end hnext opened k⟩
  | .cons hnext hname hcolon hvalue hmembers =>
    have h₁ := nextKey_consumes hnext
    have h₂ := readString_consumes hname
    have h₃ := readColon_consumes hcolon
    Passes.cons (fun k _ => skipEntry_key hnext hname hcolon opened k) (by omega)
      (hvalue.passes (.object :: opened)) (hmembers.passes opened) rfl
      hvalue.consumes hmembers.consumes

end

/-- A value that is read can be passed over, to the same place. -/
theorem Reads.skipValue_eq {depth : Nat} {v : Value} (h : Reads depth rest v rest') :
    skipValue rest = .ok ((), rest') := by
  obtain ⟨k', hk', heq⟩ := h.passes [] (4 * rest.length + 4) (by omega)
  obtain ⟨k', rfl⟩ : ∃ j, k' = j + 1 := ⟨k' - 1, by omega⟩
  exact heq

end Skipping

end HearingRelay.Json
