import HearingRelay.Proofs.Json.RoundTrip
import HearingRelay.Json.Number
import Mathlib.Data.List.TakeDrop

/-!
Numbers as they stand in a text. A well-formed literal is read back as it is
spelled, when what comes behind it ends a value. A written whole number is such
a spelling, and counts as the number that was written when it is in the 64-bit
range.
-/

namespace HearingRelay

namespace Text

theorem isDigit_eq_isDigit (c : Char) : isDigit c = c.isDigit := rfl

theorem valueOfDigits_eq_ofDigitChars (ds : List Char) :
    valueOfDigits ds = Nat.ofDigitChars 10 ds 0 := by
  rw [Nat.ofDigitChars_eq_foldl]
  unfold valueOfDigits digitValue
  congr 1
  funext n c
  rw [Nat.mul_comm]

theorem valueOfDigits_toDigits (n : Nat) : valueOfDigits (Nat.toDigits 10 n) = n := by
  rw [valueOfDigits_eq_ofDigitChars, Nat.ofDigitChars_ten_toDigits]

theorem isDigit_of_mem_toDigits {n : Nat} {c : Char} (h : c ∈ Nat.toDigits 10 n) :
    isDigit c = true := by
  rw [isDigit_eq_isDigit]
  exact Nat.isDigit_of_mem_toDigits (by omega) (by omega) h

/-- Written digits begin with a zero only for zero itself. -/
theorem toDigits_of_head_zero {n : Nat} (h : (Nat.toDigits 10 n).head? = some '0') : n = 0 := by
  induction n using Nat.strongRecOn with
  | ind n ih =>
    by_cases hn : n < 10
    · rw [Nat.toDigits_of_lt_base hn] at h
      simpa using h
    · rw [Nat.toDigits_of_base_le (by omega) (by omega),
        List.head?_append_of_ne_nil _ Nat.toDigits_ne_nil] at h
      have hzero := ih (n / 10) (by omega) h
      omega

end Text

namespace Json

theorem isSeparator_of_isDigit {c : Char} (h : Text.isDigit c = true) : isSeparator c = false := by
  by_contra hblank
  simp only [isSeparator, Bool.not_eq_false, Bool.or_eq_true, beq_iff_eq] at hblank
  rcases hblank with ((rfl | rfl) | rfl) | rfl <;> exact absurd h (by decide)

/-- What may come behind a value: the end of the text, a comma or a bracket. -/
def EndsValue (rest : List Char) : Prop :=
  ∀ c, rest.head? = some c → c = ',' ∨ c = ']' ∨ c = '\x7d'

theorem endsValue_nil : EndsValue [] := by simp [EndsValue]

theorem EndsValue.not_digit {rest : List Char} (h : EndsValue rest) (c : Char)
    (hc : rest.head? = some c) : Text.isDigit c = false := by
  rcases h c hc with rfl | rfl | rfl <;> decide

theorem takeDigits_append {ds rest : List Char} (hds : ∀ c ∈ ds, Text.isDigit c = true)
    (hrest : ∀ c, rest.head? = some c → Text.isDigit c = false) :
    takeDigits (ds ++ rest) = (ds, rest) := by
  have htake : rest.takeWhile Text.isDigit = [] := by
    cases rest with
    | nil => rfl
    | cons c rest => simp [hrest c rfl]
  have hdrop : rest.dropWhile Text.isDigit = rest := by
    cases rest with
    | nil => rfl
    | cons c rest => simp [hrest c rfl]
  unfold takeDigits
  rw [List.span_eq_takeWhile_dropWhile, List.takeWhile_append_of_pos hds,
    List.dropWhile_append_of_pos hds, htake, hdrop, List.append_nil]

namespace Literal

def fractionText : Option (List Char) → List Char
  | some ds => '.' :: ds
  | none => []

/-- An exponent always shows its sign. -/
def exponentText : Option (Bool × List Char) → List Char
  | some (negative, ds) => 'e' :: (if negative then '-' else '+') :: ds
  | none => []

def unsignedText (n : Literal) : List Char :=
  n.whole ++ (fractionText n.fraction ++ exponentText n.exponent)

def text (n : Literal) : List Char :=
  if n.negative then '-' :: n.unsignedText else n.unsignedText

def AreDigits (ds : List Char) : Prop := ds ≠ [] ∧ ∀ c ∈ ds, Text.isDigit c = true

structure WellFormed (n : Literal) : Prop where
  whole : AreDigits n.whole
  /-- A leading zero stands alone. -/
  lone_zero : n.whole.head? = some '0' → n.whole = ['0']
  fraction : ∀ ds, n.fraction = some ds → AreDigits ds
  exponent : ∀ negative ds, n.exponent = some (negative, ds) → AreDigits ds

variable {n : Literal} {rest : List Char}

theorem AreDigits.exists_cons {ds : List Char} (h : AreDigits ds) :
    ∃ c tail, ds = c :: tail ∧ Text.isDigit c = true := by
  obtain ⟨c, tail, rfl⟩ := List.exists_cons_of_ne_nil h.1
  exact ⟨c, tail, rfl, h.2 c List.mem_cons_self⟩

/-- No digit comes behind the digits before an exponent. -/
theorem not_digit_of_exponentText (exponent : Option (Bool × List Char)) (h : EndsValue rest)
    (c : Char) (hc : (exponentText exponent ++ rest).head? = some c) : Text.isDigit c = false := by
  cases exponent with
  | none => exact h.not_digit c hc
  | some e =>
    have hletter : 'e' = c := by simpa [exponentText] using hc
    subst hletter
    decide

theorem not_digit_of_fractionText (fraction : Option (List Char))
    (exponent : Option (Bool × List Char)) (h : EndsValue rest) (c : Char)
    (hc : (fractionText fraction ++ (exponentText exponent ++ rest)).head? = some c) :
    Text.isDigit c = false := by
  cases fraction with
  | none => exact not_digit_of_exponentText exponent h c hc
  | some ds =>
    have hpoint : '.' = c := by simpa [fractionText] using hc
    subst hpoint
    decide

theorem readWhole_append {ds : List Char} (hds : AreDigits ds)
    (hzero : ds.head? = some '0' → ds = ['0'])
    (hrest : ∀ c, rest.head? = some c → Text.isDigit c = false) :
    readWhole (ds ++ rest) = .ok (ds, rest) := by
  obtain ⟨c, tail, rfl, hc⟩ := hds.exists_cons
  by_cases hc0 : c = '0'
  · subst hc0
    obtain rfl : tail = [] := by simpa using hzero rfl
    cases rest with
    | nil => rfl
    | cons d rest =>
      have hd : Text.isDigit d = false := hrest d rfl
      simp [readWhole, hd]
  · have htake := takeDigits_append hds.2 hrest
    rw [List.cons_append] at htake ⊢
    unfold readWhole
    split
    · next heq => simp at heq
    · next heq => exact absurd (List.cons.inj heq).1 hc0
    · next heq =>
      obtain ⟨rfl, rfl⟩ := List.cons.inj heq
      rw [if_pos hc, htake]

theorem readFraction_append {fraction : Option (List Char)}
    (hfraction : ∀ ds, fraction = some ds → AreDigits ds)
    (exponent : Option (Bool × List Char)) (h : EndsValue rest) :
    readFraction (fractionText fraction ++ (exponentText exponent ++ rest)) =
      .ok (fraction, exponentText exponent ++ rest) := by
  cases fraction with
  | none =>
    have hpoint : ∀ tail, exponentText exponent ++ rest ≠ '.' :: tail := by
      intro tail heq
      cases exponent with
      | none =>
        have hdot := h '.' (by simp only [exponentText, List.nil_append] at heq; simp [heq])
        rcases hdot with h | h | h <;> exact absurd h (by decide)
      | some e => simp [exponentText] at heq
    change readFraction (exponentText exponent ++ rest) = _
    unfold readFraction
    split
    · next tail heq => exact absurd heq (hpoint tail)
    · rfl
  | some ds =>
    have hds := hfraction ds rfl
    have htake := takeDigits_append hds.2 (not_digit_of_exponentText exponent h)
    obtain ⟨c, tail, rfl, -⟩ := hds.exists_cons
    simp only [fractionText, List.cons_append, readFraction] at htake ⊢
    rw [htake]

theorem readExponent_append {exponent : Option (Bool × List Char)}
    (hexponent : ∀ negative ds, exponent = some (negative, ds) → AreDigits ds)
    (h : EndsValue rest) :
    readExponent (exponentText exponent ++ rest) = .ok (exponent, rest) := by
  cases exponent with
  | none =>
    cases rest with
    | nil => rfl
    | cons c rest =>
      have hc : ¬ (c = 'e' ∨ c = 'E') := by
        rcases h c rfl with rfl | rfl | rfl <;> decide
      simp [exponentText, readExponent, hc]
  | some e =>
    obtain ⟨negative, ds⟩ := e
    have hds := hexponent negative ds rfl
    have htake := takeDigits_append hds.2 h.not_digit
    obtain ⟨c, tail, rfl, hc⟩ := hds.exists_cons
    cases negative <;>
      simp only [exponentText, List.cons_append, readExponent, readExponentDigits] at htake ⊢ <;>
      simp [hc, htake]

/-- A well-formed literal is read as it is spelled. -/
theorem readLiteral_unsignedText (hn : n.WellFormed) (h : EndsValue rest) :
    readLiteral n.negative (n.unsignedText ++ rest) = .ok (n, rest) := by
  unfold readLiteral unsignedText
  rw [List.append_assoc, List.append_assoc,
    readWhole_append hn.whole hn.lone_zero (not_digit_of_fractionText n.fraction n.exponent h)]
  simp only [bind, Except.bind, readFraction_append hn.fraction n.exponent h,
    readExponent_append hn.exponent h]

def ofInt (k : Int) : Literal := ⟨k < 0, Nat.toDigits 10 k.natAbs, none, none⟩

theorem ofInt_wellFormed (k : Int) : (ofInt k).WellFormed where
  whole := ⟨Nat.toDigits_ne_nil, fun _ hc => Text.isDigit_of_mem_toDigits hc⟩
  lone_zero := fun h => by
    have hzero : k.natAbs = 0 := Text.toDigits_of_head_zero h
    simp [ofInt, hzero]
  fraction := fun ds h => by simp [ofInt] at h
  exponent := fun negative ds h => by simp [ofInt] at h

theorem ofInt_text (k : Int) : (ofInt k).text = (Text.writeInt k).toList := by
  unfold text unsignedText ofInt Text.writeInt Text.writeNat
  by_cases hk : k < 0 <;> simp [hk, fractionText, exponentText, String.toList_append]

/-- A whole number in the 64-bit range counts as itself. -/
theorem ofInt_number? {k : Int} (hlow : Bounds.minInt64 ≤ k) (hhigh : k ≤ Bounds.maxUInt64) :
    (ofInt k).number? = some (.integer k) := by
  unfold number? ofInt
  simp only [Text.valueOfDigits_toDigits]
  by_cases hk : k < 0
  · have habs : -(k.natAbs : Int) = k := by omega
    have hne : k.natAbs ≠ 0 := by omega
    simp only [hk, habs, hne, hlow, decide_true, Bool.not_true, Bool.false_and, Bool.true_and,
      Bool.false_eq_true, if_false, if_true, ne_eq, not_false_eq_true]
  · have habs : (k.natAbs : Int) = k := by omega
    have hle : k.natAbs ≤ Bounds.maxUInt64 := by omega
    simp only [hk, habs, hle, decide_true, decide_false, Bool.not_false, Bool.true_and, if_true]

end Literal

section Numbers

variable {n : Literal} {rest : List Char}

/-- A well-formed literal is read as a number, when it counts as one and its
exponent is in range. -/
theorem readNumber_unsignedText (hn : n.WellFormed) {x : Number} (hx : n.number? = some x)
    (hexponent : ∀ ds, n.exponent = some (false, ds) → digitsPastInt32 ds 0 = none)
    (h : EndsValue rest) :
    readNumber n.negative (n.unsignedText ++ rest) = .ok ((n, x), rest) := by
  unfold readNumber
  rw [Literal.readLiteral_unsignedText hn h]
  dsimp only
  split
  · next ds hpast =>
    split at hpast
    · next ds heq => simp [hexponent ds heq] at hpast
    · simp at hpast
  · next hnone => simp [hx] at hnone
  · next y _ hy =>
    obtain rfl : x = y := by simpa [hx] using hy
    rfl

/-- A written whole number is read back by a reader of whole numbers. -/
theorem readIntegerWithin_writeInt {low high k : Int} (expected : String)
    (hlow : Bounds.minInt64 ≤ low) (hhigh : high ≤ Bounds.maxUInt64) (hk : low ≤ k ∧ k ≤ high)
    (h : EndsValue rest) :
    readIntegerWithin low high expected ((Text.writeInt k).toList ++ rest) = .ok (k, rest) := by
  have hwell := Literal.ofInt_wellFormed k
  have hnumber : (Literal.ofInt k).number? = some (.integer k) :=
    Literal.ofInt_number? (Int.le_trans hlow hk.1) (Int.le_trans hk.2 hhigh)
  have hread := readNumber_unsignedText hwell hnumber (fun ds he => by simp [Literal.ofInt] at he) h
  obtain ⟨c, tail, hdigits, hc⟩ := hwell.whole.exists_cons
  have hcons : (Literal.ofInt k).unsignedText ++ rest = c :: (tail ++ rest) := by
    unfold Literal.unsignedText
    rw [hdigits]
    simp [Literal.fractionText, Literal.exponentText, Literal.ofInt]
  rw [← Literal.ofInt_text]
  unfold Literal.text readIntegerWithin
  by_cases hneg : (Literal.ofInt k).negative = true
  · have hminus : isSeparator '-' = false := by decide
    rw [hneg] at hread
    simp [hneg, skipBlanks_cons hminus, hread, bind, Except.bind, hk]
  · have hblank : isSeparator c = false := isSeparator_of_isDigit hc
    have hne : c ≠ '-' := by
      rintro rfl
      exact absurd hc (by decide)
    simp only [Bool.not_eq_true] at hneg
    rw [hneg, hcons] at hread
    simp [hneg, hcons, skipBlanks_cons hblank, hne, hc, hread, bind, Except.bind, hk]

end Numbers

end Json

end HearingRelay
