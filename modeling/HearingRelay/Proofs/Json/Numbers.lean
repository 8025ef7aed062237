import HearingRelay.Proofs.Decimal.Digits
import HearingRelay.Proofs.Json.Literals

/-!
Numbers as they are written. The text of a number is the spelling of a literal:
the digits of the shortest decimal, laid out in positions or with an exponent.
Such a literal is never too large to be read, since a positional one has no
more than sixteen digits before its point, and one with an exponent denotes a
decimal that does not pass the largest number.
-/

namespace HearingRelay

namespace Text

theorem valueOfDigits_lt {ds : List Char} (hds : ∀ c ∈ ds, isDigit c = true) :
    valueOfDigits ds < 10 ^ ds.length := by
  induction ds with
  | nil => decide
  | cons c ds ih =>
    have hdigit : digitValue c ≤ 9 := by
      have hc := hds c List.mem_cons_self
      simp only [isDigit, Bool.and_eq_true, decide_eq_true_eq, Char.le_def, UInt32.le_iff_toNat_le]
        at hc
      simp only [digitValue, Char.toNat]
      have hnine : ('9' : Char).val.toNat = '0'.val.toNat + 9 := by decide
      omega
    have hrest := ih fun d hd => hds d (List.mem_cons_of_mem c hd)
    rw [valueOfDigits_eq_ofDigitChars] at hrest ⊢
    have hcons : Nat.ofDigitChars 10 (c :: ds) 0 = Nat.ofDigitChars 10 ds (digitValue c) := by
      rw [Nat.ofDigitChars_cons, Nat.mul_zero, Nat.zero_add]
      rfl
    rw [hcons, Nat.ofDigitChars_eq_ofDigitChars_zero, List.length_cons, Nat.pow_succ]
    have hproduct := Nat.mul_le_mul_left (10 ^ ds.length) hdigit
    omega

theorem le_ofDigitChars (ds : List Char) (n : Nat) : n ≤ Nat.ofDigitChars 10 ds n := by
  rw [Nat.ofDigitChars_eq_ofDigitChars_zero]
  exact Nat.le_add_right_of_le (Nat.le_mul_of_pos_left n (Nat.pow_pos (by omega)))

theorem ofDigitChars_cons (c : Char) (ds : List Char) (n : Nat) :
    Nat.ofDigitChars 10 (c :: ds) n = Nat.ofDigitChars 10 ds (n * 10 + digitValue c) := by
  rw [Nat.ofDigitChars_cons, Nat.mul_comm]
  rfl

end Text

namespace Json

open Decimal

section Parts

theorem takeFraction_le {n : Nat} (hn : n ≤ Bounds.maxUInt64) (e : Int) (ds : List Char) :
    (takeFraction n e ds).1 ≤ Bounds.maxUInt64 ∧ (takeFraction n e ds).2 ≤ e := by
  induction ds generalizing n e with
  | nil => exact ⟨hn, le_rfl⟩
  | cons d ds ih =>
    simp only [takeFraction]
    split_ifs with hfull
    · exact ⟨hn, le_rfl⟩
    · obtain ⟨hvalue, hexponent⟩ := ih (Nat.not_lt.mp hfull) (e - 1)
      exact ⟨hvalue, by omega⟩

/-- Digits in the 64-bit range are all taken. -/
theorem takeWhole_eq {n : Nat} {ds : List Char} (h : Nat.ofDigitChars 10 ds n ≤ Bounds.maxUInt64) :
    takeWhole n ds = (Nat.ofDigitChars 10 ds n, 0) := by
  induction ds generalizing n with
  | nil => rfl
  | cons d ds ih =>
    rw [Text.ofDigitChars_cons] at h ⊢
    have hnext := Text.le_ofDigitChars ds (n * 10 + Text.digitValue d)
    simp only [takeWhole]
    rw [if_neg (by omega), ih h]

theorem takeFraction_eq {n : Nat} {ds : List Char}
    (h : Nat.ofDigitChars 10 ds n ≤ Bounds.maxUInt64) (e : Int) :
    takeFraction n e ds = (Nat.ofDigitChars 10 ds n, e - ds.length) := by
  induction ds generalizing n e with
  | nil => simp [takeFraction]
  | cons d ds ih =>
    rw [Text.ofDigitChars_cons] at h ⊢
    have hnext := Text.le_ofDigitChars ds (n * 10 + Text.digitValue d)
    simp only [takeFraction]
    rw [if_neg (by omega), ih h, List.length_cons]
    congr 1
    push_cast
    ring

theorem digitsPastInt32_eq_none {n : Nat} {ds : List Char}
    (h : Nat.ofDigitChars 10 ds n ≤ Bounds.maxInt32) : digitsPastInt32 ds n = none := by
  induction ds generalizing n with
  | nil => rfl
  | cons d ds ih =>
    rw [Text.ofDigitChars_cons] at h
    have hnext := Text.le_ofDigitChars ds (n * 10 + Text.digitValue d)
    simp only [digitsPastInt32]
    rw [if_neg (by omega), ih h]

namespace Literal

variable {n : Literal}

theorem exists_real?_of_parts (h : ∃ x, ofParts? n.negative n.parts.1 n.parts.2 = some x) :
    ∃ x, n.real? = some x := by
  unfold real?
  split_ifs
  · exact h
  · exact ⟨_, rfl⟩

/-- A literal with few digits before its point and no positive exponent is
never too large. -/
theorem exists_real?_of_small (hwhole : ∀ c ∈ n.whole, Text.isDigit c = true)
    (hlength : n.whole.length ≤ 16) (hexponent : ∀ ds, n.exponent ≠ some (false, ds)) :
    ∃ x, n.real? = some x := by
  apply exists_real?_of_parts
  have hvalue : Nat.ofDigitChars 10 n.whole 0 ≤ Bounds.maxUInt64 := by
    have hless := Text.valueOfDigits_lt hwhole
    have hpower := Nat.pow_le_pow_right (by omega : 0 < 10) hlength
    rw [Text.valueOfDigits_eq_ofDigitChars] at hless
    unfold Bounds.maxUInt64
    omega
  obtain ⟨hfraction, hdown⟩ := takeFraction_le hvalue 0 (n.fraction.getD [])
  have hparts :
      n.parts.1 = (takeFraction (Nat.ofDigitChars 10 n.whole 0) 0 (n.fraction.getD [])).1 ∧
        n.parts.2 ≤ 0 := by
    unfold parts
    rw [takeWhole_eq hvalue]
    dsimp only
    split
    · exact ⟨rfl, hdown⟩
    · next negative ds heq =>
      cases negative with
      | false => exact absurd heq (hexponent ds)
      | true => exact ⟨rfl, by simp only [if_true]; omega⟩
  refine exists_ofParts?_of_le_zero _ ?_ hparts.2
  rw [hparts.1]
  unfold Bounds.maxUInt64 at hfraction
  omega

/-- The digits of a literal before and behind its point, read as one number. -/
theorem parts_eq {d : Nat} {whole fraction : List Char} {e : Nat}
    (hdigits : Nat.ofDigitChars 10 (whole ++ fraction) 0 = d) (hd : d ≤ Bounds.maxUInt64)
    (hwhole : n.whole = whole) (hfraction : n.fraction.getD [] = fraction)
    (hexponent : n.exponent = some (false, Nat.toDigits 10 e)) :
    n.parts = (d, e - (fraction.length : Int)) := by
  rw [Nat.ofDigitChars_append] at hdigits
  have hfirst := Text.le_ofDigitChars fraction (Nat.ofDigitChars 10 whole 0)
  unfold parts
  rw [hwhole, hfraction, hexponent, takeWhole_eq (by omega)]
  dsimp only
  rw [takeFraction_eq (by omega)]
  simp only [Text.valueOfDigits_toDigits, hdigits, Bool.false_eq_true, if_false]
  congr 1
  ring

end Literal

end Parts

namespace Literal

def ofPositional (negative : Bool) (d : Digits) : Literal :=
  if d.exponent < 0 then
    ⟨negative, ['0'], some (List.replicate (-d.exponent - 1).toNat '0' ++ d.digits), none⟩
  else if d.digits.length ≤ d.exponent.toNat + 1 then
    ⟨negative, d.digits ++ List.replicate (d.exponent.toNat + 1 - d.digits.length) '0',
      some ['0'], none⟩
  else
    ⟨negative, d.digits.take (d.exponent.toNat + 1), some (d.digits.drop (d.exponent.toNat + 1)),
      none⟩

def ofScientific (negative : Bool) (d : Digits) : Literal :=
  ⟨negative, d.digits.take 1, if d.digits.length ≤ 1 then none else some (d.digits.drop 1),
    some (d.exponent < 0, Nat.toDigits 10 d.exponent.natAbs)⟩

def ofReal (x : Binary64) : Literal :=
  if x.isZero then ⟨x.negative, ['0'], some ['0'], none⟩
  else if -5 ≤ (shortest x).exponent ∧ (shortest x).exponent ≤ 15 then
    ofPositional x.negative (shortest x)
  else ofScientific x.negative (shortest x)

theorem ofPositional_unsignedText (negative : Bool) (d : Digits) :
    (ofPositional negative d).unsignedText = d.positional := by
  unfold ofPositional Digits.positional unsignedText
  dsimp only
  split_ifs <;> simp only [fractionText, exponentText, List.append_nil, List.append_assoc,
    List.cons_append, List.nil_append]

theorem ofScientific_unsignedText (negative : Bool) (d : Digits) :
    (ofScientific negative d).unsignedText = d.scientific := by
  unfold ofScientific Digits.scientific unsignedText
  rcases d.digits with _ | ⟨c, _ | ⟨c', rest⟩⟩ <;> simp [fractionText, exponentText]

/-- A number is written as its literal is spelled. -/
theorem ofReal_text (x : Binary64) : (ofReal x).text = (realLayout.write x).toList := by
  have hnegative : (ofReal x).negative = x.negative := by
    unfold ofReal ofPositional ofScientific
    split_ifs <;> rfl
  have hunsigned : (ofReal x).unsignedText =
      if x.isZero then ['0', '.', '0']
      else if -5 ≤ (shortest x).exponent ∧ (shortest x).exponent ≤ 15 then (shortest x).positional
      else (shortest x).scientific := by
    unfold ofReal
    split_ifs
    · rfl
    · exact ofPositional_unsignedText x.negative _
    · exact ofScientific_unsignedText x.negative _
  unfold text Layout.write realLayout
  rw [hnegative, hunsigned, String.toList_ofList]

theorem areDigits_zero : AreDigits ['0'] :=
  ⟨List.cons_ne_nil _ _, List.forall_mem_singleton.mpr (by decide)⟩

theorem areDigits_append {ds ds' : List Char} (h : AreDigits ds)
    (h' : ∀ c ∈ ds', Text.isDigit c = true) : AreDigits (ds ++ ds') := by
  refine ⟨by simp [h.1], fun c hc => ?_⟩
  rcases List.mem_append.mp hc with hc | hc
  · exact h.2 c hc
  · exact h' c hc

theorem isDigit_of_mem_zeros {k : Nat} {c : Char} (h : c ∈ List.replicate k '0') :
    Text.isDigit c = true := by
  rw [(List.mem_replicate.mp h).2]
  decide

section Layouts

variable {d : Digits} {m : Nat} (hm : 0 < m) (hdigits : d.digits = Nat.toDigits 10 m)
include hdigits

theorem areDigits_digits : AreDigits d.digits :=
  hdigits ▸ ⟨Nat.toDigits_ne_nil, fun _ hc => Text.isDigit_of_mem_toDigits hc⟩

include hm

theorem head_digits : d.digits.head? ≠ some '0' := by
  rw [hdigits]
  exact fun h => hm.ne' (Text.toDigits_of_head_zero h)

theorem ofPositional_wellFormed (negative : Bool) : (ofPositional negative d).WellFormed := by
  have hall := areDigits_digits hdigits
  have hhead := head_digits hm hdigits
  unfold ofPositional
  split_ifs with hsmall hfew
  · refine ⟨areDigits_zero, fun _ => rfl, fun ds h => ?_, fun _ _ h => by simp at h⟩
    obtain rfl := Option.some.inj h
    refine ⟨by simp [hall.1], fun c hc => ?_⟩
    rcases List.mem_append.mp hc with hc | hc
    · exact isDigit_of_mem_zeros hc
    · exact hall.2 c hc
  · refine ⟨areDigits_append hall fun c hc => isDigit_of_mem_zeros hc, fun h => ?_, fun ds h => ?_,
      fun _ _ h => by simp at h⟩
    · rw [List.head?_append_of_ne_nil _ hall.1] at h
      exact absurd h hhead
    · exact Option.some.inj h ▸ areDigits_zero
  · refine ⟨⟨by simp [hall.1], fun c hc => hall.2 c (List.mem_of_mem_take hc)⟩, fun h => ?_,
      fun ds h => ?_, fun _ _ h => by simp at h⟩
    · rw [List.head?_take, if_neg (by omega)] at h
      exact absurd h hhead
    · obtain rfl := Option.some.inj h
      exact ⟨by simpa using hfew, fun c hc => hall.2 c (List.mem_of_mem_drop hc)⟩

theorem ofScientific_wellFormed (negative : Bool) : (ofScientific negative d).WellFormed := by
  have hall := areDigits_digits hdigits
  have hhead := head_digits hm hdigits
  refine ⟨⟨by simp [ofScientific, hall.1], fun c hc => hall.2 c (List.mem_of_mem_take hc)⟩,
    fun h => ?_, fun ds h => ?_, fun negative ds h => ?_⟩
  · simp only [ofScientific, List.head?_take] at h
    exact absurd h hhead
  · simp only [ofScientific] at h
    split_ifs at h with hlone
    obtain rfl := Option.some.inj h
    refine ⟨fun hnil => hlone ?_, fun c hc => hall.2 c (List.mem_of_mem_drop hc)⟩
    exact List.drop_eq_nil_iff.mp hnil
  · simp only [ofScientific, Option.some.injEq, Prod.mk.injEq] at h
    rw [← h.2]
    exact ⟨Nat.toDigits_ne_nil, fun _ hc => Text.isDigit_of_mem_toDigits hc⟩

omit hm in
/-- Up to sixteen digits stand before the point of a positional number. -/
theorem exists_real?_ofPositional (negative : Bool) (hsmall : d.exponent ≤ 15) :
    ∃ x, (ofPositional negative d).real? = some x := by
  have hall := areDigits_digits hdigits
  apply exists_real?_of_small
  · unfold ofPositional
    split_ifs
    · exact List.forall_mem_singleton.mpr (by decide)
    · exact (areDigits_append hall fun c hc => isDigit_of_mem_zeros hc).2
    · exact fun c hc => hall.2 c (List.mem_of_mem_take hc)
  · unfold ofPositional
    split_ifs <;> simp <;> omega
  · unfold ofPositional
    split_ifs <;> simp

theorem exists_real?_ofScientific (negative : Bool) {k : Int} (hsmall : m ≤ 10 ^ 17)
    (hlargest : (m : ℚ) * 10 ^ k ≤ Binary64.largest)
    (hexponent : d.exponent = k + (d.digits.length - 1 : Nat)) :
    ∃ x, (ofScientific negative d).real? = some x := by
  have hall := areDigits_digits hdigits
  -- Below the units it is enough that nothing is scaled up; above them the digits
  -- must all be taken, for the bound is on the decimal that they denote.
  by_cases hdown : d.exponent < 0
  · apply exists_real?_of_small
    · exact fun c hc => hall.2 c (List.mem_of_mem_take hc)
    · exact (List.length_take_le _ _).trans (by omega)
    · simp [ofScientific, hdown]
  apply exists_real?_of_parts
  have hvalue : Nat.ofDigitChars 10 (d.digits.take 1 ++ d.digits.drop 1) 0 = m := by
    rw [List.take_append_drop, hdigits, Nat.ofDigitChars_ten_toDigits]
  have hfraction : (ofScientific negative d).fraction.getD [] = d.digits.drop 1 := by
    unfold ofScientific
    split_ifs with hlone
    · rw [List.drop_eq_nil_of_le hlone]
      rfl
    · rfl
  have hscale : (d.exponent.natAbs : Int) - ((d.digits.drop 1).length : Int) = k := by
    rw [List.length_drop]
    omega
  have hparts := parts_eq (n := ofScientific negative d) (e := d.exponent.natAbs) hvalue
    (by unfold Bounds.maxUInt64; omega) rfl hfraction (by simp [ofScientific, hdown])
  rw [hparts, hscale]
  by_cases hk : 0 ≤ k
  · obtain ⟨k, rfl⟩ := Int.eq_ofNat_of_zero_le hk
    exact exists_ofParts?_of_le_largest _ hm hsmall (by exact_mod_cast hlargest)
  · exact exists_ofParts?_of_le_zero _ (by omega) (by omega)

end Layouts

section Written

variable {x : Binary64}

theorem significand_pos_of_not_isZero (h : ¬ x.isZero = true) : 0 < x.significand := by
  simp only [Binary64.isZero, beq_iff_eq] at h
  omega

theorem zero_wellFormed (negative : Bool) :
    WellFormed ⟨negative, ['0'], some ['0'], none⟩ where
  whole := areDigits_zero
  lone_zero := fun _ => rfl
  fraction := fun ds h => Option.some.inj h ▸ areDigits_zero
  exponent := fun _ _ h => by simp at h

theorem ofReal_wellFormed (hx : x.Finite) : (ofReal x).WellFormed := by
  unfold ofReal
  split_ifs with hzero
  · exact zero_wellFormed x.negative
  · obtain ⟨d, k, hd, -, -, hdigits, -⟩ := shortest_spec (significand_pos_of_not_isZero hzero) hx
    exact ofPositional_wellFormed hd hdigits x.negative
  · obtain ⟨d, k, hd, -, -, hdigits, -⟩ := shortest_spec (significand_pos_of_not_isZero hzero) hx
    exact ofScientific_wellFormed hd hdigits x.negative

/-- A number with a point or an exponent is no whole number. -/
theorem number?_eq_real? {n : Literal} (h : n.fraction ≠ none ∨ n.exponent ≠ none) :
    n.number? = n.real?.map .real := by
  unfold number?
  split
  · next hfraction hexponent => exact absurd h (by simp [hfraction, hexponent])
  · rfl

theorem ofReal_not_whole (x : Binary64) :
    (ofReal x).fraction ≠ none ∨ (ofReal x).exponent ≠ none := by
  unfold ofReal ofPositional ofScientific
  split_ifs <;> simp

/-- A written number is not too large to be read. -/
theorem exists_number?_ofReal (hx : x.Finite) : ∃ y, (ofReal x).number? = some (.real y) := by
  have hreal : ∃ y, (ofReal x).real? = some y := by
    unfold ofReal
    split_ifs with hzero hrange
    · exact ⟨Binary64.zero.withSign x.negative, rfl⟩
    · obtain ⟨d, k, hd, -, -, hdigits, -⟩ := shortest_spec (significand_pos_of_not_isZero hzero) hx
      exact exists_real?_ofPositional hdigits x.negative hrange.2
    · obtain ⟨d, k, hd, hsmall, hlargest, hdigits, hexponent⟩ :=
        shortest_spec (significand_pos_of_not_isZero hzero) hx
      refine exists_real?_ofScientific hd hdigits x.negative hsmall hlargest ?_
      rw [hexponent, hdigits]
  obtain ⟨y, hy⟩ := hreal
  exact ⟨y, by rw [number?_eq_real? (ofReal_not_whole x), hy, Option.map_some]⟩

/-- The exponent of a written number does not come near the 32-bit range. -/
theorem ofReal_exponent_small (hx : x.Finite) {ds : List Char}
    (h : (ofReal x).exponent = some (false, ds)) : digitsPastInt32 ds 0 = none := by
  unfold ofReal at h
  split_ifs at h with hzero hrange
  · unfold ofPositional at h
    split_ifs at h
  · obtain ⟨d, k, hd, hsmall, hlargest, hdigits, hexponent⟩ :=
      shortest_spec (significand_pos_of_not_isZero hzero) hx
    have hk : k ≤ 308 := by
      by_contra hlarge
      obtain ⟨k, rfl⟩ := Int.eq_ofNat_of_zero_le (by omega : 0 ≤ k)
      have := exponent_le_of_le_largest hd (by exact_mod_cast hlargest)
      omega
    have hlength : (Nat.toDigits 10 d).length ≤ 18 :=
      (Nat.length_toDigits_le_iff (by norm_num) (by norm_num)).mpr
        (lt_of_le_of_lt hsmall (by norm_num))
    simp only [ofScientific, Option.some.injEq, Prod.mk.injEq] at h
    rw [← h.2]
    apply digitsPastInt32_eq_none
    have hnonnegative := of_decide_eq_false h.1
    rw [Nat.ofDigitChars_ten_toDigits]
    unfold Bounds.maxInt32
    omega

end Written

section Canonical

variable {n : Literal}

/-- The literal as which a literal is written again. -/
def canonical (n : Literal) : Literal :=
  match n.number? with
  | some (.integer k) => ofInt k
  | some (.real x) => ofReal x
  | none => n

/-- Only whole numbers in the 64-bit ranges count as such. -/
theorem number?_integer {k : Int} (h : n.number? = some (.integer k)) :
    n.fraction = none ∧ n.exponent = none ∧
      (if n.negative then -(Text.valueOfDigits n.whole : Int) else Text.valueOfDigits n.whole) = k ∧
      Bounds.minInt64 ≤ k ∧ k ≤ Bounds.maxUInt64 := by
  have hmin : Bounds.minInt64 ≤ 0 := by decide
  unfold number? at h
  split at h
  · next hfraction hexponent =>
    dsimp only at h
    split_ifs at h with hpositive hnegative
    · obtain rfl := Number.integer.inj (Option.some.inj h)
      simp only [Bool.and_eq_true, Bool.not_eq_true', decide_eq_true_eq] at hpositive
      exact ⟨hfraction, hexponent, by simp [hpositive.1], by omega, by omega⟩
    · obtain rfl := Number.integer.inj (Option.some.inj h)
      simp only [Bool.and_eq_true, decide_eq_true_eq] at hnegative
      exact ⟨hfraction, hexponent, by simp [hnegative.1.1], hnegative.2, by omega⟩
    · obtain ⟨x, -, hx⟩ := Option.map_eq_some_iff.mp h
      cases hx
  · obtain ⟨x, -, hx⟩ := Option.map_eq_some_iff.mp h
    cases hx

theorem number?_real {x : Binary64} (h : n.number? = some (.real x)) : x.Finite := by
  have hreal : n.real? = some x := by
    have hmap : n.real?.map Number.real = some (.real x) → n.real? = some x := by
      intro h
      obtain ⟨y, hy, hxy⟩ := Option.map_eq_some_iff.mp h
      rwa [← Number.real.inj hxy]
    unfold number? at h
    split at h
    · dsimp only at h
      split_ifs at h
      · cases Option.some.inj h
      · cases Option.some.inj h
      · exact hmap h
    · exact hmap h
  unfold real? at hreal
  split_ifs at hreal
  · exact finite_of_ofParts? hreal
  · obtain rfl := Option.some.inj hreal
    exact ⟨Binary64.zero_finite.significand, Binary64.zero_finite.exponent_low,
      Binary64.zero_finite.exponent_high⟩

/-- What a literal is written as is the spelling of another one, which is read
as a number again. -/
theorem canonical_spec {x : Number} (h : n.number? = some x) :
    n.canonical.text = n.write.toList ∧ n.canonical.WellFormed ∧
      (∃ y, n.canonical.number? = some y) ∧
      ∀ ds, n.canonical.exponent = some (false, ds) → digitsPastInt32 ds 0 = none := by
  unfold canonical write
  rw [h]
  cases x with
  | integer k =>
    obtain ⟨-, -, -, hlow, hhigh⟩ := number?_integer h
    exact ⟨ofInt_text k, ofInt_wellFormed k, ⟨_, ofInt_number? hlow hhigh⟩,
      fun ds he => by simp [ofInt] at he⟩
  | real x =>
    have hx := number?_real h
    obtain ⟨y, hy⟩ := exists_number?_ofReal hx
    exact ⟨ofReal_text x, ofReal_wellFormed hx, ⟨_, hy⟩, fun ds he => ofReal_exponent_small hx he⟩

def significand (n : Literal) : ℤ :=
  if n.negative then -Nat.ofDigitChars 10 (n.whole ++ n.fraction.getD []) 0
  else Nat.ofDigitChars 10 (n.whole ++ n.fraction.getD []) 0

def scale (n : Literal) : ℤ :=
  (match n.exponent with
    | some (negative, ds) =>
      if negative then -(Text.valueOfDigits ds : ℤ) else Text.valueOfDigits ds
    | none => 0) - (n.fraction.getD []).length

/-- The decimal value of a literal, without any rounding. -/
def value (n : Literal) : ℚ := n.significand * 10 ^ n.scale

/-- The value of a literal that is nothing but digits. -/
theorem value_of_digits (hfraction : n.fraction = none) (hexponent : n.exponent = none) :
    n.value = ((if n.negative then -(Text.valueOfDigits n.whole : Int)
      else Text.valueOfDigits n.whole : Int) : ℚ) := by
  unfold value significand scale
  rw [hfraction, hexponent, Text.valueOfDigits_eq_ofDigitChars]
  simp

/-- A whole number in the 64-bit ranges keeps its value. -/
theorem canonical_value_of_integer {k : Int} (h : n.number? = some (.integer k)) :
    n.value = n.canonical.value := by
  obtain ⟨hfraction, hexponent, hvalue, hlow, hhigh⟩ := number?_integer h
  have hagain := (number?_integer (ofInt_number? hlow hhigh)).2.2.1
  rw [value_of_digits hfraction hexponent, hvalue]
  unfold canonical
  rw [h]
  exact ((value_of_digits rfl rfl).trans (congrArg _ hagain)).symm

end Canonical

end Literal

end Json

end HearingRelay
