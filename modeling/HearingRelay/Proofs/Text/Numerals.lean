import HearingRelay.Proofs.Json.Literals
import HearingRelay.Text.Blank
import Mathlib.Data.List.Induction
import Mathlib.Data.List.TakeWhile
import Mathlib.Data.Nat.Digits.Defs

/-!
Whole numbers in the texts that people write. A text trims to the part of it
that stands between its outer blanks. A numeral is a run of ASCII digits with at
most one sign in front, and stands for a number by the places of its digits;
reading accepts the numerals and nothing else, and what is written is one.
-/

namespace HearingRelay.Text

section Trimming

/-- The second text is the first without the blanks around it. -/
structure TrimsTo (cs core : List Char) : Prop where
  surrounded : ∃ before after, cs = before ++ core ++ after ∧
    (∀ c ∈ before, isBlank c = true) ∧ ∀ c ∈ after, isBlank c = true
  first : ∀ c, core.head? = some c → isBlank c = false
  last : ∀ c, core.getLast? = some c → isBlank c = false

theorem trimLeft_append {before : List Char} (h : ∀ c ∈ before, isBlank c = true)
    (cs : List Char) : trimLeft (before ++ cs) = trimLeft cs :=
  List.dropWhile_append_of_pos h

theorem trimLeft_of_head {cs : List Char} (h : ∀ c, cs.head? = some c → isBlank c = false) :
    trimLeft cs = cs := by
  cases cs with
  | nil => rfl
  | cons c rest => exact trimLeft_of_not_blank (h c rfl)

/-- Blanks are taken off the end as off the beginning of the text turned round. -/
theorem trimRight_eq_reverse (cs : List Char) : trimRight cs = (trimLeft cs.reverse).reverse := rfl

/-- What was taken off the beginning are blanks. -/
theorem exists_blanks_trimLeft (cs : List Char) :
    ∃ before, cs = before ++ trimLeft cs ∧ ∀ c ∈ before, isBlank c = true := by
  refine ⟨cs.takeWhile isBlank, List.takeWhile_append_dropWhile.symm, ?_⟩
  intro c hc
  exact List.mem_takeWhile_imp hc

theorem head_trimLeft (cs : List Char) (c : Char) (h : (trimLeft cs).head? = some c) :
    isBlank c = false := by
  have hnot := List.head?_dropWhile_not isBlank cs
  unfold trimLeft at h
  rw [h] at hnot
  simpa using hnot

theorem exists_blanks_trimRight (cs : List Char) :
    ∃ after, cs = trimRight cs ++ after ∧ ∀ c ∈ after, isBlank c = true := by
  obtain ⟨before, hsplit, hblank⟩ := exists_blanks_trimLeft cs.reverse
  refine ⟨before.reverse, ?_, fun c hc => hblank c (List.mem_reverse.mp hc)⟩
  rw [trimRight_eq_reverse, ← List.reverse_append, ← hsplit, List.reverse_reverse]

/-- Trimming takes off the blanks at both ends, and nothing else. -/
theorem trimsTo_iff {cs core : List Char} : TrimsTo cs core ↔ trim cs = core := by
  constructor
  · rintro ⟨⟨before, after, rfl, hbefore, hafter⟩, hfirst, hlast⟩
    unfold trim
    rw [List.append_assoc, trimLeft_append hbefore]
    by_cases hcore : core = []
    · subst hcore
      have hnone : trimLeft after = [] := List.dropWhile_eq_nil_iff.mpr hafter
      rw [List.nil_append, hnone]
      rfl
    · have hkept : trimLeft (core ++ after) = core ++ after := by
        apply trimLeft_of_head
        intro c hc
        rw [List.head?_append_of_ne_nil core hcore] at hc
        exact hfirst c hc
      have hback : trimLeft core.reverse = core.reverse := by
        apply trimLeft_of_head
        intro c hc
        rw [List.head?_reverse] at hc
        exact hlast c hc
      rw [hkept, trimRight_eq_reverse, List.reverse_append,
        trimLeft_append fun c hc => hafter c (List.mem_reverse.mp hc), hback, List.reverse_reverse]
  · rintro rfl
    obtain ⟨before, hleft, hbefore⟩ := exists_blanks_trimLeft cs
    obtain ⟨after, hright, hafter⟩ := exists_blanks_trimRight (trimLeft cs)
    refine ⟨⟨before, after, ?_, hbefore, hafter⟩, ?_, ?_⟩
    · rw [List.append_assoc]
      exact hleft.trans (congrArg (before ++ ·) hright)
    · intro c hc
      apply head_trimLeft cs c
      rw [hright, List.head?_append, show (trimRight (trimLeft cs)).head? = some c from hc]
      rfl
    · intro c hc
      apply head_trimLeft (trimLeft cs).reverse c
      rw [← List.getLast?_reverse, ← trimRight_eq_reverse]
      exact hc

end Trimming

section Numeral

open Json.Literal (AreDigits)

/-- The number that digits stand for by their places, the last one for ones. -/
def placeValue (ds : List Char) : Nat := Nat.ofDigits 10 (ds.reverse.map digitValue)

/-- Reading on multiplies by ten and adds a digit; the places say the same. -/
theorem valueOfDigits_eq_placeValue (ds : List Char) : valueOfDigits ds = placeValue ds := by
  induction ds using List.reverseRecOn with
  | nil => rfl
  | append_singleton ds d ih =>
    have hnext : valueOfDigits (ds ++ [d]) = valueOfDigits ds * 10 + digitValue d := by
      simp [valueOfDigits]
    unfold placeValue at ih ⊢
    rw [hnext, ih, List.reverse_concat, List.map_cons, Nat.ofDigits_cons]
    omega

inductive Numeral : List Char → Int → Prop
  | plain (ds : List Char) (h : AreDigits ds) : Numeral ds (placeValue ds)
  | plus (ds : List Char) (h : AreDigits ds) : Numeral ('+' :: ds) (placeValue ds)
  | minus (ds : List Char) (h : AreDigits ds) : Numeral ('-' :: ds) (-placeValue ds)

theorem readNat?_eq_some {cs : List Char} {n : Nat} :
    readNat? cs = some n ↔ AreDigits cs ∧ placeValue cs = n := by
  rw [readNat?, Option.ite_none_right_eq_some, Option.some_inj, valueOfDigits_eq_placeValue,
    List.all_eq_true]
  rfl

/-- A sign is no digit. -/
theorem not_areDigits_of_sign {c : Char} {ds : List Char} (hc : isDigit c = false) :
    ¬ AreDigits (c :: ds) := by
  intro h
  rw [h.2 c List.mem_cons_self] at hc
  cases hc

/-- Reading accepts the numerals and nothing else. -/
theorem readInt?_eq_some {cs : List Char} {n : Int} : readInt? cs = some n ↔ Numeral cs n := by
  constructor
  · intro h
    unfold readInt? at h
    split at h
    · obtain ⟨k, hk, rfl⟩ := Option.map_eq_some_iff.mp h
      obtain ⟨hds, rfl⟩ := readNat?_eq_some.mp hk
      exact .plus _ hds
    · obtain ⟨k, hk, rfl⟩ := Option.map_eq_some_iff.mp h
      obtain ⟨hds, rfl⟩ := readNat?_eq_some.mp hk
      exact .minus _ hds
    · obtain ⟨k, hk, rfl⟩ := Option.map_eq_some_iff.mp h
      obtain ⟨hds, rfl⟩ := readNat?_eq_some.mp hk
      exact .plain _ hds
  · rintro (⟨ds, hds⟩ | ⟨ds, hds⟩ | ⟨ds, hds⟩)
    · have hread := readNat?_eq_some.mpr ⟨hds, rfl⟩
      unfold readInt?
      split
      · exact absurd hds (not_areDigits_of_sign (by decide))
      · exact absurd hds (not_areDigits_of_sign (by decide))
      · rw [hread]
        rfl
    · simp only [readInt?, readNat?_eq_some.mpr ⟨hds, rfl⟩]
      rfl
    · simp only [readInt?, readNat?_eq_some.mpr ⟨hds, rfl⟩]
      rfl

theorem readIntWithin?_eq_some {low high : Int} {cs : List Char} {n : Int} :
    readIntWithin? low high cs = some n ↔ Numeral cs n ∧ low ≤ n ∧ n ≤ high := by
  rw [readIntWithin?, Option.filter_eq_some_iff, readInt?_eq_some, Bool.and_eq_true,
    decide_eq_true_eq, decide_eq_true_eq]

/-- What is written is a numeral of the number. -/
theorem numeral_writeInt (n : Int) : Numeral (writeInt n).toList n := by
  have hdigits : AreDigits (Nat.toDigits 10 n.natAbs) :=
    ⟨Nat.toDigits_ne_nil, fun _ hc => isDigit_of_mem_toDigits hc⟩
  have hvalue : placeValue (Nat.toDigits 10 n.natAbs) = n.natAbs := by
    rw [← valueOfDigits_eq_placeValue, valueOfDigits_toDigits]
  by_cases hneg : n < 0
  · have htext : (writeInt n).toList = '-' :: Nat.toDigits 10 n.natAbs := by
      simp [writeInt, writeNat, hneg]
    have hminus := Numeral.minus _ hdigits
    rw [hvalue, show -((n.natAbs : Nat) : Int) = n by omega] at hminus
    rw [htext]
    exact hminus
  · have htext : (writeInt n).toList = Nat.toDigits 10 n.natAbs := by
      simp [writeInt, writeNat, hneg]
    have hplain := Numeral.plain _ hdigits
    rw [hvalue, show ((n.natAbs : Nat) : Int) = n by omega] at hplain
    rw [htext]
    exact hplain

theorem isBlank_of_isDigit {c : Char} (h : isDigit c = true) : isBlank c = false := by
  simp only [isDigit, Bool.and_eq_true, decide_eq_true_eq] at h
  obtain ⟨hlow, hhigh⟩ := h
  have hlow : 48 ≤ c.toNat := hlow
  have hhigh : c.toNat ≤ 57 := hhigh
  simp only [isBlank, Bool.or_eq_false_iff, Bool.and_eq_false_iff, decide_eq_false_iff_not,
    beq_eq_false_iff_ne]
  omega

/-- A numeral holds no blank. -/
theorem Numeral.not_blank {cs : List Char} {n : Int} (h : Numeral cs n) :
    ∀ c ∈ cs, isBlank c = false := by
  cases h with
  | plain ds hds => exact fun c hc => isBlank_of_isDigit (hds.2 c hc)
  | plus ds hds | minus ds hds =>
    rw [List.forall_mem_cons]
    exact ⟨by decide, fun c hc => isBlank_of_isDigit (hds.2 c hc)⟩

/-- A numeral between blanks is what its text trims to. -/
theorem Numeral.trimsTo {cs : List Char} {n : Int} (h : Numeral cs n) {before after : List Char}
    (hbefore : ∀ c ∈ before, isBlank c = true) (hafter : ∀ c ∈ after, isBlank c = true) :
    TrimsTo (before ++ cs ++ after) cs where
  surrounded := ⟨before, after, rfl, hbefore, hafter⟩
  first := fun c hc => h.not_blank c (List.mem_of_head? hc)
  last := fun c hc => h.not_blank c (List.mem_of_getLast? hc)

end Numeral

end HearingRelay.Text
