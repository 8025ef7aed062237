import HearingRelay.Json.Parser
import HearingRelay.Proofs.Except
import Mathlib.Data.List.TakeDrop
import Mathlib.Tactic.SplitIfs

/-!
Reading uses up the text. A reader that gives a value leaves less of the text
than it was given, so the number of steps that a document may take is bounded
by its length.
-/

namespace HearingRelay.Json

variable {rest rest' : List Char}

theorem length_skipBlanks (rest : List Char) : (skipBlanks rest).length ≤ rest.length :=
  (List.dropWhile_suffix isSeparator).length_le

section Strings

theorem readHex4_consumes {n : Nat} (h : readHex4 rest = .ok (n, rest')) :
    rest'.length + 4 = rest.length := by
  unfold readHex4 at h
  split at h
  · split at h
    · obtain ⟨-, rfl⟩ := Prod.mk.inj (Except.ok.inj h)
      simp
    · simp at h
  · split at h <;> simp at h

theorem expectInString_eq_ok {c : Char} {u : Unit} (h : expectInString c rest = .ok (u, rest')) :
    rest = c :: rest' := by
  unfold expectInString failNext at h
  split at h
  · simp at h
  · split_ifs at h with hd
    rw [hd, (Prod.mk.inj (Except.ok.inj h)).2]

/-- A `\u` escape is one code unit, or two with a second `\u` between them. -/
theorem readUnicodeEscape_eq_ok {c : Char} (h : readUnicodeEscape rest = .ok (c, rest')) :
    ∃ n tail, readHex4 rest = .ok (n, tail) ∧ (tail = rest' ∨
      ∃ m tail', tail = '\\' :: 'u' :: tail' ∧ readHex4 tail' = .ok (m, rest')) := by
  unfold readUnicodeEscape failHere at h
  obtain ⟨⟨n, tail⟩, hfirst, h⟩ := exists_of_bind_eq_ok h
  refine ⟨n, tail, hfirst, ?_⟩
  dsimp only at h
  split_ifs at h with htrailing hleading
  · obtain ⟨⟨_, tail₁⟩, hbackslash, h⟩ := exists_of_bind_eq_ok h
    obtain ⟨⟨_, tail₂⟩, hletter, h⟩ := exists_of_bind_eq_ok h
    obtain ⟨⟨m, tail₃⟩, hsecond, h⟩ := exists_of_bind_eq_ok h
    dsimp only at h hletter hsecond
    split_ifs at h with hpair
    obtain ⟨-, rfl⟩ := Prod.mk.inj (Except.ok.inj h)
    refine Or.inr ⟨m, tail₂, ?_, hsecond⟩
    rw [expectInString_eq_ok hbackslash, expectInString_eq_ok hletter]
  · exact Or.inl (Prod.mk.inj (Except.ok.inj h)).2

theorem readEscape_consumes {c : Char} (h : readEscape rest = .ok (c, rest')) :
    rest'.length < rest.length := by
  unfold readEscape failNext at h
  split at h
  case h_10 tail =>
    obtain ⟨n, tail', hfirst, rfl | ⟨m, tail'', rfl, hsecond⟩⟩ := readUnicodeEscape_eq_ok h
    · have hlength := readHex4_consumes hfirst
      rw [List.length_cons]
      omega
    · have hlength := readHex4_consumes hfirst
      have hlength' := readHex4_consumes hsecond
      simp only [List.length_cons] at hlength ⊢
      omega
  case h_1 => simp at h
  case h_11 => simp at h
  all_goals
    obtain ⟨-, rfl⟩ := Prod.mk.inj (Except.ok.inj h)
    simp

theorem readCharacters_consumes {fuel : Nat} {seen cs : List Char}
    (h : readCharacters fuel seen rest = .ok (cs, rest')) : rest'.length < rest.length := by
  induction fuel generalizing seen rest with
  | zero => simp [readCharacters, failHere] at h
  | succ fuel ih =>
    cases rest with
    | nil => simp [readCharacters] at h
    | cons c rest =>
      simp only [readCharacters, failHere] at h
      rw [List.length_cons]
      split_ifs at h with hquote hbackslash hcontrol
      · rw [(Prod.mk.inj (Except.ok.inj h)).2]
        omega
      · split at h
        · simp at h
        · next d tail hescape =>
          have htail := readEscape_consumes hescape
          have hrest := ih h
          omega
      · have hrest := ih h
        omega

theorem readString_consumes {s : String} (h : readString rest = .ok (s, rest')) :
    rest'.length < rest.length := by
  unfold readString at h
  split at h
  · simp at h
  · next cs tail hread =>
    obtain ⟨-, rfl⟩ := Prod.mk.inj (Except.ok.inj h)
    exact readCharacters_consumes hread

end Strings

theorem readWord_eq_ok {word : List Char} {u : Unit} (h : readWord word rest = .ok (u, rest')) :
    rest = word ++ rest' := by
  induction word generalizing rest with
  | nil => exact (Prod.mk.inj (Except.ok.inj h)).2
  | cons c word ih =>
    cases rest with
    | nil => simp [readWord] at h
    | cons d rest =>
      simp only [readWord, failNext] at h
      split_ifs at h with hd
      rw [hd, ih h, List.cons_append]

section Literals

theorem length_takeDigits (rest : List Char) :
    (takeDigits rest).1.length + (takeDigits rest).2.length = rest.length := by
  unfold takeDigits
  rw [List.span_eq_takeWhile_dropWhile, ← List.length_append, List.takeWhile_append_dropWhile]

theorem takeDigits_consumes {c : Char} (hc : Text.isDigit c = true) {ds : List Char}
    (h : takeDigits (c :: rest) = (ds, rest')) : rest'.length < (c :: rest).length := by
  have hlength := length_takeDigits (c :: rest)
  have hpos : 0 < (takeDigits (c :: rest)).1.length := by
    unfold takeDigits
    rw [List.span_eq_takeWhile_dropWhile]
    simp [hc]
  rw [h] at hlength hpos
  dsimp only at hlength hpos
  omega

theorem readWhole_consumes {ds : List Char} (h : readWhole rest = .ok (ds, rest')) :
    rest'.length < rest.length := by
  unfold readWhole failNext at h
  split at h
  · simp at h
  · split at h
    · split_ifs at h
      obtain ⟨-, rfl⟩ := Prod.mk.inj (Except.ok.inj h)
      simp
    · obtain ⟨-, rfl⟩ := Prod.mk.inj (Except.ok.inj h)
      simp
  · split_ifs at h with hc
    exact takeDigits_consumes hc (Except.ok.inj h)

theorem readFraction_consumes {fraction : Option (List Char)}
    (h : readFraction rest = .ok (fraction, rest')) : rest'.length ≤ rest.length := by
  unfold readFraction failNext at h
  split at h
  · next tail =>
    have hlength := length_takeDigits tail
    split at h
    · simp at h
    · simp at h
    · next ds tail' _ _ htake =>
      obtain ⟨-, rfl⟩ := Prod.mk.inj (Except.ok.inj h)
      rw [htake] at hlength
      dsimp only at hlength
      rw [List.length_cons]
      omega
  · exact (Prod.mk.inj (Except.ok.inj h)).2 ▸ Nat.le_refl _

theorem readExponentDigits_consumes {ds : List Char}
    (h : readExponentDigits rest = .ok (ds, rest')) : rest'.length < rest.length := by
  unfold readExponentDigits failNext at h
  split at h
  · simp at h
  · split_ifs at h with hc
    exact takeDigits_consumes hc (Except.ok.inj h)

theorem readExponent_consumes {exponent : Option (Bool × List Char)}
    (h : readExponent rest = .ok (exponent, rest')) : rest'.length ≤ rest.length := by
  unfold readExponent at h
  split at h
  · next c tail =>
    split_ifs at h with he
    · split at h
      next negative tail' hsign =>
      have hle : tail'.length ≤ tail.length := by
        split at hsign <;> obtain ⟨-, rfl⟩ := Prod.mk.inj hsign <;> simp
      split at h
      · simp at h
      · next ds tail'' hdigits =>
        obtain ⟨-, rfl⟩ := Prod.mk.inj (Except.ok.inj h)
        have hlength := readExponentDigits_consumes hdigits
        rw [List.length_cons]
        omega
    · exact (Prod.mk.inj (Except.ok.inj h)).2 ▸ Nat.le_refl _
  · exact (Prod.mk.inj (Except.ok.inj h)).2 ▸ Nat.le_refl _

theorem readLiteral_consumes {negative : Bool} {n : Literal}
    (h : readLiteral negative rest = .ok (n, rest')) : rest'.length < rest.length := by
  unfold readLiteral at h
  obtain ⟨⟨whole, tail₁⟩, hwhole, h⟩ := exists_of_bind_eq_ok h
  obtain ⟨⟨fraction, tail₂⟩, hfraction, h⟩ := exists_of_bind_eq_ok h
  obtain ⟨⟨exponent, tail₃⟩, hexponent, h⟩ := exists_of_bind_eq_ok h
  obtain ⟨-, rfl⟩ := Prod.mk.inj (Except.ok.inj h)
  have h₁ := readWhole_consumes hwhole
  have h₂ := readFraction_consumes hfraction
  have h₃ := readExponent_consumes hexponent
  omega

/-- A number is a literal that counts as one. -/
theorem readNumber_eq_ok {negative : Bool} {n : Literal} {x : Number}
    (h : readNumber negative rest = .ok ((n, x), rest')) :
    readLiteral negative rest = .ok (n, rest') ∧ n.number? = some x := by
  unfold readNumber failHere at h
  split at h
  · simp at h
  · next n' tail hread =>
    dsimp only at h
    split at h
    · simp at h
    · simp at h
    · next y _ hy =>
      simp only [Except.ok.injEq, Prod.mk.injEq] at h
      obtain ⟨⟨rfl, rfl⟩, rfl⟩ := h
      exact ⟨hread, hy⟩

end Literals

section Nesting

theorem length_of_skipBlanks {c : Char} {tail : List Char} (h : skipBlanks rest = c :: tail) :
    tail.length < rest.length := by
  have hle := length_skipBlanks rest
  rw [h, List.length_cons] at hle
  omega

theorem nextItem_consumes {first : Bool} (h : nextItem first rest = .ok (some rest')) :
    rest'.length ≤ rest.length := by
  unfold nextItem failNext at h
  split at h
  · simp at h
  · simp at h
  · next c tail _ hblanks =>
    have hlength := length_of_skipBlanks hblanks
    split_ifs at h with hfirst hcomma
    · obtain rfl := Option.some.inj (Except.ok.inj h)
      rw [List.length_cons]
      omega
    · split at h
      · simp at h
      · simp at h
      · obtain rfl := Option.some.inj (Except.ok.inj h)
        have hblanks' := length_skipBlanks tail
        omega

theorem nextKey_consumes {first : Bool} (h : nextKey first rest = .ok (some rest')) :
    rest'.length < rest.length := by
  unfold nextKey failNext at h
  split at h
  · simp at h
  · simp at h
  · next c tail _ hblanks =>
    have hlength := length_of_skipBlanks hblanks
    split_ifs at h with hfirst hquote hcomma
    · obtain rfl := Option.some.inj (Except.ok.inj h)
      exact hlength
    · split at h
      · simp at h
      · next tail' hblanks' =>
        obtain rfl := Option.some.inj (Except.ok.inj h)
        have hlength' := length_of_skipBlanks hblanks'
        omega
      · simp at h
      · simp at h

theorem readColon_consumes (h : readColon rest = .ok rest') : rest'.length < rest.length := by
  unfold readColon failNext at h
  split at h
  · simp at h
  · next hblanks =>
    obtain rfl := Except.ok.inj h
    exact length_of_skipBlanks hblanks
  · simp at h

/-- The bracket that ends a list is used up. -/
theorem dropClosing_of_nextItem {first : Bool} (h : nextItem first rest = .ok none) :
    skipBlanks rest = ']' :: dropClosing rest := by
  unfold nextItem failNext at h
  unfold dropClosing
  split at h
  · simp at h
  · next tail hblanks => rw [hblanks, List.drop_one, List.tail_cons]
  · split_ifs at h
    · simp at h
    · split at h <;> simp at h

theorem dropClosing_of_nextKey {first : Bool} (h : nextKey first rest = .ok none) :
    skipBlanks rest = '\x7d' :: dropClosing rest := by
  unfold nextKey failNext at h
  unfold dropClosing
  split at h
  · simp at h
  · next tail hblanks => rw [hblanks, List.drop_one, List.tail_cons]
  · split_ifs at h
    · simp at h
    · split at h <;> simp at h

end Nesting

end HearingRelay.Json
