import HearingRelay.Proofs.Json.Derivation

/-!
Typed readers on documents. On a text that can be read as a document a typed
reader gives what its decoding makes of the document, and ends at the same
place; where the decoding makes nothing of it the reader refuses. A record is
decoded from the members of an object, each known name once at most, or from
the items of an array in the order of the fields.
-/

namespace HearingRelay.Json

/-- A result is the given one, or a refusal where none is given. -/
def Gives {ε β : Type} (result : Except ε β) : Option β → Prop
  | some b => result = .ok b
  | none => ∃ e, result = .error e

section Gives

variable {ε α β : Type} {x : Except ε α} {o : Option α}

theorem gives_error (e : ε) : Gives (.error e : Except ε α) none := ⟨e, rfl⟩

theorem Gives.map (f : α → β) (h : Gives x o) : Gives (x.map f) (o.map f) := by
  cases o with
  | some a =>
    obtain rfl : x = .ok a := h
    rfl
  | none =>
    obtain ⟨e, rfl⟩ := h
    exact gives_error e

theorem Gives.bind {f : α → Except ε β} {g : α → Option β} (h : Gives x o)
    (hnext : ∀ a, o = some a → Gives (f a) (g a)) : Gives (x.bind f) (o.bind g) := by
  cases o with
  | some a =>
    obtain rfl : x = .ok a := h
    exact hnext a rfl
  | none =>
    obtain ⟨e, rfl⟩ := h
    exact gives_error e

end Gives

def Decodes {α : Type} (reader : Reader α) (take : Value → Option α) : Prop :=
  ∀ ⦃depth rest v rest'⦄, Reads depth rest v rest' →
    Gives (reader rest) ((take v).map fun a => (a, rest'))

section Scalars

variable {depth : Nat} {rest rest' : List Char} {v : Value}

theorem gives_none_of_bind {α β : Type} {x : Except Failure α} {f : α → Except Failure β}
    (h : ∀ a, Gives (f a) none) : Gives (x >>= f) none := by
  cases x with
  | error e => exact gives_error e
  | ok a => exact h a

/-- A value of another kind is refused. -/
theorem gives_refuseKind {α : Type} (expected : String) (rest : List Char) :
    Gives (refuseKind expected rest : Except Failure α) none := by
  unfold refuseKind failNext failHere
  split
  · exact gives_error _
  · split_ifs
    all_goals first
      | exact gives_error _
      | exact gives_none_of_bind fun _ => gives_error _

def Value.text? : Value → Option String
  | .string s => some s
  | _ => none

def Value.integerWithin? (low high : Int) : Value → Option Int
  | .number n =>
    match n.number? with
    | some (.integer k) => if low ≤ k ∧ k ≤ high then some k else none
    | _ => none
  | _ => none

def Value.optional? {α : Type} (take : Value → Option α) : Value → Option (Option α)
  | .null => some none
  | v => (take v).map some

theorem decodes_readText : Decodes readText Value.text? := by
  intro depth rest v rest' h
  cases h with
  | string hfirst hstring =>
    simp only [readText, hfirst]
    exact hstring
  | digit hfirst hdigit _ =>
    simp only [readText, hfirst]
    split
    · next heq =>
      obtain ⟨rfl, -⟩ := List.cons.inj heq
      exact absurd hdigit (by decide)
    · exact gives_refuseKind _ _
  | _ hfirst =>
    simp only [readText, hfirst]
    exact gives_refuseKind _ _

/-- A number is taken when it is whole and between the bounds. -/
theorem gives_integerWithin (low high : Int) (expected : String) (n : Literal) {x : Number}
    (hx : n.number? = some x) (rest : List Char) :
    Gives (match x with
      | .integer k =>
        if low ≤ k ∧ k ≤ high then .ok (k, rest)
        else failHere (.invalidValue x.found expected) rest
      | .real _ => failHere (.invalidType x.found expected) rest)
      (((Value.number n).integerWithin? low high).map fun k => (k, rest)) := by
  simp only [Value.integerWithin?, hx]
  cases x with
  | real y => exact gives_error _
  | integer k =>
    by_cases hk : low ≤ k ∧ k ≤ high
    · simp only [if_pos hk]
      rfl
    · simp only [if_neg hk]
      exact gives_error _

theorem decodes_readIntegerWithin (low high : Int) (expected : String) :
    Decodes (readIntegerWithin low high expected) (Value.integerWithin? low high) := by
  intro depth rest v rest' h
  cases h with
  | minus hfirst hnumber =>
    have hx := (readNumber_eq_ok hnumber).2
    have hgives := gives_integerWithin low high expected _ hx rest'
    simp only [readIntegerWithin, hfirst, hnumber, bind, Except.bind]
    exact hgives
  | digit hfirst hdigit hnumber =>
    have hx := (readNumber_eq_ok hnumber).2
    have hgives := gives_integerWithin low high expected _ hx rest'
    have hminus := (not_letter_of_isDigit hdigit).2.2.2
    simp only [readIntegerWithin, hfirst, hminus, hdigit, hnumber, bind, Except.bind]
    exact hgives
  | _ hfirst =>
    simp only [readIntegerWithin, hfirst]
    exact gives_refuseKind _ _

theorem decodes_readOptional {α : Type} {reader : Reader α} {take : Value → Option α}
    (hreader : Decodes reader take) : Decodes (readOptional reader) (Value.optional? take) := by
  intro depth rest v rest' h
  have hsome : ∀ w, v = w → w ≠ .null →
      Gives ((reader (skipBlanks rest)).map fun p => (some p.1, p.2))
        ((w.optional? take).map fun o => (o, rest')) := by
    rintro _ rfl hnull
    have hvalue : v.optional? take = (take v).map some := by
      cases v <;> first | rfl | exact absurd rfl hnull
    have hgives := (hreader h.of_skipBlanks).map fun p => (some p.1, p.2)
    rw [hvalue]
    cases htake : take v with
    | none => simpa [htake] using hgives
    | some a => simpa [htake] using hgives
  cases h with
  | nullWord hfirst hword =>
    simp only [readOptional, hfirst, hword]
    rfl
  | digit hfirst hdigit _ =>
    have hgives := hsome _ rfl (by simp)
    rw [hfirst] at hgives
    simp only [readOptional, hfirst]
    split
    · next heq =>
      obtain ⟨rfl, -⟩ := List.cons.inj heq
      exact absurd hdigit (by decide)
    · exact hgives
  | _ hfirst =>
    have hgives := hsome _ rfl (by simp)
    rw [hfirst] at hgives
    simp only [readOptional, hfirst]
    exact hgives

end Scalars

section Records

variable {σ α : Type} {depth : Nat} {rest rest' : List Char}

/-- Decodes the members of an object into a record, each with the field that
has its name; a field is set once. -/
def takeMembers (fields : List (Field σ)) (take : String → σ → Value → Option σ) :
    σ → List (String × Value) → Option σ
  | record, [] => some record
  | record, (name, v) :: members =>
    match fields.find? (·.name == name) with
    | some field =>
      if field.isSet record then none
      else (take name record v).bind fun record => takeMembers fields take record members
    | none => takeMembers fields take record members

def takeItems (take : String → σ → Value → Option σ) : List (Field σ) → σ → List Value → Option σ
  | [], record, [] => some record
  | [], _, _ :: _ => none
  | field :: fields, record, [] =>
    if field.hasDefault then takeItems take fields record [] else none
  | field :: fields, record, v :: items =>
    (take field.name record v).bind fun record => takeItems take fields record items

def takeRecord (fields : List (Field σ)) (take : String → σ → Value → Option σ) (empty : σ) :
    Value → Option σ
  | .object members => takeMembers fields take empty members
  | .array items => takeItems take fields empty items
  | _ => none

variable {fields : List (Field σ)} {take : String → σ → Value → Option σ}

theorem ReadsMembers.length_lt {first : Bool} {members : List (String × Value)}
    (h : ReadsMembers depth first rest members rest') : members.length < rest.length := by
  induction members generalizing first rest with
  | nil =>
    have hconsumes := h.consumes
    rw [List.length_nil]
    omega
  | cons member members ih =>
    cases h with
    | cons hnext hname hcolon hvalue hmembers =>
      have h₁ := nextKey_consumes hnext
      have h₂ := readString_consumes hname
      have h₃ := readColon_consumes hcolon
      have h₄ := hvalue.consumes
      have h₅ := ih hmembers
      rw [List.length_cons]
      omega

/-- The members of a record are decoded one by one; the others are passed over. -/
theorem readFields_gives
    (hfields : ∀ field ∈ fields, ∀ record, Decodes (field.read record) (take field.name record))
    {fuel : Nat} {first : Bool} (record : σ) {members : List (String × Value)}
    (h : ReadsMembers depth first rest members rest') (hfuel : members.length < fuel) :
    Gives (readFields fields fuel first record rest)
      ((takeMembers fields take record members).map fun record => (record, rest')) := by
  induction members generalizing fuel first record rest with
  | nil =>
    obtain ⟨fuel, rfl⟩ : ∃ k, fuel = k + 1 := ⟨fuel - 1, by omega⟩
    cases h with
    | nil hnext =>
      simp only [readFields, hnext]
      rfl
  | cons member members ih =>
    obtain ⟨fuel, rfl⟩ : ∃ k, fuel = k + 1 := ⟨fuel - 1, by omega⟩
    obtain ⟨name, v⟩ := member
    cases h with
    | cons hnext hname hcolon hvalue hmembers =>
      have hcount : members.length < fuel := by simpa using hfuel
      simp only [readFields, hnext, hname, takeMembers]
      cases hfield : fields.find? (·.name == name) with
      | none =>
        simp only [hcolon, Except.bind, hvalue.skipValue_eq]
        exact ih record hmembers hcount
      | some field =>
        have hmem : field ∈ fields := List.mem_of_find?_eq_some hfield
        have hname' : field.name = name := by simpa using List.find?_some hfield
        dsimp only
        split_ifs with hset
        · exact gives_error _
        · have hgives := hfields field hmem record hvalue
          rw [hname'] at hgives
          simp only [hcolon, Except.bind]
          cases htake : take name record v with
          | none =>
            simp only [htake, Option.map_none, Gives] at hgives
            obtain ⟨e, he⟩ := hgives
            simp only [he]
            exact gives_error _
          | some record' =>
            simp only [htake, Option.map_some, Gives] at hgives
            simp only [hgives]
            exact ih record' hmembers hcount

/-- Where the list goes on there is no end of a record. -/
theorem gives_readInOrder_nil (expected : String) (count : Nat) {first : Bool} (n : Nat)
    (record : σ)
    {item : List Char} (hnext : nextItem first rest = .ok (some item)) :
    Gives (readInOrder expected count [] first n record rest) none := by
  unfold nextItem at hnext
  simp only [readInOrder, failNext]
  split
  · exact gives_error _
  · next hblanks => simp [hblanks] at hnext
  · split <;> exact gives_error _
  · exact gives_error _

/-- The items of a record are decoded in the order of the fields. -/
theorem readInOrder_gives (expected : String) (count : Nat)
    (hfields : ∀ field ∈ fields, ∀ record, Decodes (field.read record) (take field.name record))
    {first : Bool} (n : Nat) (record : σ) {items : List Value}
    (h : ReadsItems depth first rest items rest') :
    Gives (readInOrder expected count fields first n record rest)
      ((takeItems take fields record items).map fun record => (record, rest')) := by
  induction fields generalizing first n record items rest with
  | nil =>
    cases h with
    | nil hnext =>
      simp only [readInOrder, dropClosing_of_nextItem hnext]
      rfl
    | cons hnext _ _ => exact gives_readInOrder_nil expected count n record hnext
  | cons field fields ih =>
    obtain ⟨hfield, hothers⟩ := List.forall_mem_cons.mp hfields
    cases h with
    | nil hnext =>
      simp only [readInOrder, hnext, takeItems]
      by_cases hdefault : field.hasDefault = true
      · simp only [if_pos hdefault]
        exact ih hothers (n + 1) record (.nil hnext)
      · simp only [if_neg hdefault]
        exact gives_error _
    | cons hnext hvalue hitems =>
      rename_i item v rest₁ items
      have hgives := hfield record hvalue
      simp only [readInOrder, hnext, takeItems]
      cases htake : take field.name record v with
      | none =>
        simp only [htake, Option.map_none, Gives] at hgives
        obtain ⟨e, he⟩ := hgives
        simp only [he]
        exact gives_error _
      | some record' =>
        simp only [htake, Option.map_some, Gives] at hgives
        simp only [hgives]
        exact ih hothers (n + 1) record' hitems

def finishRead (finish : σ → Except Cause α) (p : σ × List Char) : Except Failure (α × List Char) :=
  match finish p.1 with
  | .ok a => .ok (a, p.2)
  | .error cause => failHere cause p.2

theorem gives_finishRead {result : Except Failure (σ × List Char)} {taken : Option σ}
    {finish : σ → Except Cause α} (h : Gives result (taken.map fun record => (record, rest'))) :
    Gives (result.bind (finishRead finish))
      ((taken.bind fun record => (finish record).toOption).map fun a => (a, rest')) := by
  cases taken with
  | none =>
    obtain ⟨e, rfl⟩ := h
    exact gives_error e
  | some record =>
    obtain rfl : result = .ok (record, rest') := h
    cases hfinish : finish record with
    | ok a => simp [Gives, Except.bind, finishRead, Except.toOption, hfinish]
    | error cause =>
      simp only [Except.bind, finishRead, hfinish, Option.bind_some, Except.toOption,
        Option.map_none]
      exact gives_error _

/-- A record is decoded from an object or from an array. -/
theorem decodes_readRecord (expected : String) {empty : σ} {finish : σ → Except Cause α}
    (hfields : ∀ field ∈ fields, ∀ record, Decodes (field.read record) (take field.name record)) :
    Decodes (readRecord expected fields empty finish)
      fun v => (takeRecord fields take empty v).bind fun record => (finish record).toOption := by
  intro depth rest v rest' h
  cases h with
  | object hfirst _ hmembers =>
    have hcount := hmembers.length_lt
    simp only [readRecord, hfirst]
    exact gives_finishRead (readFields_gives hfields empty hmembers (by omega))
  | array hfirst _ hitems =>
    simp only [readRecord, hfirst]
    exact gives_finishRead (readInOrder_gives expected fields.length hfields 0 empty hitems)
  | digit hfirst hdigit _ =>
    simp only [readRecord, hfirst]
    split
    · next heq =>
      obtain ⟨rfl, -⟩ := List.cons.inj heq
      exact absurd hdigit (by decide)
    · next heq =>
      obtain ⟨rfl, -⟩ := List.cons.inj heq
      exact absurd hdigit (by decide)
    · exact gives_refuseKind _ _
  | _ hfirst =>
    simp only [readRecord, hfirst]
    exact gives_refuseKind _ _

end Records

section Invariants

variable {σ α : Type} {fields : List (Field σ)} {P : σ → Prop}

theorem exists_of_readOptional {reader : Reader α} {rest rest' : List Char} {a : α}
    (h : readOptional reader rest = .ok (some a, rest')) :
    ∃ rest₁, reader rest₁ = .ok (a, rest') := by
  unfold readOptional at h
  split at h
  · obtain ⟨p, -, heq⟩ := exists_of_map_eq_ok h
    simp at heq
  · obtain ⟨⟨a', tail⟩, hread, heq⟩ := exists_of_map_eq_ok h
    obtain ⟨hvalue, rfl⟩ := Prod.mk.inj heq
    obtain rfl := Option.some.inj hvalue
    exact ⟨_, hread⟩

theorem within_of_readIntegerWithin {low high k : Int} {expected : String} {rest rest' : List Char}
    (h : readIntegerWithin low high expected rest = .ok (k, rest')) : low ≤ k ∧ k ≤ high := by
  unfold readIntegerWithin failHere at h
  split at h
  · simp at h
  · split at h
    · dsimp only at h
      split at h
      all_goals
        obtain ⟨⟨⟨n, x⟩, tail⟩, -, h⟩ := exists_of_bind_eq_ok h
        dsimp only at h
        split at h
        · split_ifs at h with hk
          obtain ⟨rfl, -⟩ := Prod.mk.inj (Except.ok.inj h)
          exact hk
        · simp at h
    · obtain ⟨e, he⟩ : Gives (refuseKind expected rest) none := gives_refuseKind expected rest
      rw [he] at h
      simp at h

/-- What each field keeps holds of the record behind the members. -/
theorem readFields_keeps
    (hfields : ∀ field ∈ fields, ∀ record rest record' rest', P record →
      field.read record rest = .ok (record', rest') → P record')
    {fuel : Nat} {first : Bool} {record record' : σ} {rest rest' : List Char}
    (h : readFields fields fuel first record rest = .ok (record', rest')) (hrecord : P record) :
    P record' := by
  induction fuel generalizing first record rest with
  | zero => simp [readFields, failHere] at h
  | succ fuel ih =>
    simp only [readFields, failHere] at h
    split at h
    · simp at h
    · obtain ⟨rfl, -⟩ := Prod.mk.inj (Except.ok.inj h)
      exact hrecord
    · split at h
      · simp at h
      · next name _ _ =>
        split at h
        · next field hfield =>
          split at h
          · simp at h
          · split at h
            · simp at h
            · next record₁ rest₁ hread =>
              obtain ⟨value, -, hvalue⟩ := exists_of_bind_eq_ok hread
              exact ih h (hfields field (List.mem_of_find?_eq_some hfield) _ _ _ _ hrecord hvalue)
        · split at h
          · simp at h
          · exact ih h hrecord

theorem readInOrder_keeps {expected : String} {count : Nat}
    (hfields : ∀ field ∈ fields, ∀ record rest record' rest', P record →
      field.read record rest = .ok (record', rest') → P record')
    {first : Bool} {n : Nat} {record record' : σ} {rest rest' : List Char}
    (h : readInOrder expected count fields first n record rest = .ok (record', rest'))
    (hrecord : P record) : P record' := by
  induction fields generalizing first n record rest with
  | nil =>
    simp only [readInOrder, failNext] at h
    split at h
    · simp at h
    · obtain ⟨rfl, -⟩ := Prod.mk.inj (Except.ok.inj h)
      exact hrecord
    · split at h <;> simp at h
    · simp at h
  | cons field fields ih =>
    obtain ⟨hfield, hothers⟩ := List.forall_mem_cons.mp hfields
    simp only [readInOrder, failHere] at h
    split at h
    · simp at h
    · split at h
      · exact ih hothers h hrecord
      · simp at h
    · split at h
      · simp at h
      · next record₁ rest₁ hread => exact ih hothers h (hfield _ _ _ _ hrecord hread)

/-- What holds of the empty record and is kept by each field holds of what is finished. -/
theorem readRecord_keeps {expected : String} {empty : σ} {finish : σ → Except Cause α}
    (hfields : ∀ field ∈ fields, ∀ record rest record' rest', P record →
      field.read record rest = .ok (record', rest') → P record')
    (hempty : P empty) {rest rest' : List Char} {a : α}
    (h : readRecord expected fields empty finish rest = .ok (a, rest')) :
    ∃ record, P record ∧ finish record = .ok a := by
  have hfinished : ∀ p : σ × List Char, finishRead finish p = .ok (a, rest') →
      finish p.1 = .ok a := by
    intro p hp
    unfold finishRead failHere at hp
    split at hp
    · next hfinish =>
      obtain ⟨rfl, -⟩ := Prod.mk.inj (Except.ok.inj hp)
      exact hfinish
    · simp at hp
  unfold readRecord at h
  dsimp only at h
  split at h
  · obtain ⟨p, hread, hp⟩ := exists_of_bind_eq_ok h
    exact ⟨p.1, readFields_keeps hfields hread hempty, hfinished p hp⟩
  · obtain ⟨p, hread, hp⟩ := exists_of_bind_eq_ok h
    exact ⟨p.1, readInOrder_keeps hfields hread hempty, hfinished p hp⟩
  · have hrefused : Gives (refuseKind expected rest : Except Failure (α × List Char)) none :=
      gives_refuseKind expected rest
    obtain ⟨e, he⟩ := hrefused
    rw [he] at h
    simp at h

end Invariants

/-- A typed reader of whole texts gives what it makes of the document. -/
theorem runReader_gives {α : Type} {reader : Reader α} {take : Value → Option α}
    (hreader : Decodes reader take) {text : String} {v : Value} (h : parse text = .ok v) :
    Gives (runReader reader text) (take v) := by
  obtain ⟨rest, hreads, hblank⟩ := reads_of_parse h
  have hgives := hreader hreads
  unfold runReader
  dsimp only
  cases htake : take v with
  | none =>
    simp only [htake, Option.map_none, Gives] at hgives
    obtain ⟨e, he⟩ := hgives
    simp only [he]
    exact gives_error _
  | some a =>
    simp only [htake, Option.map_some, Gives] at hgives
    simp only [hgives, hblank]
    rfl

theorem not_isBlankText {text : String} {c : Char} {tail : List Char}
    (hfirst : skipBlanks text.toList = c :: tail) (hc : Text.isBlank c = false) :
    ¬ Text.IsBlankText text := by
  intro hblank
  have hfirst' : c ∈ skipBlanks text.toList := hfirst ▸ List.mem_cons_self
  have hmem : c ∈ text.toList := (List.dropWhile_suffix isSeparator).subset hfirst'
  exact Bool.false_ne_true (hc.symm.trans (hblank c hmem))

theorem not_blank_of_isDigit {c : Char} (h : Text.isDigit c = true) : Text.isBlank c = false := by
  by_contra hblank
  have hrange : 48 ≤ c.toNat ∧ c.toNat ≤ 57 := Char.isDigit_iff_toNat.mp h
  simp only [Text.isBlank, Bool.not_eq_false, Bool.or_eq_true, Bool.and_eq_true, decide_eq_true_eq,
    beq_iff_eq] at hblank
  omega

/-- A text that can be read as a document says something. -/
theorem not_isBlankText_of_parse {text : String} {v : Value} (h : parse text = .ok v) :
    ¬ Text.IsBlankText text := by
  obtain ⟨rest, hreads, -⟩ := reads_of_parse h
  cases hreads with
  | digit hfirst hdigit _ => exact not_isBlankText hfirst (not_blank_of_isDigit hdigit)
  | _ hfirst => exact not_isBlankText hfirst (by decide)

end HearingRelay.Json
