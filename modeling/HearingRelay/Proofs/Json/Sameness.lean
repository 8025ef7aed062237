import HearingRelay.Proofs.Json.Canonical

/-!
When two documents are the same: their members have the same names and the same
values, in any order, their items are the same one by one, and their numbers
have the same decimal value. A document is the same as its canonical form when
no object in it repeats a name and every number in it keeps its value.
-/

namespace HearingRelay.Json

section Equality

mutual

def Value.beq : Value → Value → Bool
  | .null, .null => true
  | .bool a, .bool b => a == b
  | .number m, .number n => m == n
  | .string s, .string t => s == t
  | .array items, .array items' => beqItems items items'
  | .object members, .object members' => beqMembers members members'
  | _, _ => false

def beqItems : List Value → List Value → Bool
  | [], [] => true
  | v :: items, v' :: items' => v.beq v' && beqItems items items'
  | _, _ => false

def beqMembers : List (String × Value) → List (String × Value) → Bool
  | [], [] => true
  | (name, v) :: members, (name', v') :: members' =>
    name == name' && v.beq v' && beqMembers members members'
  | _, _ => false

end

mutual

theorem beq_iff_eq : (v w : Value) → (v.beq w = true ↔ v = w)
  | .null, w | .bool _, w | .number _, w | .string _, w => by cases w <;> simp [Value.beq]
  | .array items, w => by
    have hitems := fun items' => beqItems_iff_eq items items'
    cases w <;> simp [Value.beq, hitems]
  | .object members, w => by
    have hmembers := fun members' => beqMembers_iff_eq members members'
    cases w <;> simp [Value.beq, hmembers]

theorem beqItems_iff_eq :
    (items items' : List Value) → (beqItems items items' = true ↔ items = items')
  | [], items' => by cases items' <;> simp [beqItems]
  | v :: items, items' => by
    have hvalue := fun w => beq_iff_eq v w
    have hitems := fun items' => beqItems_iff_eq items items'
    cases items' <;> simp [beqItems, hvalue, hitems]

theorem beqMembers_iff_eq : (members members' : List (String × Value)) →
    (beqMembers members members' = true ↔ members = members')
  | [], members' => by cases members' <;> simp [beqMembers]
  | (name, v) :: members, members' => by
    have hvalue := fun w => beq_iff_eq v w
    have hmembers := fun members' => beqMembers_iff_eq members members'
    cases members' <;> simp [beqMembers, hvalue, hmembers, Prod.ext_iff, and_assoc]

end

instance : DecidableEq Value := fun v w => decidable_of_iff _ (beq_iff_eq v w)

end Equality

mutual

inductive Same : Value → Value → Prop
  | null : Same .null .null
  | bool (b : Bool) : Same (.bool b) (.bool b)
  | number {n n'} : n.value = n'.value → Same (.number n) (.number n')
  | string (s : String) : Same (.string s) (.string s)
  | array {items items'} : SameItems items items' → Same (.array items) (.array items')
  /-- The order of the members does not matter, their number does. -/
  | object {members arranged members'} : SameMembers members arranged →
      arranged.Perm members' → Same (.object members) (.object members')

inductive SameItems : List Value → List Value → Prop
  | nil : SameItems [] []
  | cons {v v' items items'} : Same v v' → SameItems items items' →
      SameItems (v :: items) (v' :: items')

inductive SameMembers : List (String × Value) → List (String × Value) → Prop
  | nil : SameMembers [] []
  | cons {name v v' members members'} : Same v v' → SameMembers members members' →
      SameMembers ((name, v) :: members) ((name, v') :: members')

end

mutual

/-- Whether a document is the same after it is written. -/
def Value.Faithful : Value → Prop
  | .null => True
  | .bool _ => True
  | .number n => n.value = n.canonical.value
  | .string _ => True
  | .array items => FaithfulItems items
  | .object members => (members.map Prod.fst).Nodup ∧ FaithfulMembers members

def FaithfulItems : List Value → Prop
  | [] => True
  | v :: rest => v.Faithful ∧ FaithfulItems rest

def FaithfulMembers : List (String × Value) → Prop
  | [] => True
  | (_, v) :: rest => v.Faithful ∧ FaithfulMembers rest

end

section Parts

theorem same_number_iff {n n' : Literal} :
    Same (.number n) (.number n') ↔ n.value = n'.value := by
  refine ⟨fun h => ?_, .number⟩
  cases h
  assumption

theorem same_array_iff {items items' : List Value} :
    Same (.array items) (.array items') ↔ SameItems items items' := by
  refine ⟨fun h => ?_, .array⟩
  cases h
  assumption

theorem sameItems_cons_iff {v v' : Value} {items items' : List Value} :
    SameItems (v :: items) (v' :: items') ↔ Same v v' ∧ SameItems items items' := by
  refine ⟨fun h => ?_, fun h => .cons h.1 h.2⟩
  cases h
  exact ⟨‹_›, ‹_›⟩

theorem sameMembers_cons_iff {name : String} {v v' : Value}
    {members members' : List (String × Value)} :
    SameMembers ((name, v) :: members) ((name, v') :: members') ↔
      Same v v' ∧ SameMembers members members' := by
  refine ⟨fun h => ?_, fun h => .cons h.1 h.2⟩
  cases h
  exact ⟨‹_›, ‹_›⟩

end Parts

section Members

variable {α : Type}

theorem SameMembers.names {members members' : List (String × Value)}
    (h : SameMembers members members') : members.map Prod.fst = members'.map Prod.fst := by
  induction members generalizing members' with
  | nil =>
    cases h
    rfl
  | cons p members ih =>
    cases h with
    | cons hvalue hrest => rw [List.map_cons, List.map_cons, ih hrest]

/-- Members under distinct names can be arranged by their names in one way only. -/
theorem eq_of_perm_of_names {l l' : List (String × α)} (hperm : l.Perm l')
    (hnames : l.map Prod.fst = l'.map Prod.fst) (hnodup : (l'.map Prod.fst).Nodup) : l = l' := by
  induction l generalizing l' with
  | nil => exact hperm.nil_eq
  | cons p l ih =>
    obtain _ | ⟨q, l'⟩ := l'
    · exact absurd hperm.eq_nil (by simp)
    · obtain ⟨hname, hrest⟩ := List.cons.inj hnames
      obtain ⟨hnew, hdistinct⟩ := List.nodup_cons.mp hnodup
      -- Were the first not the same, its name would stand twice.
      have hpq : p = q := by
        rcases List.mem_cons.mp (hperm.subset List.mem_cons_self) with heq | hp
        · exact heq
        · exact absurd (hname ▸ List.mem_map_of_mem hp) hnew
      subst hpq
      rw [ih hperm.cons_inv hrest hdistinct]

theorem names_canonicalMembers (members : List (String × Value)) :
    (canonicalMembers members).map Prod.fst = members.map Prod.fst := by
  rw [canonicalMembers_eq_map, List.map_map]
  rfl

/-- The members of an object are those of its canonical form when their names
are distinct. -/
theorem same_object_iff {members : List (String × Value)} :
    Same (.object members) (.object (sortedByName (canonicalMembers members))) ↔
      (members.map Prod.fst).Nodup ∧ SameMembers members (canonicalMembers members) := by
  have hsorted := nodup_sortedByName (canonicalMembers members)
  constructor
  · rintro (_ | _ | _ | _ | _ | ⟨hsame, hperm⟩)
    have hnodup : (members.map Prod.fst).Nodup := by
      rw [hsame.names]
      exact (hperm.map Prod.fst).nodup_iff.mpr hsorted
    have hnodup' : ((canonicalMembers members).map Prod.fst).Nodup := by
      rwa [names_canonicalMembers]
    have heq := eq_of_perm_of_names (hperm.trans (sortedByName_perm hnodup'))
      (hsame.names.symm.trans (names_canonicalMembers members).symm) hnodup'
    exact ⟨hnodup, heq ▸ hsame⟩
  · rintro ⟨hnodup, hsame⟩
    rw [← names_canonicalMembers] at hnodup
    exact .object hsame (sortedByName_perm hnodup).symm

end Members

mutual

/-- A document is the same as its canonical form when it repeats no name and its
numbers keep their values. -/
theorem same_canonical_iff : (v : Value) → (Same v v.canonical ↔ v.Faithful)
  | .null => iff_of_true .null trivial
  | .bool b => iff_of_true (.bool b) trivial
  | .number _ => same_number_iff
  | .string s => iff_of_true (.string s) trivial
  | .array items => same_array_iff.trans (sameItems_canonical_iff items)
  | .object members =>
    same_object_iff.trans (and_congr_right fun _ => sameMembers_canonical_iff members)

theorem sameItems_canonical_iff :
    (items : List Value) → (SameItems items (canonicalItems items) ↔ FaithfulItems items)
  | [] => iff_of_true .nil trivial
  | v :: items =>
    sameItems_cons_iff.trans (and_congr (same_canonical_iff v) (sameItems_canonical_iff items))

theorem sameMembers_canonical_iff : (members : List (String × Value)) →
    (SameMembers members (canonicalMembers members) ↔ FaithfulMembers members)
  | [] => iff_of_true .nil trivial
  | (_, v) :: members =>
    sameMembers_cons_iff.trans
      (and_congr (same_canonical_iff v) (sameMembers_canonical_iff members))

end

end HearingRelay.Json
