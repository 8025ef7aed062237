import HearingRelay.Message.Envelope
import HearingRelay.Proofs.Json.Derivation
import HearingRelay.Proofs.Json.Numbers

/-!
What a written document is read as. A document that is read from a text and
written again comes back with its members sorted by name, of those with one
name the last, and with its numbers as they are written. The text that was
written is as deep as the one that was read, so it is never refused.
-/

namespace HearingRelay.Json

section Sorting

variable {α β : Type}

theorem map_insertSorted (f : α → β) (name : String) (a : α) (l : List (String × α)) :
    (insertSorted name a l).map (fun p => (p.1, f p.2)) =
      insertSorted name (f a) (l.map fun p => (p.1, f p.2)) := by
  induction l with
  | nil => rfl
  | cons p rest ih =>
    simp only [insertSorted, List.map_cons]
    split_ifs
    · rfl
    · rfl
    · rw [List.map_cons, ih]

/-- Members are sorted by their names alone. -/
theorem map_sortedByName (f : α → β) (l : List (String × α)) :
    (sortedByName l).map (fun p => (p.1, f p.2)) = sortedByName (l.map fun p => (p.1, f p.2)) := by
  have hfold : ∀ sorted : List (String × α),
      (l.foldl (fun sorted p => insertSorted p.1 p.2 sorted) sorted).map (fun p => (p.1, f p.2)) =
        (l.map fun p => (p.1, f p.2)).foldl (fun sorted p => insertSorted p.1 p.2 sorted)
          (sorted.map fun p => (p.1, f p.2)) := by
    induction l with
    | nil => exact fun _ => rfl
    | cons p rest ih =>
      intro sorted
      rw [List.foldl_cons, ih, map_insertSorted]
      rfl
  exact hfold []

theorem sortedByName_concat (l : List (String × α)) (p : String × α) :
    sortedByName (l ++ [p]) = insertSorted p.1 p.2 (sortedByName l) := by
  unfold sortedByName
  rw [List.foldl_append]
  rfl

theorem pairwise_sortedByName (l : List (String × α)) :
    (sortedByName l).Pairwise fun p q => p.1 < q.1 := by
  induction l using List.reverseRecOn with
  | nil => exact List.Pairwise.nil
  | append_singleton l p ih =>
    rw [sortedByName_concat]
    exact Properties.pairwise_insertSorted p.1 p.2 ih

theorem nodup_sortedByName (l : List (String × α)) : ((sortedByName l).map Prod.fst).Nodup := by
  rw [List.nodup_iff_pairwise_ne, List.pairwise_map]
  exact (pairwise_sortedByName l).imp String.ne_of_lt

theorem mem_insertSorted_iff {name : String} {a : α} {l : List (String × α)}
    (hl : l.Pairwise fun p q => p.1 < q.1) {q : String × α} :
    q ∈ insertSorted name a l ↔ q = (name, a) ∨ q ∈ l ∧ q.1 ≠ name := by
  induction l with
  | nil => simp [insertSorted]
  | cons p rest ih =>
    obtain ⟨hfirst, hrest⟩ := List.pairwise_cons.mp hl
    have hlater : q ∈ rest → q.1 ≠ p.1 := fun hq => (String.ne_of_lt (hfirst q hq)).symm
    simp only [insertSorted]
    split_ifs with hless heq
    · have hnew : q ∈ p :: rest → q.1 ≠ name := by
        rintro hq rfl
        rcases List.mem_cons.mp hq with rfl | hq
        · exact String.lt_irrefl _ hless
        · exact String.lt_irrefl _ (String.lt_trans hless (hfirst q hq))
      rw [List.mem_cons, and_iff_left_of_imp hnew]
    · have hnew : q ∈ rest → q.1 ≠ name := heq ▸ hlater
      have hold : ¬ (q = p ∧ q.1 ≠ name) := by
        rintro ⟨rfl, hne⟩
        exact hne heq.symm
      rw [List.mem_cons, List.mem_cons, or_and_right, and_iff_left_of_imp hnew,
        or_iff_right hold]
    · have hkept : q = p → q.1 ≠ name := by
        rintro rfl
        exact fun h => heq h.symm
      rw [List.mem_cons, ih hrest, List.mem_cons, or_and_right, and_iff_left_of_imp hkept]
      exact or_left_comm

/-- A member stays when no later one has its name. -/
theorem mem_sortedByName_iff {l : List (String × α)} {p : String × α} :
    p ∈ sortedByName l ↔ ∃ earlier later, l = earlier ++ p :: later ∧ ∀ q ∈ later, q.1 ≠ p.1 := by
  induction l using List.reverseRecOn with
  | nil => simp [sortedByName]
  | append_singleton l r ih =>
    rw [sortedByName_concat, mem_insertSorted_iff (pairwise_sortedByName l), ih]
    constructor
    · rintro (rfl | ⟨⟨earlier, later, rfl, hlater⟩, hne⟩)
      · exact ⟨l, [], rfl, by simp⟩
      · refine ⟨earlier, later ++ [r], by simp, fun q hq => ?_⟩
        rcases List.mem_append.mp hq with hq | hq
        · exact hlater q hq
        · rw [List.mem_singleton.mp hq]
          exact hne.symm
    · rintro ⟨earlier, later, heq, hlater⟩
      rcases List.eq_nil_or_concat later with rfl | ⟨later, r', rfl⟩
      · exact .inl (List.concat_inj.mp (by simpa using heq)).2.symm
      · obtain ⟨hl, rfl⟩ : l = earlier ++ p :: later ∧ r = r' := by
          rw [List.concat_eq_append, ← List.cons_append, ← List.append_assoc] at heq
          simpa using List.append_inj' heq rfl
        refine .inr ⟨⟨earlier, later, hl, fun q hq => hlater q (by simp [hq])⟩, ?_⟩
        exact (hlater r (by simp)).symm

theorem mem_of_mem_sortedByName {l : List (String × α)} {p : String × α} (h : p ∈ sortedByName l) :
    p ∈ l := by
  obtain ⟨earlier, later, rfl, -⟩ := mem_sortedByName_iff.mp h
  simp

/-- Members under distinct names all stay. -/
theorem sortedByName_perm {l : List (String × α)} (h : (l.map Prod.fst).Nodup) :
    (sortedByName l).Perm l := by
  rw [List.perm_ext_iff_of_nodup (nodup_sortedByName l).of_map h.of_map]
  intro p
  refine ⟨mem_of_mem_sortedByName, fun hp => mem_sortedByName_iff.mpr ?_⟩
  obtain ⟨earlier, later, rfl⟩ := List.append_of_mem hp
  refine ⟨earlier, later, rfl, fun q hq heq => ?_⟩
  rw [List.map_append, List.map_cons] at h
  have hfirst := (List.nodup_cons.mp h.of_append_right).1
  exact hfirst (heq ▸ List.mem_map_of_mem hq)

end Sorting

mutual

/-- What a document is when it is written: the members of its objects sorted by
name, of those with one name the last, and its numbers as they are written. -/
def Value.canonical : Value → Value
  | .null => .null
  | .bool b => .bool b
  | .number n => .number n.canonical
  | .string s => .string s
  | .array items => .array (canonicalItems items)
  | .object members => .object (sortedByName (canonicalMembers members))

def canonicalItems : List Value → List Value
  | [] => []
  | v :: rest => v.canonical :: canonicalItems rest

def canonicalMembers : List (String × Value) → List (String × Value)
  | [] => []
  | (name, v) :: rest => (name, v.canonical) :: canonicalMembers rest

end

section Written

theorem writeItems_eq_map (items : List Value) : writeItems items = items.map Value.write := by
  induction items with
  | nil => rfl
  | cons v rest ih => rw [writeItems, ih, List.map_cons]

theorem writeMembers_eq_map (members : List (String × Value)) :
    writeMembers members = members.map fun p => (p.1, p.2.write) := by
  induction members with
  | nil => rfl
  | cons p rest ih => rw [writeMembers, ih, List.map_cons]

theorem canonicalItems_eq_map (items : List Value) :
    canonicalItems items = items.map Value.canonical := by
  induction items with
  | nil => rfl
  | cons v rest ih => rw [canonicalItems, ih, List.map_cons]

theorem canonicalMembers_eq_map (members : List (String × Value)) :
    canonicalMembers members = members.map fun p => (p.1, p.2.canonical) := by
  induction members with
  | nil => rfl
  | cons p rest ih => rw [canonicalMembers, ih, List.map_cons]

def itemsText : Bool → List String → List Char
  | _, [] => [']']
  | first, text :: rest => comma first ++ text.toList ++ itemsText false rest

theorem itemsText_later (texts : List String) :
    itemsText false texts = texts.flatMap (fun text => ',' :: text.toList) ++ [']'] := by
  induction texts with
  | nil => rfl
  | cons text rest ih => simp [itemsText, comma, ih]

theorem toList_writeList (texts : List String) :
    (writeList texts).toList = '[' :: itemsText true texts := by
  unfold writeList
  rw [String.toList_append, String.toList_append, String.toList_intercalate]
  cases texts with
  | nil => rfl
  | cons text rest =>
    change '[' :: ([','].intercalate (text.toList :: rest.map String.toList) ++ [']']) = _
    rw [intercalate_comma, itemsText, itemsText_later, comma, if_pos rfl, List.nil_append,
      List.append_assoc, List.flatMap_map]

theorem endsValue_itemsText (texts : List String) (rest : List Char) :
    EndsValue (itemsText false texts ++ rest) := by
  cases texts <;> simp [EndsValue, itemsText, comma]

theorem endsValue_membersText (members : List (String × String)) (rest : List Char) :
    EndsValue (membersText false members ++ rest) := by
  cases members <;> simp [EndsValue, membersText, comma]

end Written

section Rereading

/-- The text of a document is read as its canonical form. -/
def Rereads (depth : Nat) (v : Value) : Prop :=
  ∀ rest, EndsValue rest → Reads depth (v.write.toList ++ rest) v.canonical rest

variable {depth : Nat}

theorem nextItem_end (first : Bool) (rest : List Char) :
    nextItem first (']' :: rest) = .ok none := by
  have hbracket : isSeparator ']' = false := by decide
  simp only [nextItem, skipBlanks_cons hbracket]

theorem dropClosing_bracket (rest : List Char) : dropClosing (']' :: rest) = rest := by
  have hbracket : isSeparator ']' = false := by decide
  simp [dropClosing, skipBlanks_cons hbracket]

/-- A value begins with a character, and not with the bracket that ends a list. -/
theorem Reads.exists_first {rest rest' : List Char} {v : Value} (h : Reads depth rest v rest') :
    ∃ c tail, skipBlanks rest = c :: tail ∧ c ≠ ']' := by
  cases h with
  | digit hfirst hdigit hnumber =>
    refine ⟨_, _, hfirst, ?_⟩
    rintro rfl
    exact absurd hdigit (by decide)
  | _ hfirst => exact ⟨_, _, hfirst, by decide⟩

theorem nextItem_value (first : Bool) {rest rest' : List Char} {v : Value}
    (h : Reads depth rest v rest') :
    nextItem first (comma first ++ rest) = .ok (some (skipBlanks rest)) := by
  obtain ⟨c, tail, hfirst, hc⟩ := h.exists_first
  have hcomma : isSeparator ',' = false := by decide
  cases first with
  | true => simp [nextItem, comma, hfirst]
  | false => simp [nextItem, comma, skipBlanks_cons hcomma, hfirst, hc]

theorem readsItems_itemsText (first : Bool) {items : List Value}
    (hitems : ∀ v ∈ items, Rereads depth v) (rest : List Char) :
    ReadsItems depth first (itemsText first (items.map Value.write) ++ rest)
      (items.map Value.canonical) rest := by
  induction items generalizing first with
  | nil =>
    have hend : ReadsItems depth first (']' :: rest) [] (dropClosing (']' :: rest)) :=
      .nil (nextItem_end first rest)
    rwa [dropClosing_bracket] at hend
  | cons v items ih =>
    have hvalue := hitems v List.mem_cons_self _ (endsValue_itemsText (items.map Value.write) rest)
    have hnext := nextItem_value first hvalue
    have hrest := ih false fun w hw => hitems w (List.mem_cons_of_mem v hw)
    rw [List.map_cons, List.map_cons, itemsText, List.append_assoc, List.append_assoc]
    exact .cons hnext hvalue.of_skipBlanks hrest

theorem readsMembers_membersText (first : Bool) {members : List (String × Value)}
    (hmembers : ∀ p ∈ members, Rereads depth p.2) (rest : List Char) :
    ReadsMembers depth first
      (membersText first (members.map fun p => (p.1, p.2.write)) ++ rest)
      (members.map fun p => (p.1, p.2.canonical)) rest := by
  induction members generalizing first with
  | nil =>
    have hend : ReadsMembers depth first ('\x7d' :: rest) [] (dropClosing ('\x7d' :: rest)) :=
      .nil (nextKey_end first rest)
    rwa [dropClosing_brace] at hend
  | cons p members ih =>
    have hvalue := hmembers p List.mem_cons_self _
      (endsValue_membersText (members.map fun p => (p.1, p.2.write)) rest)
    have hrest := ih false fun q hq => hmembers q (List.mem_cons_of_mem p hq)
    rw [List.map_cons, List.map_cons, membersText, List.append_assoc]
    exact .cons (nextKey_member first (p.1, p.2.write) _) (readString_escaped p.1 _)
      (readColon_colon _) hvalue hrest

theorem rereads_number {n : Literal} {x : Number} (h : n.number? = some x) :
    Rereads depth (.number n) := by
  intro rest hrest
  obtain ⟨htext, hwell, ⟨y, hy⟩, hexponent⟩ := Literal.canonical_spec h
  have hread := readNumber_unsignedText hwell hy hexponent hrest
  change Reads depth (n.write.toList ++ rest) (.number n.canonical) rest
  rw [← htext]
  unfold Literal.text
  -- The reader looks at the first character, a minus sign or a digit.
  obtain ⟨c, tail, hwhole, hc⟩ := hwell.whole.exists_cons
  split_ifs with hnegative
  · rw [hnegative] at hread
    exact .minus (skipBlanks_cons (by decide) _) hread
  · rw [Bool.not_eq_true _ |>.mp hnegative] at hread
    have hcons : n.canonical.unsignedText ++ rest =
        c :: (tail ++ (Literal.fractionText n.canonical.fraction ++
          Literal.exponentText n.canonical.exponent) ++ rest) := by
      unfold Literal.unsignedText
      rw [hwhole]
      simp
    rw [hcons] at hread ⊢
    exact .digit (skipBlanks_cons (isSeparator_of_isDigit hc) _) hc hread

theorem rereads_array {items : List Value} (hdepth : 1 < depth)
    (hitems : ∀ v ∈ items, Rereads (depth - 1) v) : Rereads depth (.array items) := by
  intro rest _
  change Reads depth ((writeList (writeItems items)).toList ++ rest)
    (.array (canonicalItems items)) rest
  rw [toList_writeList, writeItems_eq_map, canonicalItems_eq_map]
  exact .array (skipBlanks_cons (by decide) _) hdepth (readsItems_itemsText true hitems rest)

theorem rereads_object {members : List (String × Value)} (hdepth : 1 < depth)
    (hmembers : ∀ p ∈ members, Rereads (depth - 1) p.2) : Rereads depth (.object members) := by
  intro rest _
  change Reads depth ((writePairs (sortedByName (writeMembers members))).toList ++ rest)
    (.object (sortedByName (canonicalMembers members))) rest
  rw [toList_writePairs, writeMembers_eq_map, canonicalMembers_eq_map, ← map_sortedByName,
    ← map_sortedByName]
  exact .object (skipBlanks_cons (by decide) _) hdepth
    (readsMembers_membersText true (fun p hp => hmembers p (mem_of_mem_sortedByName hp)) rest)

mutual

/-- A document that was read is written as a text that is read again, at the
depth at which it was read. -/
theorem Reads.rereads {depth : Nat} {rest rest' : List Char} {v : Value} :
    Reads depth rest v rest' → Rereads depth v
  | .nullWord _ _ => fun _ _ => .nullWord (skipBlanks_cons (by decide) _) rfl
  | .trueWord _ _ => fun _ _ => .trueWord (skipBlanks_cons (by decide) _) rfl
  | .falseWord _ _ => fun _ _ => .falseWord (skipBlanks_cons (by decide) _) rfl
  | .minus _ hnumber => rereads_number (readNumber_eq_ok hnumber).2
  | .digit _ _ hnumber => rereads_number (readNumber_eq_ok hnumber).2
  | .string (s := s) _ _ => fun rest _ => by
    have hread := readString_escaped s rest
    change Reads depth ((writeString s).toList ++ rest) (.string s) rest
    rw [toList_writeString]
    exact .string (skipBlanks_cons (by decide) _) hread
  | .array _ hdepth hitems => rereads_array hdepth hitems.rereads
  | .object _ hdepth hmembers => rereads_object hdepth hmembers.rereads

theorem ReadsItems.rereads {depth : Nat} {first : Bool} {rest rest' : List Char}
    {items : List Value} : ReadsItems depth first rest items rest' → ∀ v ∈ items, Rereads depth v
  | .nil _ => by simp
  | .cons _ hvalue hitems => List.forall_mem_cons.mpr ⟨hvalue.rereads, hitems.rereads⟩

theorem ReadsMembers.rereads {depth : Nat} {first : Bool} {rest rest' : List Char}
    {members : List (String × Value)} :
    ReadsMembers depth first rest members rest' → ∀ p ∈ members, Rereads depth p.2
  | .nil _ => by simp
  | .cons _ _ _ hvalue hmembers => List.forall_mem_cons.mpr ⟨hvalue.rereads, hmembers.rereads⟩

end

/-- A document that can be read is written as a text that is read as its
canonical form. -/
theorem parse_write {text : String} {v : Value} (h : parse text = .ok v) :
    parse v.write = .ok v.canonical := by
  obtain ⟨rest, hreads, -⟩ := reads_of_parse h
  have hagain := hreads.rereads [] endsValue_nil
  rw [List.append_nil] at hagain
  exact runReader_eq_ok (readDocument_eq_ok_iff.mpr hagain)

end Rereading

end HearingRelay.Json
