import HearingRelay.Proofs.Ledger.RowStep

/-!
Ledgers that histories of calls lead to. Identifiers grow along the rows and
none lies past the last one given out, and a hearing has one row in progress
at most. Every call keeps this at every clock reading.
-/

namespace HearingRelay.Ledger

structure WellFormed (l : Ledger) : Prop where
  ids_increase : l.IdsIncrease
  id_le : ∀ r ∈ l.rows, r.id ≤ l.lastId
  one_in_progress : ∀ r ∈ l.rows, ∀ q ∈ l.rows, r.hearing = q.hearing →
    r.is .processing = true → q.is .processing = true → r = q

theorem empty_wellFormed : empty.WellFormed where
  ids_increase := .nil
  id_le := by simp [empty]
  one_in_progress := by simp [empty]

/-- No row has an identifier past the last one. -/
theorem row?_of_lastId_lt {l : Ledger} (h : l.WellFormed) {id : Int} (hid : l.lastId < id) :
    l.row? id = none := by
  refine List.find?_eq_none.mpr fun r hr => ?_
  have hle := h.id_le r hr
  simp only [beq_iff_eq]
  omega

def Takes (l : Ledger) (now : Int) (r : Row) : StoreCall → Prop
  | .claim wait _ => l.oldestEligible? now wait = some r
  | .markProcessing id _ => r.id = id
  | _ => False

theorem takes_unique {l : Ledger} (h : l.IdsIncrease) {now : Int} {c : StoreCall} {r q : Row}
    (hr : r ∈ l.rows) (hq : q ∈ l.rows) (hrc : l.Takes now r c) (hqc : l.Takes now q c) :
    r = q := by
  cases c with
  | claim wait deployment => exact Option.some.inj (hrc.symm.trans hqc)
  | markProcessing id deployment => exact eq_of_id_eq h hr hq (hrc.trans hqc.symm)
  | _ => exact hrc.elim

/-- A row comes into progress only when it is taken, with nothing in its way. -/
theorem Passage.processing {l : Ledger} {now : Int} {c : StoreCall} {r q : Row}
    (h : Passage l now c r q) (hq : q.is .processing = true) :
    r.is .processing = true ∨ (l.isBlocked r = false ∧ l.Takes now r c) := by
  cases h with
  | stays => exact Or.inl hq
  | claimed wait deployment r h =>
    exact Or.inr ⟨(pending_of_isEligible (mem_of_oldestEligible? h).2).2, h⟩
  | taken deployment r hp hb => exact Or.inr ⟨hb, rfl⟩
  | completed => simp at hq
  | givenUp => simp at hq
  | retried => simp at hq
  | requeued => simp at hq
  | flagged => exact Or.inl (by simpa using hq)
  | reclaimed => simp at hq

/-- A row in progress stands in the way of the rows of its hearing. -/
theorem isBlocked_of_processing {l : Ledger} {r q : Row} (hq : q ∈ l.rows)
    (hhearing : q.hearing = r.hearing) (hp : q.is .processing = true) : l.isBlocked r = true := by
  unfold isBlocked
  exact List.any_eq_true.mpr ⟨q, hq, by simp [hhearing, hp]⟩

/-- The next row has an identifier of its own. -/
theorem added_spec {l : Ledger} {now : Int} {c : StoreCall} {q : Row} (h : q ∈ l.added now c) :
    q.id = l.lastId + 1 ∧ q.is .pending = true ∧ l.added now c = [q] := by
  cases c with
  | create hearing eventType message deployment =>
    simp only [added] at h ⊢
    by_cases hfull : Bounds.maxInt64 ≤ l.lastId
    · simp [hfull] at h
    · simp only [hfull, if_false] at h ⊢
      obtain rfl := List.mem_singleton.mp h
      exact ⟨rfl, by simp [Row.is, newRow], rfl⟩
  | _ => cases h

theorem step_ids_increase {l : Ledger} (h : l.WellFormed) (now : Int) (c : StoreCall) :
    (l.step now c).1.IdsIncrease := by
  unfold IdsIncrease
  rw [step_rows h.ids_increase, List.pairwise_append, List.pairwise_filterMap]
  refine ⟨?_, ?_, ?_⟩
  · refine h.ids_increase.imp fun {r q} hlt r' hr' q' hq' => ?_
    have hr : r'.id = r.id := (passage_of_rowAfter hr').sameEvent.id
    have hq : q'.id = q.id := (passage_of_rowAfter hq').sameEvent.id
    omega
  · cases hadded : l.added now c with
    | nil => exact .nil
    | cons q rest =>
      have hone := (added_spec (hadded ▸ List.mem_cons_self : q ∈ l.added now c)).2.2
      rw [← hadded, hone]
      exact List.pairwise_singleton _ _
  · intro r' hr' q hq
    obtain ⟨r, hr, hpass⟩ := List.mem_filterMap.mp hr'
    have hid : r'.id = r.id := (passage_of_rowAfter hpass).sameEvent.id
    have hle := h.id_le r hr
    have hnew := (added_spec hq).1
    omega

theorem step_id_le {l : Ledger} (h : l.WellFormed) (now : Int) (c : StoreCall) :
    ∀ q ∈ (l.step now c).1.rows, q.id ≤ (l.step now c).1.lastId := by
  intro q hq
  rw [step_lastId]
  rcases (mem_step_rows h.ids_increase).mp hq with ⟨r, hr, hpass⟩ | hnew
  · have hid : q.id = r.id := (passage_of_rowAfter hpass).sameEvent.id
    have hle := h.id_le r hr
    omega
  · obtain ⟨hid, _, hone⟩ := added_spec hnew
    simp [hid, hone]

theorem step_one_in_progress {l : Ledger} (h : l.WellFormed) (now : Int) (c : StoreCall) :
    ∀ r' ∈ (l.step now c).1.rows, ∀ q' ∈ (l.step now c).1.rows, r'.hearing = q'.hearing →
      r'.is .processing = true → q'.is .processing = true → r' = q' := by
  intro r' hr' q' hq' hhearing hrp hqp
  have hpassed : ∀ a ∈ (l.step now c).1.rows, a.is .processing = true →
      ∃ b ∈ l.rows, l.rowAfter now c b = some a := by
    intro a ha hap
    rcases (mem_step_rows h.ids_increase).mp ha with hold | hnew
    · exact hold
    · have hpending := (added_spec hnew).2.1
      exact absurd (Row.status_unique hap hpending) (by decide)
  obtain ⟨r, hr, hrpass⟩ := hpassed r' hr' hrp
  obtain ⟨q, hq, hqpass⟩ := hpassed q' hq' hqp
  have hrr := (passage_of_rowAfter hrpass).sameEvent.hearing
  have hqq := (passage_of_rowAfter hqpass).sameEvent.hearing
  have hsame : r.hearing = q.hearing := by rw [← hrr, ← hqq, hhearing]
  suffices r = q by
    subst this
    exact Option.some.inj (hrpass.symm.trans hqpass)
  -- A row in progress before would block the row taken now.
  rcases (passage_of_rowAfter hrpass).processing hrp with hrp | ⟨hrfree, hrtakes⟩
  · rcases (passage_of_rowAfter hqpass).processing hqp with hqp | ⟨hqfree, _⟩
    · exact h.one_in_progress r hr q hq hsame hrp hqp
    · rw [isBlocked_of_processing hr hsame hrp] at hqfree
      cases hqfree
  · rcases (passage_of_rowAfter hqpass).processing hqp with hqp | ⟨_, hqtakes⟩
    · rw [isBlocked_of_processing hq hsame.symm hqp] at hrfree
      cases hrfree
    · exact takes_unique h.ids_increase hr hq hrtakes hqtakes

theorem step_wellFormed {l : Ledger} (h : l.WellFormed) (now : Int) (c : StoreCall) :
    (l.step now c).1.WellFormed :=
  ⟨step_ids_increase h now c, step_id_le h now c, step_one_in_progress h now c⟩

/-- Every history of calls keeps a ledger well formed, whatever its clock readings. -/
theorem after_wellFormed {l : Ledger} (h : l.WellFormed) (history : List (Int × StoreCall)) :
    (l.after history).WellFormed := by
  induction history generalizing l with
  | nil => exact h
  | cons call rest ih => exact ih (step_wellFormed h call.1 call.2)

/-- No row stands in a hearing twice. -/
theorem rowsOf_nodup {l : Ledger} (h : l.IdsIncrease) (hearing : Int) :
    (l.rowsOf hearing).Nodup :=
  (h.imp fun {r q} hlt he => by rw [he] at hlt; omega).filter _

theorem countP_processing_le_one {l : Ledger} (h : l.WellFormed) (hearing : Int) :
    (l.rowsOf hearing).countP (·.is .processing) ≤ 1 := by
  have hnodup := (rowsOf_nodup h.ids_increase hearing).filter (·.is .processing)
  have hequal : ∀ r ∈ (l.rowsOf hearing).filter (·.is .processing),
      ∀ q ∈ (l.rowsOf hearing).filter (·.is .processing), r = q := by
    intro r hr q hq
    simp only [rowsOf, List.mem_filter, beq_iff_eq] at hr hq
    exact h.one_in_progress r hr.1.1 q hq.1.1 (hr.1.2.trans hq.1.2.symm) hr.2 hq.2
  rw [List.countP_eq_length_filter]
  cases hrows : (l.rowsOf hearing).filter (·.is .processing) with
  | nil => simp
  | cons r rest =>
    rw [hrows] at hnodup hequal
    cases rest with
    | nil => simp
    | cons q rest =>
      have hrq : r = q := hequal r (by simp) q (by simp)
      exact absurd (hrq ▸ List.mem_cons_self) (List.nodup_cons.mp hnodup).1

/-- Whatever calls are made at whatever clock readings, no hearing has two rows
in progress, and the rules on hearings alone see to it: with no index behind
them the same history leads to the same ledger, where every further call has
the same effect and the same answer. -/
theorem one_in_progress_without_index (history : List (Int × StoreCall)) :
    (∀ hearing, ((empty.afterUnindexed history).rowsOf hearing).countP (·.is .processing) ≤ 1) ∧
      empty.after history = empty.afterUnindexed history ∧
      ∀ now c, (empty.after history).step now c = (empty.after history).stepUnindexed now c := by
  have hsame := after_eq_afterUnindexed empty history
  refine ⟨fun hearing => ?_, hsame, fun now c => step_eq_stepUnindexed _ now c⟩
  rw [← hsame]
  exact countP_processing_le_one (after_wellFormed empty_wellFormed history) hearing

end HearingRelay.Ledger
