import HearingRelay.Proofs.Ledger.LifeCycle

/-!
The time of the last try. A row in progress has one, and no call takes it away
again. The calls that record an outcome keep the later of the time that stands
and the clock reading; the two that take a row write the reading as it is. So
the time goes back when a row is taken at a reading before its last try, and
only then: with a clock that never goes back it advances.
-/

namespace HearingRelay

/-- The last try of a row is known later, and lies no earlier. -/
def Row.Advances (r q : Row) : Prop :=
  ∀ t, r.lastTried = some t → ∃ t', q.lastTried = some t' ∧ t ≤ t'

namespace Row.Advances

theorem of_eq {r q : Row} (h : q.lastTried = r.lastTried) : r.Advances q := by
  intro t ht
  exact ⟨t, h.trans ht, Int.le_refl t⟩

theorem trans {r q p : Row} (h : r.Advances q) (h' : q.Advances p) : r.Advances p := by
  intro t ht
  obtain ⟨t', ht', hle⟩ := h t ht
  obtain ⟨t'', ht'', hle'⟩ := h' t' ht'
  exact ⟨t'', ht'', Int.le_trans hle hle'⟩

end Row.Advances

namespace Ledger

/-- What a call makes of the last try: it stays, the outcome of an attempt is
recorded and the later time counts, or the row is taken and the reading counts. -/
theorem Passage.lastTried {l : Ledger} {now : Int} {c : StoreCall} {r q : Row}
    (h : Passage l now c r q) :
    (q.lastTried = r.lastTried ∧ (q.is .processing = true → r.is .processing = true)) ∨
      (r.is .processing = true ∧ q.is .processing = false ∧
        q.lastTried = some (max (r.lastTried.getD 0) now)) ∨
      (r.is .pending = true ∧ q.is .processing = true ∧ q.lastTried = some now) := by
  cases h with
  | stays => exact Or.inl ⟨rfl, id⟩
  | flagged => exact Or.inl ⟨rfl, by simp⟩
  | requeued => exact Or.inl ⟨rfl, by simp⟩
  | reclaimed => exact Or.inl ⟨rfl, by simp⟩
  | completed deployment r hp => exact Or.inr (Or.inl ⟨hp, by simp, rfl⟩)
  | givenUp deployment r hp => exact Or.inr (Or.inl ⟨hp, by simp, rfl⟩)
  | retried deployment r hp => exact Or.inr (Or.inl ⟨hp, by simp, rfl⟩)
  | taken deployment r hp => exact Or.inr (Or.inr ⟨hp, by simp, rfl⟩)
  | claimed wait deployment r h =>
    have hp := (pending_of_isEligible (mem_of_oldestEligible? h).2).1
    exact Or.inr (Or.inr ⟨hp, by simp, rfl⟩)

/-- A row loses its last try, or gets an earlier one, exactly when it is taken
at a reading before the one that it had. -/
theorem Passage.not_advances_iff {l : Ledger} {now : Int} {c : StoreCall} {r q : Row}
    (h : Passage l now c r q) :
    ¬ r.Advances q ↔ r.is .pending = true ∧ q.is .processing = true ∧
      ∃ t, r.lastTried = some t ∧ now < t ∧ q.lastTried = some now := by
  constructor
  · intro hback
    rcases h.lastTried with ⟨hsame, _⟩ | ⟨_, _, hlater⟩ | ⟨hpending, hprocessing, hnow⟩
    · exact absurd (.of_eq hsame) hback
    · refine absurd (fun t ht => ?_) hback
      rw [ht] at hlater
      exact ⟨max t now, hlater, Int.le_max_left t now⟩
    · refine ⟨hpending, hprocessing, ?_⟩
      by_contra hnone
      apply hback
      intro t ht
      refine ⟨now, hnow, ?_⟩
      by_contra hlt
      exact hnone ⟨t, ht, Int.not_le.mp hlt, hnow⟩
  · rintro ⟨_, _, t, ht, hlt, hnow⟩ hadvances
    obtain ⟨t', ht', hle⟩ := hadvances t ht
    have hsame : now = t' := Option.some.inj (hnow.symm.trans ht')
    omega

def Tried (l : Ledger) : Prop :=
  ∀ r ∈ l.rows, r.is .processing = true → r.lastTried.isSome = true

theorem empty_tried : empty.Tried := by simp [Tried, empty]

theorem step_tried {l : Ledger} (h : l.IdsIncrease) (htried : l.Tried) (now : Int)
    (c : StoreCall) : (l.step now c).1.Tried := by
  intro q hq hprocessing
  rcases (mem_step_rows h).mp hq with ⟨r, hr, hpass⟩ | hnew
  · rcases (passage_of_rowAfter hpass).lastTried with
      ⟨hsame, hbefore⟩ | ⟨_, hrests, _⟩ | ⟨_, _, hnow⟩
    · rw [hsame]
      exact htried r hr (hbefore hprocessing)
    · rw [hprocessing] at hrests
      cases hrests
    · simp [hnow]
  · exact absurd (Row.status_unique hprocessing (added_spec hnew).2.1) (by decide)

theorem after_tried {l : Ledger} (h : l.WellFormed) (htried : l.Tried)
    (history : List (Int × StoreCall)) : (l.after history).Tried := by
  induction history generalizing l with
  | nil => exact htried
  | cons call rest ih =>
    exact ih (step_wellFormed h call.1 call.2) (step_tried h.ids_increase htried call.1 call.2)

def TriedBy (l : Ledger) (bound : Int) : Prop :=
  ∀ r ∈ l.rows, ∀ t, r.lastTried = some t → t ≤ bound

theorem step_triedBy {l : Ledger} (h : l.IdsIncrease) (htried : l.Tried) {bound now : Int}
    (hby : l.TriedBy bound) (hle : now ≤ bound) (c : StoreCall) :
    (l.step now c).1.TriedBy bound := by
  intro q hq t ht
  rcases (mem_step_rows h).mp hq with ⟨r, hr, hpass⟩ | hnew
  · rcases (passage_of_rowAfter hpass).lastTried with
      ⟨hsame, _⟩ | ⟨hprocessing, _, hlater⟩ | ⟨_, _, hnow⟩
    · exact hby r hr t (hsame.symm.trans ht)
    · -- A row in progress has a time to compare with, so the reading is no lower bound.
      obtain ⟨t₀, ht₀⟩ := Option.isSome_iff_exists.mp (htried r hr hprocessing)
      have hbound := hby r hr t₀ ht₀
      have hmax : t = max t₀ now := by
        rw [ht₀] at hlater
        exact Option.some.inj (ht.symm.trans hlater)
      omega
    · have hsame : t = now := Option.some.inj (ht.symm.trans hnow)
      omega
  · obtain ⟨hearing, eventType, message, deployment, _, rfl⟩ := exists_newRow_of_added hnew
    cases ht

theorem after_triedBy {l : Ledger} (h : l.WellFormed) (htried : l.Tried) {bound : Int}
    (hby : l.TriedBy bound) {history : List (Int × StoreCall)}
    (hle : ∀ call ∈ history, call.1 ≤ bound) : (l.after history).TriedBy bound := by
  induction history generalizing l with
  | nil => exact hby
  | cons call rest ih =>
    obtain ⟨hfirst, hrest⟩ := List.forall_mem_cons.mp hle
    exact ih (step_wellFormed h call.1 call.2) (step_tried h.ids_increase htried call.1 call.2)
      (step_triedBy h.ids_increase htried hby hfirst call.2) hrest

/-- At readings that do not go back a last try never does. -/
theorem advances_after {l : Ledger} (h : l.WellFormed) (htried : l.Tried)
    {later : List (Int × StoreCall)} (hby : ∀ call ∈ later, l.TriedBy call.1)
    (hclock : (later.map (·.1)).Pairwise (· ≤ ·)) {r q : Row} (hr : r ∈ l.rows)
    (hq : (l.after later).row? r.id = some q) : r.Advances q := by
  induction later generalizing l r with
  | nil =>
    have hsame : r = q := Option.some.inj ((row?_of_mem h.ids_increase hr).symm.trans hq)
    exact .of_eq (congrArg Row.lastTried hsame.symm)
  | cons call rest ih =>
    obtain ⟨hfirst, hrest⟩ := List.forall_mem_cons.mp hby
    obtain ⟨hle, hclock⟩ := List.pairwise_cons.mp hclock
    have hwf := step_wellFormed h call.1 call.2
    have htried' := step_tried h.ids_increase htried call.1 call.2
    have hrow := row?_step h call.1 call.2 hr
    change ((l.step call.1 call.2).1.after rest).row? r.id = some q at hq
    cases hpass : l.rowAfter call.1 call.2 r with
    | none =>
      have hid : r.id ≤ (l.step call.1 call.2).1.lastId := by
        have hid := h.id_le r hr
        rw [step_lastId]
        omega
      rw [row?_after_eq_none hwf hid (hrow.trans hpass) rest] at hq
      cases hq
    | some p =>
      have hpassage := passage_of_rowAfter hpass
      have hstep : r.Advances p := by
        by_contra hback
        obtain ⟨_, _, t, ht, hlt, _⟩ := hpassage.not_advances_iff.mp hback
        have hbound := hfirst r hr t ht
        omega
      have hlater : ∀ next ∈ rest, (l.step call.1 call.2).1.TriedBy next.1 := by
        intro next hnext
        have hreading : call.1 ≤ next.1 := hle next.1 (List.mem_map_of_mem hnext)
        exact step_triedBy h.ids_increase htried (hrest next hnext) hreading call.2
      rw [← hpassage.sameEvent.id] at hq
      have hp := mem_step_of_rowAfter h.ids_increase hr hpass
      exact hstep.trans (ih hwf htried' hlater hclock hp hq)

/-- How a last try goes back. In every ledger that calls lead to, whatever their
clock readings, a call loses the last try of a row or sets it back exactly when
it takes the row at a reading before that try, which the row has from then on.
So over any number of calls at readings that do not go back it never does. -/
theorem last_try_set_back_iff (history : List (Int × StoreCall)) :
    (∀ now c, ∀ r ∈ (empty.after history).rows, ∀ q,
      ((empty.after history).step now c).1.row? r.id = some q →
        (¬ r.Advances q ↔ r.is .pending = true ∧ q.is .processing = true ∧
          ∃ t, r.lastTried = some t ∧ now < t ∧ q.lastTried = some now)) ∧
      ∀ later, ((history ++ later).map (·.1)).Pairwise (· ≤ ·) →
        ∀ r ∈ (empty.after history).rows, ∀ q,
          (empty.after (history ++ later)).row? r.id = some q → r.Advances q := by
  have hwf : (empty.after history).WellFormed := after_wellFormed empty_wellFormed history
  have htried : (empty.after history).Tried := after_tried empty_wellFormed empty_tried history
  constructor
  · intro now c r hr q hq
    rw [row?_step hwf now c hr] at hq
    exact (passage_of_rowAfter hq).not_advances_iff
  · intro later hclock r hr q hq
    rw [after_append] at hq
    rw [List.map_append] at hclock
    obtain ⟨_, hlater, hbetween⟩ := List.pairwise_append.mp hclock
    refine advances_after hwf htried (fun next hnext => ?_) hlater hr hq
    apply after_triedBy empty_wellFormed empty_tried
    · simp [TriedBy, empty]
    · intro call hcall
      exact hbetween call.1 (List.mem_map_of_mem hcall) next.1 (List.mem_map_of_mem hnext)

/-- A row that is tried at a reading of 100 and waits again. -/
def triedHistory : List (Int × StoreCall) :=
  [(0, .create 1 .request "\x7b\x7d" "local"), (100, .markProcessing 1 "local"),
    (100, .markPendingWithRetry 1 "local")]

/-- A clock that steps back sets last tries back: the row is taken once more at a reading of 50. -/
theorem last_try_set_back :
    ¬ ∀ (history : List (Int × StoreCall)) (now : Int) (c : StoreCall),
      ∀ r ∈ (empty.after history).rows, ∀ q,
        ((empty.after history).step now c).1.row? r.id = some q → r.Advances q := by
  intro h
  have hrows : (empty.after triedHistory).rows.map (fun r => (r.id, r.lastTried)) =
      [(1, some 100)] := by decide +kernel
  obtain ⟨r, hr, hshown⟩ := List.mem_map.mp (hrows ▸ List.mem_singleton_self (1, some 100))
  obtain ⟨hid, htried⟩ := Prod.mk.inj hshown
  have hafter : (((empty.after triedHistory).step 50 (.markProcessing 1 "local")).1.row? 1).map
      (·.lastTried) = some (some 50) := by decide +kernel
  obtain ⟨q, hq, hback⟩ := Option.map_eq_some_iff.mp hafter
  obtain ⟨t, ht, hle⟩ := h triedHistory 50 (.markProcessing 1 "local") r hr q (hid ▸ hq) 100 htried
  have hsame : t = 50 := Option.some.inj (ht.symm.trans hback)
  omega

end Ledger

end HearingRelay
