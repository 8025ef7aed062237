import HearingRelay.Proofs.Ledger.WellFormed
import Mathlib.Data.List.Pairwise

/-!
The order in which the rows of a hearing are taken. Versions grow with the
identifiers, so a row is taken only when every older row of its hearing is
completed or an exception. Unless an exception of the hearing is made pending
again, such rows never come back, and no later row gets a smaller identifier:
what was taken last bounds all that will be taken.
-/

namespace HearingRelay

/-- A settled row waits for no attempt and has none under way. -/
def Row.Settled (r : Row) : Prop := r.is .completed = true ∨ r.is .exception = true

namespace Row.Settled

variable {r : Row}

theorem not_pending (h : r.Settled) : r.is .pending = false := by
  rcases h with hc | he
  · exact Row.is_eq_false hc (by decide)
  · exact Row.is_eq_false he (by decide)

theorem not_processing (h : r.Settled) : r.is .processing = false := by
  rcases h with hc | he
  · exact Row.is_eq_false hc (by decide)
  · exact Row.is_eq_false he (by decide)

theorem of_status {s : Status} (hs : r.is s = true) (hpending : r.is .pending = false)
    (hprocessing : r.is .processing = false) : r.Settled := by
  cases s with
  | pending =>
    rw [hs] at hpending
    cases hpending
  | processing =>
    rw [hs] at hprocessing
    cases hprocessing
  | completed => exact Or.inl hs
  | exception => exact Or.inr hs

end Row.Settled

namespace Ledger

structure Ordered (l : Ledger) : Prop where
  version_lt : ∀ r ∈ l.rows, ∀ q ∈ l.rows, r.hearing = q.hearing → r.id < q.id →
    r.version < q.version
  has_status : ∀ r ∈ l.rows, ∃ s : Status, r.is s = true

theorem empty_ordered : empty.Ordered := ⟨by simp [empty], by simp [empty]⟩

/-- The next version of a hearing lies above those of its rows. -/
theorem lt_nextVersion {l : Ledger} {r : Row} (hr : r ∈ l.rows) :
    r.version < l.nextVersion r.hearing := by
  have hmem : r.version ∈ (l.rowsOf r.hearing).map (·.version) :=
    List.mem_map_of_mem (by simp [rowsOf, hr])
  unfold nextVersion
  cases hversions : (l.rowsOf r.hearing).map (·.version) with
  | nil =>
    rw [hversions] at hmem
    cases hmem
  | cons v vs =>
    rw [hversions] at hmem
    have hmax : (v :: vs).max? = some (vs.foldl max v) := List.max?_cons'
    have hle := (List.max?_eq_some_iff.mp hmax).2 r.version hmem
    dsimp only
    omega

/-- The next row has the next version of its hearing. -/
theorem version_of_added {l : Ledger} {now : Int} {c : StoreCall} {q : Row}
    (h : q ∈ l.added now c) : q.version = l.nextVersion q.hearing := by
  cases c with
  | create hearing eventType message deployment =>
    simp only [added] at h
    split at h
    · cases h
    · obtain rfl := List.mem_singleton.mp h
      rfl
  | _ => cases h

theorem Passage.has_status {l : Ledger} {now : Int} {c : StoreCall} {r q : Row}
    (h : Passage l now c r q) (hr : ∃ s : Status, r.is s = true) : ∃ s : Status, q.is s = true := by
  cases h with
  | stays => exact hr
  | flagged => simpa using hr
  | claimed => exact ⟨.processing, by simp⟩
  | taken => exact ⟨.processing, by simp⟩
  | completed => exact ⟨.completed, by simp⟩
  | givenUp => exact ⟨.exception, by simp⟩
  | retried => exact ⟨.pending, by simp⟩
  | requeued => exact ⟨.pending, by simp⟩
  | reclaimed => exact ⟨.pending, by simp⟩

theorem step_ordered {l : Ledger} (hwf : l.WellFormed) (h : l.Ordered) (now : Int)
    (c : StoreCall) : (l.step now c).1.Ordered := by
  have hinc := hwf.ids_increase
  constructor
  · intro r' hr' q' hq' hhearing hlt
    rcases (mem_step_rows hinc).mp hr' with ⟨r, hr, hrpass⟩ | hrnew
    · have hsame := (passage_of_rowAfter hrpass).sameEvent
      rcases (mem_step_rows hinc).mp hq' with ⟨q, hq, hqpass⟩ | hqnew
      · have hsame' := (passage_of_rowAfter hqpass).sameEvent
        rw [hsame.version, hsame'.version]
        refine h.version_lt r hr q hq ?_ ?_
        · rw [← hsame.hearing, ← hsame'.hearing, hhearing]
        · rw [← hsame.id, ← hsame'.id]
          exact hlt
      · rw [version_of_added hqnew, ← hhearing, hsame.version, hsame.hearing]
        exact lt_nextVersion hr
    · -- No row lies behind a new one.
      have hle := step_id_le hwf now c q' hq'
      rw [step_lastId] at hle
      obtain ⟨hid, _, hone⟩ := added_spec hrnew
      rw [hone, List.length_singleton] at hle
      omega
  · intro q hq
    rcases (mem_step_rows hinc).mp hq with ⟨r, hr, hpass⟩ | hnew
    · exact (passage_of_rowAfter hpass).has_status (h.has_status r hr)
    · exact ⟨.pending, (added_spec hnew).2.1⟩

/-- Every history of calls keeps versions in the order of identifiers. -/
theorem after_ordered {l : Ledger} (hwf : l.WellFormed) (h : l.Ordered)
    (history : List (Int × StoreCall)) : (l.after history).Ordered := by
  induction history generalizing l with
  | nil => exact h
  | cons call rest ih =>
    exact ih (step_wellFormed hwf call.1 call.2) (step_ordered hwf h call.1 call.2)

/-- The rows of a hearing are read in the order in which they are stored. -/
theorem byVersion_eq_rowsOf {l : Ledger} (hwf : l.WellFormed) (h : l.Ordered) (hearing : Int) :
    l.byVersion hearing = l.rowsOf hearing := by
  have hsorted : (l.rowsOf hearing).Pairwise fun a b => a.id < b.id := hwf.ids_increase.filter _
  refine Sorting.sort_eq_self (hsorted.imp_of_mem fun {r q} hr hq hlt => ?_)
  simp only [rowsOf, List.mem_filter, beq_iff_eq] at hr hq
  have hversion := h.version_lt r hr.1 q hq.1 (hr.2.trans hq.2.symm) hlt
  exact decide_eq_true (Int.le_of_lt hversion)

/-- A hearing with a row has a newest one, and none has a larger identifier. -/
theorem exists_latest {l : Ledger} (hwf : l.WellFormed) (h : l.Ordered) {r : Row}
    (hr : r ∈ l.rows) : ∃ q, l.latest? r.hearing = some q ∧ r.id ≤ q.id := by
  have hmem : r ∈ l.rowsOf r.hearing := by simp [rowsOf, hr]
  have hsorted : (l.rowsOf r.hearing).Pairwise fun a b => a.id < b.id := hwf.ids_increase.filter _
  unfold latest?
  rw [byVersion_eq_rowsOf hwf h]
  cases hlast : (l.rowsOf r.hearing).getLast? with
  | none =>
    rw [List.getLast?_eq_none_iff.mp hlast] at hmem
    cases hmem
  | some q =>
    refine ⟨q, rfl, ?_⟩
    obtain ⟨earlier, hrows⟩ := List.getLast?_eq_some_iff.mp hlast
    rw [hrows] at hmem hsorted
    rcases List.mem_append.mp hmem with hbefore | hsame
    · exact Int.le_of_lt ((List.pairwise_append.mp hsorted).2.2 r hbefore q List.mem_cons_self)
    · exact Int.le_of_eq (congrArg Row.id (List.mem_singleton.mp hsame))

/-- When nothing is in the way of a row, all older rows of its hearing are settled. -/
theorem settled_of_not_isBlocked {l : Ledger} (h : l.Ordered) {r : Row} (hr : r ∈ l.rows)
    (hfree : l.isBlocked r = false) :
    ∀ q ∈ l.rows, q.hearing = r.hearing → q.id < r.id → q.Settled := by
  intro q hq hhearing hlt
  have hversion := h.version_lt q hq r hr hhearing hlt
  simp only [isBlocked, List.any_eq_false, Bool.and_eq_true, Bool.or_eq_true, beq_iff_eq,
    decide_eq_true_eq, not_and, not_or] at hfree
  obtain ⟨hprocessing, hpending⟩ := hfree q hq hhearing
  obtain ⟨s, hs⟩ := h.has_status q hq
  refine .of_status hs ?_ (Bool.eq_false_iff.mpr hprocessing)
  exact Bool.eq_false_iff.mpr fun hp => hpending hp hversion

/-- A row comes into progress as a pending one with nothing in its way. -/
theorem Passage.pending_of_processing {l : Ledger} {now : Int} {c : StoreCall} {r q : Row}
    (h : Passage l now c r q) (hq : q.is .processing = true) (hr : r.is .processing = false) :
    r.is .pending = true ∧ l.isBlocked r = false := by
  cases h with
  | stays =>
    rw [hq] at hr
    cases hr
  | flagged =>
    rw [is_flag, hr] at hq
    cases hq
  | claimed wait deployment r h => exact pending_of_isEligible (mem_of_oldestEligible? h).2
  | taken deployment r hp hb => exact ⟨hp, hb⟩
  | completed => simp at hq
  | givenUp => simp at hq
  | retried => simp at hq
  | requeued => simp at hq
  | reclaimed => simp at hq

def takenBy (l : Ledger) (now : Int) (c : StoreCall) (hearing : Int) : List Row :=
  (l.step now c).1.rows.filter fun q => q.hearing == hearing && q.is .processing &&
    !l.rows.any fun r => r.id == q.id && r.is .processing

structure Taking where
  before : Ledger
  row : Row

def takings (hearing : Int) : Ledger → List (Int × StoreCall) → List Taking
  | _, [] => []
  | l, (now, c) :: rest =>
    (l.takenBy now c hearing).map (Taking.mk l) ++ takings hearing (l.step now c).1 rest

/-- Whether a call makes an exception of a hearing pending again. -/
def replays (l : Ledger) (hearing : Int) : StoreCall → Bool
  | .requeueException id _ =>
    l.rows.any fun r => r.id == id && r.hearing == hearing && r.is .exception
  | _ => false

def replaysNone (hearing : Int) : Ledger → List (Int × StoreCall) → Bool
  | _, [] => true
  | l, (now, c) :: rest => !l.replays hearing c && replaysNone hearing (l.step now c).1 rest

/-- What a call takes was pending, is still the same event, and older rows are settled. -/
theorem exists_of_mem_takenBy {l : Ledger} (hwf : l.WellFormed) (h : l.Ordered) {now : Int}
    {c : StoreCall} {hearing : Int} {q : Row} (hq : q ∈ l.takenBy now c hearing) :
    q ∈ (l.step now c).1.rows ∧ q.hearing = hearing ∧ q.is .processing = true ∧
      ∃ r ∈ l.rows, r.id = q.id ∧ r.hearing = hearing ∧ r.is .pending = true ∧
        ∀ p ∈ l.rows, p.hearing = hearing → p.id < q.id → p.Settled := by
  simp only [takenBy, List.mem_filter, Bool.and_eq_true, beq_iff_eq, Bool.not_eq_true',
    List.any_eq_false, not_and, Bool.not_eq_true] at hq
  obtain ⟨hmem, ⟨rfl, hprocessing⟩, hbefore⟩ := hq
  refine ⟨hmem, rfl, hprocessing, ?_⟩
  rcases (mem_step_rows hwf.ids_increase).mp hmem with ⟨r, hr, hpass⟩ | hnew
  · have hpassage := passage_of_rowAfter hpass
    have hsame := hpassage.sameEvent
    obtain ⟨hpending, hfree⟩ :=
      hpassage.pending_of_processing hprocessing (hbefore r hr hsame.id.symm)
    refine ⟨r, hr, hsame.id.symm, hsame.hearing.symm, hpending, ?_⟩
    rw [hsame.hearing, hsame.id]
    exact settled_of_not_isBlocked h hr hfree
  · exact absurd (Row.status_unique hprocessing (added_spec hnew).2.1) (by decide)

structure SettledBelow (l : Ledger) (hearing bound : Int) : Prop where
  bound_le : bound ≤ l.lastId + 1
  settled : ∀ q ∈ l.rows, q.hearing = hearing → q.id < bound → q.Settled

/-- Settled rows stay settled unless an exception of the hearing is replayed. -/
theorem Passage.settled {l : Ledger} {now : Int} {c : StoreCall} {r q : Row}
    (h : Passage l now c r q) (hr : r ∈ l.rows) (hs : r.Settled)
    (hc : l.replays r.hearing c = false) : q.Settled := by
  have hnot : ∀ {s : Status}, r.is s = true → r.is s = false → q.Settled := by
    intro s hs hs'
    rw [hs] at hs'
    cases hs'
  cases h with
  | stays => exact hs
  | flagged => simpa only [Row.Settled, is_flag] using hs
  | completed => exact Or.inl (by simp)
  | givenUp => exact Or.inr (by simp)
  | claimed wait deployment r h =>
    exact hnot (pending_of_isEligible (mem_of_oldestEligible? h).2).1 hs.not_pending
  | taken deployment r hp => exact hnot hp hs.not_pending
  | retried deployment r hp => exact hnot hp hs.not_processing
  | requeued deployment r he =>
    simp only [replays, List.any_eq_false, Bool.and_eq_true, beq_iff_eq, not_and] at hc
    exact absurd he (hc r hr ⟨rfl, rfl⟩)
  | reclaimed timeout deployment r h =>
    simp only [isStuck, Bool.and_eq_true] at h
    exact hnot h.1 hs.not_processing

theorem SettledBelow.step {l : Ledger} {hearing bound : Int} (h : l.SettledBelow hearing bound)
    (hwf : l.WellFormed) {now : Int} {c : StoreCall} (hc : l.replays hearing c = false) :
    (l.step now c).1.SettledBelow hearing bound := by
  have hbound := h.bound_le
  constructor
  · rw [step_lastId]
    omega
  · intro q hq hhearing hlt
    rcases (mem_step_rows hwf.ids_increase).mp hq with ⟨r, hr, hpass⟩ | hnew
    · have hpassage := passage_of_rowAfter hpass
      have hsame := hpassage.sameEvent
      obtain rfl : r.hearing = hearing := hsame.hearing.symm.trans hhearing
      exact hpassage.settled hr (h.settled r hr rfl (hsame.id ▸ hlt)) hc
    · have hid := (added_spec hnew).1
      omega

/-- What was taken settles all that is older. -/
theorem settledBelow_of_taken {l : Ledger} (hwf : l.WellFormed) (h : l.Ordered) {now : Int}
    {c : StoreCall} {hearing : Int} (hc : l.replays hearing c = false) {q : Row}
    (hq : q ∈ l.takenBy now c hearing) : (l.step now c).1.SettledBelow hearing q.id := by
  obtain ⟨_, _, _, r, hr, hid, _, _, holder⟩ := exists_of_mem_takenBy hwf h hq
  have hle := hwf.id_le r hr
  have hbelow : l.SettledBelow hearing q.id := ⟨by omega, holder⟩
  exact hbelow.step hwf hc

/-- Nothing is taken below a bound under which all is settled. -/
theorem SettledBelow.le_taken {l : Ledger} {hearing bound : Int}
    (h : l.SettledBelow hearing bound) (hwf : l.WellFormed) (hord : l.Ordered) {now : Int}
    {c : StoreCall} {q : Row} (hq : q ∈ l.takenBy now c hearing) : bound ≤ q.id := by
  obtain ⟨_, _, _, r, hr, hid, hhearing, hpending, _⟩ := exists_of_mem_takenBy hwf hord hq
  by_contra hlt
  have hnot := (h.settled r hr hhearing (by omega)).not_pending
  rw [hpending] at hnot
  cases hnot

section Takings

variable {hearing : Int} {history : List (Int × StoreCall)} {l : Ledger}

theorem le_takings (hwf : l.WellFormed) (hord : l.Ordered)
    (hnone : replaysNone hearing l history = true) {bound : Int}
    (hbound : l.SettledBelow hearing bound) :
    ∀ t ∈ takings hearing l history, bound ≤ t.row.id := by
  induction history generalizing l with
  | nil => simp [takings]
  | cons call rest ih =>
    obtain ⟨now, c⟩ := call
    simp only [replaysNone, Bool.and_eq_true, Bool.not_eq_true'] at hnone
    intro t ht
    rcases List.mem_append.mp ht with hfirst | hlater
    · obtain ⟨q, hq, rfl⟩ := List.mem_map.mp hfirst
      exact hbound.le_taken hwf hord hq
    · exact ih (step_wellFormed hwf now c) (step_ordered hwf hord now c) hnone.2
        (hbound.step hwf hnone.1) t hlater

theorem takings_sorted (hwf : l.WellFormed) (hord : l.Ordered)
    (hnone : replaysNone hearing l history = true) :
    (takings hearing l history).Pairwise fun t u => t.row.id ≤ u.row.id := by
  induction history generalizing l with
  | nil => exact .nil
  | cons call rest ih =>
    obtain ⟨now, c⟩ := call
    simp only [replaysNone, Bool.and_eq_true, Bool.not_eq_true'] at hnone
    have hwf' := step_wellFormed hwf now c
    have hord' := step_ordered hwf hord now c
    refine List.pairwise_append.mpr ⟨?_, ih hwf' hord' hnone.2, ?_⟩
    · -- One call takes one row of a hearing at most.
      refine List.pairwise_map.mpr (List.pairwise_of_forall_mem_list ?_)
      intro q hq p hp
      obtain ⟨hmem, hhearing, hprocessing, _⟩ := exists_of_mem_takenBy hwf hord hq
      obtain ⟨hmem', hhearing', hprocessing', _⟩ := exists_of_mem_takenBy hwf hord hp
      have hsame : q = p := hwf'.one_in_progress q hmem p hmem'
        (hhearing.trans hhearing'.symm) hprocessing hprocessing'
      exact Int.le_of_eq (congrArg Row.id hsame)
    · intro t ht u hu
      obtain ⟨q, hq, rfl⟩ := List.mem_map.mp ht
      exact le_takings hwf' hord' hnone.2 (settledBelow_of_taken hwf hord hnone.1 hq) u hu

theorem settled_of_mem_takings (hwf : l.WellFormed) (hord : l.Ordered) :
    ∀ t ∈ takings hearing l history, ∀ q ∈ t.before.rows, q.hearing = hearing →
      q.id < t.row.id → q.Settled := by
  induction history generalizing l with
  | nil => simp [takings]
  | cons call rest ih =>
    obtain ⟨now, c⟩ := call
    intro t ht
    rcases List.mem_append.mp ht with hfirst | hlater
    · obtain ⟨q, hq, rfl⟩ := List.mem_map.mp hfirst
      obtain ⟨_, _, _, _, _, _, _, _, holder⟩ := exists_of_mem_takenBy hwf hord hq
      exact holder
    · exact ih (step_wellFormed hwf now c) (step_ordered hwf hord now c) t hlater

end Takings

/-- The events of a hearing are taken in order. In every history in which no
exception of the hearing is made pending again, whatever the other calls and
their clock readings, the identifiers of the rows taken never decrease; and
whenever one is taken, every older row of the hearing that is left is completed
or an exception. -/
theorem taken_in_order (hearing : Int) (history : List (Int × StoreCall))
    (hnone : replaysNone hearing empty history = true) :
    ((takings hearing empty history).map (·.row.id)).Pairwise (· ≤ ·) ∧
      ∀ t ∈ takings hearing empty history, ∀ q ∈ t.before.rows, q.hearing = hearing →
        q.id < t.row.id → q.is .completed = true ∨ q.is .exception = true :=
  ⟨List.pairwise_map.mpr (takings_sorted empty_wellFormed empty_ordered hnone),
    settled_of_mem_takings empty_wellFormed empty_ordered⟩

/-- Two events of a hearing and one of another, whose exception is replayed.
The first is retried and given up, the second is taken at an earlier clock
reading, freed, taken again, completed and purged before a third one comes. -/
def interruptedHistory : List (Int × StoreCall) :=
  [(0, .create 1 .request "\x7b\x7d" "local"), (0, .create 1 .amend "\x7b\x7d" "local"),
    (0, .create 2 .request "\x7b\x7d" "local"), (5, .markProcessing 3 "local"),
    (6, .markException 3 "local"), (7, .requeueException 3 "local"),
    (10, .markProcessing 1 "local"), (11, .markPendingWithRetry 1 "local"),
    (12, .markProcessing 2 "local"), (100, .claim (.ofMillis 50) "local"),
    (101, .markException 1 "local"), (3, .claim (.ofMillis 0) "local"),
    (90, .reclaimStuck (.ofMillis 10) "local"), (2, .markProcessing 2 "local"),
    (4, .markCompleted 2 "local"), (200, .deleteCompleted (.ofMillis 1)),
    (200, .create 1 .delete "\x7b\x7d" "local"), (200, .claim (.ofMillis 100) "local"),
    (201, .markProcessing 4 "local")]

theorem interruptedHistory_in_order :
    replaysNone 1 empty interruptedHistory = true ∧
      (takings 1 empty interruptedHistory).map (·.row.id) = [1, 1, 2, 2, 4] ∧
      ((takings 1 empty interruptedHistory).map (·.row.id)).Pairwise (· ≤ ·) ∧
      ∀ t ∈ takings 1 empty interruptedHistory, ∀ q ∈ t.before.rows, q.hearing = 1 →
        q.id < t.row.id → q.is .completed = true ∨ q.is .exception = true := by
  have hnone : replaysNone 1 empty interruptedHistory = true := by decide +kernel
  exact ⟨hnone, by decide +kernel, taken_in_order 1 interruptedHistory hnone⟩

end Ledger

end HearingRelay
