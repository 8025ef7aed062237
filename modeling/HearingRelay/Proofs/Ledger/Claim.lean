import HearingRelay.Proofs.Ledger.Age
import HearingRelay.Proofs.Ledger.Progress

/-!
Which row a claim takes. A row may be taken when it is pending, has waited since
its last try, its hearing has nothing in progress, and no pending row of the
hearing has a lower version. A claim takes the one of these that was submitted
first, by the smaller identifier of those submitted at once, and does with it
what taking it by its identifier does.
-/

namespace HearingRelay.Ledger

/-- A row that may be taken, told by the rows of its hearing. -/
structure Eligible (l : Ledger) (now : Int) (wait : Time.Span) (r : Row) : Prop where
  mem : r ∈ l.rows
  pending : r.is .pending = true
  waited : ∀ t, r.lastTried = some t → t < cutoff now wait
  rests : ∀ q ∈ l.rows, q.hearing = r.hearing → q.is .processing = false
  oldest : ∀ q ∈ l.rows, q.hearing = r.hearing → q.is .pending = true → r.version ≤ q.version

/-- Rows by the time of their submission, and those of one time by identifier. -/
def Precedes (a b : Row) : Prop :=
  a.submitted < b.submitted ∨ (a.submitted = b.submitted ∧ a.id < b.id)

structure IsNext (l : Ledger) (now : Int) (wait : Time.Span) (r : Row) : Prop where
  eligible : l.Eligible now wait r
  precedes : ∀ q, l.Eligible now wait q → q ≠ r → Precedes r q

section Selection

variable {l : Ledger} {now : Int} {wait : Time.Span} {r q : Row}

theorem eligible_iff : l.Eligible now wait r ↔ r ∈ l.rows ∧ l.isEligible now wait r = true := by
  have hwaited : (r.lastTried.all fun t => decide (t < cutoff now wait)) = true ↔
      ∀ t, r.lastTried = some t → t < cutoff now wait := by
    cases r.lastTried <;> simp
  simp only [isEligible, Bool.and_eq_true, Bool.not_eq_true', hwaited, isBlocked_eq_false_iff,
    mem_rowsOf]
  constructor
  · intro h
    exact ⟨h.mem, ⟨h.pending, h.waited⟩, fun q hq => ⟨h.rests q hq.1 hq.2, h.oldest q hq.1 hq.2⟩⟩
  · rintro ⟨hmem, ⟨hpending, hwaited⟩, hfree⟩
    exact ⟨hmem, hpending, hwaited, fun q hq hhearing => (hfree q ⟨hq, hhearing⟩).1,
      fun q hq hhearing => (hfree q ⟨hq, hhearing⟩).2⟩

theorem Eligible.not_isBlocked (h : l.Eligible now wait r) : l.isBlocked r = false :=
  (pending_of_isEligible (eligible_iff.mp h).2).2

theorem olderOrSame_iff : olderOrSame q r = true ↔
    q.submitted < r.submitted ∨ (q.submitted = r.submitted ∧ q.id ≤ r.id) := by
  simp [olderOrSame]

theorem olderOrSame_total (a b : Row) : olderOrSame a b = true ∨ olderOrSame b a = true := by
  rw [olderOrSame_iff, olderOrSame_iff]
  omega

theorem olderOrSame_trans (a b c : Row) (hab : olderOrSame a b = true)
    (hbc : olderOrSame b c = true) : olderOrSame a c = true := by
  rw [olderOrSame_iff] at *
  omega

theorem oldestEligible?_eq_none_iff :
    l.oldestEligible? now wait = none ↔ ∀ r, ¬ l.Eligible now wait r := by
  constructor
  · intro hnone r hr
    obtain ⟨hmem, heligible⟩ := eligible_iff.mp hr
    obtain ⟨q, hq⟩ := exists_oldestEligible hmem heligible
    rw [hnone] at hq
    cases hq
  · intro hnot
    cases holdest : l.oldestEligible? now wait with
    | none => rfl
    | some r => exact absurd (eligible_iff.mpr (mem_of_oldestEligible? holdest)) (hnot r)

/-- The oldest eligible row is the next one to be taken. -/
theorem isNext_of_oldestEligible? (hinc : l.IdsIncrease)
    (h : l.oldestEligible? now wait = some r) : l.IsNext now wait r := by
  have hr : l.Eligible now wait r := eligible_iff.mpr (mem_of_oldestEligible? h)
  refine ⟨hr, fun q hq hne => ?_⟩
  have hmem : q ∈ l.rows.filter (l.isEligible now wait) :=
    List.mem_filter.mpr (eligible_iff.mp hq)
  have hle := Sorting.le_of_head?_sort olderOrSame_total olderOrSame_trans h q hmem hne
  rcases olderOrSame_iff.mp hle with hlt | ⟨hsame, hid⟩
  · exact Or.inl hlt
  · have hids : r.id ≠ q.id := fun hid => hne (eq_of_id_eq hinc hq.mem hr.mem hid.symm)
    exact Or.inr ⟨hsame, by omega⟩

/-- There is one row at most to be taken next. -/
theorem IsNext.unique (hr : l.IsNext now wait r) (hq : l.IsNext now wait q) : r = q := by
  by_contra hne
  have hrq := hr.precedes q hq.eligible (Ne.symm hne)
  have hqr := hq.precedes r hr.eligible hne
  unfold Precedes at hrq hqr
  omega

theorem oldestEligible?_eq_some_iff (hinc : l.IdsIncrease) :
    l.oldestEligible? now wait = some r ↔ l.IsNext now wait r := by
  refine ⟨isNext_of_oldestEligible? hinc, fun h => ?_⟩
  cases holdest : l.oldestEligible? now wait with
  | none => exact absurd h.eligible (oldestEligible?_eq_none_iff.mp holdest r)
  | some q => rw [(isNext_of_oldestEligible? hinc holdest).unique h]

/-- Taking an eligible row by its identifier succeeds. -/
theorem Eligible.markProcessing (hinc : l.IdsIncrease) (h : l.Eligible now wait r)
    (deployment : String) : l.step now (.markProcessing r.id deployment) =
      (l.replace (begin now deployment r), .ok true) := by
  rw [step_eq_stepUnindexed]
  simp [stepUnindexed, StoreCall.succeed, changeUnindexed, row?_of_mem hinc h.mem, h.pending,
    h.not_isBlocked]

/-- A claim is a look for the next row, and that row taken. -/
theorem claim_of_isNext (hinc : l.IdsIncrease) (h : l.IsNext now wait r) (deployment : String) :
    l.step now (.claim wait deployment) =
      ((l.step now (.markProcessing r.id deployment)).1,
        (begin now deployment r).read.map some) := by
  rw [claim_of_oldestEligible ((oldestEligible?_eq_some_iff hinc).mpr h),
    h.eligible.markProcessing hinc]

theorem claim_of_none (h : ∀ r, ¬ l.Eligible now wait r) (deployment : String) :
    l.step now (.claim wait deployment) = (l, .ok none) := by
  rw [step_eq_stepUnindexed]
  simp only [stepUnindexed, claimUnindexed, oldestEligible?_eq_none_iff.mpr h]

theorem exists_isNext (hinc : l.IdsIncrease) (h : ∃ r, l.Eligible now wait r) :
    ∃ r, l.IsNext now wait r := by
  obtain ⟨r, hr⟩ := h
  obtain ⟨hmem, heligible⟩ := eligible_iff.mp hr
  obtain ⟨q, hq⟩ := exists_oldestEligible hmem heligible
  exact ⟨q, isNext_of_oldestEligible? hinc hq⟩

end Selection

/-- The row that a claim takes is what the next change of it makes of it, and no
other row has changed. -/
theorem IsNext.settled {l : Ledger} (hwf : l.WellFormed) {now : Int} {wait : Time.Span} {r : Row}
    (h : l.IsNext now wait r) (deployment : String) {c : StoreCall} (hc : marks r.id c = true)
    {final : Row} (hfinal : ∀ l, Ledger.rowAfter l now c (begin now deployment r) = some final) :
    let after := ((l.step now (.claim wait deployment)).1.step now c).1
    after.WellFormed ∧ after.lastId = l.lastId ∧
      after.rows.filter (·.id != r.id) = l.rows.filter (·.id != r.id) ∧
      after.row? r.id = some final := by
  intro after
  have hmarks : marks r.id (.markProcessing r.id deployment) = true := by simp [marks]
  have hafter : after = ((l.step now (.markProcessing r.id deployment)).1.step now c).1 := by
    unfold after
    rw [claim_of_isNext hwf.ids_increase h]
  have hwf' := step_wellFormed hwf now (.markProcessing r.id deployment)
  have htaken : begin now deployment r ∈ (l.step now (.markProcessing r.id deployment)).1.rows := by
    refine mem_step_of_rowAfter hwf.ids_increase h.eligible.mem ?_
    simp [rowAfter, Row.changeIf, h.eligible.pending, h.eligible.not_isBlocked]
  rw [hafter]
  refine ⟨step_wellFormed hwf' now c, ?_, ?_, ?_⟩
  · simp [step_lastId, added_of_marks hc, added_of_marks hmarks]
  · rw [filter_step_rows_of_marks hwf'.ids_increase hc,
      filter_step_rows_of_marks hwf.ids_increase hmarks]
  · exact (row?_step hwf' now c htaken).trans (hfinal _)

/-- A claim that answers that there is nothing has found nothing eligible. -/
theorem claim_eq_none_iff {l : Ledger} (hinc : l.IdsIncrease) (now : Int) (wait : Time.Span)
    (deployment : String) : l.step now (.claim wait deployment) = (l, .ok none) ↔
      ∀ r, ¬ l.Eligible now wait r := by
  refine ⟨fun hnothing r hr => ?_, fun h => claim_of_none h deployment⟩
  obtain ⟨q, hq⟩ := exists_isNext hinc ⟨r, hr⟩
  rw [claim_of_isNext hinc hq] at hnothing
  have hanswer : (begin now deployment q).read.map some = .ok none := congrArg Prod.snd hnothing
  cases hread : (begin now deployment q).read <;> simp [hread, Except.map] at hanswer

/-- What a claim does to every ledger that calls lead to. It answers that there
is nothing, and changes nothing, exactly when no row is eligible. Otherwise it
takes the next eligible row as taking it by its identifier does, and answers
with that row as it is read. With all clock readings in range rows have waited
when their last try lies before the wait, and the answer is that row exactly
when two columns of it fit 32 bits. -/
theorem claim_takes_next (history : List (Int × StoreCall)) (now : Int) (wait : Time.Span)
    (deployment : String) :
    let l := empty.after history
    (l.step now (.claim wait deployment) = (l, .ok none) ↔ ∀ r, ¬ l.Eligible now wait r) ∧
      ((∃ r, l.Eligible now wait r) → ∃ r, l.IsNext now wait r ∧
        (l.step now (.claim wait deployment)).1 =
          (l.step now (.markProcessing r.id deployment)).1 ∧
        (l.step now (.markProcessing r.id deployment)).2 = .ok true ∧
        (l.step now (.claim wait deployment)).2 = (begin now deployment r).read.map some ∧
        (Time.Dated now → (∀ call ∈ history, Time.Dated call.1) →
          ((∃ a, (l.step now (.claim wait deployment)).2 = .ok (some a)) ↔
            Bounds.fitsInt32 r.version = true ∧ Bounds.fitsInt32 r.retryCount = true) ∧
          (history.countP (·.2.adds) < 2 ^ 31 → history.countP (·.2.frees) < 2 ^ 31 →
            ∃ a, (l.step now (.claim wait deployment)).2 = .ok (some a)))) ∧
      (Time.Dated now → (∀ call ∈ history, Time.Dated call.1) →
        ∀ r ∈ l.rows, ∀ t, r.lastTried = some t →
          (t < cutoff now wait ↔ t < now - wait.toMillis)) := by
  intro l
  have hwf : l.WellFormed := after_wellFormed empty_wellFormed history
  have hinc : l.IdsIncrease := hwf.ids_increase
  have hlegible : (∀ call ∈ history, Time.Dated call.1) → ∀ r ∈ l.rows, r.Legible :=
    fun hdated => after_legible empty_wellFormed (by simp [empty]) hdated
  refine ⟨claim_eq_none_iff hinc now wait deployment, fun heligible => ?_,
    fun hnow hdated r hr t ht => lt_cutoff_iff hnow ((hlegible hdated r hr).lastTried t ht) wait⟩
  obtain ⟨r, hr⟩ := exists_isNext hinc heligible
  have hclaim := claim_of_isNext hinc hr deployment
  have hanswer := congrArg Prod.snd hclaim
  refine ⟨r, hr, congrArg Prod.fst hclaim,
    congrArg Prod.snd (hr.eligible.markProcessing hinc deployment), hanswer,
    fun hnow hdated => ?_⟩
  have hreads : (∃ a, (l.step now (.claim wait deployment)).2 = .ok (some a)) ↔
      ∃ a, (begin now deployment r).read = .ok a := by
    rw [hanswer]
    cases (begin now deployment r).read <;> simp [Except.map]
  have hmem : r ∈ l.rows := hr.eligible.mem
  have hfits := ((hlegible hdated r hmem).begin hnow deployment).exists_read_iff
  refine ⟨hreads.trans hfits, fun hadded hfreed => (hreads.trans hfits).mpr ?_⟩
  have hcounted := after_counted empty_wellFormed empty_counted history
  have hcolumns : Bounds.fitsInt32 r.version = true ∧ Bounds.fitsInt32 r.retryCount = true :=
    hcounted.fits (by omega) (by omega) hmem
  exact hcolumns

/-- The event that has failed so often, its last failure written back. -/
def failedHistory (n : Nat) : List (Int × StoreCall) :=
  wornHistory n ++ [(0, .markPendingWithRetry 1 "local")]

theorem after_failedHistory (n : Nat) :
    empty.after (failedHistory n) = ⟨[retry 0 "local" (wornRow n)], 1⟩ := by
  rw [failedHistory, after_append, after_wornHistory]
  rfl

/-- The row that is next waits with the failure that no longer fits. -/
theorem claim_failedHistory {n : Nat} (hn : 2147483647 ≤ n) :
    ((empty.after (failedHistory n)).step 1000 (.claim ⟨0⟩ "local")).2 =
      .error (.columnOutOfRange "retry_count") := by
  have holdest : (⟨[retry 0 "local" (wornRow n)], 1⟩ : Ledger).oldestEligible? 1000 ⟨0⟩ =
      some (retry 0 "local" (wornRow n)) := rfl
  have hread : (begin 1000 "local" (retry 0 "local" (wornRow n))).read =
      .error (.columnOutOfRange "retry_count") :=
    read_of_unfit rfl (fitsInt32_succ_eq_false hn)
  rw [after_failedHistory, claim_of_oldestEligible holdest, hread]
  rfl

/-- An event that has failed 2³¹ times is taken by a claim, and not returned. -/
theorem claimed_row_not_returned :
    ¬ ∀ (history : List (Int × StoreCall)) (now : Int) (wait : Time.Span) (deployment : String),
      Time.Dated now → (∀ call ∈ history, Time.Dated call.1) →
        (∃ r, (empty.after history).Eligible now wait r) →
        ∃ a, ((empty.after history).step now (.claim wait deployment)).2 = .ok (some a) := by
  intro h
  have hmany : ∃ n : Nat, 2147483647 ≤ n := ⟨2147483647, by omega⟩
  obtain ⟨n, hn⟩ := hmany
  have hdated : ∀ call ∈ failedHistory n, Time.Dated call.1 := by
    intro call hcall
    rcases List.mem_append.mp hcall with hbefore | hlast
    · exact dated_wornHistory n call hbefore
    · obtain rfl := List.mem_singleton.mp hlast
      exact Time.dated_zero
  have heligible : (empty.after (failedHistory n)).Eligible 1000 ⟨0⟩
      (retry 0 "local" (wornRow n)) := by
    rw [after_failedHistory]
    exact eligible_iff.mpr ⟨List.mem_singleton_self _, rfl⟩
  obtain ⟨a, ha⟩ := h (failedHistory n) 1000 ⟨0⟩ "local" rfl hdated ⟨_, heligible⟩
  rw [claim_failedHistory hn] at ha
  cases ha

end HearingRelay.Ledger
