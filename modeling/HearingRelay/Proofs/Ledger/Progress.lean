import HearingRelay.Proofs.Ledger.Legible

/-!
No hearing is stuck for good. Of the rows of a hearing that has none in
progress the oldest pending one can be taken, and no other. Once the timeout
and the wait have passed since every last try, freeing what is stuck leaves no
row in progress, so the oldest pending row of each hearing may be taken, and
the claim that follows takes one. What it answers is that row as it is read: a
request, unless the row has been freed so often, or has so many before it, that
a count of it no longer fits 32 bits.
-/

namespace HearingRelay.Ledger

theorem mem_rowsOf {l : Ledger} {hearing : Int} {r : Row} :
    r ∈ l.rowsOf hearing ↔ r ∈ l.rows ∧ r.hearing = hearing := by
  simp [rowsOf]

theorem isBlocked_eq_false_iff {l : Ledger} {r : Row} :
    l.isBlocked r = false ↔ ∀ q ∈ l.rowsOf r.hearing,
      q.is .processing = false ∧ (q.is .pending = true → r.version ≤ q.version) := by
  simp only [isBlocked, List.any_eq_false, Bool.and_eq_true, Bool.or_eq_true, beq_iff_eq,
    decide_eq_true_eq, not_and, not_or, mem_rowsOf, Bool.not_eq_true, Int.not_lt, and_imp]

/-- A row that does not wait is not taken. -/
theorem markProcessing_refused {l : Ledger} (h : l.IdsIncrease) {r : Row} (hr : r ∈ l.rows)
    (hp : r.is .pending = false) (now : Int) (deployment : String) :
    (l.step now (.markProcessing r.id deployment)).2 = .ok false := by
  rw [step_eq_stepUnindexed]
  simp only [stepUnindexed, StoreCall.succeed, changeUnindexed, row?_of_mem h hr, hp,
    Bool.false_and, Bool.false_eq_true, if_false]

section Oldest

variable {l : Ledger} {hearing : Int}

def IsOldestPending (l : Ledger) (hearing : Int) (r : Row) : Prop :=
  r ∈ l.rowsOf hearing ∧ r.is .pending = true ∧
    ∀ q ∈ l.rowsOf hearing, q.is .pending = true → q ≠ r → r.version < q.version

theorem exists_isOldestPending (hwf : l.WellFormed) (hord : l.Ordered)
    (hpending : ∃ r ∈ l.rowsOf hearing, r.is .pending = true) :
    ∃ r, l.IsOldestPending hearing r := by
  have hsorted : ((l.rowsOf hearing).filter (·.is .pending)).Pairwise fun a b => a.id < b.id :=
    (hwf.ids_increase.filter _).filter _
  cases hrows : (l.rowsOf hearing).filter (·.is .pending) with
  | nil =>
    obtain ⟨r, hr, hp⟩ := hpending
    exact absurd hp (List.filter_eq_nil_iff.mp hrows r hr)
  | cons r rest =>
    rw [hrows] at hsorted
    have hfirst := (List.pairwise_cons.mp hsorted).1
    obtain ⟨hr, hp⟩ := List.mem_filter.mp (hrows ▸ List.mem_cons_self)
    refine ⟨r, hr, hp, ?_⟩
    intro q hq hqp hne
    have hmem : q ∈ r :: rest := hrows ▸ List.mem_filter.mpr ⟨hq, hqp⟩
    have hlater : q ∈ rest := (List.mem_cons.mp hmem).resolve_left hne
    rw [mem_rowsOf] at hr hq
    exact hord.version_lt r hr.1 q hq.1 (hr.2.trans hq.2.symm) (hfirst q hlater)

theorem IsOldestPending.not_isBlocked {r : Row} (h : l.IsOldestPending hearing r)
    (hrests : ∀ q ∈ l.rowsOf hearing, q.is .processing = false) : l.isBlocked r = false := by
  obtain ⟨hr, hp, holdest⟩ := h
  obtain rfl : r.hearing = hearing := (mem_rowsOf.mp hr).2
  apply isBlocked_eq_false_iff.mpr
  intro q hq
  refine ⟨hrests q hq, fun hqp => ?_⟩
  by_cases hqr : q = r
  · exact hqr ▸ Int.le_refl q.version
  · exact Int.le_of_lt (holdest q hq hqp hqr)

theorem IsOldestPending.isBlocked_of_ne {r q : Row} (h : l.IsOldestPending hearing r)
    (hq : q ∈ l.rowsOf hearing) (hqp : q.is .pending = true) (hne : q ≠ r) :
    l.isBlocked q = true := by
  obtain ⟨hr, hp, holdest⟩ := h
  by_contra hfree
  rw [Bool.not_eq_true, isBlocked_eq_false_iff, (mem_rowsOf.mp hq).2] at hfree
  have hlt := holdest q hq hqp hne
  have hle := (hfree r hr).2 hp
  omega

/-- While a hearing rests, its oldest pending row is taken and no other one is. -/
theorem IsOldestPending.markProcessing_answer_iff {r : Row} (h : l.IsOldestPending hearing r)
    (hinc : l.IdsIncrease) (hrests : ∀ q ∈ l.rowsOf hearing, q.is .processing = false) (now : Int)
    (deployment : String) {q : Row} (hq : q ∈ l.rowsOf hearing) :
    (l.step now (.markProcessing q.id deployment)).2 = .ok true ↔ q = r := by
  have hmem : q ∈ l.rows := (mem_rowsOf.mp hq).1
  by_cases hqr : q = r
  · subst q
    rw [markProcessing_answer hinc hmem h.2.1, h.not_isBlocked hrests]
    simp
  · cases hqp : q.is .pending with
    | false =>
      rw [markProcessing_refused hinc hmem hqp]
      simp [hqr]
    | true =>
      rw [markProcessing_answer hinc hmem hqp, h.isBlocked_of_ne hq hqp hqr]
      simp [hqr]

end Oldest

/-- Freeing what is stuck, and then a claim, at one reading. -/
def sweep (l : Ledger) (now : Int) (timeout wait : Time.Span) (deployment : String) :
    Ledger × Except StoreError (Option PendingRequest) :=
  (l.step now (.reclaimStuck timeout deployment)).1.step now (.claim wait deployment)

theorem lt_cutoff {now t : Int} {age : Time.Span} (h : t < now - age.toMillis) :
    t < cutoff now age := by
  unfold cutoff
  omega

section Reclaim

variable {l : Ledger} {now : Int} {timeout : Time.Span} {deployment : String}

/-- Freeing what is stuck leaves no row in progress that has been tried before the timeout. -/
theorem reclaimed_rests (hinc : l.IdsIncrease) (htried : l.Tried)
    (hpassed : ∀ r ∈ l.rows, ∀ t, r.lastTried = some t → t < cutoff now timeout) :
    ∀ q ∈ (l.step now (.reclaimStuck timeout deployment)).1.rows, q.is .processing = false := by
  intro q hq
  by_contra hprocessing
  rw [Bool.not_eq_false] at hprocessing
  rcases (mem_step_rows hinc).mp hq with ⟨r, hr, hpass⟩ | hnew
  · rcases (passage_of_rowAfter hpass).processing hprocessing with hrp | ⟨_, htakes⟩
    · obtain ⟨t, ht⟩ := Option.isSome_iff_exists.mp (htried r hr hrp)
      have hstuck : isStuck now timeout r = true := by
        simp [isStuck, hrp, ht, hpassed r hr t ht]
      simp only [rowAfter, Row.changeIf, hstuck, if_true] at hpass
      obtain rfl := Option.some.inj hpass
      simp at hprocessing
    · exact htakes.elim
  · cases hnew

/-- What waits or is freed waits afterwards, with the last try that it had. -/
theorem reclaimed_pending (hinc : l.IdsIncrease) {r : Row} (hr : r ∈ l.rows)
    (hopen : r.is .pending = true ∨ isStuck now timeout r = true) :
    ∃ q ∈ (l.step now (.reclaimStuck timeout deployment)).1.rows, q.is .pending = true := by
  cases hstuck : isStuck now timeout r with
  | true =>
    refine ⟨reclaim deployment r, mem_step_of_rowAfter hinc hr ?_, by simp⟩
    simp only [rowAfter, Row.changeIf, hstuck, if_true]
  | false =>
    refine ⟨r, mem_step_of_rowAfter hinc hr ?_, hopen.resolve_right (by simp [hstuck])⟩
    simp only [rowAfter, Row.changeIf, hstuck, Bool.false_eq_true, if_false]

theorem reclaimed_lastTried (hinc : l.IdsIncrease) {q : Row}
    (hq : q ∈ (l.step now (.reclaimStuck timeout deployment)).1.rows) :
    ∃ r ∈ l.rows, q.lastTried = r.lastTried := by
  rcases (mem_step_rows hinc).mp hq with ⟨r, hr, hpass⟩ | hnew
  · refine ⟨r, hr, ?_⟩
    obtain rfl := Option.some.inj hpass
    unfold Row.changeIf
    split <;> rfl
  · cases hnew

end Reclaim

theorem exists_oldestEligible {l : Ledger} {now : Int} {wait : Time.Span} {r : Row}
    (hr : r ∈ l.rows) (h : l.isEligible now wait r = true) :
    ∃ q, l.oldestEligible? now wait = some q := by
  have hmem : r ∈ Sorting.sort olderOrSame (l.rows.filter (l.isEligible now wait)) :=
    Sorting.mem_sort.mpr (List.mem_filter.mpr ⟨hr, h⟩)
  unfold oldestEligible?
  cases hsorted : Sorting.sort olderOrSame (l.rows.filter (l.isEligible now wait)) with
  | nil =>
    rw [hsorted] at hmem
    cases hmem
  | cons q rest => exact ⟨q, rfl⟩

/-- In a ledger that rests a pending row makes some row eligible, once the wait has passed. -/
theorem exists_oldestEligible_of_rests {l : Ledger} (hwf : l.WellFormed) (hord : l.Ordered)
    {now : Int} {wait : Time.Span} (hrests : ∀ q ∈ l.rows, q.is .processing = false)
    (hpassed : ∀ q ∈ l.rows, ∀ t, q.lastTried = some t → t < cutoff now wait) {r : Row}
    (hr : r ∈ l.rows) (hp : r.is .pending = true) :
    ∃ q, l.oldestEligible? now wait = some q := by
  obtain ⟨oldest, h⟩ :=
    exists_isOldestPending hwf hord ⟨r, mem_rowsOf.mpr ⟨hr, rfl⟩, hp⟩
  have hmem : oldest ∈ l.rows := (mem_rowsOf.mp h.1).1
  have hfree := h.not_isBlocked fun q hq => hrests q (mem_rowsOf.mp hq).1
  have hwaited : (oldest.lastTried.all fun t => decide (t < cutoff now wait)) = true := by
    cases htried : oldest.lastTried with
    | none => rfl
    | some t => exact decide_eq_true (hpassed oldest hmem t htried)
  exact exists_oldestEligible hmem (by simp [isEligible, h.2.1, hfree, hwaited])

/-- A claim takes the oldest eligible row, and answers with it as it is read. -/
theorem claim_of_oldestEligible {l : Ledger} {now : Int} {wait : Time.Span} {r : Row}
    (h : l.oldestEligible? now wait = some r) (deployment : String) :
    l.step now (.claim wait deployment) =
      (l.replace (begin now deployment r), (begin now deployment r).read.map some) := by
  rw [step_eq_stepUnindexed]
  simp only [stepUnindexed, claimUnindexed, h]

/-- A sweep takes a row, once the timeout and the wait have passed since every last try. -/
theorem exists_swept {l : Ledger} (hwf : l.WellFormed) (hord : l.Ordered) (htried : l.Tried)
    {now : Int} {timeout wait : Time.Span} {deployment : String}
    (hopen : ∃ r ∈ l.rows, r.is .pending = true ∨ r.is .processing = true)
    (hpassed : ∀ r ∈ l.rows, ∀ t, r.lastTried = some t →
      t < now - timeout.toMillis ∧ t < now - wait.toMillis) :
    ∃ r ∈ (l.step now (.reclaimStuck timeout deployment)).1.rows, r.is .pending = true ∧
      (l.sweep now timeout wait deployment).1.row? r.id = some (begin now deployment r) ∧
      (l.sweep now timeout wait deployment).2 = (begin now deployment r).read.map some := by
  have hinc := hwf.ids_increase
  have hwf' := step_wellFormed hwf now (.reclaimStuck timeout deployment)
  have hord' := step_ordered hwf hord now (.reclaimStuck timeout deployment)
  have htimeout : ∀ r ∈ l.rows, ∀ t, r.lastTried = some t → t < cutoff now timeout :=
    fun r hr t ht => lt_cutoff (hpassed r hr t ht).1
  have hrests : ∀ q ∈ (l.step now (.reclaimStuck timeout deployment)).1.rows,
      q.is .processing = false := reclaimed_rests hinc htried htimeout
  have hwaited : ∀ q ∈ (l.step now (.reclaimStuck timeout deployment)).1.rows,
      ∀ t, q.lastTried = some t → t < cutoff now wait := by
    intro q hq t ht
    obtain ⟨r, hr, hsame⟩ := reclaimed_lastTried hinc hq
    exact lt_cutoff (hpassed r hr t (hsame.symm.trans ht)).2
  obtain ⟨r, hr, hr'⟩ := hopen
  have hstuck : r.is .pending = true ∨ isStuck now timeout r = true := by
    rcases hr' with hp | hp
    · exact Or.inl hp
    · obtain ⟨t, ht⟩ := Option.isSome_iff_exists.mp (htried r hr hp)
      exact Or.inr (by simp [isStuck, hp, ht, htimeout r hr t ht])
  obtain ⟨q, hq, hqp⟩ : ∃ q ∈ (l.step now (.reclaimStuck timeout deployment)).1.rows,
      q.is .pending = true := reclaimed_pending hinc hr hstuck
  obtain ⟨taken, htaken⟩ := exists_oldestEligible_of_rests hwf' hord' hrests hwaited hq hqp
  obtain ⟨hmem, heligible⟩ := mem_of_oldestEligible? htaken
  refine ⟨taken, hmem, (pending_of_isEligible heligible).1, ?_, ?_⟩
  · exact (row?_step hwf' now (.claim wait deployment) hmem).trans
      (rowAfter_claim htaken deployment)
  · exact congrArg Prod.snd (claim_of_oldestEligible htaken deployment)

/-- No hearing is stuck for good. In every ledger that calls lead to, a row in
progress has a last try; of the rows of a hearing that waits with nothing in
progress the oldest pending one can be taken, and no other; and while a row is
pending or in progress, a sweep at a reading to which the timeout and the wait
have passed since every last try takes one. With all clock readings in range it
answers with that row exactly when two columns fit 32 bits, as they do after
fewer than 2³¹ creations and fewer than 2³¹ calls that free rows, its own among
them. -/
theorem no_hearing_stuck (history : List (Int × StoreCall)) (now : Int) (deployment : String) :
    let l := empty.after history
    (∀ r ∈ l.rows, r.is .processing = true → r.lastTried.isSome = true) ∧
      (∀ hearing, (∃ r ∈ l.rowsOf hearing, r.is .pending = true) →
        (∀ r ∈ l.rowsOf hearing, r.is .processing = false) →
        ∃ r, l.IsOldestPending hearing r ∧ ∀ q ∈ l.rowsOf hearing,
          (l.step now (.markProcessing q.id deployment)).2 = .ok true ↔ q = r) ∧
      ∀ timeout wait, (∃ r ∈ l.rows, r.is .pending = true ∨ r.is .processing = true) →
        (∀ r ∈ l.rows, ∀ t, r.lastTried = some t →
          t < now - timeout.toMillis ∧ t < now - wait.toMillis) →
        ∃ r ∈ (l.step now (.reclaimStuck timeout deployment)).1.rows, r.is .pending = true ∧
          (l.sweep now timeout wait deployment).1.row? r.id = some (begin now deployment r) ∧
          (l.sweep now timeout wait deployment).2 = (begin now deployment r).read.map some ∧
          (Time.Dated now → (∀ call ∈ history, Time.Dated call.1) →
            ((∃ a, (begin now deployment r).read = .ok a) ↔
              Bounds.fitsInt32 r.version = true ∧ Bounds.fitsInt32 r.retryCount = true) ∧
            (history.countP (·.2.adds) < 2 ^ 31 → history.countP (·.2.frees) + 1 < 2 ^ 31 →
              ∃ a, (begin now deployment r).read = .ok a)) := by
  intro l
  have hwf : l.WellFormed := after_wellFormed empty_wellFormed history
  have hord : l.Ordered := after_ordered empty_wellFormed empty_ordered history
  have htried : l.Tried := after_tried empty_wellFormed empty_tried history
  refine ⟨htried, fun hearing hpending hrests => ?_, fun timeout wait hopen hpassed => ?_⟩
  · obtain ⟨r, hr⟩ := exists_isOldestPending hwf hord hpending
    exact ⟨r, hr,
      fun q hq => hr.markProcessing_answer_iff hwf.ids_increase hrests now deployment hq⟩
  · obtain ⟨r, hr, hp, hrow, hanswer⟩ := exists_swept hwf hord htried hopen hpassed
    refine ⟨r, hr, hp, hrow, hanswer, fun hnow hdated => ?_⟩
    -- The ledger of the claim is that of a history with one more call.
    have hlegible : r.Legible := by
      refine step_legible hwf.ids_increase ?_ hnow _ r hr
      exact after_legible empty_wellFormed (by simp [empty]) hdated
    have hread := (hlegible.begin hnow deployment).exists_read_iff
    refine ⟨hread, fun hadded hfreed => ?_⟩
    have hcounted := step_counted hwf.ids_increase
      (after_counted empty_wellFormed empty_counted history) now (.reclaimStuck timeout deployment)
    apply hread.mpr
    apply hcounted.fits _ _ hr
    · simpa [StoreCall.adds] using hadded
    · simpa [StoreCall.frees] using hfreed

def wornRow (failures : Nat) : Row :=
  { id := 1, hearing := 1, eventType := EventType.request.name, version := 1,
    message := "\x7b\x7d", status := Status.processing.name, submitted := 0, lastTried := some 0,
    retryCount := failures, incident := false, deployment := some "local" }

def wornHistory : Nat → List (Int × StoreCall)
  | 0 => [(0, .create 1 .request "\x7b\x7d" "local"), (0, .markProcessing 1 "local")]
  | n + 1 =>
    wornHistory n ++ [(0, .markPendingWithRetry 1 "local"), (0, .markProcessing 1 "local")]

theorem after_wornHistory (n : Nat) : empty.after (wornHistory n) = ⟨[wornRow n], 1⟩ := by
  induction n with
  | zero => decide +kernel
  | succ n ih =>
    rw [wornHistory, after_append, ih]
    rfl

theorem dated_wornHistory (n : Nat) : ∀ call ∈ wornHistory n, Time.Dated call.1 := by
  induction n with
  | zero => simp [wornHistory, Time.dated_zero]
  | succ n ih =>
    intro call hcall
    rcases List.mem_append.mp hcall with hbefore | hlast
    · exact ih call hbefore
    · have hzero : call.1 = 0 := by
        simp only [List.mem_cons, List.not_mem_nil, or_false] at hlast
        rcases hlast with rfl | rfl <;> rfl
      exact hzero ▸ Time.dated_zero

/-- One failure more than the largest that fits 32 bits. -/
theorem fitsInt32_succ_eq_false {n : Nat} (hn : 2147483647 ≤ n) :
    Bounds.fitsInt32 ((n : Int) + 1) = false := by
  rw [← Bool.not_eq_true, Bounds.fitsInt32_iff]
  omega

/-- The failures of a row are looked at behind its version. -/
theorem read_of_unfit {r : Row} (hversion : Bounds.fitsInt32 r.version = true)
    (hretry : Bounds.fitsInt32 r.retryCount = false) :
    r.read = .error (.columnOutOfRange "retry_count") := by
  unfold Row.read
  rw [hversion, hretry]
  rfl

/-- The failure that a sweep counts is the one that no longer fits. -/
theorem sweep_wornHistory {n : Nat} (hn : 2147483647 ≤ n) :
    ((empty.after (wornHistory n)).sweep 1000 ⟨0⟩ ⟨0⟩ "local").2 =
      .error (.columnOutOfRange "retry_count") := by
  have hfreed : ((⟨[wornRow n], 1⟩ : Ledger).step 1000 (.reclaimStuck ⟨0⟩ "local")).1 =
      ⟨[reclaim "local" (wornRow n)], 1⟩ := rfl
  have holdest : (⟨[reclaim "local" (wornRow n)], 1⟩ : Ledger).oldestEligible? 1000 ⟨0⟩ =
      some (reclaim "local" (wornRow n)) := rfl
  have hread : (begin 1000 "local" (reclaim "local" (wornRow n))).read =
      .error (.columnOutOfRange "retry_count") :=
    read_of_unfit rfl (fitsInt32_succ_eq_false hn)
  rw [after_wornHistory, sweep, hfreed, claim_of_oldestEligible holdest, hread]
  rfl

/-- An event that has failed 2³¹ - 1 times is taken by the sweep that frees it, and not returned. -/
theorem swept_row_not_returned :
    ¬ ∀ (history : List (Int × StoreCall)) (now : Int) (timeout wait : Time.Span)
      (deployment : String), Time.Dated now → (∀ call ∈ history, Time.Dated call.1) →
        (∃ r ∈ (empty.after history).rows, r.is .pending = true ∨ r.is .processing = true) →
        (∀ r ∈ (empty.after history).rows, ∀ t, r.lastTried = some t →
          t < now - timeout.toMillis ∧ t < now - wait.toMillis) →
        ∃ a, ((empty.after history).sweep now timeout wait deployment).2 = .ok (some a) := by
  intro h
  -- The number stays a name, so that nothing writes the history out.
  have hmany : ∃ n : Nat, 2147483647 ≤ n := ⟨2147483647, by omega⟩
  obtain ⟨n, hn⟩ := hmany
  have hopen : ∃ r ∈ (empty.after (wornHistory n)).rows,
      r.is .pending = true ∨ r.is .processing = true := by
    rw [after_wornHistory]
    exact ⟨wornRow n, List.mem_singleton_self _, Or.inr rfl⟩
  have hpassed : ∀ r ∈ (empty.after (wornHistory n)).rows, ∀ t, r.lastTried = some t →
      t < 1000 - ((⟨0⟩ : Time.Span).toMillis : Int) ∧
        t < 1000 - ((⟨0⟩ : Time.Span).toMillis : Int) := by
    rw [after_wornHistory]
    intro r hr t ht
    obtain rfl := List.mem_singleton.mp hr
    obtain rfl : 0 = t := Option.some.inj ht
    decide
  obtain ⟨a, ha⟩ :=
    h (wornHistory n) 1000 ⟨0⟩ ⟨0⟩ "local" rfl (dated_wornHistory n) hopen hpassed
  rw [sweep_wornHistory hn] at ha
  cases ha

end HearingRelay.Ledger
