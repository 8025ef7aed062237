import HearingRelay.Proofs.Ledger.Unindexed

/-!
A step of the ledger, row by row. What a call makes of a row depends on the
row, the clock reading and, for the two claims, on the other rows of its
hearing; no call looks at anything else. A row passes through a step in one of
nine ways, and a completed one may be deleted.
-/

namespace HearingRelay

namespace Row

def changeIf (applies : Row → Bool) (f : Row → Row) (r : Row) : Row :=
  if applies r then f r else r

theorem changeIf_cases (applies : Row → Bool) (f : Row → Row) (r : Row) :
    (applies r = true ∧ r.changeIf applies f = f r) ∨
      (applies r = false ∧ r.changeIf applies f = r) := by
  unfold changeIf
  cases applies r <;> simp

/-- Rows that a change does not fit stay. -/
theorem map_changeIf_eq_self {rows : List Row} {applies : Row → Bool} {f : Row → Row}
    (h : ∀ r ∈ rows, applies r = false) : rows.map (changeIf applies f) = rows := by
  have hsame : rows.map (changeIf applies f) = rows.map fun r => r :=
    List.map_congr_left fun r hr => by simp [changeIf, h r hr]
  rw [hsame, List.map_id']

structure SameEvent (r q : Row) : Prop where
  id : q.id = r.id
  hearing : q.hearing = r.hearing
  eventType : q.eventType = r.eventType
  version : q.version = r.version
  message : q.message = r.message
  submitted : q.submitted = r.submitted

theorem SameEvent.refl (r : Row) : r.SameEvent r := ⟨rfl, rfl, rfl, rfl, rfl, rfl⟩

theorem SameEvent.trans {r q t : Row} (h : r.SameEvent q) (h' : q.SameEvent t) : r.SameEvent t where
  id := h'.id.trans h.id
  hearing := h'.hearing.trans h.hearing
  eventType := h'.eventType.trans h.eventType
  version := h'.version.trans h.version
  message := h'.message.trans h.message
  submitted := h'.submitted.trans h.submitted

end Row

namespace Ledger

/-- Identifiers grow along the rows, so no two rows share one. -/
def IdsIncrease (l : Ledger) : Prop := l.rows.Pairwise fun a b => a.id < b.id

theorem IdsIncrease.ids_nodup {l : Ledger} (h : l.IdsIncrease) : (l.rows.map (·.id)).Nodup :=
  List.pairwise_map.mpr (h.imp fun hlt => Int.ne_of_lt hlt)

theorem eq_of_id_eq {l : Ledger} (h : l.IdsIncrease) {r q : Row} (hr : r ∈ l.rows)
    (hq : q ∈ l.rows) (hid : r.id = q.id) : r = q :=
  List.inj_on_of_nodup_map h.ids_nodup hr hq hid

theorem mem_of_row? {l : Ledger} {id : Int} {r : Row} (h : l.row? id = some r) :
    r ∈ l.rows ∧ r.id = id :=
  ⟨List.mem_of_find?_eq_some h, by simpa using List.find?_some h⟩

theorem row?_eq_none {l : Ledger} {id : Int} (h : l.row? id = none) :
    ∀ r ∈ l.rows, r.id ≠ id := by
  intro r hr
  simpa using List.find?_eq_none.mp h r hr

theorem row?_of_mem {l : Ledger} (h : l.IdsIncrease) {r : Row} (hr : r ∈ l.rows) :
    l.row? r.id = some r := by
  cases hfind : l.row? r.id with
  | none => exact absurd rfl (row?_eq_none hfind r hr)
  | some q =>
    obtain ⟨hq, hid⟩ := mem_of_row? hfind
    rw [eq_of_id_eq h hq hr hid]

/-- One row at most is counted under an identifier. -/
theorem countP_id_le {l : Ledger} (h : l.IdsIncrease) (id : Int) (p : Row → Bool) :
    l.rows.countP (fun r => r.id == id && p r) ≤ if (l.row? id).any p then 1 else 0 := by
  split
  · have hone : l.rows.countP (fun r => r.id == id) ≤ 1 := by
      have hcount := List.nodup_iff_count_le_one.mp h.ids_nodup id
      rwa [List.count_eq_countP, List.countP_map] at hcount
    refine Nat.le_trans (List.countP_mono_left fun r _ hr => ?_) hone
    exact (Bool.and_eq_true_iff.mp hr).1
  · next hnone =>
    refine Nat.le_of_eq (List.countP_eq_zero.mpr fun r hr hcounted => hnone ?_)
    obtain ⟨hid, hp⟩ := Bool.and_eq_true_iff.mp hcounted
    rw [← beq_iff_eq.mp hid, row?_of_mem h hr]
    exact hp

def newRow (l : Ledger) (now hearing : Int) (eventType : EventType)
    (message deployment : String) : Row :=
  { id := l.lastId + 1, hearing, eventType := eventType.name, version := l.nextVersion hearing,
    message, status := Status.pending.name, submitted := now, lastTried := none,
    retryCount := 0, incident := false, deployment := some deployment }

def added (l : Ledger) (now : Int) : StoreCall → List Row
  | .create hearing eventType message deployment =>
    if Bounds.maxInt64 ≤ l.lastId then []
    else [l.newRow now hearing eventType message deployment]
  | _ => []

/-- What a call adds is the new row of a creation. -/
theorem exists_newRow_of_added {l : Ledger} {now : Int} {c : StoreCall} {q : Row}
    (h : q ∈ l.added now c) : ∃ hearing eventType message deployment,
      c = .create hearing eventType message deployment ∧
        q = l.newRow now hearing eventType message deployment := by
  cases c with
  | create hearing eventType message deployment =>
    simp only [added] at h
    split at h
    · cases h
    · exact ⟨hearing, eventType, message, deployment, rfl, List.mem_singleton.mp h⟩
  | _ => cases h

/-- A row that has been reported as overdue. -/
def flag (deployment : String) (r : Row) : Row :=
  { r with incident := true, deployment := some deployment }

/-- A row that was stuck in progress and waits again. -/
def reclaim (deployment : String) (r : Row) : Row :=
  { r with status := Status.pending.name, retryCount := r.retryCount + 1,
           deployment := some deployment }

@[simp] theorem is_flag (deployment : String) (r : Row) (t : Status) :
    (flag deployment r).is t = r.is t := rfl

@[simp] theorem is_reclaim (deployment : String) (r : Row) (t : Status) :
    (reclaim deployment r).is t = decide (.pending = t) := Row.is_of_status rfl t

/-- What a call makes of a row. A deleted row becomes nothing. -/
def rowAfter (l : Ledger) (now : Int) : StoreCall → Row → Option Row
  | .claim wait deployment, r =>
    some (r.changeIf (fun r => l.oldestEligible? now wait == some r) (begin now deployment))
  | .markProcessing id deployment, r =>
    some (r.changeIf (fun r => r.id == id && (r.is .pending && !l.isBlocked r))
      (begin now deployment))
  | .markCompleted id deployment, r =>
    some (r.changeIf (fun r => r.id == id && r.is .processing) (finish .completed now deployment))
  | .markException id deployment, r =>
    some (r.changeIf (fun r => r.id == id && r.is .processing) (finish .exception now deployment))
  | .markPendingWithRetry id deployment, r =>
    some (r.changeIf (fun r => r.id == id && r.is .processing) (retry now deployment))
  | .requeueException id deployment, r =>
    some (r.changeIf (fun r => r.id == id && r.is .exception) (requeue deployment))
  | .markForEscalation threshold deployment, r =>
    some (r.changeIf (needsEscalation now threshold) (flag deployment))
  | .deleteCompleted threshold, r => if isPastRetention now threshold r then none else some r
  | .reclaimStuck timeout deployment, r =>
    some (r.changeIf (isStuck now timeout) (reclaim deployment))
  | .create .., r | .rowsOfHearing _, r | .escalationCandidates _, r => some r

inductive Passage (l : Ledger) (now : Int) : StoreCall → Row → Row → Prop
  | stays (c : StoreCall) (r : Row) : Passage l now c r r
  | claimed (wait : Time.Span) (deployment : String) (r : Row)
      (h : l.oldestEligible? now wait = some r) :
      Passage l now (.claim wait deployment) r (begin now deployment r)
  | taken (deployment : String) (r : Row) (hp : r.is .pending = true)
      (hb : l.isBlocked r = false) :
      Passage l now (.markProcessing r.id deployment) r (begin now deployment r)
  | completed (deployment : String) (r : Row) (h : r.is .processing = true) :
      Passage l now (.markCompleted r.id deployment) r (finish .completed now deployment r)
  | givenUp (deployment : String) (r : Row) (h : r.is .processing = true) :
      Passage l now (.markException r.id deployment) r (finish .exception now deployment r)
  | retried (deployment : String) (r : Row) (h : r.is .processing = true) :
      Passage l now (.markPendingWithRetry r.id deployment) r (retry now deployment r)
  | requeued (deployment : String) (r : Row) (h : r.is .exception = true) :
      Passage l now (.requeueException r.id deployment) r (requeue deployment r)
  | flagged (threshold : Time.Span) (deployment : String) (r : Row)
      (h : needsEscalation now threshold r = true) :
      Passage l now (.markForEscalation threshold deployment) r (flag deployment r)
  | reclaimed (timeout : Time.Span) (deployment : String) (r : Row)
      (h : isStuck now timeout r = true) :
      Passage l now (.reclaimStuck timeout deployment) r (reclaim deployment r)

/-- Every row that is not deleted passes through a step. -/
theorem passage_of_rowAfter {l : Ledger} {now : Int} {c : StoreCall} {r q : Row}
    (h : l.rowAfter now c r = some q) : Passage l now c r q := by
  have aux : ∀ {applies : Row → Bool} {f : Row → Row}, r.changeIf applies f = q →
      (applies r = true → Passage l now c r (f r)) → Passage l now c r q := by
    intro applies f hq hchange
    rcases Row.changeIf_cases applies f r with ⟨ha, he⟩ | ⟨ha, he⟩
    · exact (he.symm.trans hq) ▸ hchange ha
    · exact (he.symm.trans hq) ▸ .stays c r
  cases c with
  | create hearing eventType message deployment => exact Option.some.inj h ▸ .stays _ r
  | rowsOfHearing hearing => exact Option.some.inj h ▸ .stays _ r
  | escalationCandidates threshold => exact Option.some.inj h ▸ .stays _ r
  | claim wait deployment =>
    exact aux (Option.some.inj h) fun ha => .claimed wait deployment r (by simpa using ha)
  | markProcessing id deployment =>
    refine aux (Option.some.inj h) fun ha => ?_
    simp only [Bool.and_eq_true, beq_iff_eq, Bool.not_eq_true'] at ha
    obtain ⟨rfl, hp, hb⟩ := ha
    exact .taken deployment r hp hb
  | markCompleted id deployment =>
    refine aux (Option.some.inj h) fun ha => ?_
    simp only [Bool.and_eq_true, beq_iff_eq] at ha
    obtain ⟨rfl, hp⟩ := ha
    exact .completed deployment r hp
  | markException id deployment =>
    refine aux (Option.some.inj h) fun ha => ?_
    simp only [Bool.and_eq_true, beq_iff_eq] at ha
    obtain ⟨rfl, hp⟩ := ha
    exact .givenUp deployment r hp
  | markPendingWithRetry id deployment =>
    refine aux (Option.some.inj h) fun ha => ?_
    simp only [Bool.and_eq_true, beq_iff_eq] at ha
    obtain ⟨rfl, hp⟩ := ha
    exact .retried deployment r hp
  | requeueException id deployment =>
    refine aux (Option.some.inj h) fun ha => ?_
    simp only [Bool.and_eq_true, beq_iff_eq] at ha
    obtain ⟨rfl, he⟩ := ha
    exact .requeued deployment r he
  | markForEscalation threshold deployment =>
    exact aux (Option.some.inj h) fun ha => .flagged threshold deployment r ha
  | deleteCompleted threshold =>
    simp only [rowAfter] at h
    split at h
    · cases h
    · exact Option.some.inj h ▸ .stays _ r
  | reclaimStuck timeout deployment =>
    exact aux (Option.some.inj h) fun ha => .reclaimed timeout deployment r ha

theorem Passage.sameEvent {l : Ledger} {now : Int} {c : StoreCall} {r q : Row}
    (h : Passage l now c r q) : r.SameEvent q := by
  cases h <;> exact ⟨rfl, rfl, rfl, rfl, rfl, rfl⟩

/-- A row is completed by one call only, which names it. -/
theorem Passage.of_completed {l : Ledger} {now : Int} {c : StoreCall} {r q : Row}
    (h : Passage l now c r q) (hq : q.is .completed = true) :
    r.is .completed = true ∨
      (r.is .processing = true ∧ ∃ deployment, c = .markCompleted r.id deployment) := by
  cases h with
  | stays => exact Or.inl hq
  | completed deployment r hp => exact Or.inr ⟨hp, deployment, rfl⟩
  | flagged => exact Or.inl (by simpa using hq)
  | claimed => simp at hq
  | taken => simp at hq
  | givenUp => simp at hq
  | retried => simp at hq
  | requeued => simp at hq
  | reclaimed => simp at hq

/-- Nothing moves a completed row. -/
theorem Passage.keeps_completed {l : Ledger} {now : Int} {c : StoreCall} {r q : Row}
    (h : Passage l now c r q) (hr : r.is .completed = true) : q.is .completed = true := by
  have hother : ∀ {s : Status}, r.is s = true → s = .completed := fun hs => Row.status_unique hs hr
  cases h with
  | stays => exact hr
  | completed => simp
  | flagged => simpa using hr
  | claimed wait deployment r h =>
    cases hother (pending_of_isEligible (mem_of_oldestEligible? h).2).1
  | taken deployment r hp => cases hother hp
  | givenUp deployment r hp => cases hother hp
  | retried deployment r hp => cases hother hp
  | requeued deployment r he => cases hother he
  | reclaimed timeout deployment r hs =>
    simp only [isStuck, Bool.and_eq_true] at hs
    cases hother hs.1

/-- One call deletes rows, and only those past their retention. -/
theorem pastRetention_of_rowAfter_eq_none {l : Ledger} {now : Int} {c : StoreCall} {r : Row}
    (h : l.rowAfter now c r = none) :
    ∃ threshold, c = .deleteCompleted threshold ∧ isPastRetention now threshold r = true := by
  cases c with
  | deleteCompleted threshold =>
    simp only [rowAfter] at h
    split at h
    · next hpast => exact ⟨threshold, rfl, hpast⟩
    · cases h
  | _ => cases h

/-- Only completed rows are deleted. -/
theorem completed_of_rowAfter_eq_none {l : Ledger} {now : Int} {c : StoreCall} {r : Row}
    (h : l.rowAfter now c r = none) : r.is .completed = true := by
  obtain ⟨threshold, _, hpast⟩ := pastRetention_of_rowAfter_eq_none h
  exact (Bool.and_eq_true_iff.mp hpast).1

/-- Putting a changed row in its place changes that row alone. -/
theorem replace_rows {l : Ledger} (h : l.IdsIncrease) {r : Row} (hr : r ∈ l.rows)
    (f : Row → Row) (hid : (f r).id = r.id) :
    (l.replace (f r)).rows = l.rows.map (Row.changeIf (· == r) f) := by
  refine List.map_congr_left fun q hq => ?_
  by_cases hqr : q = r
  · subst q
    simp [Row.changeIf, hid]
  · have hne : q.id ≠ r.id := fun he => hqr (eq_of_id_eq h hq hr he)
    simp [Row.changeIf, hid, hqr, hne]

/-- A conditional change applies to the row with the identifier, if that row
fits, and to no other. -/
theorem changeUnindexed_rows {l : Ledger} (h : l.IdsIncrease) (id : Int) (applies : Row → Bool)
    (f : Row → Row) (hid : ∀ r, (f r).id = r.id) :
    (l.changeUnindexed id applies f).1.rows =
      l.rows.map (Row.changeIf (fun r => r.id == id && applies r) f) := by
  unfold changeUnindexed
  cases hrow : l.row? id with
  | none =>
    have hnone := row?_eq_none hrow
    exact (Row.map_changeIf_eq_self fun r hr => by simp [hnone r hr]).symm
  | some r =>
    obtain ⟨hr, rfl⟩ := mem_of_row? hrow
    by_cases ha : applies r = true
    · simp only [ha, if_true]
      rw [replace_rows h hr f (hid r)]
      refine List.map_congr_left fun q hq => ?_
      by_cases hqr : q = r
      · subst q
        simp [Row.changeIf, ha]
      · have hne : q.id ≠ r.id := fun he => hqr (eq_of_id_eq h hq hr he)
        simp [Row.changeIf, hqr, hne]
    · simp only [ha, Bool.false_eq_true, if_false]
      refine (Row.map_changeIf_eq_self fun q hq => ?_).symm
      by_cases hqr : q.id = r.id
      · obtain rfl : q = r := eq_of_id_eq h hq hr hqr
        simp [ha]
      · simp [hqr]

theorem claimUnindexed_rows {l : Ledger} (h : l.IdsIncrease) (now : Int) (wait : Time.Span)
    (deployment : String) :
    (l.claimUnindexed now wait deployment).1.rows =
      l.rows.map (Row.changeIf (fun r => l.oldestEligible? now wait == some r)
        (begin now deployment)) := by
  unfold claimUnindexed
  cases holdest : l.oldestEligible? now wait with
  | none => exact (Row.map_changeIf_eq_self fun r _ => by simp).symm
  | some r =>
    dsimp only
    rw [replace_rows h (mem_of_oldestEligible? holdest).1 _ rfl]
    refine List.map_congr_left fun q _ => ?_
    by_cases hqr : q = r
    · simp [Row.changeIf, hqr]
    · simp [Row.changeIf, hqr, Ne.symm hqr]

private theorem rows_of_map {l : Ledger} {now : Int} {c : StoreCall} {rows : List Row}
    {g : Row → Row} (hg : ∀ r, l.rowAfter now c r = some (g r)) (hadded : l.added now c = [])
    (hrows : rows = l.rows.map g) :
    rows = l.rows.filterMap (l.rowAfter now c) ++ l.added now c := by
  rw [hrows, hadded, List.append_nil, funext hg, List.filterMap_eq_map']

/-- A step of the ledger, row by row. -/
theorem step_rows {l : Ledger} (h : l.IdsIncrease) (now : Int) (c : StoreCall) :
    (l.step now c).1.rows = l.rows.filterMap (l.rowAfter now c) ++ l.added now c := by
  rw [step_eq_stepUnindexed]
  cases c with
  | create hearing eventType message deployment =>
    have hsame : l.rows.filterMap
        (l.rowAfter now (.create hearing eventType message deployment)) = l.rows :=
      List.filterMap_some
    rw [hsame]
    simp only [stepUnindexed, create, added]
    split <;> simp [newRow]
  | claim wait deployment =>
    exact rows_of_map (fun r => rfl) rfl (claimUnindexed_rows h now wait deployment)
  | markProcessing id deployment =>
    exact rows_of_map (fun r => rfl) rfl (changeUnindexed_rows h id _ _ fun r => rfl)
  | markCompleted id deployment =>
    exact rows_of_map (fun r => rfl) rfl (changeUnindexed_rows h id _ _ fun r => rfl)
  | markException id deployment =>
    exact rows_of_map (fun r => rfl) rfl (changeUnindexed_rows h id _ _ fun r => rfl)
  | markPendingWithRetry id deployment =>
    exact rows_of_map (fun r => rfl) rfl (changeUnindexed_rows h id _ _ fun r => rfl)
  | requeueException id deployment =>
    exact rows_of_map (fun r => rfl) rfl (changeUnindexed_rows h id _ _ fun r => rfl)
  | rowsOfHearing hearing => exact rows_of_map (fun r => rfl) rfl (List.map_id _).symm
  | escalationCandidates threshold =>
    exact rows_of_map (fun r => rfl) rfl (List.map_id _).symm
  | markForEscalation threshold deployment => exact rows_of_map (fun r => rfl) rfl rfl
  | deleteCompleted threshold =>
    simp only [stepUnindexed, StoreCall.succeed, deleteCompleted, added, List.append_nil]
    rw [← List.filterMap_eq_filter]
    refine List.filterMap_congr fun r _ => ?_
    simp only [rowAfter, Option.guard]
    by_cases hpast : isPastRetention now threshold r = true <;> simp [hpast]
  | reclaimStuck timeout deployment => exact rows_of_map (fun r => rfl) rfl rfl

theorem changeUnindexed_lastId (l : Ledger) (id : Int) (applies : Row → Bool) (f : Row → Row) :
    (l.changeUnindexed id applies f).1.lastId = l.lastId := by
  unfold changeUnindexed
  cases l.row? id with
  | none => rfl
  | some r => by_cases ha : applies r = true <;> simp [ha, replace]

theorem step_lastId (l : Ledger) (now : Int) (c : StoreCall) :
    (l.step now c).1.lastId = l.lastId + (l.added now c).length := by
  rw [step_eq_stepUnindexed]
  cases c with
  | create hearing eventType message deployment =>
    simp only [stepUnindexed, create, added]
    split <;> simp
  | claim wait deployment =>
    refine Eq.trans ?_ (Int.add_zero _).symm
    simp only [stepUnindexed, claimUnindexed]
    cases l.oldestEligible? now wait <;> rfl
  | markProcessing id deployment =>
    exact (changeUnindexed_lastId l id _ _).trans (Int.add_zero _).symm
  | markCompleted id deployment =>
    exact (changeUnindexed_lastId l id _ _).trans (Int.add_zero _).symm
  | markException id deployment =>
    exact (changeUnindexed_lastId l id _ _).trans (Int.add_zero _).symm
  | markPendingWithRetry id deployment =>
    exact (changeUnindexed_lastId l id _ _).trans (Int.add_zero _).symm
  | requeueException id deployment =>
    exact (changeUnindexed_lastId l id _ _).trans (Int.add_zero _).symm
  | rowsOfHearing hearing => exact (Int.add_zero _).symm
  | escalationCandidates threshold => exact (Int.add_zero _).symm
  | markForEscalation threshold deployment => exact (Int.add_zero _).symm
  | deleteCompleted threshold => exact (Int.add_zero _).symm
  | reclaimStuck timeout deployment => exact (Int.add_zero _).symm

/-- The rows after a step: those that passed through it, and those it added. -/
theorem mem_step_rows {l : Ledger} (h : l.IdsIncrease) {now : Int} {c : StoreCall} {q : Row} :
    q ∈ (l.step now c).1.rows ↔
      (∃ r ∈ l.rows, l.rowAfter now c r = some q) ∨ q ∈ l.added now c := by
  rw [step_rows h, List.mem_append, List.mem_filterMap]

theorem mem_step_of_rowAfter {l : Ledger} (h : l.IdsIncrease) {now : Int} {c : StoreCall}
    {r q : Row} (hr : r ∈ l.rows) (hq : l.rowAfter now c r = some q) : q ∈ (l.step now c).1.rows :=
  (mem_step_rows h).mpr (Or.inl ⟨r, hr, hq⟩)

/-- A row goes through a step unless it is completed. -/
theorem step_kept {l : Ledger} (h : l.IdsIncrease) (now : Int) (c : StoreCall) {r : Row}
    (hr : r ∈ l.rows) :
    r.is .completed = true ∨ ∃ q ∈ (l.step now c).1.rows, r.SameEvent q := by
  cases hpass : l.rowAfter now c r with
  | none => exact Or.inl (completed_of_rowAfter_eq_none hpass)
  | some q =>
    have hsame := (passage_of_rowAfter hpass).sameEvent
    exact Or.inr ⟨q, mem_step_of_rowAfter h hr hpass, hsame⟩

/-- A count into which no row passes grows by the added rows only. -/
theorem countP_step_le_of_passage {l : Ledger} (h : l.IdsIncrease) (now : Int) (c : StoreCall)
    {p : Row → Bool} (hp : ∀ r q, Passage l now c r q → p q = true → p r = true) :
    (l.step now c).1.rows.countP p ≤ l.rows.countP p + (l.added now c).countP p := by
  rw [step_rows h, List.countP_append, List.countP_filterMap]
  refine Nat.add_le_add_right (List.countP_mono_left fun r _ hr => ?_) _
  cases hpass : l.rowAfter now c r with
  | none => simp [hpass] at hr
  | some q =>
    have hq : p q = true := by simpa [hpass] using hr
    exact hp r q (passage_of_rowAfter hpass) hq

/-- A count of rows by what a step never changes grows by the added rows only. -/
theorem countP_step_le {l : Ledger} (h : l.IdsIncrease) (now : Int) (c : StoreCall)
    {p : Row → Bool} (hp : ∀ r q, Row.SameEvent r q → p q = p r) :
    (l.step now c).1.rows.countP p ≤ l.rows.countP p + (l.added now c).countP p := by
  refine countP_step_le_of_passage h now c fun r q hpass hq => ?_
  rw [← hp r q hpass.sameEvent]
  exact hq

/-- A count grows strictly when one member is counted only by the second rule. -/
theorem countP_lt_countP {α : Type} {p q : α → Bool} {xs : List α}
    (hle : ∀ x ∈ xs, p x = true → q x = true) {x : α} (hx : x ∈ xs) (hp : p x = false)
    (hq : q x = true) : xs.countP p < xs.countP q := by
  obtain ⟨before, after, rfl⟩ := List.append_of_mem hx
  have hbefore : before.countP p ≤ before.countP q :=
    List.countP_mono_left fun y hy => hle y (by simp [hy])
  have hafter : after.countP p ≤ after.countP q :=
    List.countP_mono_left fun y hy => hle y (by simp [hy])
  simp only [List.countP_append, List.countP_cons, hp, hq, Bool.false_eq_true, if_false, if_true]
  omega

/-- A count into which no row passes shrinks when a row passes out of it. -/
theorem countP_step_lt_of_passage {l : Ledger} (h : l.IdsIncrease) {now : Int} {c : StoreCall}
    (hadded : l.added now c = []) {p : Row → Bool}
    (hp : ∀ r q, Passage l now c r q → p q = true → p r = true) {r q : Row} (hr : r ∈ l.rows)
    (hpass : l.rowAfter now c r = some q) (hbefore : p r = true) (hafter : p q = false) :
    (l.step now c).1.rows.countP p < l.rows.countP p := by
  rw [step_rows h, hadded, List.append_nil, List.countP_filterMap]
  refine countP_lt_countP (fun t _ ht => ?_) hr (by simp [hpass, hafter]) hbefore
  cases hpassed : l.rowAfter now c t with
  | none => simp [hpassed] at ht
  | some u => exact hp t u (passage_of_rowAfter hpassed) (by simpa [hpassed] using ht)

/-- Rows that a call lets pass into a count make it grow, strictly when one comes new into it. -/
theorem le_countP_step {l : Ledger} (h : l.IdsIncrease) {now : Int} {c : StoreCall}
    {p : Row → Bool}
    (hkeeps : ∀ r ∈ l.rows, p r = true → ∃ q, l.rowAfter now c r = some q ∧ p q = true) :
    l.rows.countP p ≤ (l.step now c).1.rows.countP p ∧
      ∀ r ∈ l.rows, p r = false → ∀ q, l.rowAfter now c r = some q → p q = true →
        l.rows.countP p < (l.step now c).1.rows.countP p := by
  have hpasses : ∀ r ∈ l.rows, p r = true → ((l.rowAfter now c r).map p).getD false = true := by
    intro r hr hp
    obtain ⟨q, hpass, hq⟩ := hkeeps r hr hp
    simp [hpass, hq]
  rw [step_rows h, List.countP_append, List.countP_filterMap]
  refine ⟨Nat.le_add_right_of_le (List.countP_mono_left hpasses), ?_⟩
  intro r hr hp q hpass hq
  exact Nat.lt_add_right _ (countP_lt_countP hpasses hr hp (by simp [hpass, hq]))

def marks (id : Int) : StoreCall → Bool
  | .markProcessing i _ | .markCompleted i _ | .markException i _ => i == id
  | .markPendingWithRetry i _ | .requeueException i _ => i == id
  | _ => false

theorem rowAfter_of_marks {l : Ledger} {now id : Int} {c : StoreCall} (hc : marks id c = true)
    {r : Row} (hr : r.id ≠ id) : l.rowAfter now c r = some r := by
  cases c with
  | markProcessing i | markCompleted i | markException i | markPendingWithRetry i
  | requeueException i =>
    obtain rfl : i = id := by simpa [marks] using hc
    simp [rowAfter, Row.changeIf, hr]
  | _ => cases hc

theorem added_of_marks {l : Ledger} {now id : Int} {c : StoreCall} (hc : marks id c = true) :
    l.added now c = [] := by
  cases c with
  | create => cases hc
  | _ => rfl

section Recording

variable {l : Ledger} {now : Int} {r : Row} {deployment : String}
  (hprocessing : r.is .processing = true)

include hprocessing

theorem rowAfter_markCompleted : l.rowAfter now (.markCompleted r.id deployment) r =
    some (finish .completed now deployment r) := by
  simp [rowAfter, Row.changeIf, hprocessing]

theorem rowAfter_markException : l.rowAfter now (.markException r.id deployment) r =
    some (finish .exception now deployment r) := by
  simp [rowAfter, Row.changeIf, hprocessing]

theorem rowAfter_markPendingWithRetry : l.rowAfter now (.markPendingWithRetry r.id deployment) r =
    some (retry now deployment r) := by
  simp [rowAfter, Row.changeIf, hprocessing]

end Recording

/-- A call that concerns one row leaves all others as they are. -/
theorem filter_step_rows {l : Ledger} (h : l.IdsIncrease) {now id : Int} {c : StoreCall}
    (hkeeps : ∀ r ∈ l.rows, r.id ≠ id → l.rowAfter now c r = some r)
    (hadded : ∀ q ∈ l.added now c, q.id = id) :
    (l.step now c).1.rows.filter (·.id != id) = l.rows.filter (·.id != id) := by
  have hnew : (l.added now c).filter (·.id != id) = [] := by
    rw [List.filter_eq_nil_iff]
    intro q hq
    simp [hadded q hq]
  rw [step_rows h, List.filter_append, hnew, List.append_nil, List.filter_filterMap,
    ← List.filterMap_eq_filter]
  refine List.filterMap_congr fun r hr => ?_
  by_cases hid : r.id = id
  · cases hpass : l.rowAfter now c r with
    | none => simp [Option.guard, hid]
    | some q =>
      have hsame : q.id = id := (passage_of_rowAfter hpass).sameEvent.id.trans hid
      simp [Option.guard, hid, hsame]
  · simp [Option.guard, hid, hkeeps r hr hid]

theorem filter_step_rows_of_marks {l : Ledger} (h : l.IdsIncrease) {now id : Int} {c : StoreCall}
    (hc : marks id c = true) :
    (l.step now c).1.rows.filter (·.id != id) = l.rows.filter (·.id != id) := by
  refine filter_step_rows h (fun r _ hr => rowAfter_of_marks hc hr) ?_
  rw [added_of_marks hc]
  simp

/-- When one row has changed and is not in progress, no row has come into progress. -/
theorem mem_of_processing {l l' : Ledger} (hinc : l'.IdsIncrease) {row : Row}
    (hothers : l'.rows.filter (·.id != row.id) = l.rows.filter (·.id != row.id))
    (hrow : row ∈ l'.rows) (hrest : row.is .processing = false) :
    ∀ q ∈ l'.rows, q.is .processing = true → q ∈ l.rows := by
  intro q hq hprocessing
  by_cases hid : q.id = row.id
  · rw [eq_of_id_eq hinc hq hrow hid, hrest] at hprocessing
    cases hprocessing
  · have hmem : q ∈ l'.rows.filter (·.id != row.id) := by simp [hq, hid]
    rw [hothers] at hmem
    exact (List.mem_filter.mp hmem).1

/-- A pending row is taken unless something of its hearing is in its way. -/
theorem markProcessing_answer {l : Ledger} (h : l.IdsIncrease) {r : Row} (hr : r ∈ l.rows)
    (hp : r.is .pending = true) (now : Int) (deployment : String) :
    (l.step now (.markProcessing r.id deployment)).2 = .ok (!l.isBlocked r) := by
  rw [step_eq_stepUnindexed]
  simp only [stepUnindexed, StoreCall.succeed, changeUnindexed, row?_of_mem h hr, hp,
    Bool.true_and]
  cases l.isBlocked r <;> rfl

/-- A claim begins the oldest row that may be taken. -/
theorem rowAfter_claim {l : Ledger} {now : Int} {wait : Time.Span} {r : Row}
    (h : l.oldestEligible? now wait = some r) (deployment : String) :
    l.rowAfter now (.claim wait deployment) r = some (begin now deployment r) := by
  simp [rowAfter, Row.changeIf, h]

/-- A claim that answers with a request has taken a pending row. -/
theorem row_of_claim {l : Ledger} {now : Int} {wait : Time.Span} {deployment : String}
    {r : PendingRequest}
    (hanswer : (l.step now (.claim wait deployment)).2 = .ok (some r)) :
    ∃ row ∈ l.rows, row.is .pending = true ∧
      l.rowAfter now (.claim wait deployment) row = some (begin now deployment row) ∧
      (begin now deployment row).read = .ok r := by
  rw [step_eq_stepUnindexed] at hanswer
  simp only [stepUnindexed, claimUnindexed] at hanswer
  cases holdest : l.oldestEligible? now wait with
  | none =>
    rw [holdest] at hanswer
    cases hanswer
  | some row =>
    rw [holdest] at hanswer
    obtain ⟨hrow, heligible⟩ := mem_of_oldestEligible? holdest
    refine ⟨row, hrow, (pending_of_isEligible heligible).1, rowAfter_claim holdest deployment, ?_⟩
    dsimp only at hanswer
    cases hread : (begin now deployment row).read with
    | error e =>
      rw [hread] at hanswer
      cases hanswer
    | ok r' =>
      rw [hread] at hanswer
      obtain rfl : r' = r := Option.some.inj (Except.ok.inj hanswer)
      rfl

/-- A mark that answers with true has taken a pending row. -/
theorem row_of_markProcessing {l : Ledger} {now id : Int} {deployment : String}
    (hanswer : (l.step now (.markProcessing id deployment)).2 = .ok true) :
    ∃ row ∈ l.rows, row.id = id ∧ row.is .pending = true ∧
      l.rowAfter now (.markProcessing id deployment) row = some (begin now deployment row) := by
  rw [step_eq_stepUnindexed] at hanswer
  simp only [stepUnindexed, StoreCall.succeed, changeUnindexed] at hanswer
  cases hrow : l.row? id with
  | none =>
    rw [hrow] at hanswer
    cases hanswer
  | some row =>
    rw [hrow] at hanswer
    obtain ⟨hmem, rfl⟩ := mem_of_row? hrow
    by_cases hfree : (row.is .pending && !l.isBlocked row) = true
    · have hpending := (Bool.and_eq_true_iff.mp hfree).1
      exact ⟨row, hmem, rfl, hpending, by simp [rowAfter, Row.changeIf, hfree]⟩
    · simp [hfree] at hanswer

end Ledger

end HearingRelay
