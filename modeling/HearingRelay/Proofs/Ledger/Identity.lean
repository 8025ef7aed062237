import HearingRelay.Proofs.Ledger.Claim
import HearingRelay.Proofs.Ledger.Readable

/-!
Identifiers and versions. The identifiers that calls give out go up over a
history and never come back, whatever is deleted in between. Versions are counted
from the rows that are left, and yet they go up with the identifiers, so the rows
of a hearing are listed in the order of both, and a new row is the last of them.
Whether the list can be read is another question, and decided by the failures
that the rows have counted.
-/

namespace HearingRelay.Ledger

section Issued

variable {l : Ledger}

def newIds (l : Ledger) (now : Int) (c : StoreCall) : List Int :=
  ((l.step now c).1.rows.map (·.id)).filter fun id => !l.rows.any (·.id == id)

def issuedIds : Ledger → List (Int × StoreCall) → List Int
  | _, [] => []
  | l, (now, c) :: rest => l.newIds now c ++ issuedIds (l.step now c).1 rest

theorem newIds_eq (hwf : l.WellFormed) (now : Int) (c : StoreCall) :
    l.newIds now c = (l.added now c).map (·.id) := by
  unfold newIds
  rw [step_rows hwf.ids_increase, List.map_append, List.filter_append]
  have hkept : ((l.rows.filterMap (l.rowAfter now c)).map (·.id)).filter
      (fun id => !l.rows.any (·.id == id)) = [] := by
    refine List.filter_eq_nil_iff.mpr fun id hid => ?_
    obtain ⟨q, hq, rfl⟩ := List.mem_map.mp hid
    obtain ⟨r, hr, hpass⟩ := List.mem_filterMap.mp hq
    have hsame : r.id = q.id := (passage_of_rowAfter hpass).sameEvent.id.symm
    have hany : l.rows.any (·.id == q.id) = true := List.any_eq_true.mpr ⟨r, hr, by simp [hsame]⟩
    simp [hany]
  have hnew : ((l.added now c).map (·.id)).filter (fun id => !l.rows.any (·.id == id)) =
      (l.added now c).map (·.id) := by
    refine List.filter_eq_self.mpr fun id hid => ?_
    obtain ⟨q, hq, rfl⟩ := List.mem_map.mp hid
    have habove := (added_spec hq).1
    rw [Bool.not_eq_true', List.any_eq_false]
    intro r hr hsame
    have hle := hwf.id_le r hr
    have hequal : r.id = q.id := by simpa using hsame
    omega
  rw [hkept, hnew, List.nil_append]

/-- What a call gives out is the identifier behind the last one. -/
theorem newIds_spec (hwf : l.WellFormed) {now : Int} {c : StoreCall} {id : Int}
    (h : id ∈ l.newIds now c) :
    id = l.lastId + 1 ∧ l.newIds now c = [id] ∧ (l.step now c).1.lastId = id := by
  rw [newIds_eq hwf] at h ⊢
  obtain ⟨q, hq, rfl⟩ := List.mem_map.mp h
  obtain ⟨hid, -, hone⟩ := added_spec hq
  refine ⟨hid, by rw [hone]; rfl, ?_⟩
  rw [step_lastId, hone, List.length_singleton]
  exact hid.symm

theorem lastId_le_step (l : Ledger) (now : Int) (c : StoreCall) :
    l.lastId ≤ (l.step now c).1.lastId := by
  rw [step_lastId]
  omega

/-- What is given out lies between the last identifiers before and after. -/
theorem issuedIds_bounds (hwf : l.WellFormed) (history : List (Int × StoreCall)) :
    l.lastId ≤ (l.after history).lastId ∧
      ∀ id ∈ issuedIds l history, l.lastId < id ∧ id ≤ (l.after history).lastId := by
  induction history generalizing l with
  | nil => exact ⟨Int.le_refl _, by simp [issuedIds]⟩
  | cons call rest ih =>
    obtain ⟨now, c⟩ := call
    obtain ⟨hle, hrest⟩ := ih (step_wellFormed hwf now c)
    have hstep := l.lastId_le_step now c
    refine ⟨Int.le_trans hstep hle, fun id hid => ?_⟩
    change _ ∧ id ≤ ((l.step now c).1.after rest).lastId
    rcases List.mem_append.mp hid with hfirst | hlater
    · obtain ⟨hid, -, hlast⟩ := newIds_spec hwf hfirst
      omega
    · have hbetween := hrest id hlater
      omega

/-- No identifier is given out again. -/
theorem issuedIds_increase (hwf : l.WellFormed) (history : List (Int × StoreCall)) :
    (issuedIds l history).Pairwise (· < ·) := by
  induction history generalizing l with
  | nil => exact .nil
  | cons call rest ih =>
    obtain ⟨now, c⟩ := call
    have hwf' := step_wellFormed hwf now c
    refine List.pairwise_append.mpr ⟨?_, ih hwf', fun id hid id' hid' => ?_⟩
    · cases hnew : l.newIds now c with
      | nil => exact .nil
      | cons id _ =>
        rw [← hnew, (newIds_spec hwf (hnew ▸ List.mem_cons_self)).2.1]
        exact List.pairwise_singleton _ _
    · have hlast := (newIds_spec hwf hid).2.2
      have habove := ((issuedIds_bounds hwf' rest).2 id' hid').1
      omega

/-- Every row has an identifier that was given out. -/
theorem id_mem_issuedIds (hwf : l.WellFormed) (history : List (Int × StoreCall)) :
    ∀ q ∈ (l.after history).rows, (∃ r ∈ l.rows, r.id = q.id) ∨ q.id ∈ issuedIds l history := by
  induction history generalizing l with
  | nil => exact fun q hq => Or.inl ⟨q, hq, rfl⟩
  | cons call rest ih =>
    obtain ⟨now, c⟩ := call
    intro q hq
    rcases ih (step_wellFormed hwf now c) q hq with ⟨p, hp, hid⟩ | hissued
    · rcases (mem_step_rows hwf.ids_increase).mp hp with ⟨r, hr, hpass⟩ | hnew
      · exact Or.inl ⟨r, hr, (passage_of_rowAfter hpass).sameEvent.id.symm.trans hid⟩
      · refine Or.inr (List.mem_append_left _ ?_)
        rw [newIds_eq hwf, ← hid]
        exact List.mem_map_of_mem hnew
    · exact Or.inr (List.mem_append_right _ hissued)

theorem added_length_le (l : Ledger) (now : Int) (c : StoreCall) :
    (l.added now c).length ≤ if c.adds then 1 else 0 := by
  cases c with
  | create hearing eventType message deployment =>
    simp only [added]
    split <;> simp [StoreCall.adds]
  | _ => simp [added]

/-- Identifiers are counted up, one for each creation at most. -/
theorem after_lastId_le (l : Ledger) (history : List (Int × StoreCall)) :
    (l.after history).lastId ≤ l.lastId + history.countP (·.2.adds) := by
  induction history generalizing l with
  | nil => simp [after]
  | cons call rest ih =>
    obtain ⟨now, c⟩ := call
    have hrest := ih (l.step now c).1
    have hlength := l.added_length_le now c
    rw [step_lastId] at hrest
    rw [List.countP_cons]
    change ((l.step now c).1.after rest).lastId ≤ _
    dsimp only
    omega

/-- Fewer than 2³¹ creations do not use up the identifiers. -/
theorem lastId_lt_maxInt64 {history : List (Int × StoreCall)}
    (h : history.countP (·.2.adds) < 2 ^ 31) : (empty.after history).lastId < Bounds.maxInt64 := by
  have hlast := after_lastId_le empty history
  have hzero : empty.lastId = 0 := rfl
  have hmax : Bounds.maxInt64 = 9223372036854775807 := rfl
  omega

end Issued

section Listing

variable {l : Ledger} {hearing : Int}

/-- The rows of a hearing stand in the order of their identifiers and their versions. -/
theorem rowsOf_increase (hwf : l.WellFormed) (hord : l.Ordered) (hearing : Int) :
    (l.rowsOf hearing).Pairwise fun a b => a.id < b.id ∧ a.version < b.version := by
  have hsorted : (l.rowsOf hearing).Pairwise fun a b => a.id < b.id := hwf.ids_increase.filter _
  refine hsorted.imp_of_mem fun {r q} hr hq hlt => ⟨hlt, ?_⟩
  simp only [rowsOf, List.mem_filter, beq_iff_eq] at hr hq
  exact hord.version_lt r hr.1 q hq.1 (hr.2.trans hq.2.symm) hlt

/-- Requests that are listed go up in both, and the last is the latest. -/
theorem listed_in_order (hwf : l.WellFormed) (hord : l.Ordered) {rs : List PendingRequest}
    (h : l.findByHearing hearing = .ok rs) :
    rs.map (·.id) = (l.rowsOf hearing).map (·.id) ∧
      (rs.Pairwise fun a b => a.id < b.id ∧ a.version < b.version) ∧
      l.findLatest hearing = .ok rs.getLast? := by
  unfold findByHearing at h
  have hlast := Row.getLast?_of_readAll h
  rw [byVersion_eq_rowsOf hwf hord] at h
  have hshown : rs.map (fun a => (a.id, a.version)) =
      (l.rowsOf hearing).map (fun r => (r.id, r.version)) :=
    Row.map_of_readAll (fun row r hr =>
      Prod.ext (Row.shows_of_read hr).id (Row.version_of_check (Row.check_of_read hr))) h
  have hids : rs.map (·.id) = (l.rowsOf hearing).map (·.id) :=
    Row.map_of_readAll (fun row r hr => (Row.shows_of_read hr).id) h
  refine ⟨hids, ?_, ?_⟩
  · have hpairs : ((l.rowsOf hearing).map fun r => (r.id, r.version)).Pairwise
        fun a b => a.1 < b.1 ∧ a.2 < b.2 := List.pairwise_map.mpr (rowsOf_increase hwf hord hearing)
    rw [← hshown] at hpairs
    exact List.pairwise_map.mp hpairs
  · unfold findLatest latest? Row.readOptional
    cases hrow : (l.byVersion hearing).getLast? with
    | none =>
      rw [hrow] at hlast
      cases hreq : rs.getLast? with
      | none => rfl
      | some a => rw [hreq] at hlast; cases hlast
    | some row =>
      rw [hrow] at hlast
      cases hreq : rs.getLast? with
      | none => rw [hreq] at hlast; cases hlast
      | some a =>
        rw [hreq] at hlast
        have hread : row.read = .ok a := Option.some.inj hlast
        simp only [hread]
        rfl

/-- The failures decide whether a hearing can be listed, when its versions fit. -/
theorem exists_listing_iff (hlegible : ∀ r ∈ l.rows, r.Legible)
    (hversions : ∀ r ∈ l.rows, Bounds.fitsInt32 r.version = true) :
    (∃ rs, l.findByHearing hearing = .ok rs) ↔
      ∀ r ∈ l.rowsOf hearing, Bounds.fitsInt32 r.retryCount = true := by
  rw [← readable_iff]
  constructor
  · intro hreadable r hr
    obtain ⟨hmem, hhearing⟩ : r ∈ l.rows ∧ r.hearing = hearing := by simpa [rowsOf] using hr
    exact ((hlegible r hmem).exists_read_iff.mp (hreadable r hmem hhearing)).2
  · intro hfits r hr hhearing
    refine (hlegible r hr).exists_read_iff.mpr ⟨hversions r hr, hfits r ?_⟩
    simp [rowsOf, hr, hhearing]

/-- The next version is counted up, one for each creation at most. -/
theorem Counted.nextVersion_le {added freed : Nat} (h : l.Counted added freed) (hearing : Int) :
    1 ≤ l.nextVersion hearing ∧ l.nextVersion hearing ≤ added + 1 := by
  rcases l.nextVersion_cases hearing with hfirst | ⟨r, hr, hnext⟩
  · omega
  · have hversion := h.version r hr
    omega

/-- A new row can be read, when its version fits. -/
theorem Counted.exists_read_newRow {added freed : Nat} (h : l.Counted added freed)
    (hadded : added + 1 < 2 ^ 31) {now : Int} (hnow : Time.Dated now) (hearing : Int)
    (eventType : EventType) (message deployment : String) :
    ∃ a, (l.newRow now hearing eventType message deployment).read = .ok a := by
  have hlegible : (l.newRow now hearing eventType message deployment).Legible :=
    ⟨⟨eventType, rfl⟩, ⟨.pending, rfl⟩, hnow, by simp [newRow]⟩
  have hversion := h.nextVersion_le hearing
  refine hlegible.exists_read_iff.mpr ⟨?_, rfl⟩
  rw [Bounds.fitsInt32_iff]
  change _ ≤ l.nextVersion hearing ∧ l.nextVersion hearing < _
  omega

end Listing

section Creation

variable {l : Ledger} (hleft : l.lastId < Bounds.maxInt64) (now hearing : Int)
  (eventType : EventType) (message deployment : String)

include hleft

/-- A creation adds the new row and answers with it, if an identifier is left. -/
theorem step_create :
    l.step now (.create hearing eventType message deployment) =
      (⟨l.rows ++ [l.newRow now hearing eventType message deployment], l.lastId + 1⟩,
        (l.newRow now hearing eventType message deployment).read) := by
  change l.create now hearing eventType message deployment = _
  rw [create, if_neg (by omega)]
  rfl

/-- A new row is listed behind all others of its hearing. -/
theorem byVersion_create (hwf : l.WellFormed) (hord : l.Ordered) :
    (l.step now (.create hearing eventType message deployment)).1.byVersion hearing =
      l.byVersion hearing ++ [l.newRow now hearing eventType message deployment] := by
  have hwf' := step_wellFormed hwf now (.create hearing eventType message deployment)
  have hord' := step_ordered hwf hord now (.create hearing eventType message deployment)
  rw [byVersion_eq_rowsOf hwf' hord', byVersion_eq_rowsOf hwf hord, step_create hleft]
  unfold rowsOf
  rw [List.filter_append]
  simp [newRow]

/-- The latest row of a hearing is the one that was just created. -/
theorem findLatest_create (hwf : l.WellFormed) (hord : l.Ordered) :
    (l.step now (.create hearing eventType message deployment)).1.findLatest hearing =
      (l.step now (.create hearing eventType message deployment)).2.map some := by
  unfold findLatest latest?
  rw [byVersion_create hleft now hearing eventType message deployment hwf hord,
    List.getLast?_concat, step_create hleft]
  rfl

end Creation

/-- The identity and the order of rows. In every ledger that calls lead to, with
deletions between them or not: identifiers are given out in ascending order and
never again, every row has one of its own, and of two rows of a hearing the one
with the smaller identifier has the smaller version. What is listed of a hearing
is all its rows, in ascending order of both, and the last is the latest. With
fewer than 2³¹ creations and all readings of the clock in range a hearing can be
listed exactly when the failures of its rows fit 32 bits, as they do after fewer
than 2³¹ calls that free rows. A creation adds a row with a new identifier, behind
all others of its hearing, and it is the latest and, whenever they can be listed,
the last of the list. -/
theorem identity_and_order (history : List (Int × StoreCall)) :
    let l := empty.after history
    (issuedIds empty history).Pairwise (· < ·) ∧
    (∀ r ∈ l.rows, r.id ∈ issuedIds empty history) ∧
    (l.rows.Pairwise fun r q => r.id < q.id) ∧
    (∀ r ∈ l.rows, ∀ q ∈ l.rows, r.hearing = q.hearing → r.id < q.id → r.version < q.version) ∧
    (∀ hearing rs, l.findByHearing hearing = .ok rs →
      rs.map (·.id) = (l.rowsOf hearing).map (·.id) ∧
      (rs.Pairwise fun a b => a.id < b.id ∧ a.version < b.version) ∧
      l.findLatest hearing = .ok rs.getLast?) ∧
    ((∀ call ∈ history, Time.Dated call.1) → history.countP (·.2.adds) < 2 ^ 31 → ∀ hearing,
      ((∃ rs, l.findByHearing hearing = .ok rs) ↔
        ∀ r ∈ l.rowsOf hearing, Bounds.fitsInt32 r.retryCount = true) ∧
      (history.countP (·.2.frees) < 2 ^ 31 → ∃ rs, l.findByHearing hearing = .ok rs)) ∧
    (history.countP (·.2.adds) + 1 < 2 ^ 31 → ∀ now hearing eventType message deployment,
      let created := l.step now (.create hearing eventType message deployment)
      ∃ r, created.1.rows = l.rows ++ [r] ∧ (∀ id ∈ issuedIds empty history, id < r.id) ∧
        created.1.byVersion hearing = l.byVersion hearing ++ [r] ∧
        (Time.Dated now → ∃ a, created.2 = .ok a ∧ a.id = r.id ∧
          created.1.findLatest hearing = .ok (some a) ∧
          ∀ rs, created.1.findByHearing hearing = .ok rs → rs.getLast? = some a)) := by
  intro l
  have hwf : l.WellFormed := after_wellFormed empty_wellFormed history
  have hord : l.Ordered := after_ordered empty_wellFormed empty_ordered history
  have hcounted := after_counted empty_wellFormed empty_counted history
  rw [Nat.zero_add, Nat.zero_add] at hcounted
  refine ⟨issuedIds_increase empty_wellFormed history, fun r hr => ?_, hwf.ids_increase,
    hord.version_lt, fun hearing rs => listed_in_order hwf hord,
    fun hdated hadded hearing => ?_, fun hadded now hearing eventType message deployment => ?_⟩
  · rcases id_mem_issuedIds empty_wellFormed history r hr with ⟨_, hnone, -⟩ | hissued
    · cases hnone
    · exact hissued
  · have hlegible : ∀ r ∈ l.rows, r.Legible :=
      after_legible empty_wellFormed (by simp [empty]) hdated
    have hlisting : (∃ rs, l.findByHearing hearing = .ok rs) ↔
        ∀ r ∈ l.rowsOf hearing, Bounds.fitsInt32 r.retryCount = true := by
      refine exists_listing_iff hlegible fun r hr => ?_
      have hversion := hcounted.version r hr
      rw [Bounds.fitsInt32_iff]
      omega
    refine ⟨hlisting, fun hfreed => hlisting.mpr fun r hr => ?_⟩
    exact (hcounted.fits hadded hfreed (List.mem_filter.mp hr).1).2
  · have hleft : l.lastId < Bounds.maxInt64 := lastId_lt_maxInt64 (by omega)
    intro created
    have hcreate := step_create hleft now hearing eventType message deployment
    refine ⟨l.newRow now hearing eventType message deployment,
      congrArg (·.1.rows) hcreate, fun id hid => ?_,
      byVersion_create hleft now hearing eventType message deployment hwf hord, fun hnow => ?_⟩
    · exact Int.lt_add_one_of_le ((issuedIds_bounds empty_wellFormed history).2 id hid).2
    · obtain ⟨a, ha⟩ := hcounted.exists_read_newRow hadded hnow hearing eventType message deployment
      have hanswer : created.2 = .ok a := (congrArg Prod.snd hcreate).trans ha
      have hlatest : created.1.findLatest hearing = .ok (some a) := by
        unfold created at hanswer ⊢
        rw [findLatest_create hleft now hearing eventType message deployment hwf hord, hanswer]
        rfl
      refine ⟨a, hanswer, (Row.shows_of_read ha).id, hlatest, fun rs hrs => ?_⟩
      have hlisted := listed_in_order (step_wellFormed hwf now _) (step_ordered hwf hord now _) hrs
      exact Except.ok.inj (hlisted.2.2.symm.trans hlatest)

theorem dated_failedHistory (n : Nat) : ∀ call ∈ failedHistory n, Time.Dated call.1 := by
  refine List.forall_mem_append.mpr ⟨dated_wornHistory n, ?_⟩
  simp [Time.dated_zero]

theorem adds_wornHistory (n : Nat) : (wornHistory n).countP (·.2.adds) = 1 := by
  induction n with
  | zero => rfl
  | succ n ih =>
    rw [wornHistory, List.countP_append, ih]
    rfl

/-- A hearing whose one row has failed 2³¹ times cannot be listed. -/
theorem hearing_not_listed :
    ¬ ∀ (history : List (Int × StoreCall)) (hearing : Int),
      history.countP (·.2.adds) < 2 ^ 31 → (∀ call ∈ history, Time.Dated call.1) →
        ∃ rs, (empty.after history).findByHearing hearing = .ok rs := by
  intro h
  have hmany : ∃ n : Nat, 2147483647 ≤ n := ⟨2147483647, by omega⟩
  obtain ⟨n, hn⟩ := hmany
  have hadds : (failedHistory n).countP (·.2.adds) = 1 := by
    rw [failedHistory, List.countP_append, adds_wornHistory]
    rfl
  obtain ⟨rs, hrs⟩ := h (failedHistory n) 1 (by omega) (dated_failedHistory n)
  have hread : (retry 0 "local" (wornRow n)).read = .error (.columnOutOfRange "retry_count") :=
    read_of_unfit rfl (fitsInt32_succ_eq_false hn)
  have hlist : (⟨[retry 0 "local" (wornRow n)], 1⟩ : Ledger).findByHearing 1 =
      Row.readAll [retry 0 "local" (wornRow n)] := rfl
  rw [after_failedHistory, hlist, Row.readAll, hread] at hrs
  cases hrs

end HearingRelay.Ledger
