import HearingRelay.Proofs.Ledger.Legible
import HearingRelay.Proofs.Ledger.Progress
import Mathlib.Logic.Equiv.Basic

/-!
The rows of one hearing under other identifiers. A call that names a row, and the
creation of a row, look at the rows of one hearing only, and never compare
identifiers but for equality. So ledgers whose rows of a hearing differ in nothing
but their identifiers go on doing so when the same is asked of both, and the rows
of other hearings do not matter.
-/

namespace HearingRelay

namespace Row

def renumber (ρ : Equiv.Perm Int) (r : Row) : Row := { r with id := ρ r.id }

variable (ρ : Equiv.Perm Int) (r : Row)

@[simp] theorem renumber_id : (r.renumber ρ).id = ρ r.id := rfl

@[simp] theorem renumber_hearing : (r.renumber ρ).hearing = r.hearing := rfl

@[simp] theorem renumber_version : (r.renumber ρ).version = r.version := rfl

@[simp] theorem is_renumber (s : Status) : (r.renumber ρ).is s = r.is s := rfl

theorem renumber_eq_self {ρ : Equiv.Perm Int} {r : Row} (h : ρ r.id = r.id) :
    r.renumber ρ = r := by
  unfold renumber
  rw [h]

/-- Rows whose identifiers stay are the same rows. -/
theorem map_renumber_eq_self {ρ : Equiv.Perm Int} {rows : List Row}
    (h : ∀ r ∈ rows, ρ r.id = r.id) : rows.map (renumber ρ) = rows :=
  (List.map_congr_left fun r hr => renumber_eq_self (h r hr)).trans (List.map_id _)

theorem changeIf_renumber {applies applies' : Row → Bool} {f : Row → Row}
    (happlies : applies' (r.renumber ρ) = applies r)
    (hf : f (r.renumber ρ) = (f r).renumber ρ) :
    (r.renumber ρ).changeIf applies' f = (r.changeIf applies f).renumber ρ := by
  unfold changeIf
  rw [happlies, hf]
  split <;> rfl

end Row

def PendingRequest.renumber (ρ : Equiv.Perm Int) (r : PendingRequest) : PendingRequest :=
  { r with id := ρ r.id }

namespace Row

theorem check_renumber (ρ : Equiv.Perm Int) (r : Row) :
    (r.renumber ρ).check = r.check.map (·.renumber ρ) := by
  unfold check renumber
  cases (EventType.parse r.eventType).mapError Corruption.unknownName with
  | error e => rfl
  | ok t =>
    cases (Status.parse r.status).mapError Corruption.unknownName with
    | error e => rfl
    | ok s =>
      cases Time.Instant.ofMillis? r.submitted with
      | none => rfl
      | some submitted =>
        cases r.lastTried with
        | none => rfl
        | some ms => cases hms : Time.Instant.ofMillis? ms <;> simp [bind, Except.bind, hms] <;> rfl

/-- A legible row is read alike under every identifier. -/
theorem Legible.read_renumber {r : Row} (h : r.Legible) (ρ : Equiv.Perm Int) :
    (r.renumber ρ).read = r.read.map (·.renumber ρ) := by
  obtain ⟨a, ha⟩ := h.exists_check
  have hcheck : (r.renumber ρ).check = .ok (a.renumber ρ) := by
    rw [check_renumber, ha]
    rfl
  unfold read
  rw [hcheck, ha, renumber_version]
  by_cases hversion : Bounds.fitsInt32 r.version = true
  · by_cases hretry : Bounds.fitsInt32 r.retryCount = true
    · have hretry' : Bounds.fitsInt32 (r.renumber ρ).retryCount = true := hretry
      simp [hversion, hretry, hretry', Except.mapError, Except.map]
    · have hretry' : ¬ Bounds.fitsInt32 (r.renumber ρ).retryCount = true := hretry
      simp [hversion, hretry, hretry', Except.map]
  · simp [hversion, Except.map]

end Row

def StoreCall.renumber (ρ : Equiv.Perm Int) : StoreCall → StoreCall
  | .markProcessing id deployment => .markProcessing (ρ id) deployment
  | .markCompleted id deployment => .markCompleted (ρ id) deployment
  | .markException id deployment => .markException (ρ id) deployment
  | .markPendingWithRetry id deployment => .markPendingWithRetry (ρ id) deployment
  | .requeueException id deployment => .requeueException (ρ id) deployment
  | c => c

namespace Ledger

variable {l l' : Ledger} {now hearing id : Int} {c : StoreCall} {ρ : Equiv.Perm Int} {r : Row}

theorem isBlocked_eq_any_rowsOf (l : Ledger) (r : Row) :
    l.isBlocked r = (l.rowsOf r.hearing).any fun q =>
      q.is .processing || (q.is .pending && q.version < r.version) :=
  (List.any_filter ..).symm

/-- Reading a hearing takes its rows only. -/
theorem findByHearing_congr (h : l'.rowsOf hearing = l.rowsOf hearing) :
    l'.findByHearing hearing = l.findByHearing hearing := by
  unfold findByHearing byVersion
  rw [h]

/-- A step of the ledger, as the rows of one hearing show it. -/
theorem rowsOf_step (h : l.IdsIncrease) (now : Int) (c : StoreCall) (hearing : Int) :
    (l.step now c).1.rowsOf hearing = (l.rowsOf hearing).filterMap (l.rowAfter now c) ++
      (l.added now c).filter (·.hearing == hearing) := by
  unfold rowsOf
  rw [step_rows h, List.filter_append, List.filter_filterMap, List.filterMap_filter]
  congr 1
  refine List.filterMap_congr fun r hr => ?_
  cases hpass : l.rowAfter now c r with
  | none => simp
  | some q =>
    have hsame : q.hearing = r.hearing := (passage_of_rowAfter hpass).sameEvent.hearing
    by_cases hearing' : r.hearing = hearing <;> simp [hsame, hearing']

/-- Ledgers whose rows of a hearing are the same under other identifiers. -/
def Mirrors (l : Ledger) (ρ : Equiv.Perm Int) (hearing : Int) (l' : Ledger) : Prop :=
  l'.rowsOf hearing = (l.rowsOf hearing).map (Row.renumber ρ)

theorem mirrors_of_rowsOf_eq (h : l'.rowsOf hearing = l.rowsOf hearing)
    (hfixed : ∀ r ∈ l.rowsOf hearing, ρ r.id = r.id) : l.Mirrors ρ hearing l' :=
  h.trans (Row.map_renumber_eq_self hfixed).symm

theorem Mirrors.isBlocked (h : l.Mirrors ρ hearing l') (hr : r.hearing = hearing) :
    l'.isBlocked (r.renumber ρ) = l.isBlocked r := by
  rw [isBlocked_eq_any_rowsOf, isBlocked_eq_any_rowsOf, Row.renumber_hearing, hr, h, List.any_map]
  rfl

theorem Mirrors.mem (h : l.Mirrors ρ hearing l') (hr : r ∈ l.rows)
    (hhearing : r.hearing = hearing) : r.renumber ρ ∈ l'.rows := by
  have hmem : r.renumber ρ ∈ l'.rowsOf hearing :=
    h ▸ List.mem_map_of_mem (mem_rowsOf.mpr ⟨hr, hhearing⟩)
  exact (mem_rowsOf.mp hmem).1

theorem marks_renumber (hc : marks id c = true) : marks (ρ id) (c.renumber ρ) = true := by
  cases c with
  | markProcessing i | markCompleted i | markException i | markPendingWithRetry i
  | requeueException i =>
    obtain rfl : i = id := by simpa [marks] using hc
    simp [StoreCall.renumber, marks]
  | _ => cases hc

/-- A call that names a row does the same to a row and to its mirror image. -/
theorem rowAfter_renumber (hc : marks id c = true)
    (hblocked : l'.isBlocked (r.renumber ρ) = l.isBlocked r) :
    l'.rowAfter now (c.renumber ρ) (r.renumber ρ) = (l.rowAfter now c r).map (·.renumber ρ) := by
  have hid : ∀ i, (ρ r.id == ρ i) = (r.id == i) := by
    intro i
    rw [Bool.eq_iff_iff]
    simp
  cases c with
  | markProcessing i deployment =>
    refine congrArg some (r.changeIf_renumber ρ ?_ rfl)
    simp only [Row.renumber_id, Row.is_renumber, hid, hblocked]
  | markCompleted i deployment | markException i deployment | markPendingWithRetry i deployment
  | requeueException i deployment =>
    refine congrArg some (r.changeIf_renumber ρ ?_ rfl)
    simp only [Row.renumber_id, Row.is_renumber, hid]
  | _ => cases hc

/-- Ledgers stay mirror images when each has the row marked that is the mirror
image of the other. -/
theorem Mirrors.step (h : l.Mirrors ρ hearing l') (hinc : l.IdsIncrease) (hinc' : l'.IdsIncrease)
    (hc : marks id c = true) (now : Int) :
    (l.step now c).1.Mirrors ρ hearing (l'.step now (c.renumber ρ)).1 := by
  unfold Mirrors
  rw [rowsOf_step hinc, rowsOf_step hinc', added_of_marks hc, added_of_marks (marks_renumber hc), h,
    List.filter_nil, List.append_nil, List.append_nil, List.filterMap_map, List.map_filterMap]
  refine List.filterMap_congr fun r hr => ?_
  exact rowAfter_renumber hc (h.isBlocked (mem_rowsOf.mp hr).2)

theorem nextVersion_congr (h : l'.rowsOf hearing = l.rowsOf hearing) :
    l'.nextVersion hearing = l.nextVersion hearing := by
  unfold nextVersion
  rw [h]

section Creation

variable (now : Int) (eventType : EventType) (message deployment : String)

/-- A creation adds to the rows of its hearing, and to no others. -/
theorem rowsOf_create (hinc : l.IdsIncrease) (other : Int) :
    (l.step now (.create hearing eventType message deployment)).1.rowsOf other =
      l.rowsOf other ++ (l.added now (.create hearing eventType message deployment)).filter
        (·.hearing == other) := by
  have hkept : (l.rowsOf other).filterMap
      (l.rowAfter now (.create hearing eventType message deployment)) = l.rowsOf other :=
    List.filterMap_some
  rw [rowsOf_step hinc, hkept]

theorem rowsOf_create_of_ne (hinc : l.IdsIncrease) {other : Int} (hne : other ≠ hearing) :
    (l.step now (.create hearing eventType message deployment)).1.rowsOf other =
      l.rowsOf other := by
  rw [rowsOf_create now eventType message deployment hinc, List.append_right_eq_self, added]
  split
  · rfl
  · simp [newRow, hne.symm]

section Mirror

variable (h : l'.rowsOf hearing = l.rowsOf hearing) (hnext : ρ (l.lastId + 1) = l'.lastId + 1)
  (hspace : l.lastId < Bounds.maxInt64 ↔ l'.lastId < Bounds.maxInt64)

include h hnext

/-- The next row of a hearing is the same in ledgers with the same rows of the
hearing, but for its identifier. -/
theorem newRow_renumber : l'.newRow now hearing eventType message deployment =
    (l.newRow now hearing eventType message deployment).renumber ρ := by
  unfold newRow Row.renumber
  rw [nextVersion_congr h, hnext]

include hspace

/-- Ledgers with the same rows of a hearing become mirror images when the hearing
gets a row in both, or in none for want of an identifier. -/
theorem mirrors_create (hinc : l.IdsIncrease) (hinc' : l'.IdsIncrease)
    (hfixed : ∀ r ∈ l.rowsOf hearing, ρ r.id = r.id) :
    (l.step now (.create hearing eventType message deployment)).1.Mirrors ρ hearing
      (l'.step now (.create hearing eventType message deployment)).1 := by
  have hadded : l'.added now (.create hearing eventType message deployment) =
      (l.added now (.create hearing eventType message deployment)).map (Row.renumber ρ) := by
    by_cases hfree : l.lastId < Bounds.maxInt64
    · rw [added, added, if_neg (Int.not_le.mpr hfree), if_neg (Int.not_le.mpr (hspace.mp hfree)),
        newRow_renumber now eventType message deployment h hnext]
      rfl
    · have hfull' : ¬ l'.lastId < Bounds.maxInt64 := fun hfree' => hfree (hspace.mpr hfree')
      rw [added, added, if_pos (Int.not_lt.mp hfree), if_pos (Int.not_lt.mp hfull')]
      rfl
  unfold Mirrors
  rw [rowsOf_create now eventType message deployment hinc,
    rowsOf_create now eventType message deployment hinc', hadded, h, List.map_append,
    Row.map_renumber_eq_self hfixed, List.filter_map]
  rfl

/-- The answers agree but for the identifier, at a reading that is a date. -/
theorem create_renumber (hnow : Time.Dated now) :
    (l'.step now (.create hearing eventType message deployment)).2 =
      (l.step now (.create hearing eventType message deployment)).2.map (·.renumber ρ) := by
  have hlegible : (l.newRow now hearing eventType message deployment).Legible :=
    ⟨⟨eventType, rfl⟩, ⟨.pending, (Row.is_iff _ _).mpr rfl⟩, hnow, by simp [newRow]⟩
  by_cases hfree : l.lastId < Bounds.maxInt64
  · simp only [Ledger.step, create, if_neg (Int.not_le.mpr hfree),
      if_neg (Int.not_le.mpr (hspace.mp hfree))]
    have hnew := newRow_renumber now eventType message deployment h hnext
    exact (congrArg Row.read hnew).trans (hlegible.read_renumber ρ)
  · have hfull' : ¬ l'.lastId < Bounds.maxInt64 := fun hfree' => hfree (hspace.mpr hfree')
    simp only [Ledger.step, create, if_pos (Int.not_lt.mp hfree), if_pos (Int.not_lt.mp hfull')]
    rfl

end Mirror

end Creation

def HasRow (l : Ledger) (hearing id : Int) : Prop := ∃ r ∈ l.rowsOf hearing, r.id = id

theorem hasRow_of_mem (hr : r ∈ l.rows) : l.HasRow r.hearing r.id :=
  ⟨r, mem_rowsOf.mpr ⟨hr, rfl⟩, rfl⟩

theorem HasRow.mirror (hrow : l.HasRow hearing id) (h : l.Mirrors ρ hearing l') :
    l'.HasRow hearing (ρ id) := by
  obtain ⟨r, hr, rfl⟩ := hrow
  exact ⟨r.renumber ρ, h ▸ List.mem_map_of_mem hr, rfl⟩

theorem HasRow.step (hrow : l.HasRow hearing id) (hinc : l.IdsIncrease) (hc : marks id c = true)
    (now : Int) : (l.step now c).1.HasRow hearing id := by
  obtain ⟨r, hr, rfl⟩ := hrow
  cases hpass : l.rowAfter now c r with
  | none =>
    obtain ⟨_, rfl, _⟩ := pastRetention_of_rowAfter_eq_none hpass
    cases hc
  | some q =>
    refine ⟨q, ?_, (passage_of_rowAfter hpass).sameEvent.id⟩
    rw [rowsOf_step hinc]
    exact List.mem_append_left _ (List.mem_filterMap.mpr ⟨r, hr, hpass⟩)

/-- A call that names a row of a hearing leaves all other hearings as they are. -/
theorem rowsOf_step_of_marks (hinc : l.IdsIncrease) (hrow : l.HasRow hearing id)
    (hc : marks id c = true) (now : Int) {other : Int} (hne : other ≠ hearing) :
    (l.step now c).1.rowsOf other = l.rowsOf other := by
  rw [rowsOf_step hinc, added_of_marks hc, List.filter_nil, List.append_nil]
  refine (List.filterMap_congr fun q hq => ?_).trans List.filterMap_some
  obtain ⟨r, hr, rfl⟩ := hrow
  obtain ⟨hq, hqother⟩ := mem_rowsOf.mp hq
  obtain ⟨hr, hrhearing⟩ := mem_rowsOf.mp hr
  refine rowAfter_of_marks hc fun hid => hne ?_
  rw [← hqother, ← hrhearing, eq_of_id_eq hinc hq hr hid]

end Ledger

end HearingRelay
