import HearingRelay.Proofs.Ledger.LastTry
import HearingRelay.Proofs.Ledger.Order
import HearingRelay.Proofs.Ledger.Reading
import Mathlib.Algebra.Group.Int.Defs
import Mathlib.Algebra.Group.Nat.Defs

/-!
Which rows can be read. Calls store known names and times that their clock has
shown, so while the clock shows dates that are in range a row can be read
exactly when its version and its failures fit 32 bits. Both are counts: the
versions of a hearing count creations, the failures of a row count the calls
that free it.
-/

namespace HearingRelay

theorem Bounds.fitsInt32_iff (n : Int) :
    Bounds.fitsInt32 n = true ↔ -2 ^ 31 ≤ n ∧ n < 2 ^ 31 := by
  have hand : Bounds.fitsInt32 n = true ↔ -2147483648 ≤ n ∧ n ≤ 2147483647 :=
    Bool.and_eq_true_iff.trans (and_congr decide_eq_true_iff decide_eq_true_iff)
  rw [hand]
  omega

def Time.Dated (ms : Int) : Prop := (Time.Instant.ofMillis? ms).isSome = true

theorem Time.dated_zero : Time.Dated 0 := rfl

theorem Time.Dated.max {a b : Int} (ha : Time.Dated a) (hb : Time.Dated b) :
    Time.Dated (max a b) := by
  rcases Int.le_total a b with hle | hle
  · rw [Int.max_eq_right hle]
    exact hb
  · rw [Int.max_eq_left hle]
    exact ha

theorem EventType.parse_name (t : EventType) : EventType.parse t.name = .ok t := by
  simp only [EventType.parse, EventType.ofName?_name]

theorem Status.parse_name (s : Status) : Status.parse s.name = .ok s := by
  simp only [Status.parse, Status.ofName?_name]

namespace Row

/-- A row of a known type, in a status, with times whose dates are in range. -/
structure Legible (r : Row) : Prop where
  eventType : ∃ t : EventType, r.eventType = t.name
  status : ∃ s : Status, r.is s = true
  submitted : Time.Dated r.submitted
  lastTried : ∀ t, r.lastTried = some t → Time.Dated t

theorem Legible.exists_check {r : Row} (h : r.Legible) : ∃ a, r.check = .ok a := by
  obtain ⟨t, htype⟩ := h.eventType
  obtain ⟨s, hstatus⟩ := h.status
  rw [is_iff] at hstatus
  obtain ⟨submitted, hsubmitted⟩ := Option.isSome_iff_exists.mp h.submitted
  simp only [check, htype, hstatus, EventType.parse_name, Status.parse_name, hsubmitted]
  cases htried : r.lastTried with
  | none => exact ⟨_, rfl⟩
  | some ms =>
    obtain ⟨tried, hms⟩ := Option.isSome_iff_exists.mp (h.lastTried ms htried)
    simp only [hms]
    exact ⟨_, rfl⟩

/-- Two columns decide whether a row of calls can be read. -/
theorem Legible.exists_read_iff {r : Row} (h : r.Legible) :
    (∃ a, r.read = .ok a) ↔
      Bounds.fitsInt32 r.version = true ∧ Bounds.fitsInt32 r.retryCount = true := by
  obtain ⟨a, ha⟩ := h.exists_check
  unfold read
  by_cases hversion : Bounds.fitsInt32 r.version = true
  · by_cases hretry : Bounds.fitsInt32 r.retryCount = true
    · simp [hversion, hretry, ha, Except.mapError]
    · simp [hversion, hretry]
  · simp [hversion]

theorem Legible.begin {r : Row} (h : r.Legible) {now : Int} (hnow : Time.Dated now)
    (deployment : String) : (Ledger.begin now deployment r).Legible where
  eventType := h.eventType
  status := ⟨.processing, by simp⟩
  submitted := h.submitted
  lastTried := by
    intro t ht
    exact Option.some.inj ht ▸ hnow

end Row

def StoreCall.adds : StoreCall → Bool
  | .create .. => true
  | _ => false

def StoreCall.frees : StoreCall → Bool
  | .markPendingWithRetry .. | .reclaimStuck .. => true
  | _ => false

namespace Ledger

theorem Passage.legible {l : Ledger} {now : Int} {c : StoreCall} {r q : Row}
    (h : Passage l now c r q) (hr : r.Legible) (hnow : Time.Dated now) : q.Legible := by
  have hevent := h.sameEvent
  refine ⟨hevent.eventType ▸ hr.eventType, h.has_status hr.status, hevent.submitted ▸ hr.submitted,
    fun t ht => ?_⟩
  rcases h.lastTried with ⟨hsame, _⟩ | ⟨_, _, hlater⟩ | ⟨_, _, htaken⟩
  · exact hr.lastTried t (hsame.symm.trans ht)
  · rw [hlater] at ht
    refine Option.some.inj ht ▸ Time.Dated.max ?_ hnow
    cases htried : r.lastTried with
    | none => exact Time.dated_zero
    | some t₀ => exact hr.lastTried t₀ htried
  · rw [htaken] at ht
    exact Option.some.inj ht ▸ hnow

/-- Calls at readings whose dates are in range store rows that are legible. -/
theorem step_legible {l : Ledger} (h : l.IdsIncrease) (hrows : ∀ r ∈ l.rows, r.Legible)
    {now : Int} (hnow : Time.Dated now) (c : StoreCall) :
    ∀ q ∈ (l.step now c).1.rows, q.Legible := by
  intro q hq
  rcases (mem_step_rows h).mp hq with ⟨r, hr, hpass⟩ | hnew
  · exact (passage_of_rowAfter hpass).legible (hrows r hr) hnow
  · obtain ⟨hearing, eventType, message, deployment, _, rfl⟩ := exists_newRow_of_added hnew
    exact ⟨⟨eventType, rfl⟩, ⟨.pending, (added_spec hnew).2.1⟩, hnow, by simp [newRow]⟩

theorem after_legible {l : Ledger} (h : l.WellFormed) (hrows : ∀ r ∈ l.rows, r.Legible)
    {history : List (Int × StoreCall)} (hdated : ∀ call ∈ history, Time.Dated call.1) :
    ∀ q ∈ (l.after history).rows, q.Legible := by
  induction history generalizing l with
  | nil => exact hrows
  | cons call rest ih =>
    obtain ⟨hfirst, hrest⟩ := List.forall_mem_cons.mp hdated
    exact ih (step_wellFormed h call.1 call.2)
      (step_legible h.ids_increase hrows hfirst call.2) hrest

/-- A row fails once at most in a call, and only in one that frees rows. -/
theorem Passage.retryCount_le {l : Ledger} {now : Int} {c : StoreCall} {r q : Row}
    (h : Passage l now c r q) :
    q.retryCount ≤ r.retryCount + (if c.frees then 1 else 0 : Nat) := by
  cases h with
  | retried => simp [StoreCall.frees, retry]
  | reclaimed => simp [StoreCall.frees, reclaim]
  | _ => exact Int.le_add_of_nonneg_right (Int.natCast_nonneg _)

/-- The next version of a hearing is the first, or follows that of a row. -/
theorem nextVersion_cases (l : Ledger) (hearing : Int) :
    l.nextVersion hearing = 1 ∨ ∃ r ∈ l.rows, l.nextVersion hearing = r.version + 1 := by
  unfold nextVersion
  cases hversions : (l.rowsOf hearing).map (·.version) with
  | nil => exact Or.inl rfl
  | cons v vs =>
    have hmax : (v :: vs).max? = some (vs.foldl max v) := List.max?_cons'
    have hmem : vs.foldl max v ∈ (l.rowsOf hearing).map (·.version) :=
      hversions ▸ (List.max?_eq_some_iff.mp hmax).1
    obtain ⟨r, hr, hversion⟩ := List.mem_map.mp hmem
    simp only [rowsOf, List.mem_filter] at hr
    exact Or.inr ⟨r, hr.1, by rw [hversion]⟩

structure Counted (l : Ledger) (added freed : Nat) : Prop where
  version : ∀ r ∈ l.rows, 1 ≤ r.version ∧ r.version ≤ added
  retryCount : ∀ r ∈ l.rows, 0 ≤ r.retryCount ∧ r.retryCount ≤ freed

theorem empty_counted : empty.Counted 0 0 := ⟨by simp [empty], by simp [empty]⟩

theorem step_counted {l : Ledger} (h : l.IdsIncrease) {added freed : Nat}
    (hcount : l.Counted added freed) (now : Int) (c : StoreCall) :
    (l.step now c).1.Counted (added + if c.adds then 1 else 0)
      (freed + if c.frees then 1 else 0) := by
  constructor
  · intro q hq
    rcases (mem_step_rows h).mp hq with ⟨r, hr, hpass⟩ | hnew
    · have hsame := (passage_of_rowAfter hpass).sameEvent.version
      have hr := hcount.version r hr
      omega
    · have hversion := version_of_added hnew
      obtain ⟨_, _, _, _, rfl, _⟩ := exists_newRow_of_added hnew
      simp only [StoreCall.adds, if_true]
      rcases l.nextVersion_cases q.hearing with hfirst | ⟨r, hr, hnext⟩
      · omega
      · have hr := hcount.version r hr
        omega
  · intro q hq
    rcases (mem_step_rows h).mp hq with ⟨r, hr, hpass⟩ | hnew
    · have hpassage := passage_of_rowAfter hpass
      have hle := hpassage.retryCount_le
      have hge := hpassage.ages.retryCount_le
      have hr := hcount.retryCount r hr
      omega
    · obtain ⟨_, _, _, _, _, rfl⟩ := exists_newRow_of_added hnew
      simp only [newRow]
      omega

/-- A history counts versions up to the rows that it adds, and failures up to
the calls that free rows. -/
theorem after_counted {l : Ledger} (h : l.WellFormed) {added freed : Nat}
    (hcount : l.Counted added freed) (history : List (Int × StoreCall)) :
    (l.after history).Counted (added + history.countP (·.2.adds))
      (freed + history.countP (·.2.frees)) := by
  induction history generalizing l added freed with
  | nil => exact hcount
  | cons call rest ih =>
    have hrest := ih (step_wellFormed h call.1 call.2)
      (step_counted h.ids_increase hcount call.1 call.2)
    rw [List.countP_cons, List.countP_cons, Nat.add_comm (rest.countP _),
      Nat.add_comm (rest.countP _), ← Nat.add_assoc, ← Nat.add_assoc]
    exact hrest

theorem Counted.fits {l : Ledger} {added freed : Nat} (h : l.Counted added freed)
    (hadded : added < 2 ^ 31) (hfreed : freed < 2 ^ 31) {r : Row} (hr : r ∈ l.rows) :
    Bounds.fitsInt32 r.version = true ∧ Bounds.fitsInt32 r.retryCount = true := by
  have hversion := h.version r hr
  have hretry := h.retryCount r hr
  rw [Bounds.fitsInt32_iff, Bounds.fitsInt32_iff]
  omega

end Ledger

end HearingRelay
