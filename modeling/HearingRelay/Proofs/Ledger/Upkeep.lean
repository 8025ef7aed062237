import HearingRelay.Proofs.Ledger.RowStep
import Mathlib.Data.List.Perm.Basic

/-!
The upkeep of the ledger in any order. A chore flags overdue rows, deletes
completed rows past their retention, or frees rows stuck in progress. It decides
and acts row by row, and no chore at the same reading of the clock touches what
another one looks at. So chores lead to one ledger in whatever order they are
done, and a chore that is repeated finds nothing to do.
-/

namespace HearingRelay

inductive Chore where
  | escalate (threshold : Time.Span)
  | cleanup (retention : Time.Span)
  | reclaim (timeout : Time.Span)

namespace Ledger

def doChore (l : Ledger) (now : Int) (deployment : String) : Chore → Ledger × Nat
  | .escalate threshold => l.markForEscalation now threshold deployment
  | .cleanup retention => l.deleteCompleted now retention
  | .reclaim timeout => l.reclaimStuck now timeout deployment

def afterChores (l : Ledger) (now : Int) (deployment : String) (order : List Chore) : Ledger :=
  order.foldl (fun l c => (l.doChore now deployment c).1) l

/-- What one chore of each kind makes of a row that stays. -/
def upkept (now : Int) (deployment : String) (threshold timeout : Time.Span) (r : Row) : Row :=
  { r with
    status := if isStuck now timeout r then Status.pending.name else r.status
    retryCount := if isStuck now timeout r then r.retryCount + 1 else r.retryCount
    incident := r.incident || needsEscalation now threshold r
    deployment :=
      if needsEscalation now threshold r || isStuck now timeout r then some deployment
      else r.deployment }

end Ledger

namespace Chore

open Ledger

variable (now : Int) (deployment : String)

def fits : Chore → Row → Bool
  | escalate threshold => needsEscalation now threshold
  | cleanup retention => isPastRetention now retention
  | reclaim timeout => isStuck now timeout

def onRow : Chore → Row → Option Row
  | escalate threshold, r =>
    some (r.changeIf (needsEscalation now threshold) (flag deployment))
  | cleanup retention, r => if isPastRetention now retention r then none else some r
  | reclaim timeout, r => some (r.changeIf (isStuck now timeout) (Ledger.reclaim deployment))

section Row

variable {now deployment}

@[simp] theorem needsEscalation_flag (threshold : Time.Span) (r : Row) :
    needsEscalation now threshold (flag deployment r) = false := rfl

@[simp] theorem needsEscalation_reclaim (threshold : Time.Span) (r : Row) :
    needsEscalation now threshold (Ledger.reclaim deployment r) =
      needsEscalation now threshold r := rfl

@[simp] theorem isPastRetention_flag (retention : Time.Span) (r : Row) :
    isPastRetention now retention (flag deployment r) = isPastRetention now retention r := rfl

@[simp] theorem isPastRetention_reclaim (retention : Time.Span) (r : Row) :
    isPastRetention now retention (Ledger.reclaim deployment r) = false := by
  simp [isPastRetention]

@[simp] theorem isStuck_flag (timeout : Time.Span) (r : Row) :
    isStuck now timeout (flag deployment r) = isStuck now timeout r := rfl

@[simp] theorem isStuck_reclaim (timeout : Time.Span) (r : Row) :
    isStuck now timeout (Ledger.reclaim deployment r) = false := by
  simp [isStuck]

/-- Both mark the row with the same deployment, and nothing else in common. -/
theorem reclaim_flag (r : Row) :
    Ledger.reclaim deployment (flag deployment r) = flag deployment (Ledger.reclaim deployment r) :=
  rfl

/-- A row in progress is not completed. -/
theorem isPastRetention_of_isStuck {timeout : Time.Span} {r : Row}
    (h : isStuck now timeout r = true) (retention : Time.Span) :
    isPastRetention now retention r = false := by
  have hprocessing : r.is .processing = true := (Bool.and_eq_true_iff.mp h).1
  simp [isPastRetention, Row.is_eq_false hprocessing (t := .completed) (by decide)]

end Row

/-- A row that a chore does not fit stays as it is. -/
theorem onRow_of_not_fits {a : Chore} {r : Row} (h : a.fits now r = false) :
    a.onRow now deployment r = some r := by
  cases a with
  | escalate threshold | reclaim timeout =>
    change some (r.changeIf _ _) = some r
    unfold fits at h
    simp [Row.changeIf, h]
  | cleanup retention =>
    unfold fits at h
    simp [onRow, h]

/-- What a chore leaves of a row does not fit it any more. -/
theorem not_fits_of_onRow {a : Chore} {r q : Row} (h : a.onRow now deployment r = some q) :
    a.fits now q = false := by
  cases hfits : a.fits now r with
  | false =>
    rw [onRow_of_not_fits now deployment hfits] at h
    obtain rfl := Option.some.inj h
    exact hfits
  | true =>
    cases a with
    | escalate threshold | reclaim timeout =>
      unfold fits at hfits
      obtain rfl : _ = q := by simpa [onRow, Row.changeIf, hfits] using h
      simp [fits]
    | cleanup retention =>
      unfold fits at hfits
      simp [onRow, hfits] at h

/-- Two chores make the same of a row in either order. -/
theorem onRow_comm (a b : Chore) (r : Row) :
    (a.onRow now deployment r).bind (b.onRow now deployment) =
      (b.onRow now deployment r).bind (a.onRow now deployment) := by
  have hescalate : ∀ (threshold : Time.Span) (other : Chore),
      ((escalate threshold).onRow now deployment r).bind (other.onRow now deployment) =
        (other.onRow now deployment r).bind ((escalate threshold).onRow now deployment) := by
    intro threshold other
    cases other with
    | escalate threshold' =>
      by_cases h : needsEscalation now threshold r = true <;>
        by_cases h' : needsEscalation now threshold' r = true <;>
        simp [onRow, Row.changeIf, h, h']
    | cleanup retention =>
      by_cases h : needsEscalation now threshold r = true <;>
        by_cases h' : isPastRetention now retention r = true <;>
        simp [onRow, Row.changeIf, h, h']
    | reclaim timeout =>
      by_cases h : needsEscalation now threshold r = true <;>
        by_cases h' : isStuck now timeout r = true <;>
        simp [onRow, Row.changeIf, h, h', reclaim_flag]
  have hcleanup : ∀ (retention timeout : Time.Span),
      ((cleanup retention).onRow now deployment r).bind ((reclaim timeout).onRow now deployment) =
        ((reclaim timeout).onRow now deployment r).bind
          ((cleanup retention).onRow now deployment) := by
    intro retention timeout
    by_cases hstuck : isStuck now timeout r = true
    · simp [onRow, Row.changeIf, hstuck, isPastRetention_of_isStuck hstuck]
    · by_cases hpast : isPastRetention now retention r = true <;>
        simp [onRow, Row.changeIf, hstuck, hpast]
  cases a with
  | escalate threshold => exact hescalate threshold b
  | cleanup retention =>
    cases b with
    | escalate threshold => exact (hescalate threshold _).symm
    | cleanup retention' =>
      by_cases h : isPastRetention now retention r = true <;>
        by_cases h' : isPastRetention now retention' r = true <;> simp [onRow, h, h']
    | reclaim timeout => exact hcleanup retention timeout
  | reclaim timeout =>
    cases b with
    | escalate threshold => exact (hescalate threshold _).symm
    | cleanup retention => exact (hcleanup retention timeout).symm
    | reclaim timeout' =>
      by_cases h : isStuck now timeout r = true <;>
        by_cases h' : isStuck now timeout' r = true <;>
        simp [onRow, Row.changeIf, h, h']

end Chore

namespace Ledger

variable (now : Int) (deployment : String)

theorem changeAll_eq (l : Ledger) (applies : Row → Bool) (f : Row → Row) :
    l.changeAll applies f =
      ({ l with rows := l.rows.filterMap fun r => some (r.changeIf applies f) },
        (l.rows.filter applies).length) := by
  rw [List.filterMap_eq_map']
  rfl

/-- A chore acts row by row, and counts the rows that it is about. -/
theorem doChore_eq (l : Ledger) (a : Chore) :
    l.doChore now deployment a = ({ l with rows := l.rows.filterMap (a.onRow now deployment) },
      (l.rows.filter (a.fits now)).length) := by
  cases a with
  | escalate threshold => exact changeAll_eq l (needsEscalation now threshold) (flag deployment)
  | cleanup retention =>
    refine Prod.ext (congrArg (Ledger.mk · l.lastId) ?_) rfl
    rw [← List.filterMap_eq_filter]
    refine List.filterMap_congr fun r _ => ?_
    by_cases hpast : isPastRetention now retention r = true <;>
      simp [Chore.onRow, Option.guard, hpast]
  | reclaim timeout => exact changeAll_eq l (isStuck now timeout) (reclaim deployment)

theorem doChore_comm (l : Ledger) (a b : Chore) :
    ((l.doChore now deployment a).1.doChore now deployment b).1 =
      ((l.doChore now deployment b).1.doChore now deployment a).1 := by
  simp only [doChore_eq, List.filterMap_filterMap, Chore.onRow_comm now deployment a b]

/-- A chore that is repeated finds no row that it is about. -/
theorem doChore_again (l : Ledger) (a : Chore) :
    (l.doChore now deployment a).1.doChore now deployment a =
      ((l.doChore now deployment a).1, 0) := by
  have hdone : ∀ q ∈ (l.doChore now deployment a).1.rows, a.fits now q = false := by
    intro q hq
    rw [doChore_eq] at hq
    obtain ⟨r, _, hr⟩ := List.mem_filterMap.mp hq
    exact Chore.not_fits_of_onRow now deployment hr
  generalize (l.doChore now deployment a).1 = swept at hdone ⊢
  have hnone : swept.rows.filter (a.fits now) = [] := by
    rw [List.filter_eq_nil_iff]
    intro q hq
    simp [hdone q hq]
  have hsame : swept.rows.filterMap (a.onRow now deployment) = swept.rows := by
    rw [List.filterMap_congr fun q hq => Chore.onRow_of_not_fits now deployment (hdone q hq),
      List.filterMap_some]
  rw [doChore_eq, hnone, hsame]
  rfl

/-- What the three chores make of a row together. -/
theorem onRow_upkept (threshold retention timeout : Time.Span) (r : Row) :
    (((Chore.cleanup retention).onRow now deployment r).bind
      ((Chore.escalate threshold).onRow now deployment)).bind
        ((Chore.reclaim timeout).onRow now deployment) =
      if isPastRetention now retention r then none
      else some (upkept now deployment threshold timeout r) := by
  by_cases hpast : isPastRetention now retention r = true
  · simp [Chore.onRow, hpast]
  · by_cases hoverdue : needsEscalation now threshold r = true <;>
      by_cases hstuck : isStuck now timeout r = true <;>
      simp [Chore.onRow, Row.changeIf, upkept, hpast, hoverdue, hstuck] <;> rfl

/-- The order of the upkeep does not matter. For every ledger, at every reading of
the clock, for all windows and every deployment: two chores lead to the same
ledger in either order, and any number of chores in every order, a chore that is
repeated answers zero and changes nothing, and one chore of each kind leaves, in
every order, the rows that are not past their retention, the overdue ones flagged
and the stuck ones freed. -/
theorem upkeep_in_any_order (l : Ledger) (now : Int) (deployment : String) :
    (∀ a b : Chore, ((l.doChore now deployment a).1.doChore now deployment b).1 =
      ((l.doChore now deployment b).1.doChore now deployment a).1) ∧
    (∀ order order' : List Chore, order.Perm order' →
      l.afterChores now deployment order = l.afterChores now deployment order') ∧
    (∀ a : Chore, (l.doChore now deployment a).1.doChore now deployment a =
      ((l.doChore now deployment a).1, 0)) ∧
    ∀ (threshold retention timeout : Time.Span) (order : List Chore),
      order.Perm [.escalate threshold, .cleanup retention, .reclaim timeout] →
      l.afterChores now deployment order =
        ⟨(l.rows.filter fun r => !isPastRetention now retention r).map
          (upkept now deployment threshold timeout), l.lastId⟩ := by
  have hperm : ∀ order order' : List Chore, order.Perm order' →
      l.afterChores now deployment order = l.afterChores now deployment order' := by
    intro order order' h
    exact h.foldl_eq' (fun a _ b _ l => doChore_comm now deployment l a b) l
  refine ⟨doChore_comm now deployment l, hperm, doChore_again now deployment l, ?_⟩
  intro threshold retention timeout order horder
  have hswap : order.Perm [.cleanup retention, .escalate threshold, .reclaim timeout] :=
    horder.trans (.swap _ _ _)
  rw [hperm order _ hswap]
  unfold afterChores
  simp only [List.foldl_cons, List.foldl_nil, doChore_eq, List.filterMap_filterMap]
  congr 1
  rw [← List.filterMap_eq_filter, ← List.filterMap_eq_map, List.filterMap_filterMap]
  refine List.filterMap_congr fun r _ => ?_
  rw [onRow_upkept]
  by_cases hpast : isPastRetention now retention r = true <;> simp [Option.guard, hpast]

end Ledger

end HearingRelay
