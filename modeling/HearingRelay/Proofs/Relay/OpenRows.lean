import HearingRelay.Proofs.Relay.Interleaving
import HearingRelay.Proofs.Relay.Turns

/-!
Open rows. A row is open until it is completed. When rows are added only for
events that no row waits for, no call of the store gives an event a second open
row, so no program does. Tasks that are done one after the other, each alone
and at any clock reading, add rows in no other way.
-/

namespace HearingRelay

open Ledger

/-- Whether a row that is not completed carries an event. -/
def Row.isOpenFor (event : Dispatch.Event) (row : Row) : Bool :=
  row.carries event && !row.is .completed

namespace Ledger

/-- Whether every event has one open row at most. -/
def OneOpen (l : Ledger) : Prop := ∀ event, l.rows.countP (Row.isOpenFor event) ≤ 1

theorem empty_oneOpen : empty.OneOpen := fun _ => by simp [empty]

/-- No row is opened again. -/
theorem Passage.isOpenFor {l : Ledger} {now : Int} {c : StoreCall} {r q : Row}
    (h : Passage l now c r q) {event : Dispatch.Event} (hq : q.isOpenFor event = true) :
    r.isOpenFor event = true := by
  obtain ⟨hcarries, hopen⟩ := Bool.and_eq_true_iff.mp hq
  have hbefore : r.carries event = true := h.sameEvent.carries event ▸ hcarries
  cases hr : r.is .completed with
  | false => simp [Row.isOpenFor, hbefore, hr]
  | true =>
    have hcompleted := h.keeps_completed hr
    simp [hcompleted] at hopen

/-- An event that no row waits for has no open row. -/
theorem Settles.countP_eq_zero {l : Ledger} {event : Dispatch.Event} (h : l.Settles event) :
    l.rows.countP (Row.isOpenFor event) = 0 := by
  rw [List.countP_eq_zero]
  intro row hrow hopen
  obtain ⟨hcarries, hstatus⟩ := Bool.and_eq_true_iff.mp hopen
  have hcompleted := h.completed row hrow hcarries
  simp [hcompleted] at hstatus

/-- A call that adds a row only where none waits opens no second one. -/
theorem step_oneOpen {l : Ledger} (h : l.OneOpen) (hinc : l.IdsIncrease) (now : Int)
    {c : StoreCall} (hsettles : ∀ event, c.creates event = true → l.Settles event) :
    (l.step now c).1.OneOpen := by
  intro event
  have hstep := countP_step_le_of_passage hinc now c
    (p := Row.isOpenFor event) fun r q hpass hopen => hpass.isOpenFor hopen
  have hadded := countP_added_le l now c (p := Row.isOpenFor event)
    fun row hopen => (Bool.and_eq_true_iff.mp hopen).1
  have hbefore := h event
  by_cases hcreates : c.creates event = true
  · have hnone := (hsettles event hcreates).countP_eq_zero
    rw [if_pos hcreates] at hadded
    omega
  · rw [if_neg hcreates] at hadded
    omega

end Ledger

namespace Observed

variable (service : Service) (visibility : Nat)

/-- No event has two open rows, and none had at any time of the record. -/
structure SingleRows (o : Observed) : Prop where
  wellFormed : o.world.ledger.WellFormed
  present : o.world.ledger.OneOpen
  past : ∀ x ∈ o.trace, x.after.ledger.OneOpen

namespace SingleRows

variable {service visibility} {o : Observed}

/-- One question: rows are added only for events that no row waits for. -/
theorem ask (h : o.SingleRows) {q : Request}
    (hsettled : ∀ event, (o.exchange service visibility q).creates event = true →
      o.world.ledger.Settles event) : (o.ask service visibility q).SingleRows := by
  have hnow : (o.ask service visibility q).world.ledger.WellFormed ∧
      (o.ask service visibility q).world.ledger.OneOpen := by
    cases q with
    | store c =>
      exact ⟨step_wellFormed h.wellFormed _ c,
        step_oneOpen h.present h.wellFormed.ids_increase _ hsettled⟩
    | _ => exact ⟨h.wellFormed, h.present⟩
  refine ⟨hnow.1, hnow.2, ?_⟩
  intro x hx
  rcases List.mem_cons.mp hx with rfl | hold
  · exact hnow.2
  · exact h.past x hold

/-- A whole program. Its record shows each question with the ledger before it. -/
theorem run (h : o.SingleRows) {α : Type} (p : Relay α)
    (hsound : ∀ x ∈ (p.run (Observed.handle service visibility) o).1.trace,
      ∀ event, x.creates event = true → x.before.ledger.Settles event) :
    (p.run (Observed.handle service visibility) o).1.SingleRows := by
  induction p generalizing o with
  | done a => exact h
  | ask q next ih =>
    refine ih _ (h.ask ?_) hsound
    have hkept := trace_suffix_run service visibility
      (next (o.exchange service visibility q).answer) (o.ask service visibility q)
    exact hsound _ (hkept.subset List.mem_cons_self)

end SingleRows

def perform (o : Observed) (task : Task) : Observed :=
  (task.program.run (handle service visibility) o).1

def performed (o : Observed) (steps : List (Int × Task)) : Observed :=
  steps.foldl (fun o step => (o.setClock step.1).perform service visibility step.2) o

end Observed

variable (service : Service) (visibility : Nat)

theorem perform_balanced {o : Observed} (h : Balanced none o) (task : Task) :
    Balanced none (o.perform service visibility task) := by
  unfold Observed.perform Task.program
  cases task with
  | dispatch settings e deliveryCount =>
    dsimp only
    rw [Program.run_bind]
    exact (Dispatch.dispatch_balanced service visibility h settings e deliveryCount).1
  | redrive settings timeout =>
    dsimp only
    rw [Program.run_bind]
    exact redriveNext_balanced service visibility settings timeout h
  | escalate settings =>
    dsimp only
    rw [Program.run_bind]
    exact Housekeeping.escalate_balanced service visibility settings h
  | deleteCompleted settings =>
    dsimp only
    rw [Program.run_bind]
    exact h.ask_upkeep service visibility (by simp) (fun _ => rfl)
  | reclaimStuck settings =>
    dsimp only
    rw [Program.run_bind]
    exact h.ask_upkeep service visibility (by simp) (fun _ => rfl)

/-- Done alone, a task adds rows only for events that no row waits for. -/
theorem perform_singleRows {o : Observed} (hbalanced : Balanced none o) (h : o.SingleRows)
    (task : Task) : (o.perform service visibility task).SingleRows := by
  refine h.run task.program fun x hx => ?_
  obtain ⟨later, earlier, htrace⟩ := List.append_of_mem hx
  have hafter := perform_balanced service visibility hbalanced task
  exact (hafter.sound x earlier ⟨later, htrace.symm⟩).settled

theorem performed_singleRows {o : Observed} (hbalanced : Balanced none o) (h : o.SingleRows)
    (steps : List (Int × Task)) : (o.performed service visibility steps).SingleRows := by
  induction steps generalizing o with
  | nil => exact h
  | cons step rest ih =>
    have hclock : (o.setClock step.1).SingleRows := ⟨h.wellFormed, h.present, h.past⟩
    have hset := hbalanced.setClock step.1
    exact ih (perform_balanced service visibility hset step.2)
      (perform_singleRows service visibility hset hclock step.2)

/-- Whatever dispatches, re-drives and upkeep are done one after the other,
with any answers of the service and any readings of the clock, an event has one
row at most that is not completed: afterwards, and after each question that was
asked on the way. -/
theorem one_open_row (start : Int) (steps : List (Int × Task)) :
    let o := (Observed.start (.empty start)).performed service visibility steps
    ∀ event, o.world.ledger.rows.countP (Row.isOpenFor event) ≤ 1 ∧
      ∀ x ∈ o.trace, x.after.ledger.rows.countP (Row.isOpenFor event) ≤ 1 := by
  intro o event
  have hstart : (Observed.start (.empty start)).SingleRows :=
    ⟨empty_wellFormed, empty_oneOpen, by simp [Observed.start]⟩
  have h : o.SingleRows :=
    performed_singleRows service visibility (start_balanced start) hstart steps
  exact ⟨h.present event, fun x hx => h.past x hx event⟩

end HearingRelay
