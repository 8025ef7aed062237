import HearingRelay.Scheduler.Housekeeping
import HearingRelay.World
import HearingRelay.Proofs.Ledger.Reading
import HearingRelay.Proofs.Ledger.WellFormed
import Mathlib.Data.List.Perm.Basic

/-!
Overdue rows, reported and flagged. An escalation asks the store twice, first for
the rows to report and then to flag what is overdue, and each call reads the clock
by itself. A row that becomes overdue between the two readings is flagged without
having been reported, and since a flag is never taken back it is not reported
later either.
-/

namespace HearingRelay

/-- Answers questions as the world does, each at a reading of the clock of its own. -/
def World.handleAt (service : Service) (visibility : Nat) :
    Handler Request.Answer (List Int × World) := fun r s =>
  let answered := World.handle service visibility r { s.2 with now := s.1.headD s.2.now }
  ((s.1.tail, answered.1), answered.2)

namespace Ledger

variable {l : Ledger} {now t₁ t₂ : Int} {threshold : Time.Span} {deployment : String}

/-- The identifiers of the rows that have their flag set in a second ledger, and
not in a first. -/
def flagged (before after : Ledger) : List Int :=
  (before.rows.filter fun r => !r.incident && (after.row? r.id).any (·.incident)).map (·.id)

def dueBetween (l : Ledger) (t₁ t₂ : Int) (threshold : Time.Span) : List Row :=
  l.rows.filter fun r => !r.incident && cutoff t₁ threshold ≤ r.submitted &&
    r.submitted < cutoff t₂ threshold

theorem cutoff_mono (h : t₁ ≤ t₂) (age : Time.Span) : cutoff t₁ age ≤ cutoff t₂ age := by
  unfold cutoff
  omega

theorem markForEscalation_eq (l : Ledger) (now : Int) (threshold : Time.Span)
    (deployment : String) :
    l.markForEscalation now threshold deployment =
      (⟨l.rows.map (Row.changeIf (needsEscalation now threshold) (flag deployment)), l.lastId⟩,
        (l.rows.filter (needsEscalation now threshold)).length) := rfl

theorem id_changeIf_flag (r : Row) :
    (r.changeIf (needsEscalation now threshold) (flag deployment)).id = r.id := by
  unfold Row.changeIf
  split <;> rfl

theorem markForEscalation_ids_increase (h : l.IdsIncrease) :
    (l.markForEscalation now threshold deployment).1.IdsIncrease := by
  rw [markForEscalation_eq]
  refine List.pairwise_map.mpr (h.imp fun hlt => ?_)
  rw [id_changeIf_flag, id_changeIf_flag]
  exact hlt

theorem mem_markForEscalation {r : Row} (hr : r ∈ l.rows) :
    r.changeIf (needsEscalation now threshold) (flag deployment) ∈
      (l.markForEscalation now threshold deployment).1.rows := List.mem_map_of_mem hr

/-- Every row is found again after the overdue ones were flagged. -/
theorem row?_markForEscalation (h : l.IdsIncrease) {r : Row} (hr : r ∈ l.rows) :
    (l.markForEscalation now threshold deployment).1.row? r.id =
      some (r.changeIf (needsEscalation now threshold) (flag deployment)) := by
  have hmem : r.changeIf (needsEscalation now threshold) (flag deployment) ∈
      (l.markForEscalation now threshold deployment).1.rows := mem_markForEscalation hr
  have hfound := row?_of_mem (markForEscalation_ids_increase h) hmem
  rwa [id_changeIf_flag] at hfound

/-- The rows that are flagged are the overdue ones at the reading. -/
theorem flagged_markForEscalation (h : l.IdsIncrease) :
    flagged l (l.markForEscalation now threshold deployment).1 =
      (l.rows.filter (needsEscalation now threshold)).map (·.id) := by
  refine congrArg (List.map _) (List.filter_congr fun r hr => ?_)
  rw [row?_markForEscalation h hr, Option.any_some]
  rcases Row.changeIf_cases (needsEscalation now threshold) (flag deployment) r with
    ⟨hoverdue, hsame⟩ | ⟨hoverdue, hsame⟩
  · have hunflagged : (!r.incident) = true := (Bool.and_eq_true_iff.mp hoverdue).1
    rw [hsame, hoverdue, hunflagged]
    rfl
  · rw [hsame, hoverdue, Bool.not_and_self]

/-- What is overdue at the later reading was overdue at the earlier one, or
became so in between. -/
theorem overdue_perm (h : t₁ ≤ t₂) (l : Ledger) (threshold : Time.Span) :
    (l.rows.filter (needsEscalation t₂ threshold)).Perm
      (l.rows.filter (needsEscalation t₁ threshold) ++ l.dueBetween t₁ t₂ threshold) := by
  have hle := cutoff_mono h threshold
  have hearlier : (l.rows.filter (needsEscalation t₂ threshold)).filter
      (needsEscalation t₁ threshold) = l.rows.filter (needsEscalation t₁ threshold) := by
    rw [List.filter_filter]
    refine List.filter_congr fun r _ => ?_
    rw [Bool.eq_iff_iff]
    cases hflag : r.incident <;> simp [needsEscalation, hflag]
    omega
  have hlater : (l.rows.filter (needsEscalation t₂ threshold)).filter
      (fun r => !needsEscalation t₁ threshold r) = l.dueBetween t₁ t₂ threshold := by
    rw [List.filter_filter]
    refine List.filter_congr fun r _ => ?_
    rw [Bool.eq_iff_iff]
    cases hflag : r.incident <;> simp [needsEscalation, hflag]
  rw [← hearlier, ← hlater]
  exact (List.filter_append_perm _ _).symm

theorem overdue_of_dueBetween {r : Row} (h : r ∈ l.dueBetween t₁ t₂ threshold) :
    r ∈ l.rows ∧ needsEscalation t₁ threshold r = false ∧
      needsEscalation t₂ threshold r = true := by
  obtain ⟨hrow, hbetween⟩ := List.mem_filter.mp h
  simp only [Bool.and_eq_true, Bool.not_eq_true', decide_eq_true_eq] at hbetween
  obtain ⟨⟨hunflagged, hfrom⟩, hto⟩ := hbetween
  refine ⟨hrow, ?_, ?_⟩
  · simp [needsEscalation, hfrom]
  · simp [needsEscalation, hunflagged, hto]

/-- The candidates are the overdue rows. -/
theorem ids_of_candidates {reported : List PendingRequest}
    (h : l.escalationCandidates now threshold = .ok reported) :
    (reported.map (·.id)).Perm ((l.rows.filter (needsEscalation now threshold)).map (·.id)) := by
  have hids : ∀ row r, Row.read row = .ok r → r.id = row.id :=
    fun _ _ hr => (Row.shows_of_read hr).id
  rw [Row.map_of_readAll hids h]
  exact (Sorting.sort_perm _ _).map _

/-- A row that is not overdue is no candidate. -/
theorem not_candidate {reported : List PendingRequest}
    (h : l.escalationCandidates now threshold = .ok reported) (hids : l.IdsIncrease) {r : Row}
    (hr : r ∈ l.rows) (hnot : needsEscalation now threshold r = false) :
    r.id ∉ reported.map (·.id) := by
  intro hmem
  obtain ⟨q, hq, hid⟩ := List.mem_map.mp ((ids_of_candidates h).mem_iff.mp hmem)
  obtain ⟨hqrows, hoverdue⟩ := List.mem_filter.mp hq
  obtain rfl := eq_of_id_eq hids hqrows hr hid
  rw [hnot] at hoverdue
  cases hoverdue

end Ledger

namespace Housekeeping

open Ledger

variable (service : Service) (visibility : Nat) (settings : SchedulerSettings) (t₁ t₂ : Int)
  (w : World)

/-- An escalation whose two calls read the clock one after the other. -/
def escalateAt : (List Int × World) × Except StoreError Nat :=
  (escalate settings).run (World.handleAt service visibility) ([t₁, t₂], w)

theorem escalateAt_of_error {e : StoreError}
    (h : w.ledger.escalationCandidates t₁ settings.escalationThreshold = .error e) :
    escalateAt service visibility settings t₁ t₂ w = (([t₂], { w with now := t₁ }), .error e) := by
  simp [escalateAt, escalate, Relay.store, World.handleAt, World.handle, World.store, Ledger.step,
    h]

/-- What is flagged is decided at the second reading alone. -/
theorem escalateAt_of_ok {reported : List PendingRequest}
    (h : w.ledger.escalationCandidates t₁ settings.escalationThreshold = .ok reported) :
    escalateAt service visibility settings t₁ t₂ w =
      let marked := w.ledger.markForEscalation t₂ settings.escalationThreshold settings.deployment
      (([], { w with now := t₂, ledger := marked.1 }), .ok marked.2) := by
  simp [escalateAt, escalate, Relay.store, World.handleAt, World.handle, World.store, Ledger.step,
    StoreCall.succeed, h]

/-- What an escalation flags. Its two calls may read the clock at two times. When
the candidates cannot be read it ends with that error and flags nothing. Else it
flags the rows that it has reported and besides those that became overdue between
the two readings, and answers with the number of all of them. So it flags what it
has reported, and answers with the length of that list, exactly when no row became
overdue in between; and a row that did is not reported by this escalation nor, its
flag being set, among the candidates at any later reading. -/
theorem escalation_flags (hids : w.ledger.IdsIncrease) (hclock : t₁ ≤ t₂) :
    let threshold := settings.escalationThreshold
    let run := escalateAt service visibility settings t₁ t₂ w
    let after := run.1.2.ledger
    let late := w.ledger.dueBetween t₁ t₂ threshold
    (∀ e, w.ledger.escalationCandidates t₁ threshold = .error e →
      run.2 = .error e ∧ after = w.ledger) ∧
    ∀ reported, w.ledger.escalationCandidates t₁ threshold = .ok reported →
      run.2 = .ok (flagged w.ledger after).length ∧
      (flagged w.ledger after).Perm (reported.map (·.id) ++ late.map (·.id)) ∧
      ((flagged w.ledger after).Perm (reported.map (·.id)) ∧ run.2 = .ok reported.length ↔
        late = []) ∧
      ∀ r ∈ late, r.id ∉ reported.map (·.id) ∧ ∀ now again,
        after.escalationCandidates now threshold = .ok again → r.id ∉ again.map (·.id) := by
  intro threshold run after late
  refine ⟨fun e he => ?_, fun reported hreported => ?_⟩
  · have hrun := escalateAt_of_error service visibility settings t₁ t₂ w he
    exact ⟨congrArg Prod.snd hrun, congrArg (·.1.2.ledger) hrun⟩
  · have hrun := escalateAt_of_ok service visibility settings t₁ t₂ w hreported
    have hafter : after = (w.ledger.markForEscalation t₂ threshold settings.deployment).1 :=
      congrArg (·.1.2.ledger) hrun
    have hflagged : flagged w.ledger after =
        (w.ledger.rows.filter (needsEscalation t₂ threshold)).map (·.id) := by
      rw [hafter, flagged_markForEscalation hids]
    have hanswer : run.2 = .ok (flagged w.ledger after).length := by
      rw [hflagged, List.length_map]
      exact congrArg Prod.snd hrun
    have hperm : (flagged w.ledger after).Perm (reported.map (·.id) ++ late.map (·.id)) := by
      rw [hflagged]
      have hsplit := (overdue_perm hclock w.ledger threshold).map (·.id)
      rw [List.map_append] at hsplit
      exact hsplit.trans ((ids_of_candidates hreported).symm.append_right _)
    refine ⟨hanswer, hperm, ⟨?_, fun hnone => ?_⟩, fun r hr => ?_⟩
    · rintro ⟨hsame, -⟩
      have hlength := hsame.length_eq.symm.trans hperm.length_eq
      simp only [List.length_append, List.length_map] at hlength
      exact List.eq_nil_of_length_eq_zero (by omega)
    · rw [hnone, List.map_nil, List.append_nil] at hperm
      refine ⟨hperm, ?_⟩
      rw [hanswer, hperm.length_eq, List.length_map]
    · obtain ⟨hrow, hearly, hlate⟩ := overdue_of_dueBetween hr
      refine ⟨not_candidate hreported hids hrow hearly, fun now again hagain => ?_⟩
      rw [hafter] at hagain
      have hflag : needsEscalation now threshold (r.changeIf (needsEscalation t₂ threshold)
          (flag settings.deployment)) = false := by
        rw [Row.changeIf, if_pos hlate]
        rfl
      have hgone := not_candidate hagain (markForEscalation_ids_increase hids)
        (mem_markForEscalation hrow) hflag
      rwa [id_changeIf_flag] at hgone

def nearlyOverdue : World :=
  { World.empty 0 with ledger := Ledger.empty.after [(0, .create 1 .request "\x7b\x7d" "local")] }

def impatient : SchedulerSettings :=
  { runInterval := .ofSeconds 120, pendingWait := .ofSeconds 900,
    exceptionLimit := .ofSeconds 14400, escalationThreshold := .ofSeconds 1,
    retention := .ofSeconds 2592000, processingTimeout := .ofSeconds 1800, deployment := "local" }

theorem nearlyOverdue_ids_increase : nearlyOverdue.ledger.IdsIncrease :=
  (after_wellFormed empty_wellFormed _).ids_increase

theorem nearlyOverdue_candidates :
    nearlyOverdue.ledger.escalationCandidates 1000 impatient.escalationThreshold = .ok [] := by
  decide +kernel

/-- At a reading of a second the row is not overdue, and a millisecond later it is. -/
theorem escalation_flags_nearlyOverdue :
    nearlyOverdue.ledger.IdsIncrease ∧ (1000 : Int) ≤ 1001 ∧
      ∃ r ∈ nearlyOverdue.ledger.dueBetween 1000 1001 impatient.escalationThreshold, ∀ now again,
        (escalateAt (fun _ _ => none) 30 impatient 1000 1001
          nearlyOverdue).1.2.ledger.escalationCandidates now impatient.escalationThreshold =
            .ok again → r.id ∉ again.map (·.id) := by
  obtain ⟨-, hflags⟩ := escalation_flags (fun _ _ => none) 30 impatient 1000 1001 nearlyOverdue
    nearlyOverdue_ids_increase (by decide)
  obtain ⟨-, -, -, hlate⟩ := hflags [] nearlyOverdue_candidates
  have hlength : (nearlyOverdue.ledger.dueBetween 1000 1001 impatient.escalationThreshold).length =
      1 := by decide +kernel
  obtain ⟨r, hr⟩ := List.length_eq_one_iff.mp hlength
  have hmem : r ∈ nearlyOverdue.ledger.dueBetween 1000 1001 impatient.escalationThreshold :=
    hr ▸ List.mem_singleton_self r
  exact ⟨nearlyOverdue_ids_increase, by decide, r, hmem, (hlate r hmem).2⟩

/-- An escalation flags a row that it has not reported. -/
theorem flagged_unreported :
    ¬ ∀ (service : Service) (visibility : Nat) (settings : SchedulerSettings) (t₁ t₂ : Int)
        (w : World) (reported : List PendingRequest), w.ledger.IdsIncrease → t₁ ≤ t₂ →
      w.ledger.escalationCandidates t₁ settings.escalationThreshold = .ok reported →
      (flagged w.ledger (escalateAt service visibility settings t₁ t₂ w).1.2.ledger).Perm
          (reported.map (·.id)) ∧
        (escalateAt service visibility settings t₁ t₂ w).2 = .ok reported.length := by
  intro h
  obtain ⟨-, hnone⟩ := h (fun _ _ => none) 30 impatient 1000 1001 nearlyOverdue []
    nearlyOverdue_ids_increase (by decide) nearlyOverdue_candidates
  have hone : (escalateAt (fun _ _ => none) 30 impatient 1000 1001 nearlyOverdue).2 = .ok 1 := by
    rw [escalateAt_of_ok _ _ _ _ _ _ nearlyOverdue_candidates]
    decide +kernel
  rw [hone] at hnone
  cases hnone

end Housekeeping

end HearingRelay
