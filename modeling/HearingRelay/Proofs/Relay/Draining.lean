import HearingRelay.Proofs.Ledger.Untried
import HearingRelay.Proofs.Relay.Redriving

/-!
Re-drives one after the other at one clock reading. Each attempt is paid for by
a row that was not tried at that reading, and no attempt brings such a row back,
so every row is attempted once at most. A call of the service is paid for by the
attempt that it is made in. When no row is left that may be taken, re-drives do
nothing, and go on doing nothing.
-/

namespace HearingRelay

open Ledger

def Exchange.begins (id : Int) (x : Exchange) : Bool :=
  !x.before.ledger.inProgress id && x.after.ledger.inProgress id

def Exchange.callsFor (id : Int) (x : Exchange) : Bool := x.subject?.any (·.id == id)

def Exchange.IsSound (x : Exchange) : Prop :=
  ∀ call, x.question = .send call → ∃ row, x.subject? = some row ∧ call.IsFor row x.before.ledger

namespace Redrive

def repeated (settings : SchedulerSettings) (timeout : Time.Span) :
    Nat → Relay (List (Except SchedulerError RedriveOutcome))
  | 0 => pure []
  | rounds + 1 => do
    let answer ← redriveNext settings timeout
    let answers ← repeated settings timeout rounds
    pure (answer :: answers)

/-- What holds while re-drives are made at a reading, from a ledger on, when at
most `left` rows are untried. The row that is owed a call, if there is one, is
in progress and has not been called for. -/
structure Drains (l : Ledger) (now : Int) (owed : Option Int) (left : Nat) (o : Observed) :
    Prop where
  wellFormed : o.world.ledger.WellFormed
  now_eq : o.world.now = now
  left_le : o.world.ledger.rows.countP (·.untried now) ≤ left
  begun : ∀ id, o.trace.countP (·.begins id) +
    o.world.ledger.rows.countP (fun r => r.id == id && r.untried now) ≤
      l.rows.countP fun r => r.id == id && r.untried now
  called : ∀ id, o.trace.countP (·.callsFor id) + (if owed = some id then 1 else 0) ≤
    o.trace.countP (·.begins id)
  sound : ∀ x ∈ o.trace, x.IsSound

section Steps

variable (service : Service) (visibility : Nat) {l : Ledger} {now : Int} {owed : Option Int}
  {left : Nat} {o : Observed}

theorem start_drains {w : World} (hwf : w.ledger.WellFormed) :
    Drains w.ledger w.now none (w.ledger.rows.countP (·.untried w.now)) (.start w) where
  wellFormed := hwf
  now_eq := rfl
  left_le := Nat.le_refl _
  begun _ := Nat.le_of_eq (Nat.zero_add _)
  called _ := by simp [Observed.start]
  sound := by simp [Observed.start]

theorem begins_exchange {q : Request} (hq : ∀ c, q ≠ .store c) (o : Observed) (id : Int) :
    (o.exchange service visibility q).begins id = false := by
  unfold Exchange.begins
  rw [Observed.exchange_after, Observed.ask_ledger service visibility hq]
  exact Bool.not_and_self _

/-- What a call of the store begins is the row that it takes, if it takes one. -/
theorem begins_store_iff (hwf : o.world.ledger.WellFormed) {c : StoreCall}
    (hc : redrives c = true) (id : Int) :
    (o.exchange service visibility (.store c)).begins id = true ↔
      ∃ wait deployment row, c = .claim wait deployment ∧
        o.world.ledger.oldestEligible? o.world.now wait = some row ∧ row.id = id := by
  rw [Exchange.begins, Bool.and_eq_true_iff, Bool.not_eq_true']
  exact inProgress_step_iff hwf hc

theorem callsFor_exchange {q : Request} (hq : ∀ call, q ≠ .send call) (o : Observed) (id : Int) :
    (o.exchange service visibility q).callsFor id = false := by
  cases q with
  | send call => exact absurd rfl (hq call)
  | _ => rfl

namespace Drains

/-- What is owed may be left out. -/
theorem settle (h : Drains l now owed left o) : Drains l now none left o where
  wellFormed := h.wellFormed
  now_eq := h.now_eq
  left_le := h.left_le
  begun := h.begun
  called id := by
    have hle := h.called id
    simp only [reduceCtorEq, if_false]
    omega
  sound := h.sound

/-- A question keeps the account when what it begins was untried, and what it
calls for has begun. -/
theorem ask (h : Drains l now owed left o) {q : Request} {owed' : Option Int} {left' : Nat}
    (hleft : (o.ask service visibility q).world.ledger.rows.countP (·.untried now) ≤ left')
    (hbegun : ∀ id, (if (o.exchange service visibility q).begins id then 1 else 0) +
      (o.ask service visibility q).world.ledger.rows.countP (fun r => r.id == id && r.untried now) ≤
        o.world.ledger.rows.countP fun r => r.id == id && r.untried now)
    (hcalled : ∀ id, (if (o.exchange service visibility q).callsFor id then 1 else 0) +
      (if owed' = some id then 1 else 0) ≤
        (if (o.exchange service visibility q).begins id then 1 else 0) +
          if owed = some id then 1 else 0)
    (hsound : (o.exchange service visibility q).IsSound) :
    Drains l now owed' left' (o.ask service visibility q) where
  wellFormed := by
    cases q with
    | store c => exact step_wellFormed h.wellFormed o.world.now c
    | _ => exact h.wellFormed
  now_eq := (o.ask_now service visibility q).trans h.now_eq
  left_le := hleft
  begun id := by
    have hle := h.begun id
    have hnew := hbegun id
    rw [Observed.ask_trace, List.countP_cons]
    omega
  called id := by
    have hle := h.called id
    have hnew := hcalled id
    rw [Observed.ask_trace, List.countP_cons, List.countP_cons]
    omega
  sound := List.forall_mem_cons.mpr ⟨hsound, h.sound⟩

/-- Questions that are neither for the store nor for the service change nothing. -/
theorem ask_plain (h : Drains l now owed left o) {q : Request} (hq : ∀ c, q ≠ .store c)
    (hsend : ∀ call, q ≠ .send call) : Drains l now owed left (o.ask service visibility q) := by
  have hledger := o.ask_ledger service visibility hq
  refine h.ask service visibility (hledger ▸ h.left_le) ?_ ?_ ?_
  · intro id
    rw [begins_exchange service visibility hq, hledger]
    exact Nat.le_of_eq (Nat.zero_add _)
  · intro id
    exact Nat.le_of_eq (by
      rw [begins_exchange service visibility hq, callsFor_exchange service visibility hsend])
  · exact fun call hcall => absurd hcall (hsend call)

/-- A call of the service pays what is owed. -/
theorem ask_send {row : Row} (h : Drains l now (some row.id) left o) {call : DownstreamCall}
    (hfor : call.IsFor row o.world.ledger) :
    Drains l now none left (o.ask service visibility (.send call)) := by
  have hsubject := Observed.subject?_send service visibility h.wellFormed hfor
  refine h.ask service visibility h.left_le ?_ ?_ ?_
  · intro id
    rw [begins_exchange service visibility (by simp)]
    exact Nat.le_of_eq (Nat.zero_add _)
  · intro id
    rw [begins_exchange service visibility (by simp), Exchange.callsFor, hsubject]
    simp
  · intro call' hcall
    obtain rfl : call = call' := by injection hcall
    exact ⟨row, hsubject, hfor⟩

/-- A call of the store that takes no row. -/
theorem ask_store (h : Drains l now owed left o) {c : StoreCall} (hc : redrives c = true)
    (hnone : ∀ wait deployment, c = .claim wait deployment →
      o.world.ledger.oldestEligible? o.world.now wait = none) :
    Drains l now owed left (o.ask service visibility (.store c)) := by
  have hinc := h.wellFormed.ids_increase
  obtain rfl := h.now_eq
  have hbegins : ∀ id, (o.exchange service visibility (.store c)).begins id = false := by
    intro id
    refine Bool.eq_false_iff.mpr fun hbegins => ?_
    obtain ⟨wait, deployment, row, hclaim, hrow, _⟩ :=
      (begins_store_iff service visibility h.wellFormed hc id).mp hbegins
    rw [hnone wait deployment hclaim] at hrow
    cases hrow
  refine h.ask service visibility ?_ ?_ ?_ (fun call hcall => by cases hcall)
  · exact Nat.le_trans (countP_untried_step_le (p := fun _ => true) hinc hc) h.left_le
  · intro id
    rw [hbegins]
    exact Nat.le_trans (Nat.le_of_eq (Nat.zero_add _)) (countP_untried_step_le hinc hc)
  · intro id
    exact Nat.le_of_eq (by rw [hbegins, callsFor_exchange service visibility (by simp)])

/-- A claim that takes a row pays with it, and owes it a call. -/
theorem ask_claim (h : Drains l now none left o) (hnow : Bounds.minInt64 ≤ now)
    {wait : Time.Span} {row : Row} (hrow : o.world.ledger.oldestEligible? now wait = some row)
    (deployment : String) : 0 < left ∧
      Drains l now (some row.id) (left - 1)
        (o.ask service visibility (.store (.claim wait deployment))) := by
  have hinc := h.wellFormed.ids_increase
  obtain rfl := h.now_eq
  have hleft : (o.world.ledger.step o.world.now (.claim wait deployment)).1.rows.countP
      (·.untried o.world.now) < o.world.ledger.rows.countP (·.untried o.world.now) :=
    countP_untried_claim_lt (p := fun _ => true) hinc hnow hrow rfl deployment
  have hless := Nat.lt_of_lt_of_le hleft h.left_le
  have hbegins : ∀ id, (o.exchange service visibility (.store (.claim wait deployment))).begins
      id = (row.id == id) := by
    intro id
    rw [Bool.eq_iff_iff, begins_store_iff service visibility h.wellFormed rfl, beq_iff_eq]
    constructor
    · rintro ⟨_, _, r, hclaim, hr, rfl⟩
      obtain ⟨rfl, rfl⟩ := StoreCall.claim.inj hclaim
      rw [Option.some.inj (hrow.symm.trans hr)]
    · exact fun hid => ⟨wait, deployment, row, rfl, hrow, hid⟩
  refine ⟨Nat.zero_lt_of_lt hless, h.ask service visibility (Nat.le_sub_one_of_lt hless) ?_ ?_
    (fun call hcall => by cases hcall)⟩
  · intro id
    rw [hbegins]
    by_cases hid : row.id = id
    · have hlt := countP_untried_claim_lt (p := fun r => r.id == id) hinc hnow hrow
        (beq_iff_eq.mpr hid) deployment
      rw [if_pos (beq_iff_eq.mpr hid), Nat.add_comm]
      exact hlt
    · rw [if_neg (by simpa using hid), Nat.zero_add]
      exact countP_untried_step_le hinc rfl
  · intro id
    rw [hbegins, callsFor_exchange service visibility (by simp)]
    simp

theorem announced (h : Drains l now owed left o) (hearing : Int) (report : Option SyncResponse) :
    Drains l now owed left (o.announced service visibility hearing report) := by
  cases report with
  | none => exact h
  | some report => exact h.ask_plain service visibility (by simp) (by simp)

end Drains

/-- The record of an attempt is a call of a re-drive, and not a claim. -/
theorem recordCall_redrives (deployment : String) (id : Int)
    (result : Except DispatchError HearingResponse) :
    redrives (recordCall deployment id result) = true ∧
      ∀ wait deployment', recordCall deployment id result ≠ .claim wait deployment' := by
  unfold recordCall
  cases result with
  | ok response => exact ⟨rfl, by simp⟩
  | error e =>
    dsimp only
    split
    · exact ⟨rfl, by simp⟩
    · exact ⟨rfl, by simp⟩

theorem Drains.ask_recordCall (h : Drains l now owed left o) (deployment : String) (id : Int)
    (result : Except DispatchError HearingResponse) :
    Drains l now owed left
      (o.ask service visibility (.store (recordCall deployment id result))) := by
  obtain ⟨hredrives, hnot⟩ := recordCall_redrives deployment id result
  exact h.ask_store service visibility hredrives fun wait deployment' hclaim =>
    absurd hclaim (hnot wait deployment')

/-- An attempt makes the call that its row is owed, or none. -/
theorem attempt_drains (settings : SchedulerSettings) (timeout : Time.Span) {row : Row}
    (hrow : row ∈ o.world.ledger.rows) (hprocessing : row.is .processing = true)
    {r : PendingRequest} (hshows : row.Shows r) (h : Drains l now (some row.id) left o) :
    Drains l now none left
      ((attempt settings timeout r).run (Observed.handle service visibility) o).1 := by
  have hclock : Drains l now (some row.id) left (o.ask service visibility .clock) :=
    h.ask_plain service visibility (by simp) (by simp)
  rw [run_attempt]
  dsimp only
  cases r.elapsed? settings.exceptionLimit (Time.Instant.ofMillis o.world.now) with
  | none => exact hclock.settle
  | some overdue =>
    cases overdue with
    | true => exact (hclock.ask_store service visibility rfl (by simp)).settle
    | false =>
      dsimp only
      cases hdoc : Json.parse r.message with
      | error e =>
        rw [Observed.run_deliver_unreadable service visibility _ _ _ hdoc]
        exact (hclock.ask_recordCall service visibility _ _ _).settle
      | ok document =>
        have hfor := isFor_of_shows hshows (l := (o.ask service visibility .clock).world.ledger)
          hrow hprocessing hdoc
        rw [Observed.run_deliver service visibility _ _ _ hdoc]
        have hcalled := (hclock.ask_send service visibility hfor).announced service visibility
          r.hearing ((o.ask service visibility .clock).resultOf service timeout
            ⟨r.eventType, r.hearing, document⟩).report?
        exact hcalled.ask_recordCall service visibility _ _ _

/-- An attempt does not end as if there had been nothing to attempt. -/
theorem attempt_ne_idle (settings : SchedulerSettings) (timeout : Time.Span) (r : PendingRequest)
    (o : Observed) :
    ((attempt settings timeout r).run (Observed.handle service visibility) o).2 ≠ .ok .idle := by
  have hrecord : ∀ result, recordOutcome result ≠ .idle := by
    intro result
    unfold recordOutcome
    repeat' split
    all_goals simp
  rw [run_attempt]
  dsimp only
  cases r.elapsed? settings.exceptionLimit (Time.Instant.ofMillis o.world.now) with
  | none => simp
  | some overdue =>
    cases overdue with
    | true => simp
    | false => exact fun hidle => hrecord _ (Except.ok.inj hidle)

/-- A re-drive that finds a row pays with it, and does not answer that there was none. -/
theorem redriveNext_drains (settings : SchedulerSettings) (timeout : Time.Span)
    (h : Drains l now none left o) (hnow : Bounds.minInt64 ≤ now) {row : Row}
    (hrow : o.world.ledger.oldestEligible? now settings.pendingWait = some row) :
    let ended := (redriveNext settings timeout).run (Observed.handle service visibility) o
    ended.2 ≠ .ok .idle ∧ 0 < left ∧ Drains l now none (left - 1) ended.1 := by
  intro ended
  have hended : ended = _ := run_redriveNext service visibility settings timeout o
  obtain ⟨hleft, hclaimed⟩ := h.ask_claim service visibility hnow hrow settings.deployment
  obtain rfl := h.now_eq
  have hanswer := congrArg Prod.snd (claim_of_oldestEligible hrow settings.deployment)
  dsimp only at hanswer
  rw [hended, hanswer]
  cases hread : (begin o.world.now settings.deployment row).read with
  | error e => exact ⟨by simp [Except.map], hleft, hclaimed.settle⟩
  | ok r =>
    refine ⟨attempt_ne_idle service visibility settings timeout r _, hleft, ?_⟩
    have hbegun := mem_step_of_rowAfter h.wellFormed.ids_increase (mem_of_oldestEligible? hrow).1
      (rowAfter_claim hrow settings.deployment)
    exact attempt_drains service visibility settings timeout hbegun (by simp)
      (Row.shows_of_read hread) hclaimed

end Steps

section Runs

variable (service : Service) (visibility : Nat) (settings : SchedulerSettings)
  (timeout : Time.Span) {l : Ledger} {now : Int} {left : Nat} {o : Observed}

theorem run_repeated_succ (rounds : Nat) :
    (repeated settings timeout (rounds + 1)).run (Observed.handle service visibility) o =
      let first := (redriveNext settings timeout).run (Observed.handle service visibility) o
      let others := (repeated settings timeout rounds).run
        (Observed.handle service visibility) first.1
      (others.1, first.2 :: others.2) := by
  rw [repeated, Program.run_bind, Program.run_bind, Program.run_pure]

/-- Without a row that may be taken all re-drives are idle. -/
theorem idle_of_none
    (hnone : ∀ row, ¬ o.world.ledger.Eligible o.world.now settings.pendingWait row)
    {rounds i : Nat} (hi : i < rounds) :
    ((repeated settings timeout rounds).run (Observed.handle service visibility) o).2[i]? =
      some (.ok .idle) := by
  induction rounds generalizing o i with
  | zero => exact absurd hi (Nat.not_lt_zero i)
  | succ rounds ih =>
    obtain ⟨hrun, hworld⟩ := run_redriveNext_of_none service visibility settings timeout hnone
    rw [run_repeated_succ, hrun]
    cases i with
    | zero => rfl
    | succ i =>
      rw [List.getElem?_cons_succ]
      exact ih (by rwa [hworld]) (Nat.lt_of_succ_lt_succ hi)

/-- The account is kept from one re-drive to the next. -/
theorem repeated_drains (h : Drains l now none left o) (hnow : Bounds.minInt64 ≤ now)
    (rounds : Nat) : ∃ left', Drains l now none left'
      ((repeated settings timeout rounds).run (Observed.handle service visibility) o).1 := by
  induction rounds generalizing o left with
  | zero => exact ⟨left, h⟩
  | succ rounds ih =>
    rw [run_repeated_succ]
    cases hrow : o.world.ledger.oldestEligible? now settings.pendingWait with
    | some row =>
      exact ih (redriveNext_drains service visibility settings timeout h hnow hrow).2.2
    | none =>
      obtain rfl := h.now_eq
      obtain ⟨hrun, _⟩ := run_redriveNext_of_none service visibility settings timeout
        (oldestEligible?_eq_none_iff.mp hrow)
      rw [hrun]
      refine ih (h.ask_store service visibility rfl fun wait deployment hclaim => ?_)
      obtain ⟨rfl, _⟩ := StoreCall.claim.inj hclaim
      exact hrow

/-- From some re-drive on all are idle, and none is before. -/
theorem exists_idle (h : Drains l now none left o) (hnow : Bounds.minInt64 ≤ now) :
    ∃ k ≤ left, ∀ rounds i, i < rounds →
      (((repeated settings timeout rounds).run (Observed.handle service visibility) o).2[i]? =
        some (.ok .idle) ↔ k ≤ i) := by
  -- The pending rows would be no measure: an attempt that fails gives its row back to them.
  induction left using Nat.strongRecOn generalizing o with
  | ind left ih =>
    cases hrow : o.world.ledger.oldestEligible? now settings.pendingWait with
    | none =>
      obtain rfl := h.now_eq
      refine ⟨0, Nat.zero_le left, fun rounds i hi => iff_of_true ?_ (Nat.zero_le i)⟩
      exact idle_of_none service visibility settings timeout
        (oldestEligible?_eq_none_iff.mp hrow) hi
    | some row =>
      obtain ⟨hfirst, hleft, hdrains⟩ :=
        redriveNext_drains service visibility settings timeout h hnow hrow
      obtain ⟨k, hk, hidle⟩ := ih (left - 1) (Nat.sub_one_lt_of_lt hleft) hdrains
      refine ⟨k + 1, by omega, fun rounds i hi => ?_⟩
      cases rounds with
      | zero => exact absurd hi (Nat.not_lt_zero i)
      | succ rounds =>
        rw [run_repeated_succ]
        cases i with
        | zero => exact iff_of_false (fun h => hfirst (Option.some.inj h)) (Nat.not_succ_le_zero k)
        | succ i =>
          rw [List.getElem?_cons_succ, hidle rounds i (Nat.lt_of_succ_lt_succ hi)]
          exact Nat.succ_le_succ_iff.symm

end Runs

/-- Re-driving drains. From every ledger that calls of the store lead to, at
every reading that 64 bits hold, with any settings and any answers of the
service, however many re-drives are made: a row that was pending is attempted
once at most and any other row never, the service is called no more often for a
row than the row was attempted, and always for a row in progress. The re-drives
are idle from one on that comes after as many as there were pending rows, or
sooner, and none is idle before it. -/
theorem redriving_drains (service : Service) (visibility : Nat) (settings : SchedulerSettings)
    (timeout : Time.Span) (w : World) (history : List (Int × StoreCall))
    (hreachable : w.ledger = Ledger.empty.after history) (hreading : Bounds.minInt64 ≤ w.now) :
    let ended (rounds : Nat) := (repeated settings timeout rounds).run
      (Observed.handle service visibility) (.start w)
    (∀ rounds id, (ended rounds).1.trace.countP (·.begins id) ≤
        if (w.ledger.row? id).any (·.is .pending) then 1 else 0) ∧
      (∀ rounds id, (ended rounds).1.trace.countP (·.callsFor id) ≤
        (ended rounds).1.trace.countP (·.begins id)) ∧
      (∀ rounds, ∀ x ∈ (ended rounds).1.trace, x.IsSound) ∧
      ∃ k ≤ w.ledger.rows.countP (·.is .pending), ∀ rounds i, i < rounds →
        ((ended rounds).2[i]? = some (.ok .idle) ↔ k ≤ i) := by
  intro ended
  have hwf : w.ledger.WellFormed := hreachable ▸ after_wellFormed empty_wellFormed history
  have hstart := start_drains hwf
  have hdrains : ∀ rounds, ∃ left, Drains w.ledger w.now none left (ended rounds).1 :=
    repeated_drains service visibility settings timeout hstart hreading
  refine ⟨?_, ?_, ?_, ?_⟩
  · intro rounds id
    obtain ⟨_, h⟩ := hdrains rounds
    have hbegun := h.begun id
    have hpending : w.ledger.rows.countP (fun r => r.id == id && r.untried w.now) ≤
        w.ledger.rows.countP fun r => r.id == id && r.is .pending := by
      refine List.countP_mono_left fun r _ hr => ?_
      obtain ⟨hid, huntried⟩ := Bool.and_eq_true_iff.mp hr
      rw [hid, (Bool.and_eq_true_iff.mp huntried).1]
      rfl
    have hone := countP_id_le hwf.ids_increase id (·.is .pending)
    omega
  · intro rounds id
    obtain ⟨_, h⟩ := hdrains rounds
    exact h.called id
  · intro rounds
    obtain ⟨_, h⟩ := hdrains rounds
    exact h.sound
  · obtain ⟨k, hk, hidle⟩ := exists_idle service visibility settings timeout hstart hreading
    refine ⟨k, Nat.le_trans hk (List.countP_mono_left fun r _ hr => ?_), hidle⟩
    exact (Bool.and_eq_true_iff.mp hr).1

/-- Two rows are pending, their calls do not end, and no wait keeps them from
being taken again. -/
def withoutWait (rounds : Nat) : Observed × List (Except SchedulerError RedriveOutcome) :=
  (repeated { shortWaits with pendingWait := .ofMillis 0 } (.ofMillis 20) rounds).run
    (Observed.handle (fun _ _ => none) 30)
    (.start { World.empty 20 with ledger := Ledger.empty.after onceFailed })

theorem redriving_drains_withoutWait :
    (withoutWait 4).2 = [.ok .retried, .ok .retried, .ok .idle, .ok .idle] ∧
      Bounds.minInt64 ≤ 20 ∧
      ∃ k ≤ 2, ∀ rounds i, i < rounds →
        ((withoutWait rounds).2[i]? = some (.ok .idle) ↔ k ≤ i) := by
  have hreading : Bounds.minInt64 ≤ 20 := by decide
  have hpending : (Ledger.empty.after onceFailed).rows.countP (·.is .pending) = 2 := by
    decide +kernel
  obtain ⟨_, _, _, k, hk, hidle⟩ := redriving_drains (fun _ _ => none) 30
    { shortWaits with pendingWait := .ofMillis 0 } (.ofMillis 20)
    { World.empty 20 with ledger := Ledger.empty.after onceFailed } onceFailed rfl hreading
  exact ⟨by decide +kernel, hreading, k, hpending ▸ hk, hidle⟩

end Redrive

end HearingRelay
