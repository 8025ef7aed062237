import HearingRelay.Proofs.Ledger.Renumbering
import HearingRelay.Proofs.Relay.Agreement

/-!
Two dispatches of one event, side by side. Each runs from surroundings of its own,
in which the rows of the hearing are the same; the identifiers of rows that are
created are read as identifiers of each other. Step by step both runs ask for the
same, leave the same alone and send out the same, and they come to the same end.
-/

namespace HearingRelay

open Ledger

def Service.ofAnswer (answer : DownstreamCall → Option CallResult) : Service :=
  fun _ call => answer call

def Envelope.content (e : Envelope) : Properties × String := (e.properties, e.body)

structure World.Sends (w v : World) (calls : List DownstreamCall)
    (reports : List (Properties × String)) : Prop where
  calls : v.calls = w.calls ++ calls
  reports : v.reports.map Envelope.content = w.reports.map Envelope.content ++ reports

/-- What work for one hearing leaves alone: the clock, the rows of all other
hearings, and the identifiers beyond the last one that it gave out. -/
structure World.Keeps (w : World) (hearing lastId : Int) (v : World) : Prop where
  now : v.now = w.now
  wellFormed : v.ledger.WellFormed
  others : ∀ other, other ≠ hearing → v.ledger.rowsOf other = w.ledger.rowsOf other
  lastId : v.ledger.lastId = lastId

namespace World

variable {w v : World} {calls : List DownstreamCall} {reports : List (Properties × String)}
  {hearing lastId id : Int} {c : StoreCall}

theorem Sends.refl (w : World) : w.Sends w [] [] :=
  ⟨(List.append_nil _).symm, (List.append_nil _).symm⟩

theorem Sends.trans {u : World} {calls' : List DownstreamCall}
    {reports' : List (Properties × String)} (h : w.Sends v calls reports)
    (h' : v.Sends u calls' reports') : w.Sends u (calls ++ calls') (reports ++ reports') where
  calls := by rw [h'.calls, h.calls, List.append_assoc]
  reports := by rw [h'.reports, h.reports, List.append_assoc]

theorem Sends.store (h : w.Sends v calls reports) (c : StoreCall) :
    w.Sends (v.store c).1 calls reports := ⟨h.calls, h.reports⟩

theorem Keeps.refl (hwf : w.ledger.WellFormed) (hearing : Int) :
    w.Keeps hearing w.ledger.lastId w :=
  ⟨rfl, hwf, fun _ _ => rfl, rfl⟩

/-- Marking a row of the hearing. -/
theorem Keeps.mark (h : w.Keeps hearing lastId v) (hrow : v.ledger.HasRow hearing id)
    (hc : marks id c = true) : w.Keeps hearing lastId (v.store c).1 where
  now := h.now
  wellFormed := step_wellFormed h.wellFormed v.now c
  others other hne :=
    (rowsOf_step_of_marks h.wellFormed.ids_increase hrow hc v.now hne).trans (h.others other hne)
  lastId := by
    change (v.ledger.step v.now c).1.lastId = lastId
    rw [step_lastId, added_of_marks hc, h.lastId]
    exact Int.add_zero lastId

end World

/-- Two runs for one hearing that have come equally far, the one from `w` to `v`
and the other from `w'` to `v'`: both have left the same alone, their rows of the
hearing differ in identifiers only, and they have sent out the same. -/
structure World.Abreast (ρ : Equiv.Perm Int) (hearing lastId lastId' : Int) (w w' v v' : World) :
    Prop where
  left : w.Keeps hearing lastId v
  right : w'.Keeps hearing lastId' v'
  now : v'.now = v.now
  rows : v.ledger.Mirrors ρ hearing v'.ledger
  sent : ∃ calls reports, w.Sends v calls reports ∧ w'.Sends v' calls reports

namespace World.Abreast

variable {ρ : Equiv.Perm Int} {hearing lastId lastId' id : Int} {w w' v v' : World}
  {c : StoreCall}

/-- Each run marks the row that is the mirror image of the other's. -/
theorem mark (h : Abreast ρ hearing lastId lastId' w w' v v')
    (hrow : v.ledger.HasRow hearing id) (hc : marks id c = true) :
    Abreast ρ hearing lastId lastId' w w' (v.store c).1 (v'.store (c.renumber ρ)).1 where
  left := h.left.mark hrow hc
  right := h.right.mark (hrow.mirror h.rows) (marks_renumber hc)
  now := h.now
  rows := by
    change (v.ledger.step v.now c).1.Mirrors ρ hearing (v'.ledger.step v'.now (c.renumber ρ)).1
    rw [h.now]
    exact h.rows.step h.left.wellFormed.ids_increase h.right.wellFormed.ids_increase hc v.now
  sent := by
    obtain ⟨calls, reports, hsent, hsent'⟩ := h.sent
    exact ⟨calls, reports, hsent.store c, hsent'.store _⟩

/-- Both runs send out the same, and nothing else happens. -/
theorem send (h : Abreast ρ hearing lastId lastId' w w' v v') {u u' : World}
    {calls : List DownstreamCall} {reports : List (Properties × String)}
    (hsent : v.Sends u calls reports) (hsent' : v'.Sends u' calls reports)
    (hledger : u.ledger = v.ledger) (hledger' : u'.ledger = v'.ledger)
    (hnow : u.now = v.now) (hnow' : u'.now = v'.now) :
    Abreast ρ hearing lastId lastId' w w' u u' := by
  obtain ⟨before, reported, hbefore, hbefore'⟩ := h.sent
  refine ⟨⟨hnow.trans h.left.now, hledger ▸ h.left.wellFormed, ?_, hledger ▸ h.left.lastId⟩,
    ⟨hnow'.trans h.right.now, hledger' ▸ h.right.wellFormed, ?_, hledger' ▸ h.right.lastId⟩,
    hnow'.trans (h.now.trans hnow.symm), ?_, ?_⟩
  · rw [hledger]
    exact h.left.others
  · rw [hledger']
    exact h.right.others
  · rw [hledger, hledger']
    exact h.rows
  · exact ⟨before ++ calls, reported ++ reports, hbefore.trans hsent, hbefore'.trans hsent'⟩

end World.Abreast

namespace Dispatch

def Entry.renumber (ρ : Equiv.Perm Int) : Entry → Entry
  | .claimable r => .claimable (r.renumber ρ)
  | .completed r => .completed (r.renumber ρ)
  | .inFlight r => .inFlight (r.renumber ρ)

/-- How many identifiers an event takes: one, if a row has to be created and can be. -/
def Event.idsTaken (event : Event) (l : Ledger) : Int :=
  match event.lookup l with
  | .ok none => if l.lastId < Bounds.maxInt64 then 1 else 0
  | _ => 0

theorem Event.lookup_congr {event : Event} {l l' : Ledger}
    (h : l'.rowsOf event.key.hearing = l.rowsOf event.key.hearing) :
    event.lookup l' = event.lookup l := by
  unfold Event.lookup
  rw [findByHearing_congr h]

/-- What a lookup finds is a row of the hearing. -/
theorem hasRow_of_lookup {event : Event} {l : Ledger} {r : PendingRequest}
    (h : event.lookup l = .ok (some r)) : l.HasRow event.key.hearing r.id := by
  obtain ⟨rows, hread, hmatch⟩ := exists_rows_of_lookup h
  obtain ⟨row, hrow, hshown, hcarries, _⟩ := row_of_matchRow? hread hmatch
  rw [(Row.shows_of_read hshown).id, ← (Row.carries_iff.mp hcarries).1]
  exact hasRow_of_mem hrow

/-- Surroundings in which an event finds the same, and gets a row in both or in
none, under identifiers that answer each other. -/
structure Event.Alike (event : Event) (ρ : Equiv.Perm Int) (w w' : World) : Prop where
  now : w'.now = w.now
  dated : Time.Dated w.now
  wellFormed : w.ledger.WellFormed
  wellFormed' : w'.ledger.WellFormed
  rows : w'.ledger.rowsOf event.key.hearing = w.ledger.rowsOf event.key.hearing
  fixed : ∀ r ∈ w.ledger.rowsOf event.key.hearing, ρ r.id = r.id
  next : event.lookup w.ledger = .ok none → ρ (w.ledger.lastId + 1) = w'.ledger.lastId + 1
  space : event.lookup w.ledger = .ok none →
    (w.ledger.lastId < Bounds.maxInt64 ↔ w'.ledger.lastId < Bounds.maxInt64)

section SideBySide

variable (answer : DownstreamCall → Option CallResult) (visibility : Nat)
  (settings : DispatchSettings) {event : Event} {ρ : Equiv.Perm Int} {w w' : World}

theorem Event.Alike.start (h : event.Alike ρ w w') :
    World.Abreast ρ event.key.hearing w.ledger.lastId w'.ledger.lastId w w' w w' where
  left := .refl h.wellFormed _
  right := .refl h.wellFormed' _
  now := h.now
  rows := mirrors_of_rowsOf_eq h.rows h.fixed
  sent := ⟨[], [], .refl w, .refl w'⟩

/-- A row that is created for an event concerns its hearing only, and takes one identifier. -/
theorem keeps_creation (event : Event) (deployment : String) (hwf : w.ledger.WellFormed)
    {taken : Int} (htaken : taken = if w.ledger.lastId < Bounds.maxInt64 then 1 else 0) :
    w.Keeps event.key.hearing (w.ledger.lastId + taken)
      (w.store (event.creation deployment)).1 := by
  refine ⟨rfl, step_wellFormed hwf _ _, ?_, ?_⟩
  · exact fun other hne => rowsOf_create_of_ne _ _ _ _ hwf.ids_increase hne
  · change (w.ledger.step w.now (event.creation deployment)).1.lastId = _
    rw [step_lastId, htaken]
    by_cases hfree : w.ledger.lastId < Bounds.maxInt64
    · rw [added_creation event hfree, if_pos hfree]
      rfl
    · simp [Event.creation, added, hfree, Int.not_lt.mp hfree]

/-- A row that both runs create. -/
theorem Event.Alike.create (h : event.Alike ρ w w') (hnone : event.lookup w.ledger = .ok none)
    (deployment : String) :
    World.Abreast ρ event.key.hearing (w.ledger.lastId + event.idsTaken w.ledger)
        (w'.ledger.lastId + event.idsTaken w.ledger) w w'
        (w.store (event.creation deployment)).1 (w'.store (event.creation deployment)).1 ∧
      (w'.store (event.creation deployment)).2 =
        (w.store (event.creation deployment)).2.map (·.renumber ρ) := by
  have hspace := h.space hnone
  have hrows := mirrors_create w.now event.key.eventType event.body deployment h.rows
    (h.next hnone) hspace h.wellFormed.ids_increase h.wellFormed'.ids_increase h.fixed
  have hanswer := create_renumber w.now event.key.eventType event.body deployment h.rows
    (h.next hnone) hspace h.dated
  have htaken : event.idsTaken w.ledger =
      if w.ledger.lastId < Bounds.maxInt64 then 1 else 0 := by
    rw [Event.idsTaken, hnone]
  have htaken' : event.idsTaken w.ledger =
      if w'.ledger.lastId < Bounds.maxInt64 then 1 else 0 := by
    rw [htaken]
    exact if_congr hspace rfl rfl
  refine ⟨⟨keeps_creation event deployment h.wellFormed htaken,
    keeps_creation event deployment h.wellFormed' htaken', h.now, ?_, ?_⟩, ?_⟩
  · change (w.ledger.step w.now _).1.Mirrors ρ _ (w'.ledger.step w'.now _).1
    rw [h.now]
    exact hrows
  · exact ⟨[], [], (World.Sends.refl w).store _, (World.Sends.refl w').store _⟩
  · change (w'.ledger.step w'.now _).2 = _
    rw [h.now]
    exact hanswer

/-- Both runs find the same, but for the identifier of a row that is created. -/
theorem Event.Alike.findEntry (h : event.Alike ρ w w') (service : Service) :
    let ended := (Dispatch.findEntry settings.deployment event).run
      (Observed.handle service visibility) (.start w)
    let ended' := (Dispatch.findEntry settings.deployment event).run
      (Observed.handle service visibility) (.start w')
    World.Abreast ρ event.key.hearing (w.ledger.lastId + event.idsTaken w.ledger)
        (w'.ledger.lastId + event.idsTaken w.ledger) w w' ended.1.world ended'.1.world ∧
      ended'.2 = ended.2.map (·.renumber ρ) := by
  intro ended ended'
  have hended : ended = _ := run_findEntry service visibility settings event (.start w)
  have hended' : ended' = _ := run_findEntry service visibility settings event (.start w')
  have hsame : event.lookup w'.ledger = event.lookup w.ledger := Event.lookup_congr h.rows
  rw [hended, hended']
  change World.Abreast _ _ _ _ _ _ _ _ ∧ _
  simp only [Observed.start, hsame]
  have hstart := h.start
  cases hlookup : event.lookup w.ledger with
  | error e =>
    have htaken : event.idsTaken w.ledger = 0 := by rw [Event.idsTaken, hlookup]
    rw [htaken, Int.add_zero, Int.add_zero]
    exact ⟨hstart, rfl⟩
  | ok found =>
    cases found with
    | none =>
      obtain ⟨hcreated, hanswer⟩ := h.create hlookup settings.deployment
      refine ⟨hcreated, ?_⟩
      change (w'.store (event.creation settings.deployment)).2.map Entry.claimable =
        ((w.store (event.creation settings.deployment)).2.map Entry.claimable).map _
      rw [hanswer]
      cases (w.store (event.creation settings.deployment)).2 <;> rfl
    | some r =>
      have htaken : event.idsTaken w.ledger = 0 := by rw [Event.idsTaken, hlookup]
      rw [htaken, Int.add_zero, Int.add_zero]
      have hrow := hasRow_of_lookup hlookup
      have hfixed : ρ r.id = r.id := by
        obtain ⟨row, hmem, hid⟩ := hrow
        rw [← hid]
        exact h.fixed row hmem
      have hr : r.renumber ρ = r := by
        unfold PendingRequest.renumber
        rw [hfixed]
      dsimp only
      cases hstatus : r.status with
      | completed => exact ⟨hstart, congrArg (fun r => Except.ok (Entry.completed r)) hr.symm⟩
      | processing => exact ⟨hstart, congrArg (fun r => Except.ok (Entry.inFlight r)) hr.symm⟩
      | pending => exact ⟨hstart, congrArg (fun r => Except.ok (Entry.claimable r)) hr.symm⟩
      | exception =>
        have hmarked := hstart.mark hrow (c := .requeueException r.id settings.deployment)
          (by simp [marks])
        have hcall : (StoreCall.requeueException r.id settings.deployment).renumber ρ =
            .requeueException r.id settings.deployment := by
          simp [StoreCall.renumber, hfixed]
        rw [hcall] at hmarked
        exact ⟨hmarked, congrArg (fun r => Except.ok (Entry.claimable r)) hr.symm⟩

/-- A call is sent out with its report, if it has one. -/
theorem called_sends (o : Observed) (timeout : Time.Span) (call : DownstreamCall) :
    o.world.Sends (o.called (Service.ofAnswer answer) visibility timeout call).world [call]
      ((Delivery.resultWithin timeout (answer call)).report?.toList.map fun report =>
        (SyncResponse.properties call.hearing, report.write)) := by
  have hresult : o.resultOf (Service.ofAnswer answer) timeout call =
      Delivery.resultWithin timeout (answer call) := rfl
  unfold Observed.called
  rw [hresult]
  cases (Delivery.resultWithin timeout (answer call)).report? with
  | none => exact ⟨rfl, (List.append_nil _).symm⟩
  | some report => exact ⟨rfl, List.map_append⟩

/-- The failure of an attempt is recorded in the row that was taken. -/
theorem failureCall_renumber (id : Int) (deliveryCount : Nat) (e : DispatchError) :
    (failureCall settings id deliveryCount e).renumber ρ =
      failureCall settings (ρ id) deliveryCount e := by
  unfold failureCall
  split <;> rfl

section Attempt

variable {o o' : Observed} {r : PendingRequest} {document : Json.Value} {lastId lastId' : Int}

/-- Both runs deliver the row that they have taken, and record the same. -/
theorem attempt_abreast (hmessage : r.message = event.body)
    (hdoc : Json.parse event.body = .ok document)
    (h : World.Abreast ρ event.key.hearing lastId lastId' w w' o.world o'.world)
    (hrow : o.world.ledger.HasRow event.key.hearing r.id) (deliveryCount : Nat) :
    let ended := (attempt settings event r deliveryCount).run
      (Observed.handle (Service.ofAnswer answer) visibility) o
    let ended' := (attempt settings event (r.renumber ρ) deliveryCount).run
      (Observed.handle (Service.ofAnswer answer) visibility) o'
    World.Abreast ρ event.key.hearing lastId lastId' w w' ended.1.world ended'.1.world ∧
      ended'.2 = ended.2 := by
  intro ended ended'
  have hcalled := h.send
    (called_sends answer visibility o settings.timeout (event.call document))
    (called_sends answer visibility o' settings.timeout (event.call document))
    (Observed.called_ledger _ visibility o _ _) (Observed.called_ledger _ visibility o' _ _)
    (Observed.called_now _ visibility o _ _) (Observed.called_now _ visibility o' _ _)
  rw [← Observed.called_ledger (Service.ofAnswer answer) visibility o settings.timeout
    (event.call document)] at hrow
  have hmessage' : (r.renumber ρ).message = event.body := hmessage
  cases hresult : Delivery.resultWithin settings.timeout (answer (event.call document)) with
  | ok response =>
    have hended : ended = _ := run_attempt_ok _ visibility settings event hmessage hdoc
      deliveryCount (o := o) hresult
    have hended' : ended' = _ := run_attempt_ok _ visibility settings event hmessage' hdoc
      deliveryCount (o := o') hresult
    rw [hended, hended']
    exact ⟨hcalled.mark hrow (c := .markCompleted r.id settings.deployment) (by simp [marks]), rfl⟩
  | error e =>
    have hended : ended = _ := run_attempt_error _ visibility settings event hmessage hdoc
      deliveryCount (o := o) hresult
    have hended' : ended' = _ := run_attempt_error _ visibility settings event hmessage' hdoc
      deliveryCount (o := o') hresult
    have hmarked := hcalled.mark hrow
      (marks_failureCall settings r.id deliveryCount (.downstream e))
    rw [failureCall_renumber] at hmarked
    rw [hended, hended']
    exact ⟨hmarked, rfl⟩

/-- Side by side from the lookup of an event to its end, both runs come to the
same result. -/
theorem Event.Alike.process (h : event.Alike ρ w w') (hdoc : Json.parse event.body = .ok document)
    (deliveryCount : Nat) :
    let ended := (Dispatch.process settings event deliveryCount).run
      (Observed.handle (Service.ofAnswer answer) visibility) (.start w)
    let ended' := (Dispatch.process settings event deliveryCount).run
      (Observed.handle (Service.ofAnswer answer) visibility) (.start w')
    World.Abreast ρ event.key.hearing (w.ledger.lastId + event.idsTaken w.ledger)
        (w'.ledger.lastId + event.idsTaken w.ledger) w w' ended.1.world ended'.1.world ∧
      ended'.2 = ended.2 := by
  intro ended ended'
  have hended : ended = _ := run_process _ visibility settings event deliveryCount (.start w)
  have hended' : ended' = _ := run_process _ visibility settings event deliveryCount (.start w')
  obtain ⟨hfound, hanswer⟩ := h.findEntry visibility settings (Service.ofAnswer answer)
  have hrow := found_findEntry (Service.ofAnswer answer) visibility settings event (.start w)
  rw [hended, hended']
  generalize (Dispatch.findEntry settings.deployment event).run
    (Observed.handle (Service.ofAnswer answer) visibility) (Observed.start w) = p
    at hfound hanswer hrow ⊢
  generalize (Dispatch.findEntry settings.deployment event).run
    (Observed.handle (Service.ofAnswer answer) visibility) (Observed.start w') = p'
    at hfound hanswer ⊢
  obtain ⟨o, found⟩ := p
  obtain ⟨o', found'⟩ := p'
  obtain rfl : found' = found.map (·.renumber ρ) := hanswer
  cases found with
  | error e => exact ⟨hfound, rfl⟩
  | ok entry =>
    cases entry with
    | completed r => exact ⟨hfound, rfl⟩
    | inFlight r => exact ⟨hfound, rfl⟩
    | claimable r =>
      obtain ⟨⟩ | ⟨⟩ | ⟨⟩ | ⟨row, _, _, hready, hid, hmessage⟩ | ⟨⟩ := hrow
      obtain ⟨hmem, hcarries, hpending⟩ := hready.row _ _ _ _ h.wellFormed
      have hhearing := (Row.carries_iff.mp hcarries).1
      have hhas : o.world.ledger.HasRow event.key.hearing r.id :=
        hid ▸ hhearing ▸ hasRow_of_mem hmem
      have hinc := hfound.left.wellFormed.ids_increase
      have hblocked := hfound.rows.isBlocked hhearing
      have htaken := markProcessing_answer hinc hmem hpending o.world.now settings.deployment
      have htaken' := markProcessing_answer hfound.right.wellFormed.ids_increase
        (hfound.rows.mem hmem hhearing) hpending o'.world.now settings.deployment
      rw [← hid] at htaken
      rw [hblocked, Row.renumber_id, ← hid] at htaken'
      have hclaimed := hfound.mark hhas (c := .markProcessing r.id settings.deployment)
        (by simp [marks])
      dsimp only [proceeded, Except.map, Entry.renumber, PendingRequest.renumber]
      rw [htaken, htaken']
      cases o.world.ledger.isBlocked row with
      | true => exact ⟨hclaimed, rfl⟩
      | false =>
        have hstill := hhas.step hinc (c := .markProcessing r.id settings.deployment)
          (by simp [marks]) o.world.now
        exact attempt_abreast answer visibility settings hmessage hdoc hclaimed hstill deliveryCount

end Attempt

/-- A dispatch comes to the same in surroundings in which its event finds the same. -/
theorem Event.Alike.dispatch (h : event.Alike ρ w w') {e : Envelope}
    (hevent : eventOf e = .ok event) (deliveryCount : Nat) :
    let ended := (HearingRelay.dispatch settings e deliveryCount).run
      (World.handle (Service.ofAnswer answer) visibility) w
    let ended' := (HearingRelay.dispatch settings e deliveryCount).run
      (World.handle (Service.ofAnswer answer) visibility) w'
    World.Abreast ρ event.key.hearing (w.ledger.lastId + event.idsTaken w.ledger)
        (w'.ledger.lastId + event.idsTaken w.ledger) w w' ended.1 ended'.1 ∧
      ended'.2 = ended.2 := by
  intro ended ended'
  obtain ⟨_, document, hdoc⟩ := body_of_eventOf hevent
  obtain ⟨habreast, hresult⟩ := h.process answer visibility settings hdoc deliveryCount
  have hended : _ = ended := Observed.run_handle (Service.ofAnswer answer) visibility
    (HearingRelay.dispatch settings e deliveryCount) (.start w)
  have hended' : _ = ended' := Observed.run_handle (Service.ofAnswer answer) visibility
    (HearingRelay.dispatch settings e deliveryCount) (.start w')
  rw [run_dispatch hevent] at hended hended'
  rw [← hended, ← hended']
  exact ⟨habreast, congrArg (conclusion settings e.body deliveryCount) hresult⟩

end SideBySide

end Dispatch

end HearingRelay
