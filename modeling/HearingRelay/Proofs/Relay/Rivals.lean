import HearingRelay.Proofs.Ledger.Order
import HearingRelay.Proofs.Relay.Course
import HearingRelay.Proofs.Relay.Interleaving

/-!
Dispatches of one event that take turns. Each looks for a row of the event,
adds one if it finds none, and takes and calls for the row that it has. Nothing
holds a look-up and the addition after it together, so as many rows may be added
as there are look-ups before the first of them; but no more, and no row is
called for twice.
-/

namespace HearingRelay

inductive Stage where
  | looking
  /-- No row of the event was found. -/
  | unmatched
  /-- A row of the event is there to be taken. -/
  | ready (id : Int)
  | taken (id : Int)
  /-- The call for the row was accepted. -/
  | called (id : Int)
  | ended
  /-- Nothing is said about the rest. -/
  | astray
deriving DecidableEq

namespace Stage

open Dispatch

variable (event : Event)

def allows : Stage → Request → Prop
  | looking, .store (.rowsOfHearing hearing) => hearing = event.key.hearing
  | unmatched, .store (.create hearing eventType message _) =>
    hearing = event.key.hearing ∧ eventType = event.key.eventType ∧ message = event.body
  | ready id, .store (.markProcessing i _) => i = id
  | taken _, .send _ => True
  | called _, .publish .. => True
  | called id, .store (.markCompleted i _) => i = id
  | astray, _ => True
  | _, _ => False

def found (rows : List PendingRequest) : Stage :=
  match matchRow? event rows with
  | none => unmatched
  | some r =>
    match r.status with
    | .pending => ready r.id
    | .exception => astray
    | .processing | .completed => ended

def after : Stage → (q : Request) → q.Answer → Stage
  | looking, .store (.rowsOfHearing _), .ok rows => found event rows
  | looking, .store (.rowsOfHearing _), .error _ => ended
  | unmatched, .store (.create ..), .ok r => if r.message = event.body then ready r.id else astray
  | unmatched, .store (.create ..), .error _ => ended
  | ready id, .store (.markProcessing ..), .ok true => taken id
  | ready _, .store (.markProcessing ..), _ => ended
  | taken id, .send _, some (.ok _) => called id
  | taken _, .send _, _ => astray
  | called _, .store (.markCompleted ..), _ => ended
  | stage, _, _ => stage

end Stage

/-- The course of a dispatch whose call is accepted. -/
def delivering (event : Dispatch.Event) : Protocol Request.Answer Stage where
  allows := Stage.allows event
  after := Stage.after event

section Programs

open Program Stage Dispatch

variable {event : Event}

theorem follows_astray {α : Type} (x : Relay α) {post : α → Stage → Prop}
    (hpost : ∀ a, post a .astray) : x.Follows (delivering event) post .astray := by
  induction x with
  | done a => exact hpost a
  | ask q next ih => exact ⟨trivial, fun answer => ih answer⟩

def Stage.Fits (event : Event) (entry : Except StoreError Dispatch.Entry) (stage : Stage) : Prop :=
  stage = .astray ∨
    match entry with
    | .ok (.claimable r) => stage = .ready r.id ∧ r.message = event.body
    | _ => stage = .ended

theorem create_delivering (deployment : String) :
    (Relay.store (.create event.key.hearing event.key.eventType event.body deployment)).Follows
      (delivering event) (fun answer => Fits event (answer.map .claimable)) .unmatched := by
  refine follows_call ⟨rfl, rfl, rfl⟩ fun answer => ?_
  cases answer with
  | error err => exact Or.inr rfl
  | ok r =>
    by_cases hmessage : r.message = event.body
    · exact Or.inr ⟨if_pos hmessage, hmessage⟩
    · exact Or.inl (if_neg hmessage)

theorem findEntry_delivering (deployment : String) :
    (findEntry deployment event).Follows (delivering event) (Fits event) .looking := by
  have hlooked : (Relay.store (.rowsOfHearing event.key.hearing)).Follows (delivering event)
      (fun answer stage => stage = Stage.after event .looking
        (.store (.rowsOfHearing event.key.hearing)) answer) .looking :=
    follows_call rfl fun _ => rfl
  refine hlooked.bind fun answer stage hstage => ?_
  cases answer with
  | error err => exact follows_pure (Or.inr hstage)
  | ok rows =>
    replace hstage : stage = found event rows := hstage
    unfold found at hstage
    dsimp only
    cases hmatch : matchRow? event rows with
    | none =>
      rw [hmatch] at hstage
      obtain rfl := hstage
      refine (create_delivering deployment).bind fun answer stage h => ?_
      cases answer <;> exact follows_pure h
    | some r =>
      rw [hmatch] at hstage
      dsimp only at hstage ⊢
      cases hstatus : r.status with
      | completed =>
        rw [hstatus] at hstage
        exact follows_pure (Or.inr hstage)
      | processing =>
        rw [hstatus] at hstage
        exact follows_pure (Or.inr hstage)
      | pending =>
        rw [hstatus] at hstage
        exact follows_pure (Or.inr ⟨hstage, message_of_matchRow? hmatch⟩)
      | exception =>
        rw [hstatus] at hstage
        obtain rfl := hstage
        exact follows_astray _ fun _ => Or.inl rfl

theorem attempt_delivering (settings : DispatchSettings) {r : PendingRequest}
    {document : Json.Value} (hdoc : Json.parse r.message = .ok document) (deliveryCount : Nat) :
    (attempt settings event r deliveryCount).Follows (delivering event) (fun _ _ => True)
      (.taken r.id) := by
  have hdelivered : (Delivery.deliver settings.timeout event.key.hearing event.key.eventType
      r.message).Follows (delivering event) (fun result stage => stage = .astray ∨
        stage = .called r.id ∧ ∃ response, result = .ok response) (.taken r.id) := by
    refine Delivery.deliver_follows (fun answer stage => stage = .astray ∨
      stage = .called r.id ∧ ∃ response, answer = some (.ok response)) ?_ ?_ ?_ ?_
    · intro e hunreadable
      rw [hdoc] at hunreadable
      cases hunreadable
    · intro document _
      refine ⟨trivial, fun answer => ?_⟩
      match answer with
      | none => exact Or.inl rfl
      | some (.error e) => exact Or.inl rfl
      | some (.ok response) => exact Or.inr ⟨rfl, response, rfl⟩
    · rintro answer _ report (rfl | ⟨rfl, haccepted⟩)
      · exact ⟨trivial, fun _ => Or.inl rfl⟩
      · exact ⟨trivial, fun _ => Or.inr ⟨rfl, haccepted⟩⟩
    · rintro answer _ (rfl | ⟨rfl, response, rfl⟩)
      · exact Or.inl rfl
      · exact Or.inr ⟨rfl, response, rfl⟩
  refine hdelivered.bind fun result stage h => ?_
  rcases h with rfl | ⟨rfl, response, rfl⟩
  · exact follows_astray _ fun _ => trivial
  · refine (follows_call rfl fun _ => trivial :
      (Relay.store (.markCompleted r.id settings.deployment)).Follows (delivering event)
        (fun _ _ => True) (.called r.id)).bind fun answer _ _ => ?_
    cases answer <;> exact follows_pure trivial

/-- A dispatch of the event follows its course, whatever it is answered. -/
theorem process_delivering {document : Json.Value} (hdoc : Json.parse event.body = .ok document)
    (settings : DispatchSettings) (deliveryCount : Nat) :
    (process settings event deliveryCount).Follows (delivering event) (fun _ _ => True)
      .looking := by
  refine (findEntry_delivering settings.deployment).bind fun entry stage h => ?_
  rcases h with rfl | h
  · exact follows_astray _ fun _ => trivial
  · split
    · exact follows_pure trivial
    · exact follows_pure trivial
    · exact follows_pure trivial
    · next r =>
      obtain ⟨rfl, hmessage⟩ := h
      have htaken : (Relay.store (.markProcessing r.id settings.deployment)).Follows
          (delivering event) (fun answer stage => answer = .ok true → stage = .taken r.id)
            (.ready r.id) :=
        follows_call rfl fun answer hanswer => by
          subst hanswer
          rfl
      refine htaken.bind fun answer stage h => ?_
      split
      · exact follows_pure trivial
      · exact follows_pure trivial
      · rw [h rfl]
        exact attempt_delivering settings (hmessage ▸ hdoc) deliveryCount

theorem dispatch_delivering {e : Envelope} (he : eventOf e = .ok event)
    (settings : DispatchSettings) (deliveryCount : Nat) :
    (Task.dispatch settings e deliveryCount).program.Follows (delivering event) (fun _ _ => True)
      .looking := by
  obtain ⟨_, document, hdoc⟩ := body_of_eventOf he
  refine Follows.bind (M := fun _ _ => True) ?_ fun _ _ _ => follows_pure trivial
  unfold HearingRelay.dispatch
  rw [he]
  refine (process_delivering hdoc settings deliveryCount).bind fun result _ _ => ?_
  cases result <;> exact follows_pure trivial

end Programs

def StoreCall.Proceeds (event : Dispatch.Event) : StoreCall → Prop
  | .create hearing eventType message _ =>
    hearing = event.key.hearing ∧ eventType = event.key.eventType ∧ message = event.body
  | .rowsOfHearing _ | .markProcessing .. | .markCompleted .. => True
  | _ => False

namespace Ledger

variable {l : Ledger} {now first : Int} {c : StoreCall} {event : Dispatch.Event} {r q : Row}

/-- A ledger in which the rows of the event are the newest ones, and none was given up. -/
structure Tends (event : Dispatch.Event) (first : Int) (l : Ledger) : Prop where
  wellFormed : l.WellFormed
  ordered : l.Ordered
  first_le : first ≤ l.lastId
  carries_iff : ∀ r ∈ l.rows, r.carries event = true ↔ first < r.id
  no_exception : ∀ r ∈ l.rows, r.carries event = true → r.is .exception = false

theorem carries_added (hc : c.Proceeds event) (hq : q ∈ l.added now c) :
    q.carries event = true := by
  cases c with
  | create hearing eventType message deployment =>
    obtain ⟨rfl, rfl, rfl⟩ := hc
    simp only [added] at hq
    split at hq
    · cases hq
    · obtain rfl := List.mem_singleton.mp hq
      simp [Row.carries, newRow]
  | _ => cases hq

/-- On the course of a dispatch a row is taken or completed, if anything. -/
theorem Passage.of_proceeds (h : Passage l now c r q) (hc : c.Proceeds event) :
    q = r ∨ (∃ deployment, q = begin now deployment r) ∨
      ∃ deployment, q = finish .completed now deployment r := by
  cases h with
  | stays => exact Or.inl rfl
  | taken deployment => exact Or.inr (Or.inl ⟨deployment, rfl⟩)
  | completed deployment => exact Or.inr (Or.inr ⟨deployment, rfl⟩)
  | claimed => exact hc.elim
  | givenUp => exact hc.elim
  | retried => exact hc.elim
  | requeued => exact hc.elim
  | flagged => exact hc.elim
  | reclaimed => exact hc.elim

/-- No row comes into another status on the course of a dispatch. -/
theorem Passage.is_eq_false (h : Passage l now c r q) (hc : c.Proceeds event) {s : Status}
    (hprocessing : s ≠ .processing) (hcompleted : s ≠ .completed) (hr : r.is s = false) :
    q.is s = false := by
  rcases h.of_proceeds hc with rfl | ⟨deployment, rfl⟩ | ⟨deployment, rfl⟩
  · exact hr
  · simpa using hprocessing.symm
  · simpa using hcompleted.symm

def isTried (event : Dispatch.Event) (r : Row) : Bool := r.carries event && !r.is .pending

namespace Tends

theorem step (h : l.Tends event first) (hc : c.Proceeds event) (now : Int) :
    (l.step now c).1.Tends event first := by
  have hinc := h.wellFormed.ids_increase
  have hfirst := h.first_le
  refine ⟨step_wellFormed h.wellFormed now c, step_ordered h.wellFormed h.ordered now c, ?_, ?_, ?_⟩
  · rw [step_lastId]
    omega
  · intro q hq
    rcases (mem_step_rows hinc).mp hq with ⟨r, hr, hpass⟩ | hnew
    · have hsame := (passage_of_rowAfter hpass).sameEvent
      rw [hsame.carries, hsame.id]
      exact h.carries_iff r hr
    · have hid := (added_spec hnew).1
      exact iff_of_true (carries_added hc hnew) (by omega)
  · intro q hq hcarries
    rcases (mem_step_rows hinc).mp hq with ⟨r, hr, hpass⟩ | hnew
    · have hpassage := passage_of_rowAfter hpass
      rw [hpassage.sameEvent.carries] at hcarries
      exact hpassage.is_eq_false hc (by decide) (by decide) (h.no_exception r hr hcarries)
    · exact Row.is_eq_false (added_spec hnew).2.1 (by decide)

/-- No row of the event is missed by a look-up that finds none. -/
theorem blind_of_matchRow? (h : l.Tends event first) {rows : List PendingRequest}
    (hread : l.findByHearing event.key.hearing = .ok rows)
    (hmatch : Dispatch.matchRow? event rows = none) :
    ∀ r ∈ l.rows, r.carries event = false := by
  intro r hr
  by_contra hcarries
  rw [Bool.not_eq_false] at hcarries
  have hhearing := (Row.carries_iff.mp hcarries).1
  obtain ⟨q, hlatest, hle⟩ := exists_latest h.wellFormed h.ordered hr
  rw [hhearing] at hlatest
  have hother := (Dispatch.settles_of_matchRow? hread hmatch).superseded q hlatest
  have hlt := (h.carries_iff r hr).mp hcarries
  rw [(h.carries_iff q (mem_of_latest? hlatest).1).mpr (by omega)] at hother
  cases hother

/-- A row that is found has an identifier past the first ones. -/
theorem found_onCourse (h : l.Tends event first) {rows : List PendingRequest}
    (hread : l.findByHearing event.key.hearing = .ok rows) {r : PendingRequest}
    (hmatch : Dispatch.matchRow? event rows = some r) : first < r.id ∧ r.status ≠ .exception := by
  obtain ⟨row, hrow, hshown, hcarries, _⟩ := Dispatch.row_of_matchRow? hread hmatch
  have hshows := Row.shows_of_read hshown
  rw [hshows.id]
  refine ⟨(h.carries_iff row hrow).mp hcarries, fun hstatus => ?_⟩
  have hexception := h.no_exception row hrow hcarries
  rw [(hshows.is_iff _).mpr hstatus] at hexception
  cases hexception

/-- On the course of a dispatch, rows that were taken before stay so, and one more is when a
pending one is taken. -/
theorem countP_isTried_le (h : l.Tends event first) (hc : c.Proceeds event) (now : Int) :
    l.rows.countP (isTried event) ≤ (l.step now c).1.rows.countP (isTried event) ∧
      ∀ r ∈ l.rows, isTried event r = false → ∀ q, l.rowAfter now c r = some q →
        isTried event q = true →
        l.rows.countP (isTried event) < (l.step now c).1.rows.countP (isTried event) := by
  refine le_countP_step h.wellFormed.ids_increase fun r hr htried => ?_
  simp only [isTried, Bool.and_eq_true, Bool.not_eq_true'] at htried ⊢
  cases hpass : l.rowAfter now c r with
  | none =>
    cases c with
    | deleteCompleted => exact hc.elim
    | _ => cases hpass
  | some q =>
    have hpassage := passage_of_rowAfter hpass
    exact ⟨q, rfl, by rw [hpassage.sameEvent.carries, htried.1],
      hpassage.is_eq_false hc (by decide) (by decide) htried.2⟩

end Tends

end Ledger

/-- Whether a question is a look-up of the event's hearing while the ledger holds no row of it. -/
def Inquiry.isBlind (event : Dispatch.Event) (x : Inquiry) : Bool :=
  match x.question with
  | .store (.rowsOfHearing hearing) =>
    hearing == event.key.hearing && !x.ledger.rows.any (·.carries event)
  | _ => false

def Inquiry.isCall (x : Inquiry) : Bool :=
  match x.question with
  | .send _ => true
  | _ => false

namespace Stage

def OnCourse (first : Int) : Stage → Prop
  | ready id | taken id | called id => first < id
  | astray => False
  | _ => True

def isUnmatched : Stage → Bool
  | unmatched => true
  | _ => false

def isTaken : Stage → Bool
  | taken _ => true
  | _ => false

/-- What a question does to the counts: a row is added for a look-up that found
none, and a call is made for a row that was pending before it was taken. -/
structure Advance (event : Dispatch.Event) (first : Int) (l : Ledger) (stage : Stage) (q : Request)
    (l' : Ledger) (stage' : Stage) : Prop where
  tends : l'.Tends event first
  onCourse : stage'.OnCourse first
  rows_le : l'.rows.countP (·.carries event) + stage'.isUnmatched.toNat ≤
    l.rows.countP (·.carries event) + stage.isUnmatched.toNat +
      (Inquiry.isBlind event ⟨l, q⟩).toNat
  calls_le : (Inquiry.isCall ⟨l, q⟩).toNat + stage'.isTaken.toNat +
    l.rows.countP (Ledger.isTried event) ≤
      stage.isTaken.toNat + l'.rows.countP (Ledger.isTried event)

variable {event : Dispatch.Event} {first now : Int} {l : Ledger}

/-- What a look-up leads to. -/
theorem advance_looking (h : l.Tends event first)
    (answer : Except StoreError (List PendingRequest))
    (hanswer : answer = l.findByHearing event.key.hearing) :
    Advance event first l .looking (.store (.rowsOfHearing event.key.hearing)) l
      (after event .looking (.store (.rowsOfHearing event.key.hearing)) answer) := by
  cases answer with
  | error e => exact ⟨h, trivial, Nat.le_add_right _ _, Nat.le_refl _⟩
  | ok rows =>
    change Advance _ _ _ _ _ _ (found event rows)
    unfold found
    cases hmatch : Dispatch.matchRow? event rows with
    | none =>
      refine ⟨h, trivial, ?_, Nat.le_refl _⟩
      have hnone := h.blind_of_matchRow? hanswer.symm hmatch
      have hblind :
          Inquiry.isBlind event ⟨l, .store (.rowsOfHearing event.key.hearing)⟩ = true := by
        simpa [Inquiry.isBlind] using hnone
      simp [hblind, isUnmatched]
    | some r =>
      obtain ⟨hlt, hexception⟩ := h.found_onCourse hanswer.symm hmatch
      dsimp only
      cases hstatus : r.status with
      | pending => exact ⟨h, hlt, Nat.le_add_right _ _, Nat.le_refl _⟩
      | processing => exact ⟨h, trivial, Nat.le_add_right _ _, Nat.le_refl _⟩
      | completed => exact ⟨h, trivial, Nat.le_add_right _ _, Nat.le_refl _⟩
      | exception => exact absurd hstatus hexception

/-- The stage after a row was added, or could not be. -/
theorem after_create (h : l.Tends event first) (now : Int) (deployment : String) :
    let c := StoreCall.create event.key.hearing event.key.eventType event.body deployment
    let stage := after event .unmatched (.store c) (l.step now c).2
    stage.OnCourse first ∧ stage.isUnmatched = false ∧ stage.isTaken = false := by
  intro c stage
  unfold stage
  cases hanswer : (l.step now c).2 with
  | error e => exact ⟨trivial, rfl, rfl⟩
  | ok r =>
    simp only [c, Ledger.step, Ledger.create] at hanswer
    split at hanswer
    · cases hanswer
    · have hshows := Row.shows_of_read hanswer
      have hid : r.id = l.lastId + 1 := hshows.id
      have hfirst := h.first_le
      have hready : after event .unmatched (.store c) (.ok r) = .ready r.id :=
        if_pos hshows.message
      rw [hready]
      exact ⟨show first < r.id by omega, rfl, rfl⟩

/-- What the addition of a row leads to. -/
theorem advance_unmatched (h : l.Tends event first) (deployment : String) :
    let c := StoreCall.create event.key.hearing event.key.eventType event.body deployment
    Advance event first l .unmatched (.store c) (l.step now c).1
      (after event .unmatched (.store c) (l.step now c).2) := by
  intro c
  have hc : c.Proceeds event := ⟨rfl, rfl, rfl⟩
  obtain ⟨honcourse, hmatched, hnot⟩ := after_create h now deployment
  refine ⟨h.step hc now, honcourse, ?_, ?_⟩
  · have hle := Ledger.countP_step_le h.wellFormed.ids_increase now c (p := (·.carries event))
      fun r q hsame => hsame.carries event
    have hone : (l.added now c).countP (·.carries event) ≤ 1 := by
      refine Nat.le_trans List.countP_le_length ?_
      simp only [c, Ledger.added]
      split <;> simp
    rw [hmatched, show unmatched.isUnmatched.toNat = 1 from rfl, Bool.toNat_false]
    omega
  · have hle := (h.countP_isTried_le hc now).1
    rw [hnot, show (Inquiry.isCall ⟨l, .store c⟩).toNat = 0 from rfl, Bool.toNat_false]
    omega

/-- A call that adds no row leads on without one more. -/
theorem advance_marked (h : l.Tends event first) {c : StoreCall} (hc : c.Proceeds event)
    (hadded : l.added now c = []) {stage stage' : Stage} (honcourse : stage'.OnCourse first)
    (hmatched : stage'.isUnmatched = false)
    (hcalls : stage'.isTaken.toNat + l.rows.countP (Ledger.isTried event) ≤
      stage.isTaken.toNat + (l.step now c).1.rows.countP (Ledger.isTried event)) :
    Advance event first l stage (.store c) (l.step now c).1 stage' := by
  refine ⟨h.step hc now, honcourse, ?_, ?_⟩
  · have hle := Ledger.countP_step_le h.wellFormed.ids_increase now c (p := (·.carries event))
      fun r q hsame => hsame.carries event
    rw [hadded, List.countP_nil] at hle
    rw [hmatched, Bool.toNat_false]
    omega
  · rw [show (Inquiry.isCall ⟨l, .store c⟩).toNat = 0 from rfl]
    omega

/-- What the taking of a row leads to. -/
theorem advance_ready (h : l.Tends event first) {id : Int} (hid : first < id)
    (deployment : String) :
    Advance event first l (.ready id) (.store (.markProcessing id deployment))
      (l.step now (.markProcessing id deployment)).1
      (after event (.ready id) (.store (.markProcessing id deployment))
        (l.step now (.markProcessing id deployment)).2) := by
  have hc : (StoreCall.markProcessing id deployment).Proceeds event := trivial
  obtain ⟨hle, hlt⟩ := h.countP_isTried_le hc now
  match hanswer : (l.step now (.markProcessing id deployment)).2 with
  | .error e => exact advance_marked h hc rfl trivial rfl (Nat.add_le_add_left hle 0)
  | .ok false => exact advance_marked h hc rfl trivial rfl (Nat.add_le_add_left hle 0)
  | .ok true =>
    obtain ⟨row, hrow, rfl, hpending, hpass⟩ := Ledger.row_of_markProcessing hanswer
    have hcarries := (h.carries_iff row hrow).mpr hid
    have hone := hlt row hrow (by simp [Ledger.isTried, hpending]) _ hpass
      (by
        rw [Ledger.isTried, (Ledger.passage_of_rowAfter hpass).sameEvent.carries, hcarries]
        simp)
    refine advance_marked h hc rfl hid rfl ?_
    change 1 + l.rows.countP (Ledger.isTried event) ≤ 0 + (l.step now _).1.rows.countP _
    omega

/-- What an allowed question leads to when calls are accepted. -/
theorem advance_of_allows (h : l.Tends event first) {stage : Stage}
    (honcourse : stage.OnCourse first) {q : Request} (hallowed : stage.allows event q)
    (now : Int) {outside : (q : Request) → q.Answer}
    (haccepts : ∀ call, ∃ response, outside (.send call) = some (.ok response)) :
    Advance event first l stage q (l.answer now outside q).1
      (after event stage q (l.answer now outside q).2) := by
  unfold allows at hallowed
  split at hallowed
  · subst hallowed
    exact advance_looking h _ rfl
  · obtain ⟨rfl, rfl, rfl⟩ := hallowed
    exact advance_unmatched h _
  · subst hallowed
    exact advance_ready h honcourse _
  · next id call =>
    obtain ⟨response, haccepted⟩ := haccepts call
    change Advance _ _ _ _ _ l (after event (.taken id) (.send call) (outside (.send call)))
    rw [haccepted]
    exact ⟨h, honcourse, Nat.le_add_right _ _, Nat.le_refl _⟩
  · exact ⟨h, honcourse, Nat.le_add_right _ _, Nat.le_refl _⟩
  · next id i deployment =>
    have hc : (StoreCall.markCompleted i deployment).Proceeds event := trivial
    exact advance_marked h hc rfl trivial rfl
      (Nat.add_le_add_left (h.countP_isTried_le hc now).1 0)
  · exact honcourse.elim
  · exact hallowed.elim

end Stage

/-- Whether a move starts no other task than a dispatch of the event, and calls are accepted. -/
def Move.Dispatches (event : Dispatch.Event) : Move → Prop
  | start (.dispatch _ e _) => Dispatch.eventOf e = .ok event
  | start _ => False
  | ask _ _ outside => ∀ call, ∃ response, outside (.send call) = some (.ok response)
  | cutOff _ => True

def Activity.stage (event : Dispatch.Event) (a : Activity) : Stage :=
  (delivering event).advance .looking a.past

namespace Fleet

/-- Dispatches of one event. Every row of the event and every activity that is about to add one
go back to a look-up that could find none, and every call and every activity that is about to call
go back to the taking of a row. -/
structure Rivals (event : Dispatch.Event) (first : Int) (f : Fleet) : Prop where
  tends : f.ledger.Tends event first
  follow : f.Follow (delivering event) .looking
  onCourse : ∀ a ∈ f.activities, (a.stage event).OnCourse first
  rows_le : f.ledger.rows.countP (·.carries event) +
    f.activities.countP (fun a => (a.stage event).isUnmatched) ≤ f.log.countP (·.isBlind event)
  calls_le : f.log.countP (·.isCall) + f.activities.countP (fun a => (a.stage event).isTaken) ≤
    f.ledger.rows.countP (Ledger.isTried event)

/-- A count after one activity has changed. -/
theorem countP_set_add {xs : List Activity} {i : Nat} {a : Activity} (hi : xs[i]? = some a)
    (p : Activity → Bool) (b : Activity) :
    (xs.set i b).countP p + (p a).toNat = xs.countP p + (p b).toNat := by
  obtain ⟨hlt, rfl⟩ := List.getElem?_eq_some_iff.mp hi
  have htoNat : ∀ x : Bool, (if x = true then 1 else 0) = x.toNat := by decide
  have hcounted : (p xs[i]).toNat ≤ xs.countP p := by
    cases hp : p xs[i] with
    | false => exact Nat.zero_le _
    | true => exact List.countP_pos_iff.mpr ⟨xs[i], List.getElem_mem hlt, hp⟩
  rw [List.countP_set hlt, htoNat, htoNat]
  omega

theorem countP_concat {α : Type} (p : α → Bool) (xs : List α) (x : α) :
    (xs ++ [x]).countP p = xs.countP p + (p x).toNat := by
  rw [List.countP_append, List.countP_singleton]
  cases p x <;> rfl

theorem stage_replied (event : Dispatch.Event) (a : Activity) {q : Request}
    (next : q.Answer → Relay Unit) (answer : q.Answer) :
    (a.replied q next answer).stage event = (a.stage event).after event q answer :=
  Protocol.advance_append _ _ _ _

namespace Rivals

variable {event : Dispatch.Event} {first : Int} {f : Fleet} {i : Nat} {a : Activity}

/-- A question of one of the dispatches. -/
theorem asked (h : f.Rivals event first) {q : Request} {next : q.Answer → Relay Unit}
    (hi : f.activities[i]? = some a) (hrest : a.rest = .ask q next) {now : Int}
    {outside : (q : Request) → q.Answer}
    (haccepts : ∀ call, ∃ response, outside (.send call) = some (.ok response))
    (hfollow : (f.asked i a now outside q next).Follow (delivering event) .looking) :
    (f.asked i a now outside q next).Rivals event first := by
  have hmem := List.mem_of_getElem? hi
  have hrows := h.rows_le
  have hcalls := h.calls_le
  have hallowed : (a.stage event).allows event q := h.follow.allows hi hrest
  obtain ⟨htends, honcourse, hrows', hcalls'⟩ :=
    Stage.advance_of_allows h.tends (h.onCourse a hmem) hallowed now haccepts
  rw [← stage_replied event a next] at honcourse hrows' hcalls'
  refine ⟨htends, hfollow, ?_, ?_, ?_⟩
  · intro b hb
    rcases List.mem_or_eq_of_mem_set hb with hold | rfl
    · exact h.onCourse b hold
    · exact honcourse
  · have hunmatched := countP_set_add hi (fun a => (a.stage event).isUnmatched)
      (a.replied q next (f.ledger.answer now outside q).2)
    unfold Fleet.asked
    dsimp only at hunmatched ⊢
    rw [countP_concat]
    omega
  · have htaken := countP_set_add hi (fun a => (a.stage event).isTaken)
      (a.replied q next (f.ledger.answer now outside q).2)
    unfold Fleet.asked
    dsimp only at htaken ⊢
    rw [countP_concat]
    omega

/-- What was asked stays asked when a dispatch is cut off. -/
theorem countP_cutOff (hi : f.activities[i]? = some a) (p : Stage → Bool) :
    (f.activities.set i a.cutOff).countP (fun b => p (b.stage event)) =
      f.activities.countP fun b => p (b.stage event) :=
  Nat.add_right_cancel (countP_set_add hi (fun b => p (b.stage event)) a.cutOff)

theorem move (h : f.Rivals event first) {m : Move} (hm : m.Dispatches event) :
    (f.move m).Rivals event first := by
  have hfollow : (f.move m).Follow (delivering event) .looking := by
    refine h.follow.move ?_
    rintro task rfl
    cases task with
    | dispatch settings e deliveryCount => exact dispatch_delivering hm settings deliveryCount
    | _ => exact hm.elim
  have hstep := step_move f m
  generalize f.move m = f' at hstep hfollow
  cases hstep with
  | idle => exact h
  | started task =>
    refine ⟨h.tends, hfollow, ?_, ?_, ?_⟩
    · intro a ha
      rcases List.mem_append.mp ha with hold | hnew
      · exact h.onCourse a hold
      · obtain rfl := List.mem_singleton.mp hnew
        exact trivial
    · rw [countP_concat]
      exact h.rows_le
    · rw [countP_concat]
      exact h.calls_le
  | asked i now outside a q next hi hrest => exact h.asked hi hrest hm hfollow
  | cutOff i a hi =>
    refine ⟨h.tends, hfollow, ?_, ?_, ?_⟩
    · intro b hb
      rcases List.mem_or_eq_of_mem_set hb with hold | rfl
      · exact h.onCourse b hold
      · exact h.onCourse a (List.mem_of_getElem? hi)
    · dsimp only
      rw [countP_cutOff hi Stage.isUnmatched]
      exact h.rows_le
    · dsimp only
      rw [countP_cutOff hi Stage.isTaken]
      exact h.calls_le

end Rivals

/-- No activity over a ledger without a row of the event. -/
theorem start_rivals {event : Dispatch.Event} {history : List (Int × StoreCall)}
    (habsent : ∀ r ∈ (Ledger.empty.after history).rows, r.carries event = false) :
    (start (Ledger.empty.after history)).Rivals event (Ledger.empty.after history).lastId := by
  have hwf := Ledger.after_wellFormed Ledger.empty_wellFormed history
  have hordered := Ledger.after_ordered Ledger.empty_wellFormed Ledger.empty_ordered history
  have hnone : (Ledger.empty.after history).rows.countP (·.carries event) = 0 :=
    List.countP_eq_zero.mpr fun r hr => by simp [habsent r hr]
  refine ⟨⟨hwf, hordered, Int.le_refl _, ?_, ?_⟩, ?_, ?_, ?_, ?_⟩
  · intro r hr
    have hle := hwf.id_le r hr
    exact iff_of_false (by simp [habsent r hr]) (by omega)
  · intro r hr hcarries
    rw [habsent r hr] at hcarries
    cases hcarries
  · simp [start, Follow]
  · simp [start]
  · exact Nat.le_of_eq hnone
  · exact Nat.zero_le _

/-- What dispatches of one event do together, however many they are and however
they take turns, when no row of the event was there before and every call is
accepted: no more calls are made than rows are added, and no more rows are added
than look-ups were made while the ledger held no row of the event. -/
theorem calls_le_rows_le_lookups (event : Dispatch.Event) (history : List (Int × StoreCall))
    (moves : List Move)
    (habsent : ∀ r ∈ (Ledger.empty.after history).rows, r.carries event = false)
    (hmoves : ∀ m ∈ moves, m.Dispatches event) :
    let f := (start (Ledger.empty.after history)).after moves
    f.log.countP (·.isCall) ≤ f.ledger.rows.countP (·.carries event) ∧
      f.ledger.rows.countP (·.carries event) ≤ f.log.countP (·.isBlind event) := by
  intro f
  have h : f.Rivals event (Ledger.empty.after history).lastId :=
    after_induction (I := fun f => f.Rivals event _) (fun f m hm hf => hf.move hm)
      (start_rivals habsent) (along_of_forall hmoves _)
  have hrows := h.rows_le
  have hcalls := h.calls_le
  have htried : f.ledger.rows.countP (Ledger.isTried event) ≤
      f.ledger.rows.countP (·.carries event) :=
    List.countP_mono_left fun r _ hr => (Bool.and_eq_true_iff.mp hr).1
  omega

def repeated : Task :=
  .dispatch { timeout := .ofMillis 5000 }
    ⟨"m", Properties.ofList [("message_type", "REQUEST_HEARING"), ("hearing_id", "1")],
      "\x7b\x7d"⟩ 1

/-- Activities ask their questions in the given order, and every call is accepted. -/
def turns (order : List Nat) : List Move :=
  order.map fun i => .ask i 5 (World.outside (fun _ _ => some (.ok ⟨200, none⟩)) (.empty 5))

/-- Two dispatches look for the event before either adds a row. The second of
them is done before the first goes on. -/
def rivalry : List Move :=
  [.start repeated, .start repeated] ++ turns [0, 1, 1, 1, 1, 1, 1, 0, 0, 0]

theorem rivalry_dispatches : ∀ m ∈ rivalry, m.Dispatches ⟨⟨.request, 1⟩, "\x7b\x7d"⟩ := by
  have hstart : (Move.start repeated).Dispatches ⟨⟨.request, 1⟩, "\x7b\x7d"⟩ := by
    change Dispatch.eventOf _ = _
    decide +kernel
  intro m hm
  rcases List.mem_append.mp hm with hstarts | hturns
  · obtain rfl : m = .start repeated := by simpa using hstarts
    exact hstart
  · obtain ⟨i, _, rfl⟩ := List.mem_map.mp hturns
    exact fun call => ⟨_, rfl⟩

def earlierHistory : List (Int × StoreCall) :=
  [(0, .create 1 .amend "[]" "local"), (1, .markProcessing 1 "local"),
    (2, .markCompleted 1 "local")]

theorem rivalry_counts :
    let event : Dispatch.Event := ⟨⟨.request, 1⟩, "\x7b\x7d"⟩
    let f := (start (Ledger.empty.after earlierHistory)).after rivalry
    (∀ r ∈ (Ledger.empty.after earlierHistory).rows, r.carries event = false) ∧
      (∀ m ∈ rivalry, m.Dispatches event) ∧
      f.log.countP (·.isCall) ≤ f.ledger.rows.countP (·.carries event) ∧
      f.ledger.rows.countP (·.carries event) ≤ f.log.countP (·.isBlind event) := by
  have habsent : ∀ r ∈ (Ledger.empty.after earlierHistory).rows,
      r.carries ⟨⟨.request, 1⟩, "\x7b\x7d"⟩ = false := by decide +kernel
  exact ⟨habsent, rivalry_dispatches,
    calls_le_rows_le_lookups _ earlierHistory rivalry habsent rivalry_dispatches⟩

def isStart : Move → Bool
  | .start _ => true
  | _ => false

/-- Two dispatches of one event may both add a row for it and both call. -/
theorem rivals_call_twice :
    ¬ ∀ (event : Dispatch.Event) (history : List (Int × StoreCall)) (moves : List Move),
      (∀ r ∈ (Ledger.empty.after history).rows, r.carries event = false) →
        (∀ m ∈ moves, m.Dispatches event) → moves.countP isStart = 2 →
        let f := (start (Ledger.empty.after history)).after moves
        f.ledger.rows.countP (·.carries event) ≤ 1 ∧ f.log.countP (·.isCall) ≤ 1 := by
  intro h
  have hle := (h ⟨⟨.request, 1⟩, "\x7b\x7d"⟩ [] rivalry (by decide +kernel) rivalry_dispatches
    (by decide +kernel)).2
  have htwice : ((start (Ledger.empty.after [])).after rivalry).log.countP (·.isCall) = 2 := by
    decide +kernel
  omega

end Fleet

end HearingRelay
