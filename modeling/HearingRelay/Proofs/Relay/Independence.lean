import HearingRelay.Proofs.Relay.SideBySide

/-!
Messages of different hearings do not interfere. A dispatch looks at the rows of
one hearing and leaves all others as they are, so one for another hearing may
come before it or after it: what differs is the identifier of a row that it
creates, and nothing that it does depends on that. Only the last identifier of
all can be given to one of two messages and not to the other.
-/

namespace HearingRelay

open Ledger

namespace Dispatch

def dispatchBoth (settings : DispatchSettings) (e₁ e₂ : Envelope) (count₁ count₂ : Nat) :
    Relay (Disposition × Disposition) := do
  let disposition₁ ← dispatch settings e₁ count₁
  let disposition₂ ← dispatch settings e₂ count₂
  pure (disposition₁, disposition₂)

theorem Event.Alike.refl {event : Event} {w : World} (hwf : w.ledger.WellFormed)
    (hnow : Time.Dated w.now) : event.Alike (Equiv.refl Int) w w :=
  ⟨rfl, hnow, hwf, hwf, rfl, fun _ _ => rfl, fun _ => rfl, fun _ => Iff.rfl⟩

theorem Event.idsTaken_cases (event : Event) (l : Ledger) :
    (event.lookup l = .ok none ∧ l.lastId < Bounds.maxInt64 ∧ event.idsTaken l = 1) ∨
      (¬ (event.lookup l = .ok none ∧ l.lastId < Bounds.maxInt64) ∧ event.idsTaken l = 0) := by
  unfold Event.idsTaken
  cases hlookup : event.lookup l with
  | error e => exact Or.inr ⟨by simp, rfl⟩
  | ok found =>
    cases found with
    | some r => exact Or.inr ⟨by simp, rfl⟩
    | none =>
      by_cases hfree : l.lastId < Bounds.maxInt64
      · exact Or.inl ⟨rfl, hfree, if_pos hfree⟩
      · exact Or.inr ⟨fun h => hfree h.2, if_neg hfree⟩

/-- Each of two events of different hearings finds the same before the other was
handled and after it. If both get a row, the two identifiers change places. -/
theorem exists_alike {w w₁ w₂ : World} {event₁ event₂ : Event} (hwf : w.ledger.WellFormed)
    (hnow : Time.Dated w.now) (hne : event₁.key.hearing ≠ event₂.key.hearing)
    (hspace : w.ledger.lastId + 1 = Bounds.maxInt64 →
      ¬ (event₁.lookup w.ledger = .ok none ∧ event₂.lookup w.ledger = .ok none))
    (h₁ : w.Keeps event₁.key.hearing (w.ledger.lastId + event₁.idsTaken w.ledger) w₁)
    (h₂ : w.Keeps event₂.key.hearing (w.ledger.lastId + event₂.idsTaken w.ledger) w₂) :
    ∃ ρ : Equiv.Perm Int, (∀ id ≤ w.ledger.lastId, ρ id = id) ∧
      event₁.Alike ρ w w₂ ∧ event₂.Alike ρ w₁ w := by
  have hrows₁ := h₂.others event₁.key.hearing hne
  have hrows₂ := h₁.others event₂.key.hearing hne.symm
  have hlookup₂ : event₂.lookup w₁.ledger = event₂.lookup w.ledger := Event.lookup_congr hrows₂
  have hids : ∀ hearing, ∀ r ∈ w.ledger.rowsOf hearing, r.id ≤ w.ledger.lastId :=
    fun hearing r hr => hwf.id_le r (mem_rowsOf.mp hr).1
  -- It is enough that the identifiers of new rows answer each other.
  suffices hρ : ∃ ρ : Equiv.Perm Int, (∀ id ≤ w.ledger.lastId, ρ id = id) ∧
      (event₁.lookup w.ledger = .ok none → ρ (w.ledger.lastId + 1) = w₂.ledger.lastId + 1 ∧
        (w.ledger.lastId < Bounds.maxInt64 ↔ w₂.ledger.lastId < Bounds.maxInt64)) ∧
      (event₂.lookup w.ledger = .ok none → ρ (w₁.ledger.lastId + 1) = w.ledger.lastId + 1 ∧
        (w₁.ledger.lastId < Bounds.maxInt64 ↔ w.ledger.lastId < Bounds.maxInt64)) by
    obtain ⟨ρ, hfixed, hnext₁, hnext₂⟩ := hρ
    refine ⟨ρ, hfixed, ?_, ?_⟩
    · exact ⟨h₂.now, hnow, hwf, h₂.wellFormed, hrows₁, fun r hr => hfixed r.id (hids _ r hr),
        fun hnone => (hnext₁ hnone).1, fun hnone => (hnext₁ hnone).2⟩
    · refine ⟨h₁.now.symm, h₁.now ▸ hnow, h₁.wellFormed, hwf, hrows₂.symm, ?_, ?_, ?_⟩
      · rw [hrows₂]
        exact fun r hr => hfixed r.id (hids _ r hr)
      · exact fun hnone => (hnext₂ (hlookup₂ ▸ hnone)).1
      · exact fun hnone => (hnext₂ (hlookup₂ ▸ hnone)).2
  rw [h₁.lastId, h₂.lastId]
  rcases event₁.idsTaken_cases w.ledger with ⟨hnone₁, hfree, htaken₁⟩ | ⟨hnone₁, htaken₁⟩
  · rcases event₂.idsTaken_cases w.ledger with ⟨hnone₂, _, htaken₂⟩ | ⟨hnone₂, htaken₂⟩
    · have hnotLast : w.ledger.lastId + 1 ≠ Bounds.maxInt64 := fun hlast =>
        hspace hlast ⟨hnone₁, hnone₂⟩
      rw [htaken₁, htaken₂]
      refine ⟨Equiv.swap (w.ledger.lastId + 1) (w.ledger.lastId + 1 + 1), ?_, ?_, ?_⟩
      · exact fun id hid => Equiv.swap_apply_of_ne_of_ne (by omega) (by omega)
      · exact fun _ => ⟨Equiv.swap_apply_left _ _, by omega⟩
      · exact fun _ => ⟨Equiv.swap_apply_right _ _, by omega⟩
    · rw [htaken₁, htaken₂]
      refine ⟨Equiv.refl Int, fun _ _ => rfl, fun _ => ⟨by simp, by simp⟩, fun hnone => ?_⟩
      exact absurd ⟨hnone, hfree⟩ hnone₂
  · rw [htaken₁]
    refine ⟨Equiv.refl Int, fun _ _ => rfl, fun hnone => ?_, fun hnone => ⟨by simp, by simp⟩⟩
    rcases event₂.idsTaken_cases w.ledger with ⟨_, hfree, _⟩ | ⟨_, htaken₂⟩
    · exact absurd ⟨hnone, hfree⟩ hnone₁
    · rw [htaken₂]
      exact ⟨by simp, by simp⟩

/-- Messages of different hearings do not interfere. In surroundings with any ledger
that calls of the store lead to, at a reading of the clock that is a date, for every
service that looks at the call alone, and for all messages of events of two different
hearings, delivered any number of times: dispatched in either order, each message
gets the same disposition, the same calls are made and the same reports handed over,
their identifiers left aside, and all hearings get the same rows, but for the
identifiers given out. The one exception is a ledger that has a single identifier
left while both events need a row. -/
theorem hearings_independent (answer : DownstreamCall → Option CallResult) (visibility : Nat)
    (settings : DispatchSettings) (w : World) (history : List (Int × StoreCall))
    (e₁ e₂ : Envelope) (count₁ count₂ : Nat) (event₁ event₂ : Event)
    (hreachable : w.ledger = Ledger.empty.after history) (hnow : Time.Dated w.now)
    (hevent₁ : eventOf e₁ = .ok event₁) (hevent₂ : eventOf e₂ = .ok event₂)
    (hne : event₁.key.hearing ≠ event₂.key.hearing)
    (hspace : w.ledger.lastId + 1 = Bounds.maxInt64 →
      ¬ (event₁.lookup w.ledger = .ok none ∧ event₂.lookup w.ledger = .ok none)) :
    let handle := World.handle (Service.ofAnswer answer) visibility
    let first := (dispatchBoth settings e₁ e₂ count₁ count₂).run handle w
    let second := (dispatchBoth settings e₂ e₁ count₂ count₁).run handle w
    second.2 = first.2.swap ∧
      second.1.calls.Perm first.1.calls ∧
      (second.1.reports.map Envelope.content).Perm (first.1.reports.map Envelope.content) ∧
      ∃ ρ : Equiv.Perm Int, (∀ id ≤ w.ledger.lastId, ρ id = id) ∧
        ∀ hearing, second.1.ledger.rowsOf hearing =
          (first.1.ledger.rowsOf hearing).map (Row.renumber ρ) := by
  intro handle first second
  have hwf : w.ledger.WellFormed := hreachable ▸ after_wellFormed empty_wellFormed history
  obtain ⟨halone₁, _⟩ :=
    (Event.Alike.refl hwf hnow).dispatch answer visibility settings hevent₁ count₁
  obtain ⟨halone₂, _⟩ :=
    (Event.Alike.refl hwf hnow).dispatch answer visibility settings hevent₂ count₂
  obtain ⟨ρ, hfixed, halike₁, halike₂⟩ := exists_alike hwf hnow hne hspace halone₁.left halone₂.left
  obtain ⟨habreast₁, hresult₁⟩ := halike₁.dispatch answer visibility settings hevent₁ count₁
  obtain ⟨habreast₂, hresult₂⟩ := halike₂.dispatch answer visibility settings hevent₂ count₂
  have hfirst : first = _ := Program.run_bind handle _ _ w
  have hsecond : second = _ := Program.run_bind handle _ _ w
  rw [Program.run_bind, Program.run_pure] at hfirst hsecond
  obtain ⟨calls₁, reports₁, hsent₁, hsent₁'⟩ := habreast₁.sent
  obtain ⟨calls₂, reports₂, hsent₂, hsent₂'⟩ := habreast₂.sent
  have hsentFirst := hsent₁.trans hsent₂
  have hsentSecond := hsent₂'.trans hsent₁'
  refine ⟨?_, ?_, ?_, ρ, hfixed, fun hearing => ?_⟩
  · rw [hfirst, hsecond]
    exact Prod.ext hresult₂ hresult₁
  · rw [hfirst, hsecond, hsentFirst.calls, hsentSecond.calls]
    exact List.perm_append_comm.append_left _
  · rw [hfirst, hsecond, hsentFirst.reports, hsentSecond.reports]
    exact List.perm_append_comm.append_left _
  · rw [hfirst, hsecond]
    by_cases hof₁ : hearing = event₁.key.hearing
    · subst hof₁
      rw [habreast₂.left.others _ hne]
      exact habreast₁.rows
    · rw [habreast₁.right.others _ hof₁]
      by_cases hof₂ : hearing = event₂.key.hearing
      · subst hof₂
        exact habreast₂.rows
      · rw [habreast₂.left.others _ hof₂, habreast₂.right.others _ hof₂,
          halone₁.left.others _ hof₁]
        refine (Row.map_renumber_eq_self fun r hr => hfixed r.id ?_).symm
        exact hwf.id_le r (mem_rowsOf.mp hr).1

def requestFor (id hearing : String) : Envelope :=
  ⟨id, Properties.ofList [("message_type", "REQUEST_HEARING"), ("hearing_id", hearing)],
    "\x7b\x7d"⟩

/-- A service that lets calls for the first hearing wait too long, and accepts all others. -/
def acceptsOthers (call : DownstreamCall) : Option CallResult :=
  if call.hearing = 1 then none else some (.ok ⟨200, none⟩)

def thirdHearing : World :=
  { World.empty 20 with ledger := Ledger.empty.after [(0, .create 3 .amend "[]" "local")] }

def requested (e₁ e₂ : Envelope) : World × (Disposition × Disposition) :=
  (dispatchBoth { timeout := .ofMillis 50 } e₁ e₂ 1 1).run
    (World.handle (Service.ofAnswer acceptsOthers) 30) thirdHearing

theorem eventOf_first : eventOf (requestFor "a" "1") = .ok ⟨⟨.request, 1⟩, "\x7b\x7d"⟩ := by
  decide +kernel

theorem eventOf_second : eventOf (requestFor "b" "2") = .ok ⟨⟨.request, 2⟩, "\x7b\x7d"⟩ := by
  decide +kernel

theorem requests_independent :
    eventOf (requestFor "a" "1") = .ok ⟨⟨.request, 1⟩, "\x7b\x7d"⟩ ∧
      eventOf (requestFor "b" "2") = .ok ⟨⟨.request, 2⟩, "\x7b\x7d"⟩ ∧
      (requested (requestFor "b" "2") (requestFor "a" "1")).2 =
        (requested (requestFor "a" "1") (requestFor "b" "2")).2.swap ∧
      (requested (requestFor "b" "2") (requestFor "a" "1")).1.calls.Perm
        (requested (requestFor "a" "1") (requestFor "b" "2")).1.calls ∧
      ((requested (requestFor "b" "2") (requestFor "a" "1")).1.reports.map Envelope.content).Perm
        ((requested (requestFor "a" "1") (requestFor "b" "2")).1.reports.map Envelope.content) ∧
      ∃ ρ : Equiv.Perm Int, (∀ id ≤ thirdHearing.ledger.lastId, ρ id = id) ∧ ∀ hearing,
        (requested (requestFor "b" "2") (requestFor "a" "1")).1.ledger.rowsOf hearing =
          ((requested (requestFor "a" "1") (requestFor "b" "2")).1.ledger.rowsOf hearing).map
            (Row.renumber ρ) := by
  have hspace : thirdHearing.ledger.lastId + 1 ≠ Bounds.maxInt64 := by decide +kernel
  unfold requested
  exact ⟨eventOf_first, eventOf_second, hearings_independent acceptsOthers 30
    { timeout := .ofMillis 50 } thirdHearing [(0, .create 3 .amend "[]" "local")] _ _ 1 1 _ _ rfl
    rfl eventOf_first eventOf_second (by decide) fun hlast => absurd hlast hspace⟩

end Dispatch

namespace Ledger

/-- A row is created, completed and deleted, again and again. -/
def spentHistory : Nat → List (Int × StoreCall)
  | 0 => []
  | n + 1 => spentHistory n ++ [(0, .create 1 .request "" "local"),
      (0, .markProcessing (n + 1) "local"), (0, .markCompleted (n + 1) "local"),
      (0, .deleteCompleted ⟨0⟩)]

/-- The only row of a ledger is marked. -/
theorem step_alone {r q : Row} {lastId now : Int} {c : StoreCall} (hc : marks r.id c = true)
    (hpass : (⟨[r], lastId⟩ : Ledger).rowAfter now c r = some q) :
    ((⟨[r], lastId⟩ : Ledger).step now c).1 = ⟨[q], lastId⟩ := by
  have hrows := step_rows (l := ⟨[r], lastId⟩) (List.pairwise_singleton _ r) now c
  have hlast := step_lastId ⟨[r], lastId⟩ now c
  rw [added_of_marks hc] at hrows hlast
  rw [List.filterMap_cons, hpass] at hrows
  exact (Ledger.mk.injEq ..).mpr ⟨hrows, hlast.trans (Int.add_zero lastId)⟩

theorem after_spentHistory {n : Nat} (hn : (n : Int) ≤ Bounds.maxInt64) :
    empty.after (spentHistory n) = ⟨[], n⟩ := by
  induction n with
  | zero => rfl
  | succ n ih =>
    let r : Row := newRow ⟨[], n⟩ 0 1 .request "" "local"
    have hfree : ¬ Bounds.maxInt64 ≤ (n : Int) := by omega
    have hcreated : ((⟨[], n⟩ : Ledger).step 0 (.create 1 .request "" "local")).1 =
        ⟨[r], n + 1⟩ := by
      simp only [step, create, if_neg hfree]
      rfl
    have htaken : ((⟨[r], n + 1⟩ : Ledger).step 0 (.markProcessing r.id "local")).1 =
        ⟨[begin 0 "local" r], n + 1⟩ := by
      refine step_alone (by simp [marks]) ?_
      have hpending : r.is .pending = true := rfl
      have hprocessing : r.is .processing = false := rfl
      simp [rowAfter, Row.changeIf, isBlocked, hpending, hprocessing]
    have hdone : ((⟨[begin 0 "local" r], n + 1⟩ : Ledger).step 0
        (.markCompleted r.id "local")).1 =
          ⟨[finish .completed 0 "local" (begin 0 "local" r)], n + 1⟩ :=
      step_alone (r := begin 0 "local" r) (by simp [marks, begin])
        (rowAfter_markCompleted (r := begin 0 "local" r) (by simp))
    rw [spentHistory, after_append, ih (by omega)]
    change (((((⟨[], n⟩ : Ledger).step 0 (.create 1 .request "" "local")).1.step 0
      (.markProcessing r.id "local")).1.step 0 (.markCompleted r.id "local")).1.step 0
        (.deleteCompleted ⟨0⟩)).1 = _
    rw [hcreated, htaken, hdone]
    rfl

end Ledger

namespace Dispatch

/-- Of two requests that need a row, only the first gets the last identifier. -/
theorem last_identifier_contended :
    ¬ ∀ (answer : DownstreamCall → Option CallResult) (visibility : Nat)
      (settings : DispatchSettings) (w : World) (history : List (Int × StoreCall))
      (e₁ e₂ : Envelope) (count₁ count₂ : Nat) (event₁ event₂ : Event),
      w.ledger = Ledger.empty.after history → Time.Dated w.now → eventOf e₁ = .ok event₁ →
      eventOf e₂ = .ok event₂ → event₁.key.hearing ≠ event₂.key.hearing →
      ((dispatchBoth settings e₂ e₁ count₂ count₁).run
          (World.handle (Service.ofAnswer answer) visibility) w).2 =
        ((dispatchBoth settings e₁ e₂ count₁ count₂).run
          (World.handle (Service.ofAnswer answer) visibility) w).2.swap := by
  intro h
  -- The number stays a name, so that nothing writes the history out.
  have hmany : ∃ n : Nat, (n : Int) = 9223372036854775806 := ⟨9223372036854775806, rfl⟩
  obtain ⟨n, hn⟩ := hmany
  have hspent : (⟨[], 9223372036854775806⟩ : Ledger) = Ledger.empty.after (spentHistory n) := by
    have hle : (n : Int) ≤ Bounds.maxInt64 := by
      rw [hn]
      decide
    rw [after_spentHistory hle, hn]
  have hsame := h acceptsOthers 30 { timeout := .ofMillis 50 }
    { World.empty 0 with ledger := ⟨[], 9223372036854775806⟩ } (spentHistory n)
    (requestFor "a" "1") (requestFor "b" "2") 1 1 _ _ hspent rfl eventOf_first eventOf_second
    (by decide)
  revert hsame
  decide +kernel

end Dispatch

end HearingRelay
