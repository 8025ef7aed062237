import HearingRelay.Proofs.Relay.Protocol
import HearingRelay.Dispatch
import HearingRelay.Scheduler.Housekeeping
import HearingRelay.Scheduler.Redrive
import HearingRelay.World

/-!
Tasks side by side. Any number of tasks are started at any time and take turns
question by question: a call of the store is one step of the shared ledger, at
a clock reading of its own, and everything else is answered from outside in any
way. A task may be cut off between two questions. What holds of every program
that is started, as a protocol, holds of what is left of it at any time.
-/

namespace HearingRelay

inductive Task where
  | dispatch (settings : DispatchSettings) (e : Envelope) (deliveryCount : Nat)
  | redrive (settings : SchedulerSettings) (timeout : Time.Span)
  | escalate (settings : SchedulerSettings)
  | deleteCompleted (settings : SchedulerSettings)
  | reclaimStuck (settings : SchedulerSettings)

def Task.program : Task → Relay Unit
  | dispatch settings e deliveryCount =>
    HearingRelay.dispatch settings e deliveryCount >>= fun _ => pure ()
  | redrive settings timeout => redriveNext settings timeout >>= fun _ => pure ()
  | escalate settings => Housekeeping.escalate settings >>= fun _ => pure ()
  | deleteCompleted settings => Housekeeping.deleteCompleted settings >>= fun _ => pure ()
  | reclaimStuck settings => Housekeeping.reclaimStuck settings >>= fun _ => pure ()

/-- A task that was started: what is left of its program, and the replies that
it got so far. -/
structure Activity where
  rest : Relay Unit
  past : List (Reply Request.Answer)

namespace Activity

def start (task : Task) : Activity := ⟨task.program, []⟩

def replied (a : Activity) (q : Request) (next : q.Answer → Relay Unit) (answer : q.Answer) :
    Activity := ⟨next answer, a.past ++ [⟨q, answer⟩]⟩

def cutOff (a : Activity) : Activity := ⟨pure (), a.past⟩

def question? (a : Activity) : Option Request :=
  match a.rest with
  | .done _ => none
  | .ask q _ => some q

theorem rest_of_question? {a : Activity} {q : Request} (h : a.question? = some q) :
    ∃ next, a.rest = .ask q next := by
  unfold question? at h
  split at h
  · cases h
  · next q next hrest =>
    obtain rfl := Option.some.inj h
    exact ⟨next, hrest⟩

def Follows {S : Type} (P : Protocol Request.Answer S) (s : S) (a : Activity) : Prop :=
  a.rest.Follows P (fun _ _ => True) (P.advance s a.past)

end Activity

structure Inquiry where
  ledger : Ledger
  question : Request

structure Fleet where
  ledger : Ledger
  activities : List Activity
  log : List Inquiry

inductive Move where
  | start (task : Task)
  /-- An activity asks its next question. -/
  | ask (index : Nat) (now : Int) (outside : (q : Request) → q.Answer)
  | cutOff (index : Nat)

def Ledger.answer (l : Ledger) (now : Int) (outside : (q : Request) → q.Answer) :
    (q : Request) → Ledger × q.Answer
  | .store c => l.step now c
  | q => (l, outside q)

/-- An activity that is found after one was changed. -/
theorem Activity.of_getElem?_set {l : List Activity} {i j : Nat} {a b : Activity}
    (h : (l.set i a)[j]? = some b) : (j = i ∧ b = a) ∨ (j ≠ i ∧ l[j]? = some b) := by
  rw [List.getElem?_set] at h
  split at h
  · next hij =>
    split at h
    · exact Or.inl ⟨hij.symm, (Option.some.inj h).symm⟩
    · cases h
  · next hij => exact Or.inr ⟨Ne.symm hij, h⟩

/-- An activity that is found after one was started. -/
theorem Activity.of_getElem?_concat {l : List Activity} {j : Nat} {a b : Activity}
    (h : (l ++ [a])[j]? = some b) : b = a ∨ l[j]? = some b := by
  rw [List.getElem?_append] at h
  split at h
  · exact Or.inr h
  · exact Or.inl (List.mem_singleton.mp (List.mem_of_getElem? h))

/-- What surroundings in which all else stands still would answer. -/
def World.outside (service : Service) (w : World) (q : Request) : q.Answer :=
  (World.handle service 30 q w).2

namespace Fleet

def start (l : Ledger) : Fleet := ⟨l, [], []⟩

def asked (f : Fleet) (i : Nat) (a : Activity) (now : Int) (outside : (q : Request) → q.Answer)
    (q : Request) (next : q.Answer → Relay Unit) : Fleet :=
  let answered := f.ledger.answer now outside q
  ⟨answered.1, f.activities.set i (a.replied q next answered.2), f.log ++ [⟨f.ledger, q⟩]⟩

/-- One move. An activity that is over makes none. -/
def move (f : Fleet) : Move → Fleet
  | .start task => { f with activities := f.activities ++ [Activity.start task] }
  | .ask i now outside =>
    match f.activities[i]? with
    | none => f
    | some a =>
      match a.rest with
      | .done _ => f
      | .ask q next => f.asked i a now outside q next
  | .cutOff i =>
    match f.activities[i]? with
    | none => f
    | some a => { f with activities := f.activities.set i a.cutOff }

def after (f : Fleet) (moves : List Move) : Fleet := moves.foldl move f

inductive Step (f : Fleet) : Move → Fleet → Prop
  | idle (m : Move) : Step f m f
  | started (task : Task) :
      Step f (.start task) { f with activities := f.activities ++ [Activity.start task] }
  | asked (i : Nat) (now : Int) (outside : (q : Request) → q.Answer) (a : Activity) (q : Request)
      (next : q.Answer → Relay Unit) (hi : f.activities[i]? = some a)
      (hrest : a.rest = .ask q next) :
      Step f (.ask i now outside) (f.asked i a now outside q next)
  | cutOff (i : Nat) (a : Activity) (hi : f.activities[i]? = some a) :
      Step f (.cutOff i) { f with activities := f.activities.set i a.cutOff }

theorem step_move (f : Fleet) (m : Move) : Step f m (f.move m) := by
  cases m with
  | start task => exact .started task
  | ask i now outside =>
    unfold move
    dsimp only
    split
    · exact .idle _
    · next a hi =>
      split
      · exact .idle _
      · next q next hrest => exact .asked i now outside a q next hi hrest
  | cutOff i =>
    unfold move
    dsimp only
    split
    · exact .idle _
    · next a hi => exact .cutOff i a hi

def Along (p : Fleet → Move → Prop) : Fleet → List Move → Prop
  | _, [] => True
  | f, m :: rest => p f m ∧ Along p (f.move m) rest

instance decidableAlong (p : Fleet → Move → Prop) [∀ f m, Decidable (p f m)] :
    (f : Fleet) → (moves : List Move) → Decidable (f.Along p moves)
  | _, [] => inferInstanceAs (Decidable True)
  | f, m :: rest =>
    have := decidableAlong p (f.move m) rest
    inferInstanceAs (Decidable (p f m ∧ (f.move m).Along p rest))

theorem along_of_forall {p : Move → Prop} {moves : List Move} (h : ∀ m ∈ moves, p m) (f : Fleet) :
    f.Along (fun _ => p) moves := by
  induction moves generalizing f with
  | nil => exact trivial
  | cons m rest ih =>
    exact ⟨h m List.mem_cons_self, ih (fun m hm => h m (List.mem_cons_of_mem _ hm)) _⟩

/-- What every move of a kind keeps holds after moves of that kind. -/
theorem after_induction {I : Fleet → Prop} {p : Fleet → Move → Prop}
    (hstep : ∀ f m, p f m → I f → I (f.move m)) {f : Fleet} (h : I f) {moves : List Move}
    (hmoves : f.Along p moves) : I (f.after moves) := by
  induction moves generalizing f with
  | nil => exact h
  | cons m rest ih => exact ih (hstep f m hmoves.1 h) hmoves.2

def Follow {S : Type} (P : Protocol Request.Answer S) (s : S) (f : Fleet) : Prop :=
  ∀ a ∈ f.activities, a.Follows P s

/-- What an activity asks next is allowed by what it was answered. -/
theorem Follow.allows {S : Type} {P : Protocol Request.Answer S} {s : S} {f : Fleet}
    (h : f.Follow P s) {i : Nat} {a : Activity} (hi : f.activities[i]? = some a) {q : Request}
    {next : q.Answer → Relay Unit} (hrest : a.rest = .ask q next) :
    P.allows (P.advance s a.past) q := by
  have hfollows := h a (List.mem_of_getElem? hi)
  unfold Activity.Follows at hfollows
  rw [hrest] at hfollows
  exact hfollows.1

theorem Follow.move {S : Type} {P : Protocol Request.Answer S} {s : S} {f : Fleet}
    (h : f.Follow P s) {m : Move}
    (hstart : ∀ task, m = .start task → (Activity.start task).Follows P s) :
    (f.move m).Follow P s := by
  have hstep := step_move f m
  generalize f.move m = f' at hstep
  cases hstep with
  | idle => exact h
  | started task =>
    intro a ha
    rcases List.mem_append.mp ha with hold | hnew
    · exact h a hold
    · obtain rfl := List.mem_singleton.mp hnew
      exact hstart task rfl
  | asked i now outside a q next hi hrest =>
    have hfollows := h a (List.mem_of_getElem? hi)
    unfold Activity.Follows at hfollows
    rw [hrest] at hfollows
    intro b hb
    rcases List.mem_or_eq_of_mem_set hb with hold | rfl
    · exact h b hold
    · unfold Activity.Follows Activity.replied
      dsimp only
      rw [Protocol.advance_append]
      exact hfollows.2 _
  | cutOff i a hi =>
    intro b hb
    rcases List.mem_or_eq_of_mem_set hb with hold | rfl
    · exact h b hold
    · exact trivial

end Fleet

end HearingRelay
