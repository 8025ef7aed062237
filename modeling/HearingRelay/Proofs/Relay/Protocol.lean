import HearingRelay.Dispatch

/-!
What programs ask. All questions of a program may be of one kind; or they
follow a protocol, which in each of its states allows some questions and is led
to the next state by a question with its answer. A program follows a protocol
when it never asks anything else, whatever it is answered, and its result fits
the state in which it ends. A program in several parts follows a protocol when
each part does, from the state in which the one before ended.
-/

namespace HearingRelay

abbrev Reply {R : Type} (Answer : R → Type) := (q : R) × Answer q

structure Protocol {R : Type} (Answer : R → Type) (S : Type) where
  allows : S → R → Prop
  after : S → (q : R) → Answer q → S

variable {R : Type} {Answer : R → Type} {S α β σ : Type}

namespace Protocol

def advance (P : Protocol Answer S) (s : S) (replies : List (Reply Answer)) : S :=
  replies.foldl (fun s reply => P.after s reply.1 reply.2) s

@[simp] theorem advance_nil (P : Protocol Answer S) (s : S) : P.advance s [] = s := rfl

@[simp] theorem advance_cons (P : Protocol Answer S) (s : S) (reply : Reply Answer)
    (rest : List (Reply Answer)) :
    P.advance s (reply :: rest) = P.advance (P.after s reply.1 reply.2) rest := rfl

@[simp] theorem advance_append (P : Protocol Answer S) (s : S)
    (earlier later : List (Reply Answer)) :
    P.advance s (earlier ++ later) = P.advance (P.advance s earlier) later := List.foldl_append

/-- Keeps the replies, and allows every question. -/
def recording (Answer : R → Type) : Protocol Answer (List (Reply Answer)) where
  allows _ _ := True
  after replies q answer := replies ++ [⟨q, answer⟩]

theorem recording_after (replies : List (Reply Answer)) (q : R) (answer : Answer q) :
    (recording Answer).after replies q answer = replies ++ [⟨q, answer⟩] := rfl

theorem recording_advance (earlier later : List (Reply Answer)) :
    (recording Answer).advance earlier later = earlier ++ later := by
  induction later generalizing earlier with
  | nil => simp
  | cons reply rest ih =>
    rw [advance_cons, ih]
    simp [recording]

end Protocol

namespace Program

section Only

variable {p : R → Prop}

/-- Whether all questions of a program are of a kind, whatever the answers. -/
def Only (p : R → Prop) : Program Answer α → Prop
  | done _ => True
  | ask q next => p q ∧ ∀ answer, (next answer).Only p

theorem only_pure (a : α) : (pure a : Program Answer α).Only p := trivial

theorem only_call {q : R} (h : p q) : (call q : Program Answer (Answer q)).Only p :=
  ⟨h, fun _ => trivial⟩

theorem Only.bind {x : Program Answer α} {k : α → Program Answer β} (h : x.Only p)
    (hk : ∀ a, (k a).Only p) : (x >>= k).Only p := by
  change (x.bind k).Only p
  induction x with
  | done a => exact hk a
  | ask q next ih => exact ⟨h.1, fun answer => ih answer (h.2 answer)⟩

/-- What every question of the kind keeps is kept by the program. -/
theorem Only.run {handle : Handler Answer σ} {I : σ → Prop}
    (hask : ∀ q s, p q → I s → I (handle q s).1) {x : Program Answer α} (h : x.Only p) {s : σ}
    (hs : I s) : I (x.run handle s).1 := by
  induction x generalizing s with
  | done a => exact hs
  | ask q next ih => exact ih _ (h.2 _) (hask q s h.1 hs)

end Only

variable {P : Protocol Answer S} {post post' : α → S → Prop} {s : S}

def replies (handle : Handler Answer σ) : Program Answer α → σ → List (Reply Answer)
  | done _, _ => []
  | ask q next, t =>
    let answered := handle q t
    ⟨q, answered.2⟩ :: replies handle (next answered.2) answered.1

@[simp] theorem replies_pure (handle : Handler Answer σ) (a : α) (t : σ) :
    replies handle (pure a) t = [] := rfl

@[simp] theorem replies_call (handle : Handler Answer σ) (q : R) (t : σ) :
    replies handle (call q) t = [⟨q, (handle q t).2⟩] := rfl

/-- A program that goes on gets its replies in two parts. -/
@[simp] theorem replies_bind (handle : Handler Answer σ) (x : Program Answer α)
    (k : α → Program Answer β) (t : σ) :
    replies handle (x >>= k) t =
      replies handle x t ++ replies handle (k (run handle x t).2) (run handle x t).1 := by
  change replies handle (x.bind k) t = _
  induction x generalizing t with
  | done a => rfl
  | ask q next ih => exact congrArg (_ :: ·) (ih _ _)

/-- Whether a program follows a protocol from a state on, to a result that fits. -/
def Follows (P : Protocol Answer S) (post : α → S → Prop) : Program Answer α → S → Prop
  | done a, s => post a s
  | ask q next, s => P.allows s q ∧ ∀ answer, (next answer).Follows P post (P.after s q answer)

theorem follows_pure {a : α} (h : post a s) : (pure a : Program Answer α).Follows P post s := h

theorem follows_call {q : R} {post : Answer q → S → Prop} (h : P.allows s q)
    (hpost : ∀ answer, post answer (P.after s q answer)) : (call q).Follows P post s := ⟨h, hpost⟩

theorem Follows.bind {x : Program Answer α} {k : α → Program Answer β} {M : α → S → Prop}
    {post : β → S → Prop} (h : x.Follows P M s)
    (hk : ∀ a s', M a s' → (k a).Follows P post s') : (x >>= k).Follows P post s := by
  change (x.bind k).Follows P post s
  induction x generalizing s with
  | done a => exact hk a s h
  | ask q next ih => exact ⟨h.1, fun answer => ih answer (h.2 answer)⟩

theorem Follows.mono {x : Program Answer α} (h : x.Follows P post s)
    (hpost : ∀ a s', post a s' → post' a s') : x.Follows P post' s := by
  induction x generalizing s with
  | done a => exact hpost a s h
  | ask q next ih => exact ⟨h.1, fun answer => ih answer (h.2 answer)⟩

/-- Questions that lead nowhere are no departure from a protocol. -/
theorem Only.follows {p : R → Prop} {x : Program Answer α} (h : x.Only p)
    (hp : ∀ q, p q → P.allows s q ∧ ∀ answer, P.after s q answer = s) :
    x.Follows P (fun _ => (· = s)) s := by
  induction x with
  | done a => rfl
  | ask q next ih =>
    obtain ⟨hallowed, hstays⟩ := hp q h.1
    refine ⟨hallowed, fun answer => ?_⟩
    rw [hstays answer]
    exact ih answer (h.2 answer)

/-- A run of a program that follows a protocol ends with a fitting result. -/
theorem Follows.run {x : Program Answer α} (h : x.Follows P post s) (handle : Handler Answer σ)
    (t : σ) : post (x.run handle t).2 (P.advance s (x.replies handle t)) := by
  induction x generalizing s t with
  | done a => exact h
  | ask q next ih => exact ih _ (h.2 _) _

end Program

section Delivery

open Program

theorem Delivery.deliver_only {p : Request → Prop} {timeout : Time.Span} {hearing : Int}
    {eventType : EventType} {payload : String} (hsend : ∀ call, p (.send call))
    (hpublish : ∀ report, p (.publish hearing report)) :
    (deliver timeout hearing eventType payload).Only p := by
  unfold deliver
  split
  · exact only_pure _
  · refine (only_call (hsend _)).bind fun answer => Only.bind ?_ fun _ => only_pure _
    cases (resultWithin timeout answer).report? with
    | none => exact only_pure _
    | some report => exact (only_call (hpublish report)).bind fun _ => only_pure _

variable {P : Protocol Request.Answer S} {s : S} {timeout : Time.Span} {hearing : Int}
  {eventType : EventType} {payload : String}
  {post : Except DispatchError HearingResponse → S → Prop}

/-- A delivery follows a protocol when its call does and the reports of the
call change nothing that matters. -/
theorem Delivery.deliver_follows (called : Option CallResult → S → Prop)
    (hunreadable : ∀ e, Json.parse payload = .error e → post (.error (.payload e)) s)
    (hsend : ∀ document, Json.parse payload = .ok document →
      P.allows s (.send ⟨eventType, hearing, document⟩) ∧
        ∀ answer, called answer (P.after s (.send ⟨eventType, hearing, document⟩) answer))
    (hpublish : ∀ answer s' report, called answer s' → P.allows s' (.publish hearing report) ∧
      ∀ reply, called answer (P.after s' (.publish hearing report) reply))
    (hpost : ∀ answer s', called answer s' →
      post ((resultWithin timeout answer).mapError .downstream) s') :
    (deliver timeout hearing eventType payload).Follows P post s := by
  unfold deliver
  split
  · next e hparse => exact follows_pure (hunreadable e hparse)
  · next document hparse =>
    obtain ⟨hallowed, hcalled⟩ := hsend document hparse
    refine (follows_call hallowed hcalled).bind fun answer s' h => ?_
    have hannounced : (announce hearing (resultWithin timeout answer).report?).Follows P
        (fun _ => called answer) s' := by
      cases (resultWithin timeout answer).report? with
      | none => exact follows_pure h
      | some report =>
        obtain ⟨hallowed, hreported⟩ := hpublish answer s' report h
        exact (follows_call hallowed hreported).bind fun _ _ h => follows_pure h
    exact hannounced.bind fun _ s' h => follows_pure (hpost answer s' h)

end Delivery

namespace Dispatch

open Program

def prepares : StoreCall → Bool
  | .rowsOfHearing _ | .requeueException .. | .create .. => true
  | _ => false

theorem findEntry_only {p : Request → Prop} {deployment : String} {event : Event}
    (hstore : ∀ c, prepares c = true → (Relay.store c).Only p) :
    (findEntry deployment event).Only p := by
  refine (hstore _ rfl).bind fun answer => ?_
  cases answer with
  | error err => exact only_pure _
  | ok rows =>
    dsimp only
    split
    · split
      · exact only_pure _
      · exact only_pure _
      · exact only_pure _
      · refine (hstore _ rfl).bind fun answer => ?_
        cases answer <;> exact only_pure _
    · refine (hstore _ rfl).bind fun answer => ?_
      cases answer <;> exact only_pure _

end Dispatch

end HearingRelay
