/-!
Programs that ask. A program is done, or asks a question and goes on with the
answer, whose type depends on the question. Programs say nothing about how a
question is answered: a handler with a state of its own does, and several
programs may take turns with one handler, question by question.
-/

namespace HearingRelay

inductive Program {R : Type} (Answer : R → Type) (α : Type) where
  | done (a : α)
  | ask (question : R) (next : Answer question → Program Answer α)

/-- Answers questions from a state, which it may change. -/
abbrev Handler {R : Type} (Answer : R → Type) (σ : Type) := (r : R) → σ → σ × Answer r

namespace Program

variable {R : Type} {Answer : R → Type} {α β γ σ : Type}

def bind : Program Answer α → (α → Program Answer β) → Program Answer β
  | done a, k => k a
  | ask r next, k => ask r fun x => (next x).bind k

def call (r : R) : Program Answer (Answer r) := ask r done

instance : Monad (Program Answer) where
  pure := done
  bind := bind

def run (handle : Handler Answer σ) : Program Answer α → σ → σ × α
  | done a, s => (s, a)
  | ask r next, s =>
    let answered := handle r s
    run handle (next answered.2) answered.1

def runWith {m : Type → Type} [Monad m] (handle : (r : R) → m (Answer r)) : Program Answer α → m α
  | done a => pure a
  | ask r next => do
    let answer ← handle r
    runWith handle (next answer)

theorem bind_done (p : Program Answer α) : p.bind done = p := by
  induction p with
  | done a => rfl
  | ask r next ih => simp [bind, ih]

theorem bind_assoc (p : Program Answer α) (f : α → Program Answer β) (g : β → Program Answer γ) :
    (p.bind f).bind g = p.bind fun a => (f a).bind g := by
  induction p with
  | done a => rfl
  | ask r next ih => simp [bind, ih]

instance : LawfulMonad (Program Answer) := LawfulMonad.mk'
  _
  (fun p => bind_done p)
  (fun _ _ => rfl)
  (fun p f g => bind_assoc p f g)

@[simp] theorem run_pure (handle : Handler Answer σ) (a : α) (s : σ) :
    run handle (pure a) s = (s, a) := rfl

@[simp] theorem run_call (handle : Handler Answer σ) (r : R) (s : σ) :
    run handle (call r) s = handle r s := rfl

/-- A program that goes on is run in two parts. -/
@[simp] theorem run_bind (handle : Handler Answer σ) (p : Program Answer α)
    (k : α → Program Answer β) (s : σ) :
    run handle (p >>= k) s = run handle (k (run handle p s).2) (run handle p s).1 := by
  change run handle (p.bind k) s = _
  induction p generalizing s with
  | done a => rfl
  | ask r next ih => exact ih _ _

end Program

end HearingRelay
