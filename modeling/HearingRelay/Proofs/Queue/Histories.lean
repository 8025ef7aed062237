import HearingRelay.Proofs.Queue.Conservation
import Mathlib.Data.List.Induction

/-!
Histories of calls, and what they come to. A broker says something of its calls
when it holds of the empty broker and every call either brings it about, keeps it
or ends it. It then holds exactly when a call brought it about and all calls
since have kept it.
-/

namespace HearingRelay

abbrev QueueHistory := List (Consumer × Int × QueueCall)

namespace Broker

theorem after_append (b : Broker) (earlier later : QueueHistory) :
    b.after (earlier ++ later) = (b.after earlier).after later := List.foldl_append

theorem after_concat (b : Broker) (history : QueueHistory) (q : Consumer) (now : Int)
    (c : QueueCall) :
    b.after (history ++ [(q, now, c)]) = ((b.after history).step q now c).1 := after_append ..

variable {made kept : QueueHistory → Consumer → Int → QueueCall → Prop}

/-- Whether a call of one kind was made, and all calls since were of another. Of
what kind a call is may depend on the calls before it. -/
def Since (made kept : QueueHistory → Consumer → Int → QueueCall → Prop)
    (history : QueueHistory) : Prop :=
  ∃ earlier q now c later, history = earlier ++ (q, now, c) :: later ∧ made earlier q now c ∧
    ∀ before q' now' c' rest, later = before ++ (q', now', c') :: rest →
      kept (earlier ++ (q, now, c) :: before) q' now' c'

theorem not_since_nil : ¬ Since made kept [] := by
  rintro ⟨earlier, q, now, c, later, hsplit, -⟩
  exact absurd hsplit.symm (by simp)

theorem since_append {history : QueueHistory} {q : Consumer} {now : Int} {c : QueueCall} :
    Since made kept (history ++ [(q, now, c)]) ↔
      made history q now c ∨ (Since made kept history ∧ kept history q now c) := by
  constructor
  · rintro ⟨earlier, q', now', c', later, hsplit, hmade, hkept⟩
    rcases List.eq_nil_or_concat later with rfl | ⟨later, last, rfl⟩
    · obtain ⟨rfl, hlast⟩ := List.append_inj' hsplit rfl
      cases hlast
      exact Or.inl hmade
    · rw [List.concat_eq_append, ← List.cons_append, ← List.append_assoc] at hsplit
      obtain ⟨rfl, hlast⟩ := List.append_inj' hsplit rfl
      cases hlast
      rw [List.concat_eq_append] at hkept
      refine Or.inr ⟨⟨earlier, q', now', c', later, rfl, hmade, ?_⟩, hkept later q now c [] rfl⟩
      rintro before q'' now'' c'' rest rfl
      exact hkept before q'' now'' c'' (rest ++ [(q, now, c)]) (by simp)
  · rintro (hmade | ⟨⟨earlier, q', now', c', later, rfl, hmade, hkept⟩, hlast⟩)
    · exact ⟨history, q, now, c, [], rfl, hmade, by simp⟩
    · refine ⟨earlier, q', now', c', later ++ [(q, now, c)], by simp, hmade, ?_⟩
      intro before q'' now'' c'' rest hsplit
      rcases List.eq_nil_or_concat rest with rfl | ⟨rest, last, rfl⟩
      · obtain ⟨rfl, hsame⟩ := List.append_inj' hsplit rfl
        cases hsame
        exact hlast
      · rw [List.concat_eq_append, ← List.cons_append, ← List.append_assoc] at hsplit
        obtain ⟨rfl, -⟩ := List.append_inj' hsplit rfl
        exact hkept before q'' now'' c'' rest rfl

/-- What a broker says of its calls, when every step says it. -/
theorem iff_since {P : Broker → Prop} (hempty : ¬ P empty)
    (hstep : ∀ history q now c, P ((empty.after history).step q now c).1 ↔
      made history q now c ∨ (P (empty.after history) ∧ kept history q now c))
    (history : QueueHistory) : P (empty.after history) ↔ Since made kept history := by
  induction history using List.reverseRecOn with
  | nil => exact iff_of_false hempty not_since_nil
  | append_singleton history call ih =>
    obtain ⟨q, now, c⟩ := call
    rw [since_append, after_concat, ← ih]
    exact hstep history q now c

end Broker

end HearingRelay
