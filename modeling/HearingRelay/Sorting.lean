/-!
Stable insertion sort, used wherever an answer shows its rows in order. Equal
elements keep their order.
-/

namespace HearingRelay.Sorting

variable {α : Type}

def insert (le : α → α → Bool) (a : α) : List α → List α
  | [] => [a]
  | b :: rest => if le a b then a :: b :: rest else b :: insert le a rest

def sort (le : α → α → Bool) (l : List α) : List α := l.foldr (insert le) []

theorem insert_perm (le : α → α → Bool) (a : α) (l : List α) :
    (insert le a l).Perm (a :: l) := by
  induction l with
  | nil => exact .refl _
  | cons b rest ih =>
    simp only [insert]
    split
    · exact .refl _
    · exact (List.Perm.cons b ih).trans (.swap a b rest)

theorem sort_perm (le : α → α → Bool) (l : List α) : (sort le l).Perm l := by
  induction l with
  | nil => exact .refl _
  | cons a rest ih => exact (insert_perm le a _).trans (.cons a ih)

theorem mem_sort {le : α → α → Bool} {l : List α} {a : α} : a ∈ sort le l ↔ a ∈ l :=
  (sort_perm le l).mem_iff

/-- A list in order stays as it is. -/
theorem sort_eq_self {le : α → α → Bool} {l : List α} (h : l.Pairwise fun a b => le a b = true) :
    sort le l = l := by
  induction l with
  | nil => rfl
  | cons a rest ih =>
    obtain ⟨hfirst, hrest⟩ := List.pairwise_cons.mp h
    change insert le a (sort le rest) = a :: rest
    rw [ih hrest]
    cases rest with
    | nil => rfl
    | cons b rest => simp [insert, hfirst b List.mem_cons_self]

section Order

variable {le : α → α → Bool} (htotal : ∀ a b, le a b = true ∨ le b a = true)
  (htrans : ∀ a b c, le a b = true → le b c = true → le a c = true)
include htotal htrans

theorem insert_pairwise (a : α) {l : List α} (h : l.Pairwise fun a b => le a b = true) :
    (insert le a l).Pairwise fun a b => le a b = true := by
  induction l with
  | nil => exact List.pairwise_singleton _ a
  | cons b rest ih =>
    obtain ⟨hfirst, hrest⟩ := List.pairwise_cons.mp h
    simp only [insert]
    split
    · next hle =>
      refine List.pairwise_cons.mpr ⟨?_, h⟩
      intro c hc
      rcases List.mem_cons.mp hc with rfl | hc
      · exact hle
      · exact htrans a b c hle (hfirst c hc)
    · next hnot =>
      refine List.pairwise_cons.mpr ⟨?_, ih hrest⟩
      intro c hc
      rcases List.mem_cons.mp ((insert_perm le a rest).mem_iff.mp hc) with rfl | hc
      · exact (htotal c b).resolve_left hnot
      · exact hfirst c hc

/-- In a total order a sorted list is in order. -/
theorem sort_pairwise (l : List α) : (sort le l).Pairwise fun a b => le a b = true := by
  induction l with
  | nil => exact .nil
  | cons a rest ih => exact insert_pairwise htotal htrans a ih

/-- The first of a sorted list comes before all others. -/
theorem le_of_head?_sort {l : List α} {a : α} (h : (sort le l).head? = some a) :
    ∀ b ∈ l, b ≠ a → le a b = true := by
  intro b hb hne
  obtain ⟨rest, hsorted⟩ := List.head?_eq_some_iff.mp h
  have horder := sort_pairwise htotal htrans l
  rw [hsorted] at horder
  have hmem : b ∈ a :: rest := hsorted ▸ mem_sort.mpr hb
  exact (List.pairwise_cons.mp horder).1 b ((List.mem_cons.mp hmem).resolve_left hne)

end Order

end HearingRelay.Sorting
