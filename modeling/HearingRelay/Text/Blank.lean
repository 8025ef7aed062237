/-!
White space and trimming. A character is blank when Unicode gives it the
property White_Space; ASCII blanks are among them, the zero-width space and
the byte order mark are not. Trimming removes blanks at the ends only.
-/

namespace HearingRelay.Text

/-- The twenty-five code points with the property White_Space. -/
def isBlank (c : Char) : Bool :=
  let n := c.toNat
  (0x09 ≤ n && n ≤ 0x0D) || n == 0x20 || n == 0x85 || n == 0xA0 || n == 0x1680 ||
  (0x2000 ≤ n && n ≤ 0x200A) || n == 0x2028 || n == 0x2029 || n == 0x202F ||
  n == 0x205F || n == 0x3000

def trimLeft (cs : List Char) : List Char := cs.dropWhile isBlank

def trimRight (cs : List Char) : List Char := (cs.reverse.dropWhile isBlank).reverse

def trim (cs : List Char) : List Char := trimRight (trimLeft cs)

def IsBlankText (s : String) : Prop := ∀ c ∈ s.toList, isBlank c = true

instance (s : String) : Decidable (IsBlankText s) := List.decidableBAll _ s.toList

def nonBlank (s : String) : Option String := if IsBlankText s then none else some s

theorem trimLeft_of_not_blank {c : Char} {cs : List Char} (h : isBlank c = false) :
    trimLeft (c :: cs) = c :: cs := by
  simp [trimLeft, h]

end HearingRelay.Text
