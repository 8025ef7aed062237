/-!
Texts between separators, and the case of ASCII letters. A separator always
stands between two parts, so there is one part more than separators.
-/

namespace HearingRelay.Text

def splitAt (isSeparator : Char → Bool) : List Char → List (List Char)
  | [] => [[]]
  | c :: rest =>
    if isSeparator c then [] :: splitAt isSeparator rest
    else
      match splitAt isSeparator rest with
      | [] => [[c]]
      | part :: parts => (c :: part) :: parts

def isLetter (c : Char) : Bool := ('a' ≤ c && c ≤ 'z') || ('A' ≤ c && c ≤ 'Z')

def toLower (c : Char) : Char := if 'A' ≤ c ∧ c ≤ 'Z' then Char.ofNat (c.toNat + 32) else c

end HearingRelay.Text
