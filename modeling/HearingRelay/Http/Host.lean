import HearingRelay.Http.Percent
import HearingRelay.Bounds
import HearingRelay.Text.Split

/-!
Hosts of web addresses: domains in lower case, with labels outside of ASCII in
Punycode; IPv4 addresses in their many spellings, written as four numbers; and
IPv6 addresses in brackets, written with the longest run of zeros left out.
-/

namespace HearingRelay.Http

/-! Punycode -/

def adaptBias (delta count : Nat) (first : Bool) : Nat :=
  let delta := if first then delta / 700 else delta / 2
  let delta := delta + delta / count
  let rec shrink : Nat → Nat → Nat → Nat
    | 0, delta, k => k + 36 * delta / (delta + 38)
    | steps + 1, delta, k =>
      if 455 < delta then shrink steps (delta / 35) (k + 36) else k + 36 * delta / (delta + 38)
  shrink (delta + 1) delta 0

def punycodeDigit (n : Nat) : Char := Char.ofNat (if n < 26 then 0x61 + n else 0x16 + n)

def punycodeNumber (bias : Nat) : Nat → Nat → Nat → List Char
  | 0, _, _ => []
  | steps + 1, k, q =>
    let t := if k ≤ bias then 1 else if bias + 26 ≤ k then 26 else k - bias
    if q < t then [punycodeDigit q]
    else punycodeDigit (t + (q - t) % (36 - t)) ::
      punycodeNumber bias steps (k + 36) ((q - t) / (36 - t))

structure PunycodeState where
  delta : Nat
  bias : Nat
  written : Nat
  first : Bool
  output : List Char

def punycodeStep (n : Nat) (s : PunycodeState) (c : Char) : PunycodeState :=
  if c.toNat < n then { s with delta := s.delta + 1 }
  else if c.toNat = n then
    { delta := 0, bias := adaptBias s.delta (s.written + 1) s.first, written := s.written + 1,
      first := false,
      output := s.output ++ punycodeNumber s.bias (s.delta + 1) 36 s.delta }
  else s

/-- Inserts the code points of a label from `n` on, the smallest first. -/
def punycodeFrom (label : List Char) : Nat → Nat → PunycodeState → List Char
  | 0, _, s => s.output
  | steps + 1, n, s =>
    match (label.map Char.toNat).filter (n ≤ ·) with
    | [] => s.output
    | m :: ms =>
      let m := ms.foldl min m
      let s := { s with delta := s.delta + (m - n) * (s.written + 1) }
      let s := label.foldl (punycodeStep m) s
      punycodeFrom label steps (m + 1) { s with delta := s.delta + 1 }

def asciiLabel (label : List Char) : List Char :=
  if label.all (·.toNat < 0x80) then label
  else
    let basic := label.filter (·.toNat < 0x80)
    let lead := if basic.isEmpty then [] else basic ++ ['-']
    ['x', 'n', '-', '-'] ++
      punycodeFrom label (label.length + 1) 0x80 ⟨0, 72, basic.length, true, lead⟩

/-! Addresses -/

def valueInBase? (base : Nat) (cs : List Char) : Option Nat :=
  cs.foldlM (fun n c => (Text.hexDigitValue? c).bind fun d =>
    if d < base then some (n * base + d) else none) 0

/-- A number of an IPv4 address, also octal or hexadecimal. -/
def ipv4Number? : List Char → Option Nat
  | [] => none
  | '0' :: 'x' :: rest => valueInBase? 16 rest
  | '0' :: 'X' :: rest => valueInBase? 16 rest
  | '0' :: d :: rest => valueInBase? 8 (d :: rest)
  | cs => valueInBase? 10 cs

/-- The parts of a domain; a point at the end does not make another. -/
def domainParts (cs : List Char) : List (List Char) :=
  let parts := Text.splitAt (· == '.') cs
  if 1 < parts.length ∧ parts.getLast? = some [] then parts.dropLast else parts

def endsInNumber (cs : List Char) : Bool :=
  match (domainParts cs).getLast? with
  | some [] => false
  | some part => part.all Text.isDigit || (ipv4Number? part).isSome
  | none => false

/-- The 32 bits of an IPv4 address: all parts but the last are bytes. -/
def ipv4? (cs : List Char) : Option Nat := do
  let numbers ← (domainParts cs).mapM ipv4Number?
  if 4 < numbers.length then none
  else
    let last ← numbers.getLast?
    if numbers.dropLast.any (255 < ·) || Nat.pow 256 (5 - numbers.length) ≤ last then none
    else
      some (numbers.dropLast.zipIdx.foldl (fun n p => n + p.1 * Nat.pow 256 (3 - p.2)) last)

def writeIpv4 (n : Nat) : String :=
  ".".intercalate ([3, 2, 1, 0].map fun place => Text.writeNat (n / Nat.pow 256 place % 256))

def ipv6Piece? (cs : List Char) : Option Nat :=
  if cs.isEmpty || 4 < cs.length then none else valueInBase? 16 cs

/-- Four decimal bytes without needless zeros, as two pieces. -/
def ipv6Tail? (cs : List Char) : Option (List Nat) := do
  let bytes ← (Text.splitAt (· == '.') cs).mapM fun part =>
    if part.isEmpty || !part.all Text.isDigit || (1 < part.length && part.head? == some '0') then
      none
    else
      let n := Text.valueOfDigits part
      if n ≤ 255 then some n else none
  match bytes with
  | [a, b, c, d] => some [a * 256 + b, c * 256 + d]
  | _ => none

/-- Pieces between colons, of which the last may be an IPv4 address. -/
def ipv6Pieces? (cs : List Char) : Option (List Nat) :=
  if cs.isEmpty then some []
  else
    let parts := Text.splitAt (· == ':') cs
    match parts.getLast? with
    | some last =>
      if last.contains '.' then do
        let front ← parts.dropLast.mapM ipv6Piece?
        let tail ← ipv6Tail? last
        some (front ++ tail)
      else parts.mapM ipv6Piece?
    | none => none

def splitDoubleColon : List Char → Option (List Char × List Char)
  | ':' :: ':' :: rest => some ([], rest)
  | c :: rest => (splitDoubleColon rest).map fun p => (c :: p.1, p.2)
  | [] => none

def ipv6? (cs : List Char) : Option (List Nat) :=
  match splitDoubleColon cs with
  | none => (ipv6Pieces? cs).filter (·.length == 8)
  | some (front, back) => do
    let front ← if front.contains '.' then none else ipv6Pieces? front
    let back ← ipv6Pieces? back
    if 7 < front.length + back.length then none
    else some (front ++ List.replicate (8 - front.length - back.length) 0 ++ back)

def zeroRun (pieces : List Nat) : Nat := (pieces.takeWhile (· == 0)).length

/-- Where the first longest run of zeros starts, and its length. -/
def longestZeroRun (pieces : List Nat) : Nat × Nat :=
  (List.range pieces.length).foldl (fun best i =>
    let n := zeroRun (pieces.drop i)
    if best.2 < n then (i, n) else best) (0, 0)

def writePiece (n : Nat) : String := String.ofList (Nat.toDigits 16 n)

def writeIpv6 (pieces : List Nat) : String :=
  let (start, length) := longestZeroRun pieces
  let join := fun ps : List Nat => ":".intercalate (ps.map writePiece)
  if length < 2 then join pieces
  else join (pieces.take start) ++ "::" ++ join (pieces.drop (start + length))

/-! Hosts -/

def isForbiddenInDomain (c : Char) : Bool :=
  c.toNat ≤ 0x20 || c.toNat == 0x7F ||
  ['#', '/', ':', '<', '>', '?', '@', '[', '\\', ']', '^', '|', '%'].contains c

def host? (cs : List Char) : Option String :=
  match cs with
  | '[' :: rest =>
    if rest.getLast? = some ']' then
      (ipv6? rest.dropLast).map fun pieces => "[" ++ writeIpv6 pieces ++ "]"
    else none
  | _ => do
    let decoded ← String.fromUTF8? ⟨(percentDecode cs).toArray⟩
    let labels := Text.splitAt (· == '.') (decoded.toList.map Text.toLower)
    let domain := ['.'].intercalate (labels.map asciiLabel)
    if domain.isEmpty || domain.any isForbiddenInDomain then none
    else if endsInNumber domain then (ipv4? domain).map writeIpv4
    else some (String.ofList domain)

end HearingRelay.Http
