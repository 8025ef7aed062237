/-!
The ranges of the fixed-width integers that the stored columns, the settings
and the wire formats use.
-/

namespace HearingRelay.Bounds

def minInt64 : Int := -9223372036854775808
def maxInt64 : Int := 9223372036854775807
def maxUInt64 : Nat := 18446744073709551615
def minInt32 : Int := -2147483648
def maxInt32 : Int := 2147483647
def maxUInt32 : Nat := 4294967295
def maxUInt16 : Nat := 65535

def fitsInt64 (n : Int) : Bool := minInt64 ≤ n && n ≤ maxInt64
def fitsInt32 (n : Int) : Bool := minInt32 ≤ n && n ≤ maxInt32

/-- The remainder that an unsigned 32-bit counter keeps. -/
def wrapUInt32 (n : Int) : Nat := (n % 4294967296).toNat

end HearingRelay.Bounds
