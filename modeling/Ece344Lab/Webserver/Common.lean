import Mathlib.Data.Nat.Digits.Defs
import Mathlib.Data.List.Basic

/-!
# Bytes, machine integers and text of the web server
-/
namespace Ece344Lab.Webserver

/-- A file name or file content: the bytes, for a name without the final zero. -/
abbrev Bytes := List UInt8

/-- The value of an `int` computation: 32-bit two's complement. -/
def wrap (x : Int) : Int := (x + 2147483648) % 4294967296 - 2147483648

theorem wrap_of_range {x : Int} (h0 : -2147483648 ≤ x) (h1 : x < 2147483648) : wrap x = x := by
  unfold wrap; omega

/-- `MAXLINE` and `MAXBUF`. -/
def MAXLINE : Nat := 8192

def MAXBUF : Nat := 8192

/-- The bytes of a string of the source. -/
def ascii (s : String) : Bytes := s.toList.map fun c => UInt8.ofNat c.toNat

/-- What `%d` and `%u` print for a number that is not negative. -/
def decimal (n : Nat) : Bytes :=
  if n = 0 then [48] else (Nat.digits 10 n).reverse.map fun d => 48 + UInt8.ofNat d

/-- What `%d` prints. -/
def decimalInt (i : Int) : Bytes := if i < 0 then 45 :: decimal i.natAbs else decimal i.natAbs

/-- The checksum of server and client: the bytes added up in an `unsigned int`. -/
def csum (b : Bytes) : Nat := (b.map UInt8.toNat).sum % 4294967296

end Ece344Lab.Webserver
