import Ece344Lab.Library.Program
import Ece344Lab.Webserver.Request

/-!
# The client

`client_print` and the buffered reading of `common.c` that it rests on. What `read` returns is
a list: `none` is a call interrupted by a signal, `some b` delivers bytes, and after the list the
stream has ended.
-/
namespace Ece344Lab.Webserver

def RIO_BUFSIZE : Nat := 8192

/-- `struct rio`: the unread bytes of the internal buffer and what `read` will return. -/
structure Rio where
  unread : Bytes
  reads : List (Option Bytes)

/-- The bytes that are still to come, in the internal buffer and from `read`. -/
def Rio.stream (rp : Rio) : Bytes := rp.unread ++ (rp.reads.filterMap id).flatten

/-- The loop of `rio_readb` that refills an empty buffer. -/
def refill : List (Option Bytes) → Rio
  | [] => ⟨[], []⟩
  | none :: reads => refill reads
  | some b :: reads => ⟨b, reads⟩

/-- `rio_readb(rp, usrbuf, n)`: the bytes copied, none at the end of the stream. -/
def rioReadb (rp : Rio) (n : Nat) : Bytes × Rio :=
  let rp' := if rp.unread = [] then refill rp.reads else rp
  (rp'.unread.take n, { rp' with unread := rp'.unread.drop n })

/-- The loop of `rio_readlineb`, with `k` more bytes to read at most. -/
def readlineLoop (rp : Rio) : Nat → Bytes × Rio
  | 0 => ([], rp)
  | k + 1 =>
    match rioReadb rp 1 with
    | ([], rp') => ([], rp')
    | (c :: _, rp') =>
      if c = 10 then ([c], rp')
      else (c :: (readlineLoop rp' k).1, (readlineLoop rp' k).2)

/-- `rio_readlineb(rp, buf, maxlen)` into an array of `maxlen` bytes: the number of bytes read
and the string in the array. At the end of the stream the array stays as it was. The final zero
is stored behind the line, wherever that is. -/
def rioReadlineb (rp : Rio) (buf : Bytes) (maxlen : Nat) : Except Fault (Nat × Bytes × Rio) :=
  let (line, rp') := readlineLoop rp maxlen
  if line = [] then .ok (0, buf, rp')
  else if maxlen ≤ line.length then .error .bufferOverflow
  else .ok (line.length, line, rp')

def isSpace (c : UInt8) : Bool := c = 32 || (9 ≤ c && c ≤ 13)

def isDigit (c : UInt8) : Bool := 48 ≤ c && c ≤ 57

/-- The number that `%d` or `%u` reads off digits. -/
def digitsValue (digits : Bytes) : Nat := digits.foldl (fun n c => 10 * n + (c.toNat - 48)) 0

/-- The optional sign of a number. -/
def scanSign : Bytes → Int × Bytes
  | [] => (1, [])
  | c :: s => if c = 45 then (-1, s) else if c = 43 then (1, s) else (1, c :: s)

/-- `%d` and `%u`: blanks, an optional sign, at least one digit. -/
def scanNumber (s : Bytes) : Option Int :=
  let (sign, s) := scanSign (s.dropWhile isSpace)
  match s.takeWhile isDigit with
  | [] => none
  | digits => some (sign * digitsValue digits)

/-- `sscanf(buf, "<tag> %d ", &x) == 1`: the number after the tag. The string ends at its first
zero. -/
def scanTag (tag buf : Bytes) : Option Int :=
  let str := buf.takeWhile (· ≠ 0)
  if tag <+: str then scanNumber (str.drop tag.length) else none

/-- The variables of `client_print` that its assertions compare. -/
structure ClientResult where
  length : Int
  length_received : Int
  csum : Nat
  csum_received : Nat
  deriving DecidableEq

section Termination

theorem refill_stream_le (reads : List (Option Bytes)) :
    (refill reads).stream.length ≤ (reads.filterMap id).flatten.length := by
  induction reads with
  | nil => simp [refill, Rio.stream]
  | cons r reads ih => cases r <;> simp_all [refill, Rio.stream]

theorem rioReadb_stream_le (rp : Rio) (n : Nat) :
    (rioReadb rp n).1.length + (rioReadb rp n).2.stream.length ≤ rp.stream.length := by
  unfold rioReadb
  simp only
  split
  case isTrue empty =>
    have := refill_stream_le rp.reads
    simp only [Rio.stream, empty, List.nil_append, List.length_append, List.length_take,
      List.length_drop] at this ⊢
    omega
  case isFalse =>
    simp only [Rio.stream, List.length_append, List.length_take, List.length_drop]
    omega

theorem readlineLoop_stream_le (rp : Rio) (k : Nat) :
    (readlineLoop rp k).1.length + (readlineLoop rp k).2.stream.length ≤ rp.stream.length := by
  induction k generalizing rp with
  | zero => simp [readlineLoop]
  | succ k ih =>
    have read := rioReadb_stream_le rp 1
    rw [readlineLoop]
    split
    case h_1 rp' h => rw [h] at read; simpa using read
    case h_2 c t rp' h =>
      rw [h] at read
      simp only [List.length_cons] at read
      have := ih rp'
      split
      · simp only [List.length_cons, List.length_nil]; omega
      · simp only [List.length_cons]; omega

theorem rioReadlineb_stream_le {rp rp' : Rio} {buf buf' : Bytes} {maxlen n : Nat}
    (h : rioReadlineb rp buf maxlen = .ok (n, buf', rp')) :
    n + rp'.stream.length ≤ rp.stream.length := by
  have le := readlineLoop_stream_le rp maxlen
  unfold rioReadlineb at h
  simp only at h
  split_ifs at h with empty
  · cases h
    omega
  · cases h
    exact le

end Termination

/-- The header loop of `client_print`. -/
def headerLoop (n : Nat) (buf : Bytes) (rp : Rio) (length : Int) (csum : Nat) :
    Except Fault (Bytes × Rio × Int × Nat) :=
  if buf.takeWhile (· ≠ 0) ≠ ascii "\r\n" ∧ 0 < n then
    match _h : rioReadlineb rp buf MAXBUF with
    | .error fault => .error fault
    | .ok (n', buf', rp') =>
      headerLoop n' buf' rp' ((scanTag (ascii "Content-Length:") buf').getD length)
        (((scanTag (ascii "Content-Csum:") buf').map fun v => (v % 4294967296).toNat).getD csum)
  else .ok (buf, rp, length, csum)
termination_by rp.stream.length + min n 1
decreasing_by
  have := rioReadlineb_stream_le _h
  omega

/-- The body loop of `client_print`. -/
def bodyLoop (buf : Bytes) (rp : Rio) (length_received : Int) (csum_received : Nat) :
    Except Fault (Int × Nat) :=
  match h : rioReadlineb rp buf MAXBUF with
  | .error fault => .error fault
  | .ok (n, buf', rp') =>
    let length_received := wrap (length_received + n)
    let csum_received := (csum_received + ((buf'.take n).map UInt8.toNat).sum) % 4294967296
    if 0 < n then bodyLoop buf' rp' length_received csum_received
    else .ok (length_received, csum_received)
termination_by rp.stream.length
decreasing_by
  have := rioReadlineb_stream_le h
  omega

/-- `client_print`, up to its assertions. `buf` is what the array holds at first. -/
def clientPrint (reads : List (Option Bytes)) (buf : Bytes) : Except Fault ClientResult := do
  let (n, buf, rp) ← rioReadlineb ⟨[], reads⟩ buf MAXBUF
  let (buf, rp, length, csum) ← headerLoop n buf rp 0 0
  let (length_received, csum_received) ← bodyLoop buf rp 0 0
  return ⟨length, length_received, csum, csum_received⟩

end Ece344Lab.Webserver
