import Ece344Lab.Webserver.Client
import Mathlib.Data.List.TakeWhile
import Mathlib.Data.Nat.Digits.Lemmas
import Mathlib.Tactic.IntervalCases

/-!
# Client and server agree

Read line by line, a stream gives its lines however `read` splits it, as long as each is shorter
than the array it is read into. The client therefore finds the length and the checksum that the
server printed, and adds up the same over the body.
-/
namespace Ece344Lab.Webserver

open Library.Program (except_ok_bind)

/-- The lines of a text, each with its newline. -/
def lines : Bytes → List Bytes
  | [] => []
  | c :: s =>
    if c = 10 then [c] :: lines s
    else match lines s with
      | [] => [[c]]
      | l :: ls => (c :: l) :: ls

/-- Every line, its newline included, is shorter than the client's array. -/
def ShortLines (s : Bytes) : Prop := ∀ l ∈ lines s, l.length < MAXBUF

instance (s : Bytes) : Decidable (ShortLines s) :=
  inferInstanceAs (Decidable (∀ l ∈ lines s, l.length < MAXBUF))

section Lines

theorem flatten_lines (s : Bytes) : (lines s).flatten = s := by
  induction s with
  | nil => rfl
  | cons c s ih =>
    rw [lines]
    split_ifs
    · simp [ih]
    · split
      case h_1 h => rw [h] at ih; simp [← ih]
      case h_2 h => rw [h] at ih; simp [← ih]

theorem lines_cons_newline (s : Bytes) : lines (10 :: s) = [10] :: lines s := by simp [lines]

/-- A line without further newlines is the first line of the text it begins. -/
theorem lines_append {l : Bytes} (h : 10 ∉ l) (s : Bytes) :
    lines (l ++ 10 :: s) = (l ++ [10]) :: lines s := by
  induction l with
  | nil => exact lines_cons_newline s
  | cons c l ih =>
    rw [List.mem_cons, not_or] at h
    rw [List.cons_append, lines, if_neg (Ne.symm h.1), ih h.2]
    rfl

theorem headD_lines_cons {c : UInt8} (h : c ≠ 10) (s : Bytes) :
    (lines (c :: s)).headD [] = c :: (lines s).headD [] ∧
      (lines (c :: s)).tail = (lines s).tail := by
  rw [lines, if_neg h]
  cases lines s <;> exact ⟨rfl, rfl⟩

theorem ne_nil_of_mem_lines {s l : Bytes} (h : l ∈ lines s) : l ≠ [] := by
  induction s generalizing l with
  | nil => cases h
  | cons c s ih =>
    rw [lines] at h
    split_ifs at h
    · obtain rfl | h := List.mem_cons.1 h
      · simp
      · exact ih h
    · split at h
      · obtain rfl : l = [c] := by simpa using h
        simp
      case h_2 hl =>
        obtain rfl | h := List.mem_cons.1 h
        · simp
        · exact ih (hl ▸ List.mem_cons_of_mem _ h)

end Lines

section Reading

variable {rp rp' : Rio} {buf : Bytes}

/-- Every call of `read` that is not interrupted delivers something before the stream ends. -/
def Delivers (reads : List (Option Bytes)) : Prop := some [] ∉ reads

theorem refill_stream {reads : List (Option Bytes)} (h : Delivers reads) :
    (refill reads).stream = (reads.filterMap id).flatten ∧ Delivers (refill reads).reads ∧
      ((refill reads).unread = [] → (refill reads).stream = []) := by
  induction reads with
  | nil => exact ⟨rfl, h, fun _ => rfl⟩
  | cons r reads ih =>
    have tail : Delivers reads := fun hm => h (List.mem_cons_of_mem _ hm)
    cases r with
    | none => simpa [refill] using ih tail
    | some b =>
      refine ⟨by simp [refill, Rio.stream], tail, fun hb => ?_⟩
      exact absurd (hb ▸ List.mem_cons_self) h

/-- Reading one byte takes it off the stream, wherever the internal buffer stands. -/
theorem rioReadb_one (h : Delivers rp.reads) :
    (∃ rp', rioReadb rp 1 = ([], rp') ∧ rp.stream = [] ∧ rp'.stream = [] ∧ Delivers rp'.reads) ∨
      ∃ c rp', rioReadb rp 1 = ([c], rp') ∧ rp.stream = c :: rp'.stream ∧
        Delivers rp'.reads := by
  obtain ⟨q, hq, delivers, same, empty⟩ : ∃ q : Rio,
      (if rp.unread = [] then refill rp.reads else rp) = q ∧ Delivers q.reads ∧
        q.stream = rp.stream ∧ (q.unread = [] → q.stream = []) := by
    by_cases hu : rp.unread = []
    · obtain ⟨stream, delivers, empty⟩ := refill_stream h
      exact ⟨_, if_pos hu, delivers, by rw [stream, Rio.stream, hu]; rfl, empty⟩
    · exact ⟨rp, if_neg hu, h, rfl, fun hn => absurd hn hu⟩
  rw [rioReadb, hq, ← same]
  cases hu : q.unread with
  | nil =>
    have stream := empty hu
    exact .inl ⟨⟨[], q.reads⟩, rfl, stream, by simpa [Rio.stream, hu] using stream, delivers⟩
  | cons c rest => exact .inr ⟨c, ⟨rest, q.reads⟩, rfl, by simp [Rio.stream, hu], delivers⟩

/-- What is still to come is the given lines. -/
structure Rio.Yields (rp : Rio) (ls : List Bytes) : Prop where
  delivers : Delivers rp.reads
  lines_eq : lines rp.stream = ls

/-- Reading a line takes at most `k` bytes of the first line, and leaves the others when that is
all of it. -/
theorem readlineLoop_lines (h : Delivers rp.reads) (k : Nat) :
    ∃ rp', readlineLoop rp k = (((lines rp.stream).headD []).take k, rp') ∧
      (((lines rp.stream).headD []).length ≤ k → rp'.Yields (lines rp.stream).tail) := by
  induction k generalizing rp with
  | zero =>
    refine ⟨rp, by simp [readlineLoop], fun hl => ⟨h, ?_⟩⟩
    cases hs : lines rp.stream with
    | nil => rfl
    | cons l ls =>
      have := ne_nil_of_mem_lines (s := rp.stream) (l := l) (by simp [hs])
      rw [hs] at hl
      exact absurd (List.length_eq_zero_iff.1 (Nat.le_zero.1 hl)) this
  | succ k ih =>
    obtain ⟨rp', read, stream, stream', delivers⟩ | ⟨c, rp', read, stream, delivers⟩ :=
      rioReadb_one h
    · refine ⟨rp', ?_, fun _ => ⟨delivers, ?_⟩⟩
      · rw [readlineLoop, read, stream]
        rfl
      · rw [stream, stream']
        rfl
    · rw [readlineLoop, read, stream]
      by_cases hc : c = 10
      · subst hc
        rw [lines_cons_newline]
        exact ⟨rp', by simp, fun _ => ⟨delivers, rfl⟩⟩
      · obtain ⟨rp'', loop, rest⟩ := ih delivers
        obtain ⟨head, tail⟩ := headD_lines_cons hc rp'.stream
        rw [head, tail]
        exact ⟨rp'', by simp [hc, loop], fun hl => rest (by simpa using hl)⟩

theorem rioReadlineb_nil (buf : Bytes) (h : rp.Yields []) :
    ∃ rp', rioReadlineb rp buf MAXBUF = .ok (0, buf, rp') ∧ rp'.Yields [] := by
  obtain ⟨rp', loop, rest⟩ := readlineLoop_lines h.delivers MAXBUF
  rw [h.lines_eq] at loop rest
  exact ⟨rp', by simp [rioReadlineb, loop], rest (by simp)⟩

theorem rioReadlineb_cons (buf : Bytes) {l : Bytes} {ls : List Bytes} (h : rp.Yields (l :: ls))
    (short : l.length < MAXBUF) :
    ∃ rp', rioReadlineb rp buf MAXBUF = .ok (l.length, l, rp') ∧ rp'.Yields ls := by
  obtain ⟨rp', loop, rest⟩ := readlineLoop_lines h.delivers MAXBUF
  have ne := ne_nil_of_mem_lines (s := rp.stream) (l := l) (by simp [h.lines_eq])
  rw [h.lines_eq] at loop rest
  rw [List.headD_cons, List.take_of_length_le short.le] at loop
  exact ⟨rp', by simp [rioReadlineb, loop, ne, short], rest (by simpa using short.le)⟩

/-- A line that does not fit has its final zero stored behind the array. -/
theorem rioReadlineb_overflow (buf : Bytes) {l : Bytes} {ls : List Bytes} (h : rp.Yields (l :: ls))
    (long : MAXBUF ≤ l.length) : rioReadlineb rp buf MAXBUF = .error .bufferOverflow := by
  obtain ⟨rp', loop, -⟩ := readlineLoop_lines h.delivers MAXBUF
  rw [h.lines_eq, List.headD_cons] at loop
  have length : (l.take MAXBUF).length = MAXBUF := by simp [long]
  have ne : l.take MAXBUF ≠ [] := by
    intro hn
    rw [hn] at length
    exact absurd length (by decide)
  simp only [rioReadlineb, loop, if_neg ne, length, le_refl, if_true]

/-- The body loop adds up the bytes of short lines. -/
theorem bodyLoop_short {ls : List Bytes} (h : rp.Yields ls) (short : ∀ l ∈ ls, l.length < MAXBUF)
    {length_received : Int} {csum_received : Nat} (h0 : 0 ≤ length_received)
    (h1 : length_received + ls.flatten.length < 2 ^ 31) (h2 : csum_received < 4294967296) :
    bodyLoop buf rp length_received csum_received =
      .ok (length_received + ls.flatten.length,
        (csum_received + (ls.flatten.map UInt8.toNat).sum) % 4294967296) := by
  induction ls generalizing rp buf length_received csum_received with
  | nil =>
    obtain ⟨rp', read, -⟩ := rioReadlineb_nil buf h
    rw [bodyLoop]
    split
    case h_1 read' => rw [read] at read'; cases read'
    case h_2 read' =>
      rw [read] at read'
      cases read'
      have := wrap_of_range (x := length_received + 0) (by omega) (by simpa using h1)
      simp [Nat.mod_eq_of_lt h2] at this ⊢
      exact this
  | cons l ls ih =>
    obtain ⟨rp', read, yields⟩ := rioReadlineb_cons buf h (short l (by simp))
    have ne := ne_nil_of_mem_lines (s := rp.stream) (l := l) (by simp [h.lines_eq])
    have pos : 0 < l.length := List.length_pos_iff.2 ne
    simp only [List.flatten_cons, List.length_append, Nat.cast_add] at h1
    rw [bodyLoop]
    split
    case h_1 read' => rw [read] at read'; cases read'
    case h_2 read' =>
      rw [read] at read'
      cases read'
      simp only [if_pos pos]
      rw [wrap_of_range (by omega) (by omega), ih yields
        (fun m hm => short m (List.mem_cons_of_mem _ hm)) (by omega) (by omega)
        (Nat.mod_lt _ (by decide))]
      simp only [List.take_length, List.flatten_cons, List.length_append, List.map_append,
        List.sum_append, Nat.mod_add_mod, Nat.cast_add, add_assoc]

/-- A long line ends the body loop outside its array. -/
theorem bodyLoop_long {ls : List Bytes} (h : rp.Yields ls) (long : ∃ l ∈ ls, MAXBUF ≤ l.length)
    {length_received : Int} {csum_received : Nat} :
    bodyLoop buf rp length_received csum_received = .error .bufferOverflow := by
  induction ls generalizing rp buf length_received csum_received with
  | nil => simp at long
  | cons l ls ih =>
    rw [bodyLoop]
    by_cases hl : MAXBUF ≤ l.length
    · have read := rioReadlineb_overflow buf h hl
      split
      case h_1 read' => rw [read] at read'; cases read'; rfl
      case h_2 read' => rw [read] at read'; cases read'
    · obtain ⟨rp', read, yields⟩ := rioReadlineb_cons buf h (by omega)
      have ne := ne_nil_of_mem_lines (s := rp.stream) (l := l) (by simp [h.lines_eq])
      split
      case h_1 read' => rw [read] at read'; cases read'
      case h_2 read' =>
        rw [read] at read'
        cases read'
        simp only [if_pos (List.length_pos_iff.2 ne)]
        refine ih yields ?_
        obtain ⟨m, hm, hlong⟩ := long
        obtain rfl | hm := List.mem_cons.1 hm
        · exact absurd hlong hl
        · exact ⟨m, hm, hlong⟩

end Reading

section Numbers

theorem isDigit_of_mem_decimal {n : Nat} {c : UInt8} (h : c ∈ decimal n) : isDigit c = true := by
  unfold decimal at h
  split_ifs at h
  · obtain rfl : c = 48 := by simpa using h
    decide
  · obtain ⟨d, hd, rfl⟩ := List.mem_map.1 h
    have lt : d < 10 := Nat.digits_lt_base (by decide) (List.mem_reverse.1 hd)
    interval_cases d <;> decide

theorem decimal_ne_nil (n : Nat) : decimal n ≠ [] := by
  unfold decimal
  split_ifs with h
  · simp
  · simpa using Nat.digits_ne_nil_iff_ne_zero.2 h

/-- A number below `10 ^ k` has at most `k` digits. -/
theorem length_decimal {n k : Nat} (hk : 0 < k) (h : n < 10 ^ k) : (decimal n).length ≤ k := by
  unfold decimal
  split_ifs
  · exact hk
  · rw [List.length_map, List.length_reverse]
    exact (Nat.digits_length_le_iff (by decide) n).2 h

theorem digitsValue_decimal (n : Nat) : digitsValue (decimal n) = n := by
  unfold decimal
  split_ifs with h
  · rw [h]; rfl
  · have value : ∀ l : List Nat, (∀ d ∈ l, d < 10) →
        digitsValue (l.reverse.map fun d => 48 + UInt8.ofNat d) = Nat.ofDigits 10 l := by
      intro l hl
      induction l with
      | nil => rfl
      | cons d l ih =>
        have digit : (48 + UInt8.ofNat d).toNat - 48 = d := by
          have lt := hl d (by simp)
          interval_cases d <;> decide
        rw [Nat.ofDigits_cons, ← ih fun e he => hl e (List.mem_cons_of_mem _ he)]
        simp only [digitsValue, List.reverse_cons, List.map_append, List.map_cons, List.map_nil,
          List.foldl_append, List.foldl_cons, List.foldl_nil, digit]
        omega
    rw [value _ fun d hd => Nat.digits_lt_base (by decide) hd, Nat.ofDigits_digits]

/-- `%d` and `%u` read back what they printed. -/
theorem scanNumber_decimal (n : Nat) : scanNumber (32 :: (decimal n ++ [13, 10])) = some (n : Int) := by
  obtain ⟨c, l, hl⟩ := List.exists_cons_of_ne_nil (decimal_ne_nil n)
  have digit : isDigit c = true := isDigit_of_mem_decimal (n := n) (by simp [hl])
  have digits : (decimal n ++ [13, 10]).takeWhile isDigit = decimal n := by
    rw [List.takeWhile_append_of_pos fun c hc => isDigit_of_mem_decimal hc]
    simp [isDigit]
  have range : 48 ≤ c ∧ c ≤ 57 := by simpa [isDigit] using digit
  have space : isSpace c = false := by
    obtain ⟨h0, h1⟩ := range
    simp only [isSpace, Bool.or_eq_false_iff, decide_eq_false_iff_not, Bool.and_eq_false_iff]
    refine ⟨?_, .inr ?_⟩
    · rintro rfl; exact absurd h0 (by decide)
    · intro h; exact absurd (UInt8.le_trans h0 h) (by decide)
  have blanks : (32 :: (decimal n ++ [13, 10])).dropWhile isSpace = decimal n ++ [13, 10] := by
    rw [List.dropWhile_cons_of_pos (by decide), hl, List.cons_append,
      List.dropWhile_cons_of_neg (by simp [space])]
  have minus : c ≠ 45 := by rintro rfl; exact absurd range.1 (by decide)
  have plus : c ≠ 43 := by rintro rfl; exact absurd range.1 (by decide)
  have sign : scanSign (decimal n ++ [13, 10]) = (1, decimal n ++ [13, 10]) := by
    rw [hl, List.cons_append, scanSign, if_neg minus, if_neg plus]
  rw [scanNumber, blanks, sign]
  simp only [digits]
  rw [hl]
  simp only [← hl, digitsValue_decimal, one_mul]

end Numbers

section Headers

variable {rp : Rio} {buf : Bytes} {length : Int} {csum n : Nat}

/-- A header line: it does not begin like the empty line, fits the array and has no newline but
its own. -/
structure HeaderLine (l : Bytes) : Prop where
  first : ∃ c t, l = c :: t ∧ c ≠ 0 ∧ c ≠ 13
  short : l.length < MAXBUF

theorem HeaderLine.ne_blank {l : Bytes} (h : HeaderLine l) :
    l.takeWhile (· ≠ 0) ≠ ascii "\r\n" ∧ 0 < l.length := by
  obtain ⟨c, t, rfl, h0, h13⟩ := h.first
  refine ⟨fun heq => ?_, by simp⟩
  rw [List.takeWhile_cons_of_pos (by simpa using h0)] at heq
  exact h13 (List.cons.inj heq).1

/-- The header loop goes on from one header line to the next line. -/
theorem headerLoop_next {l m : Bytes} {ls : List Bytes} (hl : HeaderLine l)
    (yields : rp.Yields (m :: ls)) (short : m.length < MAXBUF) :
    ∃ rp', rp'.Yields ls ∧ ∀ length csum, headerLoop l.length l rp length csum =
      headerLoop m.length m rp' ((scanTag (ascii "Content-Length:") m).getD length)
        (((scanTag (ascii "Content-Csum:") m).map fun v => (v % 4294967296).toNat).getD csum) := by
  obtain ⟨rp', read, rest⟩ := rioReadlineb_cons l yields short
  refine ⟨rp', rest, fun length csum => ?_⟩
  rw [headerLoop, if_pos hl.ne_blank]
  split
  case h_1 read' => rw [read] at read'; cases read'
  case h_2 read' => rw [read] at read'; cases read'; rfl

theorem headerLoop_blank :
    headerLoop n (ascii "\r\n") rp length csum = .ok (ascii "\r\n", rp, length, csum) := by
  rw [headerLoop, if_neg (fun h => h.1 (by decide))]

theorem scanTag_of_mismatch {tag l : Bytes} (h : l.take tag.length ≠ tag) :
    scanTag tag l = none := by
  rw [scanTag, if_neg]
  intro hp
  exact h (List.prefix_iff_eq_take.1 (hp.trans (List.takeWhile_prefix _))).symm

/-- The number in a header line of the server. -/
theorem scanTag_decimal {tag : Bytes} (h : ∀ c ∈ tag, c ≠ 0) (n : Nat) :
    scanTag tag (tag ++ 32 :: (decimal n ++ [13, 10])) = some (n : Int) := by
  have str : (tag ++ 32 :: (decimal n ++ [13, 10])).takeWhile (· ≠ 0) =
      tag ++ 32 :: (decimal n ++ [13, 10]) := by
    refine List.takeWhile_eq_self_iff.2 fun c hc => ?_
    simp only [List.mem_append, List.mem_cons, List.not_mem_nil, or_false] at hc
    obtain hc | rfl | hc | rfl | rfl := hc
    · simpa using h c hc
    · decide
    · have digit := isDigit_of_mem_decimal hc
      by_contra h0
      obtain rfl : c = 0 := by simpa using h0
      exact absurd digit (by decide)
    · decide
    · decide
  rw [scanTag, str, if_pos (List.prefix_append _ _), List.drop_left, scanNumber_decimal]

/-- A text that ends with its only newline. -/
def IsLine (l : Bytes) : Prop := ∃ b, l = b ++ [10] ∧ 10 ∉ b

theorem lines_flatten_append {ls : List Bytes} (h : ∀ l ∈ ls, IsLine l) (s : Bytes) :
    lines (ls.flatten ++ s) = ls ++ lines s := by
  induction ls with
  | nil => rfl
  | cons l ls ih =>
    obtain ⟨b, rfl, hb⟩ := h l (by simp)
    rw [List.flatten_cons, List.append_assoc, List.append_assoc, List.singleton_append,
      lines_append hb, ih fun m hm => h m (List.mem_cons_of_mem _ hm), List.cons_append]

theorem isLine_number {tag : Bytes} (h : 10 ∉ tag) (n : Nat) :
    IsLine (tag ++ 32 :: (decimal n ++ [13, 10])) := by
  refine ⟨tag ++ 32 :: (decimal n ++ [13]), by simp, ?_⟩
  simp only [List.mem_append, List.mem_cons, List.not_mem_nil, or_false, not_or]
  refine ⟨h, by decide, fun hc => ?_, by decide⟩
  exact absurd (isDigit_of_mem_decimal hc) (by decide)

end Headers

section Agreement

variable {name content buf : Bytes} {reads : List (Option Bytes)}

/-- The data of a file. -/
def fileData (name content : Bytes) : FileData := ⟨name, content, content.length⟩

/-- `read` delivers the stream in nonempty pieces that fit the internal buffer, interrupted any
number of times. -/
structure Splits (reads : List (Option Bytes)) (s : Bytes) : Prop where
  delivers : Delivers reads
  fits : ∀ b, some b ∈ reads → b.length ≤ RIO_BUFSIZE
  flatten_eq : (reads.filterMap id).flatten = s

/-- The lines that `request_sendfile` puts before the content. -/
def headerLines (name content : Bytes) : List Bytes :=
  [ascii "HTTP/1.0 200 OK\r\n", ascii "Server: OS Web Server\r\n",
    ascii "Content-Type: " ++ requestGetFileType name ++ ascii "\r\n",
    ascii "Content-Length:" ++ 32 :: (decimal content.length ++ [13, 10]),
    ascii "Content-Csum:" ++ 32 :: (decimal (csum content) ++ [13, 10]),
    ascii "\r\n"]

theorem decimalInt_natCast (n : Nat) : decimalInt n = decimal n := by
  rw [decimalInt, if_neg (by omega), Int.natAbs_natCast]

theorem response_eq (name content : Bytes) :
    (requestSendfile (fileData name content)).flatMap Chunk.bytes =
      (headerLines name content).flatten ++ content := by
  have header : responseHeader (fileData name content) = (headerLines name content).flatten := by
    simp only [responseHeader, fileData, headerLines, decimalInt_natCast, Int.toNat_natCast,
      List.take_length]
    simp only [show ascii "Content-Length: " = ascii "Content-Length:" ++ [32] by decide,
      show ascii "Content-Csum: " = ascii "Content-Csum:" ++ [32] by decide,
      show ascii "\r\n\r\n" = [13, 10] ++ ascii "\r\n" by decide,
      show ascii "\r\n" = [13, 10] by decide]
    simp
  unfold requestSendfile
  split_ifs with pos
  · simp only [List.flatMap_cons, List.flatMap_nil, Chunk.bytes, header, List.append_nil]
    simp [fileData]
  · have empty : content = [] := by simpa [fileData] using pos
    simp only [List.flatMap_cons, List.flatMap_nil, Chunk.bytes, header, List.append_nil]
    rw [empty, List.append_nil]

theorem requestGetFileType_cases (name : Bytes) :
    requestGetFileType name = ascii "text/html" ∨ requestGetFileType name = ascii "image/gif" ∨
      requestGetFileType name = ascii "image/jpeg" ∨
      requestGetFileType name = ascii "text/plain" := by
  unfold requestGetFileType
  split_ifs <;> simp

theorem isLine_headerLines : ∀ l ∈ headerLines name content, IsLine l := by
  have type : IsLine (ascii "Content-Type: " ++ requestGetFileType name ++ ascii "\r\n") := by
    refine ⟨ascii "Content-Type: " ++ requestGetFileType name ++ [13], ?_, ?_⟩
    · rw [show ascii "\r\n" = [13] ++ [10] by decide, ← List.append_assoc]
    · rcases requestGetFileType_cases name with h | h | h | h <;> rw [h] <;> decide
  simp only [headerLines, List.forall_mem_cons, List.not_mem_nil, false_imp_iff, implies_true,
    and_true]
  exact ⟨⟨ascii "HTTP/1.0 200 OK\r", by decide, by decide⟩,
    ⟨ascii "Server: OS Web Server\r", by decide, by decide⟩, type,
    isLine_number (by decide) _, isLine_number (by decide) _, ⟨[13], by decide, by decide⟩⟩

theorem headerLine_number {tag : Bytes} (h : ∃ c t, tag = c :: t ∧ c ≠ 0 ∧ c ≠ 13)
    (length : tag.length ≤ 20) {n : Nat} (hn : n < 4294967296) :
    HeaderLine (tag ++ 32 :: (decimal n ++ [13, 10])) := by
  obtain ⟨c, t, rfl, h0, h13⟩ := h
  refine ⟨⟨c, _, rfl, h0, h13⟩, ?_⟩
  have := length_decimal (n := n) (k := 10) (by decide) (by omega)
  simp only [List.length_append, List.length_cons, List.length_nil, MAXBUF] at length ⊢
  omega

/-- After the header loop the client knows both numbers and stands before the content. -/
theorem client_header (buf : Bytes) (hlen : content.length < 2 ^ 31)
    (splits : Splits reads ((requestSendfile (fileData name content)).flatMap Chunk.bytes)) :
    ∃ rp, rp.Yields (lines content) ∧ clientPrint reads buf = do
      let (length_received, csum_received) ← bodyLoop (ascii "\r\n") rp 0 0
      return ⟨content.length, length_received, csum content, csum_received⟩ := by
  have start : (⟨[], reads⟩ : Rio).Yields (headerLines name content ++ lines content) := by
    refine ⟨splits.delivers, ?_⟩
    rw [Rio.stream, List.nil_append, splits.flatten_eq, response_eq,
      lines_flatten_append isLine_headerLines]
  simp only [headerLines, List.cons_append, List.nil_append] at start
  have csum_lt : csum content < 4294967296 := Nat.mod_lt _ (by decide)
  have status : HeaderLine (ascii "HTTP/1.0 200 OK\r\n") :=
    ⟨⟨72, _, rfl, by decide, by decide⟩, by decide⟩
  have server : HeaderLine (ascii "Server: OS Web Server\r\n") :=
    ⟨⟨83, _, rfl, by decide, by decide⟩, by decide⟩
  have type : HeaderLine (ascii "Content-Type: " ++ requestGetFileType name ++ ascii "\r\n") := by
    refine ⟨⟨67, _, rfl, by decide, by decide⟩, ?_⟩
    rcases requestGetFileType_cases name with h | h | h | h <;> rw [h] <;> decide
  have length : HeaderLine (ascii "Content-Length:" ++ 32 :: (decimal content.length ++ [13, 10])) :=
    headerLine_number ⟨67, _, rfl, by decide, by decide⟩ (by decide) (by omega)
  have sum : HeaderLine (ascii "Content-Csum:" ++ 32 :: (decimal (csum content) ++ [13, 10])) :=
    headerLine_number ⟨67, _, rfl, by decide, by decide⟩ (by decide) csum_lt
  have tags : ∀ t, t = ascii "Content-Length:" ∨ t = ascii "Content-Csum:" →
      scanTag t (ascii "Server: OS Web Server\r\n") = none ∧
      scanTag t (ascii "Content-Type: " ++ requestGetFileType name ++ ascii "\r\n") = none ∧
      scanTag t (ascii "\r\n") = none := by
    rintro t (rfl | rfl) <;>
      refine ⟨scanTag_of_mismatch (by decide), scanTag_of_mismatch ?_,
        scanTag_of_mismatch (by decide)⟩ <;>
      rcases requestGetFileType_cases name with h | h | h | h <;> rw [h] <;> decide
  obtain ⟨server₁, type₁, blank₁⟩ := tags _ (.inl rfl)
  obtain ⟨server₂, type₂, blank₂⟩ := tags _ (.inr rfl)
  have length₂ : scanTag (ascii "Content-Csum:")
      (ascii "Content-Length:" ++ 32 :: (decimal content.length ++ [13, 10])) = none :=
    scanTag_of_mismatch (by
      rw [List.take_append_of_le_length (by decide)]
      decide)
  have sum₁ : scanTag (ascii "Content-Length:")
      (ascii "Content-Csum:" ++ 32 :: (decimal (csum content) ++ [13, 10])) = none :=
    scanTag_of_mismatch (fun h => absurd (congrArg (List.take 9) h) (by
      rw [List.take_take, List.take_append_of_le_length (by decide)]
      decide))
  have length₁ := scanTag_decimal
    (show ∀ c ∈ ascii "Content-Length:", c ≠ 0 by decide +kernel) content.length
  have sum₂ := scanTag_decimal
    (show ∀ c ∈ ascii "Content-Csum:", c ≠ 0 by decide +kernel) (csum content)
  -- one line after the other, with what each says about the two numbers
  obtain ⟨rp₁, read₁, yields₁⟩ := rioReadlineb_cons buf start status.short
  obtain ⟨rp₂, yields₂, loop₂⟩ := headerLoop_next status yields₁ server.short
  obtain ⟨rp₃, yields₃, loop₃⟩ := headerLoop_next server yields₂ type.short
  obtain ⟨rp₄, yields₄, loop₄⟩ := headerLoop_next type yields₃ length.short
  obtain ⟨rp₅, yields₅, loop₅⟩ := headerLoop_next length yields₄ sum.short
  obtain ⟨rp₆, yields₆, loop₆⟩ := headerLoop_next sum yields₅ (by decide)
  refine ⟨rp₆, yields₆, ?_⟩
  rw [clientPrint, read₁, except_ok_bind]
  simp only [loop₂, loop₃, loop₄, loop₅, loop₆, server₁, server₂, type₁, type₂, length₁, length₂,
    sum₁, sum₂, blank₁, blank₂, Option.getD_none, Option.getD_some, Option.map_none,
    Option.map_some, headerLoop_blank, except_ok_bind]
  have value : ((csum content : Int) % 4294967296).toNat = csum content := by omega
  rw [value]

/-- The two sides agree: `client_print` finishes, what it parsed is right and its assertions
hold. -/
def Agrees (content buf : Bytes) (reads : List (Option Bytes)) : Prop :=
  ∃ r, clientPrint reads buf = .ok r ∧ r.length = content.length ∧ r.csum = csum content ∧
    r.length_received = r.length ∧ r.csum_received = r.csum

/-- A client that finishes met no long line. -/
theorem Agrees.shortLines (hlen : content.length < 2 ^ 31)
    (splits : Splits reads ((requestSendfile (fileData name content)).flatMap Chunk.bytes))
    (h : Agrees content buf reads) : ShortLines content := by
  obtain ⟨rp, yields, run⟩ := client_header buf hlen splits
  obtain ⟨r, result, -⟩ := h
  rw [run] at result
  by_contra long
  rw [ShortLines] at long
  push Not at long
  rw [bodyLoop_long yields long] at result
  cases result

/-- Client and server agree on a file, however the response is split, exactly if each of its
lines is shorter than the client's array. -/
theorem agrees_iff_shortLines (hlen : content.length < 2 ^ 31)
    (splits : Splits reads ((requestSendfile (fileData name content)).flatMap Chunk.bytes)) :
    Agrees content buf reads ↔ ShortLines content := by
  obtain ⟨rp, yields, run⟩ := client_header buf hlen splits
  refine ⟨Agrees.shortLines hlen splits, fun short => ?_⟩
  rw [Agrees, run, bodyLoop_short yields short le_rfl
    (by rw [flatten_lines]; simpa using hlen) (by decide), flatten_lines]
  refine ⟨_, rfl, rfl, rfl, by simp, ?_⟩
  show (0 + _) % 4294967296 = csum content
  rw [zero_add, csum]

/-- Every call of `read` may deliver a single byte. -/
theorem splits_bytes (s : Bytes) : Splits (s.map fun c => some [c]) s := by
  refine ⟨by simp [Delivers], fun b hb => ?_, ?_⟩
  · obtain ⟨c, -, hc⟩ := List.mem_map.1 hb
    obtain rfl := Option.some.inj hc
    rw [List.length_singleton]
    decide
  · induction s with
    | nil => rfl
    | cons c s ih => simpa using ih

/-- A file of two lines. -/
theorem agrees_two_lines :
    Agrees [97, 10, 98] [] (((requestSendfile (fileData [46] [97, 10, 98])).flatMap
      Chunk.bytes).map fun c => some [c]) :=
  (agrees_iff_shortLines (by decide) (splits_bytes _)).2 (by decide)

theorem lines_replicate (k : Nat) :
    lines (List.replicate (k + 1) 97) = [List.replicate (k + 1) 97] := by
  induction k with
  | zero => rfl
  | succ k ih => rw [List.replicate_succ, lines, if_neg (by decide), ih]

/-- 8192 bytes without a newline, delivered one by one. -/
theorem long_line_disagrees :
    ¬ ∀ (name content buf : Bytes) (reads : List (Option Bytes)), content.length < 2 ^ 31 →
      Splits reads ((requestSendfile (fileData name content)).flatMap Chunk.bytes) →
        Agrees content buf reads := by
  intro h
  have length : (List.replicate (8191 + 1) (97 : UInt8)).length < 2 ^ 31 := by
    rw [List.length_replicate]
    decide
  have short := Agrees.shortLines length (splits_bytes _)
    (h [46] (List.replicate (8191 + 1) 97) [] _ length (splits_bytes _))
  have lt := short (List.replicate (8191 + 1) 97) (by
    rw [lines_replicate]
    exact List.mem_singleton_self _)
  rw [List.length_replicate] at lt
  exact absurd lt (by decide)

end Agreement

end Ece344Lab.Webserver
