import Ece344Lab.Webserver.ClientFormat

/-!
# Reading lines and headers on the server

`rio_readlineb` stores the final zero behind the line, so the array is large enough exactly when
the line is shorter than `maxlen`. `request_read_headers` looks for the empty line in the array
only: at the end of the stream the array does not change any more, and the loop goes on for ever.
-/
namespace Ece344Lab.Webserver

variable {rp rp' : Rio} {buf : Bytes} {maxlen fuel : Nat}

/-- The bytes that `rio_readlineb(rp, usrbuf, maxlen)` stores from the start of `usrbuf` on: the
line and the final zero, nothing when the stream has ended. -/
def readlineStores (rp : Rio) (maxlen : Nat) : Bytes :=
  if (readlineLoop rp maxlen).1 = [] then [] else (readlineLoop rp maxlen).1 ++ [0]

/-- The next line of a text, with its newline if it has one. -/
def nextLine (s : Bytes) : Bytes := (lines s).headD []

section Readline

/-- An array of `maxlen` bytes overflows when more is stored. -/
theorem rioReadlineb_overflow_iff (rp : Rio) (buf : Bytes) (maxlen : Nat) :
    rioReadlineb rp buf maxlen = .error .bufferOverflow ↔
      maxlen < (readlineStores rp maxlen).length := by
  rw [rioReadlineb, readlineStores]
  by_cases hline : (readlineLoop rp maxlen).1 = []
  · simp [hline]
  · dsimp only
    rw [if_neg hline, if_neg hline, List.length_append, List.length_singleton]
    split_ifs with hfull
    · exact iff_of_true rfl (Nat.lt_succ_of_le hfull)
    · exact iff_of_false (fun h => by cases h) (fun h => hfull (Nat.le_of_lt_succ h))

/-- A line is stored within `maxlen` bytes exactly when it is shorter. -/
theorem readline_stays_inside (h : Delivers rp.reads) (hpos : 1 ≤ maxlen) :
    (readlineStores rp maxlen).length ≤ maxlen ↔ (nextLine rp.stream).length < maxlen := by
  obtain ⟨rp', hloop, -⟩ := readlineLoop_lines h maxlen
  rw [readlineStores, hloop, nextLine]
  dsimp only
  generalize (lines rp.stream).headD [] = line
  by_cases hline : line.take maxlen = []
  · have hnil : line = [] :=
      (List.take_eq_nil_iff.1 hline).resolve_left (Nat.ne_of_gt hpos)
    rw [if_pos hline, hnil]
    exact iff_of_true (Nat.zero_le _) hpos
  · rw [if_neg hline, List.length_append, List.length_take, List.length_singleton]
    omega

theorem readline_stays_inside_short :
    (readlineStores ⟨[], [some [97, 10]]⟩ 3).length ≤ 3 ↔
      (nextLine (Rio.stream ⟨[], [some [97, 10]]⟩)).length < 3 :=
  readline_stays_inside (by simp [Delivers]) (by decide)

/-- Three bytes without a newline are stored in an array of three bytes, and a zero behind it. -/
theorem full_line_overflows : ¬ ∀ rp : Rio, Delivers rp.reads → ∀ maxlen, 1 ≤ maxlen →
    (readlineStores rp maxlen).length ≤ maxlen := by
  intro h
  exact absurd (h ⟨[], [some [97, 98, 99]]⟩ (by simp [Delivers]) 3 (by decide)) (by decide)

end Readline

/-- `strcmp(buf, "\r\n") == 0`. -/
def isBlankLine (buf : Bytes) : Bool := buf.takeWhile (· ≠ 0) = ascii "\r\n"

/-- The loop of `request_read_headers`; `none` when it goes on longer than `fuel` lines. -/
def readHeadersLoop : Nat → Bytes → Rio → Option (Except Fault Rio)
  | 0, _, _ => none
  | fuel + 1, buf, rp =>
    if isBlankLine buf then some (.ok rp)
    else
      match rioReadlineb rp buf MAXLINE with
      | .error fault => some (.error fault)
      | .ok (_, buf', rp') => readHeadersLoop fuel buf' rp'

/-- `request_read_headers`; `buf` is what its array holds at first. -/
def requestReadHeaders (fuel : Nat) (buf : Bytes) (rp : Rio) : Option (Except Fault Rio) :=
  match rioReadlineb rp buf MAXLINE with
  | .error fault => some (.error fault)
  | .ok (_, buf', rp') => readHeadersLoop fuel buf' rp'

/-- The headers are read up to the empty line, or what the client sent has ended. -/
def HeadersReturn (buf : Bytes) (rp : Rio) : Prop :=
  ∃ fuel rp', requestReadHeaders fuel buf rp = some (.ok rp') ∧ rp'.stream <:+ rp.stream

/-- An empty line comes, and the lines before it fit into the array. -/
def BlankLineAhead (ls : List Bytes) : Prop :=
  ∃ pre post, ls = pre ++ ascii "\r\n" :: post ∧ ∀ l ∈ pre, l.length < MAXLINE

section Headers

variable {s l : Bytes} {ls : List Bytes}

/-- A newline ends its line. -/
theorem newline_last {a b : Bytes} (h : l ∈ lines s) (hl : l = a ++ 10 :: b) : b = [] := by
  induction s generalizing l a with
  | nil => cases h
  | cons c s ih =>
    rw [lines] at h
    split_ifs at h with hc
    · rcases List.mem_cons.1 h with rfl | h
      · cases a with
        | nil => exact (List.cons.inj hl).2.symm
        | cons x a => simp at hl
      · exact ih h hl
    · cases hs : lines s with
      | nil =>
        rw [hs] at h
        obtain rfl : l = [c] := by simpa using h
        cases a with
        | nil => exact absurd (List.cons.inj hl).1 hc
        | cons x a => simp at hl
      | cons l' ls =>
        rw [hs] at h ih
        rcases List.mem_cons.1 h with rfl | h
        · cases a with
          | nil => exact absurd (List.cons.inj hl).1 hc
          | cons x a => exact ih List.mem_cons_self (List.cons.inj hl).2
        · exact ih (List.mem_cons_of_mem _ h) hl

/-- `strcmp` recognizes the empty line, also when a line holds zeros. -/
theorem isBlankLine_iff (h : l ∈ lines s) : isBlankLine l = true ↔ l = ascii "\r\n" := by
  have hcrlf : ascii "\r\n" = [13, 10] := by decide
  rw [isBlankLine, decide_eq_true_eq, hcrlf]
  constructor
  · intro htake
    have hsplit := List.takeWhile_append_dropWhile (p := fun c : UInt8 => decide (c ≠ 0)) (l := l)
    rw [htake] at hsplit
    have hrest : l.dropWhile (fun c => decide (c ≠ 0)) = [] :=
      newline_last (a := [13]) h hsplit.symm
    rw [← hsplit, hrest]
    rfl
  · rintro rfl
    decide

theorem blankLineAhead_cons (hshort : l.length < MAXLINE) :
    BlankLineAhead (l :: ls) ↔ l = ascii "\r\n" ∨ BlankLineAhead ls := by
  constructor
  · rintro ⟨pre, post, h, hpre⟩
    cases pre with
    | nil => exact .inl (List.cons.inj h).1
    | cons x pre =>
      exact .inr ⟨pre, post, (List.cons.inj h).2, fun y hy => hpre y (List.mem_cons_of_mem _ hy)⟩
  · rintro (rfl | ⟨pre, post, rfl, hpre⟩)
    · exact ⟨[], ls, rfl, by simp⟩
    · refine ⟨l :: pre, post, rfl, fun y hy => ?_⟩
      rcases List.mem_cons.1 hy with rfl | hy
      · exact hshort
      · exact hpre y hy

theorem not_blankLineAhead_nil : ¬ BlankLineAhead [] := by
  rintro ⟨pre, post, h, -⟩
  simp at h

/-- A line that does not fit comes before every empty line. -/
theorem not_blankLineAhead_long (hlong : ¬ l.length < MAXLINE) : ¬ BlankLineAhead (l :: ls) := by
  rintro ⟨pre, post, h, hpre⟩
  cases pre with
  | nil =>
    rw [(List.cons.inj h).1] at hlong
    exact hlong (by decide)
  | cons x pre => exact hlong ((List.cons.inj h).1 ▸ hpre x List.mem_cons_self)

/-- At the end of the stream the array stays as it is. -/
theorem readHeadersLoop_end (hrp : rp.Yields []) (hbuf : isBlankLine buf = false) (fuel : Nat) :
    readHeadersLoop fuel buf rp = none := by
  induction fuel generalizing rp with
  | zero => rfl
  | succ fuel ih =>
    obtain ⟨rp', hread, hrp'⟩ := rioReadlineb_nil buf hrp
    have hread : rioReadlineb rp buf MAXLINE = .ok (0, buf, rp') := hread
    rw [readHeadersLoop, hbuf, if_neg (by decide), hread]
    exact ih hrp'

/-- The loop returns when the array holds the empty line, or comes to hold it. -/
theorem readHeadersLoop_iff (hrp : rp.Yields ls) (buf : Bytes) :
    (∃ fuel rp', readHeadersLoop fuel buf rp = some (.ok rp')) ↔
      isBlankLine buf = true ∨ BlankLineAhead ls := by
  induction ls generalizing rp buf with
  | nil =>
    constructor
    · rintro ⟨fuel, rp', h⟩
      by_contra hno
      rw [not_or] at hno
      rw [readHeadersLoop_end hrp (by simpa using hno.1)] at h
      cases h
    · rintro (h | ⟨pre, post, h, -⟩)
      · exact ⟨1, rp, by rw [readHeadersLoop, if_pos h]⟩
      · exact absurd h (by simp)
  | cons l ls ih =>
    by_cases hbuf : isBlankLine buf = true
    · exact iff_of_true ⟨1, rp, by rw [readHeadersLoop, if_pos hbuf]⟩ (.inl hbuf)
    have hmem : l ∈ lines rp.stream := by rw [hrp.lines_eq]; exact List.mem_cons_self
    have hstep : ∀ fuel r, readHeadersLoop fuel buf rp = some (.ok r) →
        ∃ fuel', fuel = fuel' + 1 := by
      intro fuel r h
      cases fuel with
      | zero => cases h
      | succ fuel => exact ⟨fuel, rfl⟩
    by_cases hshort : l.length < MAXLINE
    · obtain ⟨rp', hread, hrp'⟩ := rioReadlineb_cons buf hrp hshort
      have hread : rioReadlineb rp buf MAXLINE = .ok (l.length, l, rp') := hread
      have hloop : ∀ fuel, readHeadersLoop (fuel + 1) buf rp = readHeadersLoop fuel l rp' := by
        intro fuel
        rw [readHeadersLoop, if_neg hbuf, hread]
      rw [blankLineAhead_cons hshort, ← isBlankLine_iff hmem, ← ih hrp' l]
      constructor
      · rintro ⟨fuel, r, h⟩
        obtain ⟨fuel', rfl⟩ := hstep fuel r h
        exact .inr ⟨fuel', r, by rw [← hloop, h]⟩
      · rintro (h | ⟨fuel, r, h⟩)
        · exact absurd h hbuf
        · exact ⟨fuel + 1, r, by rw [hloop, h]⟩
    · have hread : rioReadlineb rp buf MAXLINE = .error .bufferOverflow :=
        rioReadlineb_overflow buf hrp (Nat.le_of_not_lt hshort)
      apply iff_of_false
      · rintro ⟨fuel, r, h⟩
        obtain ⟨fuel', rfl⟩ := hstep fuel r h
        rw [readHeadersLoop, if_neg hbuf, hread] at h
        cases h
      · exact fun h => h.elim hbuf (not_blankLineAhead_long hshort)

/-- Reading a line takes bytes off the front of the stream. -/
theorem readlineLoop_suffix (h : Delivers rp.reads) (k : Nat) :
    (readlineLoop rp k).2.stream <:+ rp.stream ∧ Delivers (readlineLoop rp k).2.reads := by
  induction k generalizing rp with
  | zero => exact ⟨List.suffix_refl _, h⟩
  | succ k ih =>
    obtain ⟨rp', read, stream, stream', delivers⟩ | ⟨c, rp', read, stream, delivers⟩ :=
      rioReadb_one h
    · rw [readlineLoop, read, stream]
      exact ⟨by rw [stream'], delivers⟩
    · obtain ⟨suffix, delivers'⟩ := ih delivers
      rw [readlineLoop, read, stream]
      dsimp only
      split_ifs
      · exact ⟨List.suffix_cons c _, delivers⟩
      · exact ⟨suffix.trans (List.suffix_cons c _), delivers'⟩

theorem rioReadlineb_suffix (h : Delivers rp.reads) {n : Nat} {buf' : Bytes}
    (hr : rioReadlineb rp buf maxlen = .ok (n, buf', rp')) :
    rp'.stream <:+ rp.stream ∧ Delivers rp'.reads := by
  have hsuffix := readlineLoop_suffix h maxlen
  rw [rioReadlineb] at hr
  dsimp only at hr
  split_ifs at hr <;>
  · cases hr
    exact hsuffix

theorem readHeadersLoop_suffix (h : Delivers rp.reads)
    (hr : readHeadersLoop fuel buf rp = some (.ok rp')) : rp'.stream <:+ rp.stream := by
  induction fuel generalizing rp buf with
  | zero => cases hr
  | succ fuel ih =>
    rw [readHeadersLoop] at hr
    split_ifs at hr
    · cases hr
      exact List.suffix_refl _
    · cases hread : rioReadlineb rp buf MAXLINE with
      | error fault =>
        rw [hread] at hr
        cases hr
      | ok r =>
        obtain ⟨n, buf', rp₁⟩ := r
        rw [hread] at hr
        obtain ⟨suffix, delivers⟩ := rioReadlineb_suffix h hread
        exact (ih delivers hr).trans suffix

/-- The first line is read before the array is looked at. -/
theorem requestReadHeaders_iff (hrp : rp.Yields ls) (buf : Bytes) :
    (∃ fuel rp', requestReadHeaders fuel buf rp = some (.ok rp')) ↔
      BlankLineAhead ls ∨ ls = [] ∧ isBlankLine buf = true := by
  cases ls with
  | nil =>
    obtain ⟨rp', hread, hrp'⟩ := rioReadlineb_nil buf hrp
    have hread : rioReadlineb rp buf MAXLINE = .ok (0, buf, rp') := hread
    have hloop : ∀ fuel, requestReadHeaders fuel buf rp = readHeadersLoop fuel buf rp' := by
      intro fuel
      rw [requestReadHeaders, hread]
    simp only [hloop]
    rw [readHeadersLoop_iff hrp' buf]
    simp [not_blankLineAhead_nil]
  | cons l ls =>
    have hmem : l ∈ lines rp.stream := by rw [hrp.lines_eq]; exact List.mem_cons_self
    have hnil : ¬ (l :: ls = [] ∧ isBlankLine buf = true) := fun h => by cases h.1
    by_cases hshort : l.length < MAXLINE
    · obtain ⟨rp', hread, hrp'⟩ := rioReadlineb_cons buf hrp hshort
      have hread : rioReadlineb rp buf MAXLINE = .ok (l.length, l, rp') := hread
      have hloop : ∀ fuel, requestReadHeaders fuel buf rp = readHeadersLoop fuel l rp' := by
        intro fuel
        rw [requestReadHeaders, hread]
      simp only [hloop]
      rw [readHeadersLoop_iff hrp' l, isBlankLine_iff hmem, ← blankLineAhead_cons hshort]
      exact ⟨.inl, fun h => h.resolve_right hnil⟩
    · have hread : rioReadlineb rp buf MAXLINE = .error .bufferOverflow :=
        rioReadlineb_overflow buf hrp (Nat.le_of_not_lt hshort)
      refine iff_of_false ?_ fun h => h.elim (not_blankLineAhead_long hshort) hnil
      rintro ⟨fuel, r, h⟩
      rw [requestReadHeaders, hread] at h
      cases h

/-- The headers are read exactly when the empty line comes after lines that fit into the array, or
nothing comes at all and the array holds the empty line by chance. -/
theorem headers_return (h : Delivers rp.reads) (buf : Bytes) :
    HeadersReturn buf rp ↔ BlankLineAhead (lines rp.stream) ∨
      lines rp.stream = [] ∧ isBlankLine buf = true := by
  rw [← requestReadHeaders_iff ⟨h, rfl⟩ buf, HeadersReturn]
  constructor
  · rintro ⟨fuel, rp', hr, -⟩
    exact ⟨fuel, rp', hr⟩
  · rintro ⟨fuel, rp', hr⟩
    refine ⟨fuel, rp', hr, ?_⟩
    rw [requestReadHeaders] at hr
    cases hread : rioReadlineb rp buf MAXLINE with
    | error fault =>
      rw [hread] at hr
      cases hr
    | ok r =>
      obtain ⟨n, buf', rp₁⟩ := r
      rw [hread] at hr
      obtain ⟨suffix, delivers⟩ := rioReadlineb_suffix h hread
      exact (readHeadersLoop_suffix delivers hr).trans suffix

/-- One header and the empty line. -/
theorem headers_return_one :
    HeadersReturn [] ⟨[], [some [97, 10, 13, 10]]⟩ ↔
      BlankLineAhead (lines (Rio.stream ⟨[], [some [97, 10, 13, 10]]⟩)) ∨
        lines (Rio.stream ⟨[], [some [97, 10, 13, 10]]⟩) = [] ∧ isBlankLine [] = true :=
  headers_return (by simp [Delivers]) []

/-- The client closes its side behind the request line. -/
theorem headers_never_return : ¬ ∀ rp : Rio, Delivers rp.reads → ∀ buf, HeadersReturn buf rp := by
  intro h
  have hreturn := h ⟨[], []⟩ (by simp [Delivers]) []
  rw [headers_return (by simp [Delivers])] at hreturn
  rcases hreturn with ⟨pre, post, heq, -⟩ | ⟨-, hblank⟩
  · have hnil : lines (Rio.stream ⟨[], []⟩) = [] := rfl
    rw [hnil] at heq
    simp at heq
  · exact absurd hblank (by decide)

end Headers

end Ece344Lab.Webserver
