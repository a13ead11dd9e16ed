import Ece344Lab.Library.Runs
import Ece344Lab.Webserver.ErrorPages
import Ece344Lab.Webserver.Headers
import Ece344Lab.Webserver.Memory
import Ece344Lab.Webserver.Transparency

/-!
# One response for each connection

`do_server_request` with its whole connection: the request line and the headers that
`request_init` reads, what is written and when the connection is closed. Every state that earlier
connections lead to is covered.
-/
namespace Ece344Lab.Webserver

open Library (System)
open Library.System (Run)
open Library.Program (except_ok_bind)

/-- What the server does to a connection. -/
inductive ConnStep where
  | write (chunk : Chunk)
  | close

/-- An accepted connection: what the client sends, and what the arrays `buf`, `method` and `uri` of
`request_init` and `buf` of `request_read_headers` hold at first. -/
structure Incoming where
  rp : Rio
  buf : Bytes
  method : Bytes
  uri : Bytes
  headers : Bytes

/-- `request_init`: `none` when the headers go on longer than `fuel` lines, no request when it has
destroyed it. -/
def requestInit (fuel : Nat) (c : Incoming) :
    Option (Except Fault (List ConnStep × Option Request)) :=
  match rioReadlineb c.rp c.buf MAXLINE with
  | .error fault => some (.error fault)
  | .ok (_, buf, rp) =>
    let rq := scanRequestLine buf c.method c.uri
    if !strcaseeq rq.method (ascii "GET") then
      match requestError rq.method (ascii "501") (ascii "Not Implemented")
        (ascii "OS Web Server does not implement this method") with
      | .error fault => some (.error fault)
      | .ok page => some (.ok (page.map .write ++ [.close], none))
    else
      match requestReadHeaders fuel c.headers rp with
      | none => none
      | some (.error fault) => some (.error fault)
      | some (.ok _) => some (.ok ([], some rq))

/-- `do_server_request` from `request_init` to `request_destroy`. -/
def serveConnection (fuel : Nat) (os : Os) (max_cache_size : Int) (s : ServerState)
    (c : Incoming) : Option (Except Fault (ServerState × List ConnStep)) :=
  match requestInit fuel c with
  | none => none
  | some (.error fault) => some (.error fault)
  | some (.ok (steps, none)) => some (.ok (s, steps))
  | some (.ok (steps, some rq)) =>
    match doServerRequest os max_cache_size s rq with
    | .error fault => some (.error fault)
    | .ok (s', out) => some (.ok (s', steps ++ out.map .write ++ [.close]))

/-- The server from `server_init` on. The files of the system may change between connections. -/
def serverSystem (max_cache_size : Int) : System ServerState (Os × Incoming) where
  start s := ∃ files, s = ⟨files, 0, cacheInit max_cache_size⟩
  step s e s' := ∃ fuel steps,
    serveConnection fuel e.1 max_cache_size s e.2 = some (.ok (s', steps))

section Format

/-- A status line. -/
def statusLine (code reason : Bytes) : Bytes :=
  ascii "HTTP/1.0 " ++ code ++ ascii " " ++ reason ++ ascii "\r\n"

/-- A header line that gives the length of the body. -/
def isLengthLine (l : Bytes) : Bool := ascii "Content-Length:" <+: l

/-- One response: the status line, header lines of which just one gives a length, the empty line
and a body of this length. -/
def IsResponse (status out : Bytes) : Prop :=
  ∃ headers body, out = (status :: headers).flatten ++ ascii "\r\n" ++ body ∧
    (∀ l ∈ status :: headers, IsLine l ∧ l ≠ ascii "\r\n") ∧
    headers.filter isLengthLine =
      [ascii "Content-Length: " ++ decimal body.length ++ ascii "\r\n"]

/-- One response with a status of the 400s or 500s. -/
def IsErrorResponse (out : Bytes) : Prop :=
  ∃ d e f reason, (d = 52 ∨ d = 53) ∧ IsResponse (statusLine [d, e, f] reason) out

/-- The response that the request should get. -/
structure Expected (os : Os) (rq : Request) (out : Bytes) : Prop where
  error : errorCall os rq ≠ none → IsErrorResponse out
  ok : errorCall os rq = none → IsResponse (statusLine (ascii "200") (ascii "OK")) out

/-- One response is written, then the connection is closed, once. -/
def AnsweredOnce (os : Os) (rq : Request) (steps : List ConnStep) : Prop :=
  ∃ out : List Chunk, steps = out.map ConnStep.write ++ [.close] ∧
    Expected os rq (out.flatMap Chunk.bytes)

variable {status out rest body : Bytes} {headers : List Bytes} {site : Site} {cause name : Bytes}

theorem isLine_blank : IsLine (ascii "\r\n") := ⟨[13], by decide, by decide⟩

/-- The lines of a text that begins with lines of which only the last is empty. -/
theorem lines_headers (h : ∀ l ∈ headers, IsLine l ∧ l ≠ ascii "\r\n") :
    lines (headers.flatten ++ ascii "\r\n" ++ rest) = headers ++ ascii "\r\n" :: lines rest := by
  have all : ∀ l ∈ headers ++ [ascii "\r\n"], IsLine l := by
    intro l hl
    obtain hl | hl := List.mem_append.1 hl
    · exact (h l hl).1
    · exact List.mem_singleton.1 hl ▸ isLine_blank
  have split := lines_flatten_append all rest
  rw [List.flatten_append, List.flatten_singleton] at split
  rw [split, List.append_assoc, List.singleton_append]

/-- A list splits at its first `a` in one way. -/
theorem split_blank {α : Type} {a : α} {xs ys us vs : List α} (hx : a ∉ xs) (hy : a ∉ ys)
    (h : xs ++ a :: us = ys ++ a :: vs) : xs = ys ∧ us = vs := by
  induction xs generalizing ys with
  | nil =>
    cases ys with
    | nil => exact ⟨rfl, (List.cons.inj h).2⟩
    | cons y ys => exact absurd ((List.cons.inj h).1 ▸ List.mem_cons_self) hy
  | cons x xs ih =>
    cases ys with
    | nil => exact absurd ((List.cons.inj h).1 ▸ List.mem_cons_self) hx
    | cons y ys =>
      obtain ⟨rfl, tails⟩ := List.cons.inj h
      rw [List.mem_cons, not_or] at hx hy
      obtain ⟨rfl, rest⟩ := ih hx.2 hy.2 tails
      exact ⟨rfl, rest⟩

/-- Status line, header lines and body can be told apart. -/
theorem IsResponse.unique {l : Bytes} {ls : List Bytes} (h : IsResponse status out)
    (eq : out = (l :: ls).flatten ++ ascii "\r\n" ++ rest)
    (hls : ∀ m ∈ l :: ls, IsLine m ∧ m ≠ ascii "\r\n") :
    status = l ∧ ls.filter isLengthLine =
      [ascii "Content-Length: " ++ decimal rest.length ++ ascii "\r\n"] := by
  obtain ⟨headers, body, rfl, hlines, length⟩ := h
  have split := congrArg lines eq
  rw [lines_headers hlines, lines_headers hls] at split
  have absent : ascii "\r\n" ∉ status :: headers := fun hm => (hlines _ hm).2 rfl
  have absent' : ascii "\r\n" ∉ l :: ls := fun hm => (hls _ hm).2 rfl
  obtain ⟨heads, bodies⟩ := split_blank absent' absent split.symm
  obtain ⟨rfl, rfl⟩ := List.cons.inj heads.symm
  have same : body = rest := by
    rw [← flatten_lines body, ← bodies, flatten_lines]
  exact ⟨rfl, same ▸ length⟩

theorem decimal_injective : Function.Injective decimal := fun m n h => by
  rw [← digitsValue_decimal m, h, digitsValue_decimal]

/-- A response followed by more is not one response. -/
theorem IsResponse.not_append {status' : Bytes} (h : IsResponse status out) (ne : rest ≠ []) :
    ¬ IsResponse status' (out ++ rest) := by
  intro both
  obtain ⟨headers, body, rfl, hlines, length⟩ := h
  have length' := (both.unique (by rw [List.append_assoc]) hlines).2
  rw [length] at length'
  have line := List.append_cancel_right (List.cons.inj length').1
  have equal := List.append_cancel_left line
  have := decimal_injective equal
  rw [List.length_append] at this
  exact ne (List.length_eq_zero_iff.1 (by omega))

/-- A response has one status. -/
theorem IsResponse.status_eq {status' : Bytes} (h : IsResponse status out)
    (h' : IsResponse status' out) : status = status' := by
  obtain ⟨headers, body, eq, hlines, -⟩ := h'
  exact (h.unique eq hlines).1

theorem IsErrorResponse.not_ok (h : IsErrorResponse out) :
    ¬ IsResponse (statusLine (ascii "200") (ascii "OK")) out := by
  intro ok
  obtain ⟨d, e, f, reason, hd, error⟩ := h
  have eq := congrArg (fun l : Bytes => l[9]?) (error.status_eq ok)
  have left : (statusLine [d, e, f] reason)[9]? = some d := rfl
  have right : (statusLine (ascii "200") (ascii "OK"))[9]? = some 50 := rfl
  rw [left, right, Option.some.injEq] at eq
  subst eq
  exact absurd hd (by decide)

/-- A line that ends with the two bytes of `\r\n` is not empty when it has more. -/
theorem isLine_crlf {t : Bytes} (ne : t ≠ []) (h : 10 ∉ t) :
    IsLine (t ++ ascii "\r\n") ∧ t ++ ascii "\r\n" ≠ ascii "\r\n" := by
  have crlf : ascii "\r\n" = [13] ++ [10] := by decide
  refine ⟨⟨t ++ [13], by rw [crlf, List.append_assoc], ?_⟩, fun heq => ne ?_⟩
  · rw [List.mem_append, List.mem_singleton, not_or]
    exact ⟨h, by decide⟩
  · simpa using heq

theorem newline_notMem_decimal (n : Nat) : 10 ∉ decimal n := fun h =>
  absurd (isDigit_of_mem_decimal h) (by decide)

/-- The ninth byte tells the length from the other lines. -/
theorem not_length_line {l : Bytes} (h : l[8]? ≠ some 76) : isLengthLine l = false := by
  rw [isLengthLine, decide_eq_false_iff_not]
  rintro ⟨t, rfl⟩
  exact h rfl

theorem length_line (n : Nat) :
    isLengthLine (ascii "Content-Length: " ++ decimal n ++ ascii "\r\n") = true := by
  rw [isLengthLine, decide_eq_true_eq]
  exact ⟨[32] ++ decimal n ++ ascii "\r\n", rfl⟩

theorem sum_line (n : Nat) :
    isLengthLine (ascii "Content-Csum: " ++ decimal n ++ ascii "\r\n") = false :=
  not_length_line (by simp [ascii])

/-- What `request_error` writes is one response. -/
theorem requestError_response {page : List Chunk}
    (h : requestError cause site.errnum site.shortmsg site.longmsg = .ok page) :
    IsErrorResponse (page.flatMap Chunk.bytes) := by
  have shape : IsResponse (statusLine site.errnum site.shortmsg) (page.flatMap Chunk.bytes) := by
    rw [requestError, ← Site.page] at h
    split_ifs at h
    cases h
    refine ⟨[ascii "Content-Type: text/html\r\n",
      ascii "Content-Length: " ++ decimal (site.page cause).length ++ ascii "\r\n",
      ascii "Content-Csum: " ++ decimal (csum (site.page cause)) ++ ascii "\r\n"],
      site.page cause, ?_, ?_, ?_⟩
    · have blank : ascii "\r\n\r\n" = ascii "\r\n" ++ ascii "\r\n" := by decide
      simp [Chunk.bytes, statusLine, blank]
    · have texts : 10 ∉ ascii "HTTP/1.0 " ++ site.errnum ++ ascii " " ++ site.shortmsg := by
        cases site <;> decide
      simp only [List.forall_mem_cons, List.not_mem_nil, false_imp_iff, implies_true, and_true]
      refine ⟨isLine_crlf ?_ texts, isLine_crlf (t := ascii "Content-Type: text/html") (by decide)
        (by decide), isLine_crlf ?_ ?_, isLine_crlf ?_ ?_⟩
      · simp [ascii]
      · simp [ascii]
      · rw [List.mem_append, not_or]
        exact ⟨by decide, newline_notMem_decimal _⟩
      · simp [ascii]
      · rw [List.mem_append, not_or]
        exact ⟨by decide, newline_notMem_decimal _⟩
    · have type : isLengthLine (ascii "Content-Type: text/html\r\n") = false :=
        not_length_line (by decide)
      simp only [List.filter_cons, type, length_line, sum_line, List.filter_nil, if_true,
        Bool.false_eq_true, if_false]
  cases site
  case method => exact ⟨53, 48, 49, _, .inr rfl, shape⟩
  case unreadable => exact ⟨52, 48, 51, _, .inl rfl, shape⟩
  all_goals exact ⟨52, 48, 52, _, .inl rfl, shape⟩

/-- What `request_sendfile` writes is one response. -/
theorem requestSendfile_response {data : FileData} (whole : Whole data) :
    IsResponse (statusLine (ascii "200") (ascii "OK"))
      ((requestSendfile data).flatMap Chunk.bytes) := by
  obtain ⟨name, content, size⟩ := data
  obtain rfl : size = content.length := whole
  have type : ∃ t, ascii "Content-Type: " ++ requestGetFileType name = 67 :: t ∧ 10 ∉ t ∧
      ∀ s : Bytes, (ascii "Content-Type: " ++ requestGetFileType name ++ s)[8]? ≠ some 76 := by
    obtain h | h | h | h := requestGetFileType_cases name
    all_goals
      rw [h]
      exact ⟨_, rfl, by decide, fun s => by simp [ascii]⟩
  obtain ⟨t, ht, newline, ninth⟩ := type
  refine ⟨[ascii "Server: OS Web Server\r\n",
    ascii "Content-Type: " ++ requestGetFileType name ++ ascii "\r\n",
    ascii "Content-Length: " ++ decimal content.length ++ ascii "\r\n",
    ascii "Content-Csum: " ++ decimal (csum content) ++ ascii "\r\n"], content, ?_, ?_, ?_⟩
  · show (requestSendfile (fileData name content)).flatMap Chunk.bytes = _
    rw [response_eq]
    have status : statusLine (ascii "200") (ascii "OK") = ascii "HTTP/1.0 200 OK\r\n" := by decide
    have crlf : ascii "\r\n" = [13, 10] := by decide
    have length : ascii "Content-Length: " = ascii "Content-Length:" ++ [32] := by decide
    have sum : ascii "Content-Csum: " = ascii "Content-Csum:" ++ [32] := by decide
    simp [headerLines, status, length, sum, crlf]
  · simp only [List.forall_mem_cons, List.not_mem_nil, false_imp_iff, implies_true, and_true]
    refine ⟨isLine_crlf (t := ascii "HTTP/1.0 200 OK") (by decide) (by decide),
      isLine_crlf (t := ascii "Server: OS Web Server") (by decide) (by decide),
      isLine_crlf ?_ ?_, isLine_crlf ?_ ?_, isLine_crlf ?_ ?_⟩
    · rw [ht]
      exact List.cons_ne_nil _ _
    · rw [ht, List.mem_cons, not_or]
      exact ⟨by decide, newline⟩
    · simp [ascii]
    · rw [List.mem_append, not_or]
      exact ⟨by decide, newline_notMem_decimal _⟩
    · simp [ascii]
    · rw [List.mem_append, not_or]
      exact ⟨by decide, newline_notMem_decimal _⟩
  · have server : isLengthLine (ascii "Server: OS Web Server\r\n") = false :=
      not_length_line (by decide)
    have type := not_length_line (ninth (ascii "\r\n"))
    simp only [List.filter_cons, server, type, length_line, sum_line, List.filter_nil, if_true,
      Bool.false_eq_true, if_false]

end Format

/-- The size that `request_readfile` finds. -/
def fileSize (os : Os) (name : Bytes) : Int :=
  match os name with
  | none => 0
  | some stat => wrap stat.content.length

/-- The file is empty, or it can be opened and its size is not negative as an `int`. -/
def Readable (os : Os) (name : Bytes) : Prop :=
  fileSize os name = 0 ∨ 0 < fileSize os name ∧ ∀ stat, os name = some stat → stat.openable = true

/-- The cache is used and holds the name. -/
def CacheHit (max_cache_size : Int) (s : ServerState) (name : Bytes) : Prop :=
  0 < max_cache_size ∧ Cached s.files s.ht name

/-- The name is served: it is not refused, and it is cached, or the file can be read and inserted
into a usable bucket. -/
structure GetAnswered (os : Os) (max_cache_size : Int) (s : ServerState) (name : Bytes) : Prop where
  served : refusalSite os name = none
  found : CacheHit max_cache_size s name ∨ Readable os name ∧
    (0 < max_cache_size → Usable (s.ht.table (hash name)) ∧
      Insertable s.files s.ht (fileSize os name) (hash name))

section Request

variable {os : Os} {max_cache_size : Int} {s s' : ServerState} {rq : Request} {data' : FileData}
  {page out : List Chunk} {ht' : Hashtable} {fault : Fault} {p : Nat}

theorem refusal_none (name : Bytes) : refusal os name = none ↔ refusalSite os name = none := by
  rw [refusal_site, Option.map_eq_none_iff]

theorem requestReadfile_refused {site : Site}
    (h : refusalSite os (requestData rq).file_name = some site) :
    (∃ page, requestReadfile os (requestData rq) = .ok (requestData rq, page) ∧
      IsErrorResponse (page.flatMap Chunk.bytes)) ∨
    ∃ fault, requestReadfile os (requestData rq) = .error fault := by
  have texts : refusal os (requestData rq).file_name =
      some (site.errnum, site.shortmsg, site.longmsg) := by rw [refusal_site, h]; rfl
  rw [requestReadfile, texts]
  dsimp only
  cases hr : requestError (requestData rq).file_name site.errnum site.shortmsg site.longmsg with
  | error fault => exact .inr ⟨fault, rfl⟩
  | ok page => exact .inl ⟨page, rfl, requestError_response hr⟩

theorem requestReadfile_served (h : refusalSite os (requestData rq).file_name = none) :
    (Readable os (requestData rq).file_name → ∃ data',
      requestReadfile os (requestData rq) = .ok (data', []) ∧
        data'.file_size = fileSize os (requestData rq).file_name) ∧
    (¬ Readable os (requestData rq).file_name →
      requestReadfile os (requestData rq) = .error .exit) := by
  obtain ⟨stat, hstat, run⟩ := refusal_eq_none ((refusal_none _).2 h)
  have size : fileSize os (requestData rq).file_name = wrap stat.content.length := by
    rw [fileSize, hstat]
  rw [run, Readable, size, readContent, hstat]
  simp only [Option.some.injEq, forall_eq']
  split_ifs with zero fails
  · exact ⟨fun _ => ⟨_, rfl, rfl⟩, fun no => absurd (.inl zero) no⟩
  · refine ⟨fun can => ?_, fun _ => rfl⟩
    obtain can | ⟨pos, opens⟩ := can
    · exact absurd can zero
    · simp [opens] at fails
      omega
  · refine ⟨fun _ => ⟨_, rfl, rfl⟩, fun no => absurd (.inr ?_) no⟩
    simp only [Bool.or_eq_true, Bool.not_eq_true', decide_eq_true_eq, not_or,
      Bool.not_eq_false] at fails
    exact ⟨by omega, fails.1⟩

/-- What is read holds as many bytes as its size says. -/
theorem requestReadfile_whole (h : requestReadfile os (requestData rq) = .ok (data', page)) :
    data'.file_name = (requestData rq).file_name ∧ Whole data' := by
  obtain ⟨name, -, same⟩ := requestReadfile_ok h
  refine ⟨name, ?_⟩
  cases hr : refusal os (requestData rq).file_name with
  | some texts =>
    rw [same (by rw [hr]; exact nofun)]
    rfl
  | none =>
    obtain ⟨stat, -, run⟩ := refusal_eq_none hr
    rw [run] at h
    cases hc : readContent stat (requestData rq) with
    | error _ => rw [hc] at h; cases h
    | ok d =>
      rw [hc] at h
      cases h
      obtain ⟨-, size, nonneg, content⟩ := readContent_ok hc
      by_cases zero : data'.file_size = 0
      · rw [readContent, if_pos (size ▸ zero)] at hc
        cases hc
        exact zero
      · have le : data'.file_size ≤ stat.content.length := by
          rw [size, wrap] at nonneg ⊢
          omega
        rw [Whole, content (by omega), List.length_take]
        omega

/-- The memory with the data of the request at the next address. -/
def ServerState.alloc (s : ServerState) (data : FileData) : Files :=
  Function.update s.files s.next data

theorem alloc_old (s : ServerState) (data : FileData) : ∀ p < s.next, s.alloc data p = s.files p :=
  fun _ hp => Function.update_of_ne (Nat.ne_of_lt hp) _ _

theorem serve_hit (get : strcaseeq rq.method (ascii "GET") = true) (hpos : 0 < max_cache_size)
    (look : cacheLookup (s.alloc (requestData rq)) s.ht (requestData rq).file_name 0 =
      .ok (some p, ht')) :
    doServerRequest os max_cache_size s rq =
      .ok (⟨s.alloc (requestData rq), s.next + 1, ht'⟩,
        requestSendfile (s.alloc (requestData rq) p)) := by
  rw [ServerState.alloc] at look ⊢
  rw [doServerRequest, get]
  simp only [Bool.not_true, Bool.false_eq_true, if_false, if_pos hpos, look, except_ok_bind]
  rfl

theorem serve_fault (get : strcaseeq rq.method (ascii "GET") = true) (hpos : 0 < max_cache_size)
    (look : cacheLookup (s.alloc (requestData rq)) s.ht (requestData rq).file_name 0 =
      .error fault) : doServerRequest os max_cache_size s rq = .error fault := by
  rw [ServerState.alloc] at look
  rw [doServerRequest, get]
  simp only [Bool.not_true, Bool.false_eq_true, if_false, if_pos hpos, look]
  rfl

/-- The second locked section, if there is a cache. -/
def insertStage (max_cache_size : Int) (s : ServerState) (data : FileData) :
    Except Fault Hashtable :=
  if 0 < max_cache_size then insertSection (s.alloc data) s.ht s.next else .ok s.ht

/-- What follows a lookup that finds nothing, or takes the place of it without a cache. -/
theorem serve_miss (get : strcaseeq rq.method (ascii "GET") = true)
    (look : 0 < max_cache_size → cacheLookup (s.alloc (requestData rq)) s.ht
      (requestData rq).file_name 0 = .ok (none, s.ht)) :
    doServerRequest os max_cache_size s rq = (do
      let (data', page) ← requestReadfile os (requestData rq)
      let ht' ← insertStage max_cache_size s data'
      return (⟨s.alloc data', s.next + 1, ht'⟩, page ++ requestSendfile data')) := by
  rw [doServerRequest, get]
  simp only [insertStage, ServerState.alloc] at look ⊢
  by_cases hpos : 0 < max_cache_size
  · simp only [Bool.not_true, Bool.false_eq_true, if_false, if_pos hpos, look hpos, except_ok_bind,
      Function.update_idem]
  · simp only [Bool.not_true, Bool.false_eq_true, if_false, if_neg hpos, Function.update_idem]
    rfl

theorem requestSendfile_ne_nil (data : FileData) :
    (requestSendfile data).flatMap Chunk.bytes ≠ [] := by
  rw [requestSendfile]
  split_ifs <;> simp [Chunk.bytes, responseHeader, ascii]

/-- A request for which `do_server_request` writes what it should. -/
def Answers (os : Os) (max_cache_size : Int) (s : ServerState) (rq : Request) : Prop :=
  ∃ s' out, doServerRequest os max_cache_size s rq = .ok (s', out) ∧
    Expected os rq (out.flatMap Chunk.bytes)

/-- A request that returns keeps the memory's invariant. -/
def KeepsMemory (os : Os) (max_cache_size : Int) (s : ServerState) (rq : Request) : Prop :=
  ∀ s' out, doServerRequest os max_cache_size s rq = .ok (s', out) →
    Kept s'.files s'.next s'.ht

theorem errorCall_get (get : strcaseeq rq.method (ascii "GET") = true) :
    errorCall os rq = none ↔ refusalSite os (requestData rq).file_name = none := by
  rw [errorCall, get]
  simp

theorem Kept.alloc (kept : Kept s.files s.next s.ht) (data : FileData) :
    Kept (s.alloc data) s.next s.ht := kept.mono (alloc_old s data) le_rfl

/-- A hit is answered with the cached data, whatever the system has under the name by now. -/
theorem answers_hit (kept : Kept s.files s.next s.ht)
    (get : strcaseeq rq.method (ascii "GET") = true)
    (hit : CacheHit max_cache_size s (requestData rq).file_name) :
    (Answers os max_cache_size s rq ↔ refusalSite os (requestData rq).file_name = none) ∧
      KeepsMemory os max_cache_size s rq := by
  have kept₁ := kept.alloc (requestData rq)
  have cached := (kept.cached_congr (alloc_old s (requestData rq))).2 hit.2
  obtain ⟨p, ht', look, kept', mem, -⟩ := kept₁.lookup_cached cached 0
  have run : doServerRequest os max_cache_size s rq = _ := serve_hit get hit.1 look
  have response := requestSendfile_response (kept₁.whole _ p (kept₁.accounted.bucket p mem))
  refine ⟨⟨?_, fun served => ?_⟩, ?_⟩
  · rintro ⟨s', out, run', expected⟩
    rw [run] at run'
    cases run'
    by_contra refused
    exact (expected.error (mt (errorCall_get get).1 refused)).not_ok response
  · refine ⟨_, _, run, fun no => absurd ((errorCall_get get).2 served) no, fun _ => response⟩
  · intro s' out run'
    rw [run] at run'
    cases run'
    exact kept'.mono (fun _ _ => rfl) (Nat.le_succ _)

/-- The bucket of the name begins with entries of other names and holds a freed one. -/
theorem answers_freed (hpos : 0 < max_cache_size) (kept : Kept s.files s.next s.ht)
    (get : strcaseeq rq.method (ascii "GET") = true)
    (missing : ¬ Cached s.files s.ht (requestData rq).file_name)
    (freed : ¬ Usable (s.ht.table (hash (requestData rq).file_name))) :
    ¬ Answers os max_cache_size s rq ∧ KeepsMemory os max_cache_size s rq := by
  have missing := mt (kept.cached_congr (alloc_old s (requestData rq))).1 missing
  have run : doServerRequest os max_cache_size s rq = _ :=
    serve_fault get hpos ((Kept.lookup_missing missing 0).2 freed)
  constructor
  · rintro ⟨s', out, run', -⟩
    rw [run] at run'
    cases run'
  · intro s' out run'
    rw [run] at run'
    cases run'

/-- The last part of a request that found nothing in the cache. -/
theorem insert_stage (kept : Kept s.files s.next s.ht) (whole : Whole data')
    (missing : 0 < max_cache_size → ¬ Cached s.files s.ht data'.file_name)
    (usable : 0 < max_cache_size → Usable (s.ht.table (hash data'.file_name))) :
    ((∃ ht', insertStage max_cache_size s data' = .ok ht') ↔ (0 < max_cache_size →
      Insertable s.files s.ht data'.file_size (hash data'.file_name))) ∧
    ∀ ht', insertStage max_cache_size s data' = .ok ht' →
      Kept (s.alloc data') (s.next + 1) ht' := by
  unfold insertStage
  have kept₁ := kept.alloc data'
  have here : s.alloc data' s.next = data' := Function.update_self _ _ _
  by_cases hpos : 0 < max_cache_size
  · have missing' := mt (kept.cached_congr (alloc_old s data')).1 (missing hpos)
    have insert := kept₁.insertSection (here.symm ▸ whole) (by rwa [here])
      (by rw [here]; exact usable hpos)
    rw [here, kept.insertable_congr (alloc_old s data')] at insert
    rw [if_pos hpos]
    exact ⟨insert.1.trans ⟨fun can _ => can, fun can => can hpos⟩, insert.2⟩
  · rw [if_neg hpos]
    refine ⟨iff_of_true ⟨s.ht, rfl⟩ fun h => absurd h hpos, ?_⟩
    rintro _ ⟨⟩
    exact kept₁.mono (fun _ _ => rfl) (Nat.le_succ _)

/-- A request that finds nothing in a usable bucket, or is handled without a cache. -/
theorem answers_miss (kept : Kept s.files s.next s.ht)
    (get : strcaseeq rq.method (ascii "GET") = true)
    (missing : 0 < max_cache_size → ¬ Cached s.files s.ht (requestData rq).file_name)
    (usable : 0 < max_cache_size → Usable (s.ht.table (hash (requestData rq).file_name))) :
    (Answers os max_cache_size s rq ↔ refusalSite os (requestData rq).file_name = none ∧
      Readable os (requestData rq).file_name ∧ (0 < max_cache_size →
        Insertable s.files s.ht (fileSize os (requestData rq).file_name)
          (hash (requestData rq).file_name))) ∧
      KeepsMemory os max_cache_size s rq := by
  have run : doServerRequest os max_cache_size s rq = _ := serve_miss get fun hpos =>
    (Kept.lookup_missing (mt (kept.cached_congr (alloc_old s (requestData rq))).1
      (missing hpos)) 0).1 (usable hpos)
  rw [Answers, KeepsMemory, run]
  cases hr : requestReadfile os (requestData rq) with
  | error fault =>
    refine ⟨iff_of_false ?_ ?_, nofun⟩
    · rintro ⟨s', out, run', -⟩
      cases run'
    · rintro ⟨served, readable, -⟩
      obtain ⟨data', read, -⟩ := (requestReadfile_served served).1 readable
      rw [hr] at read
      cases read
  | ok r =>
    obtain ⟨data', page⟩ := r
    obtain ⟨name, whole⟩ := requestReadfile_whole hr
    rw [except_ok_bind]
    dsimp only
    have insert := insert_stage kept whole (name ▸ missing) (name ▸ usable)
    generalize insertStage max_cache_size s data' = stage at insert
    constructor
    · cases site : refusalSite os (requestData rq).file_name with
      | some site =>
        refine iff_of_false ?_ (fun h => by cases h.1)
        rintro ⟨s', out, run', expected⟩
        cases stage with
        | error _ => cases run'
        | ok ht' =>
          cases run'
          obtain ⟨page', read, response⟩ | ⟨_, read⟩ := requestReadfile_refused site
          · rw [hr] at read
            obtain ⟨-, rfl⟩ := Prod.mk.inj (Except.ok.inj read)
            have two := expected.error (mt (errorCall_get get).1 (by rw [site]; exact nofun))
            obtain ⟨d, e, f, reason, -, response⟩ := response
            obtain ⟨d', e', f', reason', -, two⟩ := two
            rw [List.flatMap_append] at two
            exact response.not_append (requestSendfile_ne_nil data') two
          · rw [hr] at read
            cases read
      | none =>
        by_cases readable : Readable os (requestData rq).file_name
        · obtain ⟨data'', read, size⟩ := (requestReadfile_served site).1 readable
          rw [hr] at read
          obtain ⟨rfl, rfl⟩ := Prod.mk.inj (Except.ok.inj read)
          rw [← size, ← name, ← insert.1, name]
          constructor
          · rintro ⟨s', out, run', -⟩
            cases stage with
            | error _ => cases run'
            | ok ht' => exact ⟨rfl, readable, ht', rfl⟩
          · rintro ⟨-, -, ht', rfl⟩
            refine ⟨_, _, rfl, fun no => absurd ((errorCall_get get).2 site) no, fun _ => ?_⟩
            exact requestSendfile_response whole
        · rw [(requestReadfile_served site).2 readable] at hr
          cases hr
    · intro s' out run'
      cases stage with
      | error _ => cases run'
      | ok ht' =>
        cases run'
        exact insert.2 ht' rfl

/-- The request is answered as it should be exactly when its name is served. -/
theorem answers_get (kept : Kept s.files s.next s.ht)
    (get : strcaseeq rq.method (ascii "GET") = true) :
    (Answers os max_cache_size s rq ↔
      GetAnswered os max_cache_size s (requestData rq).file_name) ∧
      KeepsMemory os max_cache_size s rq := by
  by_cases hit : CacheHit max_cache_size s (requestData rq).file_name
  · obtain ⟨iff, keeps⟩ := answers_hit kept get hit
    exact ⟨iff.trans ⟨fun served => ⟨served, .inl hit⟩, GetAnswered.served⟩, keeps⟩
  have missing : 0 < max_cache_size → ¬ Cached s.files s.ht (requestData rq).file_name :=
    fun hpos cached => hit ⟨hpos, cached⟩
  by_cases usable : 0 < max_cache_size → Usable (s.ht.table (hash (requestData rq).file_name))
  · obtain ⟨iff, keeps⟩ := answers_miss kept get missing usable
    refine ⟨iff.trans ⟨?_, ?_⟩, keeps⟩
    · rintro ⟨served, readable, insertable⟩
      exact ⟨served, .inr ⟨readable, fun hpos => ⟨usable hpos, insertable hpos⟩⟩⟩
    · rintro ⟨served, found⟩
      obtain ⟨readable, insertable⟩ := found.resolve_left hit
      exact ⟨served, readable, fun hpos => (insertable hpos).2⟩
  · rw [Classical.not_imp] at usable
    obtain ⟨hpos, freed⟩ := usable
    obtain ⟨no, keeps⟩ := answers_freed hpos kept get (missing hpos) freed
    refine ⟨iff_of_false no fun answered => ?_, keeps⟩
    exact freed ((answered.found.resolve_left hit).2 hpos).1

end Request

/-- The request that `request_init` reads off the first line. -/
def Incoming.request (c : Incoming) : Request :=
  scanRequestLine (if lines c.rp.stream = [] then c.buf else nextLine c.rp.stream) c.method c.uri

/-- The headers end with an empty line in time. -/
def HeadersAhead (c : Incoming) : Prop :=
  BlankLineAhead (lines c.rp.stream).tail ∨
    (lines c.rp.stream).tail = [] ∧ isBlankLine c.headers = true

/-- The request line fits into its array, and so does the page for a method that is not
implemented; with `GET` the headers end and the name is served. -/
structure Answerable (os : Os) (max_cache_size : Int) (s : ServerState) (c : Incoming) : Prop where
  line : (nextLine c.rp.stream).length < MAXLINE
  method : strcaseeq c.request.method (ascii "GET") = false →
    c.request.method.length ≤ Site.method.room
  headers : strcaseeq c.request.method (ascii "GET") = true → HeadersAhead c
  name : strcaseeq c.request.method (ascii "GET") = true →
    GetAnswered os max_cache_size s (requestData c.request).file_name

section Connection

variable {os : Os} {max_cache_size : Int} {s s' : ServerState} {c : Incoming} {fuel : Nat}
  {steps : List ConnStep} {es : List (Os × Incoming)}

theorem readline_long (h : Delivers c.rp.reads) (long : ¬ (nextLine c.rp.stream).length < MAXLINE) :
    rioReadlineb c.rp c.buf MAXLINE = .error .bufferOverflow := by
  unfold nextLine at long
  cases hl : lines c.rp.stream with
  | nil =>
    rw [hl] at long
    exact absurd (by decide) long
  | cons l ls =>
    rw [hl] at long
    exact rioReadlineb_overflow c.buf ⟨h, hl⟩ (Nat.le_of_not_lt long)

theorem readline_short (h : Delivers c.rp.reads) (short : (nextLine c.rp.stream).length < MAXLINE) :
    ∃ n rp, rioReadlineb c.rp c.buf MAXLINE =
        .ok (n, if lines c.rp.stream = [] then c.buf else nextLine c.rp.stream, rp) ∧
      rp.Yields (lines c.rp.stream).tail := by
  unfold nextLine at short ⊢
  cases hl : lines c.rp.stream with
  | nil =>
    obtain ⟨rp, read, yields⟩ := rioReadlineb_nil c.buf ⟨h, hl⟩
    exact ⟨0, rp, read, yields⟩
  | cons l ls =>
    rw [hl] at short
    obtain ⟨rp, read, yields⟩ := rioReadlineb_cons c.buf ⟨h, hl⟩ short
    exact ⟨l.length, rp, read, yields⟩

theorem requestError_fault {cause errnum shortmsg longmsg : Bytes} {fault : Fault}
    (h : requestError cause errnum shortmsg longmsg = .error fault) : fault = .bufferOverflow := by
  rw [requestError] at h
  split_ifs at h
  cases h
  rfl

/-- What is sent for a method that is not implemented. -/
theorem requestInit_method (h : Delivers c.rp.reads)
    (short : (nextLine c.rp.stream).length < MAXLINE)
    (other : strcaseeq c.request.method (ascii "GET") = false) (fuel : Nat) :
    (c.request.method.length ≤ Site.method.room → ∃ page : List Chunk,
      requestInit fuel c = some (.ok (page.map .write ++ [.close], none)) ∧
        IsErrorResponse (page.flatMap Chunk.bytes)) ∧
    (¬ c.request.method.length ≤ Site.method.room →
      requestInit fuel c = some (.error .bufferOverflow)) := by
  obtain ⟨n, rp, read, -⟩ := readline_short h short
  have fits := requestError_site .method c.request.method
  rw [pageFits_iff] at fits
  unfold Incoming.request at other fits ⊢
  rw [requestInit, read]
  dsimp only
  rw [other]
  cases hr : requestError _ (ascii "501") (ascii "Not Implemented")
    (ascii "OS Web Server does not implement this method") with
  | error fault =>
    obtain rfl := requestError_fault hr
    exact ⟨fun le => absurd le (fits.1 hr), fun _ => rfl⟩
  | ok page =>
    have hr : requestError _ Site.method.errnum Site.method.shortmsg Site.method.longmsg =
      .ok page := hr
    refine ⟨fun _ => ⟨page, rfl, requestError_response hr⟩, fun no => ?_⟩
    have full := fits.2 no
    cases full.symm.trans hr

theorem requestInit_get (h : Delivers c.rp.reads)
    (short : (nextLine c.rp.stream).length < MAXLINE)
    (get : strcaseeq c.request.method (ascii "GET") = true) :
    ((∃ fuel, requestInit fuel c = some (.ok ([], some c.request))) ↔ HeadersAhead c) ∧
    ∀ fuel r, requestInit fuel c = some (.ok r) → r = ([], some c.request) := by
  obtain ⟨n, rp, read, yields⟩ := readline_short h short
  have init : ∀ fuel, requestInit fuel c =
      match requestReadHeaders fuel c.headers rp with
      | none => none
      | some (.error fault) => some (.error fault)
      | some (.ok _) => some (.ok ([], some c.request)) := by
    intro fuel
    unfold Incoming.request at get ⊢
    rw [requestInit, read]
    dsimp only
    rw [get]
    rfl
  rw [HeadersAhead, ← requestReadHeaders_iff yields c.headers]
  simp only [init]
  constructor
  · refine exists_congr fun fuel => ?_
    cases hr : requestReadHeaders fuel c.headers rp with
    | none => simp
    | some r => cases r <;> simp
  · intro fuel r
    cases hr : requestReadHeaders fuel c.headers rp with
    | none => exact nofun
    | some r' =>
      cases r' with
      | error fault => exact nofun
      | ok rp' =>
        rintro ⟨⟩
        rfl

/-- A request that is handed on has the method `GET`. -/
theorem requestInit_some {rq : Request} (h : requestInit fuel c = some (.ok (steps, some rq))) :
    strcaseeq rq.method (ascii "GET") = true := by
  unfold requestInit at h
  cases read : rioReadlineb c.rp c.buf MAXLINE with
  | error fault => rw [read] at h; cases h
  | ok r =>
    obtain ⟨n, buf, rp⟩ := r
    rw [read] at h
    dsimp only at h
    split at h
    · cases hr : requestError _ (ascii "501") (ascii "Not Implemented")
        (ascii "OS Web Server does not implement this method") with
      | error fault => rw [hr] at h; cases h
      | ok page => rw [hr] at h; cases h
    case isFalse get =>
      cases hr : requestReadHeaders fuel c.headers rp with
      | none => rw [hr] at h; cases h
      | some r =>
        rw [hr] at h
        obtain fault | rp' := r
        · cases h
        · cases h
          simpa using get

/-- Each connection that is closed leaves the memory with its invariant. -/
theorem serveConnection_kept (kept : Kept s.files s.next s.ht)
    (h : serveConnection fuel os max_cache_size s c = some (.ok (s', steps))) :
    Kept s'.files s'.next s'.ht := by
  unfold serveConnection at h
  cases hi : requestInit fuel c with
  | none => rw [hi] at h; cases h
  | some r =>
    rw [hi] at h
    obtain fault | ⟨steps₁, rq | rq⟩ := r
    · cases h
    · cases h
      exact kept
    · have get : strcaseeq rq.method (ascii "GET") = true := requestInit_some hi
      have keeps : KeepsMemory os max_cache_size s rq := (answers_get kept get).2
      dsimp only at h
      cases hr : doServerRequest os max_cache_size s rq with
      | error fault => rw [hr] at h; cases h
      | ok r =>
        rw [hr] at h
        cases h
        exact keeps _ _ hr

/-- Every state that connections lead to has the invariant. -/
theorem kept_of_run (run : (serverSystem max_cache_size).Run es s) :
    Kept s.files s.next s.ht := by
  refine run.invariant_state (I := fun s => Kept s.files s.next s.ht) ?_ ?_
  · rintro _ ⟨files, rfl⟩
    exact Kept.init
  · rintro s ⟨os, c⟩ s' kept ⟨fuel, steps, h⟩
    exact serveConnection_kept kept h

theorem writes_injective {out out' : List Chunk}
    (h : out.map ConnStep.write ++ [.close] = out'.map ConnStep.write ++ [.close]) : out = out' := by
  have maps := List.append_cancel_right h
  exact List.map_injective_iff.2 (fun a b hab => by cases hab; rfl) maps

/-- With the invariant, a connection is answered as it should be exactly when it can be. -/
theorem answeredOnce_iff (kept : Kept s.files s.next s.ht) (h : Delivers c.rp.reads) (os : Os) :
    (∃ fuel s' steps, serveConnection fuel os max_cache_size s c = some (.ok (s', steps)) ∧
      AnsweredOnce os c.request steps) ↔ Answerable os max_cache_size s c := by
  by_cases short : (nextLine c.rp.stream).length < MAXLINE
  case neg =>
    refine iff_of_false ?_ fun answerable => short answerable.line
    rintro ⟨fuel, s', steps, run, -⟩
    rw [serveConnection, requestInit, readline_long h short] at run
    cases run
  by_cases get : strcaseeq c.request.method (ascii "GET") = true
  · obtain ⟨init, only⟩ := requestInit_get h short get
    have answers : Answers os max_cache_size s c.request ↔ _ := (answers_get kept get).1
    have other : strcaseeq c.request.method (ascii "GET") ≠ false := by simp [get]
    constructor
    · rintro ⟨fuel, s', steps, run, out, rfl, expected⟩
      unfold serveConnection at run
      cases hi : requestInit fuel c with
      | none => rw [hi] at run; cases run
      | some r =>
        obtain fault | r := r
        · rw [hi] at run; cases run
        · obtain rfl := only fuel r hi
          rw [hi] at run
          dsimp only at run
          cases hr : doServerRequest os max_cache_size s c.request with
          | error fault => rw [hr] at run; cases run
          | ok r =>
            obtain ⟨s₁, out₁⟩ := r
            rw [hr] at run
            simp only [List.nil_append, Option.some.injEq, Except.ok.injEq, Prod.mk.injEq] at run
            obtain rfl := writes_injective run.2
            exact ⟨short, fun no => absurd no other, fun _ => init.1 ⟨fuel, hi⟩,
              fun _ => answers.1 ⟨_, _, hr, expected⟩⟩
    · intro answerable
      obtain ⟨fuel, hi⟩ := init.2 (answerable.headers get)
      obtain ⟨s', out, hr, expected⟩ := answers.2 (answerable.name get)
      have run : serveConnection fuel os max_cache_size s c =
          some (.ok (s', out.map .write ++ [.close])) := by
        simp only [serveConnection, hi, hr, List.nil_append]
      exact ⟨fuel, s', _, run, out, rfl, expected⟩
  · have other : strcaseeq c.request.method (ascii "GET") = false := by simpa using get
    have error : errorCall os c.request ≠ none := by
      simp [errorCall, other]
    by_cases fits : c.request.method.length ≤ Site.method.room
    · obtain ⟨page, hi, response⟩ := (requestInit_method h short other 0).1 fits
      refine iff_of_true ⟨0, s, page.map .write ++ [.close], by rw [serveConnection, hi], page, rfl,
        fun _ => response, fun no => absurd no error⟩ ?_
      exact ⟨short, fun _ => fits, fun yes => absurd yes get, fun yes => absurd yes get⟩
    · refine iff_of_false ?_ fun answerable => fits (answerable.method other)
      rintro ⟨fuel, s', steps, run, -⟩
      rw [serveConnection, (requestInit_method h short other fuel).2 fits] at run
      cases run

/-- In every state that connections lead to, a connection gets the one response that it should get
and is closed once exactly when its lines fit, its headers end and, with `GET`, the name is served
from the cache or from a file that can be read and inserted. -/
theorem one_response (run : (serverSystem max_cache_size).Run es s) (h : Delivers c.rp.reads)
    (os : Os) :
    (∃ fuel s' steps, serveConnection fuel os max_cache_size s c = some (.ok (s', steps)) ∧
      AnsweredOnce os c.request steps) ↔ Answerable os max_cache_size s c :=
  answeredOnce_iff (kept_of_run run) h os

/-- "GET x" without headers, at a server that has just started. -/
theorem one_response_first :
    (∃ fuel s' steps, serveConnection fuel (fun _ => some ⟨true, true, true, [7]⟩) 4
        (serverStart (fun _ => ⟨[], [], 0⟩) 4)
        ⟨⟨[], [some (ascii "GET x\r\n\r\n")]⟩, [], [], [], []⟩ = some (.ok (s', steps)) ∧
      AnsweredOnce (fun _ => some ⟨true, true, true, [7]⟩)
        (Incoming.request ⟨⟨[], [some (ascii "GET x\r\n\r\n")]⟩, [], [], [], []⟩) steps) ↔
      Answerable (fun _ => some ⟨true, true, true, [7]⟩) 4 (serverStart (fun _ => ⟨[], [], 0⟩) 4)
        ⟨⟨[], [some (ascii "GET x\r\n\r\n")]⟩, [], [], [], []⟩ :=
  one_response (.start ⟨_, rfl⟩) (by simp [Delivers, ascii]) _

/-- The file is missing: its error page is followed by a response with the status 200. -/
theorem missing_file_two_responses : ¬ ∀ max_cache_size es s,
    (serverSystem max_cache_size).Run es s → ∀ (os : Os) (c : Incoming), Delivers c.rp.reads →
      ∃ fuel s' steps, serveConnection fuel os max_cache_size s c = some (.ok (s', steps)) ∧
        AnsweredOnce os c.request steps := by
  intro all
  have run : (serverSystem 4).Run [] (serverStart (fun _ => ⟨[], [], 0⟩) 4) := .start ⟨_, rfl⟩
  have delivers : Delivers [some (ascii "GET x\r\n\r\n")] := by simp [Delivers, ascii]
  have answered := all 4 [] _ run (fun _ => none)
    ⟨⟨[], [some (ascii "GET x\r\n\r\n")]⟩, [], [], [], []⟩ delivers
  rw [answeredOnce_iff (kept_of_run run) delivers] at answered
  have served := (answered.name (by decide)).served
  revert served
  decide

end Connection

end Ece344Lab.Webserver
