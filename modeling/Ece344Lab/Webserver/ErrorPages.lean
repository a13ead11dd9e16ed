import Ece344Lab.Webserver.ClientFormat

/-!
# The error pages

`request_error` puts its page together in an array of `MAXBUF` bytes. The texts of the six places
that call it are fixed; the cause is the method or the file name, of which up to `MAXLINE - 1` bytes
come from the client.
-/
namespace Ece344Lab.Webserver

/-- The calls of `request_error`. -/
inductive Site where
  | method
  | absolute
  | dotdot
  | source
  | missing
  | unreadable
  deriving DecidableEq

namespace Site

def errnum : Site → Bytes
  | .method => ascii "501"
  | .unreadable => ascii "403"
  | _ => ascii "404"

def shortmsg : Site → Bytes
  | .method => ascii "Not Implemented"
  | .unreadable => ascii "Forbidden"
  | _ => ascii "Not found"

def longmsg : Site → Bytes
  | .method => ascii "OS Web Server does not implement this method"
  | .absolute => ascii "OS Web Server doesn't serve files with absolute paths"
  | .dotdot => ascii "OS Web Server doesn't serve files with .. in the path"
  | .source => ascii "OS Web Server doesn't serve C or header files "
  | .missing => ascii "OS Web Server could not find this file"
  | .unreadable => ascii "OS Web Server could not read this file"

/-- What the page leaves for the cause. -/
def room : Site → Nat
  | .method => 8029
  | .absolute => 8026
  | .dotdot => 8026
  | .source => 8033
  | .missing => 8041
  | .unreadable => 8041

end Site

/-- The contents of `body`, one `sprintf` after the other. -/
def bodyTexts (site : Site) (cause : Bytes) : List Bytes :=
  let title := ascii "<html><title>OS Web Server Error</title>"
  let color := title ++ ascii "<body bgcolor=fffff>\r\n"
  let short := color ++ (ascii "<p>" ++ site.errnum ++ ascii ": " ++ site.shortmsg ++ ascii "</p>\r\n")
  let long := short ++ (ascii "<p>" ++ site.longmsg ++ ascii ": " ++ cause ++ ascii "</p>\r\n")
  [title, color, short, long, long ++ ascii "</body></html>\r\n"]

/-- The contents of `buf`, one header after the other. -/
def bufTexts (site : Site) (body : Bytes) : List Bytes :=
  [ascii "HTTP/1.0 " ++ site.errnum ++ ascii " " ++ site.shortmsg ++ ascii "\r\n",
    ascii "Content-Type: text/html\r\n",
    ascii "Content-Length: " ++ decimal body.length ++ ascii "\r\n",
    ascii "Content-Csum: " ++ decimal (csum body) ++ ascii "\r\n\r\n"]

/-- The page of a call. -/
def Site.page (site : Site) (cause : Bytes) : Bytes :=
  errorBody cause site.errnum site.shortmsg site.longmsg

/-- Every `sprintf` of the call stays inside its array. -/
structure PageFits (site : Site) (cause : Bytes) : Prop where
  body : ∀ t ∈ bodyTexts site cause, t.length ≤ MAXBUF - 1
  buf : ∀ t ∈ bufTexts site (site.page cause), t.length ≤ MAXLINE - 1

/-- The next word of `%s`, and what follows it. -/
def nextWord (s : Bytes) : Option (Bytes × Bytes) :=
  match s.dropWhile isSpace with
  | [] => none
  | c :: s => some ((c :: s).takeWhile fun c => !isSpace c, (c :: s).dropWhile fun c => !isSpace c)

/-- `sscanf(buf, "%s %s %s", method, uri, version)`: without a word an array stays as it was. -/
def scanRequestLine (buf method uri : Bytes) : Request :=
  match nextWord (buf.takeWhile (· ≠ 0)) with
  | none => ⟨method, uri⟩
  | some (method, rest) =>
    match nextWord rest with
    | none => ⟨method, uri⟩
    | some (uri, _) => ⟨method, uri⟩

/-- The refusals of `request_readfile`. -/
def refusalSite (os : Os) (name : Bytes) : Option Site :=
  if name.head? = some 47 then some .absolute
  else if strstr name (ascii "..") then some .dotdot
  else if sourceExtension name then some .source
  else match os name with
    | none => some .missing
    | some stat => if !stat.regular || !stat.ownerRead then some .unreadable else none

/-- The call of `request_error` that a request leads to, when it is not answered from the cache. -/
def errorCall (os : Os) (rq : Request) : Option (Site × Bytes) :=
  if !strcaseeq rq.method (ascii "GET") then some (.method, rq.method)
  else (refusalSite os (requestData rq).file_name).map fun site =>
    (site, (requestData rq).file_name)

/-- The method that is not implemented, or the name that is refused, leaves room for the page. -/
structure CauseFits (os : Os) (rq : Request) : Prop where
  method : strcaseeq rq.method (ascii "GET") = false → rq.method.length ≤ Site.method.room
  name : strcaseeq rq.method (ascii "GET") = true →
    ∀ site, refusalSite os (requestData rq).file_name = some site →
      (requestData rq).file_name.length ≤ site.room

variable {os : Os} {rq : Request} {site : Site} {cause name : Bytes}

theorem refusal_site (os : Os) (name : Bytes) :
    refusal os name = (refusalSite os name).map fun site =>
      (site.errnum, site.shortmsg, site.longmsg) := by
  rw [refusal, refusalSite]
  split_ifs with habsolute hdotdot hsource
  · rfl
  · rfl
  · rfl
  · cases os name with
    | none => rfl
    | some stat =>
      dsimp only
      split_ifs <;> rfl

/-- What the page adds to the texts of the call. -/
theorem length_errorBody (cause errnum shortmsg longmsg : Bytes) :
    (errorBody cause errnum shortmsg longmsg).length =
      errnum.length + shortmsg.length + longmsg.length + cause.length + 100 := by
  have htitle : (ascii "<html><title>OS Web Server Error</title>").length = 40 := by decide
  have hcolor : (ascii "<body bgcolor=fffff>\r\n").length = 22 := by decide
  have hopen : (ascii "<p>").length = 3 := by decide
  have hcolon : (ascii ": ").length = 2 := by decide
  have hclose : (ascii "</p>\r\n").length = 6 := by decide
  have hend : (ascii "</body></html>\r\n").length = 16 := by decide
  unfold errorBody
  simp only [List.length_append, htitle, hcolor, hopen, hcolon, hclose, hend]
  omega

/-- What the page leaves for the cause. -/
theorem length_page (site : Site) (cause : Bytes) :
    (site.page cause).length + site.room = cause.length + (MAXBUF - 1) := by
  have htexts : site.errnum.length + site.shortmsg.length + site.longmsg.length + site.room =
      MAXBUF - 1 - 100 := by
    cases site <;> rfl
  have hmax : MAXBUF = 8192 := rfl
  unfold Site.page
  rw [length_errorBody]
  omega

theorem length_le_page : ∀ t ∈ bodyTexts site cause, t.length ≤ (site.page cause).length := by
  intro t ht
  have hpage : site.page cause = (bodyTexts site cause).getLastD [] := by
    simp [bodyTexts, Site.page, errorBody]
  rw [hpage]
  simp only [bodyTexts, List.mem_cons, List.not_mem_nil, or_false] at ht
  rcases ht with rfl | rfl | rfl | rfl | rfl <;>
  · simp [bodyTexts]
    try omega

/-- A call stays inside its arrays exactly when the cause fits. -/
theorem pageFits_iff : PageFits site cause ↔ cause.length ≤ site.room := by
  have hlength := length_page site cause
  constructor
  · intro fits
    have hmem : site.page cause ∈ bodyTexts site cause := by
      simp [bodyTexts, Site.page, errorBody]
    have hle := fits.body _ hmem
    omega
  · intro hroom
    have hle : (site.page cause).length ≤ MAXBUF - 1 := by omega
    refine ⟨fun t ht => (length_le_page t ht).trans hle, fun t ht => ?_⟩
    have hascii : ∀ s : String, (ascii s).length = s.toList.length := fun s => List.length_map _
    have hnumber : (decimal (site.page cause).length).length ≤ 4 :=
      length_decimal (by decide) (Nat.lt_of_le_of_lt hle (by decide))
    have hcsum : (decimal (csum (site.page cause))).length ≤ 10 :=
      length_decimal (by decide) (Nat.lt_of_lt_of_le (Nat.mod_lt _ (by decide)) (by decide))
    have hstatus : site.errnum.length + site.shortmsg.length ≤ 18 := by cases site <;> decide
    simp only [bufTexts, List.mem_cons, List.not_mem_nil, or_false] at ht
    rcases ht with rfl | rfl | rfl | rfl <;>
    · simp only [List.length_append, hascii]
      simp [MAXLINE]
      try omega

/-- The name begins with a dot. -/
theorem refusalSite_ne_absolute (uri : Bytes) :
    refusalSite os (requestParseURI uri MAXLINE) ≠ some .absolute := by
  have hhead : (requestParseURI uri MAXLINE).head? = some 46 := rfl
  rw [refusalSite, hhead, if_neg (by decide)]
  split_ifs
  · simp
  · simp
  · cases os (requestParseURI uri MAXLINE) with
    | none => simp
    | some stat =>
      dsimp only
      split_ifs <;> simp

/-- The page that `request_readfile` sends is that of the site. -/
theorem requestError_site (site : Site) (cause : Bytes) :
    requestError cause site.errnum site.shortmsg site.longmsg = .error .bufferOverflow ↔
      ¬ PageFits site cause := by
  have hlength := length_page site cause
  have hmax : MAXBUF = 8192 := rfl
  rw [pageFits_iff, requestError, ← Site.page]
  split_ifs with hfull
  · exact iff_of_true rfl (by omega)
  · exact iff_of_false (fun h => by cases h) (by omega)

/-- The pages of a request fit into their arrays exactly when the method or the name does. -/
theorem error_pages_fit (os : Os) (buf method uri : Bytes) :
    (∀ site cause, errorCall os (scanRequestLine buf method uri) = some (site, cause) →
      PageFits site cause) ↔ CauseFits os (scanRequestLine buf method uri) := by
  generalize scanRequestLine buf method uri = rq
  simp only [pageFits_iff]
  unfold errorCall
  by_cases hget : strcaseeq rq.method (ascii "GET") = true
  · rw [hget]
    constructor
    · intro h
      refine ⟨fun hno => absurd (hget.symm.trans hno) (by decide), fun _ site hsite => ?_⟩
      exact h site _ (by rw [hsite]; rfl)
    · intro fits site cause h
      obtain ⟨site', hsite, heq⟩ := Option.map_eq_some_iff.1 h
      obtain ⟨rfl, rfl⟩ := Prod.mk.inj heq
      exact fits.name hget _ hsite
  · have hno : strcaseeq rq.method (ascii "GET") = false := by simpa using hget
    rw [hno]
    constructor
    · intro h
      exact ⟨fun _ => h .method _ rfl, fun hyes => absurd (hno.symm.trans hyes) (by decide)⟩
    · intro fits site cause h
      cases h
      exact fits.method hno

/-- A line of one word. -/
theorem scanRequestLine_word (n : Nat) : scanRequestLine (List.replicate (n + 1) 65) [] [] =
    ⟨List.replicate (n + 1) 65, []⟩ := by
  have hmem : ∀ c ∈ List.replicate (n + 1) (65 : UInt8), c = 65 := fun c =>
    List.eq_of_mem_replicate
  have hstring : (List.replicate (n + 1) (65 : UInt8)).takeWhile (fun c => decide (c ≠ 0)) =
      List.replicate (n + 1) 65 := by
    rw [List.takeWhile_eq_self_iff]
    intro c hc
    rw [hmem c hc]
    decide
  have hstart : (List.replicate (n + 1) (65 : UInt8)).dropWhile isSpace =
      65 :: List.replicate n 65 := by
    rw [List.replicate_succ, List.dropWhile_cons_of_neg (by decide)]
  have hword : (65 :: List.replicate n (65 : UInt8)).takeWhile (fun c => !isSpace c) =
      65 :: List.replicate n 65 := by
    rw [← List.replicate_succ, List.takeWhile_eq_self_iff]
    intro c hc
    rw [hmem c hc]
    decide
  have hrest : (65 :: List.replicate n (65 : UInt8)).dropWhile (fun c => !isSpace c) = [] := by
    rw [← List.replicate_succ, List.dropWhile_eq_nil_iff]
    intro c hc
    rw [hmem c hc]
    decide
  rw [scanRequestLine, hstring, nextWord, hstart]
  dsimp only
  rw [hword, hrest]
  rfl

/-- A method of 8100 bytes, in a request line that fits into its array. -/
theorem long_method_overflows : ¬ ∀ os buf method uri, buf.length ≤ MAXLINE - 1 →
    ∀ site cause, errorCall os (scanRequestLine buf method uri) = some (site, cause) →
      PageFits site cause := by
  intro h
  have hline : (List.replicate 8100 (65 : UInt8)).length ≤ MAXLINE - 1 := by
    rw [List.length_replicate]
    decide
  have hmethod : strcaseeq (List.replicate 8100 65) (ascii "GET") = false := by
    have hlen : ((List.replicate 8100 (65 : UInt8)).map toLower).length ≠
        ((ascii "GET").map toLower).length := by
      rw [List.length_map, List.length_replicate]
      decide
    rw [strcaseeq, beq_eq_false_iff_ne]
    exact fun heq => hlen (congrArg List.length heq)
  have hcall : errorCall (fun _ => none) (scanRequestLine (List.replicate 8100 65) [] []) =
      some (.method, List.replicate 8100 65) := by
    rw [scanRequestLine_word 8099, errorCall, hmethod]
    rfl
  have fits := pageFits_iff.1 (h (fun _ => none) _ [] [] hline .method _ hcall)
  rw [List.length_replicate] at fits
  exact absurd fits (by decide)

end Ece344Lab.Webserver
