import Ece344Lab.Webserver.Cache
import Mathlib.Data.List.Infix

/-!
# Requests

`request.c` and `do_server_request`. The operating system is a function from file names to what
`stat`, `open` and `read` find under them. A connection receives chunks, one for each
`Rio_write`; those that hold file content are told apart.
-/
namespace Ece344Lab.Webserver

/-- What the system has under a name: `S_ISREG`, `S_IRUSR`, whether `open` succeeds, and the
content. -/
structure Stat where
  regular : Bool
  ownerRead : Bool
  openable : Bool
  content : Bytes
  deriving DecidableEq

abbrev Os := Bytes → Option Stat

/-- One `Rio_write` to a connection. -/
inductive Chunk where
  | text (b : Bytes)
  | content (b : Bytes)
  deriving DecidableEq

def Chunk.bytes : Chunk → Bytes
  | .text b => b
  | .content b => b

/-- The method and the URI that `request_init` reads off the request line. -/
structure Request where
  method : Bytes
  uri : Bytes
  deriving DecidableEq

/-- The body of an error page. -/
def errorBody (cause errnum shortmsg longmsg : Bytes) : Bytes :=
  ascii "<html><title>OS Web Server Error</title>" ++
  ascii "<body bgcolor=fffff>\r\n" ++
  (ascii "<p>" ++ errnum ++ ascii ": " ++ shortmsg ++ ascii "</p>\r\n") ++
  (ascii "<p>" ++ longmsg ++ ascii ": " ++ cause ++ ascii "</p>\r\n") ++
  ascii "</body></html>\r\n"

/-- `request_error`. The body is put together in an array of `MAXBUF` bytes. -/
def requestError (cause errnum shortmsg longmsg : Bytes) : Except Fault (List Chunk) :=
  let body := errorBody cause errnum shortmsg longmsg
  if MAXBUF ≤ body.length then .error .bufferOverflow
  else .ok [
    .text (ascii "HTTP/1.0 " ++ errnum ++ ascii " " ++ shortmsg ++ ascii "\r\n"),
    .text (ascii "Content-Type: text/html\r\n"),
    .text (ascii "Content-Length: " ++ decimal body.length ++ ascii "\r\n"),
    .text (ascii "Content-Csum: " ++ decimal (csum body) ++ ascii "\r\n\r\n"),
    .text body]

/-- `request_parse_URI`: `snprintf(filename, max, "./%s", uri)`. -/
def requestParseURI (uri : Bytes) (max : Nat) : Bytes := (ascii "./" ++ uri).take (max - 1)

/-- `strstr(hay, needle) != NULL`. -/
def strstr (hay needle : Bytes) : Bool := decide (needle <:+: hay)

/-- `strrchr(s, c)`: the suffix from the last `c` on. -/
def strrchr : Bytes → UInt8 → Option Bytes
  | [], _ => none
  | x :: s, c =>
    match strrchr s c with
    | some t => some t
    | none => if x = c then some (x :: s) else none

def requestGetFileType (filename : Bytes) : Bytes :=
  if strstr filename (ascii ".html") then ascii "text/html"
  else if strstr filename (ascii ".gif") then ascii "image/gif"
  else if strstr filename (ascii ".jpg") then ascii "image/jpeg"
  else ascii "text/plain"

/-- `tolower` of the C locale. -/
def toLower (c : UInt8) : UInt8 := if 65 ≤ c ∧ c ≤ 90 then c + 32 else c

/-- `strcasecmp(a, b) == 0`. -/
def strcaseeq (a b : Bytes) : Bool := a.map toLower == b.map toLower

/-- The extension is `.c` or `.h`. -/
def sourceExtension (name : Bytes) : Bool :=
  match strrchr name 46 with
  | none => false
  | some ext => ext == ascii ".c" || ext == ascii ".h"

/-- What `request_readfile` refuses or fails to find: the error page it sends. -/
def refusal (os : Os) (name : Bytes) : Option (Bytes × Bytes × Bytes) :=
  if name.head? = some 47 then
    some (ascii "404", ascii "Not found",
      ascii "OS Web Server doesn't serve files with absolute paths")
  else if strstr name (ascii "..") then
    some (ascii "404", ascii "Not found",
      ascii "OS Web Server doesn't serve files with .. in the path")
  else if sourceExtension name then
    some (ascii "404", ascii "Not found", ascii "OS Web Server doesn't serve C or header files ")
  else match os name with
    | none =>
      some (ascii "404", ascii "Not found", ascii "OS Web Server could not find this file")
    | some stat =>
      if !stat.regular || !stat.ownerRead then
        some (ascii "403", ascii "Forbidden", ascii "OS Web Server could not read this file")
      else none

/-- The end of `request_readfile`: `file_size` is an `int`; `open` and `Malloc` may fail. -/
def readContent (stat : Stat) (data : FileData) : Except Fault FileData :=
  let size := wrap stat.content.length
  if size = 0 then .ok { data with file_size := size }
  else if !stat.openable || size < 0 then .error .exit
  else .ok { data with file_size := size, file_buf := stat.content.take size.toNat }

/-- `request_readfile`: the data and what was written to the connection. -/
def requestReadfile (os : Os) (data : FileData) : Except Fault (FileData × List Chunk) :=
  match refusal os data.file_name with
  | some (errnum, shortmsg, longmsg) => do
    let page ← requestError data.file_name errnum shortmsg longmsg
    .ok (data, page)
  | none =>
    match os data.file_name with
    | none => .ok (data, [])
    | some stat => do
      let data' ← readContent stat data
      .ok (data', [])

/-- The header that `request_sendfile` puts together. -/
def responseHeader (data : FileData) : Bytes :=
  ascii "HTTP/1.0 200 OK\r\n" ++
  ascii "Server: OS Web Server\r\n" ++
  (ascii "Content-Type: " ++ requestGetFileType data.file_name ++ ascii "\r\n") ++
  (ascii "Content-Length: " ++ decimalInt data.file_size ++ ascii "\r\n") ++
  (ascii "Content-Csum: " ++ decimal (csum (data.file_buf.take data.file_size.toNat)) ++
    ascii "\r\n\r\n")

/-- `request_sendfile`. -/
def requestSendfile (data : FileData) : List Chunk :=
  if 0 < data.file_size then
    [.text (responseHeader data), .content (data.file_buf.take data.file_size.toNat)]
  else [.text (responseHeader data)]

/-- The memory of the server, as far as requests use it. `next` is the next free address. -/
structure ServerState where
  files : Files
  next : Nat
  ht : Hashtable

/-- The data of a request as `request_init` leaves it. -/
def requestData (rq : Request) : FileData := ⟨requestParseURI rq.uri MAXLINE, [], 0⟩

/-- `do_server_request` of one request at a time: the new memory and what the connection
receives. -/
def doServerRequest (os : Os) (max_cache_size : Int) (s : ServerState) (rq : Request) :
    Except Fault (ServerState × List Chunk) := do
  if !strcaseeq rq.method (ascii "GET") then
    let page ← requestError rq.method (ascii "501") (ascii "Not Implemented")
      (ascii "OS Web Server does not implement this method")
    return (s, page)
  let data := requestData rq
  let files := Function.update s.files s.next data
  let (cached_data, ht) ←
    if 0 < max_cache_size then cacheLookup files s.ht data.file_name 0 else pure (none, s.ht)
  match cached_data with
  | some file => return (⟨files, s.next + 1, ht⟩, requestSendfile (files file))
  | none =>
    let (data', page) ← requestReadfile os data
    let files' := Function.update files s.next data'
    let ht' ← if 0 < max_cache_size then insertSection files' ht s.next else pure ht
    return (⟨files', s.next + 1, ht'⟩, page ++ requestSendfile data')

end Ece344Lab.Webserver
