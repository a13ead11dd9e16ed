import Ece344Lab.Library.Runs
import Ece344Lab.Webserver.Transparency

/-!
# What is served lies in the document directory

A path is resolved component by component. A name that `request_readfile` accepts has no `..`, so
resolving it never leaves the directory it starts in; and a cache hit can only return data that
an earlier request read under the same name.
-/
namespace Ece344Lab.Webserver

open Library (System)
open Library.System (Run)
open Library.Program (except_ok_bind)

section Paths

/-- The components of a path, empty ones included. -/
def components (path : Bytes) : List Bytes := path.splitOn 47

/-- One step of path resolution. Directories are the components from the root. -/
def enter (dir : List Bytes) (c : Bytes) : List Bytes :=
  if c = [] ∨ c = ascii "." then dir
  else if c = ascii ".." then dir.dropLast
  else dir ++ [c]

/-- Where a path leads from the working directory, without symbolic links. -/
def resolve (cwd : List Bytes) (path : Bytes) : List Bytes :=
  (components path).foldl enter (if path.head? = some 47 then [] else cwd)

theorem infix_intercalate {c : Bytes} {l : List Bytes} (sep : Bytes) (h : c ∈ l) :
    c <:+: sep.intercalate l := by
  induction l with
  | nil => cases h
  | cons d l ih =>
    cases l with
    | nil =>
      obtain rfl : c = d := by simpa using h
      simp
    | cons e l =>
      rw [List.intercalate_cons_cons]
      obtain rfl | h := List.mem_cons.1 h
      · exact ⟨[], sep ++ sep.intercalate (e :: l), by simp⟩
      · obtain ⟨a, b, hab⟩ := ih h
        exact ⟨d ++ sep ++ a, b, by rw [← hab]; simp⟩

theorem infix_of_mem_components {path c : Bytes} (h : c ∈ components path) : c <:+: path := by
  have := infix_intercalate [47] h
  rwa [components, List.intercalate_splitOn] at this

theorem enter_below {dir : List Bytes} {c : Bytes} (h : c ≠ ascii "..") :
    dir <+: enter dir c := by
  unfold enter
  split_ifs
  · exact List.prefix_refl _
  · exact List.prefix_append _ _

theorem foldl_enter_below {l : List Bytes} (h : ascii ".." ∉ l) (dir : List Bytes) :
    dir <+: l.foldl enter dir := by
  induction l generalizing dir with
  | nil => exact List.prefix_refl _
  | cons c l ih =>
    rw [List.mem_cons, not_or] at h
    exact (enter_below (Ne.symm h.1)).trans (ih h.2 _)

/-- A relative path without `..` stays below the working directory. -/
theorem resolve_below {path : Bytes} (cwd : List Bytes) (relative : path.head? ≠ some 47)
    (h : ¬ ascii ".." <:+: path) : cwd <+: resolve cwd path := by
  rw [resolve, if_neg relative]
  exact foldl_enter_below (fun hc => h (infix_of_mem_components hc)) _

end Paths

section Names

theorem strrchr_append (s : Bytes) {c : UInt8} {t u : Bytes} (h : strrchr t c = some u) :
    strrchr (s ++ t) c = some u := by
  induction s with
  | nil => exact h
  | cons x s ih => rw [List.cons_append, strrchr, ih]

theorem sourceExtension_of_suffix {name : Bytes}
    (h : ascii ".c" <:+ name ∨ ascii ".h" <:+ name) : sourceExtension name = true := by
  obtain ⟨s, rfl⟩ | ⟨s, rfl⟩ := h
  · rw [sourceExtension, strrchr_append s (u := ascii ".c") (by decide)]
    decide
  · rw [sourceExtension, strrchr_append s (u := ascii ".h") (by decide)]
    decide

/-- What `request_readfile` accepts. -/
theorem refusal_none_name {os : Os} {name : Bytes} (h : refusal os name = none) :
    name.head? ≠ some 47 ∧ ¬ ascii ".." <:+: name ∧ ¬ ascii ".c" <:+ name ∧
      ¬ ascii ".h" <:+ name := by
  unfold refusal at h
  split_ifs at h with absolute dots source
  refine ⟨absolute, by simpa [strstr] using dots, fun hc => source ?_, fun hh => source ?_⟩
  · exact sourceExtension_of_suffix (.inl hc)
  · exact sourceExtension_of_suffix (.inr hh)

end Names

section Chains

variable {files : Files} {ht ht' : Hashtable} {file p : Nat} {c c' : List Entry} {r : Option Nat}

theorem appendEntry_eq {new : Entry} (h : appendEntry new c = .ok c') : c' = c ++ [new] := by
  induction c generalizing c' with
  | nil => cases h; rfl
  | cons e c ih =>
    rw [appendEntry] at h
    split_ifs at h
    split at h
    · cases h
    case h_2 chain hc => cases h; rw [ih hc]; rfl

theorem unlinkBehind_sublist (h : unlinkBehind file c = .ok c') :
    (c'.map Entry.data).Sublist (c.map Entry.data) := by
  induction c generalizing c' with
  | nil => cases h
  | cons e c ih =>
    rw [unlinkBehind] at h
    split_ifs at h
    · cases h
      exact List.sublist_cons_self _ _
    · split at h
      · cases h
      case h_2 chain hc => cases h; exact (ih hc).cons_cons _

theorem deleteFrom_sublist (h : deleteFrom file c = .ok c') :
    (c'.map Entry.data).Sublist (c.map Entry.data) := by
  cases c with
  | nil => cases h
  | cons e c =>
    rw [deleteFrom] at h
    split_ifs at h
    · cases h
      exact List.nil_sublist _
    · cases h
      exact List.Sublist.refl _
    · split at h
      · cases h
      case h_2 chain hc => cases h; exact (unlinkBehind_sublist hc).cons_cons _

theorem deleteEntry_chain (h : deleteEntry files ht file = .ok ht') (b : Nat) :
    (ht'.chain b).Sublist (ht.chain b) := by
  rw [deleteEntry] at h
  split at h
  · cases h
  case h_2 chain hc =>
    cases h
    by_cases hb : b = hash (files file).file_name
    · subst hb
      simpa [Hashtable.chain] using deleteFrom_sublist hc
    · simp [Hashtable.chain, Function.update_of_ne hb]

theorem evictFrom_chain {size : Int} {l : List Nat} (h : evictFrom files size l ht = .ok ht')
    (b : Nat) : (ht'.chain b).Sublist (ht.chain b) := by
  induction l generalizing ht with
  | nil =>
    rw [evictFrom] at h
    split_ifs at h
    cases h
    exact List.Sublist.refl _
  | cons q l ih =>
    rw [evictFrom] at h
    split_ifs at h
    · split at h
      · cases h
      case h_2 ht₁ hd => exact (ih h).trans (deleteEntry_chain hd b)
    · cases h
      exact List.Sublist.refl _

theorem cacheInsertHt_chain (h : cacheInsertHt files ht file = .ok ht') {b : Nat}
    (hp : p ∈ ht'.chain b) : p ∈ ht.chain b ∨ p = file := by
  rw [cacheInsertHt] at h
  split at h
  · cases h
  case h_2 chain hc =>
    cases h
    by_cases hb : b = hash (files file).file_name
    · subst hb
      rw [appendEntry_eq hc] at hp
      simpa [Hashtable.chain] using hp
    · rw [Hashtable.chain] at hp
      simp only [Function.update_of_ne hb] at hp
      exact .inl hp

/-- A lookup finds an entry of the bucket and leaves the table as it is. -/
theorem cacheLookup_chain {name : Bytes} {time : Nat}
    (h : cacheLookup files ht name time = .ok (r, ht')) :
    ht'.table = ht.table ∧
      ∀ p, r = some p → p ∈ ht.chain (hash name) ∧ (files p).file_name = name := by
  have find : ∀ (c : List Entry), findName files name c = .ok r →
      ∀ p, r = some p → p ∈ c.map Entry.data ∧ (files p).file_name = name := by
    intro c hc
    induction c with
    | nil => cases hc; exact nofun
    | cons e c ih =>
      rw [findName] at hc
      split_ifs at hc with freed name_eq
      · cases hc
        rintro _ ⟨⟩
        exact ⟨by simp, name_eq⟩
      · exact fun p hp => (ih hc p hp).imp_left (List.mem_cons_of_mem _)
  rw [cacheLookup] at h
  split at h
  · cases h
  case h_2 hf => cases h; exact ⟨rfl, find _ hf⟩
  case h_3 hf =>
    cases h
    refine ⟨?_, find _ hf⟩
    split <;> rfl

theorem insertSection_chain (h : insertSection files ht file = .ok ht') {b : Nat}
    (hp : p ∈ ht'.chain b) : p ∈ ht.chain b ∨ p = file := by
  rw [insertSection] at h
  split at h
  · cases h
  case h_2 look =>
    cases h
    rw [Hashtable.chain, (cacheLookup_chain look).1] at hp
    exact .inl hp
  case h_3 ht₁ look =>
    have table := (cacheLookup_chain look).1
    have chain : ∀ b, ht₁.chain b = ht.chain b := fun b => by
      rw [Hashtable.chain, Hashtable.chain, table]
    rw [cacheInsert] at h
    split_ifs at h
    · cases h
      exact .inl (chain b ▸ hp)
    · split at h
      · cases h
      case h_2 ht₂ evict =>
        exact (cacheInsertHt_chain h hp).imp_left fun hp =>
          chain b ▸ (evictFrom_chain evict b).subset hp
    · exact (cacheInsertHt_chain h hp).imp_left fun hp => chain b ▸ hp

end Chains

/-- A request, the state of the file system while it was handled, and what was sent. -/
structure Served where
  os : Os
  rq : Request
  out : List Chunk

/-- The server handling requests one after another. Files may change between requests. -/
def serveSystem (max_cache_size : Int) : System ServerState Served where
  start s := ∃ files, s = serverStart files max_cache_size
  step s e s' := doServerRequest e.os max_cache_size s e.rq = .ok (s', e.out)

/-- The data holds what `request_readfile` accepted and read under its name. -/
def ReadFrom (os : Os) (data : FileData) : Prop :=
  refusal os data.file_name = none ∧ ∃ stat, os data.file_name = some stat ∧
    data.file_size = wrap stat.content.length ∧
      data.file_buf = stat.content.take data.file_size.toNat

/-- Data with content was read during one of the requests `es`. -/
def Sourced (es : List Served) (data : FileData) : Prop :=
  0 < data.file_size → ∃ e ∈ es, ReadFrom e.os data

/-- The run invariant: the entries of the table point to sourced data of earlier requests. -/
structure SourcedInv (es : List Served) (s : ServerState) : Prop where
  entry : ∀ h, ∀ p ∈ s.ht.chain h, p < s.next ∧ Sourced es (s.files p)

variable {es : List Served} {e : Served} {s s' : ServerState} {data data' : FileData}
  {page : List Chunk} {os : Os} {b : Bytes} {max_cache_size : Int}

theorem Sourced.append (h : Sourced es data) (fs : List Served) : Sourced (es ++ fs) data :=
  fun pos => (h pos).imp fun _ ⟨he, read⟩ => ⟨List.mem_append_left _ he, read⟩

theorem readFrom_of_ok (h : requestReadfile os data = .ok (data', page))
    (empty : data.file_size = 0) (pos : 0 < data'.file_size) : ReadFrom os data' := by
  obtain ⟨name, -, refused⟩ := requestReadfile_ok h
  cases hr : refusal os data.file_name with
  | some _ =>
    rw [refused (by simp [hr]), empty] at pos
    exact absurd pos (lt_irrefl 0)
  | none =>
    obtain ⟨stat, hs, run⟩ := refusal_eq_none hr
    rw [run] at h
    cases hc : readContent stat data with
    | error _ => rw [hc] at h; cases h
    | ok d =>
      rw [hc] at h
      cases h
      obtain ⟨name, size, -, buf⟩ := readContent_ok hc
      exact ⟨by rw [name]; exact hr, stat, by rw [name]; exact hs, size, buf pos⟩

theorem content_mem_requestSendfile (h : .content b ∈ requestSendfile data) :
    0 < data.file_size ∧ b = data.file_buf.take data.file_size.toNat := by
  unfold requestSendfile at h
  split_ifs at h with pos
  · exact ⟨pos, by simpa using h⟩
  · simp at h

theorem content_notMem_requestError {cause errnum shortmsg longmsg : Bytes}
    (h : requestError cause errnum shortmsg longmsg = .ok page) : .content b ∉ page := by
  unfold requestError at h
  simp only at h
  split_ifs at h
  cases h
  simp

theorem content_notMem_page (h : requestReadfile os data = .ok (data', page)) :
    .content b ∉ page := by
  cases hr : refusal os data.file_name with
  | none => simp [((requestReadfile_ok h).2.1 hr).1]
  | some texts =>
    obtain ⟨errnum, shortmsg, longmsg⟩ := texts
    rw [requestReadfile, hr] at h
    cases he : requestError data.file_name errnum shortmsg longmsg with
    | error _ => simp only [he] at h; cases h
    | ok _ =>
      simp only [he] at h
      cases h
      exact content_notMem_requestError he

/-- The three ways through `do_server_request`: a refused method, a hit and a miss. -/
theorem doServerRequest_cases {rq : Request} {out : List Chunk}
    (h : doServerRequest os max_cache_size s rq = .ok (s', out)) :
    (s' = s ∧ ∃ cause errnum shortmsg longmsg,
      requestError cause errnum shortmsg longmsg = .ok out) ∨
    (∃ p ht', ht'.table = s.ht.table ∧ p ∈ s.ht.chain (hash (requestData rq).file_name) ∧
      (Function.update s.files s.next (requestData rq) p).file_name = (requestData rq).file_name ∧
      s' = ⟨Function.update s.files s.next (requestData rq), s.next + 1, ht'⟩ ∧
      out = requestSendfile (Function.update s.files s.next (requestData rq) p)) ∨
    ∃ data' page ht', requestReadfile os (requestData rq) = .ok (data', page) ∧
      (∀ b p, p ∈ ht'.chain b → p ∈ s.ht.chain b ∨ p = s.next) ∧
      s' = ⟨Function.update s.files s.next data', s.next + 1, ht'⟩ ∧
      out = page ++ requestSendfile data' := by
  rw [doServerRequest] at h
  split_ifs at h with method hpos
  · cases he : requestError rq.method (ascii "501") (ascii "Not Implemented")
        (ascii "OS Web Server does not implement this method") with
    | error _ => rw [he] at h; cases h
    | ok page => rw [he] at h; cases h; exact .inl ⟨rfl, _, _, _, _, he⟩
  · cases look : cacheLookup (Function.update s.files s.next (requestData rq)) s.ht
        (requestData rq).file_name 0 with
    | error _ => simp only [look] at h; cases h
    | ok r =>
      obtain ⟨r, ht₁⟩ := r
      obtain ⟨table, found⟩ := cacheLookup_chain look
      simp only [look, except_ok_bind] at h
      cases r with
      | some p =>
        cases h
        exact .inr (.inl ⟨p, ht₁, table, (found p rfl).1, (found p rfl).2, rfl, rfl⟩)
      | none =>
        cases hr : requestReadfile os (requestData rq) with
        | error _ => simp only [hr] at h; cases h
        | ok r =>
          obtain ⟨data', page⟩ := r
          simp only [hr, except_ok_bind, Function.update_idem] at h
          cases hi : insertSection (Function.update s.files s.next data') ht₁ s.next with
          | error _ => rw [hi] at h; cases h
          | ok ht' =>
            rw [hi] at h
            cases h
            refine .inr (.inr ⟨data', page, ht', rfl, fun b p hp => ?_, rfl, rfl⟩)
            have chain := insertSection_chain hi hp
            rwa [Hashtable.chain, table] at chain
  · cases hr : requestReadfile os (requestData rq) with
    | error _ => simp only [hr] at h; cases h
    | ok r =>
      obtain ⟨data', page⟩ := r
      simp only [hr, Library.Program.except_pure, except_ok_bind, Function.update_idem] at h
      cases h
      exact .inr (.inr ⟨data', page, s.ht, rfl, fun _ _ hp => .inl hp, rfl, rfl⟩)

theorem SourcedInv.step (h : SourcedInv es s)
    (run : doServerRequest e.os max_cache_size s e.rq = .ok (s', e.out)) :
    SourcedInv (es ++ [e]) s' ∧ ∀ b, .content b ∈ e.out →
      ∃ e' ∈ es ++ [e], ∃ data, ReadFrom e'.os data ∧
        data.file_name = requestParseURI e.rq.uri MAXLINE ∧ b = data.file_buf := by
  have take : ∀ {e' : Served} {data}, ReadFrom e'.os data →
      data.file_buf.take data.file_size.toNat = data.file_buf := by
    rintro _ _ ⟨-, _, -, -, buf⟩
    rw [buf, List.take_take, min_self]
  have old : ∀ (d : FileData) p, p < s.next → Function.update s.files s.next d p = s.files p :=
    fun d p hp => Function.update_of_ne (Nat.ne_of_lt hp) _ _
  have kept : ∀ (d : FileData) b p, p ∈ s.ht.chain b →
      p < s.next + 1 ∧ Sourced (es ++ [e]) (Function.update s.files s.next d p) := by
    intro d b p hp
    obtain ⟨lt, sourced⟩ := h.entry b p hp
    rw [old d p lt]
    exact ⟨Nat.lt_succ_of_lt lt, sourced.append _⟩
  obtain ⟨rfl, _, _, _, _, page⟩ | ⟨p, ht', table, hp, name, rfl, out⟩ |
    ⟨data', page, ht', read, chain, rfl, out⟩ := doServerRequest_cases run
  · exact ⟨⟨fun b p hp => ⟨(h.entry b p hp).1, (h.entry b p hp).2.append _⟩⟩,
      fun b hb => absurd hb (content_notMem_requestError page)⟩
  · obtain ⟨lt, sourced⟩ := h.entry _ p hp
    refine ⟨⟨fun b q hq => ?_⟩, fun b hb => ?_⟩
    · rw [Hashtable.chain, table] at hq
      exact kept _ b q hq
    · rw [out, old _ p lt] at hb
      rw [old _ p lt] at name
      obtain ⟨pos, rfl⟩ := content_mem_requestSendfile hb
      obtain ⟨e', he', read⟩ := sourced pos
      exact ⟨e', List.mem_append_left _ he', _, read, name, take read⟩
  · have name := (requestReadfile_ok read).1
    refine ⟨⟨fun b q hq => ?_⟩, fun b hb => ?_⟩
    · obtain hq | rfl := chain b q hq
      · exact kept _ b q hq
      · refine ⟨Nat.lt_succ_self _, ?_⟩
        show Sourced _ (Function.update s.files s.next data' s.next)
        rw [Function.update_self]
        exact fun pos => ⟨e, by simp, readFrom_of_ok read rfl pos⟩
    · rw [out, List.mem_append] at hb
      obtain ⟨pos, rfl⟩ := content_mem_requestSendfile
        (hb.resolve_left (content_notMem_page read))
      have source := readFrom_of_ok read rfl pos
      exact ⟨e, by simp, data', source, name, take source⟩

/-- Every content chunk of a run was read by one of its requests under the name asked for. -/
theorem content_sourced (run : (serveSystem max_cache_size).Run es s) :
    SourcedInv es s ∧ ∀ e ∈ es, ∀ b, .content b ∈ e.out →
      ∃ e' ∈ es, ∃ data, ReadFrom e'.os data ∧
        data.file_name = requestParseURI e.rq.uri MAXLINE ∧ b = data.file_buf := by
  induction run with
  | start h =>
    obtain ⟨files, rfl⟩ := h
    exact ⟨⟨by simp [serverStart, cacheInit, Hashtable.chain]⟩, by simp⟩
  | @next es s s' e _ step ih =>
    obtain ⟨inv, sent⟩ := ih
    obtain ⟨inv', sent'⟩ := inv.step step
    refine ⟨inv', fun f hf b hb => ?_⟩
    obtain hf | hf := List.mem_append.1 hf
    · obtain ⟨e', he', rest⟩ := sent f hf b hb
      exact ⟨e', List.mem_append_left _ he', rest⟩
    · obtain rfl := List.mem_singleton.1 hf
      exact sent' b hb

/-- The system finds under a name what its tree has where the name leads. -/
def Resolves (cwd : List Bytes) (os : Os) (tree : List Bytes → Option Stat) : Prop :=
  ∀ name stat, os name = some stat → tree (resolve cwd name) = some stat

/-- File content that a connection receives is the content, as far as its size fits an `int`, of
a file below the working directory, found there by one of the requests so far under the name
asked for; that name has no `..` and ends in neither `.c` nor `.h`. -/
theorem served_below_cwd (cwd : List Bytes) (tree : Os → List Bytes → Option Stat)
    (run : (serveSystem max_cache_size).Run es s)
    (resolves : ∀ e ∈ es, Resolves cwd e.os (tree e.os)) :
    ∀ e ∈ es, ∀ b, .content b ∈ e.out →
      ∃ e' ∈ es, ∃ path stat, cwd <+: path ∧ path = resolve cwd (requestParseURI e.rq.uri MAXLINE) ∧
        tree e'.os path = some stat ∧
        b = stat.content.take (wrap stat.content.length).toNat ∧
        ¬ ascii ".." <:+: requestParseURI e.rq.uri MAXLINE ∧
        ¬ ascii ".c" <:+ requestParseURI e.rq.uri MAXLINE ∧
        ¬ ascii ".h" <:+ requestParseURI e.rq.uri MAXLINE := by
  intro e he b hb
  obtain ⟨e', he', data, ⟨accepted, stat, found, size, buf⟩, name, rfl⟩ :=
    (content_sourced run).2 e he b hb
  rw [name] at accepted found
  obtain ⟨relative, dots, c, h⟩ := refusal_none_name accepted
  exact ⟨e', he', _, stat, resolve_below cwd relative dots, rfl,
    resolves e' he' _ _ found, by rw [buf, size], dots, c, h⟩

theorem served_below_cwd_x :
    ∃ out : List Chunk, .content [7] ∈ out ∧ ∀ b, .content b ∈ out →
      ∃ path : List Bytes, [ascii "srv"] <+: path ∧ ∃ n, b = [7].take n := by
  let os : Os := fun name => if name = ascii "./x" then some ⟨true, true, true, [7]⟩ else none
  let tree : Os → List Bytes → Option Stat := fun _ path =>
    if path = [ascii "srv", ascii "x"] then some ⟨true, true, true, [7]⟩ else none
  let rq : Request := ⟨ascii "GET", ascii "x"⟩
  let out : List Chunk := [.text (ascii "HTTP/1.0 200 OK\r\nServer: OS Web Server\r\n" ++
    ascii "Content-Type: text/plain\r\nContent-Length: 1\r\nContent-Csum: 7\r\n\r\n"), .content [7]]
  have response : respond os rq = .ok out := by decide +kernel
  obtain ⟨s, step⟩ := uncached_ok (s := serverStart (fun _ => ⟨[], [], 0⟩) 0) response
  have run : (serveSystem 0).Run ([] ++ [⟨os, rq, out⟩]) s :=
    (Run.start (T := serveSystem 0) ⟨_, rfl⟩).next step
  have resolves : ∀ e ∈ [] ++ [(⟨os, rq, out⟩ : Served)],
      Resolves [ascii "srv"] e.os (tree e.os) := by
    intro e he name stat h
    obtain rfl : e = ⟨os, rq, out⟩ := by simpa using he
    simp only [os] at h
    split_ifs at h with hn
    cases h
    rw [hn]
    decide
  refine ⟨out, by simp [out], fun b hb => ?_⟩
  obtain ⟨e', he', path, stat, below, -, found, content, -⟩ :=
    served_below_cwd [ascii "srv"] tree run resolves ⟨os, rq, out⟩ (by simp) b hb
  simp only [tree] at found
  split_ifs at found
  cases found
  exact ⟨path, below, _, content⟩

end Ece344Lab.Webserver
