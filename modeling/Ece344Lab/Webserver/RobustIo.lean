import Ece344Lab.Webserver.Request

/-!
# Reading and writing in parts

`rio_read` and `rio_write` of `common.c`. A system call may move fewer bytes than it is asked for,
may be interrupted and may fail; what comes of the calls is an input here. However the transfers are
cut, the bytes arrive in order, none is lost and none comes twice.
-/
namespace Ece344Lab.Webserver

/-- What comes of a call of `read` or `write`. An error says whether `errno` is `EINTR`; for
`write` it is a return of 0 as well. A transfer moves `k + 1` bytes, or as many as there are. -/
inductive SysResult
  | error (eintr : Bool)
  | moved (k : Nat)

/-- How a routine ends: it returns, with the results that are left for later calls, or fails with
-1, or still waits for a result. -/
inductive IoEnd
  | returned (rest : List SysResult)
  | failed
  | waiting

/-- `rio_write`: the bytes that are written, and how it ends. -/
def rioWrite : List SysResult → Bytes → Bytes × IoEnd
  | rs, [] => ([], .returned rs)
  | [], _ :: _ => ([], .waiting)
  -- interrupted by sig handler return, and call write() again
  | .error true :: rs, b :: bs => rioWrite rs (b :: bs)
  | .error false :: _, _ :: _ => ([], .failed)
  | .moved k :: rs, b :: bs =>
    let rest := rioWrite rs (bs.drop k)
    (b :: bs.take k ++ rest.1, rest.2)

/-- `rio_read` of `n` bytes of a file, from what is left of it. -/
def rioRead : List SysResult → Bytes → Nat → Bytes × IoEnd
  | rs, _, 0 => ([], .returned rs)
  | [], _, _ + 1 => ([], .waiting)
  | .error true :: rs, file, n + 1 => rioRead rs file (n + 1)
  | .error false :: _, _, _ + 1 => ([], .failed)
  -- EOF
  | .moved _ :: rs, [], _ + 1 => ([], .returned rs)
  | .moved k :: rs, b :: file, n + 1 =>
    let rest := rioRead rs (file.drop (min k n)) (n - min k n)
    (b :: file.take (min k n) ++ rest.1, rest.2)

/-- `Rio_write` of one text after the other; it exits where `rio_write` fails. -/
def rioWriteAll : List SysResult → List Bytes → Bytes × IoEnd
  | rs, [] => ([], .returned rs)
  | rs, buf :: bufs =>
    match rioWrite rs buf with
    | (out, .returned rs') =>
      let rest := rioWriteAll rs' bufs
      (out ++ rest.1, rest.2)
    | (out, .failed) => (out, .failed)
    | (out, .waiting) => (out, .waiting)

/-- What a routine has moved begins what it has to move, and is all of it when it returns. -/
structure Moves (whole : Bytes) (r : Bytes × IoEnd) : Prop where
  sofar : r.1 <+: whole
  all : ∀ rest, r.2 = .returned rest → r.1 = whole

/-- What has been moved before comes in front. -/
theorem Moves.cons (before : Bytes) {whole : Bytes} {r : Bytes × IoEnd} (h : Moves whole r) :
    Moves (before ++ whole) (before ++ r.1, r.2) :=
  ⟨(List.prefix_append_right_inj before).mpr h.sofar, fun rest hr => by rw [h.all rest hr]⟩

theorem Moves.nothing {whole : Bytes} {e : IoEnd} (h : ∀ rest, e ≠ .returned rest) :
    Moves whole ([], e) := ⟨List.nil_prefix, fun rest hr => absurd hr (h rest)⟩

/-- However the writes are cut and interrupted, `rio_write` writes the buffer. -/
theorem rioWrite_moves (rs : List SysResult) (buf : Bytes) : Moves buf (rioWrite rs buf) := by
  induction rs generalizing buf with
  | nil =>
    cases buf with
    | nil => exact ⟨List.nil_prefix, fun _ _ => rfl⟩
    | cons b bs => exact .nothing fun rest h => by cases h
  | cons r rs ih =>
    cases buf with
    | nil => exact ⟨List.nil_prefix, fun _ _ => rfl⟩
    | cons b bs =>
      cases r with
      | error eintr =>
        cases eintr with
        | true => exact ih (b :: bs)
        | false => exact .nothing fun rest h => by cases h
      | moved k =>
        have hrest := (ih (bs.drop k)).cons (b :: bs.take k)
        rw [List.cons_append, List.take_append_drop] at hrest
        exact hrest

/-- However the reads are cut and interrupted, `rio_read` reads the beginning of the file. -/
theorem rioRead_moves (rs : List SysResult) (file : Bytes) (n : Nat) :
    Moves (file.take n) (rioRead rs file n) := by
  induction rs generalizing file n with
  | nil =>
    cases n with
    | zero => exact ⟨List.nil_prefix, fun _ _ => rfl⟩
    | succ n => exact .nothing fun rest h => by cases h
  | cons r rs ih =>
    cases n with
    | zero => exact ⟨List.nil_prefix, fun _ _ => rfl⟩
    | succ n =>
      cases r with
      | error eintr =>
        cases eintr with
        | true => exact ih file (n + 1)
        | false => exact .nothing fun rest h => by cases h
      | moved k =>
        cases file with
        | nil => exact ⟨List.nil_prefix, fun _ _ => rfl⟩
        | cons b file =>
          have hrest := (ih (file.drop (min k n)) (n - min k n)).cons (b :: file.take (min k n))
          have hwhole : file.take (min k n) ++ (file.drop (min k n)).take (n - min k n) =
              file.take n := by
            rw [← List.take_add, Nat.add_sub_cancel' (Nat.min_le_right k n)]
          rw [List.cons_append, hwhole] at hrest
          exact hrest

theorem rioWriteAll_moves (rs : List SysResult) (bufs : List Bytes) :
    Moves bufs.flatten (rioWriteAll rs bufs) := by
  induction bufs generalizing rs with
  | nil => exact ⟨List.nil_prefix, fun _ _ => rfl⟩
  | cons buf bufs ih =>
    have hbuf := rioWrite_moves rs buf
    rw [rioWriteAll, List.flatten_cons]
    cases hw : rioWrite rs buf with
    | mk out e =>
      rw [hw] at hbuf
      cases e with
      | returned rs' =>
        have hall : out = buf := hbuf.all rs' rfl
        rw [← hall]
        exact (ih rs').cons out
      | failed =>
        exact ⟨hbuf.sofar.trans (List.prefix_append _ _), fun rest h => by cases h⟩
      | waiting =>
        exact ⟨hbuf.sofar.trans (List.prefix_append _ _), fun rest h => by cases h⟩

/-- A call that moves bytes. -/
def SysResult.transfers : SysResult → Bool
  | .error _ => false
  | .moved _ => true

/-- Without failures, as many transfers as there are bytes are enough, and no more are used. -/
theorem rioWrite_returns {rs : List SysResult} {buf : Bytes} (hno : .error false ∉ rs)
    (hlen : buf.length ≤ rs.countP SysResult.transfers) :
    ∃ out rest, rioWrite rs buf = (out, .returned rest) ∧ .error false ∉ rest ∧
      rs.countP SysResult.transfers ≤ rest.countP SysResult.transfers + buf.length := by
  induction rs generalizing buf with
  | nil =>
    obtain rfl := List.length_eq_zero_iff.mp (Nat.le_zero.mp hlen)
    exact ⟨[], [], rfl, hno, Nat.le_refl _⟩
  | cons r rs ih =>
    cases buf with
    | nil => exact ⟨[], r :: rs, rfl, hno, Nat.le_refl _⟩
    | cons b bs =>
      rw [List.mem_cons, not_or] at hno
      rw [List.countP_cons] at hlen ⊢
      cases r with
      | error eintr =>
        cases eintr with
        | true =>
          obtain ⟨out, rest, hwrite, hrest, hused⟩ := ih hno.2 hlen
          exact ⟨out, rest, hwrite, hrest, hused⟩
        | false => exact absurd rfl hno.1
      | moved k =>
        simp only [SysResult.transfers, if_true, List.length_cons] at hlen ⊢
        have hdrop : (bs.drop k).length ≤ bs.length := by
          rw [List.length_drop]
          exact Nat.sub_le _ _
        obtain ⟨out, rest, hwrite, hrest, hused⟩ := @ih (bs.drop k) hno.2 (by omega)
        refine ⟨b :: bs.take k ++ out, rest, ?_, hrest, by omega⟩
        rw [rioWrite, hwrite]

theorem rioWriteAll_returns {rs : List SysResult} {bufs : List Bytes} (hno : .error false ∉ rs)
    (hlen : bufs.flatten.length ≤ rs.countP SysResult.transfers) :
    ∃ out rest, rioWriteAll rs bufs = (out, .returned rest) := by
  induction bufs generalizing rs with
  | nil => exact ⟨[], rs, rfl⟩
  | cons buf bufs ih =>
    rw [List.flatten_cons, List.length_append] at hlen
    obtain ⟨out, rest, hwrite, hrest, hused⟩ := @rioWrite_returns rs buf hno (by omega)
    obtain ⟨out', rest', hall⟩ := ih hrest (by omega)
    refine ⟨out ++ out', rest', ?_⟩
    rw [rioWriteAll, hwrite]
    dsimp only
    rw [hall]

/-- However the writes of a response are cut and interrupted, the client receives a beginning of it,
and the whole of it when the last `Rio_write` returns. If no write fails, that comes about after as
many transfers as there are bytes at most. -/
theorem response_arrives (out : List Chunk) (rs : List SysResult) :
    Moves (out.flatMap Chunk.bytes) (rioWriteAll rs (out.map Chunk.bytes)) ∧
      (.error false ∉ rs → (out.flatMap Chunk.bytes).length ≤ rs.countP SysResult.transfers →
        ∃ rest, rioWriteAll rs (out.map Chunk.bytes) =
          (out.flatMap Chunk.bytes, .returned rest)) := by
  have hmoves := rioWriteAll_moves rs (out.map Chunk.bytes)
  rw [← List.flatMap_def] at hmoves
  refine ⟨hmoves, fun hno hlen => ?_⟩
  rw [List.flatMap_def] at hlen
  obtain ⟨sent, rest, hall⟩ := rioWriteAll_returns hno hlen
  have hsent := hmoves.all rest (by rw [hall])
  rw [hall] at hsent
  exact ⟨rest, by rw [hall, ← hsent]⟩

/-- A header and a content of three bytes each, sent in parts with an interruption in between. -/
theorem response_arrives_cut : ∃ rest,
    rioWriteAll [.moved 1, .error true, .moved 5, .moved 1, .moved 2, .moved 0, .moved 0]
        [[1, 2, 3], [4, 5, 6]] = ([1, 2, 3, 4, 5, 6], .returned rest) :=
  (response_arrives [.text [1, 2, 3], .content [4, 5, 6]]
    [.moved 1, .error true, .moved 5, .moved 1, .moved 2, .moved 0, .moved 0]).2
    (by simp) (by decide)

/-- However the reads of a file are cut and interrupted, `request_readfile` has its content in
`file_buf` when `Rio_read` returns. -/
theorem content_read {stat : Stat} {data data' : FileData} (h : readContent stat data = .ok data')
    (hsize : data'.file_size ≠ 0) (rs : List SysResult) :
    Moves data'.file_buf (rioRead rs stat.content data'.file_size.toNat) := by
  rw [readContent] at h
  generalize wrap stat.content.length = size at h
  by_cases hzero : size = 0
  · rw [if_pos hzero] at h
    cases h
    exact absurd hzero hsize
  rw [if_neg hzero] at h
  by_cases hfail : (!stat.openable || size < 0) = true
  · rw [if_pos hfail] at h
    cases h
  · rw [if_neg hfail] at h
    cases h
    exact rioRead_moves rs stat.content size.toNat

/-- Five bytes, read two and three at a time with an interruption in between. -/
theorem content_read_cut : ∃ stat data data' rs,
    readContent stat data = .ok data' ∧ data'.file_buf.length = 5 ∧
    rioRead rs stat.content data'.file_size.toNat = (data'.file_buf, .returned []) ∧
    Moves data'.file_buf (rioRead rs stat.content data'.file_size.toNat) := by
  have read : readContent ⟨true, true, true, [72, 101, 108, 108, 111]⟩ ⟨[], [], 0⟩ =
      .ok ⟨[], [72, 101, 108, 108, 111], 5⟩ := rfl
  refine ⟨_, _, _, [.moved 1, .error true, .moved 7], read, rfl, rfl, ?_⟩
  exact content_read read (by decide) _

end Ece344Lab.Webserver
