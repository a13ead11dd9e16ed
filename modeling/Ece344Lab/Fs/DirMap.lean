import Ece344Lab.Library.Slots
import Ece344Lab.Fs.Dir
import Ece344Lab.Fs.Holes
import Ece344Lab.Fs.InodeTable

/-!
# Directories as finite maps

A directory is a row of records that fills `i_size` bytes. A removed record stays in its
place with an inode number of -1, and an entry of the same length may take it over.
-/
namespace Ece344Lab.Fs

open Ece344Lab.Library

/-- The name of an entry as a C string. -/
def Dirent.str (d : Dirent) : List UInt8 := d.name.takeWhile (· ≠ 0)

/-- The number of bytes of a record. -/
def Dirent.size (d : Dirent) : Nat := sizeofDirent + d.name.length

/-- The records of a directory as the slots of a map from names to inode numbers. -/
def direntView : SlotView Dirent (List UInt8) Int where
  live d := 0 ≤ d.inodeNr
  key := Dirent.str
  val := Dirent.inodeNr

/-- A record of a directory. -/
structure Dirent.Wf (d : Dirent) : Prop where
  len : d.nameLen = d.name.length
  nul : 0 ∈ d.name
  lo : -2 ^ 31 ≤ d.inodeNr
  hi : d.inodeNr < 2 ^ 31

/-- The bytes of all the records. -/
def span (rs : List Dirent) : Nat := (rs.map Dirent.size).sum

/-- The records `rs` lie one behind the other from `off` on. -/
def Laid (st : InodeSt) : Nat → List Dirent → Prop
  | _, [] => True
  | off, r :: rs => r.Wf ∧ (∀ k, k < r.size → Stores st (off + k) (r.byte k)) ∧
      Laid st (off + r.size) rs

section Records

variable {st st' : InodeSt} {off : Nat} {r : Dirent} {pre post rs : List Dirent}

@[simp] theorem span_nil : span [] = 0 := rfl

@[simp] theorem span_cons (r : Dirent) (rs : List Dirent) : span (r :: rs) = r.size + span rs := rfl

@[simp] theorem span_append (pre post : List Dirent) : span (pre ++ post) = span pre + span post := by
  simp [span]

theorem Dirent.Wf.length_pos (h : r.Wf) : 0 < r.name.length := List.length_pos_of_mem h.nul

theorem Dirent.eight_lt_size (h : r.Wf) : 8 < r.size := by
  have := h.length_pos
  simp only [Dirent.size, sizeofDirent]
  omega

theorem laid_append : Laid st off (pre ++ post) ↔ Laid st off pre ∧ Laid st (off + span pre) post := by
  induction pre generalizing off with
  | nil => simp [Laid]
  | cons r rs ih =>
    rw [List.cons_append, Laid, Laid, ih, span_cons, ← Nat.add_assoc]
    simp only [and_assoc]

theorem Laid.length_le (h : Laid st off rs) : rs.length ≤ span rs := by
  induction rs generalizing off with
  | nil => exact Nat.le_refl 0
  | cons x rs ih =>
    have := ih h.2.2
    have := Dirent.eight_lt_size h.1
    rw [List.length_cons, span_cons]
    omega

/-- Records stay where their bytes stay. -/
theorem Laid.keep (h : Laid st off rs)
    (hkeep : ∀ p v, off ≤ p → p < off + span rs → Stores st p v → Stores st' p v) :
    Laid st' off rs := by
  induction rs generalizing off with
  | nil => trivial
  | cons x rs ih =>
    refine ⟨h.1, fun k hk => hkeep _ _ (by omega) (by rw [span_cons]; omega) (h.2.1 k hk),
      ih h.2.2 fun p v hlo hhi => hkeep p v (by omega) (by rw [span_cons]; omega)⟩

theorem Dirent.nameIs_eq (h : r.Wf) (name : List UInt8) :
    r.nameIs name = .ok (decide (r.str = name)) := by
  rw [Dirent.nameIs, cString, if_pos h.nul]
  rfl

/-- Whether a record is live and has the name. -/
def Dirent.isLive (name : List UInt8) (d : Dirent) : Bool :=
  direntView.live d && decide (d.str = name)

theorem Dirent.liveNamed_eq (h : r.Wf) (name : List UInt8) :
    r.liveNamed name = .ok (r.isLive name) := by
  rw [Dirent.liveNamed, Dirent.isLive, direntView]
  by_cases hneg : r.inodeNr < 0
  · rw [if_pos hneg]
    simp [hneg]
  · rw [if_neg hneg, Dirent.nameIs_eq h]
    simp [not_lt.mp hneg]

end Records

section Next

variable {st : InodeSt} {off : Nat} {r : Dirent} {rs : List Dirent}

theorem Dirent.byte_nameLen {k : Nat} (hk : k < 4) : r.byte k = leByte (leRep 4 r.nameLen) k :=
  if_pos hk

theorem Dirent.byte_inodeNr {k : Nat} (hk : k < 4) :
    r.byte (4 + k) = leByte (leRep 4 r.inodeNr) k := by
  rw [Dirent.byte, if_neg (by omega), if_pos (by omega), Nat.add_sub_cancel_left]

theorem Dirent.byte_name {k : Nat} (hk : k < r.name.length) : r.byte (8 + k) = r.name[k] := by
  rw [Dirent.byte, if_neg (by omega), if_neg (by omega), Nat.add_sub_cancel_left,
    List.getD_eq_getElem _ _ hk]

theorem leInt_of_bytes {f : Nat → UInt8} {x : Int} (hlo : -2 ^ 31 ≤ x) (hhi : x < 2 ^ 31)
    (h : ∀ k, k < 4 → f k = leByte (leRep 4 x) k) : leInt f 4 = x := by
  rw [leInt_congr h]
  exact leInt_leRep (by norm_num; omega) (by norm_num; omega)

/-- `testfs_next_dirent` reads a record, wherever block boundaries fall. -/
theorem testfsNextDirent_record (h0 : ∀ σ, 0 ≤ st.ptr σ) (hdir : st.ino.din.iType = InodeType.dir.val)
    (h : Laid st off (r :: rs)) (hsize : ((off + r.size : ℕ) : ℤ) ≤ st.ino.din.iSize)
    (hsmall : st.ino.din.iSize < 2 ^ 31) :
    testfsNextDirent st.ino.din st.sb.dev off = .ok (some (r, ((off + r.size : ℕ) : ℤ))) := by
  obtain ⟨hwf, hbytes, -⟩ := h
  have hpos := hwf.length_pos
  simp only [Dirent.size, sizeofDirent] at hsize hbytes ⊢
  have hin : ¬ (off : ℤ) ≥ st.ino.din.iSize := by omega
  have hlenPos : 0 < r.nameLen := by
    rw [hwf.len]
    exact_mod_cast hpos
  have hshows : ∀ o, off ≤ o → o < off + (8 + r.name.length) → Shows st o (r.byte (o - off)) := by
    intro o hlo hhi
    have hs := hbytes (o - off) (by omega)
    rw [show off + (o - off) = o by omega] at hs
    exact hs.shows
  have hhead := @testfsReadData_within st off 8 (fun o => r.byte (o - off)) h0 (fun _ => 0)
    (by norm_num) (by omega) fun o hlo hhi => hshows o hlo (by omega)
  have hname := @testfsReadData_within st (off + 8) r.name.length (fun o => r.byte (o - off)) h0
    (fun _ => 0) hpos (by omega) fun o hlo hhi => hshows o (by omega) (by omega)
  rw [if_pos (by omega)] at hhead hname
  have hlen : leInt (copied (fun _ => 0) (fun o => r.byte (o - off)) off 8) 4 = r.nameLen := by
    refine leInt_of_bytes (by rw [hwf.len]; omega) (by rw [hwf.len]; omega) fun k hk => ?_
    rw [copied, if_pos (by omega), Nat.add_sub_cancel_left]
    exact Dirent.byte_nameLen hk
  have hnr : leInt (fun k => copied (fun _ => 0) (fun o => r.byte (o - off)) off 8 (4 + k)) 4 =
      r.inodeNr := by
    refine leInt_of_bytes hwf.lo hwf.hi fun k hk => ?_
    rw [copied, if_pos (by omega), Nat.add_sub_cancel_left]
    exact Dirent.byte_inodeNr hk
  have hlist : (List.range r.name.length).map
      (copied (fun _ => 0) (fun o => r.byte (o - off)) (off + 8) r.name.length) = r.name := by
    refine List.ext_getElem (by simp) fun k hk hk' => ?_
    rw [List.getElem_map, List.getElem_range, copied, if_pos hk',
      show off + 8 + k - off = 8 + k by omega, Dirent.byte_name hk']
  have hint : toInt (8 : ℕ) = 8 := by decide
  have hint' : toInt (r.name.length : ℕ) = r.name.length := toInt_natCast (by omega)
  have hcast : (off : ℤ) + (8 : ℕ) = ((off + 8 : ℕ) : ℤ) := by push_cast; rfl
  have hnext : ((off + 8 : ℕ) : ℤ) + r.nameLen = ((off + (8 + r.name.length) : ℕ) : ℤ) := by
    rw [hwf.len]
    push_cast
    omega
  rw [testfsNextDirent, assertC_pos hdir, Program.except_ok_bind, if_neg hin]
  simp only [sizeofDirent]
  rw [hhead, Program.except_ok_bind]
  dsimp only
  rw [hint, if_neg (by norm_num), if_neg (by norm_num), hlen, hnr,
    assertC_pos hlenPos, Program.except_ok_bind, hcast, hwf.len, Int.toNat_natCast,
    hname, Program.except_ok_bind]
  dsimp only
  rw [hint', if_neg (not_lt.mpr (Int.natCast_nonneg _)), if_neg (lt_irrefl _), ← hwf.len, hnext, hlist]
  rfl

/-- Behind the last record there is nothing. -/
theorem testfsNextDirent_end (hdir : st.ino.din.iType = InodeType.dir.val)
    (hsize : st.ino.din.iSize = off) : testfsNextDirent st.ino.din st.sb.dev off = .ok none := by
  rw [testfsNextDirent, assertC_pos hdir, Program.except_ok_bind, if_pos (by omega)]
  rfl

end Next

section Search

variable {st : InodeSt} {off : Nat} {rs : List Dirent} {wanted : Dirent → Except Halt Bool}
  {w : Dirent → Bool}

/-- How a search through the records `rs` from `off` on ends. -/
def SearchEnds (w : Dirent → Bool) (rs : List Dirent) (off : Nat) (stop : Int) (res : Search) :
    Prop :=
  (∃ pre r post, rs = pre ++ r :: post ∧ (∀ x ∈ pre, w x = false) ∧ w r = true ∧
    res = .found r ((off + span pre : ℕ) : ℤ)) ∨
  ((∀ x ∈ rs, w x = false) ∧ res = .atEnd stop)

theorem searchDirent_laid (h0 : ∀ σ, 0 ≤ st.ptr σ) (hdir : st.ino.din.iType = InodeType.dir.val)
    (hsmall : st.ino.din.iSize < 2 ^ 31) (hw : ∀ r : Dirent, r.Wf → wanted r = .ok (w r))
    (h : Laid st off rs) (hsize : st.ino.din.iSize = (off + span rs : ℕ)) {n : Nat}
    (hn : rs.length < n) :
    ∃ res, searchDirent st.ino.din st.sb.dev wanted n off = .ok res ∧
      SearchEnds w rs off st.ino.din.iSize res := by
  induction rs generalizing off n with
  | nil =>
    obtain ⟨n, rfl⟩ := Nat.exists_eq_succ_of_ne_zero (Nat.ne_of_gt hn)
    have hend : st.ino.din.iSize = off := hsize
    refine ⟨.atEnd off, ?_, Or.inr ⟨fun x hx => absurd hx (List.not_mem_nil), by rw [hend]⟩⟩
    rw [searchDirent, testfsNextDirent_end hdir hend]
    rfl
  | cons r rs ih =>
    obtain ⟨n, rfl⟩ := Nat.exists_eq_succ_of_ne_zero (Nat.ne_of_gt (Nat.zero_lt_of_lt hn))
    rw [span_cons] at hsize
    rw [searchDirent, testfsNextDirent_record h0 hdir h (by omega) hsmall, Program.except_ok_bind]
    dsimp only
    rw [hw r h.1, Program.except_ok_bind]
    by_cases hr : w r = true
    · rw [if_pos hr]
      exact ⟨_, rfl, Or.inl ⟨[], r, rs, rfl, fun x hx => absurd hx (List.not_mem_nil), hr, rfl⟩⟩
    · rw [if_neg hr]
      have hno : w r = false := by simpa using hr
      obtain ⟨res, hrun, hends⟩ := ih h.2.2 (by omega) (Nat.lt_of_succ_lt_succ hn)
      refine ⟨res, hrun, ?_⟩
      rcases hends with ⟨pre, x, post, rfl, hpre, hx, rfl⟩ | ⟨hall, rfl⟩
      · refine Or.inl ⟨r :: pre, x, post, rfl, ?_, hx, ?_⟩
        · exact List.forall_mem_cons.mpr ⟨hno, hpre⟩
        · rw [span_cons, Nat.add_assoc]
      · exact Or.inr ⟨List.forall_mem_cons.mpr ⟨hno, hall⟩, rfl⟩

end Search

section InodeType

open Program (Preserves)

/-- The inode has the number `nr` and the type `t`. No write changes that. -/
def OfType (nr : Nat) (t : Int) (st : InodeSt) : Prop := st.ino.iNr = nr ∧ st.ino.din.iType = t

variable {nr : Nat} {t : Int}

theorem setDin_type {f : Dinode → Dinode} (h : ∀ d, (f d).iType = d.iType) :
    Preserves (OfType nr t) (setDin f) :=
  .modify fun s hs => ⟨hs.1, (h s.ino.din).trans hs.2⟩

theorem setDirty_type : Preserves (OfType nr t) setDirty := .modify fun _ hs => hs

theorem onSb_type {α : Type} (m : SbM α) : Preserves (OfType nr t) (onSb m) := .zoom fun _ _ hs => hs

theorem writeBlock_type (n : Int) (b : Block) : Preserves (OfType nr t) (writeBlock n b) :=
  .bind (.reads _) fun _ => .modify fun _ hs => hs

theorem testfsAllocBlockForInode_type : Preserves (OfType nr t) testfsAllocBlockForInode := by
  refine .bind (onSb_type _) fun p => ?_
  refine .ite (fun _ => ?_) fun _ => .pure _
  exact .bind (setDin_type fun _ => rfl) fun _ => .bind setDirty_type fun _ => .pure _

theorem testfsFreeBlockFromInode_type (p : Int) :
    Preserves (OfType nr t) (testfsFreeBlockFromInode p) := by
  refine .ite (fun _ => .pure _) fun _ => ?_
  exact .bind (onSb_type _) fun _ => .bind (setDin_type fun _ => rfl) fun _ => setDirty_type

theorem testfsAllocateBlock_type (l : Int) : Preserves (OfType nr t) (testfsAllocateBlock l) := by
  unfold testfsAllocateBlock allocateDouble allocateDouble.allocateEntry allocateSingle
  -- each step is one of those above, or reads the state
  repeat' first
    | with_reducible exact testfsAllocBlockForInode_type
    | with_reducible exact testfsFreeBlockFromInode_type _
    | with_reducible exact writeBlock_type _ _
    | (with_reducible refine setDin_type fun _ => ?_); rfl
    | with_reducible exact .pure _
    | with_reducible exact .reads _
    | with_reducible exact .get
    | with_reducible refine .ite (fun _ => ?_) fun _ => ?_
    | with_reducible refine .bind ?_ fun _ => ?_

theorem growSize_type (start : Int) (size : Nat) : Preserves (OfType nr t) (growSize start size) :=
  .ite (fun _ => .bind (.reads _) fun _ => .bind (setDin_type fun _ => rfl) fun _ => setDirty_type)
    fun _ => setDirty_type

theorem writeRest_type (buf : Nat → UInt8) (start blockNr blockIx : Int) (size n : Nat) :
    ∀ (i : Nat) (rem : Int),
      Preserves (OfType nr t) (writeRest buf start blockNr blockIx size n i rem) := by
  induction n with
  | zero => exact fun _ _ => .stop _
  | succ n ih =>
    intro i rem
    refine .bind (testfsAllocateBlock_type _) fun a => .ite (fun _ => ?_) fun _ => ?_
    · refine .ite (fun _ => .pure _) fun _ => .bind (.reads _) fun _ => ?_
      exact .bind (writeBlock_type _ _) fun _ => ih _ _
    · refine .ite (fun _ => ?_) fun _ => .bind (.reads _) fun _ => ?_
      · exact .bind (setDin_type fun _ => rfl) fun _ => .bind setDirty_type fun _ => .pure _
      · exact .bind (writeBlock_type _ _) fun _ => .bind (growSize_type _ _) fun _ => .pure _

theorem testfsWriteData_type (buf : Nat → UInt8) (start : Int) (size : Nat) :
    Preserves (OfType nr t) (testfsWriteData buf start size) := by
  refine .ite (fun _ => ?_) fun _ => ?_
  · refine .bind (testfsAllocateBlock_type _) fun a => .ite (fun _ => .pure _) fun _ => ?_
    refine .bind (.reads _) fun _ => .bind (writeBlock_type _ _) fun _ => ?_
    exact writeRest_type _ _ _ _ _ _ _ _
  · refine .bind (testfsAllocateBlock_type _) fun a => .ite (fun _ => .pure _) fun _ => ?_
    refine .bind (.reads _) fun _ => .bind (writeBlock_type _ _) fun _ => ?_
    exact .bind (growSize_type _ _) fun _ => .pure _

theorem testfsWriteDirent_type (name : List UInt8) (len inodeNr offset : Int) :
    Preserves (OfType nr t) (testfsWriteDirent name len inodeNr offset) :=
  .ite (fun _ => .pure _) fun _ => .bind (.reads _) fun _ => .bind (.reads _) fun _ =>
    testfsWriteData_type _ _ _

theorem testfsAddDirent_type (name : List UInt8) (inodeNr : Int) :
    Preserves (OfType nr t) (testfsAddDirent name inodeNr) := by
  refine .bind (.reads _) fun _ => .bind (.reads _) fun r => ?_
  cases r with
  | found d pOffset => exact .ite (fun _ => .pure _) fun _ => testfsWriteDirent_type _ _ _ _
  | atEnd pOffset => exact .bind (.reads _) fun _ => testfsWriteDirent_type _ _ _ _

end InodeType

/-- The directory `st`, number `dir`, has the records `rs`, and they store the map `M`. -/
structure DirHolds (D : Nat → Dinode) (dir : Nat) (st : InodeSt) (rs : List Dirent)
    (M : List UInt8 → Option Int) : Prop where
  iNr : st.ino.iNr = dir
  own : Own (st.inodes D) st.sb
  isDir : st.ino.din.iType = InodeType.dir.val
  laid : Laid st 0 rs
  size : st.ino.din.iSize = (span rs : ℕ)
  small : st.ino.din.iSize < 2 ^ 31
  maps : direntView.Maps rs M

/-- `testfs_next_dirent`, called again and again from `off` on, yields the records `rs` and then
ends at the end of the directory. -/
def Iterates (d : Dinode) (dev : Dev) : Int → List Dirent → Prop
  | off, [] => testfsNextDirent d dev off = .ok none ∧ off = d.iSize
  | off, r :: rs => ∃ next, testfsNextDirent d dev off = .ok (some (r, next)) ∧
      Iterates d dev next rs

section Holds

variable {D : Nat → Dinode} {dir : Nat} {st : InodeSt} {rs pre post : List Dirent}
  {M : List UInt8 → Option Int} {name : List UInt8}

theorem iterates_of_laid {off : Nat} (h0 : ∀ σ, 0 ≤ st.ptr σ)
    (hdir : st.ino.din.iType = InodeType.dir.val) (hsmall : st.ino.din.iSize < 2 ^ 31)
    (h : Laid st off rs) (hsize : st.ino.din.iSize = (off + span rs : ℕ)) :
    Iterates st.ino.din st.sb.dev off rs := by
  induction rs generalizing off with
  | nil => exact ⟨testfsNextDirent_end hdir hsize, hsize.symm⟩
  | cons r rs ih =>
    rw [span_cons] at hsize
    exact ⟨_, testfsNextDirent_record h0 hdir h (by omega) hsmall, ih h.2.2 (by omega)⟩

namespace DirHolds

theorem search (h : DirHolds D dir st rs M) {wanted : Dirent → Except Halt Bool} {w : Dirent → Bool}
    (hw : ∀ r : Dirent, r.Wf → wanted r = .ok (w r)) :
    ∃ res, searchDir st.ino.din st.sb.dev wanted = .ok res ∧
      SearchEnds w rs 0 st.ino.din.iSize res := by
  have hlen := h.laid.length_le
  have hsize := h.size
  exact searchDirent_laid h.own.sane.nonneg h.isDir h.small hw h.laid (by rw [hsize, Nat.zero_add])
    (by omega)

/-- The name of a record found is in the map. -/
theorem found (h : DirHolds D dir st rs M) {r : Dirent} (hr : r ∈ rs) (hlive : r.isLive name = true) :
    M name = some r.inodeNr := by
  rw [Dirent.isLive, Bool.and_eq_true, decide_eq_true_eq] at hlive
  rw [← hlive.2]
  exact h.maps.eq_some hr hlive.1

theorem missing (h : DirHolds D dir st rs M) (hall : ∀ x ∈ rs, x.isLive name = false) :
    M name = none := by
  refine h.maps.eq_none fun r hr hlive => ?_
  have hno := hall r hr
  rw [Dirent.isLive, hlive.1, decide_eq_true (show r.str = name from hlive.2)] at hno
  cases hno

/-- `testfs_dir_name_to_inode_nr` looks the name up. -/
theorem lookup (h : DirHolds D dir st rs M) (name : List UInt8) :
    testfsDirNameToInodeNr st.ino.din st.sb.dev name = .ok ((M name).getD (-ENOENT)) := by
  obtain ⟨res, hrun, hends⟩ := h.search fun r hr => Dirent.liveNamed_eq hr name
  rw [testfsDirNameToInodeNr, assertC_pos h.isDir, Program.except_ok_bind, hrun,
    Program.except_ok_bind]
  rcases hends with ⟨pre, r, post, rfl, -, hr, rfl⟩ | ⟨hall, rfl⟩
  · rw [h.found (List.mem_append_right _ List.mem_cons_self) hr]
    rfl
  · rw [h.missing hall]
    rfl

end DirHolds

/-- What a write leaves alone stays stored. -/
theorem Wrote.stores {st st' : InodeSt} {lo hi p : Nat} {f : Nat → UInt8} {v : UInt8}
    (h : Wrote D st st' lo hi f) (hp : ¬ (lo ≤ p ∧ p < hi)) (hs : Stores st p v) :
    Stores st' p v where
  mapped := by
    rw [h.keeps.ptr _ hs.mapped]
    exact hs.mapped
  onDev := h.keeps.onDev hs.mapped hs.onDev
  byte := (h.outside p hp hs.mapped).trans hs.byte

/-- Writing the record `r` between the records `pre` and `post`. -/
theorem Laid.write {st st' : InodeSt} {r : Dirent} (hpre : Laid st 0 pre)
    (hpost : Laid st (span pre + r.size) post) (hwf : r.Wf)
    (hw : Wrote D st st' (span pre) (span pre + r.size) fun off => r.byte (off - span pre)) :
    Laid st' 0 (pre ++ r :: post) := by
  rw [laid_append, Nat.zero_add]
  refine ⟨hpre.keep fun p v _ hp hs => hw.stores (by omega) hs, hwf, fun k hk => ?_,
    hpost.keep fun p v hp _ hs => hw.stores (by omega) hs⟩
  have hs := hw.inside (span pre + k) (by omega) (by omega)
  rwa [Nat.add_sub_cancel_left] at hs

theorem DirHolds.put {M' : List UInt8 → Option Int} {ret : Int} {st' : InodeSt}
    {log : List Event} (h : DirHolds D dir st rs M) (r : Dirent) (hpre : Laid st 0 pre)
    (hpost : Laid st (span pre + r.size) post) (hwf : r.Wf)
    (hsize : max st.ino.din.iSize (span pre + r.size : ℕ) = (span (pre ++ r :: post) : ℕ))
    (hmaps : direntView.Maps (pre ++ r :: post) M') (hend : span pre + r.size ≤ maxFileSize)
    (hrun : (testfsWriteData r.byte (span pre : ℕ) r.size).run st = .ok ⟨ret, st', log⟩)
    (hret : 0 ≤ ret) (hsmall : st'.ino.din.iSize < 2 ^ 31) :
    DirHolds D dir st' (pre ++ r :: post) M' := by
  obtain ⟨-, st₁, hw, rfl⟩ := (wp_testfsWriteData r.byte h.own hend).of_ok hrun hret
  have hpos : 0 < r.size := Nat.zero_lt_of_lt (Dirent.eight_lt_size hwf)
  exact
    { iNr := hw.keeps.iNr.trans h.iNr
      own := own_grow hw.keeps.own _ _
      isDir := ((testfsWriteData_type _ _ _).of_ok ⟨h.iNr, h.isDir⟩ hrun).2
      laid := (hpre.write hpost hwf hw).keep fun p v _ _ hs => hs.grow _ _
      size := by
        rw [InodeSt.grow]
        dsimp only
        rw [if_pos hpos, hw.keeps.iSize, hsize]
      small := hsmall
      maps := hmaps }

/-- The record that an entry gets. -/
def newDirent (name : List UInt8) (nr : Int) : Dirent :=
  { nameLen := name.length + 1, inodeNr := nr, name := name ++ [0] }

theorem newDirent_size (name : List UInt8) (nr : Int) :
    (newDirent name nr).size = 8 + (name.length + 1) := by
  simp [Dirent.size, newDirent, sizeofDirent]

theorem newDirent_wf {nr : Int} (h0 : 0 ≤ nr) (hnr : nr < 2 ^ 31) : (newDirent name nr).Wf where
  len := by simp [newDirent]
  nul := by simp [newDirent]
  lo := by
    change -2 ^ 31 ≤ nr
    omega
  hi := hnr

theorem newDirent_str {nr : Int} (hname : 0 ∉ name) : (newDirent name nr).str = name := by
  have hall : ∀ c ∈ name, decide (c ≠ 0) = true := fun c hc =>
    decide_eq_true fun h0 => hname (h0 ▸ hc)
  rw [Dirent.str, newDirent, List.takeWhile_append_of_pos hall]
  simp

/-- `testfs_write_dirent` writes the new record. -/
theorem testfsWriteDirent_ok {nr off ret : Int} {st' : InodeSt} {log : List Event}
    (hrun : (testfsWriteDirent name (toInt (name.length + 1 : ℕ)) nr off).run st =
      .ok ⟨ret, st', log⟩) (hret : 0 ≤ ret) :
    0 ≤ nr ∧ name.length + 1 < 2 ^ 31 ∧
      (testfsWriteData (newDirent name nr).byte off (newDirent name nr).size).run st =
        .ok ⟨ret, st', log⟩ := by
  rw [testfsWriteDirent] at hrun
  split at hrun
  · -- `malloc` fails
    cases hrun
    exact absurd hret (by decide)
  rw [Program.reads_bind] at hrun
  by_cases h0 : 0 ≤ nr
  swap
  · rw [assertC_neg h0] at hrun
    cases hrun
  rw [assertC_pos h0, Program.except_ok_bind, Program.reads_bind] at hrun
  by_cases hlen : ((name.length + 1 : ℕ) : ℤ) ≤ toInt (name.length + 1 : ℕ)
  swap
  · rw [if_neg (by exact_mod_cast hlen)] at hrun
    cases hrun
  have hsmall : name.length + 1 < 2 ^ 31 := by
    by_contra hge
    have hlt : toInt (name.length + 1 : ℕ) < 2 ^ 31 := by
      unfold toInt
      have := Int.bmod_lt (x := (name.length + 1 : ℕ)) (m := 2 ^ 32) (by norm_num)
      omega
    omega
  rw [if_pos (by exact_mod_cast hlen), Program.except_ok_bind, toInt_natCast hsmall] at hrun
  refine ⟨h0, hsmall, ?_⟩
  have hsize : toSizeT ((sizeofDirent : ℕ) + ((name.length + 1 : ℕ) : ℤ)) = 8 + (name.length + 1) := by
    rw [← Nat.cast_add, toSizeT_natCast (by simp only [sizeofDirent]; omega)]
  rw [hsize] at hrun
  rw [newDirent_size]
  exact hrun

theorem Dirent.taken_eq {r : Dirent} (h : r.Wf) (name : List UInt8) (len : Int) :
    r.taken name len =
      .ok (r.isLive name || decide (¬ (r.inodeNr ≥ 0 ∨ r.nameLen ≠ len))) := by
  rw [Dirent.taken, Dirent.liveNamed_eq h, Program.except_ok_bind]
  cases r.isLive name with
  | true => rfl
  | false => rfl

theorem add_end {o n : Nat} (ho : o < 2 ^ 31) (hn : n < 2 ^ 31) : o + (8 + n) ≤ maxFileSize := by
  simp only [maxFileSize]
  omega

/-- `testfs_add_dirent` of a name that is not there, whether it takes over a removed record or
appends one. -/
theorem DirHolds.add (h : DirHolds D dir st rs M) (hname : 0 ∉ name) {nr ret : Int} (hnr : nr < 2 ^ 31)
    (hM : M name = none) {st' : InodeSt} {log : List Event}
    (hrun : (testfsAddDirent name nr).run st = .ok ⟨ret, st', log⟩) (hret : 0 ≤ ret)
    (hsmall : st'.ino.din.iSize < 2 ^ 31) :
    ∃ rs', DirHolds D dir st' rs' (Function.update M name (some nr)) := by
  obtain ⟨res, hsearch, hends⟩ :=
    h.search fun r hr => Dirent.taken_eq hr name (toInt (name.length + 1 : ℕ))
  have hspan := h.size
  have hsmall₀ := h.small
  have hkey : direntView.key (newDirent name nr) = name := newDirent_str hname
  rw [testfsAddDirent, Program.reads_bind, assertC_pos h.isDir, Program.except_ok_bind,
    Program.reads_bind, hsearch, Program.except_ok_bind] at hrun
  rcases hends with ⟨pre, r, post, rfl, -, hr, rfl⟩ | ⟨-, rfl⟩
  · -- a removed record of the same length
    have hnot : r.isLive name = false := by
      by_contra hlive
      have := h.found (List.mem_append_right _ List.mem_cons_self) (Bool.of_not_eq_false hlive)
      rw [hM] at this
      cases this
    dsimp only at hr
    rw [hnot, Bool.false_or, decide_eq_true_eq, not_or, not_not] at hr
    obtain ⟨hdead, hlen⟩ := hr
    dsimp only at hrun
    rw [if_neg hdead] at hrun
    obtain ⟨hpre, hrest⟩ := laid_append.mp h.laid
    rw [Nat.zero_add] at hrest
    rw [span_append, span_cons] at hspan
    have hlo : span pre < 2 ^ 31 := by omega
    have hoff : toInt ((0 + span pre : ℕ) : ℤ) = (span pre : ℕ) := by
      rw [Nat.zero_add]
      exact toInt_natCast hlo
    rw [hoff] at hrun
    obtain ⟨h0, hlt, hwrite⟩ := testfsWriteDirent_ok hrun hret
    have hsize : r.size = (newDirent name nr).size := by
      have hnameLen := hrest.1.len
      rw [hlen, toInt_natCast hlt] at hnameLen
      rw [newDirent_size, Dirent.size, ← Int.ofNat_inj.mp hnameLen]
    have hpost := hrest.2.2
    have hmaps := (SlotView.maps_dead (V := direntView) (decide_eq_false hdead)).mp h.maps
    have hlive : direntView.live (newDirent name nr) = true := decide_eq_true h0
    have hins := hmaps.insert hlive (by rw [hkey]; exact hM)
    rw [hkey] at hins
    rw [hsize] at hpost hspan
    have hwf := (newDirent_wf h0 hnr : (newDirent name nr).Wf)
    refine ⟨_, h.put (newDirent name nr) hpre hpost hwf ?_ hins ?_ hwrite hret hsmall⟩
    · rw [span_append, span_cons, hspan]
      exact max_eq_left (by exact_mod_cast (show span pre + _ ≤ span pre + _ by omega))
    · rw [newDirent_size]
      exact add_end hlo hlt
  · -- the end of the directory
    dsimp only at hrun
    rw [Program.reads_bind, assertC_pos rfl, Program.except_ok_bind] at hrun
    have hlo : span rs < 2 ^ 31 := by omega
    have hoff : toInt st.ino.din.iSize = (span rs : ℕ) := by
      rw [hspan]
      exact toInt_natCast hlo
    rw [hoff] at hrun
    obtain ⟨h0, hlt, hwrite⟩ := testfsWriteDirent_ok hrun hret
    have hlive : direntView.live (newDirent name nr) = true := decide_eq_true h0
    have hmaps : direntView.Maps (rs ++ []) M := by
      rw [List.append_nil]
      exact h.maps
    have hins := hmaps.insert hlive (by rw [hkey]; exact hM)
    have hpost : Laid st (span rs + (newDirent name nr).size) [] := trivial
    rw [hkey] at hins
    have hwf := (newDirent_wf h0 hnr : (newDirent name nr).Wf)
    refine ⟨_, h.put (newDirent name nr) h.laid hpost hwf ?_ hins ?_ hwrite hret hsmall⟩
    · rw [span_append, span_cons, span_nil, hspan]
      exact max_eq_right (by exact_mod_cast (show span rs ≤ span rs + _ by omega))
    · rw [newDirent_size]
      exact add_end hlo hlt

/-- A record marked as removed. -/
def Dirent.removed (d : Dirent) : Dirent := { d with inodeNr := invalidInodeNr }

theorem Dirent.removed_wf {r : Dirent} (h : r.Wf) : r.removed.Wf :=
  ⟨h.len, h.nul, show -2 ^ 31 ≤ (-1 : ℤ) by norm_num, show (-1 : ℤ) < 2 ^ 31 by norm_num⟩

theorem removed_dead (r : Dirent) : direntView.live r.removed = false :=
  decide_eq_false (show ¬ (0 : ℤ) ≤ -1 by norm_num)

theorem span_removed (pre post : List Dirent) (r : Dirent) :
    span (pre ++ r.removed :: post) = span pre + (r.size + span post) := by
  rw [span_append, span_cons]
  rfl

/-- `testfs_remove_dirent` marks the record of the name. -/
theorem DirHolds.remove {r : Dirent} (h : DirHolds D dir st (pre ++ r :: post) M)
    (hlive : direntView.live r = true) {ret : Int} {st' : InodeSt} {log : List Event}
    (hrun : (testfsWriteData r.removed.byte (span pre : ℕ)
      (toSizeT (sizeofDirent + r.nameLen))).run st = .ok ⟨ret, st', log⟩) (hret : 0 ≤ ret) :
    ∃ rs', DirHolds D dir st' rs' (Function.update M r.str none) := by
  obtain ⟨hpre, hrest⟩ := laid_append.mp h.laid
  rw [Nat.zero_add] at hrest
  have hspan := h.size
  have hsmall := h.small
  rw [span_append, span_cons] at hspan
  have hpos : 0 < r.removed.size := Nat.zero_lt_of_lt (Dirent.eight_lt_size (Dirent.removed_wf hrest.1))
  have hbytes : toSizeT (sizeofDirent + r.nameLen) = r.removed.size := by
    have hcast : toSizeT ((r.size : ℕ) : ℤ) = r.size := toSizeT_natCast (by omega)
    rw [hrest.1.len, ← Nat.cast_add]
    exact hcast
  have hsize : max st.ino.din.iSize (span pre + r.removed.size : ℕ) =
      (span (pre ++ r.removed :: post) : ℕ) := by
    rw [span_removed, hspan]
    exact max_eq_left (by exact_mod_cast (show span pre + r.size ≤ _ by omega))
  have hend : span pre + r.removed.size ≤ maxFileSize := by
    have : span pre + r.size < 2 ^ 31 := by omega
    simp only [maxFileSize]
    exact (show span pre + r.size ≤ _ by omega)
  rw [hbytes] at hrun
  have hsmall' : st'.ino.din.iSize < 2 ^ 31 := by
    obtain ⟨-, st₁, hw, rfl⟩ := (wp_testfsWriteData _ h.own hend).of_ok hrun hret
    rw [InodeSt.grow]
    dsimp only
    rw [if_pos hpos, hw.keeps.iSize, hsize, span_removed, ← hspan]
    exact hsmall
  exact ⟨_, h.put r.removed hpre hrest.2.2 (Dirent.removed_wf hrest.1) hsize
    ((SlotView.maps_dead (removed_dead r)).mpr (h.maps.erase hlive)) hend hrun hret hsmall'⟩

end Holds

/-- The inode `dir` is in memory as `ino`, on the super block `sb`. -/
def InMemory (sb : SuperBlock) (dir : Nat) (ino : Inode) (s : FileSystem) : Prop :=
  s.sb = sb ∧ ∃ n, inodeHashFind s.hash dir = some n ∧ n.inode = ino

section Memory

variable {sb : SuperBlock} {dir : Nat} {ino : Inode} {s s' : FileSystem}

theorem testfsGetInode_inMemory (nr : Nat) :
    Program.Preserves (InMemory sb dir ino) (testfsGetInode nr) := by
  rintro s ⟨hsb, n, hn, hino⟩
  cases hnr : inodeHashFind s.hash nr with
  | some x =>
    rw [Program.wp_ok (testfsGetInode_memory hnr)]
    refine ⟨hsb, ?_⟩
    dsimp only
    rw [inodeHashFind_modify (f := fun x => { x with iCount := x.iCount + 1 }) fun _ hx => hx, hn]
    split
    · exact ⟨_, rfl, hino⟩
    · exact ⟨_, rfl, hino⟩
  | none =>
    have hne : nr ≠ dir := by
      rintro rfl
      rw [hn] at hnr
      cases hnr
    rw [testfsGetInode, Program.wp_bind, Program.wp_get, hnr]
    dsimp only
    rw [Program.wp_bind, Program.wp_reads]
    refine ⟨fun block _ => ?_, fun _ _ => trivial⟩
    rw [Program.wp_modify]
    refine ⟨hsb, n, ?_, hino⟩
    rw [inodeHashFind_insert, if_neg hne, hn]

theorem wp_testfsPutInode_inMemory (nr : Nat) (hs : InMemory sb dir ino s) :
    Program.wp (testfsPutInode nr) s
      (fun _ s' _ => s'.sb = sb ∧ ∀ n, inodeHashFind s'.hash dir = some n → n.inode = ino)
      (fun _ => True) := by
  obtain ⟨hsb, n, hn, hino⟩ := hs
  cases hnr : inodeHashFind s.hash nr with
  | none =>
    rw [Program.wp_error (testfsPutInode_none hnr)]
    trivial
  | some x =>
    cases hdirty : x.inode.dirty with
    | true =>
      rw [Program.wp_error (testfsPutInode_dirty hnr hdirty)]
      trivial
    | false =>
      rw [Program.wp_ok (testfsPutInode_clean hnr hdirty)]
      refine ⟨hsb, fun n' hn' => ?_⟩
      dsimp only [dropped] at hn'
      split at hn'
      · rw [inodeHashFind_remove] at hn'
        split at hn'
        · cases hn'
        · rw [hn] at hn'
          cases hn'
          exact hino
      · rw [inodeHashFind_modify (f := fun x => { x with iCount := x.iCount - 1 }) fun _ hx => hx,
          hn] at hn'
        split at hn'
        · cases hn'
          exact hino
        · cases hn'
          exact hino

/-- `testfs_remove_dirent_allowed` only looks. -/
theorem wp_testfsRemoveDirentAllowed (nr : Nat) (hs : InMemory sb dir ino s) :
    Program.wp (testfsRemoveDirentAllowed nr) s
      (fun _ s' _ => s'.sb = sb ∧ ∀ n, inodeHashFind s'.hash dir = some n → n.inode = ino)
      (fun _ => True) := by
  rw [testfsRemoveDirentAllowed, Program.wp_bind]
  refine (testfsGetInode_inMemory nr s hs).imp fun _ s₁ _ hs₁ => ?_
  rw [Program.wp_bind]
  refine (Program.Preserves.reads _ s₁ hs₁).imp fun ret s₂ _ hs₂ => ?_
  rw [Program.wp_bind]
  exact (wp_testfsPutInode_inMemory nr hs₂).imp fun _ _ _ h => h

end Memory

/-- A successful call on a directory. -/
inductive DirCall
  | add (name : List UInt8) (inodeNr : Int)
  | remove (name : List UInt8)

/-- What a call does to a finite map. -/
def DirCall.apply (M : List UInt8 → Option Int) : DirCall → List UInt8 → Option Int
  | .add name nr => Function.update M name (some nr)
  | .remove name => Function.update M name none

/-- The map after some calls: a name has the number of its last addition, unless it has been
removed since. -/
def entries (calls : List DirCall) : List UInt8 → Option Int := calls.foldl DirCall.apply fun _ => none

/-- The directory `dir` in memory: empty to start with; its steps are the successful calls. As
`testfs_create_file_or_dir` does, a name is looked up before it is added. -/
def dirCalls (D : Nat → Dinode) (dir : Nat) : System FileSystem DirCall where
  start s := ∃ n, inodeHashFind s.hash dir = some n ∧
    Own ((⟨s.sb, n.inode⟩ : InodeSt).inodes D) s.sb ∧ n.inode.din.iType = InodeType.dir.val ∧
    n.inode.din.iSize = 0
  step s call s' :=
    match call with
    | .add name nr => name ≠ [] ∧ 0 ∉ name ∧ nr < 2 ^ 31 ∧
      (∃ found, (onInodeRead dir fun d dev => testfsDirNameToInodeNr d dev name).run s =
        .ok ⟨found, s, []⟩ ∧ found < 0) ∧
      (∃ ret log, (onInode dir (testfsAddDirent name nr)).run s = .ok ⟨ret, s', log⟩ ∧ 0 ≤ ret) ∧
      ∀ n, inodeHashFind s'.hash dir = some n → n.inode.din.iSize < 2 ^ 31
    | .remove name => ∃ ret log, (testfsRemoveDirent dir name).run s = .ok ⟨ret, s', log⟩ ∧ 0 ≤ ret

/-- The directory in memory stores the map. -/
def DirIn (D : Nat → Dinode) (dir : Nat) (M : List UInt8 → Option Int) (s : FileSystem) : Prop :=
  ∃ n rs, inodeHashFind s.hash dir = some n ∧ DirHolds D dir ⟨s.sb, n.inode⟩ rs M

section Runs

variable {D : Nat → Dinode} {dir : Nat} {M : List UInt8 → Option Int} {s s' : FileSystem}
  {name : List UInt8} {nr ret : Int} {log : List Event} {calls : List DirCall}

/-- The directory after a program on it. -/
theorem dirIn_of_onInode {st : InodeSt} {rs : List Dirent} {n : HashNode}
    (hn : inodeHashFind s.hash dir = some n) (hsb : s'.sb = st.sb)
    (hhash : s'.hash = inodeHashModify s.hash dir fun n => { n with inode := st.ino })
    (h : DirHolds D dir st rs M) : DirIn D dir M s' := by
  refine ⟨{ n with inode := st.ino }, rs, ?_, ?_⟩
  · rw [hhash, inodeHashFind_modify fun _ _ => h.iNr, if_pos rfl, hn]
    rfl
  · rw [hsb]
    exact h

/-- `testfs_remove_dirent` returns the number that the name had. -/
theorem remove_dirIn (h : DirIn D dir M s)
    (hrun : (testfsRemoveDirent dir name).run s = .ok ⟨ret, s', log⟩) (hret : 0 ≤ ret) :
    M name = some ret ∧ DirIn D dir (Function.update M name none) s' := by
  obtain ⟨n, rs, hn, hdir⟩ := h
  obtain ⟨res, hsearch, hends⟩ := hdir.search fun r hr => Dirent.liveNamed_eq hr name
  have hread : (onInodeRead dir fun d dev => searchDir d dev (Dirent.liveNamed name)).run s =
      .ok ⟨res, s, []⟩ := Program.reads_run (by rw [hn]; exact hsearch)
  rw [testfsRemoveDirent] at hrun
  split at hrun
  · cases hrun
    exact absurd hret (by decide)
  rw [Program.bind_run_nil hread] at hrun
  rcases hends with ⟨pre, r, post, rfl, -, hr, rfl⟩ | ⟨-, rfl⟩
  swap
  · cases hrun
    exact absurd hret (by decide)
  have hfound := hdir.found (List.mem_append_right _ List.mem_cons_self) hr
  rw [Dirent.isLive, Bool.and_eq_true, decide_eq_true_eq] at hr
  dsimp only at hrun
  have hinMemory : InMemory s.sb dir n.inode s := ⟨rfl, n, hn, rfl⟩
  obtain ⟨ret₁, s₁, log₁, r₁, hallowed, hrun, hr₁⟩ := Program.bind_inv hrun
  obtain ⟨hsb, hnode⟩ := (wp_testfsRemoveDirentAllowed _ hinMemory).of_ok hallowed
  dsimp only at hsb hnode
  by_cases hneg : ret₁ < 0
  · rw [if_pos hneg] at hrun
    cases hrun
    cases hr₁
    exact absurd hret (not_le.mpr hneg)
  rw [if_neg hneg, Nat.zero_add] at hrun
  obtain ⟨ret₂, s₂, log₂, r₂, hwrite, hrun, hr₂⟩ := Program.bind_inv hrun
  obtain ⟨n₁, st', hn₁, hwrite, hsb', hhash⟩ := onInode_inv hwrite
  rw [hnode n₁ hn₁, hsb] at hwrite
  by_cases hret₂ : ret₂ ≥ 0
  · rw [if_pos hret₂] at hrun
    cases hrun
    cases hr₂
    cases hr₁
    obtain ⟨rs', hdir'⟩ := hdir.remove hr.1 hwrite hret₂
    rw [hr.2] at hdir'
    exact ⟨hfound, dirIn_of_onInode hn₁ hsb' hhash hdir'⟩
  · rw [if_neg hret₂] at hrun
    cases hrun
    cases hr₂
    cases hr₁
    exact absurd hret hret₂

/-- Every run keeps the directory a row of records that store the map of its calls. -/
theorem dirIn_run (run : (dirCalls D dir).Run calls s) : DirIn D dir (entries calls) s := by
  refine run.invariant (I := fun calls s => DirIn D dir (entries calls) s) ?_ ?_
  · rintro s ⟨n, hn, hown, hdir, hsize⟩
    exact ⟨n, [], hn, inodeHashFind_iNr hn, hown, hdir, trivial, hsize, by rw [hsize]; norm_num, .nil⟩
  · intro calls s call s' h hstep
    have hentries : entries (calls ++ [call]) = call.apply (entries calls) := by
      simp [entries]
    rw [hentries]
    cases call with
    | remove name =>
      obtain ⟨ret, log, hrun, hret⟩ := hstep
      exact (remove_dirIn h hrun hret).2
    | add name nr =>
      obtain ⟨-, hname, hnr, ⟨found, hlookup, habsent⟩, ⟨ret, log, hrun, hret⟩, hsmall⟩ := hstep
      obtain ⟨n, rs, hn, hdir⟩ := h
      obtain ⟨n₁, st', hn₁, hadd, hsb', hhash⟩ := onInode_inv hrun
      obtain rfl : n = n₁ := Option.some.inj (hn.symm.trans hn₁)
      have hM : entries calls name = none := by
        have hread : (onInodeRead dir fun d dev => testfsDirNameToInodeNr d dev name).run s =
            .ok ⟨(entries calls name).getD (-ENOENT), s, []⟩ :=
          Program.reads_run (by rw [hn]; exact hdir.lookup name)
        cases hread.symm.trans hlookup
        cases hM : entries calls name with
        | none => rfl
        | some v =>
          rw [hM] at habsent
          obtain ⟨x, -, hlive, -, hv⟩ := (hdir.maps.get name v).mp hM
          have hv0 : 0 ≤ x.inodeNr := of_decide_eq_true hlive
          exact absurd habsent (not_lt.mpr (hv ▸ hv0))
      have hiNr : st'.ino.iNr = dir :=
        ((testfsAddDirent_type _ _).of_ok ⟨hdir.iNr, hdir.isDir⟩ hadd).1
      have hn' : inodeHashFind s'.hash dir = some { n with inode := st'.ino } := by
        rw [hhash, inodeHashFind_modify fun _ _ => hiNr, if_pos rfl, hn]
        rfl
      obtain ⟨rs', hdir'⟩ := hdir.add hname hnr hM hadd hret (hsmall _ hn')
      exact dirIn_of_onInode hn hsb' hhash hdir'

/-- A directory is a finite map: its data is a row of records without a rest, a lookup finds the
number of the last addition of a name that has not been removed since, and a removal returns
that number. -/
theorem directory_is_map (run : (dirCalls D dir).Run calls s) :
    ∃ n, inodeHashFind s.hash dir = some n ∧
      (∃ rs, Iterates n.inode.din s.sb.dev 0 rs) ∧
      (∀ name, testfsDirNameToInodeNr n.inode.din s.sb.dev name =
        .ok ((entries calls name).getD (-ENOENT))) ∧
      (∀ name nr, entries calls name = some nr → 0 ≤ nr) ∧
      ∀ name ret s' log, (testfsRemoveDirent dir name).run s = .ok ⟨ret, s', log⟩ → 0 ≤ ret →
        entries calls name = some ret := by
  have h := dirIn_run run
  obtain ⟨n, rs, hn, hdir⟩ := h
  refine ⟨n, hn, ⟨rs, ?_⟩, hdir.lookup, fun name nr hnr => ?_, fun name ret s' log hrun hret => ?_⟩
  · exact_mod_cast iterates_of_laid hdir.own.sane.nonneg hdir.isDir hdir.small hdir.laid
      (by rw [hdir.size, Nat.zero_add])
  · obtain ⟨x, -, hlive, -, rfl⟩ := (hdir.maps.get name nr).mp hnr
    exact of_decide_eq_true hlive
  · exact (remove_dirIn (dirIn_run run) hrun hret).1

end Runs

/-- An empty directory on a new file system. -/
def emptyDir : InodeSt :=
  { emptyFile 128 with ino.din.iType := InodeType.dir.val }

theorem emptyDir_ptr (σ : Slot) : emptyDir.ptr σ = 0 := by
  have hsame : emptyDir.ptr σ = (emptyFile 128).ptr σ := by cases σ <;> rfl
  exact hsame.trans (emptyFile_ptr 128 σ)

theorem emptyDir_own : Own (emptyDir.inodes fun _ => Dinode.zero) emptyDir.sb where
  layout := newSuperBlock_layout 128
  accounts := by
    have hptr : ptrs (emptyDir.inodes fun _ => Dinode.zero) emptyDir.sb.dev.blocks = fun _ => 0 := by
      funext a
      obtain ⟨n, σ⟩ := a
      by_cases hn : n = emptyDir.ino.iNr
      · subst hn
        rw [ptrs, inodes_self]
        exact emptyDir_ptr σ
      · rw [ptrs, inodes_ne _ _ hn]
        exact ptr_zero σ
    have hcount : (fun n => (emptyDir.inodes (fun _ => Dinode.zero) n).blockCount) = fun _ => 0 := by
      funext n
      by_cases hn : n = emptyDir.ino.iNr
      · subst hn
        rw [inodes_self]
        rfl
      · rw [inodes_ne _ _ hn]
        rfl
    rw [hptr, hcount, show emptyDir.sb.inUse = ∅ from newSuperBlock_inUse 128]
    exact ⟨Holds.empty, fun n => by simp [share], rfl⟩

theorem emptyDir_holds : DirHolds (fun _ => Dinode.zero) 0 emptyDir [] fun _ => none :=
  ⟨rfl, emptyDir_own, rfl, trivial, rfl, by decide, .nil⟩

/-- The first entry of a directory is appended. -/
theorem emptyDir_add : ∃ r, (testfsAddDirent [97] 5).run emptyDir = .ok r ∧ 0 ≤ r.val ∧
    r.st.ino.din.iSize < 2 ^ 31 := by
  have hfree : 3 ≤ emptyDir.sb.free :=
    (show 3 ≤ 128 by decide).trans (emptyFile_free 128 (by norm_num)).ge
  obtain ⟨r, hrun, hret, -⟩ := testfsWriteData_returns emptyDir_own (newDirent [97] 5).byte
    (show 0 % 8192 + 10 ≤ 8192 by norm_num) (by decide) (by norm_num)
    (fun σ _ hne => absurd (emptyDir_ptr σ) hne) hfree
  obtain ⟨res, hsearch, hends⟩ :=
    emptyDir_holds.search fun r hr => Dirent.taken_eq hr [97] (toInt (2 : ℕ))
  have hres : res = .atEnd 0 := by
    rcases hends with ⟨pre, x, post, hnil, -⟩ | ⟨-, hres⟩
    · exact absurd (congrArg List.length hnil) (by simp)
    · exact hres
  subst hres
  have hadd : (testfsAddDirent [97] 5).run emptyDir = .ok r := by
    rw [testfsAddDirent, Program.reads_bind, assertC_pos emptyDir_holds.isDir,
      Program.except_ok_bind, Program.reads_bind]
    dsimp only [List.length_singleton, Nat.reduceAdd]
    rw [hsearch, Program.except_ok_bind]
    exact hrun
  refine ⟨r, hadd, hret, ?_⟩
  obtain ⟨-, st₁, hw, hst⟩ := (wp_testfsWriteData _ emptyDir_own (by decide)).of_ok hrun hret
  rw [hst, InodeSt.grow]
  dsimp only
  rw [if_pos (by norm_num), hw.keeps.iSize]
  decide

/-- A directory with one entry. -/
theorem directory_is_map_one :
    ∃ s, (dirCalls (fun _ => Dinode.zero) 0).Run [.add [97] 5] s ∧
      ∃ n, inodeHashFind s.hash 0 = some n ∧
        testfsDirNameToInodeNr n.inode.din s.sb.dev [97] = .ok 5 := by
  obtain ⟨s₀, hs₀⟩ : ∃ s : FileSystem,
      s = ⟨emptyDir.sb, inodeHashInsert inodeHashInit ⟨emptyDir.ino, 1⟩, 0⟩ := ⟨_, rfl⟩
  have hfind : inodeHashFind s₀.hash 0 = some ⟨emptyDir.ino, 1⟩ := by
    rw [hs₀, inodeHashFind_insert]
    exact if_pos rfl
  have hsb : s₀.sb = emptyDir.sb := by rw [hs₀]
  obtain ⟨r, hadd, hret, hsmall⟩ := emptyDir_add
  have hrun : (testfsAddDirent [97] 5).run ⟨s₀.sb, emptyDir.ino⟩ = .ok r := by
    rw [hsb]
    exact hadd
  have hstart : (dirCalls (fun _ => Dinode.zero) 0).Run [] s₀ := by
    refine .start ⟨_, hfind, ?_, rfl, rfl⟩
    rw [hsb]
    exact emptyDir_own
  have hlookup : (onInodeRead 0 fun d dev => testfsDirNameToInodeNr d dev [97]).run s₀ =
      .ok ⟨-ENOENT, s₀, []⟩ := by
    refine Program.reads_run ?_
    rw [hfind, hsb]
    exact emptyDir_holds.lookup [97]
  obtain ⟨s₁, hstep, hhash⟩ : ∃ s₁, (onInode 0 (testfsAddDirent [97] 5)).run s₀ =
      .ok ⟨r.val, s₁, r.log⟩ ∧
      s₁.hash = inodeHashModify s₀.hash 0 fun n => { n with inode := r.st.ino } :=
    ⟨_, onInode_run hfind hrun, rfl⟩
  have hiNr := ((testfsAddDirent_type _ _).of_ok ⟨emptyDir_holds.iNr, emptyDir_holds.isDir⟩ hadd).1
  have hcall : (dirCalls (fun _ => Dinode.zero) 0).step s₀ (.add [97] 5) s₁ := by
    refine ⟨by decide, by decide, by norm_num, ⟨_, hlookup, by decide⟩, ⟨_, _, hstep, hret⟩,
      fun n hn => ?_⟩
    rw [hhash, inodeHashFind_modify fun _ _ => hiNr, if_pos rfl, hfind] at hn
    cases hn
    exact hsmall
  have hrun₁ := hstart.next hcall
  obtain ⟨n, hn, -, hmap, -⟩ := directory_is_map hrun₁
  exact ⟨_, hrun₁, n, hn, hmap [97]⟩

end Ece344Lab.Fs
