import Ece344Lab.Fs.Ownership

/-!
# Allocating a block of a file

`testfs_allocate_block` fills the empty slots on the path of a logical block.
`Filled` is the state it leaves when it succeeds, `AllocOutcome` lists its
outcomes. When the free blocks run out before the last slot is filled, a table
pointer of the inode, or an entry of the double indirect table, is left behind.
-/
namespace Ece344Lab.Fs

open Ece344Lab.Library

/-- The empty slots on the path of a logical block. -/
def InodeSt.need (st : InodeSt) (l : Nat) : List Slot :=
  (path l).filter fun σ => st.ptr σ = 0

/-- The state `st'` after the slots on the path of `l` have been filled: `new` lists the
slots that were empty with their blocks. -/
structure Filled (st : InodeSt) (l : Nat) (new : List (Slot × Int)) (st' : InodeSt) : Prop where
  took : Took st st' (new.map Prod.snd)
  slots : new.map Prod.fst = st.need l
  ptr : ∀ σ, st'.ptr σ = setAll st.ptr new σ
  blocks : ∀ n : ℕ, 18 ≤ n → (n : ℤ) ∉ new.map Prod.snd →
    (∀ τ ∈ path l, τ.IsTable → st.ptr τ ≠ n) → st'.sb.dev.blocks n = st.sb.dev.blocks n
  onDev : ∀ τ ∈ path l, τ.IsTable → (st'.ptr τ).toNat < st'.sb.dev.size

section Need

variable {st : InodeSt} {l : Nat} {σ : Slot}

theorem mem_need : σ ∈ st.need l ↔ σ ∈ path l ∧ st.ptr σ = 0 := by
  simp [InodeSt.need]

theorem need_nodup (st : InodeSt) (l : Nat) : (st.need l).Nodup := (path_nodup l).filter _

end Need

/-- The slots of an inode whose tables have been written along a path. -/
theorem ptr_fill {d d' : Dinode} {blk blk' : Nat → Block} {f : Slot → Int} {l : Nat}
    (h0 : ∀ σ, 0 ≤ Fs.ptr d blk σ) (hl : l < maxBlocks)
    (hoff : ∀ σ, σ ∉ path l → f σ = Fs.ptr d blk σ)
    (hdirect : ∀ m, m < 10 → d'.blockNr m = f (.data m))
    (hind : d'.iIndirect = f .ind) (hdind : d'.iDindirect = f .dind)
    (hsame : ∀ τ, τ.IsTable → τ ∉ path l → Fs.ptr d blk τ ≠ 0 →
      blk' (Fs.ptr d blk τ).toNat = blk (Fs.ptr d blk τ).toNat)
    (hpath : ∀ τ ∈ path l, τ.IsTable → 0 < f τ ∧
      ∀ j, j < 2048 → (blk' (f τ).toNat).int j = f (τ.child j)) (σ : Slot) :
    Fs.ptr d' blk' σ = f σ := by
  have htable : ∀ τ j, τ.IsTable → j < 2048 → tableEntry blk' (f τ) j = f (τ.child j) := by
    intro τ j hτ hj
    by_cases hmem : τ ∈ path l
    · obtain ⟨hpos, hentry⟩ := hpath τ hmem hτ
      rw [tableEntry_pos hpos, hentry j hj]
    · have hchild : τ.child j ∉ path l := fun hc => hmem (mem_path_of_child hτ hj hc)
      rw [hoff τ hmem, hoff _ hchild, ptr_child hτ hj]
      by_cases hz : Fs.ptr d blk τ = 0
      · rw [hz, tableEntry_zero, tableEntry_zero]
      · have hpos : 0 < Fs.ptr d blk τ := by
          have := h0 τ
          omega
        rw [tableEntry_pos hpos, tableEntry_pos hpos, hsame τ hτ hmem hz]
  refine ptr_unique hdirect hind hdind htable (fun m hm => ?_) (fun i hi => ?_) σ
  · rw [hoff, ptr_beyond hm]
    intro hmem
    rcases mem_path.mp hmem with he | ⟨he, -⟩ | ⟨he, -⟩ | ⟨he, -⟩
    · have := Slot.data.inj he
      omega
    all_goals cases he
  · rw [hoff, ptr_tab_beyond hi]
    intro hmem
    rcases mem_path.mp hmem with he | ⟨he, -⟩ | ⟨he, -⟩ | ⟨he, -⟩
    · cases he
    · cases he
    · cases he
    · have hlt := tabOf_lt hl
      have := Slot.tab.inj he
      omega

/-- How a proof about a branch of `testfs_allocate_block` shows that it filled the path. -/
theorem filled_of {st st' : InodeSt} {l : Nat} {new : List (Slot × Int)} (hs : Sane st)
    (hl : l < maxBlocks) (took : Took st st' (new.map Prod.snd))
    (slots : new.map Prod.fst = st.need l)
    (blocks : ∀ n : ℕ, 18 ≤ n → (n : ℤ) ∉ new.map Prod.snd →
      (∀ τ ∈ path l, τ.IsTable → st.ptr τ ≠ n) → st'.sb.dev.blocks n = st.sb.dev.blocks n)
    (hdirect : ∀ m, m < 10 → st'.ino.din.blockNr m = setAll st.ptr new (.data m))
    (hind : st'.ino.din.iIndirect = setAll st.ptr new .ind)
    (hdind : st'.ino.din.iDindirect = setAll st.ptr new .dind)
    (hpath : ∀ τ ∈ path l, τ.IsTable → 0 < setAll st.ptr new τ ∧
      (setAll st.ptr new τ).toNat < st'.sb.dev.size ∧
      ∀ j, j < 2048 → (st'.sb.dev.blocks (setAll st.ptr new τ).toNat).int j =
        setAll st.ptr new (τ.child j)) : Filled st l new st' := by
  have hptr : ∀ σ, st'.ptr σ = setAll st.ptr new σ := by
    refine ptr_fill hs.nonneg hl (fun σ hσ => setAll_of_notMem fun hmem => ?_) hdirect hind hdind
      (fun τ hτ hoff hne => ?_) fun τ hmem hτ => ⟨(hpath τ hmem hτ).1, (hpath τ hmem hτ).2.2⟩
    · rw [slots, mem_need] at hmem
      exact hσ hmem.1
    · have hrange := hs.range hne
      have hcast : ((st.ptr τ).toNat : ℤ) = st.ptr τ := by omega
      refine blocks _ (show 18 ≤ (st.ptr τ).toNat by omega) ?_ fun τ' hτ' _ he => ?_
      · rw [hcast]
        exact fun hmem => took.fresh _ hmem (hs.mem τ hne)
      · rw [hcast] at he
        exact hoff (hs.inj τ τ' hne he.symm ▸ hτ')
  exact ⟨took, slots, hptr, blocks, fun τ hmem hτ => by
    rw [hptr τ]
    exact (hpath τ hmem hτ).2.1⟩

namespace Filled

variable {st st' : InodeSt} {l : Nat} {new : List (Slot × Int)} {D : Nat → Dinode}

theorem slots_nodup (h : Filled st l new st') : (new.map Prod.fst).Nodup := by
  rw [h.slots]
  exact need_nodup st l

theorem length (h : Filled st l new st') : new.length = (st.need l).length := by
  rw [← h.slots, List.length_map]

/-- Filling keeps what was there. -/
theorem ptr_old (h : Filled st l new st') {σ : Slot} (hσ : σ ∉ st.need l) :
    st'.ptr σ = st.ptr σ := by
  rw [h.ptr, setAll_of_notMem (by rwa [h.slots])]

/-- A filled slot holds a block that was free. -/
theorem ptr_new (h : Filled st l new st') {σ : Slot} (hσ : σ ∈ st.need l) :
    st'.ptr σ ∉ st.sb.inUse ∧ 146 ≤ st'.ptr σ ∧ st'.ptr σ < 1048722 ∧
      st'.ptr σ ∈ new.map Prod.snd := by
  rw [← h.slots] at hσ
  obtain ⟨a, ha, rfl⟩ := List.mem_map.mp hσ
  have hmem : a.2 ∈ new.map Prod.snd := List.mem_map_of_mem ha
  rw [h.ptr, setAll_of_mem h.slots_nodup ha]
  exact ⟨h.took.fresh _ hmem, (h.took.range _ hmem).1, (h.took.range _ hmem).2, hmem⟩

theorem ptr_ne_zero (h : Filled st l new st') {σ : Slot} (hσ : σ ∈ path l) : st'.ptr σ ≠ 0 := by
  by_cases hz : st.ptr σ = 0
  · have := (h.ptr_new (mem_need.mpr ⟨hσ, hz⟩)).2.1
    omega
  · rwa [h.ptr_old fun hmem => hz (mem_need.mp hmem).2]

/-- The blocks of the other inodes are untouched. -/
theorem blocks_of_own (h : Filled st l new st') (ho : Own (st.inodes D) st.sb) {n : Nat} {σ : Slot}
    (hn : n ≠ st.ino.iNr) (hp : Fs.ptr (D n) st.sb.dev.blocks σ ≠ 0) :
    st'.sb.dev.blocks (Fs.ptr (D n) st.sb.dev.blocks σ).toNat =
      st.sb.dev.blocks (Fs.ptr (D n) st.sb.dev.blocks σ).toNat := by
  rw [← inodes_ne st D hn] at hp ⊢
  have hrange := ho.range hp
  have hcast : ((Fs.ptr (st.inodes D n) st.sb.dev.blocks σ).toNat : ℤ) =
      Fs.ptr (st.inodes D n) st.sb.dev.blocks σ := by omega
  refine h.blocks _ (by omega) ?_ fun τ _ _ he => ?_
  · rw [hcast]
    exact fun hmem => h.took.fresh _ hmem (ho.mem hp)
  · rw [hcast] at he
    have hinj := ho.inj (n := n) (m := st.ino.iNr) (σ := σ) (τ := τ) hp
    rw [inodes_self] at hinj
    exact hn (hinj he.symm).1

/-- The slots of the other inodes are untouched. -/
theorem ptr_other (h : Filled st l new st') (ho : Own (st.inodes D) st.sb) {n : Nat}
    (hn : n ≠ st.ino.iNr) (σ : Slot) :
    Fs.ptr (D n) st'.sb.dev.blocks σ = Fs.ptr (D n) st.sb.dev.blocks σ :=
  ptr_congr (fun _ _ hp => h.blocks_of_own ho hn (by omega)) σ

/-- A successful allocation keeps block ownership. -/
theorem own (h : Filled st l new st') (ho : Own (st.inodes D) st.sb) :
    Own (st'.inodes D) st'.sb := by
  refine ⟨h.took.frame.layout ho.layout, ?_⟩
  have hself : ∀ σ, ptrs (st.inodes D) st.sb.dev.blocks (st.ino.iNr, σ) = st.ptr σ := by
    intro σ
    rw [ptrs, inodes_self]
  have hall := ho.accounts.takeAll st.ino.iNr (new.map fun a => ((st.ino.iNr, a.1), a.2))
    (fun a ha => ?_) (fun a ha => ?_) (fun a ha => ?_) ?_ ?_
  · convert hall using 1
    · funext a
      obtain ⟨n, σ⟩ := a
      rw [setAll_pair]
      by_cases hn : n = st.ino.iNr
      · subst hn
        have hi : st'.inodes D st.ino.iNr = st'.ino.din := by
          rw [← h.took.iNr, inodes_self]
        rw [if_pos rfl, ptrs, hi, funext hself]
        exact h.ptr σ
      · rw [if_neg hn, ptrs, ptrs, inodes_ne st' D (by rwa [h.took.iNr]), inodes_ne st D hn]
        exact h.ptr_other ho hn σ
    · rw [h.took.inUse, List.map_map]
      rfl
    · funext n
      rw [List.length_map]
      by_cases hn : n = st.ino.iNr
      · subst hn
        have hi : st'.inodes D st.ino.iNr = st'.ino.din := by
          rw [← h.took.iNr, inodes_self]
        rw [hi, h.took.blockCount, Function.update_self, inodes_self, List.length_map]
      · rw [Function.update_of_ne hn, inodes_ne st' D (by rwa [h.took.iNr]), inodes_ne st D hn]
    · rw [h.took.used, List.length_map, List.length_map]
  · obtain ⟨b, -, rfl⟩ := List.mem_map.mp ha
    rfl
  · obtain ⟨b, hb, rfl⟩ := List.mem_map.mp ha
    have hmem : b.1 ∈ st.need l := h.slots ▸ List.mem_map_of_mem hb
    rw [hself]
    exact (mem_need.mp hmem).2
  · obtain ⟨b, hb, rfl⟩ := List.mem_map.mp ha
    have hmem : b.2 ∈ new.map Prod.snd := List.mem_map_of_mem hb
    have hr := (h.took.range _ hmem).1
    exact ⟨h.took.fresh _ hmem, by dsimp only; omega⟩
  · rw [List.map_map]
    have hnd := h.slots_nodup.map (f := fun σ => (st.ino.iNr, σ)) (by
      intro σ τ he
      exact congrArg Prod.snd he)
    rwa [List.map_map] at hnd
  · rw [List.map_map]
    exact h.took.nodup

end Filled

/-- The entries of a table after one of them has been written. -/
theorem entries_setInt {f : Slot → Int} {b : Block} {τ : Slot} {k : Nat} {v : Int} (hk : k < 2048)
    (hv : f (τ.child k) = v) (hrange : 146 ≤ v ∧ v < 1048722)
    (hrest : ∀ j, j < 2048 → j ≠ k → b.int j = f (τ.child j)) (j : Nat) (hj : j < 2048) :
    (b.setInt k v).int j = f (τ.child j) := by
  by_cases hjk : j = k
  · subst hjk
    rw [Block.int_setInt_same _ hk (by omega) (by omega), hv]
  · rw [Block.int_setInt_ne _ _ hj hjk, hrest j hj hjk]

namespace Sane

variable {st : InodeSt}

/-- The block of a table holds the slots in it. -/
theorem int_table (h : Sane st) {τ : Slot} (hτ : τ.IsTable) (hne : st.ptr τ ≠ 0) {j : Nat}
    (hj : j < 2048) : (st.sb.dev.blocks (st.ptr τ).toNat).int j = st.ptr (τ.child j) := by
  rw [InodeSt.ptr, InodeSt.ptr, ptr_child hτ hj, tableEntry_pos (h.pos hne)]

/-- The slots in a table that does not exist are empty. -/
theorem child_missing {τ : Slot} (hτ : τ.IsTable) (hz : st.ptr τ = 0) {j : Nat} (hj : j < 2048) :
    st.ptr (τ.child j) = 0 := by
  rw [InodeSt.ptr] at hz ⊢
  rw [ptr_child hτ hj, hz, tableEntry_zero]

end Sane

/-- How `testfs_allocate_block` ends: its result, the state it leaves and its events. -/
inductive AllocOutcome (st : InodeSt) (l : Nat) : Int → InodeSt → List Event → Prop
  /-- the block exists already -/
  | mapped (h : st.ptr (.data l) ≠ 0) : AllocOutcome st l (st.ptr (.data l)) st []
  /-- the block lies beyond the largest file -/
  | beyond (h : maxBlocks ≤ l) : AllocOutcome st l (-EFBIG) st []
  /-- there is no free block at all -/
  | full (h : st.ptr (.data l) = 0) (hl : l < maxBlocks) (hfree : st.sb.free = 0)
      {log : List Event} (hlog : .allocBlockFailed ∈ log) : AllocOutcome st l (-ENOSPC) st log
  /-- the free blocks run out on the way, and a slot is left with a block that is free again -/
  | partly (h : st.ptr (.data l) = 0) (hl : l < maxBlocks) (hfree : 0 < st.sb.free)
      (hneed : st.sb.free < (st.need l).length) {st' : InodeSt} {σ : Slot} (hσ : σ ∈ path l)
      (hempty : st.ptr σ = 0) (hleft : st'.ptr σ ≠ 0) (hclear : st'.ptr σ ∉ st'.sb.inUse)
      {log : List Event} (hlog : .allocBlockFailed ∈ log) : AllocOutcome st l (-ENOSPC) st' log
  /-- the empty slots on the path have been filled -/
  | filled (h : st.ptr (.data l) = 0) (hl : l < maxBlocks) {new : List (Slot × Int)}
      {st' : InodeSt} (hf : Filled st l new st') {p : Int} (hp : st'.ptr (.data l) = p) :
      AllocOutcome st l p st' []

theorem need_single {st : InodeSt} {l : Nat} (hlo : 10 ≤ l) (hhi : l < 2058)
    (h0 : st.ptr (.data l) = 0) :
    st.need l = if st.ino.din.iIndirect = 0 then [.ind, .data l] else [.data l] := by
  have hp : path l = [.ind, .data l] := by
    rw [path, if_neg (by omega), if_pos hhi]
  rw [InodeSt.need, hp]
  split <;> simp_all

theorem path_single {l : Nat} (hlo : 10 ≤ l) (hhi : l < 2058) : path l = [.ind, .data l] := by
  rw [path, if_neg (by omega), if_pos hhi]

/-- A single indirect block that exists gets one more entry. -/
theorem filled_single {st st₁ : InodeSt} {l : Nat} {p : Int} (hs : Sane st) (hlo : 10 ≤ l)
    (hhi : l < 2058) (h0 : st.ptr (.data l) = 0) (hind : st.ino.din.iIndirect ≠ 0)
    (htook : Took st st₁ [p]) (hblocks : ∀ n, 18 ≤ n → st₁.sb.dev.blocks n = st.sb.dev.blocks n)
    (hdin : st₁.ino.din = { st.ino.din with blockCount := st.ino.din.blockCount + 1 }) :
    Filled st l [(.data l, p)] (st₁.write st.ino.din.iIndirect.toNat
      ((st.sb.dev.blocks st.ino.din.iIndirect.toNat).setInt (l - 10) p)) := by
  have hl : l < maxBlocks := by simp only [maxBlocks]; omega
  have hp := htook.range p (by simp)
  have hrange : 146 ≤ st.ino.din.iIndirect ∧ st.ino.din.iIndirect < 1048722 :=
    hs.range (σ := .ind) hind
  have hneed := need_single hlo hhi h0
  rw [if_neg hind] at hneed
  refine filled_of hs hl (htook.write (by omega) _) (by rw [hneed]; rfl) ?_ ?_ ?_ ?_ ?_
  · intro n hn _ hpath
    have hne : n ≠ st.ino.din.iIndirect.toNat := by
      rintro rfl
      exact hpath .ind (by simp [path_single hlo hhi]) trivial
        (by rw [Int.toNat_of_nonneg (by omega)]; rfl)
    rw [write_dev_blocks, if_neg hne, hblocks n hn]
  · intro m hm
    have hne : Slot.data m ≠ .data l := by simp only [ne_eq, Slot.data.injEq]; omega
    rw [write_ino, hdin, setAll_cons, setAll_nil, Function.update_of_ne hne]
    exact (ptr_direct hm).symm
  · rw [write_ino, hdin]
    rfl
  · rw [write_ino, hdin]
    rfl
  · intro τ hτ htable
    rw [path_single hlo hhi] at hτ
    rcases List.mem_cons.mp hτ with rfl | hτ
    · have hval : setAll st.ptr [(Slot.data l, p)] .ind = st.ino.din.iIndirect := rfl
      rw [hval]
      refine ⟨by omega, by rw [write_dev_size]; omega, ?_⟩
      rw [write_dev_blocks, if_pos rfl]
      refine entries_setInt (by omega) ?_ hp fun j hj hjl => ?_
      · rw [Slot.child, show 10 + (l - 10) = l by omega, setAll_cons, setAll_nil,
          Function.update_self]
      · rw [setAll_cons, setAll_nil, Function.update_of_ne (by
          simp only [Slot.child, ne_eq, Slot.data.injEq]; omega)]
        exact hs.int_table (τ := .ind) trivial hind hj
    · rw [List.mem_singleton.mp hτ] at htable
      exact htable.elim

theorem allocateSingle_exists {st : InodeSt} {l : Nat} (hs : Sane st) (hlo : 10 ≤ l)
    (hhi : l < 2058) (h0 : st.ptr (.data l) = 0) (hind : st.ino.din.iIndirect ≠ 0)
    (hdev : st.ino.din.iIndirect.toNat < st.sb.dev.size) :
    ∃ p st' log, (allocateSingle (l - 10)).run st = .ok ⟨p, st', log⟩ ∧
      AllocOutcome st l p st' log := by
  have hl : l < maxBlocks := by simp only [maxBlocks]; omega
  have hrange : 146 ≤ st.ino.din.iIndirect ∧ st.ino.din.iIndirect < 1048722 :=
    hs.range (σ := .ind) hind
  have hentry : (st.sb.dev.blocks st.ino.din.iIndirect.toNat).int (l - 10) = 0 := by
    have hptr : ptr st.ino.din st.sb.dev.blocks (.data l) =
        tableEntry st.sb.dev.blocks st.ino.din.iIndirect (l - 10) := ptr_single hlo hhi
    rw [tableEntry_pos (by omega)] at hptr
    exact hptr.symm.trans h0
  have hread : st.sb.dev.read st.ino.din.iIndirect =
      .ok (st.sb.dev.blocks st.ino.din.iIndirect.toNat) := dev_read_ok (by omega) hdev
  have hrun : (allocateSingle (l - 10)).run st =
      (testfsAllocBlockForInode >>= fun p => Program.get >>= fun s =>
        if p ≥ 0 then do
          writeBlock s.ino.din.iIndirect
            ((st.sb.dev.blocks st.ino.din.iIndirect.toNat).setInt (l - 10) p)
          return p
        else return p).run st := by
    rw [allocateSingle, Program.get_bind]
    simp only [hind, decide_false, Bool.false_eq_true, if_false, Program.reads_bind, hread,
      assertC_pos hentry, Program.except_ok_bind]
  rw [hrun]
  rcases testfsAllocBlockForInode_cases hs.counted with
    ⟨hfree, hfail⟩ | ⟨p, st₁, hok, htook, hblocks, hsize, hdin⟩
  · refine ⟨-ENOSPC, st, [.allocBlockFailed], ?_, .full h0 hl hfree (by simp)⟩
    rw [Program.bind_run_ok hfail, Program.get_bind, if_neg (by decide), Program.pure_run,
      Program.logged_ok, List.append_nil]
  · have hf := filled_single hs hlo hhi h0 hind htook hblocks hdin
    have hp := htook.range p (by simp)
    refine ⟨p, st₁.write st.ino.din.iIndirect.toNat
      ((st.sb.dev.blocks st.ino.din.iIndirect.toNat).setInt (l - 10) p), [], ?_,
      .filled h0 hl hf (by rw [hf.ptr, setAll_cons, setAll_nil, Function.update_self])⟩
    rw [Program.bind_run_nil hok, Program.get_bind, if_pos (by omega), hdin,
      Program.bind_run_nil (writeBlock_run (by dsimp only; omega) _), Program.pure_run]

/-- A new single indirect block with its first entry. -/
theorem filled_single_new {st st₂ : InodeSt} {l : Nat} {p q : Int} (hs : Sane st)
    (hlo : 10 ≤ l) (hhi : l < 2058) (h0 : st.ptr (.data l) = 0) (hind : st.ino.din.iIndirect = 0)
    (htook : Took st st₂ [p, q])
    (hblocks : ∀ n, 18 ≤ n → st₂.sb.dev.blocks n = st.sb.dev.blocks n)
    (hdir : ∀ m, st₂.ino.din.blockNr m = st.ino.din.blockNr m) (hind₂ : st₂.ino.din.iIndirect = p)
    (hdind : st₂.ino.din.iDindirect = st.ino.din.iDindirect) :
    Filled st l [(.ind, p), (.data l, q)]
      (st₂.write p.toNat (Block.zero.setInt (l - 10) q)) := by
  have hl : l < maxBlocks := by simp only [maxBlocks]; omega
  have hp := htook.range p (by simp)
  have hq := htook.range q (by simp)
  have hneed := need_single hlo hhi h0
  rw [if_pos hind] at hneed
  refine filled_of hs hl (htook.write (by omega) _) (by rw [hneed]; rfl) ?_ ?_ ?_ ?_ ?_
  · intro n hn hnew _
    have hne : n ≠ p.toNat := by
      rintro rfl
      exact hnew (by simp [Int.toNat_of_nonneg (show 0 ≤ p by omega)])
    rw [write_dev_blocks, if_neg hne, hblocks n hn]
  · intro m hm
    have hne : Slot.data m ≠ .data l := by simp only [ne_eq, Slot.data.injEq]; omega
    rw [write_ino, hdir, setAll_cons, setAll_cons, setAll_nil, Function.update_of_ne hne,
      Function.update_of_ne (by simp), InodeSt.ptr, ptr_direct hm]
  · rw [write_ino, hind₂]
    rfl
  · rw [write_ino, hdind]
    rfl
  · intro τ hτ htable
    rw [path_single hlo hhi] at hτ
    rcases List.mem_cons.mp hτ with rfl | hτ
    · have hval : setAll st.ptr [(Slot.ind, p), (Slot.data l, q)] .ind = p := rfl
      rw [hval]
      refine ⟨by omega, by rw [write_dev_size]; omega, ?_⟩
      rw [write_dev_blocks, if_pos rfl]
      refine entries_setInt (by omega) ?_ hq fun j hj hjl => ?_
      · rw [Slot.child, show 10 + (l - 10) = l by omega, setAll_cons, setAll_cons, setAll_nil,
          Function.update_self]
      · rw [Block.int_zero, setAll_cons, setAll_cons, setAll_nil, Function.update_of_ne (by
          simp only [Slot.child, ne_eq, Slot.data.injEq]; omega),
          Function.update_of_ne (by simp [Slot.child])]
        exact (Sane.child_missing (τ := .ind) trivial hind hj).symm
    · rw [List.mem_singleton.mp hτ] at htable
      exact htable.elim

theorem allocateSingle_missing {st : InodeSt} {l : Nat} (hs : Sane st) (hlo : 10 ≤ l)
    (hhi : l < 2058) (h0 : st.ptr (.data l) = 0) (hind : st.ino.din.iIndirect = 0) :
    ∃ p st' log, (allocateSingle (l - 10)).run st = .ok ⟨p, st', log⟩ ∧
      AllocOutcome st l p st' log := by
  have hl : l < maxBlocks := by simp only [maxBlocks]; omega
  have hneed := need_single hlo hhi h0
  rw [if_pos hind] at hneed
  have hzero : Block.zero.int (l - 10) = 0 := Block.int_zero _
  rw [allocateSingle, Program.get_bind]
  simp only [hind, decide_true, if_true]
  rcases testfsAllocBlockForInode_cases hs.counted with
    ⟨hfree, hfail⟩ | ⟨p, st₁, hok, htook, hblocks, hsize, hdin⟩
  · refine ⟨-ENOSPC, st, [.allocBlockFailed], ?_, .full h0 hl hfree (by simp)⟩
    rw [Program.bind_run_ok hfail, if_pos (by decide), Program.pure_run, Program.logged_ok,
      List.append_nil]
  have hp := htook.range p (by simp)
  rw [Program.bind_run_nil hok, if_neg (by omega), setDin_bind]
  simp only [Program.reads_bind, Program.except_ok_bind, assertC_pos hzero]
  have htook₁ := htook.setDin (d := { st₁.ino.din with iIndirect := p }) rfl rfl rfl
  rcases testfsAllocBlockForInode_cases (htook₁.counted hs.counted) with
    ⟨hfree, hfail⟩ | ⟨q, st₂, hok₂, htook₂, hblocks₂, hsize₂, hdin₂⟩
  · have hpmem : p ∈ st₁.sb.inUse := by
      rw [htook.inUse]
      simp
    obtain ⟨st₂, hfreed, hgave⟩ := testfsFreeBlockFromInode_run (htook₁.counted hs.counted) hpmem
    refine ⟨-ENOSPC, st₂, [.allocBlockFailed], ?_, ?_⟩
    · rw [Program.bind_run_ok hfail, Program.get_bind, if_neg (by decide),
        Program.bind_run_nil hfreed, Program.pure_run, Program.logged_ok, List.append_nil]
    · have hcount := htook.free
      have hleft : st₂.ptr .ind = p := by
        rw [InodeSt.ptr, ptr_ind, hgave.din]
      simp only [List.length_singleton] at hcount
      have hone : st₁.sb.free = 0 := hfree
      refine .partly (σ := .ind) h0 hl (by omega) ?_ (by simp [path_single hlo hhi]) hind ?_ ?_
        (by simp)
      · rw [hneed, List.length_cons, List.length_singleton]
        omega
      · rw [hleft]
        omega
      · rw [hleft, hgave.inUse]
        simp
  · have hq := htook₂.range q (by simp)
    have hind₂ : st₂.ino.din.iIndirect = p := by rw [hdin₂]
    have hf := filled_single_new hs hlo hhi h0 hind (htook₁.trans htook₂)
      (fun n hn => (hblocks₂ n hn).trans (hblocks n hn)) (fun m => by rw [hdin₂, hdin]; rfl) hind₂
      (by rw [hdin₂, hdin])
    refine ⟨q, st₂.write p.toNat (Block.zero.setInt (l - 10) q), [], ?_, .filled h0 hl hf ?_⟩
    · rw [Program.bind_run_nil hok₂, Program.get_bind, if_pos (by omega), hind₂,
        Program.bind_run_nil (writeBlock_run (by omega) _), Program.pure_run]
    · rw [hf.ptr, setAll_cons, setAll_cons, setAll_nil, Function.update_self]

theorem path_double {l : Nat} (hlo : 2058 ≤ l) : path l = [.dind, .tab (tabOf l), .data l] := by
  rw [path, if_neg (by omega), if_neg (by omega)]

theorem need_double {st : InodeSt} {l : Nat} (hlo : 2058 ≤ l) (h0 : st.ptr (.data l) = 0) :
    st.need l = (if st.ino.din.iDindirect = 0 then [.dind] else []) ++
      (if st.ptr (.tab (tabOf l)) = 0 then [.tab (tabOf l)] else []) ++ [.data l] := by
  rw [InodeSt.need, path_double hlo]
  by_cases hd : st.ino.din.iDindirect = 0 <;> by_cases ht : st.ptr (.tab (tabOf l)) = 0 <;>
    simp [hd, ht, h0]

theorem child_tab {l j : Nat} (hlo : 2058 ≤ l) (hj : j ≠ entryOf l) :
    (Slot.tab (tabOf l)).child j ≠ .data l := by
  have he := double_eq hlo
  simp only [Slot.child, ne_eq, Slot.data.injEq]
  omega

theorem child_tab_entryOf {l : Nat} (hlo : 2058 ≤ l) :
    (Slot.tab (tabOf l)).child (entryOf l) = .data l := by
  rw [Slot.child, double_eq hlo]

/-- Both tables exist: the second-level table gets one more entry. -/
theorem filled_double {st st₁ : InodeSt} {l : Nat} {p : Int} (hs : Sane st) (hlo : 2058 ≤ l)
    (hl : l < maxBlocks) (h0 : st.ptr (.data l) = 0) (hd : st.ino.din.iDindirect ≠ 0)
    (ht : st.ptr (.tab (tabOf l)) ≠ 0) (hdev : st.ino.din.iDindirect.toNat < st₁.sb.dev.size)
    (htook : Took st st₁ [p]) (hblocks : ∀ n, 18 ≤ n → st₁.sb.dev.blocks n = st.sb.dev.blocks n)
    (hdin : st₁.ino.din = { st.ino.din with blockCount := st.ino.din.blockCount + 1 }) :
    Filled st l [(.data l, p)] (st₁.write (st.ptr (.tab (tabOf l))).toNat
      ((st.sb.dev.blocks (st.ptr (.tab (tabOf l))).toNat).setInt (entryOf l) p)) := by
  have hp := htook.range p (by simp)
  have hrange := hs.range ht
  have hdrange : 146 ≤ st.ino.din.iDindirect ∧ st.ino.din.iDindirect < 1048722 :=
    hs.range (σ := .dind) hd
  have hneed := need_double hlo h0
  rw [if_neg hd, if_neg ht] at hneed
  have hdt : st.ino.din.iDindirect.toNat ≠ (st.ptr (.tab (tabOf l))).toNat := by
    intro he
    have hslot := hs.inj .dind (.tab (tabOf l)) hd (show st.ino.din.iDindirect = _ by omega)
    cases hslot
  refine filled_of hs hl (htook.write (by omega) _) (by rw [hneed]; rfl) ?_ ?_ ?_ ?_ ?_
  · intro n hn _ hpath
    have hne : n ≠ (st.ptr (.tab (tabOf l))).toNat := by
      rintro rfl
      exact hpath (.tab (tabOf l)) (by simp [path_double hlo]) (tabOf_lt hl)
        (by rw [Int.toNat_of_nonneg (by omega)])
    rw [write_dev_blocks, if_neg hne, hblocks n hn]
  · intro m hm
    have hne : Slot.data m ≠ .data l := by simp only [ne_eq, Slot.data.injEq]; omega
    rw [write_ino, hdin, setAll_cons, setAll_nil, Function.update_of_ne hne]
    exact (ptr_direct hm).symm
  · rw [write_ino, hdin]
    rfl
  · rw [write_ino, hdin]
    rfl
  · intro τ hτ htable
    rw [path_double hlo] at hτ
    simp only [setAll_cons, setAll_nil]
    rcases List.mem_cons.mp hτ with rfl | hτ
    · rw [Function.update_of_ne (by simp)]
      refine ⟨hs.pos hd, ?_, fun j hj => ?_⟩
      · rw [write_dev_size]
        exact lt_max_of_lt_left hdev
      · rw [InodeSt.ptr_dind, write_dev_blocks, if_neg hdt, hblocks _ (by omega),
          Function.update_of_ne (by simp [Slot.child])]
        exact hs.int_table (τ := .dind) trivial hd hj
    rcases List.mem_cons.mp hτ with rfl | hτ
    · rw [Function.update_of_ne (by simp)]
      refine ⟨hs.pos ht, by rw [write_dev_size]; omega, ?_⟩
      rw [write_dev_blocks, if_pos rfl]
      refine entries_setInt (entryOf_lt l) ?_ hp fun j hj hjl => ?_
      · rw [child_tab_entryOf hlo, Function.update_self]
      · rw [Function.update_of_ne (child_tab hlo hjl)]
        exact hs.int_table (τ := .tab (tabOf l)) (tabOf_lt hl) ht hj
    · rw [List.mem_singleton.mp hτ] at htable
      exact htable.elim

/-- The second-level table is new: it gets its first entry, and the double indirect table an
entry for it. -/
theorem filled_double_tab {st : InodeSt} (st₂ : InodeSt) {l : Nat} {p q : Int} (hs : Sane st)
    (hlo : 2058 ≤ l) (hl : l < maxBlocks) (h0 : st.ptr (.data l) = 0)
    (hd : st.ino.din.iDindirect ≠ 0) (ht : st.ptr (.tab (tabOf l)) = 0)
    (hdev : st.ino.din.iDindirect.toNat < st₂.sb.dev.size)
    (htook : Took st st₂ [p, q])
    (hblocks : ∀ n, 18 ≤ n → st₂.sb.dev.blocks n = if n = st.ino.din.iDindirect.toNat then
      (st.sb.dev.blocks st.ino.din.iDindirect.toNat).setInt (tabOf l) p else st.sb.dev.blocks n)
    (hdir : ∀ m, st₂.ino.din.blockNr m = st.ino.din.blockNr m)
    (hind₂ : st₂.ino.din.iIndirect = st.ino.din.iIndirect)
    (hdind : st₂.ino.din.iDindirect = st.ino.din.iDindirect) :
    Filled st l [(.tab (tabOf l), p), (.data l, q)]
      (st₂.write p.toNat (Block.zero.setInt (entryOf l) q)) := by
  have hp := htook.range p (by simp)
  have hq := htook.range q (by simp)
  have hdrange : 146 ≤ st.ino.din.iDindirect ∧ st.ino.din.iDindirect < 1048722 :=
    hs.range (σ := .dind) hd
  have hneed := need_double hlo h0
  rw [if_neg hd, if_pos ht] at hneed
  have hdp : st.ino.din.iDindirect.toNat ≠ p.toNat := by
    intro he
    have heq : p = st.ino.din.iDindirect := by omega
    exact htook.fresh p (by simp) (heq ▸ hs.mem .dind hd)
  refine filled_of hs hl (htook.write (by omega) _) (by rw [hneed]; rfl) ?_ ?_ ?_ ?_ ?_
  · intro n hn hnew hpath
    have hne : n ≠ p.toNat := by
      rintro rfl
      exact hnew (by simp [Int.toNat_of_nonneg (show 0 ≤ p by omega)])
    have hne' : n ≠ st.ino.din.iDindirect.toNat := by
      rintro rfl
      exact hpath .dind (by simp [path_double hlo]) trivial (by rw [InodeSt.ptr_dind]; omega)
    rw [write_dev_blocks, if_neg hne, hblocks n hn, if_neg hne']
  · intro m hm
    have hne : Slot.data m ≠ .data l := by simp only [ne_eq, Slot.data.injEq]; omega
    rw [write_ino, hdir, setAll_cons, setAll_cons, setAll_nil, Function.update_of_ne hne,
      Function.update_of_ne (by simp), InodeSt.ptr, ptr_direct hm]
  · rw [write_ino, hind₂]
    rfl
  · rw [write_ino, hdind]
    rfl
  · intro τ hτ htable
    rw [path_double hlo] at hτ
    simp only [setAll_cons, setAll_nil]
    rcases List.mem_cons.mp hτ with rfl | hτ
    · rw [Function.update_of_ne (by simp), Function.update_of_ne (by simp), InodeSt.ptr_dind]
      refine ⟨by omega, ?_, ?_⟩
      · rw [write_dev_size]
        exact lt_max_of_lt_left hdev
      · rw [write_dev_blocks, if_neg hdp, hblocks _ (by omega), if_pos rfl]
        refine entries_setInt (tabOf_lt hl) ?_ hp fun j hj hjl => ?_
        · rw [Slot.child, Function.update_of_ne (by simp), Function.update_self]
        · rw [Slot.child, Function.update_of_ne (by simp), Function.update_of_ne (by simpa)]
          exact hs.int_table (τ := .dind) trivial hd hj
    rcases List.mem_cons.mp hτ with rfl | hτ
    · rw [Function.update_of_ne (by simp), Function.update_self]
      refine ⟨by omega, by rw [write_dev_size]; omega, ?_⟩
      rw [write_dev_blocks, if_pos rfl]
      refine entries_setInt (entryOf_lt l) ?_ hq fun j hj hjl => ?_
      · rw [child_tab_entryOf hlo, Function.update_self]
      · rw [Block.int_zero, Function.update_of_ne (child_tab hlo hjl),
          Function.update_of_ne (by simp [Slot.child])]
        exact (Sane.child_missing (τ := .tab (tabOf l)) (tabOf_lt hl) ht hj).symm
    · rw [List.mem_singleton.mp hτ] at htable
      exact htable.elim

/-- Both tables are new. -/
theorem filled_double_new {st : InodeSt} (st₃ : InodeSt) {l : Nat} {p q r : Int} (hs : Sane st)
    (hlo : 2058 ≤ l) (hl : l < maxBlocks) (h0 : st.ptr (.data l) = 0)
    (hd : st.ino.din.iDindirect = 0) (ht : st.ptr (.tab (tabOf l)) = 0)
    (hdev : p.toNat < st₃.sb.dev.size) (htook : Took st st₃ [p, q, r])
    (hblocks : ∀ n, 18 ≤ n → st₃.sb.dev.blocks n = if n = p.toNat then
      Block.zero.setInt (tabOf l) q else st.sb.dev.blocks n)
    (hdir : ∀ m, st₃.ino.din.blockNr m = st.ino.din.blockNr m)
    (hind₃ : st₃.ino.din.iIndirect = st.ino.din.iIndirect) (hdind : st₃.ino.din.iDindirect = p) :
    Filled st l [(.dind, p), (.tab (tabOf l), q), (.data l, r)]
      (st₃.write q.toNat (Block.zero.setInt (entryOf l) r)) := by
  have hp := htook.range p (by simp)
  have hq := htook.range q (by simp)
  have hr := htook.range r (by simp)
  have hneed := need_double hlo h0
  rw [if_pos hd, if_pos ht] at hneed
  have hpq : p.toNat ≠ q.toNat := by
    have hnd := htook.nodup
    simp only [List.nodup_cons, List.mem_cons, not_or] at hnd
    have := hnd.1.1
    omega
  refine filled_of hs hl (htook.write (by omega) _) (by rw [hneed]; rfl) ?_ ?_ ?_ ?_ ?_
  · intro n hn hnew _
    have hne : n ≠ p.toNat := by
      rintro rfl
      exact hnew (by simp [Int.toNat_of_nonneg (show 0 ≤ p by omega)])
    have hne' : n ≠ q.toNat := by
      rintro rfl
      exact hnew (by simp [Int.toNat_of_nonneg (show 0 ≤ q by omega)])
    rw [write_dev_blocks, if_neg hne', hblocks n hn, if_neg hne]
  · intro m hm
    have hne : Slot.data m ≠ .data l := by simp only [ne_eq, Slot.data.injEq]; omega
    simp only [setAll_cons, setAll_nil]
    rw [write_ino, hdir, Function.update_of_ne hne, Function.update_of_ne (by simp),
      Function.update_of_ne (by simp), InodeSt.ptr, ptr_direct hm]
  · rw [write_ino, hind₃]
    rfl
  · rw [write_ino, hdind]
    rfl
  · intro τ hτ htable
    rw [path_double hlo] at hτ
    simp only [setAll_cons, setAll_nil]
    rcases List.mem_cons.mp hτ with rfl | hτ
    · rw [Function.update_of_ne (by simp), Function.update_of_ne (by simp), Function.update_self]
      refine ⟨by omega, ?_, ?_⟩
      · rw [write_dev_size]
        exact lt_max_of_lt_left hdev
      · rw [write_dev_blocks, if_neg hpq, hblocks _ (by omega), if_pos rfl]
        refine entries_setInt (tabOf_lt hl) ?_ hq fun j hj hjl => ?_
        · rw [Slot.child, Function.update_of_ne (by simp), Function.update_self]
        · rw [Block.int_zero, Slot.child, Function.update_of_ne (by simp),
            Function.update_of_ne (by simpa), Function.update_of_ne (by simp)]
          exact (Sane.child_missing (τ := .dind) trivial hd hj).symm
    rcases List.mem_cons.mp hτ with rfl | hτ
    · rw [Function.update_of_ne (by simp), Function.update_self]
      refine ⟨by omega, by rw [write_dev_size]; omega, ?_⟩
      rw [write_dev_blocks, if_pos rfl]
      refine entries_setInt (entryOf_lt l) ?_ hr fun j hj hjl => ?_
      · rw [child_tab_entryOf hlo, Function.update_self]
      · rw [Block.int_zero, Function.update_of_ne (child_tab hlo hjl),
          Function.update_of_ne (by simp [Slot.child]), Function.update_of_ne (by simp [Slot.child])]
        exact (Sane.child_missing (τ := .tab (tabOf l)) (tabOf_lt hl) ht hj).symm
    · rw [List.mem_singleton.mp hτ] at htable
      exact htable.elim

section Entry

variable {st st' : InodeSt} {m i j : Nat} {dA iA : Bool} {dd ii : Block} {p : Int}

/-- The last step of `testfs_allocate_block` when there is a block left. -/
theorem allocateEntry_ok (hi : m / nrIndirectBlocks = i) (hj : m % nrIndirectBlocks = j)
    (hii : ii.int j = 0) (hok : testfsAllocBlockForInode.run st = .ok ⟨p, st', []⟩) (hp : 0 ≤ p)
    (hdd : 0 ≤ dd.int i) :
    (allocateDouble.allocateEntry m dA iA dd ii).run st =
      .ok ⟨p, st'.write (dd.int i).toNat (ii.setInt j p), []⟩ := by
  rw [allocateDouble.allocateEntry]
  simp only [hi, hj, Program.reads_bind, assertC_pos hii, Program.except_ok_bind]
  rw [Program.bind_run_nil hok, if_neg (by omega), Program.bind_run_nil (writeBlock_run hdd _),
    Program.pure_run]

theorem allocateEntry_full (hi : m / nrIndirectBlocks = i) (hj : m % nrIndirectBlocks = j)
    (hii : ii.int j = 0)
    (hfail : testfsAllocBlockForInode.run st = .ok ⟨-ENOSPC, st', [.allocBlockFailed]⟩) :
    (allocateDouble.allocateEntry m false false dd ii).run st =
      .ok ⟨-ENOSPC, st', [.allocBlockFailed]⟩ := by
  rw [allocateDouble.allocateEntry]
  simp only [hi, hj, Program.reads_bind, assertC_pos hii, Program.except_ok_bind]
  rw [Program.bind_run_ok hfail, if_pos (by decide)]
  rfl

end Entry

theorem allocateDouble_exists {st : InodeSt} {l : Nat} (hs : Sane st) (hlo : 2058 ≤ l)
    (hl : l < maxBlocks) (h0 : st.ptr (.data l) = 0) (hd : st.ino.din.iDindirect ≠ 0)
    (ht : st.ptr (.tab (tabOf l)) ≠ 0) (hdev : PathOnDev st.ino.din st.sb.dev l) :
    ∃ p st' log, (allocateDouble (l - 2058)).run st = .ok ⟨p, st', log⟩ ∧
      AllocOutcome st l p st' log := by
  obtain ⟨hddev, htdev, -⟩ := (pathOnDev_double hlo).mp hdev
  have hdpos := hs.pos (σ := .dind) hd
  have htpos := hs.pos ht
  rw [InodeSt.ptr_dind] at hdpos
  have hent : (st.sb.dev.blocks st.ino.din.iDindirect.toNat).int (tabOf l) =
      st.ptr (.tab (tabOf l)) := hs.int_table (τ := .dind) trivial hd (tabOf_lt hl)
  have hzero : (st.sb.dev.blocks (st.ptr (.tab (tabOf l))).toNat).int (entryOf l) = 0 := by
    rw [hs.int_table (τ := .tab (tabOf l)) (tabOf_lt hl) ht (entryOf_lt l),
      child_tab_entryOf hlo, h0]
  have hi : (l - 2058) / nrIndirectBlocks = tabOf l := rfl
  have hj : (l - 2058) % nrIndirectBlocks = entryOf l := rfl
  have hbig : ¬ l - 2058 ≥ nrIndirectBlocks * nrIndirectBlocks := by
    simp only [maxBlocks] at hl
    simp only [nrIndirectBlocks]
    omega
  have hread := dev_read_ok hdpos (hddev hd)
  have hread' := dev_read_ok htpos (htdev ht)
  have hrun : (allocateDouble (l - 2058)).run st = (allocateDouble.allocateEntry (l - 2058) false
      false (st.sb.dev.blocks st.ino.din.iDindirect.toNat)
      (st.sb.dev.blocks (st.ptr (.tab (tabOf l))).toNat)).run st := by
    rw [allocateDouble]
    simp only [hi, hbig, if_false, Program.get_bind, hd, decide_false, Bool.false_eq_true,
      Program.reads_bind, hread, Program.except_ok_bind, hent, ht, hread']
  rw [hrun]
  rcases testfsAllocBlockForInode_cases hs.counted with
    ⟨hfree, hfail⟩ | ⟨p, st₁, hok, htook, hblocks, hsize, hdin⟩
  · exact ⟨-ENOSPC, st, _, allocateEntry_full hi hj hzero hfail, .full h0 hl hfree (by simp)⟩
  · have hp := htook.range p (by simp)
    have hf := filled_double hs hlo hl h0 hd ht (by rw [hsize]; exact hddev hd) htook hblocks hdin
    refine ⟨p, _, [], ?_, .filled h0 hl hf (by
      rw [hf.ptr, setAll_cons, setAll_nil, Function.update_self])⟩
    rw [allocateEntry_ok hi hj hzero hok (by omega) (by rw [hent]; omega), hent]

/-- The second-level table is missing while the double indirect table exists. -/
theorem allocateDouble_tab {st : InodeSt} {l : Nat} (hs : Sane st) (hlo : 2058 ≤ l)
    (hl : l < maxBlocks) (h0 : st.ptr (.data l) = 0) (hd : st.ino.din.iDindirect ≠ 0)
    (ht : st.ptr (.tab (tabOf l)) = 0) (hdev : st.ino.din.iDindirect.toNat < st.sb.dev.size) :
    ∃ p st' log, (allocateDouble (l - 2058)).run st = .ok ⟨p, st', log⟩ ∧
      AllocOutcome st l p st' log := by
  have hdrange : 146 ≤ st.ino.din.iDindirect ∧ st.ino.din.iDindirect < 1048722 :=
    hs.range (σ := .dind) hd
  have hneed := need_double hlo h0
  rw [if_neg hd, if_pos ht] at hneed
  have hent : (st.sb.dev.blocks st.ino.din.iDindirect.toNat).int (tabOf l) = 0 := by
    have hint := hs.int_table (τ := .dind) trivial hd (tabOf_lt hl)
    rw [Slot.child, ht] at hint
    exact hint
  have hzero : Block.zero.int (entryOf l) = 0 := Block.int_zero _
  have hi : (l - 2058) / nrIndirectBlocks = tabOf l := rfl
  have hj : (l - 2058) % nrIndirectBlocks = entryOf l := rfl
  have hbig : ¬ l - 2058 ≥ nrIndirectBlocks * nrIndirectBlocks := by
    simp only [maxBlocks] at hl
    simp only [nrIndirectBlocks]
    omega
  have hread := dev_read_ok (by omega) hdev
  rw [allocateDouble]
  simp only [hi, hbig, if_false, Program.get_bind, hd, decide_false, Bool.false_eq_true,
    Program.reads_bind, hread, Program.except_ok_bind, hent, if_true]
  rcases testfsAllocBlockForInode_cases hs.counted with
    ⟨hfree, hfail⟩ | ⟨p, st₁, hok, htook, hblocks, hsize, hdin⟩
  · refine ⟨-ENOSPC, st, [.allocBlockFailed, .allocBlockFailed], ?_, .full h0 hl hfree (by simp)⟩
    rw [Program.bind_run_ok hfail, if_pos (by decide), allocateEntry_full hi hj hzero hfail]
    rfl
  have hp := htook.range p (by simp)
  rw [Program.bind_run_nil hok, if_neg (by omega),
    Program.bind_run_nil (writeBlock_run (by omega) _)]
  have htook₁ := htook.write (n := st.ino.din.iDindirect.toNat) (by omega)
    ((st.sb.dev.blocks st.ino.din.iDindirect.toNat).setInt (tabOf l) p)
  have hpfit : -2 ^ 31 ≤ p ∧ p < 2 ^ 31 := by omega
  have hp0 : 0 ≤ p := by omega
  have hpne : p ≠ 0 := by omega
  have hdpos : 0 < st.ino.din.iDindirect := by omega
  have hd18 : 18 ≤ st.ino.din.iDindirect.toNat := by omega
  rcases testfsAllocBlockForInode_cases (htook₁.counted hs.counted) with
    ⟨hfree, hfail⟩ | ⟨q, st₂, hok₂, htook₂, hblocks₂, hsize₂, hdin₂⟩
  · have hone : st₁.sb.free = 0 := hfree
    have hcount := htook.free
    simp only [List.length_singleton] at hcount
    have hpmem : p ∈ st₁.sb.inUse := by
      rw [htook.inUse]
      simp
    have hdp : (st.ino.din.iDindirect.toNat : ℤ) ≠ p := by
      rw [Int.toNat_of_nonneg (by omega)]
      rintro rfl
      exact htook.fresh _ (by simp) (hs.mem .dind hd)
    obtain ⟨st₂, hfreed, hgave⟩ := testfsFreeBlockFromInode_run (htook₁.counted hs.counted) hpmem
    have hlt : 0 < st.sb.free ∧ st.sb.free < 2 := by omega
    have hentp := Block.int_setInt_same (st.sb.dev.blocks st.ino.din.iDindirect.toNat)
      (tabOf_lt hl) hpfit.1 hpfit.2
    refine ⟨-ENOSPC, st₂, [.allocBlockFailed], ?_, ?_⟩
    · rw [allocateDouble.allocateEntry]
      simp only [hi, hj, Program.reads_bind, assertC_pos hzero, Program.except_ok_bind,
        Bool.false_eq_true, if_false, if_true, hentp]
      rw [Program.bind_run_ok hfail, if_pos (by decide), Program.bind_run_nil hfreed]
      rfl
    · have hleft : st₂.ptr (.tab (tabOf l)) = p := by
        have hdind₂ : st₂.ino.din.iDindirect = st.ino.din.iDindirect := by
          rw [hgave.din, write_ino, hdin]
        rw [InodeSt.ptr, ptr_tab (tabOf_lt hl), hdind₂, tableEntry_pos hdpos,
          hgave.blocks _ hd18, if_neg hdp, write_dev_blocks, if_pos rfl, hentp]
      refine .partly (σ := .tab (tabOf l)) h0 hl hlt.1 ?_ (by simp [path_double hlo]) ht ?_ ?_
        (by simp)
      · rw [hneed]
        exact hlt.2
      · rwa [hleft]
      · rw [hleft, hgave.inUse]
        simp
  · have hq := htook₂.range q (by simp)
    have hf := filled_double_tab st₂ hs hlo hl h0 hd ht
      (by rw [hsize₂, write_dev_size, hsize]; exact lt_max_of_lt_left hdev) (htook₁.trans htook₂)
      (fun n hn => by
        rw [hblocks₂ n hn, write_dev_blocks]
        exact if_congr Iff.rfl rfl (hblocks n hn))
      (fun m => by rw [hdin₂, write_ino, hdin]; rfl) (by rw [hdin₂, write_ino, hdin])
      (by rw [hdin₂, write_ino, hdin])
    refine ⟨q, _, [], ?_, .filled h0 hl hf (by
      rw [hf.ptr, setAll_cons, setAll_cons, setAll_nil, Function.update_self])⟩
    have hq0 : 0 ≤ q := by omega
    have hentp := Block.int_setInt_same (st.sb.dev.blocks st.ino.din.iDindirect.toNat)
      (tabOf_lt hl) hpfit.1 hpfit.2
    rw [allocateEntry_ok hi hj hzero hok₂ hq0 (by rwa [hentp]), hentp]

/-- Both tables are missing. -/
theorem allocateDouble_missing {st : InodeSt} {l : Nat} (hs : Sane st) (hlo : 2058 ≤ l)
    (hl : l < maxBlocks) (h0 : st.ptr (.data l) = 0) (hd : st.ino.din.iDindirect = 0) :
    ∃ p st' log, (allocateDouble (l - 2058)).run st = .ok ⟨p, st', log⟩ ∧
      AllocOutcome st l p st' log := by
  have ht : st.ptr (.tab (tabOf l)) = 0 := Sane.child_missing (τ := .dind) trivial hd (tabOf_lt hl)
  have hneed := need_double hlo h0
  rw [if_pos hd, if_pos ht] at hneed
  have hzerod : Block.zero.int (tabOf l) = 0 := Block.int_zero _
  have hzero : Block.zero.int (entryOf l) = 0 := Block.int_zero _
  have hi : (l - 2058) / nrIndirectBlocks = tabOf l := rfl
  have hj : (l - 2058) % nrIndirectBlocks = entryOf l := rfl
  have hbig : ¬ l - 2058 ≥ nrIndirectBlocks * nrIndirectBlocks := by
    simp only [maxBlocks] at hl
    simp only [nrIndirectBlocks]
    omega
  rw [allocateDouble]
  simp only [hi, hbig, if_false, Program.get_bind, hd, decide_true, if_true]
  rcases testfsAllocBlockForInode_cases hs.counted with
    ⟨hfree, hfail⟩ | ⟨p, st₁, hok, htook, hblocks, hsize, hdin⟩
  · refine ⟨-ENOSPC, st, [.allocBlockFailed], ?_, .full h0 hl hfree (by simp)⟩
    rw [Program.bind_run_ok hfail, if_pos (by decide)]
    rfl
  have hp := htook.range p (by simp)
  have hcount := htook.free
  simp only [List.length_singleton] at hcount
  rw [Program.bind_run_nil hok, if_neg (by omega), setDin_bind]
  simp only [Program.get_bind, Program.reads_bind, Program.except_ok_bind, hzerod, if_true]
  have htook₁ := htook.setDin (d := { st₁.ino.din with iDindirect := p }) rfl rfl rfl
  have hpath : Slot.dind ∈ path l := by simp [path_double hlo]
  rcases testfsAllocBlockForInode_cases (htook₁.counted hs.counted) with
    ⟨hfree, hfail⟩ | ⟨q, st₂, hok₂, htook₂, hblocks₂, hsize₂, hdin₂⟩
  · have hone : st₁.sb.free = 0 := hfree
    have hpmem : p ∈ st₁.sb.inUse := by
      rw [htook.inUse]
      simp
    obtain ⟨st₂, hfreed, hgave⟩ := testfsFreeBlockFromInode_run (htook₁.counted hs.counted) hpmem
    refine ⟨-ENOSPC, st₂, [.allocBlockFailed], ?_, ?_⟩
    · rw [Program.bind_run_ok hfail, if_pos (by decide), Program.bind_run_nil hfreed]
      rfl
    · have hleft : st₂.ptr .dind = p := by rw [InodeSt.ptr_dind, hgave.din]
      refine .partly (σ := .dind) h0 hl (by omega) ?_ hpath hd ?_ ?_ (by simp)
      · rw [hneed]
        simp only [List.length_append, List.length_singleton]
        omega
      · rw [hleft]
        omega
      · rw [hleft, hgave.inUse]
        simp
  have hq := htook₂.range q (by simp)
  have hcount₂ := htook₂.free
  have hdind₂ : st₂.ino.din.iDindirect = p := by rw [hdin₂]
  simp only [List.length_singleton] at hcount₂
  rw [Program.bind_run_nil hok₂, if_neg (by omega),
    Program.bind_run_nil (writeBlock_run (by omega) _)]
  have hqfit : -2 ^ 31 ≤ q ∧ q < 2 ^ 31 := by omega
  have hq0 : 0 ≤ q := by omega
  have htook₂' := (htook₁.trans htook₂).write (n := p.toNat) (by omega)
    (Block.zero.setInt (tabOf l) q)
  rcases testfsAllocBlockForInode_cases (htook₂'.counted hs.counted) with
    ⟨hfree, hfail⟩ | ⟨r, st₃, hok₃, htook₃, hblocks₃, hsize₃, hdin₃⟩
  · have htwo : st₂.sb.free = 0 := hfree
    have htwo' : st₂.sb.free + 1 = st₁.sb.free := hcount₂
    have hpne : p ≠ q := by
      have hnd := htook₂'.nodup
      simp only [List.singleton_append, List.nodup_cons, List.mem_singleton] at hnd
      exact hnd.1
    have hmem : st₂.sb.inUse = {q} ∪ ({p} ∪ st.sb.inUse) := by
      have h₂ := htook₂.inUse
      have h₁ : st₁.sb.inUse = [p].toFinset ∪ st.sb.inUse := htook.inUse
      rw [h₂]
      change [q].toFinset ∪ st₁.sb.inUse = _
      rw [h₁]
      simp
    have hqmem : q ∈ st₂.sb.inUse := by rw [hmem]; simp
    obtain ⟨st₃, hfreed, hgave⟩ := testfsFreeBlockFromInode_run (htook₂'.counted hs.counted) hqmem
    have hpmem : p ∈ st₃.sb.inUse := by
      rw [hgave.inUse]
      change p ∈ st₂.sb.inUse.erase q
      rw [hmem]
      simp [hpne]
    have hdind₃ : st₃.ino.din.iDindirect = p := by rw [hgave.din, write_ino, hdind₂]
    obtain ⟨st₄, hfreed₄, hgave₄⟩ := testfsFreeBlockFromInode_run
      (hgave.counted (htook₂'.counted hs.counted) hqmem) hpmem
    have hlt : 0 < st.sb.free ∧ st.sb.free < 3 := by omega
    have hp0 : p ≠ 0 := by omega
    have hentq := Block.int_setInt_same Block.zero (tabOf_lt hl) hqfit.1 hqfit.2
    refine ⟨-ENOSPC, st₄, [.allocBlockFailed], ?_, ?_⟩
    · rw [allocateDouble.allocateEntry]
      simp only [hi, hj, Program.reads_bind, assertC_pos hzero, Program.except_ok_bind, if_true,
        hentq]
      rw [Program.bind_run_ok hfail, if_pos (by decide), Program.bind_run_nil hfreed,
        Program.get_bind, hdind₃, Program.bind_run_nil hfreed₄]
      rfl
    · have hleft : st₄.ptr .dind = p := by rw [InodeSt.ptr_dind, hgave₄.din, hdind₃]
      refine .partly (σ := .dind) h0 hl (by omega) ?_ hpath hd ?_ ?_ (by simp)
      · rw [hneed]
        simp only [List.length_append, List.length_singleton]
        omega
      · rw [hleft]
        omega
      · rw [hleft, hgave₄.inUse]
        simp
  · have hr := htook₃.range r (by simp)
    have hf := filled_double_new st₃ hs hlo hl h0 hd ht
      (by rw [hsize₃, write_dev_size]; omega) (htook₂'.trans htook₃)
      (fun n hn => by
        rw [hblocks₃ n hn, write_dev_blocks]
        exact if_congr Iff.rfl rfl ((hblocks₂ n hn).trans (hblocks n hn)))
      (fun m => by rw [hdin₃, write_ino, hdin₂, hdin]; rfl)
      (by rw [hdin₃, write_ino, hdin₂, hdin]) (by rw [hdin₃, write_ino, hdin₂])
    refine ⟨r, _, [], ?_, .filled h0 hl hf (by
      rw [hf.ptr, setAll_cons, setAll_cons, setAll_cons, setAll_nil, Function.update_self])⟩
    have hr0 : 0 ≤ r := by omega
    have hentq := Block.int_setInt_same Block.zero (tabOf_lt hl) hqfit.1 hqfit.2
    rw [allocateEntry_ok hi hj hzero hok₃ hr0 (by rwa [hentq]), hentq]

end Ece344Lab.Fs
