import Ece344Lab.Fs.Allocator
import Ece344Lab.Fs.ReadWrite

/-!
# The block pointers of an inode

An inode keeps block numbers in slots: ten direct entries and two table pointers
in the inode, the rest in tables on disk. `ptr` is the block number in a slot, 0
for an empty one. Everything that `testfs_read_block` computes is stated with
it, so that later modules never look at table bytes again.
-/
namespace Ece344Lab.Fs

open Ece344Lab.Library

/-- The number of logical blocks of the largest file. -/
abbrev maxBlocks : Nat := 4196362

/-- A place where an inode keeps a block number: the entry of logical block `l`, the two
tables of the inode, and entry `i` of the double indirect table. -/
inductive Slot
  | data (l : Nat)
  | ind
  | dind
  | tab (i : Nat)
  deriving DecidableEq

/-- The blocks behind these slots hold block numbers. -/
def Slot.IsTable : Slot → Prop
  | .data _ => False
  | .tab i => i < 2048
  | _ => True

/-- The slot that is entry `j` of the table in slot `σ`. -/
def Slot.child : Slot → Nat → Slot
  | .ind, j => .data (10 + j)
  | .dind, j => .tab j
  | .tab i, j => .data (2058 + 2048 * i + j)
  | .data l, _ => .data l

/-- The second-level table of a logical block, and its entry there. -/
def tabOf (l : Nat) : Nat := (l - 2058) / 2048
def entryOf (l : Nat) : Nat := (l - 2058) % 2048

/-- The slots that have to be filled to map a logical block, outermost first. -/
def path (l : Nat) : List Slot :=
  if l < 10 then [.data l]
  else if l < 2058 then [.ind, .data l]
  else [.dind, .tab (tabOf l), .data l]

/-- Entry `i` of the table in block `p`, 0 if there is no table. -/
def tableEntry (blk : Nat → Block) (p : Int) (i : Nat) : Int :=
  if 0 < p then (blk p.toNat).int i else 0

/-- The block number in a slot. -/
def ptr (d : Dinode) (blk : Nat → Block) : Slot → Int
  | .ind => d.iIndirect
  | .dind => d.iDindirect
  | .tab i => if i < 2048 then tableEntry blk d.iDindirect i else 0
  | .data l =>
    if l < 10 then d.blockNr l
    else if l < 2058 then tableEntry blk d.iIndirect (l - 10)
    else if l < maxBlocks then tableEntry blk (tableEntry blk d.iDindirect (tabOf l)) (entryOf l)
    else 0

section Ptr

variable {d : Dinode} {blk : Nat → Block} {l : Nat}

@[simp] theorem ptr_ind : ptr d blk .ind = d.iIndirect := rfl

@[simp] theorem ptr_dind : ptr d blk .dind = d.iDindirect := rfl

theorem ptr_tab {i : Nat} (hi : i < 2048) : ptr d blk (.tab i) = tableEntry blk d.iDindirect i :=
  if_pos hi

theorem ptr_direct (hl : l < 10) : ptr d blk (.data l) = d.blockNr l := if_pos hl

theorem ptr_single (hlo : 10 ≤ l) (hhi : l < 2058) :
    ptr d blk (.data l) = tableEntry blk d.iIndirect (l - 10) := by
  rw [ptr, if_neg (by omega), if_pos hhi]

theorem tabOf_lt (h : l < maxBlocks) : tabOf l < 2048 := by
  simp only [maxBlocks] at h
  unfold tabOf
  omega

theorem entryOf_lt (l : Nat) : entryOf l < 2048 := Nat.mod_lt _ (by decide)

theorem ptr_double (hlo : 2058 ≤ l) (hhi : l < maxBlocks) :
    ptr d blk (.data l) = tableEntry blk (ptr d blk (.tab (tabOf l))) (entryOf l) := by
  rw [ptr_tab (tabOf_lt hhi), ptr, if_neg (by omega), if_neg (by omega), if_pos hhi]

theorem ptr_beyond (h : maxBlocks ≤ l) : ptr d blk (.data l) = 0 := by
  simp only [maxBlocks] at h
  rw [ptr, if_neg (by omega), if_neg (by omega), if_neg (by simp only [maxBlocks]; omega)]

theorem ptr_tab_beyond {i : Nat} (h : 2048 ≤ i) : ptr d blk (.tab i) = 0 := if_neg (by omega)

theorem tableEntry_pos {p : Int} (h : 0 < p) (i : Nat) :
    tableEntry blk p i = (blk p.toNat).int i := if_pos h

theorem tableEntry_nonpos {p : Int} (h : p ≤ 0) (i : Nat) : tableEntry blk p i = 0 :=
  if_neg (by omega)

@[simp] theorem tableEntry_zero (i : Nat) : tableEntry blk 0 i = 0 := rfl

/-- An inode without block numbers holds nothing. -/
theorem ptr_zero (σ : Slot) : ptr Dinode.zero blk σ = 0 := by
  cases σ with
  | data l =>
    have hnr : Dinode.zero.blockNr l = 0 := by
      unfold Dinode.blockNr
      split <;> rfl
    simp only [ptr, hnr]
    simp [Dinode.zero]
  | tab i => simp [ptr, Dinode.zero]
  | _ => rfl

/-- Only the tables of an inode matter for its slots. -/
theorem ptr_congr {blk' : Nat → Block}
    (h : ∀ σ, σ.IsTable → 0 < ptr d blk σ →
      blk' (ptr d blk σ).toNat = blk (ptr d blk σ).toNat) (σ : Slot) :
    ptr d blk' σ = ptr d blk σ := by
  have hind : ∀ i, tableEntry blk' d.iIndirect i = tableEntry blk d.iIndirect i := by
    intro i
    by_cases hp : 0 < d.iIndirect
    · have hb := h .ind trivial hp
      rw [ptr_ind] at hb
      rw [tableEntry_pos hp, tableEntry_pos hp, hb]
    · rw [tableEntry_nonpos (by omega), tableEntry_nonpos (by omega)]
  have hdind : ∀ i, tableEntry blk' d.iDindirect i = tableEntry blk d.iDindirect i := by
    intro i
    by_cases hp : 0 < d.iDindirect
    · have hb := h .dind trivial hp
      rw [ptr_dind] at hb
      rw [tableEntry_pos hp, tableEntry_pos hp, hb]
    · rw [tableEntry_nonpos (by omega), tableEntry_nonpos (by omega)]
  have htab : ∀ i, ptr d blk' (.tab i) = ptr d blk (.tab i) := by
    intro i
    simp only [ptr, hdind]
  cases σ with
  | ind => rfl
  | dind => rfl
  | tab i => exact htab i
  | data l =>
    by_cases h10 : l < 10
    · rw [ptr_direct h10, ptr_direct h10]
    by_cases h2058 : l < 2058
    · rw [ptr_single (by omega) h2058, ptr_single (by omega) h2058, hind]
    by_cases hmax : l < maxBlocks
    · rw [ptr_double (by omega) hmax, ptr_double (by omega) hmax, htab]
      by_cases hp : 0 < ptr d blk (.tab (tabOf l))
      · rw [tableEntry_pos hp, tableEntry_pos hp, h (.tab (tabOf l)) (tabOf_lt hmax) hp]
      · rw [tableEntry_nonpos (by omega), tableEntry_nonpos (by omega)]
    · rw [ptr_beyond (by omega), ptr_beyond (by omega)]

theorem tabOf_add {i j : Nat} (hj : j < 2048) : tabOf (2058 + 2048 * i + j) = i := by
  unfold tabOf
  omega

theorem entryOf_add {i j : Nat} (hj : j < 2048) : entryOf (2058 + 2048 * i + j) = j := by
  unfold entryOf
  omega

theorem double_eq (hlo : 2058 ≤ l) : 2058 + 2048 * tabOf l + entryOf l = l := by
  unfold tabOf entryOf
  omega

/-- The slots in a table are its entries. -/
theorem ptr_child {τ : Slot} (hτ : τ.IsTable) {j : Nat} (hj : j < 2048) :
    ptr d blk (τ.child j) = tableEntry blk (ptr d blk τ) j := by
  cases τ with
  | data l => exact hτ.elim
  | ind => rw [Slot.child, ptr_single (by omega) (by omega), ptr_ind, Nat.add_sub_cancel_left]
  | dind => exact ptr_tab hj
  | tab i =>
    have hi : i < 2048 := hτ
    rw [Slot.child, ptr_double (by omega) (by simp only [maxBlocks]; omega), tabOf_add hj,
      entryOf_add hj]

/-- The slots are determined by the fields of the inode and the entries of its tables. -/
theorem ptr_unique {f : Slot → Int} (hdirect : ∀ l, l < 10 → d.blockNr l = f (.data l))
    (hind : d.iIndirect = f .ind) (hdind : d.iDindirect = f .dind)
    (htable : ∀ τ j, τ.IsTable → j < 2048 → tableEntry blk (f τ) j = f (τ.child j))
    (hdata : ∀ l, maxBlocks ≤ l → f (.data l) = 0)
    (htabs : ∀ i, 2048 ≤ i → f (.tab i) = 0) (σ : Slot) : ptr d blk σ = f σ := by
  have htab : ∀ i, ptr d blk (.tab i) = f (.tab i) := by
    intro i
    by_cases hi : i < 2048
    · rw [ptr_tab hi, hdind]
      exact htable .dind i trivial hi
    · rw [ptr_tab_beyond (by omega), htabs i (by omega)]
  cases σ with
  | ind => exact hind
  | dind => exact hdind
  | tab i => exact htab i
  | data l =>
    by_cases h10 : l < 10
    · rw [ptr_direct h10, hdirect l h10]
    by_cases h2058 : l < 2058
    · have hentry := htable .ind (l - 10) trivial (by omega)
      rw [Slot.child, show 10 + (l - 10) = l by omega] at hentry
      rw [ptr_single (by omega) h2058, hind, hentry]
    by_cases hmax : l < maxBlocks
    · have hentry := htable (.tab (tabOf l)) (entryOf l) (tabOf_lt hmax) (entryOf_lt l)
      rw [Slot.child, double_eq (by omega)] at hentry
      rw [ptr_double (by omega) hmax, htab, hentry]
    · rw [ptr_beyond (by omega), hdata l (by omega)]

end Ptr

theorem mem_path_data (l : Nat) : .data l ∈ path l := by
  unfold path
  split <;> [skip; split] <;> simp

theorem mem_path {l : Nat} {σ : Slot} :
    σ ∈ path l ↔ σ = .data l ∨ (σ = .ind ∧ 10 ≤ l ∧ l < 2058) ∨
      (σ = .dind ∧ 2058 ≤ l) ∨ (σ = .tab (tabOf l) ∧ 2058 ≤ l) := by
  unfold path
  by_cases h10 : l < 10
  · have h1 : ¬ 10 ≤ l := by omega
    have h2 : ¬ 2058 ≤ l := by omega
    simp [h10, h1, h2]
  by_cases h2058 : l < 2058
  · have h1 : 10 ≤ l := by omega
    have h2 : ¬ 2058 ≤ l := by omega
    simp [h10, h2058, h1, h2, or_comm]
  · have h2 : 2058 ≤ l := by omega
    simp only [h10, h2058, h2, if_false, List.mem_cons, List.not_mem_nil, or_false, and_true,
      and_false, false_or]
    tauto

/-- A slot in a table is on a path only together with the table. -/
theorem mem_path_of_child {τ : Slot} (hτ : τ.IsTable) {j l : Nat} (hj : j < 2048)
    (h : τ.child j ∈ path l) : τ ∈ path l := by
  cases τ with
  | data l => exact hτ.elim
  | ind =>
    rcases mem_path.mp h with he | ⟨he, -, -⟩ | ⟨he, -⟩ | ⟨he, -⟩
    · have hl : 10 + j = l := Slot.data.inj he
      exact mem_path.mpr (Or.inr (Or.inl ⟨rfl, by omega, by omega⟩))
    all_goals cases he
  | dind =>
    rcases mem_path.mp h with he | ⟨he, -, -⟩ | ⟨he, -⟩ | ⟨-, hl⟩
    · cases he
    · cases he
    · cases he
    · exact mem_path.mpr (Or.inr (Or.inr (Or.inl ⟨rfl, hl⟩)))
  | tab i =>
    rcases mem_path.mp h with he | ⟨he, -, -⟩ | ⟨he, -⟩ | ⟨he, -⟩
    · have hl : 2058 + 2048 * i + j = l := Slot.data.inj he
      refine mem_path.mpr (Or.inr (Or.inr (Or.inr ⟨?_, by omega⟩)))
      rw [← hl, tabOf_add hj]
    all_goals cases he

theorem path_nodup (l : Nat) : (path l).Nodup := by
  unfold path
  split <;> [skip; split] <;> simp

/-- A mapped block has every table on its path. -/
theorem ptr_path_ne_zero {d : Dinode} {blk : Nat → Block} {l : Nat}
    (h : ptr d blk (.data l) ≠ 0) {σ : Slot} (hσ : σ ∈ path l) : ptr d blk σ ≠ 0 := by
  have hmax : l < maxBlocks := by
    by_contra hge
    exact h (ptr_beyond (by omega))
  rcases mem_path.mp hσ with rfl | ⟨rfl, hlo, hhi⟩ | ⟨rfl, hlo⟩ | ⟨rfl, hlo⟩
  · exact h
  · rw [ptr_single hlo hhi] at h
    intro h0
    exact h (tableEntry_nonpos (by rw [ptr_ind] at h0; omega) _)
  · rw [ptr_double hlo hmax, ptr_tab (tabOf_lt hmax)] at h
    intro h0
    rw [ptr_dind] at h0
    rw [h0] at h
    exact h rfl
  · rw [ptr_double hlo hmax] at h
    intro h0
    rw [h0] at h
    exact h rfl

/-- The blocks on the path of `l` that exist lie on the device. -/
def PathOnDev (d : Dinode) (dev : Dev) (l : Nat) : Prop :=
  ∀ σ ∈ path l, ptr d dev.blocks σ ≠ 0 → (ptr d dev.blocks σ).toNat < dev.size

/-- A hole whose second-level table is missing while the double indirect table exists. -/
def ShowsTable (d : Dinode) (blk : Nat → Block) (l : Nat) : Prop :=
  2058 ≤ l ∧ l < maxBlocks ∧ d.iDindirect ≠ 0 ∧ ptr d blk (.tab (tabOf l)) = 0

instance (d : Dinode) (blk : Nat → Block) (l : Nat) : Decidable (ShowsTable d blk l) :=
  inferInstanceAs (Decidable (_ ∧ _))

/-- What `testfs_read_block` leaves in the buffer for logical block `l`. A hole reads as
zeros, except that the double indirect table stays in the buffer when the second-level table
is missing. -/
def page (d : Dinode) (blk : Nat → Block) (l : Nat) : Block :=
  if ptr d blk (.data l) ≠ 0 then blk (ptr d blk (.data l)).toNat
  else if ShowsTable d blk l then blk d.iDindirect.toNat
  else Block.zero

theorem page_mapped {d : Dinode} {blk : Nat → Block} {l : Nat} (h : ptr d blk (.data l) ≠ 0) :
    page d blk l = blk (ptr d blk (.data l)).toNat := if_pos h

theorem page_hole {d : Dinode} {blk : Nat → Block} {l : Nat} (h : ptr d blk (.data l) = 0)
    (ht : ¬ ShowsTable d blk l) : page d blk l = Block.zero := by
  rw [page, if_neg (by simpa using h), if_neg ht]

section Read

variable {d : Dinode} {dev : Dev} {l : Nat}

theorem dev_read_ok {p : Int} (h0 : 0 < p) (h : p.toNat < dev.size) :
    dev.read p = .ok (dev.blocks p.toNat) := by
  rw [Dev.read, if_neg (by omega), if_pos h]

theorem dev_read_short {p : Int} (h0 : 0 < p) (h : ¬ p.toNat < dev.size) :
    dev.read p = .error .exitFread := by
  rw [Dev.read, if_neg (by omega), if_neg h]

theorem readPhyBlock_ok {p : Int} (h0 : 0 ≤ p) (h : p ≠ 0 → p.toNat < dev.size) :
    readPhyBlock dev p = .ok (p, if p ≠ 0 then dev.blocks p.toNat else Block.zero) := by
  unfold readPhyBlock
  by_cases hp : p = 0
  · rw [if_neg (by omega), if_neg (not_not.mpr hp), Program.except_pure]
  · rw [if_pos (by omega), if_pos hp, dev_read_ok (by omega) (h hp)]
    rfl

theorem readPhyBlock_short {p : Int} (h0 : 0 ≤ p) (h : ¬ (p ≠ 0 → p.toNat < dev.size)) :
    readPhyBlock dev p = .error .exitFread := by
  rw [Classical.not_imp] at h
  rw [readPhyBlock, if_pos (by omega), dev_read_short (by omega) h.2]
  rfl

theorem pathOnDev_direct (hl : l < 10) :
    PathOnDev d dev l ↔ (d.blockNr l ≠ 0 → (d.blockNr l).toNat < dev.size) := by
  simp only [PathOnDev, path, if_pos hl, List.forall_mem_singleton, ptr_direct hl]

theorem pathOnDev_single (hlo : 10 ≤ l) (hhi : l < 2058) :
    PathOnDev d dev l ↔ (d.iIndirect ≠ 0 → d.iIndirect.toNat < dev.size) ∧
      (ptr d dev.blocks (.data l) ≠ 0 → (ptr d dev.blocks (.data l)).toNat < dev.size) := by
  simp only [PathOnDev, path, if_neg (show ¬ l < 10 by omega), if_pos hhi, List.forall_mem_cons,
    ptr_ind, List.not_mem_nil, false_implies, implies_true, and_true]

theorem pathOnDev_double (hlo : 2058 ≤ l) :
    PathOnDev d dev l ↔ (d.iDindirect ≠ 0 → d.iDindirect.toNat < dev.size) ∧
      (ptr d dev.blocks (.tab (tabOf l)) ≠ 0 →
        (ptr d dev.blocks (.tab (tabOf l))).toNat < dev.size) ∧
      (ptr d dev.blocks (.data l) ≠ 0 → (ptr d dev.blocks (.data l)).toNat < dev.size) := by
  simp only [PathOnDev, path, if_neg (show ¬ l < 10 by omega), if_neg (show ¬ l < 2058 by omega),
    List.forall_mem_cons, ptr_dind, List.not_mem_nil, false_implies, implies_true, and_true]

theorem testfsReadBlock_small (h0 : ∀ σ, 0 ≤ ptr d dev.blocks σ) (hl : l < 2058) :
    (PathOnDev d dev l →
      testfsReadBlock d dev l = .ok (ptr d dev.blocks (.data l), page d dev.blocks l)) ∧
    (¬ PathOnDev d dev l → testfsReadBlock d dev l = .error .exitFread) := by
  have hd := h0 (.data l)
  have hpage : page d dev.blocks l = if ptr d dev.blocks (.data l) ≠ 0 then
      dev.blocks (ptr d dev.blocks (.data l)).toNat else Block.zero := by
    rw [page, if_neg (show ¬ ShowsTable d dev.blocks l from fun h => by have := h.1; omega)]
  have hpos : assertC .readBlockNrNonneg ((0 : ℤ) ≤ l) = .ok () := if_pos (Int.natCast_nonneg l)
  rw [testfsReadBlock, hpos, Program.except_ok_bind, Int.toNat_natCast, hpage]
  by_cases h10 : l < 10
  · rw [if_pos h10, pathOnDev_direct h10, ← (ptr_direct h10 :
      ptr d dev.blocks (.data l) = d.blockNr l)]
    exact ⟨readPhyBlock_ok hd, readPhyBlock_short hd⟩
  · have hi := h0 .ind
    rw [ptr_ind] at hi
    have hptr : ptr d dev.blocks (.data l) = tableEntry dev.blocks d.iIndirect (l - 10) :=
      ptr_single (by omega) hl
    rw [if_neg h10, if_neg (show ¬ l - 10 ≥ 2048 by omega), pathOnDev_single (by omega) hl]
    by_cases hp : d.iIndirect = 0
    · rw [hp, tableEntry_zero] at hptr
      rw [if_neg (by omega), hptr]
      exact ⟨fun h => readPhyBlock_ok (le_refl 0) fun h => absurd rfl h, fun h =>
        absurd ⟨fun h => absurd hp h, fun h => absurd rfl h⟩ h⟩
    · rw [tableEntry_pos (by omega)] at hptr
      rw [if_pos (by omega)]
      by_cases hs : d.iIndirect.toNat < dev.size
      · rw [dev_read_ok (by omega) hs, Program.except_ok_bind, ← hptr]
        exact ⟨fun h => readPhyBlock_ok hd h.2, fun h => readPhyBlock_short hd fun h' =>
          h ⟨fun _ => hs, h'⟩⟩
      · rw [dev_read_short (by omega) hs]
        exact ⟨fun h => absurd (h.1 hp) hs, fun _ => rfl⟩

theorem testfsReadBlock_double (h0 : ∀ σ, 0 ≤ ptr d dev.blocks σ) (hlo : 2058 ≤ l)
    (hl : l < maxBlocks) :
    (PathOnDev d dev l →
      testfsReadBlock d dev l = .ok (ptr d dev.blocks (.data l), page d dev.blocks l)) ∧
    (¬ PathOnDev d dev l → testfsReadBlock d dev l = .error .exitFread) := by
  have hd := h0 (.data l)
  have hdd := h0 .dind
  have ht := h0 (.tab (tabOf l))
  have htab : ptr d dev.blocks (.tab (tabOf l)) =
      tableEntry dev.blocks d.iDindirect (tabOf l) := ptr_tab (tabOf_lt hl)
  have hptr : ptr d dev.blocks (.data l) =
      tableEntry dev.blocks (ptr d dev.blocks (.tab (tabOf l))) (entryOf l) := ptr_double hlo hl
  have hpos : assertC .readBlockNrNonneg ((0 : ℤ) ≤ l) = .ok () := if_pos (Int.natCast_nonneg l)
  rw [ptr_dind] at hdd
  rw [pathOnDev_double hlo, testfsReadBlock, hpos, Program.except_ok_bind, Int.toNat_natCast,
    if_neg (show ¬ l < nrDirectBlocks by simp only [nrDirectBlocks]; omega)]
  have hsub : l - nrDirectBlocks - nrIndirectBlocks = l - 2058 := by
    simp only [nrDirectBlocks, nrIndirectBlocks]
    omega
  dsimp only
  rw [if_pos (by simp only [nrDirectBlocks, nrIndirectBlocks]; omega), hsub,
    if_neg (by simp only [nrIndirectBlocks]; simp only [maxBlocks] at hl; omega)]
  by_cases hp : d.iDindirect = 0
  · rw [hp, tableEntry_zero] at htab
    rw [htab, tableEntry_zero] at hptr
    have hpage : page d dev.blocks l = Block.zero :=
      page_hole hptr fun h => h.2.2.1 hp
    rw [if_neg (by omega), hptr, htab, hpage]
    exact ⟨fun h => readPhyBlock_ok (le_refl 0) fun h => absurd rfl h, fun h =>
      absurd ⟨fun h => absurd hp h, fun h => absurd rfl h, fun h => absurd rfl h⟩ h⟩
  rw [tableEntry_pos (by omega)] at htab
  rw [if_pos (by omega)]
  by_cases hs : d.iDindirect.toNat < dev.size
  swap
  · rw [dev_read_short (by omega) hs]
    exact ⟨fun h => absurd (h.1 hp) hs, fun _ => rfl⟩
  rw [dev_read_ok (by omega) hs, Program.except_ok_bind,
    show (l - 2058) / nrIndirectBlocks = tabOf l from rfl, ← htab]
  by_cases hq : ptr d dev.blocks (.tab (tabOf l)) = 0
  · rw [hq, tableEntry_zero] at hptr
    have hpage : page d dev.blocks l = dev.blocks d.iDindirect.toNat := by
      rw [page, if_neg (not_not.mpr hptr), if_pos ⟨hlo, hl, hp, hq⟩]
    rw [if_neg (by omega), hptr, hq, hpage]
    exact ⟨fun _ => rfl, fun h => absurd ⟨fun _ => hs, fun h => absurd rfl h, fun h => absurd rfl h⟩ h⟩
  rw [tableEntry_pos (by omega)] at hptr
  rw [if_pos (by omega)]
  by_cases hqs : (ptr d dev.blocks (.tab (tabOf l))).toNat < dev.size
  swap
  · rw [dev_read_short (by omega) hqs]
    exact ⟨fun h => absurd (h.2.1 hq) hqs, fun _ => rfl⟩
  have hpage : page d dev.blocks l = if ptr d dev.blocks (.data l) ≠ 0 then
      dev.blocks (ptr d dev.blocks (.data l)).toNat else Block.zero := by
    rw [page, if_neg (show ¬ ShowsTable d dev.blocks l from fun h => hq h.2.2.2)]
  rw [dev_read_ok (by omega) hqs, Program.except_ok_bind,
    show (l - 2058) % nrIndirectBlocks = entryOf l from rfl, ← hptr, hpage]
  exact ⟨fun h => readPhyBlock_ok hd h.2.2, fun h => readPhyBlock_short hd fun h' =>
    h ⟨fun _ => hs, fun _ => hqs, h'⟩⟩

/-- `testfs_read_block` of a block within the largest file. -/
theorem testfsReadBlock_ok (h0 : ∀ σ, 0 ≤ ptr d dev.blocks σ) (hl : l < maxBlocks)
    (h : PathOnDev d dev l) :
    testfsReadBlock d dev l = .ok (ptr d dev.blocks (.data l), page d dev.blocks l) := by
  by_cases h2058 : l < 2058
  · exact (testfsReadBlock_small h0 h2058).1 h
  · exact (testfsReadBlock_double h0 (by omega) hl).1 h

/-- It stops at a block that the device does not have. -/
theorem testfsReadBlock_short (h0 : ∀ σ, 0 ≤ ptr d dev.blocks σ) (hl : l < maxBlocks)
    (h : ¬ PathOnDev d dev l) : testfsReadBlock d dev l = .error .exitFread := by
  by_cases h2058 : l < 2058
  · exact (testfsReadBlock_small h0 h2058).2 h
  · exact (testfsReadBlock_double h0 (by omega) hl).2 h

theorem testfsReadBlock_beyond (hl : maxBlocks ≤ l) :
    testfsReadBlock d dev l = .ok (-EFBIG, Block.zero) := by
  simp only [maxBlocks] at hl
  have hpos : assertC .readBlockNrNonneg ((0 : ℤ) ≤ l) = .ok () := if_pos (Int.natCast_nonneg l)
  rw [testfsReadBlock, hpos, Program.except_ok_bind, Int.toNat_natCast,
    if_neg (show ¬ l < nrDirectBlocks by simp only [nrDirectBlocks]; omega)]
  dsimp only
  rw [if_pos (by simp only [nrDirectBlocks, nrIndirectBlocks]; omega),
    if_pos (by simp only [nrDirectBlocks, nrIndirectBlocks]; omega)]
  rfl

end Read

end Ece344Lab.Fs
