import Ece344Lab.Fs.Edits
import Ece344Lab.Fs.Start

/-!
# Commands that find space

A command that changes the volume returns and succeeds while there are enough free blocks. For a
write within one block three are enough: one for the data and two for the indirect blocks on the
way to it. A new directory and its entry take nine.
-/
namespace Ece344Lab.Fs

open Ece344Lab.Library

section Write

variable {s : FileSystem} {V : Volume} {n start : Nat}

/-- With three free blocks a write within one block succeeds. -/
theorem AtPrompt.write_space (h : AtPrompt s V) {name offsetArg data : Token}
    (hoffset : strToOffset offsetArg.bytes = (0, (start : ℤ)))
    (hx : listing V.tree s.curDir name.bytes = some (n : ℤ)) (hfile : n ∉ V.tree.branches)
    (hend : start + data.bytes.length ≤ maxFileSize)
    (hblock : start % 8192 + data.bytes.length ≤ 8192) (hfree : 3 ≤ s.sb.free) :
    ∃ s' log, (cmdWrite [name, offsetArg, data]).run s = .ok ⟨data.bytes.length, s', log⟩ ∧
      s'.curDir = s.curDir ∧ AtPrompt s' (V.write n start data.bytes) ∧
      s.sb.free ≤ s'.sb.free + 3 := by
  have hlen : data.bytes.length ≤ 2 ^ 30 := by omega
  suffices hreturns : ∃ s' log,
      (cmdWrite [name, offsetArg, data]).run s = .ok ⟨data.bytes.length, s', log⟩ ∧
        s.sb.free ≤ s'.sb.free + 3 by
    obtain ⟨s', log, hrun, hleft⟩ := hreturns
    have hpost := (h.write hoffset hx hfile hend hlen).of_ok hrun
    obtain ⟨-, hcur, hat⟩ := hpost (by dsimp only [ENOSPC]; omega)
    exact ⟨s', log, hrun, hcur, hat, hleft⟩
  rcases h.getFileInode name with ⟨hnone, -⟩ | ⟨m, hm, hnode, s₁, hcase⟩
  · rw [hnone] at hx
    cases hx
  obtain rfl : m = n := Nat.cast_injective (Option.some.inj (hm.symm.trans hx))
  rcases hcase with ⟨hbranch, -⟩ | ⟨-, hrun₁, hl₁⟩
  · exact absurd hbranch hfile
  have hne : s.curDir ≠ m := fun heq => hfile (heq ▸ h.cur)
  have hnotmem : m ∉ ({s.curDir} : Multiset ℕ) := by simpa using hne.symm
  have hpos : 0 < data.bytes.length := List.length_pos_of_ne_nil data.ne_nil
  obtain ⟨hsound, -⟩ := hl₁.sound h
  have hfind := hl₁.find_one (n := m) (by
    rw [Multiset.count_cons_self, Multiset.count_eq_zero_of_notMem hnotmem])
  have hlt := hsound.lt hfind
  have hdin := memory_din hfind hlt
  obtain ⟨ret, st', log, hwrite, hcase⟩ :=
    hsound.write hnode hfind (fun k => data.bytes.getD k 0) hend hpos hlen
  have hown := hsound.kept.own_memory hfind hlt
  obtain ⟨r, hreturns, hret, hleft⟩ := testfsWriteData_returns hown
    (fun k => data.bytes.getD k 0) hblock hend hpos (by
      rw [hdin]
      exact fun σ _ hσ => hsound.onDev m σ hσ) (by rw [hl₁.super]; exact hfree)
  rw [hwrite] at hreturns
  cases hreturns
  rcases hcase with ⟨rfl, -⟩ | ⟨rfl, s₂, hrun₂, hsb, -, hdirty, hstep₂, -⟩
  · dsimp only at hret
    exact absurd hret (by decide)
  obtain ⟨s₃, hrun₃, hstep₃, -⟩ := hstep₂.sound.sync hstep₂.moved.here hdirty
  obtain ⟨s₄, hrun₄, -, -⟩ := hstep₃.sound.drop hstep₃.moved.here rfl
  have hsame₃ := hstep₂.sound.sync_free hrun₃ hstep₂.moved.here hdirty
  have hsame₄ := drop_free hrun₄ hstep₃.moved.here rfl
  have hzero : ¬ (0 : ℤ) < 0 := lt_irrefl 0
  have hneg : ¬ (start : ℤ) < 0 := not_lt.mpr (Int.natCast_nonneg start)
  refine ⟨s₄, log ++ [], ?_, ?_⟩
  swap
  · dsimp only at hleft
    rw [← hsb, hl₁.super] at hleft
    omega
  simp only [cmdWrite, hoffset, hneg, hzero, if_false]
  rw [Program.bind_run_nil hrun₁]
  dsimp only
  rw [if_neg hzero, Program.bind_run_ok hrun₂, Program.bind_run_nil hrun₃,
    Program.bind_run_nil hrun₄]
  rfl

end Write

section Make

variable {s s₁ : FileSystem} {V : Volume} {k : Nat} {type : InodeType} {name : Token}

/-- With nine free blocks a new inode is filled and entered in a directory of one block. -/
theorem AtPrompt.fill_space (h : AtPrompt s V) (hk : k ∉ V.tree.nodes) (hlt : k < nrInodes)
    (hstep : StepOn k (some ⟨⟨created type, true, k⟩, 1⟩) (insert k V.tree.nodes) s s₁)
    (hdin : s₁.dinodes k = created type) (hx : listing V.tree s.curDir name.bytes = none)
    (hblock : (s.dinodes s.curDir).iSize + (name.bytes.length + 9) ≤ 8192)
    (hfree : 9 ≤ s₁.sb.free) :
    ∃ s' log, (fillInode (some s.curDir) type name.bytes k).run s₁ = .ok ⟨0, s', log⟩ ∧
      s₁.sb.free ≤ s'.sb.free + 9 := by
  have hcur : s.curDir ≠ k := fun heq => hk (heq ▸ h.cur_node)
  have hlive : s.curDir ∈ insert k V.tree.nodes := Finset.mem_insert_of_mem h.cur_node
  obtain ⟨rs, hd⟩ := h.stored.dirs s.curDir h.cur
  -- the directory of the entry is the same as before
  have enter : ∀ {s₂ : FileSystem} {x : Option HashNode},
      StepOn k x (insert k V.tree.nodes) s s₂ → 3 ≤ s₂.sb.free →
      ∃ s' log, (onInode s.curDir (testfsAddDirent name.bytes k) >>= fun ret =>
        if ret < 0 then pure ret else
          onInode s.curDir testfsSyncInode >>= fun _ => pure (0 : Int)).run s₂ = .ok ⟨0, s', log⟩ ∧
        s₂.sb.free ≤ s'.sb.free + 3 := by
    intro s₂ x hstep hfree
    have hsame := hstep.same s.curDir hcur
    exact hstep.sound.enter_space hlive ((hstep.moved.others _ hcur).trans h.here)
      (hsame.dirHolds hstep.sound.kept.own hd) hx name.no_nul hlt (by rwa [hsame.din]) hfree
  rw [fillInode]
  by_cases htype : type = .dir
  swap
  · rw [if_neg htype]
    obtain ⟨s₂, log₂, hrun₂, hleft⟩ := enter hstep (by omega)
    exact ⟨s₂, log₂, hrun₂, by omega⟩
  subst htype
  have hmem := Finset.mem_insert_self k V.tree.nodes
  have hp := h.stored.lt h.cur_node
  obtain ⟨s₂, log₂, hrun₂, hleft⟩ :=
    hstep.sound.emptyDir_space hmem hstep.moved.here hdin hp (by omega)
  have hempty := (hstep.sound.emptyDir hmem hstep.moved.here hdin hp).of_ok hrun₂
  dsimp only at hempty
  obtain ⟨-, ino, -, hstep₂, -⟩ := hempty (by decide)
  obtain ⟨s₃, log₃, hrun₃, hleft₃⟩ := enter (hstep.trans hstep₂) (by omega)
  refine ⟨s₃, log₂ ++ log₃, ?_, by omega⟩
  rw [if_pos rfl, Option.getD_some, Program.bind_run_ok hrun₂, if_neg (by decide)]
  dsimp only
  rw [hrun₃]
  rfl

/-- With nine free blocks and a free inode, `create` and `mkdir` of a new name in a directory of
one block succeed. -/
theorem AtPrompt.make_space (h : AtPrompt s V) (htype : type ≠ .none)
    (hx : listing V.tree s.curDir name.bytes = none) (hcard : V.tree.nodes.card < nrInodes)
    (hblock : (s.dinodes s.curDir).iSize + (name.bytes.length + 9) ≤ 8192) (hfree : 9 ≤ s.sb.free) :
    ∃ s' log k, ∃ hk : k ∉ V.tree.nodes, (cmdMake type [name]).run s = .ok ⟨0, s', log⟩ ∧
      s'.curDir = s.curDir ∧ (type ≠ .dir → s'.dinodes k = created type) ∧
      AtPrompt s' (V.make s.curDir name.bytes k type h.cur (listing_none hx).2.2 hk) ∧
      s.sb.free ≤ s'.sb.free + 9 := by
  suffices hreturns : ∃ s' log, (cmdMake type [name]).run s = .ok ⟨0, s', log⟩ ∧
      s.sb.free ≤ s'.sb.free + 9 by
    obtain ⟨s', log, hrun, hleft⟩ := hreturns
    have hpost := (h.make htype (by
      simp only [maxDirSize]
      omega)).of_ok hrun
    dsimp only at hpost
    rcases hpost (by decide) with ⟨v, hv, -⟩ | ⟨_, k, hk, -, hcur, hfile, hat⟩
    · rw [hx] at hv
      cases hv
    · exact ⟨s', log, k, hk, hrun, hcur, hfile, hat, hleft⟩
  have hlookup : (onInodeRead s.curDir fun d dev => testfsDirNameToInodeNr d dev name.bytes).run s =
      .ok ⟨-ENOENT, s, []⟩ := by
    refine Program.reads_run ?_
    rw [h.here]
    dsimp only
    rw [h.stored.lookup h.cur name.bytes, hx]
    rfl
  rcases h.stored.sound.create h.absent type with
    ⟨s₁, hfull⟩ | ⟨k, s₁, hrun₁, hk, hlt, hstep, hdin, hsame⟩
  · obtain ⟨k, s', n, hrun, -⟩ := testfsCreateInode_fresh h.stored.sound.kept type hcard
    rw [hfull] at hrun
    cases hrun
  obtain ⟨s₂, log₂, hrun₂, hleft⟩ := h.fill_space hk hlt hstep hdin hx hblock (by omega)
  have hfill := (h.fill hk hlt hstep hdin hx name.no_nul (by
    simp only [maxDirSize]
    omega)).of_ok hrun₂
  dsimp only at hfill
  obtain ⟨-, hentered⟩ := hfill (by decide)
  obtain ⟨ino, hdirty, hn⟩ := hentered.new
  obtain ⟨s₃, hrun₃, hstep₃, -⟩ := hentered.sound.sync hn hdirty
  obtain ⟨s₄, hrun₄, -⟩ := hstep₃.sound.drop hstep₃.moved.here rfl
  have hsame₃ := hentered.sound.sync_free hrun₃ hn hdirty
  have hsame₄ := drop_free hrun₄ hstep₃.moved.here rfl
  refine ⟨s₄, log₂ ++ [], ?_, by omega⟩
  rw [cmdMake, Program.get_bind, testfsCreateFileOrDir, Program.bind_run_nil hlookup]
  dsimp only
  rw [if_neg (by decide), Program.bind_run_nil hrun₁]
  dsimp only
  rw [if_neg (by decide), Program.bind_run_ok hrun₂, if_neg (by decide),
    Program.bind_run_nil hrun₃, Program.bind_run_nil hrun₄]
  rfl

end Make

end Ece344Lab.Fs
