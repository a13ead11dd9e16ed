import Ece344Lab.Library.Cells
import Ece344Lab.Webserver.Chains
import Mathlib.Data.List.Dedup
import Mathlib.Data.List.Induction

/-!
# The entries of the LRU list

`update_LRU` on the entries in memory: how it searches them, takes one out and links it at the end.
What the entries say is the list of files with which the rest of the cache is modelled. `none` is
an access to an entry that is not allocated, or a walk that does not end; `malloc` succeeds.
-/
namespace Ece344Lab.Webserver.Entries

open Library (Cell Cells IsList)

/-- The search of `update_LRU`: `prev` and `temp` at its end. -/
def searchWalk (c : Cells Nat) (file : Nat) : Nat → Nat → Option Nat → Option (Nat × Option Nat)
  | 0, _, _ => none
  | _ + 1, prev, none => some (prev, none)
  | fuel + 1, prev, some temp => do
    let t ← c.get temp
    if t.val = file then return (prev, some temp)
    else searchWalk c file fuel temp t.next

/-- `while (temp2) { prev = temp2; temp2 = temp2->next; }`: the last `prev`. -/
def endWalk (c : Cells Nat) : Nat → Nat → Option Nat → Option Nat
  | 0, _, _ => none
  | _ + 1, prev, none => some prev
  | fuel + 1, _, some temp2 => do
    let t ← c.get temp2
    endWalk c fuel temp2 t.next

/-- `while (prev->next) prev = prev->next;` -/
def lastWalk (c : Cells Nat) : Nat → Nat → Option Nat
  | 0, _ => none
  | fuel + 1, prev => do
    let t ← c.get prev
    match t.next with
    | none => return prev
    | some next => lastWalk c fuel next

/-- `update_LRU(file)`: `ht->LRU` and the entries after it. The value of an entry is its `data`. -/
def updateLRU (c : Cells Nat) (LRU : Option Nat) (file : Nat) : Option (Option Nat × Cells Nat) :=
  match LRU with
  | none =>
    let (new_entry, c) := c.alloc file
    some (some new_entry, c)
  | some first => do
    let e ← c.get first
    match e.next with
    | none =>
      if e.val ≠ file then do
        let (new_entry, c) := c.alloc file
        let c ← c.setNext first (some new_entry)
        return (some first, c)
      else return (some first, c)
    | some _ => do
      let (prev, temp) ← searchWalk c file (c.length + 1) first (some first)
      match temp with
      | some temp =>
        let t ← c.get temp
        if t.val = e.val then
          let c ← c.setNext temp none
          let prev ← endWalk c (c.length + 1) prev e.next
          let c ← c.setNext prev (some temp)
          return (e.next, c)
        else
          let c ← c.setNext prev t.next
          let c ← c.setNext temp none
          let prev ← lastWalk c (c.length + 1) prev
          let c ← c.setNext prev (some temp)
          return (some first, c)
      | none =>
        let (new_entry, c) := c.alloc file
        let c ← c.setNext prev (some new_entry)
        return (some first, c)

section Walks

variable {c : Cells Nat} {head : Option Nat} {l l₁ l₂ : List (Nat × Nat)} {file a fuel : Nat}

/-- The search goes on at another file. -/
theorem searchWalk_next (fuel prev a : Nat) (n : Option Nat) (v : Nat)
    (h : c.get a = some ⟨n, v⟩) (hne : v ≠ file) :
    searchWalk c file (fuel + 1) prev (some a) = searchWalk c file fuel a n := by
  rw [searchWalk, h]
  exact if_neg hne

/-- The search finds the file, behind the entry `prev`. -/
theorem searchWalk_mem (prev v : Nat) (h : IsList c head (l₁ ++ (a, file) :: l₂))
    (hl₁ : file ∉ l₁.map Prod.snd) (hfuel : l₁.length < fuel) :
    ∃ prev' v', searchWalk c file fuel prev head = some (prev', some a) ∧
      ((prev, v) :: l₁).getLast? = some (prev', v') := by
  obtain ⟨k, rfl⟩ := Nat.exists_eq_add_of_lt hfuel
  have hne : ∀ x ∈ l₁, x.2 ≠ file := fun x hx heq => hl₁ (heq ▸ List.mem_map_of_mem hx)
  obtain ⟨prev', v', head', hwalk, ⟨rfl, n, hget, -⟩, hlast⟩ :=
    h.walk searchWalk_next hne (k + 1) prev v
  refine ⟨prev', v', ?_, hlast⟩
  rw [Nat.add_assoc, hwalk, searchWalk, hget]
  exact if_pos rfl

/-- Without the file it comes to the last entry. -/
theorem searchWalk_notMem (prev v : Nat) (h : IsList c head l) (hl : file ∉ l.map Prod.snd)
    (hfuel : l.length < fuel) :
    ∃ prev' v', searchWalk c file fuel prev head = some (prev', none) ∧
      ((prev, v) :: l).getLast? = some (prev', v') := by
  obtain ⟨k, rfl⟩ := Nat.exists_eq_add_of_lt hfuel
  have hne : ∀ x ∈ l, x.2 ≠ file := fun x hx heq => hl (heq ▸ List.mem_map_of_mem hx)
  rw [← List.append_nil l] at h
  obtain ⟨prev', v', head', hwalk, rfl, hlast⟩ := h.walk searchWalk_next hne (k + 1) prev v
  refine ⟨prev', v', ?_, hlast⟩
  rw [Nat.add_assoc, hwalk]
  rfl

theorem endWalk_spec (prev v : Nat) (h : IsList c head l) (hfuel : l.length < fuel) :
    ∃ prev' v', endWalk c fuel prev head = some prev' ∧
      ((prev, v) :: l).getLast? = some (prev', v') := by
  obtain ⟨k, rfl⟩ := Nat.exists_eq_add_of_lt hfuel
  rw [← List.append_nil l] at h
  obtain ⟨prev', v', head', hwalk, rfl, hlast⟩ := h.walk (F := endWalk c) (P := fun _ => True)
    (fun fuel prev a n v hget _ => by rw [endWalk, hget]; rfl) (fun _ _ => trivial) (k + 1) prev v
  refine ⟨prev', v', ?_, hlast⟩
  rw [Nat.add_assoc, hwalk]
  rfl

theorem lastWalk_spec {prev v : Nat} (h : IsList c (some prev) ((prev, v) :: l))
    (hfuel : l.length < fuel) : ∃ prev' v', lastWalk c fuel prev = some prev' ∧
      ((prev, v) :: l).getLast? = some (prev', v') := by
  obtain ⟨k, rfl⟩ := Nat.exists_eq_add_of_lt hfuel
  obtain ⟨init, ⟨z, w⟩, hl⟩ := (List.eq_nil_or_concat' ((prev, v) :: l)).resolve_left (by simp)
  have hlength : l.length = init.length := by simpa using congrArg List.length hl
  rw [hl] at h ⊢
  obtain ⟨n, hget, rfl⟩ := h.get_eq
  obtain ⟨prev', v', hwalk, -⟩ := h.walkTo (F := fun fuel _ temp => lastWalk c fuel temp)
    (P := fun _ => True) (fun fuel prev a b v hget _ => by rw [lastWalk, hget]; rfl)
    (fun _ _ => trivial) (k + 1) prev v
  refine ⟨z, w, ?_, List.getLast?_concat⟩
  rw [Nat.add_assoc, hlength, hwalk, lastWalk, hget]
  rfl

end Walks

section Update

variable {c : Cells Nat} {LRU : Option Nat} {l l₁ l₂ : List (Nat × Nat)} {file a first v : Nat}

/-- A file that is not in the list gets a new entry behind the last one. -/
theorem updateLRU_notMem (h : IsList c LRU l) (hfile : file ∉ l.map Prod.snd) :
    ∃ LRU' c', updateLRU c LRU file = some (LRU', c') ∧
      IsList c' LRU' (l ++ [(c.length, file)]) := by
  have hnew : c.length ∉ l.map Prod.fst := h.fresh file
  have h₁ := h.alloc file
  have hself := Cells.get_alloc_self c file
  cases l with
  | nil =>
    obtain rfl : LRU = none := h
    exact ⟨some c.length, (c.alloc file).2, rfl, rfl, none, hself, rfl⟩
  | cons x rest =>
    obtain ⟨first, v⟩ := x
    obtain ⟨rfl, n, hget, hrest⟩ := h
    rw [List.map_cons, List.mem_cons, not_or] at hfile
    unfold updateLRU
    simp only [hget, Option.bind_eq_bind, Option.bind_some]
    cases rest with
    | nil =>
      obtain rfl : n = none := hrest
      obtain ⟨c', hset, hlist, -⟩ := h₁.linkLast rfl hself hnew
      refine ⟨some first, c', ?_, hlist⟩
      simp only [if_pos (Ne.symm hfile.1)]
      rw [hset]
      rfl
    | cons y rest =>
      obtain ⟨y, w⟩ := y
      obtain ⟨rfl, k, hy, hrest⟩ := hrest
      have hlist : IsList c (some first) ((first, v) :: (y, w) :: rest) :=
        ⟨rfl, _, hget, rfl, k, hy, hrest⟩
      obtain ⟨prev, u, hwalk, hlast⟩ := searchWalk_notMem first v hlist
        (by rw [List.map_cons, List.mem_cons, not_or]; exact hfile)
        (Nat.lt_succ_of_le hlist.length_le)
      rw [List.getLast?_cons_cons] at hlast
      obtain ⟨c', hset, hlist', -⟩ := h₁.linkLast hlast hself hnew
      refine ⟨some first, c', ?_, hlist'⟩
      simp only [hwalk, Option.bind_some]
      rw [hset]
      rfl

/-- The file at the front: its entry is linked at the end. -/
theorem updateLRU_first (h : IsList c LRU ((a, file) :: l)) :
    ∃ LRU' c', updateLRU c LRU file = some (LRU', c') ∧ IsList c' LRU' (l ++ [(a, file)]) := by
  have hsize := h.length_le
  have hnew := h.notMem (l := []) |>.2
  obtain ⟨rfl, n, hget, hrest⟩ := h
  unfold updateLRU
  simp only [hget, Option.bind_eq_bind, Option.bind_some]
  cases l with
  | nil =>
    obtain rfl : n = none := hrest
    refine ⟨some a, c, ?_, rfl, none, hget, rfl⟩
    simp only [ne_eq, not_true_eq_false, if_false]
    rfl
  | cons x rest =>
    obtain ⟨y, w⟩ := x
    obtain ⟨rfl, k, hy, hrest'⟩ := hrest
    have hlist : IsList c (some a) ([] ++ (a, file) :: (y, w) :: rest) :=
      ⟨rfl, _, hget, rfl, k, hy, hrest'⟩
    obtain ⟨prev, u, hwalk, hlast⟩ := searchWalk_mem a file hlist List.not_mem_nil
      (Nat.succ_pos c.length)
    obtain ⟨c₁, hset₁, hself₁, hother₁, hlength₁⟩ := Cells.setNext_of_get hget none
    have h₁ : IsList c₁ (some y) ((y, w) :: rest) :=
      IsList.frame_ne ⟨rfl, k, hy, hrest'⟩ hnew hother₁
    obtain ⟨prev', u', hend, hlast'⟩ := endWalk_spec prev u h₁
      (Nat.lt_succ_of_le h₁.length_le)
    rw [List.getLast?_cons_cons] at hlast'
    obtain ⟨c₂, hset₂, h₂, -⟩ := h₁.linkLast hlast' hself₁ hnew
    refine ⟨some y, c₂, ?_, h₂⟩
    simp only [hwalk, hget, hset₁, hend, hset₂, Option.bind_some, if_true]
    rfl

/-- The file behind the first entry: its entry is taken out and linked at the end. -/
theorem updateLRU_later (h : IsList c LRU ((first, v) :: l₁ ++ (a, file) :: l₂))
    (hfile : file ∉ ((first, v) :: l₁).map Prod.snd) :
    ∃ LRU' c', updateLRU c LRU file = some (LRU', c') ∧
      IsList c' LRU' ((first, v) :: l₁ ++ l₂ ++ [(a, file)]) := by
  have hnew : a ∉ ((first, v) :: l₁ ++ l₂).map Prod.fst := by
    rw [List.map_append, List.mem_append, not_or]
    exact h.notMem
  have hsize := h.length_le
  rw [List.length_append] at hsize
  have hfuel : ((first, v) :: l₁).length < c.length + 1 := by omega
  obtain ⟨prev, u, hwalk, hlast⟩ := searchWalk_mem first v h hfile hfuel
  rw [List.getLast?_cons_cons] at hlast
  obtain ⟨init, hinit⟩ := List.getLast?_eq_some_iff.1 hlast
  obtain ⟨m, ha, hl₂⟩ := h.get_eq
  have hsplit : IsList c LRU (init ++ (prev, u) :: (a, file) :: l₂) := by
    rw [hinit, List.append_assoc, List.singleton_append] at h
    exact h
  obtain ⟨-, hprev, rfl, -⟩ := hsplit.get_eq
  have hne : prev ≠ a := fun heq => hsplit.notMem.2 (by rw [heq]; exact List.mem_cons_self)
  obtain ⟨c₁, hset₁, hself₁, hother₁, hlength₁⟩ := Cells.setNext_of_get hprev m
  have ha₁ : c₁.get a = some ⟨m, file⟩ := (hother₁ a hne.symm).trans ha
  obtain ⟨c₂, hset₂, hself₂, hother₂, hlength₂⟩ := Cells.setNext_of_get ha₁ none
  have h₂ : IsList c₂ LRU (init ++ (prev, u) :: l₂) :=
    hsplit.unlink ha ((hother₂ prev hne).trans hself₁) fun b hb hba =>
      (hother₂ b hba).trans (hother₁ b hb)
  obtain ⟨prev', u', hend, hlast'⟩ := lastWalk_spec h₂.suffix
    (Nat.lt_succ_of_le (Nat.le_of_succ_le h₂.suffix.length_le))
  have hlast₂ : (init ++ (prev, u) :: l₂).getLast? = some (prev', u') := by
    rw [List.getLast?_append, hlast']
    rfl
  have hnew₂ : a ∉ (init ++ (prev, u) :: l₂).map Prod.fst := by
    rw [hinit, List.append_assoc, List.singleton_append] at hnew
    exact hnew
  obtain ⟨c₃, hset₃, h₃, -⟩ := h₂.linkLast hlast₂ hself₂ hnew₂
  refine ⟨LRU, c₃, ?_, ?_⟩
  · obtain ⟨rfl, n, hget, hrest⟩ := h
    obtain ⟨next, rfl⟩ := hrest.exists_head (by simp)
    have hdata : file ≠ v := fun heq => hfile (heq ▸ List.mem_cons_self)
    simp only [updateLRU, hget, Option.bind_eq_bind, Option.bind_some, hwalk, ha, if_neg hdata,
      hset₁, hset₂, hend, hset₃]
    rfl
  · rw [hinit, List.append_assoc init, List.singleton_append]
    exact h₃

/-- The file goes to the end, and its entry with it. -/
theorem updateLRU_spec (h : IsList c LRU l) (nodup : (l.map Prod.snd).Nodup) (file : Nat) :
    ∃ LRU' c' l', updateLRU c LRU file = some (LRU', c') ∧ IsList c' LRU' l' ∧
      l'.map Prod.snd = (l.map Prod.snd).erase file ++ [file] ∧
      (file ∈ l.map Prod.snd → l'.Perm l) ∧
      (file ∉ l.map Prod.snd → l' = l ++ [(c.length, file)]) := by
  by_cases hfile : file ∈ l.map Prod.snd
  · obtain ⟨⟨a, file'⟩, hmem, heq⟩ := List.mem_map.1 hfile
    obtain rfl : file' = file := heq
    obtain ⟨l₁, l₂, rfl⟩ := List.append_of_mem hmem
    rw [List.map_append, List.map_cons, List.nodup_append, List.nodup_cons] at nodup
    have hl₁ : file' ∉ l₁.map Prod.snd := fun h => nodup.2.2 _ h _ List.mem_cons_self rfl
    have hupdate : ∃ LRU' c', updateLRU c LRU file' = some (LRU', c') ∧
        IsList c' LRU' (l₁ ++ l₂ ++ [(a, file')]) := by
      cases l₁ with
      | nil => exact updateLRU_first h
      | cons x l₁ => exact updateLRU_later h hl₁
    obtain ⟨LRU', c', hupdate, hlist⟩ := hupdate
    refine ⟨LRU', c', _, hupdate, hlist, ?_, fun _ => ?_, fun hnot => absurd hfile hnot⟩
    · rw [List.map_append, List.map_append, List.map_append, List.erase_append_right _ hl₁,
        List.map_cons (l := l₂), List.erase_cons_head]
      rfl
    · exact (List.perm_append_singleton _ _).trans List.perm_middle.symm
  · obtain ⟨LRU', c', hupdate, hlist⟩ := updateLRU_notMem h hfile
    refine ⟨LRU', c', _, hupdate, hlist, ?_, fun hmem => absurd hmem hfile, fun _ => rfl⟩
    rw [List.map_append, List.erase_of_not_mem hfile]
    rfl

/-- The entries say what the list model of the cache computes. -/
theorem updateLRU_refines (h : IsList c LRU l) (nodup : (l.map Prod.snd).Nodup) (file : Nat) :
    ∃ LRU' c' l', updateLRU c LRU file = some (LRU', c') ∧ IsList c' LRU' l' ∧
      l'.map Prod.snd = Webserver.updateLRU file (l.map Prod.snd) := by
  obtain ⟨LRU', c', l', hupdate, hlist, hfiles, -⟩ := updateLRU_spec h nodup file
  refine ⟨LRU', c', l', hupdate, hlist, ?_⟩
  by_cases hfile : file ∈ l.map Prod.snd
  · rw [hfiles, updateLRU_of_mem nodup hfile]
  · rw [hfiles, updateLRU_of_notMem hfile, List.erase_of_not_mem hfile]

end Update

/-- `struct hashtable`, less its lock and `cache_size`, with the entries of the LRU list. -/
structure Hashtable where
  available_cache_size : Int
  LRU : Option Nat
  table : Nat → List Entry
  entries : Cells Nat

/-- `cache_lookup(file, time)` for a file of the given name. -/
def cacheLookup (files : Files) (ht : Hashtable) (name : Bytes) (time : Nat) :
    Except Fault (Option Nat × Hashtable) :=
  match findName files name (ht.table (hash name)) with
  | .error fault => .error fault
  | .ok none => .ok (none, ht)
  | .ok (some file) =>
    if time = 0 then
      match updateLRU ht.entries ht.LRU file with
      | none => .error .nullEntry
      | some (LRU, entries) => .ok (some file, { ht with LRU := LRU, entries := entries })
    else .ok (some file, ht)

def cacheInsertHt (files : Files) (ht : Hashtable) (file : Nat) : Except Fault Hashtable :=
  let h := hash (files file).file_name
  match appendEntry ⟨file, false⟩ (ht.table h) with
  | .error fault => .error fault
  | .ok chain =>
    match updateLRU ht.entries ht.LRU file with
    | none => .error .nullEntry
    | some (LRU, entries) => .ok {
        available_cache_size := ht.available_cache_size - (files file).file_size
        LRU := LRU
        table := Function.update ht.table h chain
        entries := entries }

/-- A call under the lock that may use a file. -/
inductive CacheCall
  | lookup (name : Bytes) (time : Nat)
  | insertHt (file : Nat)

/-- The files that a call uses, and the table it leaves. -/
def CacheCall.run (files : Files) (ht : Hashtable) : CacheCall → Except Fault (List Nat × Hashtable)
  | lookup name time =>
    match cacheLookup files ht name time with
    | .error fault => .error fault
    | .ok (found, ht') => .ok (if time = 0 then found.toList else [], ht')
  | insertHt file =>
    match cacheInsertHt files ht file with
    | .error fault => .error fault
    | .ok ht' => .ok ([file], ht')

/-- The calls one after another, and the files they use, in this order. -/
def runCalls (files : Files) : List CacheCall → Hashtable → Except Fault (List Nat × Hashtable)
  | [], ht => .ok ([], ht)
  | call :: calls, ht =>
    match call.run files ht with
    | .error fault => .error fault
    | .ok (used, ht') =>
      match runCalls files calls ht' with
      | .error fault => .error fault
      | .ok (used', ht'') => .ok (used ++ used', ht'')

/-- No entry of a chain was freed, and the entries of the LRU list say `lru`, each file once. -/
structure Lists (ht : Hashtable) (lru : List Nat) : Prop where
  usable : ∀ i, Usable (ht.table i)
  nodup : lru.Nodup
  listed : ∃ l, IsList ht.entries ht.LRU l ∧ l.map Prod.snd = lru

section Runs

variable {ht : Hashtable} {lru us : List Nat} {file : Nat}

theorem dedup_concat (us : List Nat) (file : Nat) :
    (us ++ [file]).dedup = us.dedup.erase file ++ [file] := by
  induction us with
  | nil => rfl
  | cons u us ih =>
    rw [List.cons_append]
    by_cases hu : u ∈ us
    · rw [List.dedup_cons_of_mem hu, List.dedup_cons_of_mem (List.mem_append_left _ hu), ih]
    · have hu' : u ∉ us.dedup := fun h => hu (List.mem_dedup.1 h)
      rw [List.dedup_cons_of_notMem hu]
      by_cases heq : u = file
      · subst heq
        rw [List.dedup_cons_of_mem (List.mem_append_right _ (List.mem_singleton_self _)), ih,
          List.erase_of_not_mem hu', List.erase_cons_head]
      · have hne : u ∉ us ++ [file] := by
          rw [List.mem_append, List.mem_singleton, not_or]
          exact ⟨hu, heq⟩
        rw [List.dedup_cons_of_notMem hne, ih, List.erase_cons_tail (by simpa using heq)]
        rfl

/-- A use of a file. -/
theorem Lists.use (h : Lists ht lru) (file : Nat) :
    ∃ LRU entries, updateLRU ht.entries ht.LRU file = some (LRU, entries) ∧
      ∃ l, IsList entries LRU l ∧ l.map Prod.snd = lru.erase file ++ [file] := by
  obtain ⟨l, hl, rfl⟩ := h.listed
  obtain ⟨LRU, entries, l', hupdate, hl', hlisted, -⟩ := updateLRU_spec hl h.nodup file
  exact ⟨LRU, entries, hupdate, l', hl', hlisted⟩

theorem nodup_use (h : lru.Nodup) (file : Nat) : (lru.erase file ++ [file]).Nodup := by
  have hmem : file ∉ lru.erase file := fun hmem => (h.mem_erase_iff.1 hmem).1 rfl
  rw [← List.concat_eq_append]
  exact (h.erase file).concat hmem

/-- What the list says after some uses. -/
def afterUses (lru us : List Nat) : List Nat :=
  us.foldl (fun lru file => lru.erase file ++ [file]) lru

theorem usable_update {table : Nat → List Entry} (h : ∀ i, Usable (table i)) (b file : Nat) :
    ∀ i, Usable (Function.update table b (table b ++ [⟨file, false⟩]) i) := by
  intro i
  by_cases hi : i = b
  · subst hi
    rw [Function.update_self]
    intro e he
    rcases List.mem_append.1 he with he | he
    · exact h i e he
    · rw [List.mem_singleton.1 he]
  · rw [Function.update_of_ne hi]
    exact h i

/-- A call without freed entries. -/
theorem CacheCall.run_lists (files : Files) (call : CacheCall) (h : Lists ht lru) :
    ∃ used ht', call.run files ht = .ok (used, ht') ∧ Lists ht' (afterUses lru used) := by
  cases call with
  | lookup name time =>
    have hfind : findName files name (ht.table (hash name)) =
        .ok ((walk (ht.table (hash name))).find? fun p => (files p).file_name = name) :=
      findName_ok (.inr (h.usable _))
    simp only [run, cacheLookup, hfind]
    cases (walk (ht.table (hash name))).find? fun p => (files p).file_name = name with
    | none =>
      refine ⟨[], ht, ?_, h⟩
      simp only [Option.toList_none, ite_self]
    | some file =>
      by_cases htime : time = 0
      · obtain ⟨LRU, entries, hupdate, hlisted⟩ := h.use file
        refine ⟨[file], { ht with LRU := LRU, entries := entries }, ?_, ?_⟩
        · simp only [htime, if_true, hupdate]
          rfl
        · exact { usable := h.usable, nodup := nodup_use h.nodup file, listed := hlisted }
      · refine ⟨[], ht, ?_, h⟩
        simp only [if_neg htime]
  | insertHt file =>
    obtain ⟨b, hb⟩ : ∃ b, b = hash (files file).file_name := ⟨_, rfl⟩
    have happend : appendEntry ⟨file, false⟩ (ht.table b) = .ok (ht.table b ++ [⟨file, false⟩]) :=
      appendEntry_usable (h.usable b)
    obtain ⟨LRU, entries, hupdate, hlisted⟩ := h.use file
    refine ⟨[file], {
      available_cache_size := ht.available_cache_size - (files file).file_size
      LRU := LRU
      table := Function.update ht.table b (ht.table b ++ [⟨file, false⟩])
      entries := entries }, ?_, ?_⟩
    · simp only [run, cacheInsertHt, ← hb, happend, hupdate]
    · exact {
        usable := usable_update h.usable _ file
        nodup := nodup_use h.nodup file
        listed := hlisted }

theorem dedup_append_afterUses (lru us : List Nat) (h : lru.Nodup) :
    afterUses lru us = (lru ++ us).dedup := by
  induction us using List.reverseRecOn with
  | nil => rw [List.append_nil, h.dedup]; rfl
  | append_singleton us file ih =>
    rw [afterUses, List.foldl_append, ← List.append_assoc, dedup_concat, ← ih]
    rfl

theorem afterUses_append (lru us us' : List Nat) :
    afterUses lru (us ++ us') = afterUses (afterUses lru us) us' := List.foldl_append

theorem runCalls_lists (files : Files) (calls : List CacheCall) (h : Lists ht lru) :
    ∃ used ht', runCalls files calls ht = .ok (used, ht') ∧ Lists ht' (afterUses lru used) := by
  induction calls generalizing ht lru with
  | nil => exact ⟨[], ht, rfl, h⟩
  | cons call calls ih =>
    obtain ⟨used, ht₁, hrun, h₁⟩ := call.run_lists files h
    obtain ⟨used', ht', hruns, h'⟩ := ih h₁
    refine ⟨used ++ used', ht', ?_, ?_⟩
    · simp only [runCalls, hrun, hruns]
    · rw [afterUses_append]
      exact h'

/-- `update_LRU` moves the file to the end and keeps the other files in their order, with the same
entries and at most one new one. So after any hits and inserts the files are in the order of their
last uses, and those of the list at the start that were not used come first. -/
theorem lru_by_last_use {c : Cells Nat} {LRU : Option Nat} {l : List (Nat × Nat)}
    (h : IsList c LRU l) (nodup : (l.map Prod.snd).Nodup) :
    (∀ file, ∃ LRU' c' l', updateLRU c LRU file = some (LRU', c') ∧ IsList c' LRU' l' ∧
      l'.map Prod.snd = (l.map Prod.snd).erase file ++ [file] ∧
      (file ∈ l.map Prod.snd → l'.Perm l) ∧
      (file ∉ l.map Prod.snd → l' = l ++ [(c.length, file)])) ∧
    ∀ files available_cache_size table, (∀ i, Usable (table i)) → ∀ calls, ∃ used ht',
      runCalls files calls ⟨available_cache_size, LRU, table, c⟩ = .ok (used, ht') ∧
      ∃ l', IsList ht'.entries ht'.LRU l' ∧ l'.map Prod.snd = (l.map Prod.snd ++ used).dedup := by
  refine ⟨updateLRU_spec h nodup, fun files available table usable calls => ?_⟩
  have hstart : Lists ⟨available, LRU, table, c⟩ (l.map Prod.snd) := ⟨usable, nodup, l, h, rfl⟩
  obtain ⟨used, ht', hruns, h'⟩ := runCalls_lists files calls hstart
  obtain ⟨l', hl', hlisted⟩ := h'.listed
  refine ⟨used, ht', hruns, l', hl', ?_⟩
  rw [hlisted, dedup_append_afterUses _ _ nodup]

/-- Three entries, of the files 5, 6 and 7. -/
theorem lru_by_last_use_three : ∃ LRU' c' l',
    updateLRU [some ⟨some 1, 5⟩, some ⟨some 2, 6⟩, some ⟨none, 7⟩] (some 0) 6 = some (LRU', c') ∧
      IsList c' LRU' l' ∧ l'.map Prod.snd = [5, 7, 6] := by
  have h : IsList [some ⟨some 1, 5⟩, some ⟨some 2, 6⟩, some ⟨none, 7⟩] (some 0)
      [(0, 5), (1, 6), (2, 7)] := ⟨rfl, _, rfl, rfl, _, rfl, rfl, _, rfl, rfl⟩
  obtain ⟨LRU', c', l', hupdate, hlist, hfiles, -⟩ := (lru_by_last_use h (by decide)).1 6
  exact ⟨LRU', c', l', hupdate, hlist, hfiles⟩

end Runs

end Ece344Lab.Webserver.Entries
