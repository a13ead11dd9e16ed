import Ece344Lab.Webserver.Cache

/-!
# Bucket chains

What the loops over a chain do when entries of it may have been freed: a loop that comes to a freed
entry is a fault, and the entries before the first freed one are all that a walk comes to.
-/
namespace Ece344Lab.Webserver

variable {files : Files} {p file : Nat} {name : Bytes}

/-- The files that a walk of a chain comes to before a freed entry. -/
def walk : List Entry → List Nat
  | [] => []
  | e :: rest => if e.freed then [] else e.data :: walk rest

/-- A walk meets no freed entry. -/
def Usable (c : List Entry) : Prop := ∀ e ∈ c, e.freed = false

section Walks

variable {c : List Entry}

theorem walk_used {e : Entry} (used : e.freed = false) : walk (e :: c) = e.data :: walk c := by
  simp [walk, used]

theorem usable_used {e : Entry} (used : e.freed = false) : Usable (e :: c) ↔ Usable c := by
  simp [Usable, used]

theorem walk_of_usable (h : Usable c) : walk c = c.map Entry.data := by
  induction c with
  | nil => rfl
  | cons e c ih =>
    rw [walk_used (h e List.mem_cons_self), List.map_cons,
      ih fun e' he' => h e' (List.mem_cons_of_mem _ he')]

theorem walk_append (h : Usable c) : walk (c ++ [⟨p, false⟩]) = walk c ++ [p] := by
  have usable : Usable (c ++ [⟨p, false⟩]) := by
    intro e he
    rw [List.mem_append, List.mem_singleton] at he
    obtain he | rfl := he
    · exact h e he
    · rfl
  rw [walk_of_usable usable, walk_of_usable h, List.map_append]
  rfl

theorem mem_of_mem_walk (h : p ∈ walk c) : p ∈ c.map Entry.data := by
  induction c with
  | nil => cases h
  | cons e c ih =>
    cases used : e.freed with
    | true => simp [walk, used] at h
    | false =>
      rw [walk_used used, List.mem_cons] at h
      exact List.mem_cons.2 (h.imp_right ih)

/-- The loop of `cache_lookup` finds the first file of the name, if it does not come to a freed entry
before it. -/
theorem findName_ok (h : (∃ p ∈ walk c, (files p).file_name = name) ∨ Usable c) :
    findName files name c = .ok ((walk c).find? fun p => (files p).file_name = name) := by
  induction c with
  | nil => rfl
  | cons e c ih =>
    cases used : e.freed with
    | true => simp [walk, Usable, used] at h
    | false =>
      rw [walk_used used, usable_used used] at h
      rw [walk_used used, findName, used, if_neg (by decide)]
      by_cases here : (files e.data).file_name = name
      · simp [here]
      · rw [if_neg here, List.find?_cons_of_neg (by simpa using here)]
        apply ih
        simpa [here] using h

theorem findName_freed (h : ¬ ∃ p ∈ walk c, (files p).file_name = name) (freed : ¬ Usable c) :
    findName files name c = .error .freedEntry := by
  induction c with
  | nil => exact absurd (fun e he => by cases he) freed
  | cons e c ih =>
    cases used : e.freed with
    | true => simp [findName, used]
    | false =>
      rw [usable_used used] at freed
      simp only [walk_used used, List.mem_cons, exists_eq_or_imp, not_or] at h
      simp [findName, used, h.1, ih h.2 freed]

theorem appendEntry_usable {new : Entry} (h : Usable c) :
    appendEntry new c = .ok (c ++ [new]) := by
  induction c with
  | nil => rfl
  | cons e c ih =>
    have used := h e List.mem_cons_self
    rw [usable_used used] at h
    simp [appendEntry, used, ih h]

theorem appendEntry_freed {new : Entry} (h : ¬ Usable c) :
    appendEntry new c = .error .freedEntry := by
  induction c with
  | nil => exact absurd (fun e he => by cases he) h
  | cons e c ih =>
    cases freed : e.freed with
    | true => simp [appendEntry, freed]
    | false =>
      rw [usable_used freed] at h
      simp [appendEntry, freed, ih h]

/-- A file that the walk comes to is unlinked, and the walk comes to all others as before. -/
theorem unlinkBehind_of_mem (h : file ∈ walk c) :
    ∃ c', unlinkBehind file c = .ok c' ∧ walk c' = (walk c).erase file ∧
      c'.map Entry.data = (c.map Entry.data).erase file ∧ (Usable c' ↔ Usable c) := by
  induction c with
  | nil => simp [walk] at h
  | cons e rest ih =>
    cases used : e.freed with
    | true => simp [walk, used] at h
    | false =>
      rw [walk_used used, usable_used used, List.map_cons]
      by_cases here : e.data = file
      · rw [here, List.erase_cons_head, List.erase_cons_head]
        exact ⟨rest, by simp [unlinkBehind, used, here], rfl, rfl, Iff.rfl⟩
      · rw [walk_used used, List.mem_cons] at h
        obtain ⟨c', run, walk', data', usable'⟩ := ih (h.resolve_left (Ne.symm here))
        have ne : ¬ (e.data == file) = true := by simpa using here
        refine ⟨e :: c', by simp [unlinkBehind, used, here, run], ?_, ?_, ?_⟩
        · rw [walk_used used, walk', List.erase_cons_tail ne]
        · rw [List.map_cons, data', List.erase_cons_tail ne]
        · rw [usable_used used, usable']

/-- The walk to a file of the chain that it does not come to ends at a freed entry. -/
theorem unlinkBehind_of_notMem (h : file ∉ walk c) (mem : file ∈ c.map Entry.data) :
    unlinkBehind file c = .error .freedEntry := by
  induction c with
  | nil => simp at mem
  | cons e rest ih =>
    cases used : e.freed with
    | true => simp [unlinkBehind, used]
    | false =>
      rw [walk_used used, List.mem_cons, not_or] at h
      have rest_mem := (List.mem_cons.1 mem).resolve_left h.1
      simp [unlinkBehind, used, Ne.symm h.1, ih h.2 rest_mem]

/-- Deleting a file that the walk comes to. Behind the first entry it is unlinked; as the first
of several it is only freed, and no later walk comes to anything. -/
theorem deleteFrom_of_mem (h : file ∈ walk c) :
    ∃ c', deleteFrom file c = .ok c' ∧
      walk c' = (if (walk c).head? = some file then [] else (walk c).erase file) ∧
      c'.map Entry.data = (if (walk c).head? = some file ∧ 1 < c.length then c.map Entry.data
        else (c.map Entry.data).erase file) ∧
      (Usable c' ↔ Usable c ∧ ¬ ((walk c).head? = some file ∧ 1 < c.length)) := by
  match c with
  | [] => simp [walk] at h
  | e :: rest =>
    cases used : e.freed with
    | true => simp [walk, used] at h
    | false =>
      rw [walk_used used, List.head?_cons, usable_used used]
      by_cases alone : rest = []
      · subst alone
        obtain rfl : file = e.data := by simpa [walk, used] using h
        refine ⟨[], by simp [deleteFrom, used], by simp [walk], by simp, by simp [Usable]⟩
      have several : 1 < (e :: rest).length := by
        have := List.length_pos_iff.2 alone
        simpa using this
      by_cases here : e.data = file
      · refine ⟨{ e with freed := true } :: rest, by simp [deleteFrom, used, alone, here], ?_, ?_, ?_⟩
        · simp [walk, here]
        · rw [if_pos ⟨by rw [here], several⟩]
          rfl
        · exact iff_of_false (fun usable => by simpa using usable _ List.mem_cons_self)
            fun both => both.2 ⟨by rw [here], several⟩
      · rw [walk_used used, List.mem_cons] at h
        obtain ⟨c', run, walk', data', usable'⟩ :=
          unlinkBehind_of_mem (h.resolve_left (Ne.symm here))
        have ne : ¬ (e.data == file) = true := by simpa using here
        have head : some e.data ≠ some file := by simpa using here
        refine ⟨e :: c', by simp [deleteFrom, used, alone, here, run], ?_, ?_, ?_⟩
        · rw [if_neg head, walk_used used, walk', List.erase_cons_tail ne]
        · rw [if_neg fun both => head both.1, List.map_cons, List.map_cons, data',
            List.erase_cons_tail ne]
        · rw [usable_used used, usable']
          exact ⟨fun usable => ⟨usable, fun both => head both.1⟩, And.left⟩

theorem deleteFrom_of_notMem (h : file ∉ walk c) (mem : file ∈ c.map Entry.data) :
    deleteFrom file c = .error .freedEntry := by
  match c with
  | [] => simp at mem
  | e :: rest =>
    cases used : e.freed with
    | true => simp [deleteFrom, used]
    | false =>
      rw [walk_used used, List.mem_cons, not_or] at h
      have rest_mem := (List.mem_cons.1 mem).resolve_left h.1
      have several : rest ≠ [] := by
        rintro rfl
        simp at rest_mem
      have behind := unlinkBehind_of_notMem h.2 rest_mem
      simp [deleteFrom, used, several, Ne.symm h.1, behind]

end Walks

end Ece344Lab.Webserver
