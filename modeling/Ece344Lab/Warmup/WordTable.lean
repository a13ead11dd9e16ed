import Ece344Lab.Library.Cells
import Ece344Lab.Warmup.Wc

/-!
# The word table in memory

`insertEntry` on the entries in memory: how it walks along a chain, counts the word again or links
a new entry. The hash number of a word is any function of it. `none` is an access to an entry that
is not allocated, or a walk that does not end; `malloc` succeeds.
-/
namespace Ece344Lab.Warmup.Entries

open Library (Cell Cells IsList)

/-- `struct wc`: the heads of the chains, and the entries in memory. -/
structure Table where
  table : Nat → Option Nat
  entries : Cells Entry

/-- The walk of `insertEntry`: it stops at the word or at the last entry. -/
def chainWalk (c : Cells Entry) (single_word : Bytes) : Nat → Nat → Option Nat
  | 0, _ => none
  | fuel + 1, temp => do
    let t ← c.get temp
    match t.next with
    | none => return temp
    | some next =>
      if single_word ≠ t.val.word then chainWalk c single_word fuel next
      else return temp

/-- `insertEntry`, which returns 1 in every case. -/
def insertEntry (hash_num : Nat) (single_word : Bytes) (hashtable : Table) : Option Table :=
  match hashtable.table hash_num with
  | none =>
    let (new_entry, c) := hashtable.entries.alloc (entryInit single_word)
    some ⟨Function.update hashtable.table hash_num (some new_entry), c⟩
  | some head => do
    let temp ← chainWalk hashtable.entries single_word hashtable.entries.length head
    let t ← hashtable.entries.get temp
    if t.next ≠ none ∨ (t.next = none ∧ single_word = t.val.word) then
      let c ← hashtable.entries.setVal temp { t.val with num_seen := t.val.num_seen + 1 }
      return { hashtable with entries := c }
    else
      let (new_entry, c) := hashtable.entries.alloc (entryInit single_word)
      let c ← c.setNext temp (some new_entry)
      return { hashtable with entries := c }

/-- The words one after another, each with the hash number that `h` gives it. -/
def insertWords (h : Bytes → Nat) (words : List Bytes) (hashtable : Table) : Option Table :=
  words.foldlM (fun hashtable w => insertEntry (h w) w hashtable) hashtable

section Walk

variable {c : Cells Entry} {temp a fuel : Nat} {e : Entry} {w : Bytes}
  {l l₁ l₂ : List (Nat × Entry)}

/-- The walk goes on at another word. -/
theorem chainWalk_next {b : Nat} (h : c.get temp = some ⟨some b, e⟩) (hne : e.word ≠ w) :
    chainWalk c w (fuel + 1) temp = chainWalk c w fuel b := by
  rw [chainWalk, h]
  exact if_pos hne.symm

/-- The walk ends at the word. -/
theorem chainWalk_mem (h : IsList c (some temp) (l₁ ++ (a, e) :: l₂))
    (hl₁ : ∀ x ∈ l₁, x.2.word ≠ e.word) (hfuel : l₁.length < fuel) :
    chainWalk c e.word fuel temp = some a := by
  obtain ⟨k, rfl⟩ := Nat.exists_eq_add_of_lt hfuel
  obtain ⟨n, hget, -⟩ := h.get_eq
  obtain ⟨-, -, hwalk, -⟩ := h.walkTo (F := fun fuel _ temp => chainWalk c e.word fuel temp)
    (fun _ _ _ _ _ hget hne => chainWalk_next hget hne) hl₁ (k + 1) a e
  rw [Nat.add_assoc, hwalk, chainWalk, hget]
  cases n with
  | none => rfl
  | some next => exact if_neg (not_not.2 rfl)

/-- Without the word it ends at the last entry. -/
theorem chainWalk_notMem (h : IsList c (some temp) (l ++ [(a, e)]))
    (hl : ∀ x ∈ l, x.2.word ≠ w) (hfuel : l.length < fuel) :
    chainWalk c w fuel temp = some a := by
  obtain ⟨k, rfl⟩ := Nat.exists_eq_add_of_lt hfuel
  obtain ⟨n, hget, rfl⟩ := h.get_eq
  obtain ⟨-, -, hwalk, -⟩ := h.walkTo (F := fun fuel _ temp => chainWalk c w fuel temp)
    (fun _ _ _ _ _ hget hne => chainWalk_next hget hne) hl (k + 1) a e
  rw [Nat.add_assoc, hwalk, chainWalk, hget]
  rfl

end Walk

section Insert

variable {wc wc' : Table} {i a : Nat} {e : Entry} {w : Bytes} {l l₁ l₂ : List (Nat × Entry)}

/-- What an insertion leaves of the other chains: their heads, and every entry that is not in the
chain of the word. -/
structure Frame (wc wc' : Table) (i : Nat) (l : List (Nat × Entry)) : Prop where
  heads : ∀ j ≠ i, wc'.table j = wc.table j
  entries : ∀ b cell, wc.entries.get b = some cell → b ∉ l.map Prod.fst →
    wc'.entries.get b = some cell

/-- The first word of a chain. -/
theorem insertEntry_nil (h : IsList wc.entries (wc.table i) []) (w : Bytes) :
    ∃ wc' l', insertEntry i w wc = some wc' ∧ IsList wc'.entries (wc'.table i) l' ∧
      l'.map Prod.snd = [entryInit w] ∧ Frame wc wc' i [] := by
  have hnone : wc.table i = none := h
  refine ⟨⟨Function.update wc.table i (some wc.entries.length), (wc.entries.alloc (entryInit w)).2⟩,
    [(wc.entries.length, entryInit w)], ?_, ?_, rfl, ?_⟩
  · rw [insertEntry, hnone]
    rfl
  · refine ⟨Function.update_self _ _ _, none, Cells.get_alloc_self _ _, rfl⟩
  · exact {
      heads := fun j hj => Function.update_of_ne hj _ _
      entries := fun b cell hb _ => Cells.get_alloc_old hb _ }

/-- A word that its chain has. -/
theorem insertEntry_mem (h : IsList wc.entries (wc.table i) (l₁ ++ (a, e) :: l₂))
    (hl₁ : ∀ x ∈ l₁, x.2.word ≠ e.word) :
    ∃ wc', insertEntry i e.word wc = some wc' ∧
      IsList wc'.entries (wc'.table i) (l₁ ++ (a, { e with num_seen := e.num_seen + 1 }) :: l₂) ∧
      Frame wc wc' i (l₁ ++ (a, e) :: l₂) := by
  have hsize := h.length_le
  rw [List.length_append, List.length_cons] at hsize
  obtain ⟨head, hhead⟩ := h.exists_head (by simp)
  have hwalk := chainWalk_mem (hhead ▸ h) hl₁ (show l₁.length < wc.entries.length by omega)
  obtain ⟨n, hget, -⟩ := h.get_eq
  obtain ⟨c', hset, hlist, hother⟩ := h.setVal { e with num_seen := e.num_seen + 1 }
  refine ⟨{ wc with entries := c' }, ?_, hlist, ?_⟩
  · simp only [insertEntry, hhead, Option.bind_eq_bind, Option.bind_some, hwalk, hget, hset]
    apply if_pos
    cases n with
    | none => exact .inr ⟨rfl, trivial⟩
    | some next => exact .inl fun h => by cases h
  · refine ⟨fun j _ => rfl, fun b cell hb hnot => (hother b ?_).trans hb⟩
    rintro rfl
    exact hnot (List.mem_map_of_mem (List.mem_append_right _ List.mem_cons_self))

/-- A word that its chain has not. -/
theorem insertEntry_notMem (h : IsList wc.entries (wc.table i) (l ++ [(a, e)]))
    (hl : ∀ x ∈ l ++ [(a, e)], x.2.word ≠ w) :
    ∃ wc', insertEntry i w wc = some wc' ∧
      IsList wc'.entries (wc'.table i) (l ++ (a, e) :: [(wc.entries.length, entryInit w)]) ∧
      Frame wc wc' i (l ++ [(a, e)]) := by
  have hsize := h.length_le
  rw [List.length_append, List.length_singleton] at hsize
  obtain ⟨head, hhead⟩ := h.exists_head (by simp)
  have hwalk := chainWalk_notMem (hhead ▸ h) (fun x hx => hl x (List.mem_append_left _ hx))
    (show l.length < wc.entries.length by omega)
  obtain ⟨n, hget, rfl⟩ := h.get_eq
  obtain ⟨c', hset, hlist, hother, -⟩ := (h.alloc (entryInit w)).link
    (Cells.get_alloc_self wc.entries _) rfl (h.fresh _)
  refine ⟨{ wc with entries := c' }, ?_, hlist, ?_⟩
  · have hne : w ≠ e.word := (hl (a, e) (List.mem_append_right _ List.mem_cons_self)).symm
    simp only [insertEntry, hhead, Option.bind_eq_bind, Option.bind_some, hwalk, hget, hset]
    apply if_neg
    simp [hne]
  · refine ⟨fun j _ => rfl, fun b cell hb hnot => (hother b ?_).trans (Cells.get_alloc_old hb _)⟩
    rintro rfl
    exact hnot (List.mem_map_of_mem (List.mem_append_right _ List.mem_cons_self))

/-- The chain in memory does what the list model of the chain says. -/
theorem insertEntry_spec (h : IsList wc.entries (wc.table i) l) (w : Bytes) :
    ∃ wc' l', insertEntry i w wc = some wc' ∧ IsList wc'.entries (wc'.table i) l' ∧
      l'.map Prod.snd = insertChain w (l.map Prod.snd) ∧ Frame wc wc' i l := by
  by_cases hw : ∀ x ∈ l, x.2.word ≠ w
  · rcases List.eq_nil_or_concat' l with rfl | ⟨l, ⟨a, e⟩, rfl⟩
    · exact insertEntry_nil h w
    · obtain ⟨wc', hinsert, hlist, hframe⟩ := insertEntry_notMem h hw
      refine ⟨wc', _, hinsert, hlist, ?_, hframe⟩
      have hword : ∀ x ∈ (l ++ [(a, e)]).map Prod.snd, x.word ≠ w := by
        intro x hx
        obtain ⟨y, hy, rfl⟩ := List.mem_map.1 hx
        exact hw y hy
      rw [insertChain_of_notMem hword, List.append_cons, List.map_append]
      rfl
  · push Not at hw
    obtain ⟨x, hx, hword⟩ := hw
    obtain ⟨y, hy⟩ : ∃ y, l.find? (fun x => x.2.word = w) = some y :=
      Option.isSome_iff_exists.1 (List.find?_isSome.2 ⟨x, hx, decide_eq_true hword⟩)
    obtain ⟨hyw, l₁, l₂, rfl, hl₁⟩ := List.find?_eq_some_iff_append.1 hy
    obtain ⟨a, e⟩ := y
    obtain rfl : e.word = w := of_decide_eq_true hyw
    have hne : ∀ x ∈ l₁, x.2.word ≠ e.word := fun x hx => by simpa using hl₁ x hx
    obtain ⟨wc', hinsert, hlist, hframe⟩ := insertEntry_mem h hne
    refine ⟨wc', _, hinsert, hlist, ?_, hframe⟩
    have hword : ∀ x ∈ l₁.map Prod.snd, x.word ≠ e.word := by
      intro x hx
      obtain ⟨y, hy, rfl⟩ := List.mem_map.1 hx
      exact hne y hy
    rw [List.map_append, List.map_append, List.map_cons, List.map_cons,
      insertChain_of_mem hword rfl]

/-- The table in memory holds the words, each in the chain of its hash number. -/
def Holds (h : Bytes → Nat) (wc : Table) (t : Nat → List (Nat × Entry)) (ws : List Bytes) : Prop :=
  ∀ i, IsList wc.entries (wc.table i) (t i) ∧ Counts ((t i).map Prod.snd) (ws.filter (h · = i))

end Insert

section Table

variable {h : Bytes → Nat} {wc : Table} {t : Nat → List (Nat × Entry)} {ws : List Bytes}
  {a i j : Nat} {e : Entry}

theorem Holds.hash_eq (holds : Holds h wc t ws) (he : (a, e) ∈ t i) : h e.word = i := by
  have hmem := ((holds i).2.mem_iff e).1 (List.mem_map_of_mem he)
  exact of_decide_eq_true (List.mem_filter.1 hmem.1).2

/-- Two chains have no entry in common, for its word has one hash number. -/
theorem Holds.disjoint (holds : Holds h wc t ws) (hij : i ≠ j) (ha : a ∈ (t i).map Prod.fst) :
    a ∉ (t j).map Prod.fst := by
  intro ha'
  obtain ⟨⟨a, e⟩, he, rfl⟩ := List.mem_map.1 ha
  obtain ⟨⟨a', e'⟩, he', heq⟩ := List.mem_map.1 ha'
  obtain rfl : a' = a := heq
  obtain ⟨n, hget⟩ := (holds i).1.get_of_mem he
  obtain ⟨n', hget'⟩ := (holds j).1.get_of_mem he'
  cases hget.symm.trans hget'
  exact hij ((holds.hash_eq he).symm.trans (holds.hash_eq he'))

/-- One more word. -/
theorem Holds.insert (holds : Holds h wc t ws) (w : Bytes) :
    ∃ wc' t', insertEntry (h w) w wc = some wc' ∧ Holds h wc' t' (ws ++ [w]) := by
  obtain ⟨wc', l', hinsert, hlist, hchain, hframe⟩ := insertEntry_spec (holds (h w)).1 w
  refine ⟨wc', Function.update t (h w) l', hinsert, fun i => ?_⟩
  rw [List.filter_append]
  by_cases hi : i = h w
  · subst hi
    rw [Function.update_self, List.filter_cons_of_pos (by simp), List.filter_nil, hchain]
    exact ⟨hlist, (holds _).2.insert w⟩
  · rw [Function.update_of_ne hi, List.filter_cons_of_neg (by simpa using Ne.symm hi),
      List.filter_nil, List.append_nil, hframe.heads i hi]
    refine ⟨(holds i).1.frame fun a ha => ?_, (holds i).2⟩
    obtain ⟨⟨a, e⟩, he, rfl⟩ := List.mem_map.1 ha
    obtain ⟨n, hget⟩ := (holds i).1.get_of_mem he
    rw [hget]
    exact hframe.entries a _ hget (holds.disjoint hi ha)

theorem Holds.insertWords (holds : Holds h wc t ws) (words : List Bytes) :
    ∃ wc' t', insertWords h words wc = some wc' ∧ Holds h wc' t' (ws ++ words) := by
  induction words generalizing wc t ws with
  | nil => exact ⟨wc, t, rfl, by rwa [List.append_nil]⟩
  | cons w words ih =>
    obtain ⟨wc₁, t₁, hinsert, holds₁⟩ := holds.insert w
    obtain ⟨wc', t', hwords, holds'⟩ := ih holds₁
    refine ⟨wc', t', ?_, by rwa [List.append_assoc] at holds'⟩
    rw [Entries.insertWords, List.foldlM_cons, hinsert]
    exact hwords

/-- After any words, with any hash function, each word that was inserted has one entry in the
table, in the chain of its hash number and with the number of its insertions. There is no other
entry, and no count is larger than the number of words. -/
theorem word_table_counts (h : Bytes → Nat) (words : List Bytes) (mem : Cells Entry) :
    ∃ (wc : Table) (t : Nat → List (Nat × Entry)),
      insertWords h words ⟨fun _ => none, mem⟩ = some wc ∧
      (∀ i, IsList wc.entries (wc.table i) (t i)) ∧
      (∀ w ∈ words, ∃ a, (a, ⟨w, words.count w⟩) ∈ t (h w) ∧
        ∀ i a' e, (a', e) ∈ t i → e.word = w → i = h w ∧ a' = a) ∧
      (∀ i a e, (a, e) ∈ t i → e.word ∈ words ∧ e.num_seen ≤ words.length) := by
  have hstart : Holds h ⟨fun _ => none, mem⟩ (fun _ => []) [] := fun _ => ⟨rfl, .nil⟩
  obtain ⟨wc, t, hwords, holds⟩ := hstart.insertWords words
  rw [List.nil_append] at holds
  have hcount : ∀ w, (words.filter (h · = h w)).count w = words.count w := fun w =>
    List.count_filter (p := fun v => h v = h w) (decide_eq_true rfl)
  refine ⟨wc, t, hwords, fun i => (holds i).1, fun w hw => ?_, fun i a e he => ?_⟩
  · have hmem : w ∈ words.filter (h · = h w) := List.mem_filter.2 ⟨hw, decide_eq_true rfl⟩
    have hentry := ((holds (h w)).2.mem_iff ⟨w, words.count w⟩).2 ⟨hmem, (hcount w).symm⟩
    obtain ⟨⟨a, e⟩, he, rfl⟩ := List.mem_map.1 hentry
    refine ⟨a, he, fun i a' e' he' hword => ?_⟩
    obtain rfl : i = h w := by rw [← holds.hash_eq he', hword]
    refine ⟨rfl, ?_⟩
    have hnodup := (holds (h w)).2.once
    rw [List.map_map] at hnodup
    exact congrArg Prod.fst (List.inj_on_of_nodup_map hnodup he' he hword)
  · obtain ⟨hmem, hseen⟩ := ((holds i).2.mem_iff e).1 (List.mem_map_of_mem he)
    refine ⟨(List.mem_filter.1 hmem).1, ?_⟩
    rw [hseen]
    exact List.count_le_length.trans (List.length_filter_le _ _)

end Table

end Ece344Lab.Warmup.Entries
