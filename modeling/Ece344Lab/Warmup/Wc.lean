import Mathlib.Algebra.Order.Ring.Int
import Mathlib.Data.List.Basic
import Mathlib.Data.List.Nodup
import Mathlib.Data.List.Count

/-!
# The word counter

`wc.c`: the scan of the characters, the hash table of the words seen and its output. A chain of
the table is the list of its entries, from the head on.
-/
namespace Ece344Lab.Warmup

abbrev Bytes := List UInt8

def HASHTABLE_SIZE : Nat := 100000000

/-- `struct entry`, less its `next` pointer; `word` is the string without its final zero. A word
is seen at most once a character, so that `num_seen` stays within an `int`. -/
@[ext]
structure Entry where
  word : Bytes
  num_seen : Nat
  deriving DecidableEq

/-- `struct wc`. -/
structure Wc where
  table : Nat → List Entry

/-- `isspace` in the C locale. -/
def isspace (c : UInt8) : Bool := c = 32 || (9 ≤ c && c ≤ 13)

/-- The loop of `hash`; a `char` is signed. -/
def hashFrom (h : UInt64) : Bytes → UInt64
  | [] => h
  | c :: str => hashFrom ((h <<< 5) + h + c.toInt8.toInt64.toUInt64) str

def hash (str : Bytes) : Nat := (hashFrom 5381 str).toNat % HASHTABLE_SIZE

def entryInit (word : Bytes) : Entry := ⟨word, 1⟩

/-- The walk of `insertEntry` along a chain: it stops at the word or at the last entry. -/
def insertChain (single_word : Bytes) : List Entry → List Entry
  | [] => [entryInit single_word]
  | [temp] =>
    if single_word = temp.word then [{ temp with num_seen := temp.num_seen + 1 }]
    else [temp, entryInit single_word]
  | temp :: next :: rest =>
    if single_word ≠ temp.word then temp :: insertChain single_word (next :: rest)
    else { temp with num_seen := temp.num_seen + 1 } :: next :: rest

def insertEntry (hash_num : Nat) (single_word : Bytes) (hashtable : Wc) : Wc :=
  ⟨Function.update hashtable.table hash_num (insertChain single_word (hashtable.table hash_num))⟩

/-- `strncpy` of `char_count` characters and the final zero: the string it leaves. `none` when the
characters lie behind the end of the array. -/
def copyWord (word_array : Bytes) (src char_count : Nat) : Option Bytes :=
  if src + char_count ≤ word_array.length then
    some (((word_array.drop src).take char_count).takeWhile (· ≠ 0))
  else none

/-- The loop of `wc_init`, with the rounds left. `none` when it reads behind the array. -/
def scan (word_array : Bytes) (size : Int) : Nat → Nat → Nat → Nat → Nat → Wc → Option Wc
  | 0, _, _, _, _, wc => some wc
  | rounds + 1, i, char_count, more_space, moving_word_head, wc =>
    match word_array[i]? with
    | none => none
    | some c =>
      if char_count ≠ 0 ∧ (isspace c ∨ (i : Int) = size - 1) then
        match copyWord word_array (moving_word_head + more_space) char_count with
        | none => none
        | some single_word =>
          scan word_array size rounds (i + 1) 0 0 (moving_word_head + (char_count + 1 + more_space))
            (insertEntry (hash single_word) single_word wc)
      else if char_count = 0 ∧ isspace c then
        scan word_array size rounds (i + 1) char_count (more_space + 1) moving_word_head wc
      else scan word_array size rounds (i + 1) (char_count + 1) more_space moving_word_head wc

def wcInit (word_array : Bytes) (size : Int) : Option Wc :=
  scan word_array size size.toNat 0 0 0 0 ⟨fun _ => []⟩

/-- What `%d` prints for a number that is not negative. -/
def decimal (n : Nat) : Bytes := (Nat.toDigits 10 n).map fun d => UInt8.ofNat d.toNat

/-- `"%s:%d\n"`. -/
def line (e : Entry) : Bytes := e.word ++ 58 :: decimal e.num_seen ++ [10]

/-- The entries in the order in which `wc_output` comes to them. -/
def Wc.printed (wc : Wc) : List Entry := (List.range HASHTABLE_SIZE).flatMap wc.table

def wcOutput (wc : Wc) : Bytes := wc.printed.flatMap line

section Table

variable {es : List Entry} {ws : List Bytes} {w : Bytes} {wc : Wc} {i : Nat}

theorem insertChain_of_notMem (h : ∀ e ∈ es, e.word ≠ w) :
    insertChain w es = es ++ [entryInit w] := by
  fun_induction insertChain w es with
  | case1 => rfl
  | case2 temp heq => exact absurd heq.symm (h temp List.mem_cons_self)
  | case3 temp hne => rfl
  | case4 temp next rest hne ih =>
    rw [ih fun e he => h e (List.mem_cons_of_mem _ he)]
    rfl
  | case5 temp next rest heq => exact absurd (not_not.1 heq).symm (h temp List.mem_cons_self)

theorem insertChain_of_mem {l r : List Entry} {e : Entry} (hl : ∀ e ∈ l, e.word ≠ w)
    (he : e.word = w) :
    insertChain w (l ++ e :: r) = l ++ { e with num_seen := e.num_seen + 1 } :: r := by
  induction l with
  | nil =>
    cases r with
    | nil => rw [List.nil_append, insertChain, if_pos he.symm, List.nil_append]
    | cons next rest =>
      rw [List.nil_append, insertChain, if_neg (not_not.2 he.symm), List.nil_append]
  | cons temp l ih =>
    have hne : w ≠ temp.word := (hl temp List.mem_cons_self).symm
    have ih := ih fun e he => hl e (List.mem_cons_of_mem _ he)
    cases hrest : l ++ e :: r with
    | nil => simp at hrest
    | cons next rest =>
      rw [hrest] at ih
      rw [List.cons_append, hrest, insertChain, if_pos hne, ih]
      rfl

/-- The entries `es` count the words `ws`: each word once, with the number of its occurrences. -/
structure Counts (es : List Entry) (ws : List Bytes) : Prop where
  once : (es.map Entry.word).Nodup
  mem_iff : ∀ e, e ∈ es ↔ e.word ∈ ws ∧ e.num_seen = ws.count e.word

theorem Counts.nil : Counts [] [] := ⟨List.nodup_nil, fun e => by simp⟩

/-- Counting one more word changes the count of that word only. -/
theorem Counts.of_insert (h : Counts es ws) {es' : List Entry} (once : (es'.map Entry.word).Nodup)
    (other : ∀ e, e.word ≠ w → (e ∈ es' ↔ e ∈ es))
    (same : ∀ e, e.word = w → (e ∈ es' ↔ e.num_seen = ws.count w + 1)) :
    Counts es' (ws ++ [w]) where
  once := once
  mem_iff e := by
    rw [List.mem_append, List.mem_singleton, List.count_append]
    by_cases he : e.word = w
    · rw [same e he, he, List.count_singleton_self]
      exact ⟨fun h => ⟨.inr rfl, h⟩, fun h => h.2⟩
    · have hzero : [w].count e.word = 0 := List.count_eq_zero.2 (by simpa using he)
      rw [other e he, h.mem_iff, hzero, Nat.add_zero]
      exact and_congr_left fun _ => ⟨.inl, fun h => h.resolve_right he⟩

/-- One more word in its chain. -/
theorem Counts.insert (h : Counts es ws) (w : Bytes) : Counts (insertChain w es) (ws ++ [w]) := by
  by_cases hw : ∀ e ∈ es, e.word ≠ w
  · have hnew : ws.count w = 0 :=
      List.count_eq_zero.2 fun hmem => hw ⟨w, ws.count w⟩ ((h.mem_iff _).2 ⟨hmem, rfl⟩) rfl
    rw [insertChain_of_notMem hw]
    refine h.of_insert ?_ (fun e he => ?_) fun e he => ?_
    · rw [List.map_append, List.nodup_append]
      refine ⟨h.once, List.nodup_singleton _, fun x hx y hy => ?_⟩
      obtain ⟨e, he, rfl⟩ := List.mem_map.1 hx
      rw [List.map_singleton, List.mem_singleton] at hy
      exact hy ▸ hw e he
    · rw [List.mem_append, List.mem_singleton, or_iff_left]
      rintro rfl
      exact he rfl
    · rw [List.mem_append, List.mem_singleton, or_iff_right fun hmem => hw e hmem he, hnew]
      exact ⟨fun heq => heq ▸ rfl, fun hseen => Entry.ext he hseen⟩
  · push Not at hw
    obtain ⟨e, he, hword⟩ := hw
    obtain ⟨l, r, rfl⟩ := List.append_of_mem he
    have hnodup := h.once
    rw [List.map_append, List.map_cons, List.nodup_append, List.nodup_cons, hword] at hnodup
    obtain ⟨-, ⟨hr, -⟩, hdisjoint⟩ := hnodup
    have hl : ∀ x ∈ l, x.word ≠ w := fun x hx =>
      hdisjoint _ (List.mem_map_of_mem hx) w List.mem_cons_self
    have hr : ∀ x ∈ r, x.word ≠ w := fun x hx heq => hr (heq ▸ List.mem_map_of_mem hx)
    have hseen : e.num_seen = ws.count w := hword ▸ ((h.mem_iff e).1 he).2
    rw [insertChain_of_mem hl hword]
    refine h.of_insert ?_ (fun x hx => ?_) fun x hx => ?_
    · have heq := h.once
      rw [List.map_append, List.map_cons] at heq ⊢
      exact heq
    · rw [List.mem_append, List.mem_cons, List.mem_append, List.mem_cons]
      refine or_congr_right (or_congr_left (iff_of_false ?_ ?_))
      · rintro rfl
        exact hx hword
      · rintro rfl
        exact hx hword
    · rw [List.mem_append, List.mem_cons, or_iff_right fun hmem => hl x hmem hx,
        or_iff_left fun hmem => hr x hmem hx, ← hseen]
      exact ⟨fun heq => heq ▸ rfl, fun heq => Entry.ext (hx.trans hword.symm) heq⟩

/-- The table holds the words `ws`, each in the chain of its hash number. -/
def Holds (wc : Wc) (ws : List Bytes) : Prop := ∀ i, Counts (wc.table i) (ws.filter (hash · = i))

theorem holds_nil : Holds ⟨fun _ => []⟩ [] := fun _ => .nil

theorem Holds.insert (h : Holds wc ws) (w : Bytes) :
    Holds (insertEntry (hash w) w wc) (ws ++ [w]) := by
  intro i
  rw [insertEntry, List.filter_append]
  dsimp only
  by_cases hi : i = hash w
  · subst hi
    rw [Function.update_self, List.filter_cons_of_pos (by simp), List.filter_nil]
    exact (h _).insert w
  · rw [Function.update_of_ne hi, List.filter_cons_of_neg (by simpa using Ne.symm hi),
      List.filter_nil, List.append_nil]
    exact h i

theorem hash_lt (w : Bytes) : hash w < HASHTABLE_SIZE := Nat.mod_lt _ (by decide)

/-- The output goes through all chains. -/
theorem Holds.printed (h : Holds wc ws) : Counts wc.printed ws where
  once := by
    rw [Wc.printed, List.map_flatMap, List.nodup_flatMap]
    refine ⟨fun i _ => (h i).once, ?_⟩
    refine List.nodup_range.imp fun {i j} hij => ?_
    intro w hi hj
    obtain ⟨e, he, rfl⟩ := List.mem_map.1 hi
    obtain ⟨e', he', heq⟩ := List.mem_map.1 hj
    have h₁ := (List.mem_filter.1 ((h i).mem_iff e |>.1 he).1).2
    have h₂ := (List.mem_filter.1 ((h j).mem_iff e' |>.1 he').1).2
    rw [heq] at h₂
    exact hij ((of_decide_eq_true h₁).symm.trans (of_decide_eq_true h₂))
  mem_iff e := by
    rw [Wc.printed, List.mem_flatMap]
    constructor
    · rintro ⟨i, -, he⟩
      obtain ⟨hmem, hseen⟩ := (h i).mem_iff e |>.1 he
      obtain ⟨hmem, hi⟩ := List.mem_filter.1 hmem
      exact ⟨hmem, by rw [hseen, List.count_filter (p := fun w => hash w = i) hi]⟩
    · rintro ⟨hmem, hseen⟩
      refine ⟨hash e.word, List.mem_range.2 (hash_lt _), (h _).mem_iff e |>.2 ?_⟩
      have hi : decide (hash e.word = hash e.word) = true := decide_eq_true rfl
      exact ⟨List.mem_filter.2 ⟨hmem, hi⟩, 
        by rw [hseen, List.count_filter (p := fun w => hash w = hash e.word) hi]⟩

end Table

end Ece344Lab.Warmup
