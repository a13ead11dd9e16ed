import Ece344Lab.Warmup.Wc
import Mathlib.Data.List.TakeWhile

/-!
# The words that are counted

The scan closes a word at a space or at the last character, and in the second case the last
character is left out. The entries are the maximal runs of other characters than spaces, each with
its number of occurrences, exactly when the last character is a space and none is zero.
-/
namespace Ece344Lab.Warmup

variable {l cur word_array : Bytes} {size : Int} {wc : Wc}

/-- The maximal runs of characters that are no spaces. -/
def runs (l : Bytes) : List Bytes := (l.splitOnP isspace).filter (· ≠ [])

/-- The runs that the scan closes in `l` when `cur` is the word it is in. -/
def closed (cur : Bytes) : Bytes → List Bytes
  | [] => []
  | c :: l =>
    if cur ≠ [] ∧ (isspace c ∨ l = []) then cur :: closed [] l
    else if cur = [] ∧ isspace c then closed cur l
    else closed (cur ++ [c]) l

/-- The string that is left of a run: its characters in front of the first zero. -/
def cut (w : Bytes) : Bytes := w.takeWhile (· ≠ 0)

section Runs

theorem runs_word (h : ∀ c ∈ cur, isspace c = false) :
    runs cur = if cur = [] then [] else [cur] := by
  rw [runs, List.splitOnP_eq_singleton h]
  split_ifs with hcur
  · rw [hcur, List.filter_cons_of_neg (by simp), List.filter_nil]
  · rw [List.filter_cons_of_pos (by simpa using hcur), List.filter_nil]

theorem runs_space (h : ∀ c ∈ cur, isspace c = false) {c : UInt8} (hc : isspace c = true) :
    runs (cur ++ c :: l) = runs cur ++ runs l := by
  rw [runs, List.splitOnP_append_cons_of_forall_mem h c hc, runs_word h, runs]
  split_ifs with hcur
  · rw [hcur, List.filter_cons_of_neg (by simp), List.nil_append]
  · rw [List.filter_cons_of_pos (by simpa using hcur), List.singleton_append]

theorem word_nil : ∀ c ∈ ([] : Bytes), isspace c = false := fun _ h => by cases h

theorem runs_nil : runs [] = [] := runs_word word_nil

/-- The scan at a space. -/
theorem closed_space (h : ∀ c ∈ cur, isspace c = false) {c : UInt8} (hc : isspace c = true) :
    closed cur (c :: l) = runs cur ++ closed [] l := by
  rw [closed, runs_word h]
  by_cases hcur : cur = []
  · rw [if_neg fun h => h.1 hcur, if_pos ⟨hcur, hc⟩, if_pos hcur, hcur, List.nil_append]
  · rw [if_pos ⟨hcur, .inl hc⟩, if_neg hcur, List.singleton_append]

/-- The scan inside a word. -/
theorem closed_word {c : UInt8} (hc : isspace c = false) (hl : l ≠ []) :
    closed cur (c :: l) = closed (cur ++ [c]) l := by
  rw [closed, if_neg fun h => h.2.elim (by simp [hc]) hl, if_neg (by simp [hc])]

theorem word_append {c : UInt8} (h : ∀ c ∈ cur, isspace c = false) (hc : isspace c = false) :
    ∀ d ∈ cur ++ [c], isspace d = false := by
  intro d hd
  rcases List.mem_append.1 hd with hd | hd
  · exact h d hd
  · rw [List.mem_singleton.1 hd, hc]

theorem getLast?_cons_of_ne {c : UInt8} (hl : l ≠ []) : (c :: l).getLast? = l.getLast? := by
  rw [← List.singleton_append, List.getLast?_append_of_ne_nil _ hl]

/-- With a space at the end the closed runs are all. -/
theorem closed_eq_runs (h : ∀ c ∈ cur, isspace c = false) {c : UInt8}
    (hlast : l.getLast? = some c) (hc : isspace c = true) : closed cur l = runs (cur ++ l) := by
  induction l generalizing cur with
  | nil => cases hlast
  | cons d l ih =>
    by_cases hl : l = []
    · subst hl
      obtain rfl : d = c := by simpa using hlast
      rw [closed_space h hc, runs_space h hc, runs_nil]
      rfl
    rw [getLast?_cons_of_ne hl] at hlast
    cases hd : isspace d with
    | true => rw [closed_space h hd, runs_space h hd, ih word_nil hlast, List.nil_append]
    | false =>
      rw [closed_word hd hl, ih (word_append h hd) hlast, List.append_assoc, List.singleton_append]

/-- With another character at the end the last run loses it. -/
theorem closed_short (h : ∀ c ∈ cur, isspace c = false) {c : UInt8}
    (hlast : l.getLast? = some c) (hc : isspace c = false) :
    ∃ ws r, runs (cur ++ l) = ws ++ [r ++ [c]] ∧
      closed cur l = ws ++ if r = [] then [] else [r] := by
  induction l generalizing cur with
  | nil => cases hlast
  | cons d l ih =>
    by_cases hl : l = []
    · subst hl
      obtain rfl : d = c := by simpa using hlast
      refine ⟨[], cur, ?_, ?_⟩
      · rw [runs_word (word_append h hc), if_neg (by simp)]
        rfl
      · rw [closed, List.nil_append]
        by_cases hcur : cur = []
        · rw [if_neg fun h => h.1 hcur, if_neg (by simp [hc]), if_pos hcur, closed]
        · rw [if_pos ⟨hcur, .inr rfl⟩, if_neg hcur, closed]
    rw [getLast?_cons_of_ne hl] at hlast
    cases hd : isspace d with
    | true =>
      obtain ⟨ws, r, hruns, hclosed⟩ := ih word_nil hlast
      rw [List.nil_append] at hruns
      exact ⟨runs cur ++ ws, r, by rw [runs_space h hd, hruns, List.append_assoc],
        by rw [closed_space h hd, hclosed, List.append_assoc]⟩
    | false =>
      obtain ⟨ws, r, hruns, hclosed⟩ := ih (word_append h hd) hlast
      rw [List.append_assoc, List.singleton_append] at hruns
      exact ⟨ws, r, hruns, by rw [closed_word hd hl, hclosed]⟩

/-- Every other character than a space is in a run. -/
theorem mem_runs (h : ∀ c ∈ cur, isspace c = false) {c : UInt8} (hc : isspace c = false)
    (hmem : c ∈ cur ++ l) : ∃ r ∈ runs (cur ++ l), c ∈ r := by
  induction l generalizing cur with
  | nil =>
    rw [List.append_nil] at hmem ⊢
    rw [runs_word h, if_neg (List.ne_nil_of_mem hmem)]
    exact ⟨cur, List.mem_singleton_self _, hmem⟩
  | cons d l ih =>
    cases hd : isspace d with
    | true =>
      rw [runs_space h hd, runs_word h]
      rcases List.mem_append.1 hmem with hcur | hl
      · exact ⟨cur, by rw [if_neg (List.ne_nil_of_mem hcur)]; simp, hcur⟩
      · have hne : c ≠ d := by
          rintro rfl
          rw [hd] at hc
          cases hc
        obtain ⟨r, hr, hcr⟩ := ih word_nil ((List.mem_cons.1 hl).resolve_left hne)
        exact ⟨r, List.mem_append_right _ hr, hcr⟩
    | false =>
      have happend : cur ++ d :: l = cur ++ [d] ++ l := by simp
      rw [happend] at hmem ⊢
      exact ih (word_append h hd) hmem

/-- A closed word consists of characters of the array. -/
theorem mem_of_closed {w : Bytes} (hw : w ∈ closed cur l) {c : UInt8} (hc : c ∈ w) :
    c ∈ cur ++ l := by
  fun_induction closed cur l with
  | case1 => cases hw
  | case2 cur d l hclose ih =>
    rcases List.mem_cons.1 hw with rfl | hw
    · exact List.mem_append_left _ hc
    · exact List.mem_append_right _ (List.mem_cons_of_mem _ (ih hw))
  | case3 cur d l hstay hspace ih =>
    rw [List.mem_append, List.mem_cons]
    exact (List.mem_append.1 (ih hw)).imp_right .inr
  | case4 cur d l hstay hspace ih => simpa using ih hw

theorem length_closed (cur l : Bytes) : (closed cur l).length ≤ l.length := by
  fun_induction closed cur l with
  | case1 => exact Nat.le_refl _
  | case2 cur d l hclose ih => exact Nat.succ_le_succ ih
  | case3 cur d l hstay hspace ih => exact Nat.le_succ_of_le ih
  | case4 cur d l hstay hspace ih => exact Nat.le_succ_of_le ih

theorem cut_eq_self {w : Bytes} (h : ∀ c ∈ w, c ≠ 0) : cut w = w :=
  List.takeWhile_eq_self_iff.2 fun c hc => by simpa using h c hc

theorem zero_notMem_cut (w : Bytes) : (0 : UInt8) ∉ cut w := fun h => by
  simpa using List.mem_takeWhile_imp h

end Runs

section Scan

/-- The scan counts the strings of the runs it closes. -/
theorem scan_spec {rounds i char_count more_space moving_word_head : Nat} {ws : List Bytes}
    (hrounds : i + rounds = size.toNat) (hsize : size ≤ word_array.length)
    (hi : i = moving_word_head + more_space + char_count) (holds : Holds wc ws)
    (hcur : cur = (word_array.drop (moving_word_head + more_space)).take char_count) :
    ∃ wc', scan word_array size rounds i char_count more_space moving_word_head wc = some wc' ∧
      Holds wc' (ws ++ (closed cur ((word_array.take size.toNat).drop i)).map cut) := by
  induction rounds generalizing i char_count more_space moving_word_head wc ws cur with
  | zero =>
    rw [List.drop_of_length_le (by rw [List.length_take]; omega)]
    exact ⟨wc, rfl, by rwa [closed, List.map_nil, List.append_nil]⟩
  | succ rounds ih =>
    have hlt : i < word_array.length := by omega
    have hn : size.toNat ≤ word_array.length := by omega
    obtain ⟨l, hl⟩ : ∃ l, l = (word_array.take size.toNat).drop (i + 1) := ⟨_, rfl⟩
    have hrest : (word_array.take size.toNat).drop i = word_array[i] :: l := by
      rw [hl, List.drop_eq_getElem_cons (by rw [List.length_take]; omega), List.getElem_take]
    have hend : l = [] ↔ (i : Int) = size - 1 := by
      rw [hl, List.drop_eq_nil_iff, List.length_take]
      omega
    have hlen : cur.length = char_count := by
      rw [hcur, List.length_take, List.length_drop]
      omega
    have hempty : cur = [] ↔ char_count = 0 := by rw [← hlen, List.length_eq_zero_iff]
    rw [scan, List.getElem?_eq_getElem hlt, hrest, closed]
    dsimp only
    by_cases hclose : cur ≠ [] ∧ (isspace word_array[i] = true ∨ l = [])
    · have hcond : char_count ≠ 0 ∧ (isspace word_array[i] = true ∨ (i : Int) = size - 1) :=
        ⟨fun h => hclose.1 (hempty.2 h), hclose.2.imp_right hend.1⟩
      rw [if_pos hclose, if_pos hcond, copyWord, if_pos (by omega)]
      dsimp only
      have hnext : ([] : Bytes) = (word_array.drop
          (moving_word_head + (char_count + 1 + more_space) + 0)).take 0 := by simp
      have hleft : i + 1 + rounds = size.toNat := by omega
      obtain ⟨wc', hscan, hholds⟩ := ih hleft (by omega) (holds.insert (cut cur)) hnext
      rw [cut, hcur] at hscan
      refine ⟨wc', hscan, ?_⟩
      rw [← hl] at hholds
      rwa [List.map_cons, List.append_cons]
    · have hcond : ¬ (char_count ≠ 0 ∧ (isspace word_array[i] = true ∨ (i : Int) = size - 1)) :=
        fun h => hclose ⟨fun h' => h.1 (hempty.1 h'), h.2.imp_right hend.2⟩
      rw [if_neg hclose, if_neg hcond]
      by_cases hspace : cur = [] ∧ isspace word_array[i] = true
      · have hzero := hempty.1 hspace.1
        rw [if_pos hspace, if_pos ⟨hzero, hspace.2⟩, hl]
        exact ih (by omega) (by omega) holds (by rw [hspace.1, hzero, List.take_zero])
      · rw [if_neg hspace, if_neg fun h => hspace ⟨hempty.2 h.1, h.2⟩, hl]
        refine ih (by omega) (by omega) holds ?_
        rw [hcur, List.take_add_one, List.getElem?_drop, ← hi, List.getElem?_eq_getElem hlt]
        rfl

/-- The array has a space at its end, if it has any character, and no zero. -/
def Terminated (l : Bytes) : Prop :=
  (∀ c ∈ l, c ≠ 0) ∧ ∀ c, l.getLast? = some c → isspace c = true

/-- What is counted are the runs exactly when the array is terminated. -/
theorem counts_runs_iff {es : List Entry} (h : Counts es ((closed [] l).map cut)) :
    Counts es (runs l) ↔ Terminated l := by
  constructor
  · intro hruns
    have hcount : ∀ r ∈ runs l, r ∈ (closed [] l).map cut ∧
        (runs l).count r = ((closed [] l).map cut).count r := fun r hr =>
      (h.mem_iff ⟨r, (runs l).count r⟩).1 ((hruns.mem_iff _).2 ⟨hr, rfl⟩)
    have hzero : ∀ c ∈ l, c ≠ 0 := by
      rintro c hc rfl
      obtain ⟨r, hr, hmem⟩ := mem_runs (l := l) word_nil (c := 0) (by decide) hc
      rw [List.nil_append] at hr
      obtain ⟨w, -, rfl⟩ := List.mem_map.1 (hcount r hr).1
      exact zero_notMem_cut w hmem
    refine ⟨hzero, fun c hlast => ?_⟩
    by_contra hc
    obtain ⟨ws, r, hr, hclosed⟩ := closed_short word_nil hlast (by simpa using hc)
    rw [List.nil_append] at hr
    have hmap : (closed [] l).map cut = closed [] l := by
      refine List.map_congr_left (fun w hw => ?_) |>.trans (List.map_id _)
      exact cut_eq_self fun c hcw => hzero c (by simpa using mem_of_closed hw hcw)
    have hsame := (hcount (r ++ [c]) (by rw [hr]; simp)).2
    have hother : (if r = [] then [] else [r]).count (r ++ [c]) = 0 := by
      rw [List.count_eq_zero]
      split_ifs <;> simp
    rw [hmap, hr, hclosed, List.count_append, List.count_append, List.count_singleton_self,
      hother] at hsame
    omega
  · rintro ⟨hzero, hlast⟩
    have hmap : (closed [] l).map cut = closed [] l := by
      refine List.map_congr_left (fun w hw => ?_) |>.trans (List.map_id _)
      exact cut_eq_self fun c hcw => hzero c (by simpa using mem_of_closed hw hcw)
    cases hend : l.getLast? with
    | none =>
      obtain rfl := List.getLast?_eq_none_iff.1 hend
      rw [runs_nil]
      exact h
    | some c =>
      rw [hmap, closed_eq_runs word_nil hend (hlast c hend), List.nil_append] at h
      exact h

/-- `wc_init` stays inside the array and counts the strings of the runs it closes. -/
theorem wcInit_spec (hsize : size ≤ word_array.length) :
    ∃ wc, wcInit word_array size = some wc ∧
      Holds wc ((closed [] (word_array.take size.toNat)).map cut) := by
  have hstart : ([] : Bytes) = (word_array.drop (0 + 0)).take 0 := List.take_zero.symm
  obtain ⟨wc, hscan, holds⟩ := scan_spec (i := 0) (Nat.zero_add _) hsize rfl holds_nil hstart
  rw [List.nil_append, List.drop_zero] at holds
  exact ⟨wc, hscan, holds⟩

/-- `wc_init` stays inside the array, no count overflows, and the entries that `wc_output` prints
are the runs of other characters than spaces, each once with the number of its occurrences, exactly
when the array ends in a space and has no zero. -/
theorem wc_counts_iff (word_array : Bytes) (size : Int) (hsize : size ≤ word_array.length)
    (hint : size < 2 ^ 31) :
    ∃ wc, wcInit word_array size = some wc ∧ wcOutput wc = wc.printed.flatMap line ∧
      (∀ e ∈ wc.printed, e.num_seen < 2 ^ 31) ∧
      (Counts wc.printed (runs (word_array.take size.toNat)) ↔
        Terminated (word_array.take size.toNat)) := by
  obtain ⟨wc, hscan, holds⟩ := wcInit_spec hsize
  refine ⟨wc, hscan, rfl, fun e he => ?_, counts_runs_iff holds.printed⟩
  have hcount := (holds.printed.mem_iff e).1 he |>.2
  have hle := List.count_le_length (a := e.word)
    (l := (closed [] (word_array.take size.toNat)).map cut)
  have hlen := length_closed [] (word_array.take size.toNat)
  rw [List.length_map] at hle
  rw [List.length_take] at hlen
  omega

/-- `"a b\n"` is counted right. -/
theorem wc_counts_lines : ∃ wc, wcInit [97, 32, 98, 10] 4 = some wc ∧
    Counts wc.printed [[97], [98]] := by
  obtain ⟨wc, hinit, -, -, hcounts⟩ :=
    wc_counts_iff [97, 32, 98, 10] 4 (by decide) (by decide)
  have hterminated : Terminated [97, 32, 98, 10] := by
    refine ⟨by simp, fun c hc => ?_⟩
    simp only [List.getLast?_cons_cons, List.getLast?_singleton, Option.some.injEq] at hc
    subst hc
    decide
  exact ⟨wc, hinit, hcounts.2 hterminated⟩

/-- The last character of `"ab"` is lost. -/
theorem last_character_lost : ¬ ∀ (word_array : Bytes) (size : Int), size ≤ word_array.length →
    size < 2 ^ 31 → ∃ wc, wcInit word_array size = some wc ∧
      Counts wc.printed (runs (word_array.take size.toNat)) := by
  intro h
  obtain ⟨wc, hinit, hcounts⟩ := h [97, 98] 2 (by decide) (by decide)
  obtain ⟨wc', hinit', holds⟩ := @wcInit_spec [97, 98] 2 (by decide)
  obtain rfl := Option.some.inj (hinit.symm.trans hinit')
  have hlast := ((counts_runs_iff holds.printed).1 hcounts).2 98 rfl
  exact absurd hlast (by decide)

end Scan

end Ece344Lab.Warmup
