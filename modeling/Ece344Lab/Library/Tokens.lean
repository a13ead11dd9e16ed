import Mathlib.Data.List.Flatten
import Mathlib.Data.List.TakeWhile

/-!
# Tokens and lines

Splitting a text at delimiters, one token at a time: delimiters in front are skipped, the token goes
up to the next delimiter, and the text goes on behind that one. Splitting a text into lines, each
with the mark that ends it.
-/
namespace Ece344Lab.Library

variable {α : Type} {delim : α → Bool} {s w r : List α} {a d : α}

/-- The first token of a text, empty if there is none. -/
def token (delim : α → Bool) (s : List α) : List α :=
  (s.dropWhile delim).takeWhile fun a => !delim a

/-- The text behind the delimiter that ends the first token. -/
def afterToken (delim : α → Bool) (s : List α) : List α :=
  ((s.dropWhile delim).dropWhile fun a => !delim a).tail

/-- A nonempty text without delimiters. -/
structure IsWord (delim : α → Bool) (w : List α) : Prop where
  ne_nil : w ≠ []
  plain : ∀ a ∈ w, delim a = false

theorem token_sublist : (token delim s).Sublist s :=
  (List.takeWhile_sublist _).trans (List.dropWhile_sublist _)

theorem afterToken_sublist : (afterToken delim s).Sublist s :=
  (List.tail_sublist _).trans ((List.dropWhile_sublist _).trans (List.dropWhile_sublist _))

/-- A token and what comes after it stand in the text in this order. -/
theorem token_append_sublist : (token delim s ++ afterToken delim s).Sublist s := by
  have htail := List.tail_sublist ((s.dropWhile delim).dropWhile fun a => !delim a)
  refine (htail.append_left (token delim s)).trans ?_
  rw [token, List.takeWhile_append_dropWhile]
  exact List.dropWhile_sublist _

/-- A token is a word. -/
theorem isWord_token (h : token delim s ≠ []) : IsWord delim (token delim s) :=
  ⟨h, fun _ ha => by simpa using List.mem_takeWhile_imp ha⟩

@[simp]
theorem token_nil : token delim ([] : List α) = [] := rfl

@[simp]
theorem afterToken_nil : afterToken delim ([] : List α) = [] := rfl

theorem IsWord.dropWhile (hw : IsWord delim w) (r : List α) :
    (w ++ r).dropWhile delim = w ++ r := by
  obtain ⟨a, w, rfl⟩ := List.exists_cons_of_ne_nil hw.ne_nil
  rw [List.cons_append, List.dropWhile_cons_of_neg]
  rw [hw.plain a List.mem_cons_self]
  exact Bool.false_ne_true

theorem IsWord.not_delim (hw : IsWord delim w) (ha : a ∈ w) : (!delim a) = true := by
  rw [hw.plain a ha]
  rfl

/-- A word in front is the first token, whatever delimiter ends it. -/
theorem IsWord.token (hw : IsWord delim w) (hd : delim d = true) :
    token delim (w ++ d :: r) = w := by
  rw [Library.token, hw.dropWhile, List.takeWhile_append_of_pos fun a ha => hw.not_delim ha,
    List.takeWhile_cons_of_neg (by simp [hd]), List.append_nil]

theorem IsWord.afterToken (hw : IsWord delim w) (hd : delim d = true) :
    afterToken delim (w ++ d :: r) = r := by
  rw [Library.afterToken, hw.dropWhile, List.dropWhile_append_of_pos fun a ha => hw.not_delim ha,
    List.dropWhile_cons_of_neg (by simp [hd]), List.tail_cons]

/-- A text that is a word is its own token, and nothing comes after it. -/
theorem IsWord.token_self (hw : IsWord delim w) : Library.token delim w = w := by
  have h := hw.dropWhile []
  rw [List.append_nil] at h
  rw [Library.token, h]
  exact List.takeWhile_eq_self_iff.mpr fun a ha => hw.not_delim ha

theorem IsWord.afterToken_self (hw : IsWord delim w) : Library.afterToken delim w = [] := by
  have h := hw.dropWhile []
  rw [List.append_nil] at h
  rw [Library.afterToken, h, List.dropWhile_eq_nil_iff.mpr fun a ha => hw.not_delim ha,
    List.tail_nil]

section Lines

variable [DecidableEq α]

/-- The lines of a text, with the mark `nl` that ends them. The last one may lack it. -/
def linesOf (nl : α) : List α → List (List α)
  | [] => []
  | a :: s =>
    if a = nl then [a] :: linesOf nl s
    else
      match linesOf nl s with
      | [] => [[a]]
      | l :: ls => (a :: l) :: ls

theorem linesOf_line {nl : α} (hw : nl ∉ w) (s : List α) :
    linesOf nl (w ++ nl :: s) = (w ++ [nl]) :: linesOf nl s := by
  induction w with
  | nil => rw [List.nil_append, linesOf, if_pos rfl, List.nil_append]
  | cons a w ih =>
    rw [List.mem_cons, not_or] at hw
    rw [List.cons_append, linesOf, if_neg (Ne.symm hw.1), ih hw.2]
    rfl

/-- A text put together from lines has these lines. -/
theorem linesOf_flatMap {β : Type} {nl : α} {f : β → List α} {bs : List β}
    (hf : ∀ b ∈ bs, nl ∉ f b) :
    linesOf nl (bs.flatMap fun b => f b ++ [nl]) = bs.map fun b => f b ++ [nl] := by
  induction bs with
  | nil => rfl
  | cons b bs ih =>
    rw [List.forall_mem_cons] at hf
    rw [List.flatMap_cons, List.append_assoc, List.singleton_append, linesOf_line hf.1, ih hf.2,
      List.map_cons]

end Lines

end Ece344Lab.Library
