import Mathlib.Data.List.Infix
import Mathlib.Tactic.Lemma
import Lunify.Text.Blank

/-!
# Words and blanks

A blank takes up to three bytes, so where one byte stands can depend on the bytes after it. A space settles
this: it continues no other blank (`blankWidth_append_space`), and so words that are joined by spaces are
read back as they are (`words_join`).
-/

namespace Lunify

open List

namespace Text

/-- Whether a text is a word: it is not empty, and no blank begins in it. -/
def IsWord (w : Text) : Prop :=
  w ≠ [] ∧ ∀ t ∈ w.tails, blankWidth t = 0

instance : DecidablePred IsWord := fun w =>
  inferInstanceAs (Decidable (w ≠ [] ∧ ∀ t ∈ w.tails, blankWidth t = 0))

variable {b : UInt8} {r s t w : Text}

/-! ### Blanks -/

lemma blankWidth_append_space (b : UInt8) (r s : Text) :
    blankWidth (b :: r ++ 32 :: s) = blankWidth (b :: r) := by
  match r with
  | [] => cases s <;> simp [blankWidth]
  | [c] => simp [blankWidth]
  | c :: d :: r => rfl

/-- A space and the bytes from tab to carriage return are blanks of one byte. -/
lemma blankWidth_cons (hb : b = 32 ∨ 9 ≤ b ∧ b ≤ 13) (r : Text) : blankWidth (b :: r) = 1 := by
  rw [blankWidth.eq_def]
  exact if_pos (by simpa using hb)

/-- Where no blank begins, none begins in the part of the text up to some place. -/
lemma blankWidth_eq_zero_of_append (h : blankWidth (s ++ t) = 0) : blankWidth s = 0 := by
  match s, t with
  | [], _ => rfl
  | [_], [] | [_, _], [] | _ :: _ :: _ :: _, _ => simpa [blankWidth] using h
  | [_], [_] | [_], _ :: _ :: _ | [_, _], _ :: _ => grind [blankWidth]

lemma dropBlanks_suffix (s : Text) : dropBlanks s <:+ s := by
  fun_induction dropBlanks s with
  | case1 s h ih => exact ih.trans (drop_suffix _ _)
  | case2 s h => exact suffix_rfl

lemma blankWidth_dropBlanks (s : Text) : blankWidth (dropBlanks s) = 0 := by
  fun_induction dropBlanks s with
  | case1 s h ih => exact ih
  | case2 s h =>
    by_contra hpos
    refine h ⟨Nat.pos_of_ne_zero hpos, ?_⟩
    rintro rfl
    exact hpos rfl

lemma dropBlanks_of_blankWidth_eq_zero (h : blankWidth s = 0) : dropBlanks s = s := by
  rw [dropBlanks, dif_neg (by simp [h])]

@[simp] lemma dropBlanks_nil : dropBlanks [] = [] :=
  dropBlanks_of_blankWidth_eq_zero rfl

@[simp] lemma dropBlanks_cons_space (s : Text) : dropBlanks (32 :: s) = dropBlanks s := by
  have hwidth : blankWidth (32 :: s) = 1 := blankWidth_cons (.inl rfl) s
  rw [dropBlanks, dif_pos ⟨by rw [hwidth]; exact Nat.one_pos, cons_ne_nil _ _⟩, hwidth, drop_one,
    tail_cons]

/-! ### Words -/

lemma spanWord_append (s : Text) : (spanWord s).1 ++ (spanWord s).2 = s := by
  induction s with
  | nil => rfl
  | cons b r ih =>
    rw [spanWord]
    split
    · rfl
    · rw [cons_append, ih]

/-- No blank begins in a word. -/
lemma blankWidth_of_suffix_spanWord (h : t <:+ (spanWord s).1) : blankWidth t = 0 := by
  induction s with
  | nil =>
    rw [suffix_nil.1 h]
    rfl
  | cons b r ih =>
    rw [spanWord] at h
    split at h
    · rw [suffix_nil.1 h]
      rfl
    · rename_i hb
      rcases suffix_cons_iff.1 h with rfl | h
      · refine blankWidth_eq_zero_of_append (t := (spanWord r).2) ?_
        rw [cons_append, spanWord_append]
        exact Nat.eq_zero_of_not_pos hb
      · exact ih h

/-- A word ends before a space. -/
lemma spanWord_append_space (h : ∀ t, t <:+ w → blankWidth t = 0) (s : Text) :
    spanWord (w ++ 32 :: s) = (w, 32 :: s) := by
  induction w with
  | nil => rfl
  | cons b w ih =>
    have hb : ¬ 0 < blankWidth (b :: (w ++ 32 :: s)) := by
      rw [← cons_append, blankWidth_append_space, h _ suffix_rfl]
      exact Nat.lt_irrefl 0
    rw [cons_append, spanWord, if_neg hb, ih fun t ht => h t (ht.trans (suffix_cons _ _))]

lemma spanWord_eq_self (h : ∀ t, t <:+ w → blankWidth t = 0) : spanWord w = (w, []) := by
  induction w with
  | nil => rfl
  | cons b w ih =>
    have hb : ¬ 0 < blankWidth (b :: w) := by
      rw [h _ suffix_rfl]
      exact Nat.lt_irrefl 0
    rw [spanWord, if_neg hb, ih fun t ht => h t (ht.trans (suffix_cons _ _))]

lemma words_of_dropBlanks_eq_nil (h : dropBlanks s = []) : words s = [] := by
  rw [words]
  split <;> simp_all

lemma words_of_dropBlanks_eq_cons (h : dropBlanks s = b :: r) :
    words s = (b :: (spanWord r).1) :: words (spanWord r).2 := by
  rw [words]
  split
  · simp_all
  · rename_i hcons
    obtain ⟨rfl, rfl⟩ := List.cons.inj (hcons.symm.trans h)
    rfl

@[simp] lemma words_cons_space (s : Text) : words (32 :: s) = words s := by
  cases h : dropBlanks s with
  | nil => rw [words_of_dropBlanks_eq_nil h, words_of_dropBlanks_eq_nil (by simpa using h)]
  | cons b r => rw [words_of_dropBlanks_eq_cons h, words_of_dropBlanks_eq_cons (by simpa using h)]

lemma IsWord.blankWidth_eq_zero (hw : w.IsWord) (h : t <:+ w) : blankWidth t = 0 :=
  hw.2 t ((mem_tails _ _).2 h)

/-- The word before a space is the first word. -/
lemma words_append_space (hw : w.IsWord) (s : Text) : words (w ++ 32 :: s) = w :: words s := by
  obtain ⟨b, r, rfl⟩ := exists_cons_of_ne_nil hw.1
  have hdrop : dropBlanks (b :: r ++ 32 :: s) = b :: (r ++ 32 :: s) := by
    refine dropBlanks_of_blankWidth_eq_zero ?_
    rw [blankWidth_append_space, hw.blankWidth_eq_zero suffix_rfl]
  have hr : ∀ t, t <:+ r → blankWidth t = 0 := fun t ht =>
    hw.blankWidth_eq_zero (ht.trans (suffix_cons _ _))
  rw [words_of_dropBlanks_eq_cons hdrop, spanWord_append_space hr, words_cons_space]

/-- A word alone is its only word. -/
lemma words_eq_singleton (hw : w.IsWord) : words w = [w] := by
  obtain ⟨b, r, rfl⟩ := exists_cons_of_ne_nil hw.1
  have hdrop : dropBlanks (b :: r) = b :: r :=
    dropBlanks_of_blankWidth_eq_zero (hw.blankWidth_eq_zero suffix_rfl)
  have hr : ∀ t, t <:+ r → blankWidth t = 0 := fun t ht =>
    hw.blankWidth_eq_zero (ht.trans (suffix_cons _ _))
  rw [words_of_dropBlanks_eq_cons hdrop, spanWord_eq_self hr, words_of_dropBlanks_eq_nil dropBlanks_nil]

/-- Words with spaces between them are read back. -/
lemma words_join {ws : List Text} (h : ∀ w ∈ ws, w.IsWord) : words (join [32] ws) = ws := by
  induction ws with
  | nil => exact words_of_dropBlanks_eq_nil dropBlanks_nil
  | cons w ws ih =>
    rw [forall_mem_cons] at h
    cases ws with
    | nil => rw [join, intercalate_singleton, words_eq_singleton h.1]
    | cons w' ws =>
      rw [join, intercalate_cons_cons, ← join, append_assoc, singleton_append,
        words_append_space h.1, ih h.2]

/-- The words of a text are words, and parts of it. -/
lemma isWord_of_mem_words (h : w ∈ words s) : w.IsWord ∧ w <:+: s := by
  fun_induction words s with
  | case1 s hnil => exact absurd h not_mem_nil
  | case2 s b r hcons ih =>
    have hsuffix : b :: r <:+ s := hcons ▸ dropBlanks_suffix s
    have hr : (spanWord r).1 ++ (spanWord r).2 = r := spanWord_append r
    rcases mem_cons.1 h with rfl | h
    · refine ⟨⟨cons_ne_nil _ _, fun t ht => ?_⟩, ?_⟩
      · rcases suffix_cons_iff.1 ((mem_tails _ _).1 ht) with rfl | ht
        · refine blankWidth_eq_zero_of_append (t := (spanWord r).2) ?_
          rw [cons_append, hr, ← hcons, blankWidth_dropBlanks]
        · exact blankWidth_of_suffix_spanWord ht
      · refine List.IsInfix.trans ⟨[], (spanWord r).2, ?_⟩ hsuffix.isInfix
        rw [nil_append, cons_append, hr]
    · obtain ⟨hword, hinfix⟩ := ih h
      have hrest : (spanWord r).2 <:+ r := ⟨_, hr⟩
      exact ⟨hword, hinfix.trans ((hrest.trans (suffix_cons b r)).trans hsuffix).isInfix⟩

lemma IsWord.notMem (hw : w.IsWord) (hb : b = 32 ∨ 9 ≤ b ∧ b ≤ 13) : b ∉ w := by
  intro hmem
  obtain ⟨l, r, rfl⟩ := append_of_mem hmem
  have hzero := hw.blankWidth_eq_zero (suffix_append l (b :: r))
  rw [blankWidth_cons hb] at hzero
  cases hzero

end Text

end Lunify
