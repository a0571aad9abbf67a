import Mathlib.Data.List.Infix
import Mathlib.Data.List.TakeWhile
import Mathlib.Tactic.Lemma
import Lunify.Text.Basic

/-!
# Texts cut into pieces

`Text.splitOn` cuts a text at every separator, `Text.cutAt` at the first occurrence of a mark. Both lose
nothing (`join_splitOn`, `cutAt_eq_some`), and what is before a cut has no separator or mark in it.
-/

namespace Lunify

open List

namespace Text

/-! ### Separators -/

variable {sep : UInt8} {s : Text}

lemma notMem_takeWhile (sep : UInt8) (s : Text) : sep ∉ s.takeWhile (· != sep) := by
  intro hmem
  have hne := mem_takeWhile_imp hmem
  simp at hne

lemma notMem_of_dropWhile_eq_nil (h : s.dropWhile (· != sep) = []) : sep ∉ s := by
  intro hmem
  have hall := dropWhile_eq_nil_iff.1 h sep hmem
  simp at hall

/-- A text is what stands before its first separator, the separator, and the rest. -/
lemma eq_of_dropWhile_eq_cons {b : UInt8} {r : Text} (h : s.dropWhile (· != sep) = b :: r) :
    s = s.takeWhile (· != sep) ++ sep :: r := by
  obtain rfl : b = sep := by
    have hhead := head?_dropWhile_not (· != sep) s
    rw [h] at hhead
    simpa using hhead
  rw [← h, takeWhile_append_dropWhile]

lemma splitOn_of_notMem (h : sep ∉ s) : splitOn sep s = [s] := by
  have hdrop : s.dropWhile (· != sep) = [] :=
    dropWhile_eq_nil_iff.2 fun b hb => bne_iff_ne.2 fun heq => h (heq ▸ hb)
  rw [splitOn]
  split <;> simp_all

/-- The piece before a first separator is the first piece. -/
lemma splitOn_append_cons (h : sep ∉ s) (r : Text) :
    splitOn sep (s ++ sep :: r) = s :: splitOn sep r := by
  have hs : ∀ b ∈ s, (b != sep) = true := fun b hb => bne_iff_ne.2 fun heq => h (heq ▸ hb)
  have hdrop : (s ++ sep :: r).dropWhile (· != sep) = sep :: r := by
    rw [dropWhile_append_of_pos hs, dropWhile_cons_of_neg (by simp)]
  have htake : (s ++ sep :: r).takeWhile (· != sep) = s := by
    rw [takeWhile_append_of_pos hs, takeWhile_cons_of_neg (by simp), append_nil]
  rw [splitOn]
  split
  · rename_i hnil
    rw [hdrop] at hnil
    cases hnil
  · rename_i hcons
    rw [hdrop] at hcons
    rw [htake, (List.cons.inj hcons).2]

lemma splitOn_ne_nil (sep : UInt8) (s : Text) : splitOn sep s ≠ [] := by
  unfold splitOn
  split <;> exact cons_ne_nil _ _

lemma notMem_of_mem_splitOn {piece : Text} (h : piece ∈ splitOn sep s) : sep ∉ piece := by
  fun_induction splitOn sep s with
  | case1 s hnil =>
    obtain rfl := mem_singleton.1 h
    exact notMem_of_dropWhile_eq_nil hnil
  | case2 s b r hcons ih =>
    rcases mem_cons.1 h with rfl | h
    · exact notMem_takeWhile sep s
    · exact ih h

/-- A text is its pieces with separators between them. -/
lemma join_splitOn (sep : UInt8) (s : Text) : join [sep] (splitOn sep s) = s := by
  fun_induction splitOn sep s with
  | case1 s hnil => exact intercalate_singleton
  | case2 s b r hcons ih =>
    obtain ⟨line, rest, hlines⟩ := exists_cons_of_ne_nil (splitOn_ne_nil sep r)
    rw [hlines] at ih ⊢
    rw [join, intercalate_cons_cons, ← join, ih, append_assoc]
    exact (eq_of_dropWhile_eq_cons hcons).symm

/-- A byte that is neither in the separator nor in a piece is not in what is joined. -/
lemma notMem_join {b : UInt8} {sep : Text} {pieces : List Text} (hsep : b ∉ sep)
    (hpieces : ∀ w ∈ pieces, b ∉ w) : b ∉ join sep pieces := by
  induction pieces with
  | nil => exact not_mem_nil
  | cons w ws ih =>
    rw [forall_mem_cons] at hpieces
    cases ws with
    | nil =>
      rw [join, intercalate_singleton]
      exact hpieces.1
    | cons w' ws =>
      rw [join, intercalate_cons_cons, ← join]
      simp only [mem_append, not_or]
      exact ⟨⟨hpieces.1, hsep⟩, ih hpieces.2⟩

/-- A piece of a text is part of it. -/
lemma isInfix_of_mem_splitOn {piece : Text} (h : piece ∈ splitOn sep s) : piece <:+: s := by
  fun_induction splitOn sep s with
  | case1 s hnil =>
    obtain rfl := mem_singleton.1 h
    exact infix_rfl
  | case2 s b r hcons ih =>
    rcases mem_cons.1 h with rfl | h
    · exact (List.takeWhile_prefix _).isInfix
    · have hr : b :: r <:+ s := hcons ▸ dropWhile_suffix _
      exact (ih h).trans ((suffix_cons b r).trans hr).isInfix

/-- The pieces of a text with a separator in it are those before and those after it. -/
lemma splitOn_append (sep : UInt8) (s r : Text) :
    splitOn sep (s ++ sep :: r) = splitOn sep s ++ splitOn sep r := by
  fun_induction splitOn sep s with
  | case1 s hnil => exact splitOn_append_cons (notMem_of_dropWhile_eq_nil hnil) r
  | case2 s b tail hcons ih =>
    have hs : s ++ sep :: r = s.takeWhile (· != sep) ++ sep :: (tail ++ sep :: r) := by
      conv_lhs => rw [eq_of_dropWhile_eq_cons hcons]
      rw [append_assoc, cons_append]
    rw [hs, splitOn_append_cons (notMem_takeWhile sep s), ih, cons_append]

/-- A text has one piece more than separators. -/
lemma length_splitOn (sep : UInt8) (s : Text) : (splitOn sep s).length = s.count sep + 1 := by
  fun_induction splitOn sep s with
  | case1 s hnil =>
    rw [count_eq_zero.2 (notMem_of_dropWhile_eq_nil hnil)]
    rfl
  | case2 s b tail hcons ih =>
    have hbefore : (s.takeWhile (· != sep)).count sep = 0 :=
      count_eq_zero.2 (notMem_takeWhile sep s)
    conv_rhs => rw [eq_of_dropWhile_eq_cons hcons]
    rw [length_cons, ih, count_append, hbefore, count_cons_self, Nat.zero_add]

/-! ### Marks -/

variable {mark before after : Text}

/-- A text is cut where a mark stands, unless one begins earlier. -/
lemma cutAt_append (h : ∀ t, t ≠ [] → t <:+ before → ¬ mark <+: t ++ (mark ++ after)) :
    cutAt mark (before ++ (mark ++ after)) = some (before, after) := by
  induction before with
  | nil =>
    rw [nil_append]
    cases hs : mark ++ after with
    | nil =>
      obtain ⟨rfl, rfl⟩ := append_eq_nil_iff.1 hs
      rfl
    | cons b r =>
      have hbegins : mark.isPrefixOf (b :: r) = true :=
        List.isPrefixOf_iff_prefix.2 (hs ▸ prefix_append mark after)
      rw [cutAt, if_pos hbegins, ← hs, drop_left]
  | cons b before ih =>
    have hbegins : ¬ mark.isPrefixOf (b :: (before ++ (mark ++ after))) = true := fun hp =>
      h (b :: before) (cons_ne_nil _ _) suffix_rfl (List.isPrefixOf_iff_prefix.1 hp)
    rw [cons_append, cutAt, if_neg hbegins,
      ih fun t ht hsuffix => h t ht (hsuffix.trans (suffix_cons _ _))]
    rfl

/-- What a cut gives: the text is put together from the two sides and the mark, and the mark does not
occur before the cut. -/
lemma cutAt_eq_some (hmark : mark ≠ []) (h : cutAt mark s = some (before, after)) :
    s = before ++ (mark ++ after) ∧ ¬ mark <:+: before := by
  induction s generalizing before with
  | nil =>
    rw [cutAt, if_neg (by simpa using hmark)] at h
    cases h
  | cons b r ih =>
    rw [cutAt] at h
    split at h
    · rename_i hbegins
      obtain ⟨rest, hrest⟩ := List.isPrefixOf_iff_prefix.1 hbegins
      cases h
      rw [← hrest, drop_left]
      exact ⟨rfl, fun hinfix => hmark (infix_nil.1 hinfix)⟩
    · rename_i hbegins
      obtain ⟨⟨l, r'⟩, hcut, heq⟩ := Option.map_eq_some_iff.1 h
      cases heq
      obtain ⟨hr, hfree⟩ := ih hcut
      refine ⟨by rw [hr, cons_append], fun hinfix => ?_⟩
      rcases infix_cons_iff.1 hinfix with hp | hinfix
      · have hlong : b :: l <+: b :: r := by
          rw [hr]
          exact ⟨mark ++ after, rfl⟩
        exact hbegins (List.isPrefixOf_iff_prefix.2 (hp.trans hlong))
      · exact hfree hinfix

end Text

end Lunify
