import Lunify.Proofs.Rendering.Pieces

/-!
# Steps and the tokens of their texts

`Step.values` is what the scanner makes of the text of a step by itself. `Emits P steps ls Q` says that steps
write the tokens `ls`, as `Writes P steps ls Q` does, and that these are the tokens of the single texts: no
text joins the one before it, and none is cut.

A text can be written after anything unless it begins like the rest of a token. An equals sign, which is such
a rest, can be written after what is `Ended`, and a number after what is `Open`.
-/

namespace Lunify

open List

open Chunk (Lexes IsBlank joins mark)

namespace Chunk

/-- The values of the tokens of a text, its end apart. -/
def values (s : Text) : List Lexeme :=
  ((tokens s).map Token.lexeme).filter fun l => l ≠ .finish

lemma IsWord.ne_finish {w : Text} {l : Lexeme} (h : IsWord w l) : l ≠ .finish := by
  cases h with
  | word =>
    unfold wordLexeme
    split <;> simp
  | _ => simp

/-- A text made of words has the values of these. -/
lemma Lexes.values_eq {s : Text} {ls : List Lexeme} (h : Lexes s ls) : values s = ls := by
  have hne : ∀ l ∈ ls, l ≠ .finish := by
    induction h with
    | nil => simp
    | blank _ _ ih => exact ih
    | word hw _ _ ih => exact forall_mem_cons.2 ⟨hw.ne_finish, ih⟩
  have hkept : ls.filter (fun l => l ≠ .finish) = ls := by
    rw [filter_eq_self]
    intro l hl
    simpa using hne l hl
  rw [values, map_lexeme_tokens h, filter_append, hkept]
  simp

end Chunk

/-- The values of the tokens of the text that a step writes. -/
def Step.values (st : Step) : List Chunk.Lexeme :=
  (st.text?.map Chunk.values).getD []

/-- Steps that add the given words to a text made of words, which are the words of the single texts. -/
structure Emits (P : UInt8 → Prop) (steps : List Step) (ls : List Chunk.Lexeme) (Q : UInt8 → Prop) :
    Prop where
  writes : Writes P steps ls Q
  values : steps.flatMap Step.values = ls

namespace Emits

variable {P P' Q Q' R : UInt8 → Prop} {steps steps' : List Step} {st : Step} {s : Text}
  {ks ls : List Chunk.Lexeme}

lemma nil : Emits P [] [] P :=
  ⟨.nil, rfl⟩

lemma append (h : Emits P steps ks Q) (h' : Emits Q steps' ls R) :
    Emits P (steps ++ steps') (ks ++ ls) R :=
  ⟨h.writes.append h'.writes, by rw [flatMap_append, h.values, h'.values]⟩

lemma weaken (h : Emits P steps ls Q) (hP : ∀ x, P' x → P x) (hQ : ∀ x, Q x → Q' x) :
    Emits P' steps ls Q' :=
  ⟨h.writes.weaken hP hQ, h.values⟩

lemma piece (hst : st.text? = some s) (hs : Lexes s ls) (hne : s ≠ [])
    (hheld : ∀ x, P x → HeldOff x s) (hlast : ∀ x ∈ s.getLast?, Q x) : Emits P [st] ls Q where
  writes := .piece hst hs hne hheld hlast
  values := by simp [Step.values, hst, hs.values_eq]

lemma drop (t : Token) : Emits P [.drop t] [] P :=
  ⟨.drop t, rfl⟩

end Emits

/-! ### Texts that can be written anywhere -/

/-- Whether a text begins with nothing that can go on with what is before it, unless a blank divides them. -/
def Text.isFree (s : Text) : Bool :=
  s.head?.all fun b => !Text.isDigit b && b != byte 'e' && b != byte 'E' && b != byte '=' &&
    b != byte '.' && b != byte ':'

/-- Such a text is held off from anything. -/
lemma heldOff_of_isFree {s : Text} (h : s.isFree = true) (x : UInt8) : HeldOff x s := by
  simp only [Text.isFree, Option.all_eq_true, Bool.and_eq_true, Bool.not_eq_true', bne_iff_ne] at h
  refine heldOff_of_head (fun b hb => ?_) (.inr fun b hb => ?_)
  · obtain ⟨⟨⟨-, hequals⟩, hpoint⟩, hcolon⟩ := h b hb
    exact ⟨hequals, hpoint, hcolon⟩
  · obtain ⟨⟨⟨⟨⟨hdigit, hsmall⟩, hlarge⟩, -⟩, -⟩, -⟩ := h b hb
    exact ⟨hdigit, hsmall, hlarge⟩

/-- Whether a text begins with an equals sign, or can be written after anything. -/
def Text.isConnective (s : Text) : Bool :=
  s.isFree || s.head? = some (byte '=')

lemma heldOff_of_isConnective {s : Text} (h : s.isConnective = true) {x : UInt8} (hx : Ended x) :
    HeldOff x s := by
  rw [Text.isConnective, Bool.or_eq_true, decide_eq_true_eq] at h
  rcases h with hfree | hequals
  · exact heldOff_of_isFree hfree x
  · obtain ⟨r, rfl⟩ := head?_eq_some_iff.1 hequals
    exact heldOff_of_ended hx r

instance : DecidablePred Ended := fun x => inferInstanceAs (Decidable (joins x (byte '=') = false))

instance : DecidablePred Open := fun _ => inferInstanceAs (Decidable (_ ∧ _))

end Lunify
