import Lunify.Proofs.Rendering.Accounts
import Lunify.Proofs.Rendering.Emits

/-!
# Steps within a line

Whatever is no layout is written within a line. `Inline steps u` says that steps go through the tokens `u` one
after the other and write no line feed. Such steps account for their tokens wherever a line goes on
(`Inline.accounts`), and where it begins if they begin with a token (`Inline.accounts_token`).

`Renders plain P steps u ls Q` says besides that the steps write the Lua tokens `ls`, as `Emits P steps ls Q`
does, provided that the strings of the source are plain.
-/

namespace Lunify

open List

/-- Steps that go through tokens in order and stay on their line. -/
inductive Inline : List Step → List Token → Prop
  | nil : Inline [] []
  | token {t : Token} {s : Text} {steps : List Step} {u : List Token} (hs : byte '\n' ∉ s)
      (h : Inline steps u) : Inline (.token t s :: steps) (t :: u)
  | keyword {t : Token} {s : Text} {steps : List Step} {u : List Token} (hs : byte '\n' ∉ s)
      (h : Inline steps u) : Inline (.keyword t s :: steps) (t :: u)
  | drop {t : Token} {steps : List Step} {u : List Token} (h : Inline steps u) :
      Inline (.drop t :: steps) (t :: u)
  | before {t : Token} {s : Text} {steps : List Step} {u : List Token} (hs : byte '\n' ∉ s)
      (h : Inline steps (t :: u)) : Inline (.before t s :: steps) (t :: u)
  | insert {s : Text} {steps : List Step} {u : List Token} (hs : byte '\n' ∉ s) (h : Inline steps u) :
      Inline (.insert s :: steps) u
  | span {first last : Token} {middle : List Token} {s : Text} {steps : List Step} {u : List Token}
      (hs : byte '\n' ∉ s) (h : Inline steps u) :
      Inline (.span first last s :: steps) (first :: middle ++ [last] ++ u)

namespace Inline

variable {steps steps' : List Step} {u u' done : List Token} {t : Token} {s : Text}

lemma append (h : Inline steps u) (h' : Inline steps' u') : Inline (steps ++ steps') (u ++ u') := by
  induction h with
  | nil => exact h'
  | token hs _ ih => exact .token hs ih
  | keyword hs _ ih => exact .keyword hs ih
  | drop _ ih => exact .drop ih
  | before hs _ ih => exact .before hs ih
  | insert hs _ ih => exact .insert hs ih
  | span hs _ ih => simpa using Inline.span hs ih

lemma midLine_concat (done : List Token) (ht : t.isVisible = true) : MidLine (done ++ [t]) :=
  ⟨t, by simp, ht⟩

/-- Where a line goes on, such steps account for their tokens. -/
lemma accounts (h : Inline steps u) (hu : ∀ t ∈ u, t.isVisible = true) (hdone : MidLine done) :
    Accounts done steps u := by
  induction h generalizing done with
  | nil => exact .nil
  | token hs _ ih =>
    rw [forall_mem_cons] at hu
    exact .token hu.1 hs (ih hu.2 (midLine_concat done hu.1))
  | keyword hs _ ih =>
    rw [forall_mem_cons] at hu
    exact .keyword hdone hu.1 hs (ih hu.2 (midLine_concat done hu.1))
  | drop _ ih =>
    rw [forall_mem_cons] at hu
    exact .drop hdone hu.1 (ih hu.2 (midLine_concat done hu.1))
  | before hs _ ih => exact .before hdone (hu _ mem_cons_self) hs (ih hu hdone)
  | insert hs _ ih => exact .insert (.inl hdone) hs (ih hu hdone)
  | span hs _ ih =>
    rw [forall_mem_append] at hu
    refine .span hdone hu.1 hs (ih hu.2 ?_)
    rw [← append_assoc]
    exact midLine_concat _ (hu.1 _ (by simp))

/-- Steps that begin with a token account for their tokens anywhere. -/
lemma accounts_token (h : Inline (.token t s :: steps) u) (hu : ∀ t ∈ u, t.isVisible = true)
    (done : List Token) : Accounts done (.token t s :: steps) u := by
  cases h with
  | token hs h =>
    rw [forall_mem_cons] at hu
    exact .token hu.1 hs (h.accounts hu.2 (midLine_concat done hu.1))

end Inline

/-- Steps within a line that go through the tokens `u` and, if strings are plain, write the words `ls`. -/
structure Renders (plain : Prop) (P : UInt8 → Prop) (steps : List Step) (u : List Token)
    (ls : List Chunk.Lexeme) (Q : UInt8 → Prop) : Prop where
  inline : Inline steps u
  emits : plain → Emits P steps ls Q

namespace Renders

variable {plain : Prop} {P P' Q Q' R : UInt8 → Prop} {steps steps' : List Step} {u u' : List Token} {t : Token}
  {s : Text} {ks ls : List Chunk.Lexeme}

lemma nil : Renders plain P [] [] [] P :=
  ⟨.nil, fun _ => .nil⟩

lemma append (h : Renders plain P steps u ks Q) (h' : Renders plain Q steps' u' ls R) :
    Renders plain P (steps ++ steps') (u ++ u') (ks ++ ls) R :=
  ⟨h.inline.append h'.inline, fun hplain => (h.emits hplain).append (h'.emits hplain)⟩

lemma weaken (h : Renders plain P steps u ls Q) (hP : ∀ x, P' x → P x) (hQ : ∀ x, Q x → Q' x) :
    Renders plain P' steps u ls Q' :=
  ⟨h.inline, fun hplain => (h.emits hplain).weaken hP hQ⟩

lemma ended (h : Renders plain P steps u ls Q) : Renders plain P steps u ls fun _ => True :=
  h.weaken (fun _ => id) fun _ _ => trivial

lemma token (hs : byte '\n' ∉ s) (h : plain → Emits P [.token t s] ls Q) :
    Renders plain P [.token t s] [t] ls Q :=
  ⟨.token hs .nil, h⟩

lemma keyword (hs : byte '\n' ∉ s) (h : Emits P [.keyword t s] ls Q) :
    Renders plain P [.keyword t s] [t] ls Q :=
  ⟨.keyword hs .nil, fun _ => h⟩

lemma drop (t : Token) : Renders plain P [.drop t] [t] [] P :=
  ⟨.drop .nil, fun _ => .drop t⟩

lemma insert (hs : byte '\n' ∉ s) (h : Emits P [.insert s] ls Q) : Renders plain P [.insert s] [] ls Q :=
  ⟨.insert hs .nil, fun _ => h⟩

/-- Text before a token. -/
lemma before (hs : byte '\n' ∉ s) (hbefore : Emits P [.before t s] ks Q)
    (h : Renders plain Q steps (t :: u) ls R) :
    Renders plain P (.before t s :: steps) (t :: u) (ks ++ ls) R :=
  ⟨.before hs h.inline, fun hplain => hbefore.append (h.emits hplain)⟩

end Renders

end Lunify
