import Lunify.Proofs.Scope.Check
import Lunify.Proofs.Tree.Moved

/-!
# Checking a program with its tokens at other places

The scoping rules speak about the contents of tokens and not about their places, so a program whose tokens
stand elsewhere keeps to them or breaks them just the same (`check_moved`).
-/

namespace Lunify

open List

namespace Scope

open Tree

variable (f : Token → Position)

@[simp] lemma word_moved (t : Tree) : word (t.moved f) = word t := by
  rcases t with _ | ⟨l, _ | ⟨_ | _, _ | _⟩⟩ <;> rfl

lemma elements_moved : ∀ t : Tree, elements (t.moved f) = (elements t).map (Tree.moved f)
  | .leaf _ _ | .node _ [] | .node _ [_] | .node _ [_, _] | .node _ (_ :: _ :: _ :: _ :: _) => rfl
  | .node _ [rest, _, t] => by
    simp only [Tree.moved, movedAll, elements, elements_moved rest, map_append, map_cons, map_nil]

lemma ownNames_moved (l : Text) (ts : List Tree) : ownNames l (movedAll f ts) = ownNames l ts := by
  rcases ts with _ | ⟨_, _ | ⟨_, _ | ⟨_, _ | ⟨_, _ | ⟨_, _ | ⟨_, _ | _⟩⟩⟩⟩⟩⟩ <;>
    cases hform : Form.ofLabel l <;> simp [ownNames, movedAll, hform]

mutual

lemma boundNames_moved : ∀ t : Tree, boundNames (t.moved f) = boundNames t
  | .leaf _ _ => rfl
  | .node l ts => by rw [Tree.moved, boundNames, boundNames, ownNames_moved, boundNamesOf_moved ts]

lemma boundNamesOf_moved : ∀ ts : List Tree, boundNamesOf (movedAll f ts) = boundNamesOf ts
  | [] => rfl
  | t :: ts => by rw [movedAll, boundNamesOf, boundNamesOf, boundNames_moved t, boundNamesOf_moved ts]

end

lemma words_moved (t : Tree) : (elements (t.moved f)).map word = (elements t).map word := by
  rw [elements_moved, map_map]
  exact map_congr_left fun u _ => word_moved f u

lemma definition?_moved (l : Text) (ts : List Tree) : definition? l (movedAll f ts) = definition? l ts := by
  rcases ts with _ | ⟨_, _ | ⟨_, _ | ⟨_, _ | ⟨_, _ | ⟨_, _ | ⟨_, _ | ⟨_, _ | _⟩⟩⟩⟩⟩⟩⟩ <;>
    cases hform : Form.ofLabel l <;> simp [definition?, movedAll, hform, boundNames_moved, words_moved]

mutual

lemma definitions_moved : ∀ t : Tree, definitions (t.moved f) = definitions t
  | .leaf _ _ => rfl
  | .node l ts => by rw [Tree.moved, definitions, definitions, definition?_moved, definitionsOf_moved ts]

lemma definitionsOf_moved : ∀ ts : List Tree, definitionsOf (movedAll f ts) = definitionsOf ts
  | [] => rfl
  | t :: ts => by rw [movedAll, definitionsOf, definitionsOf, definitions_moved t, definitionsOf_moved ts]

end

lemma occurrencesOf_moved {ts : List Tree} (within : List Definition)
    (h : ∀ t ∈ ts, occurrences within (t.moved f) = occurrences within t) :
    occurrencesOf within (movedAll f ts) = occurrencesOf within ts := by
  induction ts with
  | nil => rfl
  | cons t ts ih =>
    obtain ⟨ht, hts⟩ := forall_mem_cons.1 h
    rw [movedAll, occurrencesOf, occurrencesOf, ht, ih hts]

lemma occurrences_moved (within : List Definition) :
    ∀ t : Tree, occurrences within (t.moved f) = occurrences within t
  | .leaf l tok => rfl
  | .node l ts => by
    have ih : ∀ u ∈ ts, ∀ within, occurrences within (u.moved f) = occurrences within u :=
      fun u _ within => occurrences_moved within u
    rw [Tree.moved, occurrences.eq_def, occurrences.eq_def]
    cases hform : Form.ofLabel l with
    | assignment =>
      rcases ts with _ | ⟨_, _ | ⟨_, _ | ⟨_, _ | _⟩⟩⟩ <;> simp_all [movedAll]
    | forLoop =>
      rcases ts with _ | ⟨_, _ | ⟨_, _ | ⟨_, _ | ⟨_, _ | ⟨_, _ | ⟨_, _ | _⟩⟩⟩⟩⟩⟩ <;> simp_all [movedAll]
    | call =>
      rcases ts with _ | ⟨_, _ | ⟨_, _ | ⟨_, _ | ⟨_, _ | _⟩⟩⟩⟩ <;> simp_all [movedAll, elements_moved]
    | keywordArgument =>
      rcases ts with _ | ⟨_, _ | ⟨_, _ | ⟨_, _ | _⟩⟩⟩ <;> simp_all [movedAll]
    | function =>
      rcases ts with _ | ⟨_, _ | ⟨_, _ | ⟨_, _ | ⟨_, _ | ⟨_, _ | ⟨_, _ | ⟨_, _ | _⟩⟩⟩⟩⟩⟩⟩ <;>
        simp_all [movedAll, words_moved, boundNames_moved]
    | identifier =>
      have hword := word_moved f (.node l ts)
      rw [Tree.moved] at hword
      simp only [hform, hword]
    | _ =>
      simp only [hform]
      exact occurrencesOf_moved f within fun t ht => ih t ht within
termination_by t => sizeOf t

/-- The rules do not depend on places. -/
lemma scoped_moved (t : Tree) : Scoped (t.moved f) ↔ Scoped t := by
  have hvisible : Visible (t.moved f) = Visible t := by
    funext declared within n
    cases within <;> simp only [Visible, boundNames_moved, definitions_moved]
  have hpermitted : Permitted (t.moved f) = Permitted t := by
    funext declared o
    rcases o with ⟨within, _ | _ | _⟩ <;> simp only [Permitted, hvisible, definitions_moved]
  constructor
  · rintro ⟨hdistinct, hall⟩
    rw [definitions_moved] at hdistinct
    rw [occurrences_moved, hpermitted] at hall
    exact ⟨hdistinct, hall⟩
  · rintro ⟨hdistinct, hall⟩
    refine ⟨?_, ?_⟩
    · rwa [definitions_moved]
    · rwa [occurrences_moved, hpermitted]

end Scope

/-- A program with its tokens at other places passes the check if it did before, and breaks a rule if it
did. -/
lemma check_moved (f : Token → Position) {t : Tree} (ht : t.IsDerivation Grammar.builtin) :
    check t = .ok () ∧ check (t.moved f) = .ok () ∨
      ∃ v v', check t = .error (.violation v) ∧ check (t.moved f) = .error (.violation v') := by
  have hmoved := Scope.check_cases (ht.moved f)
  rw [Scope.scoped_moved] at hmoved
  rcases Scope.check_cases ht with ⟨hscoped, hcheck⟩ | ⟨hnot, v, hcheck⟩
  · exact .inl ⟨hcheck, (hmoved.resolve_right fun h => h.1 hscoped).2⟩
  · obtain ⟨v', hcheck'⟩ := (hmoved.resolve_left fun h => hnot h.1).2
    exact .inr ⟨v, v', hcheck, hcheck'⟩

end Lunify
