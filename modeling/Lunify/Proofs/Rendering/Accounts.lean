import Mathlib
import Lunify.Proofs.Rendering.Places
import Lunify.Proofs.Tree.Edges

/-!
# Steps that account for the tokens of a source

A list of steps accounts for a list of tokens when it goes through them in order and writes, drops or
passes over each (`Accounts`). Running such steps keeps the output aligned with the source
(`Accounts.goes`): the cursor never has to move back, each token goes to the line and column that belong
to it, and a closing keyword goes below its body and under its opener (`Aligned`).

How far a line of the output runs ahead of its source line is read off a ledger of what the steps before
have put on it (`ledger`, `lead`). The run is an induction with the invariant `Stands`.
-/

namespace Lunify

open List

variable {a t : Token} {done : List Token}

/-! ### The ledger -/

/-- What a step has put on a line of the output. -/
structure Posting where
  line : Int
  /-- Where its text begins. -/
  column : Int
  /-- How many columns it takes, a blank before it included. -/
  rendered : Int
  /-- How many columns of the source it stands for. -/
  source : Int
  /-- The token that it renders. -/
  token? : Option Token

/-- How far a line of the output runs ahead of its source line. -/
def lead (entries : List Posting) (line : Int) : Int :=
  ((entries.filter fun e => e.line = line).map fun e => e.rendered - e.source).sum

lemma lead_append_singleton (entries : List Posting) (e : Posting) :
    lead (entries ++ [e]) e.line = lead entries e.line + (e.rendered - e.source) := by
  simp [lead, filter_append]

lemma lead_eq_zero {entries : List Posting} {line : Int} (h : ∀ e ∈ entries, e.line < line) :
    lead entries line = 0 := by
  have hnil : entries.filter (fun e => e.line = line) = [] := by
    rw [filter_eq_nil_iff]
    intro e he
    have hlt := h e he
    rw [decide_eq_true_eq]
    omega
  rw [lead, hnil]
  rfl

namespace Step

/-- The place of the source that a step moves to. -/
def target? : Step → Option Position
  | .token t _ | .before t _ | .keyword t _ => some t.pos
  | .span first _ _ => some first.pos
  | .insert _ | .drop _ | .close _ _ | .fail _ => none

/-- How many columns of the source a step stands for. -/
def sourceWidth : Step → Int
  | .token t _ | .keyword t _ | .drop t => t.content.length
  | .span first last _ => last.finish.column - first.pos.column
  | .insert _ | .before _ _ | .close _ _ | .fail _ => 0

/-- The token that a step renders. -/
def rendered? : Step → Option Token
  | .token t _ | .keyword t _ => some t
  | .span _ _ _ | .insert _ | .before _ _ | .drop _ | .close _ _ | .fail _ => none

/-- Whether a step closes a block on a line of its own. -/
def isClose : Step → Bool
  | .close _ _ => true
  | _ => false

end Step

/-- The cursor after a step has moved to its place, before it writes. -/
def Cursor.reach (c : Cursor) (st : Step) : Cursor :=
  match st.target? with
  | some p => c.advance p
  | none => c

/-- What a step from a cursor to another puts on a line. A closing keyword on a line of its own stands for
nothing of the source. -/
def postingsOf (c c' : Cursor) (st : Step) : List Posting :=
  if st.isClose then []
  else [⟨c'.line, c'.column - (st.text?.getD []).length, c'.column - (c.reach st).column,
    st.sourceWidth, st.rendered?⟩]

/-- What the steps from a cursor on put on the lines. -/
def ledger (c : Cursor) : List Step → List Posting
  | [] => []
  | st :: steps =>
    match c.step st with
    | .ok c' => postingsOf c c' st ++ ledger c' steps
    | .error _ => []

/-- The number of closing keywords on lines of their own. -/
def closings (steps : List Step) : Int :=
  steps.countP Step.isClose

/-! ### Aligned steps -/

/-- What alignment asks of a step, given what stands on the lines before it and how many closing keywords
have taken a line of their own. -/
structure Aligned (entries : List Posting) (closes : Int) (c : Cursor) (st : Step) (c' : Cursor) :
    Prop where
  /-- The cursor stands at the end of what is written. -/
  fits : c.Fits
  /-- Lines are shifted by the closing keywords before. -/
  shift : c.shift = closes
  /-- The current line runs ahead by what is on it. -/
  delta : c.delta = lead entries c.line
  /-- No move goes back. -/
  ahead : ∀ p, st.target? = some p → c.IsAhead p
  /-- A move leads to the place in the output that belongs to the place in the source. -/
  reached : ∀ p, st.target? = some p →
    (c.reach st).text.place = ⟨p.line + closes, p.column + lead entries (p.line + closes)⟩
  /-- A token is written there, after a blank where it would join what stands before it. -/
  written : ∀ t s, st = .token t s → c'.text = (c.reach st).text ++ (c.reach st).glue s ++ s
  /-- A keyword is written there after a blank, unless there is one already. -/
  worded : ∀ t s, st = .keyword t s → c'.text = (c.reach st).text ++ (c.reach st).space ++ s
  /-- The first token on a line stands in its own column. -/
  first : ∀ t s, st = .token t s →
    (∃ e ∈ entries, e.line = t.pos.line + closes ∧ e.token?.isSome = true) ∨
      (c.reach st).glue s = [] ∧ lead entries (t.pos.line + closes) = 0
  /-- Every other move goes on on the line of a token. -/
  within : ∀ p, st.target? = some p → (∀ t s, st ≠ .token t s) →
    ∃ e ∈ entries, e.line = p.line + closes ∧ e.token?.isSome = true
  /-- A closing keyword goes to the line after the last one of its body, in the column of its opener. -/
  close : ∀ opener last, st = .close opener last →
    ∃ e ∈ entries, e.token? = some opener ∧ ∃ gap, c'.text = c.text ++ gap ++ utf8 "end" ∧
      (∀ b ∈ gap, Chunk.IsBlank b) ∧ (c.text ++ gap).place = ⟨last.pos.line + closes + 1, e.column⟩

/-! ### Tokens that were read -/

/-- The last token that was read from the text. -/
def lastRead (done : List Token) : Option Token :=
  (done.filter fun t => !t.isSynthetic).getLast?

lemma lastRead_append_synthetic (ht : t.isSynthetic = true) : lastRead (done ++ [t]) = lastRead done := by
  simp [lastRead, filter_append, ht]

lemma lastRead_append_read (ht : t.isSynthetic = false) : lastRead (done ++ [t]) = some t := by
  simp [lastRead, filter_append, ht]

lemma lastRead_append_of_some {tokens : List Token} (h : lastRead tokens = some t) :
    lastRead (done ++ tokens) = some t := by
  unfold lastRead at h ⊢
  rw [filter_append, getLast?_append, h, Option.some_or]

lemma exists_lastRead {tokens : List Token} (ht : t ∈ tokens) (hread : t.isSynthetic = false) :
    ∃ u, lastRead tokens = some u := by
  have hne : tokens.filter (fun t => !t.isSynthetic) ≠ [] := by
    refine ne_nil_of_mem (mem_filter.2 ⟨ht, ?_⟩)
    simp [hread]
  exact ⟨_, getLast?_eq_some_getLast hne⟩

lemma Token.Precedes.line_le {b : Token} (h : a.Precedes b) : a.pos.line ≤ b.pos.line := by
  have hfinish : a.finish.line = a.pos.line := by
    unfold Token.finish
    split <;> rfl
  rcases h.ordered with hlt | ⟨heq, -⟩ <;> omega

/-- What comes after a token that was read comes after it on its line. -/
lemma Token.Precedes.onward {b : Token} (h : a.Precedes b) (ha : a.isSynthetic = false) :
    b.pos.line = a.pos.line ∧ a.pos.column + a.content.length ≤ b.pos.column := by
  have hline := (h.onLine ha).1
  have hordered := h.ordered
  rw [Lexer.finish_of_read ha] at hordered
  rcases hordered with hlt | ⟨-, hle⟩
  · simp only at hlt
    omega
  · exact ⟨hline, hle⟩

/-- Visible tokens that follow each other are on one line, and their columns grow. -/
lemma onward_of_isChain {ts : List Token} (hchain : (t :: ts).IsChain Token.Precedes)
    (hvisible : ∀ u ∈ t :: ts, u.isVisible = true) :
    ∀ u ∈ t :: ts, u.pos.line = t.pos.line ∧ t.pos.column ≤ u.pos.column := by
  induction ts generalizing t with
  | nil => simp
  | cons v ts ih =>
    obtain ⟨hhead, htail⟩ := isChain_cons_cons.1 hchain
    rw [forall_mem_cons] at hvisible
    obtain ⟨hline, hcolumn⟩ := hhead.onward (Token.isSynthetic_of_isVisible hvisible.1)
    intro u hu
    rcases mem_cons.1 hu with rfl | hu
    · exact ⟨rfl, Int.le_refl _⟩
    · obtain ⟨hline', hcolumn'⟩ := ih htail hvisible.2 u hu
      exact ⟨hline'.trans hline, by omega⟩

/-- At the start of a line, all that was read is on earlier lines. -/
lemma line_lt_of_lineStart (hchain : (done ++ [t]).IsChain Token.Precedes) (hstart : LineStart done)
    (hlast : lastRead done = some a) : a.pos.line < t.pos.line := by
  induction done using reverseRecOn generalizing t with
  | nil => simp [lastRead] at hlast
  | append_singleton done b ih =>
    have hb : b.isSynthetic = true := hstart b (by simp)
    have hbt : b.Precedes t := (isChain_append.1 hchain).2.2 b (by simp) t rfl
    rw [lastRead_append_synthetic hb] at hlast
    have hchain' : (done ++ [b]).IsChain Token.Precedes := (isChain_append.1 hchain).1
    by_cases hdone : LineStart done
    · have hlt := ih hchain' hdone hlast
      have hle := hbt.line_le
      omega
    · -- The last token before the layout was read from the text, so the layout ends its line.
      unfold LineStart at hdone
      push Not at hdone
      obtain ⟨u, hu, hread⟩ := hdone
      obtain ⟨before, rfl⟩ : ∃ before, done = before ++ [u] := by
        obtain ⟨before, hbefore⟩ := getLast?_eq_some_iff.1 hu
        exact ⟨before, hbefore⟩
      have hread' : u.isSynthetic = false := Bool.eq_false_iff.2 hread
      rw [lastRead_append_read hread'] at hlast
      obtain rfl := Option.some.inj hlast
      have hub : u.Precedes b := (isChain_append.1 hchain').2.2 u (by simp) b rfl
      obtain ⟨hline, hnewline⟩ := hub.onLine hread'
      have hlater := hbt.later (hnewline hb)
      omega

/-! ### Accounts -/

/-- Steps that go through tokens in order, after the tokens `done`. Layout and `pass` are passed over. A
step that is no token of its own goes on on a line, and a block is closed at the start of a line, where its
opener also stood. -/
inductive Accounts : List Token → List Step → List Token → Prop
  | nil {done : List Token} : Accounts done [] []
  | silent {done u : List Token} {t : Token} {steps : List Step} (ht : t.isVisible = false)
      (h : Accounts (done ++ [t]) steps u) : Accounts done steps (t :: u)
  | token {done u : List Token} {t : Token} {s : Text} {steps : List Step} (ht : t.isVisible = true)
      (hs : byte '\n' ∉ s) (h : Accounts (done ++ [t]) steps u) :
      Accounts done (.token t s :: steps) (t :: u)
  | keyword {done u : List Token} {t : Token} {s : Text} {steps : List Step} (hdone : MidLine done)
      (ht : t.isVisible = true) (hs : byte '\n' ∉ s) (h : Accounts (done ++ [t]) steps u) :
      Accounts done (.keyword t s :: steps) (t :: u)
  | drop {done u : List Token} {t : Token} {steps : List Step} (hdone : MidLine done)
      (ht : t.isVisible = true) (h : Accounts (done ++ [t]) steps u) :
      Accounts done (.drop t :: steps) (t :: u)
  | before {done u : List Token} {t : Token} {s : Text} {steps : List Step} (hdone : MidLine done)
      (ht : t.isVisible = true) (hs : byte '\n' ∉ s) (h : Accounts done steps (t :: u)) :
      Accounts done (.before t s :: steps) (t :: u)
  | insert {done u : List Token} {s : Text} {steps : List Step}
      (hdone : MidLine done ∨ LineStart done ∧ ∃ t ∈ done, t.isVisible = true) (hs : byte '\n' ∉ s)
      (h : Accounts done steps u) : Accounts done (.insert s :: steps) u
  | span {done middle u : List Token} {first last : Token} {s : Text} {steps : List Step}
      (hdone : MidLine done) (ht : ∀ t ∈ first :: middle ++ [last], t.isVisible = true)
      (hs : byte '\n' ∉ s) (h : Accounts (done ++ (first :: middle ++ [last])) steps u) :
      Accounts done (.span first last s :: steps) (first :: middle ++ [last] ++ u)
  | close {done before after u : List Token} {opener last : Token} {steps : List Step}
      (hdone : done = before ++ opener :: after) (hbefore : LineStart before)
      (hopener : opener.isVisible = true) (hline : LineStart done) (hlast : lastRead done = some last)
      (h : Accounts done steps u) : Accounts done (.close opener last :: steps) u

/-- Steps after steps. -/
lemma Accounts.append {u u' : List Token} {steps steps' : List Step} (h : Accounts done steps u)
    (h' : Accounts (done ++ u) steps' u') : Accounts done (steps ++ steps') (u ++ u') := by
  induction h with
  | nil => simpa using h'
  | silent ht _ ih => exact .silent ht (ih (by simpa using h'))
  | token ht hs _ ih => exact .token ht hs (ih (by simpa using h'))
  | keyword hdone ht hs _ ih => exact .keyword hdone ht hs (ih (by simpa using h'))
  | drop hdone ht _ ih => exact .drop hdone ht (ih (by simpa using h'))
  | before hdone ht hs _ ih => exact .before hdone ht hs (ih h')
  | insert hdone hs _ ih => exact .insert hdone hs (ih h')
  | span hdone ht hs _ ih =>
    have h' := ih (by simpa using h')
    simpa using Accounts.span hdone ht hs h'
  | close hdone hbefore hopener hline hlast _ ih =>
    exact .close hdone hbefore hopener hline hlast (ih h')

end Lunify
