import Lunify.Proofs.Token.Lossless

/-!
# The tokens of one source after another

A source that is written after another one, which ends with a line feed, has the tokens it has alone,
further down (`Token.down`). What is between the two parts changes: the blocks that the first source
leaves open are closed not at its end but before the first line of the second one that is not blank, so
the `newline` dividers of the blank lines in between stand inside of these blocks (`exists_lex_append`).
-/

namespace Lunify

open List

/-- The same place `n` lines further down. -/
def Position.down (n : Nat) (p : Position) : Position :=
  ⟨p.line + n, p.column⟩

/-- The same token `n` lines further down. -/
def Token.down (n : Nat) (t : Token) : Token :=
  t.relocate (t.pos.down n)

namespace Position

@[simp] lemma line_down (n : Nat) (p : Position) : (p.down n).line = p.line + n := rfl

@[simp] lemma column_down (n : Nat) (p : Position) : (p.down n).column = p.column := rfl

end Position

namespace Token

@[simp] lemma pos_down (n : Nat) (t : Token) : (t.down n).pos = t.pos.down n := rfl

@[simp] lemma kind_down (n : Nat) (t : Token) : (t.down n).kind = t.kind := rfl

@[simp] lemma content_down (n : Nat) (t : Token) : (t.down n).content = t.content := rfl

@[simp] lemma isDivider_down (n : Nat) (w : Text) (t : Token) :
    (t.down n).isDivider w = t.isDivider w := rfl

end Token

/-! ### Lines further down -/

namespace Lexer

variable {number depth : Nat}

variable {tokens : List Token} {lines : List Text}

lemma map_down_depthChange (n old new : Nat) (pos : Position) :
    (depthChange old new pos).map (Token.down n) = depthChange old new (pos.down n) := by
  unfold depthChange
  split <;> exact map_replicate

lemma down_mk (n number : Nat) (column : Int) :
    Position.down n ⟨number, column⟩ = ⟨(number + n : Nat), column⟩ := by
  simp [Position.down]

/-- The part of a line that is further down has the tokens further down. -/
lemma Reads.down (n : Nat) {rest s : Text} {column : Nat} (h : Reads number rest column s tokens) :
    Reads (number + n) rest column s (tokens.map (Token.down n)) := by
  induction h with
  | nil column => exact .nil column
  | space hb _ ih => exact .space hb ih
  | lexeme hw hfirst _ ih =>
    rw [map_cons, Token.down, Token.relocate, down_mk]
    exact .lexeme hw hfirst ih

/-- A line further down has the tokens further down. -/
lemma ReadsLine.down (n : Nat) {last : Bool} {line : Text} {depth' : Nat}
    (h : ReadsLine number depth last line tokens depth') :
    ReadsLine (number + n) depth last line (tokens.map (Token.down n)) depth' := by
  cases h with
  | blank hspace => exact .blank hspace
  | last hspace =>
    rw [map_down_depthChange, down_mk]
    exact .last hspace
  | text hspace hblank h =>
    rw [map_append, map_down_depthChange, down_mk]
    exact .text hspace hblank (h.down n)

/-- Lines further down have the tokens further down. -/
lemma ReadsLines.down (n : Nat) (h : ReadsLines number depth lines tokens) :
    ReadsLines (number + n) depth lines (tokens.map (Token.down n)) := by
  induction h with
  | nil number depth => exact .nil _ depth
  | last h => exact .last (h.down n)
  | cons h _ ih =>
    rw [Nat.add_right_comm] at ih
    rw [map_append, map_cons, newline, Token.down, Token.relocate, down_mk]
    exact .cons (h.down n) ih

/-! ### Lines after others -/

/-- Lines before others give tokens of their own, and a depth at which the others begin. Without
others, the blocks that are open are closed after them. -/
lemma ReadsLines.exists_append (hfeed : ∀ line ∈ lines, byte '\n' ∉ line)
    (h : ReadsLines number depth (lines ++ [[]]) tokens) :
    ∃ before depth',
      tokens = before ++ depthChange depth' 0 ⟨(number + lines.length : Nat), 0⟩ ∧
      (∀ t ∈ before, t.pos.line < number + lines.length) ∧
      (before = [] ∧ lines = [] ∨ ∃ t ∈ before.getLast?, t.isDivider newlineText = true) ∧
      ∀ others ≠ [], ∀ later, ReadsLines (number + lines.length) depth' others later →
        ReadsLines number depth (lines ++ others) (before ++ later) := by
  induction lines generalizing number depth tokens with
  | nil =>
    obtain rfl := Except.ok.inj (linesTokens_eq_ok_iff.2 h)
    exact ⟨[], depth, rfl, by simp, by simp, fun others _ later hlater => hlater⟩
  | cons line lines ih =>
    obtain ⟨hline, hlines⟩ := forall_mem_cons.1 hfeed
    generalize hnext : lines ++ [[]] = rest at h
    rw [cons_append, hnext] at h
    cases h with
    | last h => simp at hnext
    | @cons _ _ depth₁ _ next rest here later hhere hlater =>
      rw [← hnext] at hlater
      obtain ⟨before, depth', rfl, hbefore, hend, hothers⟩ := ih hlines hlater
      have hlength : number + 1 + lines.length = number + (line :: lines).length := by
        rw [length_cons]
        omega
      refine ⟨here ++ newline number (newlineColumn line) :: before, depth', ?_, ?_, ?_, ?_⟩
      · rw [hlength, append_assoc, cons_append]
      · intro t ht
        rw [length_cons]
        rcases mem_append.1 ht with ht | ht
        · have := ((hhere.isChain hline).2.1 t ht).line
          omega
        rcases mem_cons.1 ht with rfl | ht
        · simp only [newline]
          omega
        · have := hbefore t ht
          omega
      · right
        rw [getLast?_append_cons, getLast?_cons]
        rcases hend with ⟨rfl, -⟩ | ⟨t, ht, hnewline⟩
        · exact ⟨_, rfl, rfl⟩
        · rw [Option.mem_def.1 ht]
          exact ⟨t, rfl, hnewline⟩
      · intro others hne later hlater'
        obtain ⟨next', rest', hnext'⟩ :=
          exists_cons_of_ne_nil (append_ne_nil_of_right_ne_nil lines hne)
        have hrest := hothers others hne later (hlength ▸ hlater')
        rw [hnext'] at hrest
        rw [cons_append, hnext', append_assoc, cons_append]
        exact .cons hhere hrest

/-- Lines of which the first is not blank give the same tokens at each depth, after the change of
depth. -/
lemma ReadsLines.exists_eq {line : Text} (hspace : line.all isSpace = false)
    (h : ReadsLines number depth (line :: lines) tokens) :
    ∃ rest,
      tokens = depthChange depth (leadingTabs line) ⟨number, tabWidth * leadingTabs line⟩ ++ rest ∧
      ∀ other, ReadsLines number other (line :: lines)
        (depthChange other (leadingTabs line) ⟨number, tabWidth * leadingTabs line⟩ ++ rest) := by
  cases h with
  | last h =>
    cases h with
    | last hspace' => simp [hspace'] at hspace
    | text _ hblank h => exact ⟨_, rfl, fun other => .last (.text hspace hblank h)⟩
  | @cons _ _ _ _ _ _ _ later h hlater =>
    cases h with
    | blank hspace' => simp [hspace'] at hspace
    | @text _ _ read _ hblank h =>
      refine ⟨read ++ newline number (newlineColumn line) :: later, append_assoc _ _ _, ?_⟩
      intro other
      rw [← append_assoc]
      exact .cons (.text hspace hblank h) hlater

lemma depthChange_self (depth : Nat) (pos : Position) : depthChange depth depth pos = [] := by
  simp [depthChange]

lemma head?_depthChange_append {tabs : Nat} (h : tabs ≠ 0) (pos : Position) (rest : List Token) :
    (depthChange 0 tabs pos ++ rest).head? = some ⟨.divider, indentText, pos⟩ := by
  obtain ⟨n, rfl⟩ := Nat.exists_eq_succ_of_ne_zero h
  simp [depthChange, replicate_succ]

/-- Lines that begin at some depth give the tokens that they give at depth zero, except that the open
blocks are closed before the first line that is not blank, unless that line is indented. -/
lemma ReadsLines.exists_depth (depth : Nat) (h : ReadsLines number 0 lines tokens) (hne : lines ≠ []) :
    ∃ blank rest, tokens = blank ++ rest ∧ (∀ t ∈ blank, t.isDivider newlineText = true) ∧
      ((∃ t ∈ rest.head?, t.isDivider indentText = true) ∨
        ∃ pos, ReadsLines number depth lines (blank ++ depthChange depth 0 pos ++ rest)) := by
  induction lines generalizing number tokens with
  | nil => exact absurd rfl hne
  | cons line lines ih =>
    cases hspace : line.all isSpace with
    | true =>
      cases h with
      | last h =>
        cases h with
        | last =>
          rw [depthChange_self]
          refine ⟨[], [], rfl, by simp, .inr ⟨⟨number, tabWidth * leadingTabs line⟩, ?_⟩⟩
          simpa using .last (.last hspace)
        | text hspace' => simp [hspace'] at hspace
      | cons h hlater =>
        cases h with
        | blank =>
          obtain ⟨blank, rest, rfl, hblank, hrest⟩ := ih hlater (cons_ne_nil _ _)
          refine ⟨newline number (newlineColumn line) :: blank, rest, rfl,
            forall_mem_cons.2 ⟨rfl, hblank⟩, hrest.imp_right ?_⟩
          rintro ⟨pos, hpos⟩
          exact ⟨pos, .cons (.blank hspace) hpos⟩
        | text hspace' => simp [hspace'] at hspace
    | false =>
      obtain ⟨rest, rfl, hother⟩ := h.exists_eq hspace
      refine ⟨[], _, rfl, by simp, ?_⟩
      by_cases htabs : leadingTabs line = 0
      · right
        rw [htabs] at hother ⊢
        refine ⟨⟨number, tabWidth * (0 : Nat)⟩, ?_⟩
        rw [depthChange_self]
        exact hother depth
      · exact .inl ⟨_, head?_depthChange_append htabs _ _, rfl⟩

end Lexer

/-- The tokens of a source after another one that ends with a line feed, unless the first line of it
that is not blank is indented: the blocks that are open are closed after its leading blank lines. -/
theorem exists_lex_append {p q : Text} {ps qs : List Token} (hend : p.getLast? = some (byte '\n'))
    (hp : lex p = .ok ps) (hq : lex q = .ok qs) :
    ∃ before blank rest depth pos pos',
      ps = before ++ List.replicate depth ⟨.divider, dedentText, pos⟩ ∧
      (∀ t ∈ before, t.pos.line < (p.count (byte '\n') : Int)) ∧
      (∃ t ∈ before.getLast?, t.isDivider newlineText = true) ∧
      qs = blank ++ rest ∧ (∀ t ∈ blank, t.isDivider newlineText = true) ∧
      ((∃ t ∈ rest.head?, t.isDivider indentText = true) ∨
        lex (p ++ q) = .ok (before ++ blank.map (Token.down (p.count (byte '\n'))) ++
          List.replicate depth ⟨.divider, dedentText, pos'⟩ ++
          rest.map (Token.down (p.count (byte '\n'))))) := by
  obtain ⟨p, rfl⟩ := getLast?_eq_some_iff.1 hend
  set n := (p ++ [byte '\n']).count (byte '\n') with hn
  have hlength : (Text.splitOn (byte '\n') p).length = n := by
    rw [hn, count_append, Text.length_splitOn]
    rfl
  have hchange : ∀ depth pos, Lexer.depthChange depth 0 pos =
      List.replicate depth ⟨.divider, dedentText, pos⟩ := by
    intro depth pos
    rw [Lexer.depthChange, if_neg (Nat.not_lt_zero _), Nat.sub_zero]
  rw [Lexer.lex_eq_ok_iff] at hp hq
  rw [Text.lines, Text.splitOn_append, Text.splitOn_of_notMem not_mem_nil] at hp
  obtain ⟨before, depth, rfl, hbefore, hlast, happend⟩ := Lexer.ReadsLines.exists_append
    (fun line hline => Text.notMem_of_mem_splitOn hline) hp
  rw [Nat.zero_add, hlength] at happend
  rw [hchange, Nat.zero_add, hlength]
  replace hlast := hlast.resolve_left fun h => Text.splitOn_ne_nil _ _ h.2
  replace hbefore : ∀ t ∈ before, t.pos.line < (n : Int) := by
    intro t ht
    have := hbefore t ht
    omega
  obtain ⟨blank, rest, rfl, hblank, hrest⟩ :=
    hq.exists_depth depth (Text.splitOn_ne_nil _ _)
  rcases hrest with hindent | ⟨pos, hpos⟩
  · exact ⟨before, blank, rest, depth, _, ⟨0, 0⟩, rfl, hbefore, hlast, rfl, hblank, .inl hindent⟩
  · have hall := happend _ (Text.splitOn_ne_nil _ _) _ (Nat.zero_add n ▸ hpos.down n)
    refine ⟨before, blank, rest, depth, _, pos.down n, rfl, hbefore, hlast, rfl, hblank, .inr ?_⟩
    rw [Lexer.lex_eq_ok_iff, Text.lines, append_assoc, singleton_append, Text.splitOn_append]
    rw [map_append, map_append, Lexer.map_down_depthChange, hchange, ← append_assoc,
      ← append_assoc] at hall
    exact hall

end Lunify
