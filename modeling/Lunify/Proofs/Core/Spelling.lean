import Lunify.Proofs.Core.Parsed
import Lunify.Proofs.Rendering.Pieces

/-!
# Words and parts of constructs as they are planned

The steps of a word, of a token and of a node that is no construct, and those of the parts of a construct with
a rule for its colon. The bounds of a loop over a range are rendered on their own (`Core.SpellsBounds`).
-/

namespace Lunify

open List

namespace Core

open Chunk (Lexeme Lexes inParens mark)

variable {view : Position → Position} {t u : Tree} {w lua : String}

variable {l r s : Text} {ts : List Tree} {colon : Colon} {ls : List Lexeme}

/-! ### Words -/

/-- Whether a text can be written anywhere and be followed by an equals sign. -/
def isPiece (s : Text) : Bool :=
  s.head?.all (fun b => b != byte '=' && b != byte '.' && b != byte ':') &&
    s.getLast?.all (fun x => !Chunk.joins x (byte '=') && x != byte '.')

/-- Whether a word of the grammar is written so, whatever kind of token it is. -/
def IsSpelled (w lua : String) : Prop :=
  w ∉ Grammar.builtinCategories ∧
    (utf8 w ∈ Lunify.reservedWords → utf8 w ≠ utf8 "pass" ∧
      (Plan.keywordSpelling.lookup (utf8 w)).getD (utf8 w) = utf8 lua) ∧
    (utf8 w ∈ operatorTexts →
      (Plan.operatorSpelling.lookup (utf8 w)).getD (utf8 w) = utf8 lua) ∧
    (utf8 w ∈ dividerTexts → utf8 w = utf8 lua) ∧
    utf8 w ∉ [newlineText, indentText, dedentText]

instance (w lua : String) : Decidable (IsSpelled w lua) :=
  inferInstanceAs (Decidable (_ ∧ _))

/-- Whether the contents of all tokens of a tree fit their kinds. -/
def AllLexed (t : Tree) : Prop :=
  ∀ tok ∈ t.leaves, tok.Lexed

lemma allLexed_node : AllLexed (.node l ts) ↔ ∀ t ∈ ts, AllLexed t := by
  simp only [AllLexed, Tree.mem_leaves_node]
  exact ⟨fun h t ht tok htok => h tok ⟨t, ht, htok⟩, fun h tok ⟨t, ht, htok⟩ => h t ht tok htok⟩

lemma AllLexed.child (h : AllLexed (.node l ts)) (ht : t ∈ ts := by simp) :
    AllLexed t :=
  allLexed_node.1 h t ht

/-- The token of a word is a keyword, an operator or a divider of the tables. -/
lemma IsWord.exists_token (ht : IsWord w t) (hw : w ∉ Grammar.builtinCategories)
    (hlexed : AllLexed t) : ∃ tok, t = .leaf (utf8 w) tok ∧ tok.content = utf8 w ∧
      ((tok.kind = .keyword ∧ utf8 w ∈ Lunify.reservedWords) ∨
        (tok.kind = .operator ∧ utf8 w ∈ operatorTexts) ∨
        (tok.kind = .divider ∧ utf8 w ∈ dividerTexts)) := by
  obtain ⟨tok, rfl, hsymbol⟩ := ht
  obtain ⟨hcontent, hid, hnumber, hstring⟩ := Token.content_of_symbol hw hsymbol
  have htok : tok.Lexed := hlexed tok (by simp [Tree.leaves])
  refine ⟨tok, rfl, hcontent, ?_⟩
  rw [Token.Lexed, hcontent] at htok
  cases hkind : tok.kind with
  | identifier => exact absurd hkind hid
  | number => exact absurd hkind hnumber
  | string => exact absurd hkind hstring
  | other n => simp [hkind] at htok
  | keyword => exact .inl ⟨rfl, by simpa [hkind] using htok⟩
  | operator => exact .inr (.inl ⟨rfl, by simpa [hkind] using htok⟩)
  | divider => exact .inr (.inr ⟨rfl, by simpa [hkind] using htok⟩)

/-- A word is written in its Lua spelling. -/
lemma IsSpelled.exists_plan (hw : IsSpelled w lua) (ht : IsWord w t) (hlexed : AllLexed t)
    (view : Position → Position) :
    ∃ tok, t = .leaf (utf8 w) tok ∧ Plan.plan view t = [.token (Plan.place view tok) (utf8 lua)] := by
  obtain ⟨hcategory, hkeyword, hoperator, hdivider, hlayout⟩ := hw
  obtain ⟨tok, rfl, hcontent, hkind⟩ := ht.exists_token hcategory hlexed
  have hsynthetic : tok.isSynthetic = false := by
    simp only [mem_cons, not_mem_nil, or_false, not_or] at hlayout
    simp [Token.isSynthetic, hcontent, hlayout]
  refine ⟨tok, rfl, ?_⟩
  rcases hkind with ⟨hkind, hmem⟩ | ⟨hkind, hmem⟩ | ⟨hkind, hmem⟩
  · obtain ⟨hpass, hspelling⟩ := hkeyword hmem
    simp [Plan.plan, Plan.leafSteps, hsynthetic, hkind, hcontent, hpass, hspelling]
  · simp [Plan.plan, Plan.leafSteps, hsynthetic, hkind, hcontent, hoperator hmem]
  · simp [Plan.plan, Plan.leafSteps, hsynthetic, hkind, hcontent, hdivider hmem]

/-- Layout and `pass` are not written. -/
lemma IsWord.plan_eq_nil (ht : IsWord w t) (hw : w ∈ ["newline", "indent", "dedent", "pass"])
    (hlexed : AllLexed t) : Plan.plan view t = [] := by
  have hspec : ∀ w ∈ ["newline", "indent", "dedent", "pass"], w ∉ Grammar.builtinCategories ∧
      (utf8 w ∈ Lunify.reservedWords → utf8 w = utf8 "pass") ∧ utf8 w ∉ operatorTexts ∧
      (utf8 w ∈ dividerTexts → utf8 w ∈ [newlineText, indentText, dedentText]) := by
    decide
  obtain ⟨hcategory, hkeyword, hoperator, hdivider⟩ := hspec w hw
  obtain ⟨tok, rfl, hcontent, hkind⟩ := ht.exists_token hcategory hlexed
  rw [Plan.plan, Plan.leafSteps]
  rcases hkind with ⟨hkind, hmem⟩ | ⟨hkind, hmem⟩ | ⟨hkind, hmem⟩
  · simp [hkind, hcontent, hkeyword hmem]
  · exact absurd hmem hoperator
  · have hlayout := hdivider hmem
    simp only [mem_cons, not_mem_nil, or_false] at hlayout
    simp [Token.isSynthetic, hkind, hcontent, hlayout, or_assoc]

/-! ### Names and literals -/

/-- Letters and digits can be written anywhere. -/
lemma isPiece_of_isWordByte (hs : ∀ b ∈ s, Lunify.Lexeme.isWordByte b = true) : isPiece s = true := by
  have hne : ∀ c : UInt8, Lunify.Lexeme.isWordByte c = false → ∀ b ∈ s, b ≠ c := by
    rintro c hc b hb rfl
    exact absurd (hs b hb) (by simp [hc])
  simp only [isPiece, Bool.and_eq_true, Option.all_eq_true, bne_iff_ne, Bool.not_eq_true']
  refine ⟨fun b hb => ?_, fun x hx => ?_⟩
  · have hmem := mem_of_mem_head? hb
    exact ⟨⟨hne _ (by decide) b hmem, hne _ (by decide) b hmem⟩, hne _ (by decide) b hmem⟩
  · have hmem := mem_of_getLast? hx
    have hword : Lunify.Lexeme.isWordByte (byte '=') = false := by decide
    have hequals : Text.isDigit (byte '=') = false ∧ byte '=' ≠ byte '.' ∧ byte '=' ≠ byte 'e' ∧
        byte '=' ≠ byte 'E' ∧ byte '=' ≠ byte '-' ∧ byte '=' ≠ byte ':' := by decide
    simp [Chunk.joins, hword, hequals, hne (byte '.') (by decide) x hmem,
      hne (byte '[') (by decide) x hmem, hne (byte '=') (by decide) x hmem,
      hne (byte '<') (by decide) x hmem, hne (byte '>') (by decide) x hmem]

lemma parts_plain (ts : List Tree) : Plan.parts view .plain ts = ts.flatMap (Plan.plan view) := by
  induction ts with
  | nil => simp [Plan.parts]
  | cons t ts ih =>
    have hcolon : Plan.colonStep? view .plain t = none := by
      cases t <;> simp [Plan.colonStep?]
    rw [Plan.parts, hcolon, flatMap_cons, ← ih]

lemma plan_node
    (hl : Form.ofLabel l ∈ [Form.sequence, .assignment, .call, .identifier] := by decide) :
    Plan.plan view (.node l ts) = ts.flatMap (Plan.plan view) := by
  simp only [mem_cons, not_mem_nil, or_false] at hl
  rw [Plan.plan, ← parts_plain]
  rcases hl with hl | hl | hl | hl <;> rw [hl]

/-- A token that is neither a keyword nor an operator nor layout is written as it is. -/
lemma plan_leaf {tok : Token} (hkind : tok.kind = .identifier ∨ tok.kind = .number ∨ tok.kind = .string) :
    Plan.plan view (.leaf l tok) = [.token (Plan.place view tok) tok.content] := by
  rcases hkind with hkind | hkind | hkind <;>
    simp [Plan.plan, Plan.leafSteps, Token.isSynthetic, hkind]

/-! ### Parts of constructs -/

/-- A word that is no colon is written by itself. -/
lemma parts_cons_word (ht : IsWord w t) (hw : w ∉ ":" :: Grammar.builtinCategories) (ts : List Tree) :
    Plan.parts view colon (t :: ts) = Plan.plan view t ++ Plan.parts view colon ts := by
  rw [mem_cons, not_or] at hw
  obtain ⟨tok, rfl, hsymbol⟩ := ht
  have hcontent : tok.content ≠ utf8 ":" := by
    rw [(Token.content_of_symbol hw.2 hsymbol).1]
    exact fun heq => hw.1 (Grammar.utf8_injective heq)
  rw [Plan.parts]
  simp [Plan.colonStep?, hcontent]

lemma parts_cons_node (ht : ∃ l us, t = .node l us) (ts : List Tree) :
    Plan.parts view colon (t :: ts) = Plan.plan view t ++ Plan.parts view colon ts := by
  obtain ⟨l, us, rfl⟩ := ht
  rw [Plan.parts]
  simp [Plan.colonStep?]

/-- A colon is written as the construct says. -/
lemma exists_parts_cons_colon (ht : IsWord ":" t) (hcolon : colon ≠ .plain) (view : Position → Position)
    (ts : List Tree) : ∃ tok, t = .leaf (utf8 ":") tok ∧
    Plan.parts view colon (t :: ts) = [Plan.colonStep colon (Plan.place view tok)] ++ Plan.parts view colon ts := by
  obtain ⟨tok, rfl, hsymbol⟩ := ht
  have hcontent := (Token.content_of_symbol (by decide) hsymbol).1
  refine ⟨tok, rfl, ?_⟩
  rw [Plan.parts]
  simp [Plan.colonStep?, hcontent, hcolon]

/-- An alternative is written as its parts. -/
lemma plan_alternative {k : Tree} (hk : IsWord w k) (hw : w ∉ Grammar.builtinCategories) :
    Plan.plan view (node "<else>" (k :: ts)) =
      Plan.parts view (if w = "else" then .dropped else .keyword (utf8 "then")) (k :: ts) := by
  have hform : Form.ofLabel (utf8 "<else>") = .alternative := Form.ofLabel_symbol .alternative (by decide)
  obtain ⟨kw, rfl, hsymbol⟩ := hk
  have hcontent : (Plan.place view kw).content = utf8 w := (Token.content_of_symbol hw hsymbol).1
  have hopener : Plan.tokenAt view (.leaf (utf8 w) kw :: ts) 0 = some (Plan.place view kw) := rfl
  have hiff : utf8 w = utf8 "else" ↔ w = "else" :=
    ⟨fun heq => Grammar.utf8_injective heq, fun heq => heq ▸ rfl⟩
  rw [node, Plan.plan, hform]
  simp only [hopener, hcontent, hiff]

/-! ### Bounds of loops -/

lemma wordOf?_mark : ∀ m ∈ ["+", "-", "(", ")", ","], Chunk.wordOf? (utf8 m) = some (mark m) := by
  decide

/-- A text that begins with a byte that goes on with nothing stands apart from anything before it. -/
lemma apart_of_head {b : UInt8} (hb : Chunk.continues b = false) : Chunk.Apart s (b :: r) := by
  intro x _ c hc
  obtain rfl := Option.some.inj hc
  exact Chunk.joins_eq_false_of_continues hb x

/-- A decimal number is scanned to its digits. -/
lemma scannedDigits_ofNat (n : Nat) : Chunk.scannedDigits (Text.ofNat n) = Text.ofNat n := by
  have hhead := Text.head?_ofNat n
  rcases Nat.lt_or_ge n 10 with hn | hn
  · rw [Text.ofNat_of_lt hn]
    rfl
  · revert hhead
    generalize Text.ofNat n = s
    intro hhead
    fun_cases Chunk.scannedDigits s with
    | case1 => exact absurd rfl (hhead (by omega))
    | case2 => rfl
    | case3 => rfl

lemma lexes_ofNat (n : Nat) : Lexes (Text.ofNat n) [.number (Text.ofNat n)] := by
  have hword := Chunk.isWord_of_isDigit (Text.ofNat_ne_nil n) (Text.isDigit_of_mem_ofNat n)
  rw [scannedDigits_ofNat] at hword
  exact hword.lexes

/-- An integer is a number in Lua, after a minus if it is negative. -/
lemma lexes_ofInt (n : Int) : Lexes (Text.ofInt n) (intLexemes n) := by
  cases n with
  | ofNat n => exact lexes_ofNat n
  | negSucc n =>
    have hminus : Chunk.IsWord (utf8 "-") (mark "-") :=
      Chunk.isWord_of_wordOf? (wordOf?_mark "-" (by decide))
    refine .word hminus ?_ (lexes_ofNat (n + 1))
    intro x hx b hb
    have hdigit := Text.isDigit_of_mem_ofNat (n + 1) b (mem_of_mem_head? hb)
    have hne : b ≠ byte '-' := by
      rintro rfl
      exact absurd hdigit (by decide)
    obtain rfl : byte '-' = x := Option.some.inj hx
    have hminus : Lunify.Lexeme.isWordByte (byte '-') = false := by decide
    have hmarks : Text.isDigit (byte '-') = false ∧ byte '-' ≠ byte '.' ∧ byte '-' ≠ byte '[' ∧
        byte '-' ≠ byte '=' ∧ byte '-' ≠ byte '<' ∧ byte '-' ≠ byte '>' ∧ byte '-' ≠ byte ':' := by decide
    simp [Chunk.joins, hminus, hne, hmarks]

lemma lexes_mark_blank {m : String} (hm : Chunk.wordOf? (utf8 m) = some (mark m)) (hr : Lexes r ls) :
    Lexes (utf8 m ++ byte ' ' :: r) (mark m :: ls) :=
  .word (Chunk.isWord_of_wordOf? hm) (apart_of_head (b := byte ' ') (by decide)) (.blank (.inl rfl) hr)

lemma lexes_one : Lexes (utf8 "1") [.number (utf8 "1")] :=
  lexes_ofNat 1

/-- A text and the step from the end of a range to the integer before it. -/
lemma lexes_lastOp (hs : Lexes s ls) (down : Bool) :
    Lexes (s ++ utf8 (if down then " + 1" else " - 1"))
      (ls ++ [mark (lastOp down), .number (utf8 "1")]) := by
  cases down with
  | true =>
    have hop : Chunk.wordOf? (utf8 "+") = some (mark "+") := wordOf?_mark "+" (by decide)
    have hstep : Lexes (utf8 " + 1") [mark "+", .number (utf8 "1")] :=
      .blank (.inl rfl) (lexes_mark_blank hop lexes_one)
    exact hs.append hstep (apart_of_head (b := byte ' ') (by decide))
  | false =>
    have hop : Chunk.wordOf? (utf8 "-") = some (mark "-") := wordOf?_mark "-" (by decide)
    have hstep : Lexes (utf8 " - 1") [mark "-", .number (utf8 "1")] :=
      .blank (.inl rfl) (lexes_mark_blank hop lexes_one)
    exact hs.append hstep (apart_of_head (b := byte ' ') (by decide))

/-- A text in parentheses. -/
lemma lexes_inParens (hs : Lexes s ls) : Lexes (utf8 "(" ++ s ++ utf8 ")") (inParens ls) := by
  have hleft : Chunk.IsWord (utf8 "(") (mark "(") :=
    Chunk.isWord_of_wordOf? (wordOf?_mark "(" (by decide))
  have hright : Chunk.IsWord (utf8 ")") (mark ")") :=
    Chunk.isWord_of_wordOf? (wordOf?_mark ")" (by decide))
  rw [append_assoc]
  refine .word hleft ?_ (hs.append hright.lexes (apart_of_head (b := byte ')') (by decide)))
  intro x hx b _
  obtain rfl : byte '(' = x := Option.some.inj hx
  have hparen : Lunify.Lexeme.isWordByte (byte '(') = false := by decide
  have hmarks : Text.isDigit (byte '(') = false ∧ byte '(' ≠ byte '.' ∧ byte '(' ≠ byte '-' ∧
      byte '(' ≠ byte '[' ∧ byte '(' ≠ byte '=' ∧ byte '(' ≠ byte '<' ∧ byte '(' ≠ byte '>' ∧
      byte '(' ≠ byte ':' := by decide
  simp [Chunk.joins, hparen, hmarks]

/-- Two texts with a comma between them. -/
lemma lexes_comma {ks : List Lexeme} (hs : Lexes s ks) (hr : Lexes r ls) :
    Lexes (s ++ utf8 ", " ++ r) (ks ++ mark "," :: ls) := by
  have hcomma : Chunk.wordOf? (utf8 ",") = some (mark ",") := wordOf?_mark "," (by decide)
  have hrest : Lexes (utf8 ", " ++ r) (mark "," :: ls) := lexes_mark_blank hcomma hr
  rw [append_assoc]
  exact hs.append hrest (apart_of_head (b := byte ',') (by decide))

lemma IsWord.is_expressionLabel (ht : IsWord w t) (hw : w ≠ "<expression>" := by decide) :
    t.is expressionLabel = false := by
  obtain ⟨tok, rfl, -⟩ := ht
  exact decide_eq_false fun heq => hw (Grammar.utf8_injective heq)

end Core

end Lunify
