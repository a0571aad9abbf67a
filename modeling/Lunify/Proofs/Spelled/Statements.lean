import Lunify.Proofs.Spelled.Expressions

/-!
# The Lua tokens of a statement

`Tree.Stated plain s t ls` goes on from expressions to statements: it says which Lua tokens a tree of a
statement, of a block or of a program stands for. A construct is a header (`Tree.IsHeader`) with one or more
bodies. Every program has such tokens (`Tree.exists_stated`).
-/

namespace Lunify

open List

namespace Tree

open Grammar Core
open Chunk (Lexeme mark inParens)

variable {rhs : List String}

/-- A part that may be left out, in Lua. -/
inductive IsOptional (plain : Prop) (s : String) : List Tree → List Lexeme → Prop
  | none : IsOptional plain s [] []
  | some {t : Tree} {ls : List Lexeme} (ht : Spelled plain s t ls) : IsOptional plain s [t] ls

/-- The statements that are single words, and the tokens they are in Lua. -/
def jumpWords : List (String × Lexeme) :=
  [("break", mark "break"), ("continue", .name (utf8 "continue"))]

/-- The Lua tokens of a simple statement that is written. -/
inductive IsWritten (plain : Prop) : Tree → List Lexeme → Prop
  | assign {s : String} {t c u : Tree} {ks ls : List Lexeme} (hs : s ∈ ["<Identifier>", "<subscript>"])
      (ht : Spelled plain s t ks) (hc : IsWord "=" c) (hu : Spelled plain "<expression>" u ls) :
      IsWritten plain (.node (utf8 "<assignment>") [t, c, u]) (ks ++ mark "=" :: ls)
  | call {t : Tree} {ls : List Lexeme} (ht : Spelled plain "<function_call>" t ls) : IsWritten plain t ls
  | print {k a b : Tree} {ts : List Tree} {ls : List Lexeme} (hk : IsWord "print" k) (ha : IsWord "(" a)
      (hts : IsOptional plain "<arguments>" ts ls) (hb : IsWord ")" b) :
      IsWritten plain (.node (utf8 "<print>") (k :: a :: (ts ++ [b]))) (.name (utf8 "print") :: inParens ls)
  | return {k : Tree} {ts : List Tree} {ls : List Lexeme} (hk : IsWord "return" k)
      (hts : IsOptional plain "<expression>" ts ls) :
      IsWritten plain (.node (utf8 "<return>") (k :: ts)) (mark "return" :: ls)
  | jump {w : String} {l : Lexeme} {k : Tree} (hw : (w, l) ∈ jumpWords) (hk : IsWord w k) :
      IsWritten plain k [l]

/-- The Lua tokens of a simple statement. -/
inductive IsSimple (plain : Prop) : Tree → List Lexeme → Prop
  | written {t : Tree} {ls : List Lexeme} (h : IsWritten plain t ls) :
      IsSimple plain (.node (utf8 "<simple_statement>") [t]) ls
  | pass {k : Tree} (hk : IsWord "pass" k) : IsSimple plain (.node (utf8 "<simple_statement>") [k]) []

/-- The end of a numeric loop, of which the end of the range has the given tokens: one before it, or one after
it when the loop counts down. An integer is folded. -/
def endLexemes (finish : Tree) (ls : List Lexeme) (down : Bool) : List Lexeme :=
  let other := ls ++ [mark (lastOp down), .number (utf8 "1")]
  match finish.leaves with
  | [tok] =>
    if tok.kind = .number then
      match Plan.integer? tok.content with
      | some v => intLexemes (Int.bmod (if down then v + 1 else v - 1) wordSize)
      | none => other
    else other
  | _ => inParens ls ++ [mark (lastOp down), .number (utf8 "1")]

/-- The Lua tokens of the bounds of a numeric loop. -/
inductive IsRange (plain : Prop) : Tree → List Lexeme → Prop
  | upTo {k a t b : Tree} {ls : List Lexeme} (hk : IsWord "range" k) (ha : IsWord "(" a)
      (ht : Spelled plain "<expression>" t ls) (hb : IsWord ")" b) :
      IsRange plain (.node (utf8 "<range>") [k, a, t, b])
        (.number (utf8 "0") :: mark "," :: endLexemes t ls false)
  | between {k a t c u b : Tree} {ks ls : List Lexeme} (hk : IsWord "range" k) (ha : IsWord "(" a)
      (ht : Spelled plain "<expression>" t ks) (hc : IsWord "," c) (hu : Spelled plain "<expression>" u ls)
      (hb : IsWord ")" b) :
      IsRange plain (.node (utf8 "<range>") [k, a, t, c, u, b]) (ks ++ mark "," :: endLexemes u ls false)
  | stepped {k a t c u d v b : Tree} {ks ls ms : List Lexeme} (hk : IsWord "range" k) (ha : IsWord "(" a)
      (ht : Spelled plain "<expression>" t ks) (hc : IsWord "," c) (hu : Spelled plain "<expression>" u ls)
      (hd : IsWord "," d) (hv : Spelled plain "<expression>" v ms) (hb : IsWord ")" b) :
      IsRange plain (.node (utf8 "<range>") [k, a, t, c, u, d, v, b])
        (ks ++ mark "," :: endLexemes u ls (Plan.isNegative v) ++ mark "," :: ms)

/-- The constructs with a condition: their symbol and the word that they begin with, and what this and the
colon are in Lua. -/
def conditionWords : List (String × String × String × String) :=
  [("<if>", "if", "if", "then"), ("<else>", "elif", "elseif", "then"), ("<while>", "while", "while", "do")]

/-- The Lua tokens of the header of a construct. -/
inductive IsHeader (plain : Prop) : String → List Tree → List Lexeme → Prop
  | condition {s w lua colon : String} {k t c : Tree} {ls : List Lexeme}
      (hs : (s, w, lua, colon) ∈ conditionWords) (hk : IsWord w k) (ht : Spelled plain "<expression>" t ls)
      (hc : IsWord ":" c) : IsHeader plain s [k, t, c] (mark lua :: (ls ++ [mark colon]))
  | otherwise {k c : Tree} (hk : IsWord "else" k) (hc : IsWord ":" c) :
      IsHeader plain "<else>" [k, c] [mark "else"]
  | define {k f a b c : Tree} {ps : List Tree} {l : Lexeme} {ls : List Lexeme} (hk : IsWord "def" k)
      (hf : IsName f l) (ha : IsWord "(" a) (hps : IsOptional plain "<parameters>" ps ls) (hb : IsWord ")" b)
      (hc : IsWord ":" c) :
      IsHeader plain "<function>" (k :: f :: a :: (ps ++ [b, c])) (mark "function" :: l :: inParens ls)
  | count {k x i r c : Tree} {l : Lexeme} {ls : List Lexeme} (hk : IsWord "for" k) (hx : IsName x l)
      (hi : IsWord "in" i) (hr : IsRange plain r ls) (hc : IsWord ":" c) :
      IsHeader plain "<for>" [k, x, i, r, c] (mark "for" :: l :: mark "=" :: (ls ++ [mark "do"]))
  | each {k x i t c : Tree} {l : Lexeme} {ls : List Lexeme} (hk : IsWord "for" k) (hx : IsName x l)
      (hi : IsWord "in" i) (ht : Spelled plain "<expression>" t ls) (hc : IsWord ":" c) :
      IsHeader plain "<for>" [k, x, i, t, c]
        (mark "for" :: l :: mark "in" :: .name (utf8 "pairs") :: (inParens ls ++ [mark "do"]))

/-- The symbols of statements that stand for another one. -/
def statementRules : List (String × String) :=
  [("<program>", "<statements>"), ("<statements>", "<statement>"), ("<statement>", "<compound_statement>"),
    ("<compound_statement>", "<function>"), ("<compound_statement>", "<if>"),
    ("<compound_statement>", "<while>"), ("<compound_statement>", "<for>")]

/-- The constructs that are closed by a keyword. -/
def closedSymbols : List String :=
  ["<function>", "<if>", "<while>", "<for>"]

/-- The Lua tokens that a tree of a statement stands for. -/
inductive Stated (plain : Prop) : String → Tree → List Lexeme → Prop
  | line {s : String} {t n : Tree} {ls : List Lexeme} (hs : s ∈ ["<statement>", "<block>"])
      (ht : IsSimple plain t ls) (hn : IsWord "newline" n) : Stated plain s (.node (utf8 s) [t, n]) ls
  | blank {n : Tree} (hn : IsWord "newline" n) :
      Stated plain "<statement>" (.node (utf8 "<statement>") [n]) []
  | single {s s' : String} {t : Tree} {ls : List Lexeme} (hs : (s, s') ∈ statementRules)
      (ht : Stated plain s' t ls) : Stated plain s (.node (utf8 s) [t]) ls
  | more {t u : Tree} {ks ls : List Lexeme} (ht : Stated plain "<statements>" t ks)
      (hu : Stated plain "<statement>" u ls) :
      Stated plain "<statements>" (.node (utf8 "<statements>") [t, u]) (ks ++ ls)
  | block {n i t d : Tree} {ls : List Lexeme} (hn : Derives "<newlines>" n) (hi : IsWord "indent" i)
      (ht : Stated plain "<statements>" t ls) (hd : IsWord "dedent" d) :
      Stated plain "<block>" (.node (utf8 "<block>") [n, i, t, d]) ls
  | construct {s : String} {header : List Tree} {u : Tree} {ks ls : List Lexeme} (hs : s ∈ closedSymbols)
      (hheader : IsHeader plain s header ks) (hu : Stated plain "<block>" u ls) :
      Stated plain s (.node (utf8 s) (header ++ [u])) (ks ++ (ls ++ [mark "end"]))
  | either {header : List Tree} {u v : Tree} {ks ls ms : List Lexeme} (hheader : IsHeader plain "<if>" header ks)
      (hu : Stated plain "<block>" u ls) (hv : Stated plain "<else>" v ms) :
      Stated plain "<if>" (.node (utf8 "<if>") (header ++ [u, v])) (ks ++ (ls ++ (ms ++ [mark "end"])))
  | alternative {header : List Tree} {u : Tree} {ks ls : List Lexeme} (hheader : IsHeader plain "<else>" header ks)
      (hu : Stated plain "<block>" u ls) :
      Stated plain "<else>" (.node (utf8 "<else>") (header ++ [u])) (ks ++ ls)
  | alternatives {header : List Tree} {u v : Tree} {ks ls ms : List Lexeme}
      (hheader : IsHeader plain "<else>" header ks) (hu : Stated plain "<block>" u ls)
      (hv : Stated plain "<else>" v ms) :
      Stated plain "<else>" (.node (utf8 "<else>") (header ++ [u, v])) (ks ++ (ls ++ ms))

variable {plain : Prop} {s : String} {t : Tree} {ts : List Tree} {ls : List Lexeme}

lemma Stated.exists_node (h : Stated plain s t ls) : ∃ l ts, t = .node l ts := by
  cases h <;> exact ⟨_, _, rfl⟩

lemma Stated.label (h : Stated plain s t ls) : t.label = utf8 s := by
  cases h <;> rfl

/-! ### Every program has tokens -/

/-- What is known of a part of a statement. -/
structure Member (plain : Prop) (s : String) (t : Tree) : Prop where
  derives : Derives s t
  fits : Fits plain t

lemma Member.isWord (h : Member plain s t) (hw : s ∈ builtinWords := by decide) : IsWord s t :=
  h.derives.isWord hw

lemma Member.exists_isName (h : Member plain "<Identifier>" t) : ∃ l, IsName t l :=
  h.derives.exists_isName h.fits

lemma Member.exists_spelled (h : Member plain s t) (hs : s ∈ expressionSymbols := by decide) :
    ∃ ls, Spelled plain s t ls :=
  Tree.exists_spelled h.derives h.fits hs

/-- The parts of a tree. -/
lemma Member.children {alternatives : List (List String)} (h : Member plain s t)
    (hs : (s, alternatives) ∈ builtinTable) :
    ∃ ts, t = .node (utf8 s) ts ∧ ∃ rhs ∈ alternatives, List.Forall₂ (Member plain) rhs ts := by
  obtain ⟨ts, rfl, rhs, hrhs, hts⟩ := h.derives.children hs
  exact ⟨ts, rfl, rhs, hrhs, forall₂_of_mem hts fun w u hu hw => ⟨hw, h.fits.child hu⟩⟩

/-- The simple statements that have parts, with the parts of each. -/
def simpleForms : List (String × List String) :=
  [("<assignment>", ["<Identifier>", "=", "<expression>"]), ("<assignment>", ["<subscript>", "=", "<expression>"]),
    ("<print>", ["print", "(", ")"]), ("<print>", ["print", "(", "<arguments>", ")"]), ("<return>", ["return"]),
    ("<return>", ["return", "<expression>"])]

lemma exists_isWritten_form (hs : (s, rhs) ∈ simpleForms) (h : List.Forall₂ (Member plain) rhs ts) :
    ∃ ls, IsWritten plain (.node (utf8 s) ts) ls := by
  simp only [simpleForms, mem_cons, Prod.mk.injEq, not_mem_nil, or_false] at hs
  rcases hs with ⟨rfl, rfl⟩ | ⟨rfl, rfl⟩ | ⟨rfl, rfl⟩ | ⟨rfl, rfl⟩ | ⟨rfl, rfl⟩ | ⟨rfl, rfl⟩
  · obtain ⟨t, c, u, rfl, ht, hc, hu⟩ := exists_three h
    obtain ⟨ks, hks⟩ := ht.exists_spelled
    obtain ⟨ls, hls⟩ := hu.exists_spelled
    exact ⟨_, .assign (show "<Identifier>" ∈ _ by decide) hks hc.isWord hls⟩
  · obtain ⟨t, c, u, rfl, ht, hc, hu⟩ := exists_three h
    obtain ⟨ks, hks⟩ := ht.exists_spelled
    obtain ⟨ls, hls⟩ := hu.exists_spelled
    exact ⟨_, .assign (show "<subscript>" ∈ _ by decide) hks hc.isWord hls⟩
  · obtain ⟨k, a, b, rfl, hk, ha, hb⟩ := exists_three h
    exact ⟨_, .print hk.isWord ha.isWord .none hb.isWord⟩
  · obtain ⟨k, a, t, b, rfl, hk, ha, ht, hb⟩ := exists_four h
    obtain ⟨ls, hls⟩ := ht.exists_spelled
    exact ⟨_, .print hk.isWord ha.isWord (.some hls) hb.isWord⟩
  · obtain ⟨k, rfl, hk⟩ := exists_one h
    exact ⟨_, .return hk.isWord .none⟩
  · obtain ⟨k, t, rfl, hk, ht⟩ := exists_two h
    obtain ⟨ls, hls⟩ := ht.exists_spelled
    exact ⟨_, .return hk.isWord (.some hls)⟩

lemma mem_simpleForms : ∀ p ∈ builtinTable, p.1 ∈ ["<assignment>", "<print>", "<return>"] →
    ∀ rhs ∈ p.2, (p.1, rhs) ∈ simpleForms := by
  decide

/-- A simple statement with parts has Lua tokens. -/
lemma Member.exists_isWritten (h : Member plain s t) (hs : s ∈ ["<assignment>", "<print>", "<return>"]) :
    ∃ ls, IsSimple plain (.node (utf8 "<simple_statement>") [t]) ls := by
  have hrules : ∀ s ∈ ["<assignment>", "<print>", "<return>"], ∃ p ∈ builtinTable, p.1 = s := by decide
  obtain ⟨⟨s, alternatives⟩, hp, rfl⟩ := hrules s hs
  obtain ⟨ts, rfl, rhs, hrhs, hts⟩ := h.children hp
  obtain ⟨ls, hls⟩ := exists_isWritten_form (mem_simpleForms _ hp hs rhs hrhs) hts
  exact ⟨ls, .written hls⟩

/-- A simple statement has Lua tokens. -/
lemma Member.exists_isSimple (h : Member plain "<simple_statement>" t) : ∃ ls, IsSimple plain t ls := by
  obtain ⟨ts, rfl, rhs, hrhs, hts⟩ := h.children (show ("<simple_statement>", ["<assignment>", "<function_call>",
    "<print>", "<return>", "break", "continue", "pass"].map ([·])) ∈ builtinTable by decide)
  obtain ⟨s, hs, rfl⟩ := mem_map.1 hrhs
  obtain ⟨t, rfl, ht⟩ := exists_one hts
  simp only [mem_cons, not_mem_nil, or_false] at hs
  rcases hs with rfl | rfl | rfl | rfl | rfl | rfl | rfl
  · exact ht.exists_isWritten (by decide)
  · obtain ⟨ls, hls⟩ := ht.exists_spelled
    exact ⟨ls, .written (.call hls)⟩
  · exact ht.exists_isWritten (by decide)
  · exact ht.exists_isWritten (by decide)
  · exact ⟨[mark "break"], .written (.jump (by decide) ht.isWord)⟩
  · exact ⟨[.name (utf8 "continue")], .written (.jump (by decide) ht.isWord)⟩
  · exact ⟨[], .pass ht.isWord⟩

/-- A range has Lua tokens. -/
lemma Member.exists_isRange (h : Member plain "<range>" t) : ∃ ls, IsRange plain t ls := by
  obtain ⟨ts, rfl, rhs, hrhs, hts⟩ := h.children (show ("<range>", [["range", "(", "<expression>", ")"],
    ["range", "(", "<expression>", ",", "<expression>", ")"],
    ["range", "(", "<expression>", ",", "<expression>", ",", "<expression>", ")"]]) ∈ builtinTable by
    decide)
  simp only [mem_cons, not_mem_nil, or_false] at hrhs
  rcases hrhs with rfl | rfl | rfl
  · obtain ⟨k, a, t, b, rfl, hk, ha, ht, hb⟩ := exists_four hts
    obtain ⟨ls, hls⟩ := ht.exists_spelled
    exact ⟨_, .upTo hk.isWord ha.isWord hls hb.isWord⟩
  · obtain ⟨k, a, t, c, u, b, rfl, hk, ha, ht, hc, hu, hb⟩ := exists_six hts
    obtain ⟨ks, hks⟩ := ht.exists_spelled
    obtain ⟨ls, hls⟩ := hu.exists_spelled
    exact ⟨_, .between hk.isWord ha.isWord hks hc.isWord hls
      hb.isWord⟩
  · obtain ⟨k, us, hk, hus, rfl⟩ := forall₂_cons_left_iff.1 hts
    obtain ⟨a, vs, ha, hvs, rfl⟩ := forall₂_cons_left_iff.1 hus
    obtain ⟨t, c, u, d, v, b, rfl, ht, hc, hu, hd, hv, hb⟩ := exists_six hvs
    obtain ⟨ks, hks⟩ := ht.exists_spelled
    obtain ⟨ls, hls⟩ := hu.exists_spelled
    obtain ⟨ms, hms⟩ := hv.exists_spelled
    exact ⟨_, .stepped hk.isWord ha.isWord hks hc.isWord hls
      hd.isWord hms hb.isWord⟩

/-- The headers of constructs. -/
def headerForms : List (String × List String) :=
  conditionWords.map (fun q => (q.1, [q.2.1, "<expression>", ":"])) ++
    [("<else>", ["else", ":"]), ("<function>", ["def", "<Identifier>", "(", ")", ":"]),
      ("<function>", ["def", "<Identifier>", "(", "<parameters>", ")", ":"]),
      ("<for>", ["for", "<Identifier>", "in", "<range>", ":"]),
      ("<for>", ["for", "<Identifier>", "in", "<expression>", ":"])]

lemma exists_isHeader (hs : (s, rhs) ∈ headerForms) (h : List.Forall₂ (Member plain) rhs ts) :
    ∃ ls, IsHeader plain s ts ls := by
  rcases mem_append.1 hs with hs | hs
  · have hwords : ∀ q ∈ conditionWords, q.2.1 ∈ builtinWords := by decide
    obtain ⟨⟨s', w, lua, colon⟩, hq, heq⟩ := mem_map.1 hs
    obtain ⟨rfl, rfl⟩ := Prod.mk.inj heq
    obtain ⟨k, t, c, rfl, hk, ht, hc⟩ := exists_three h
    obtain ⟨ls, hls⟩ := ht.exists_spelled
    exact ⟨_, .condition hq (hk.isWord (hwords _ hq)) hls hc.isWord⟩
  · simp only [mem_cons, Prod.mk.injEq, not_mem_nil, or_false] at hs
    rcases hs with ⟨rfl, rfl⟩ | ⟨rfl, rfl⟩ | ⟨rfl, rfl⟩ | ⟨rfl, rfl⟩ | ⟨rfl, rfl⟩
    · obtain ⟨k, c, rfl, hk, hc⟩ := exists_two h
      exact ⟨_, .otherwise hk.isWord hc.isWord⟩
    · obtain ⟨k, f, a, b, c, rfl, hk, hf, ha, hb, hc⟩ := exists_five h
      obtain ⟨l, hl⟩ := hf.exists_isName
      exact ⟨_, .define hk.isWord hl ha.isWord .none hb.isWord
        hc.isWord⟩
    · obtain ⟨k, f, a, p, b, c, rfl, hk, hf, ha, hp, hb, hc⟩ := exists_six h
      obtain ⟨l, hl⟩ := hf.exists_isName
      obtain ⟨ls, hls⟩ := hp.exists_spelled
      exact ⟨_, .define hk.isWord hl ha.isWord (.some hls) hb.isWord
        hc.isWord⟩
    · obtain ⟨k, x, i, r, c, rfl, hk, hx, hi, hr, hc⟩ := exists_five h
      obtain ⟨l, hl⟩ := hx.exists_isName
      obtain ⟨ls, hls⟩ := hr.exists_isRange
      exact ⟨_, .count hk.isWord hl hi.isWord hls hc.isWord⟩
    · obtain ⟨k, x, i, t, c, rfl, hk, hx, hi, ht, hc⟩ := exists_five h
      obtain ⟨l, hl⟩ := hx.exists_isName
      obtain ⟨ls, hls⟩ := ht.exists_spelled
      exact ⟨_, .each hk.isWord hl hi.isWord hls hc.isWord⟩

/-- The symbols of statements, blocks and programs. -/
def statementSymbols : List String :=
  ["<program>", "<statements>", "<statement>", "<compound_statement>", "<block>", "<function>", "<if>", "<else>",
    "<while>", "<for>"]

/-- The rules of statements on lines of their own. -/
def lineForms : List (String × List String) :=
  [("<statements>", ["<statements>", "<statement>"]), ("<statement>", ["<simple_statement>", "newline"]),
    ("<statement>", ["newline"]), ("<block>", ["<simple_statement>", "newline"]),
    ("<block>", ["<newlines>", "indent", "<statements>", "dedent"])]

/-- The rules of constructs: a header with a body, or with a body and an alternative to it. -/
def constructForms : List (String × List String) :=
  headerForms.map (fun q => (q.1, q.2 ++ ["<block>"])) ++
    (headerForms.filter fun q => ["<if>", "<else>"].contains q.1).map fun q => (q.1, q.2 ++ ["<block>", "<else>"])

lemma mem_statementForms : ∀ p ∈ builtinTable, p.1 ∈ statementSymbols → ∀ rhs ∈ p.2,
    (p.1, rhs) ∈ statementRules.map (fun q => (q.1, [q.2])) ∨ (p.1, rhs) ∈ lineForms ∨
      (p.1, rhs) ∈ constructForms := by
  decide

/-- A part of a statement, of which the tokens are known if it is a statement itself. -/
structure StatedMember (plain : Prop) (s : String) (t : Tree) : Prop extends Member plain s t where
  stated : s ∈ statementSymbols → ∃ ls, Stated plain s t ls

lemma exists_stated_line (hs : (s, rhs) ∈ lineForms) (h : List.Forall₂ (StatedMember plain) rhs ts) :
    ∃ ls, Stated plain s (.node (utf8 s) ts) ls := by
  simp only [lineForms, mem_cons, Prod.mk.injEq, not_mem_nil, or_false] at hs
  rcases hs with ⟨rfl, rfl⟩ | ⟨rfl, rfl⟩ | ⟨rfl, rfl⟩ | ⟨rfl, rfl⟩ | ⟨rfl, rfl⟩
  · obtain ⟨t, u, rfl, ht, hu⟩ := exists_two h
    obtain ⟨ks, hks⟩ := ht.stated (by decide)
    obtain ⟨ls, hls⟩ := hu.stated (by decide)
    exact ⟨_, .more hks hls⟩
  · obtain ⟨t, n, rfl, ht, hn⟩ := exists_two h
    obtain ⟨ls, hls⟩ := ht.exists_isSimple
    exact ⟨ls, .line (by decide) hls hn.isWord⟩
  · obtain ⟨n, rfl, hn⟩ := exists_one h
    exact ⟨_, .blank hn.isWord⟩
  · obtain ⟨t, n, rfl, ht, hn⟩ := exists_two h
    obtain ⟨ls, hls⟩ := ht.exists_isSimple
    exact ⟨ls, .line (by decide) hls hn.isWord⟩
  · obtain ⟨n, i, t, d, rfl, hn, hi, ht, hd⟩ := exists_four h
    obtain ⟨ls, hls⟩ := ht.stated (by decide)
    exact ⟨ls, .block hn.derives hi.isWord hls hd.isWord⟩

lemma exists_stated_construct (hs : (s, rhs) ∈ constructForms)
    (h : List.Forall₂ (StatedMember plain) rhs ts) : ∃ ls, Stated plain s (.node (utf8 s) ts) ls := by
  have hsymbols : ∀ q ∈ headerForms, q.1 ∈ closedSymbols ∨ q.1 = "<else>" := by decide
  rcases mem_append.1 hs with hs | hs <;> obtain ⟨⟨s', header⟩, hq, heq⟩ := mem_map.1 hs <;>
    obtain ⟨rfl, rfl⟩ := Prod.mk.inj heq <;> obtain ⟨us, vs, rfl, hus, hvs⟩ := exists_of_forall₂_append h
  · obtain ⟨u, rfl, hu⟩ := exists_one hvs
    obtain ⟨ks, hks⟩ := exists_isHeader hq (hus.imp fun _ _ h => h.toMember)
    obtain ⟨ls, hls⟩ := hu.stated (by decide)
    rcases hsymbols _ hq with hclosed | rfl
    · exact ⟨_, .construct hclosed hks hls⟩
    · exact ⟨_, .alternative hks hls⟩
  · obtain ⟨u, v, rfl, hu, hv⟩ := exists_two hvs
    obtain ⟨hq, hs⟩ := mem_filter.1 hq
    obtain ⟨ks, hks⟩ := exists_isHeader hq (hus.imp fun _ _ h => h.toMember)
    obtain ⟨ls, hls⟩ := hu.stated (by decide)
    obtain ⟨ms, hms⟩ := hv.stated (by decide)
    simp only [contains_eq_mem, mem_cons, not_mem_nil, or_false, decide_eq_true_eq] at hs
    rcases hs with rfl | rfl
    · exact ⟨_, .either hks hls hms⟩
    · exact ⟨_, .alternatives hks hls hms⟩

/-- Every tree of a statement, of a block or of a program has Lua tokens. -/
theorem exists_stated (h : Derives s t) (hfits : Fits plain t) (hs : s ∈ statementSymbols) :
    ∃ ls, Stated plain s t ls := by
  refine Derives.induct (motive := fun s t => Fits plain t → s ∈ statementSymbols → ∃ ls, Stated plain s t ls)
    ?_ ?_ h hfits hs
  · intro s t hterminal _ _ hs
    have hsymbols : ∀ s ∈ statementSymbols, s ∈ builtinTable.map Prod.fst := by decide
    exact absurd (hsymbols s hs) hterminal
  · rintro ⟨s, alternatives⟩ rhs ts hp hrhs hts hfits hs
    have hparts : List.Forall₂ (StatedMember plain) rhs ts :=
      forall₂_of_mem hts fun w u hu h => ⟨⟨h.1, hfits.child hu⟩, h.2 (hfits.child hu)⟩
    rcases mem_statementForms _ hp hs rhs hrhs with hrule | hrule | hrule
    · obtain ⟨⟨_, s'⟩, hq, heq⟩ := mem_map.1 hrule
      obtain ⟨rfl, rfl⟩ := Prod.mk.inj heq
      have hsymbols : ∀ q ∈ statementRules, q.2 ∈ statementSymbols := by decide
      obtain ⟨t, rfl, ht⟩ := exists_one hparts
      obtain ⟨ls, hls⟩ := ht.stated (hsymbols _ hq)
      exact ⟨ls, .single hq hls⟩
    · exact exists_stated_line hrule hparts
    · exact exists_stated_construct hrule hparts

end Tree

end Lunify
