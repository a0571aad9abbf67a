import Lunify.Proofs.Rendering.Fragments
import Lunify.Proofs.Rendering.Lines
import Lunify.Proofs.Spelled.Emission
import Lunify.Proofs.Spelled.Statements

/-!
# Statements are rendered as their tokens

Statements, blocks and programs are laid out line by line: their steps account for the tokens of the source, make
one row for each line that has something to write, and write the Lua tokens that the tree stands for
(`Tree.Stated.outcome`). The bounds of numeric loops are expressions that are rendered on their own
(`Tree.Spelled.exists_goes`).
-/

namespace Lunify

open List

namespace Tree

open Grammar Core Plan
open Chunk (Lexeme Lexes mark inParens)

variable {plain : Prop} {view : Position → Position} {Q : UInt8 → Prop} {s w lua : String} {t k b : Tree}
  {ts us header : List Tree} {l : Lexeme} {ks ls : List Lexeme} {steps : List Step} {tokens : List Token}

/-- A tree of the built-in grammar whose tokens fit their kinds and follow each other. -/
structure Laid (t : Tree) : Prop where
  derivation : t.IsDerivation builtin
  lexed : AllLexed t
  chain : t.leaves.IsChain Token.Precedes

lemma Laid.child (h : Laid (.node (utf8 s) ts)) (hs : s ∈ builtinTable.map Prod.fst := by decide)
    (ht : t ∈ ts := by simp) : Laid t where
  derivation := isDerivation_child h.derivation hs ht
  lexed := allLexed_node.1 h.lexed t ht
  chain := by
    obtain ⟨before, after, rfl⟩ := append_of_mem ht
    have hchain := h.chain
    rw [leaves, leavesOf_append, leavesOf] at hchain
    exact (isChain_append.1 (isChain_append.1 hchain).2.1).1

lemma Laid.visible (h : Laid t) (hs : s ∈ inlineSymbols) (hlabel : t.label = utf8 s) :
    ∀ tok ∈ t.leaves, tok.isVisible = true :=
  isVisible_of_mem_leaves h.derivation hs hlabel

lemma place_id (tok : Token) : place id tok = tok := rfl

lemma placed_id (t : Tree) : placed id t = t.leaves := by
  have hplace : place id = id := rfl
  rw [placed, hplace, map_id]

lemma flatMap_placed_id (ts : List Tree) : ts.flatMap (placed id) = leavesOf ts := by
  rw [← placed_node id [], placed_id, leaves]

/-! ### Words -/

/-- The words that statements begin with, in Lua, and the tokens they are there. -/
def leadingWords : List (String × String × Lexeme) :=
  [("def", "function", mark "function"), ("if", "if", mark "if"), ("elif", "elseif", mark "elseif"),
    ("else", "else", mark "else"), ("while", "while", mark "while"), ("for", "for", mark "for"),
    ("print", "print", .name (utf8 "print")), ("return", "return", mark "return"),
    ("break", "break", mark "break"), ("continue", "continue", .name (utf8 "continue"))]

/-- These words have a byte that tells their row from a closing keyword. -/
lemma leadingWords_spec : ∀ p ∈ leadingWords, IsLua p.1 p.2.1 p.2.2 ∧
    (∀ b ∈ (utf8 p.2.1).head?, b ≠ byte '=' ∧ b ≠ byte ':') ∧ (∀ x ∈ (utf8 p.2.1).getLast?, Open x) ∧
    p.1 ∉ ":" :: builtinCategories ∧ ∃ b ∈ utf8 p.2.1, b ∉ utf8 " end" := by
  decide +kernel

lemma written_leading (hw : (w, lua, l) ∈ leadingWords) (hk : IsWord w k) (hlexed : AllLexed k) :
    Written plain view Open k [l] Open := by
  obtain ⟨hlua, hhead, hlast, -⟩ := leadingWords_spec _ hw
  exact written_word hlua hk hlexed (fun x hx => heldOff_of_open hx hhead) hlast

/-- What begins with such a word can begin a line. -/
lemma opens_of_leading (hw : (w, lua, l) ∈ leadingWords) (hk : IsWord w k) (hlexed : AllLexed k)
    (h : Renders plain Open (plan id k ++ steps) tokens ls Q) (hvisible : ∀ tok ∈ tokens, tok.isVisible = true) :
    Opens plain (plan id k ++ steps) tokens ls Q := by
  obtain ⟨hlua, -, -, -, hmark⟩ := leadingWords_spec _ hw
  obtain ⟨tok, -, hplan⟩ := hlua.1.exists_plan hk hlexed id
  rw [hplan] at h ⊢
  exact ⟨h, ⟨_, _, _, rfl⟩, ⟨_, mem_cons_self, _, _, rfl, hmark⟩, hvisible⟩

/-! ### What begins with a token -/

/-- The symbols of what begins with a token that is written. -/
def primarySymbols : List String :=
  ["<primary>", "<subscript>", "<len>", "<function_call>", "<atom>", "<list>", "<dict>", "<set>"] ++
    builtinCategories

/-- The symbols of operations, which may begin with a sign. -/
def operationSymbols : List String :=
  ["<expression>", "<disjunction>", "<conjunction>", "<inversion>", "<comparison>", "<sum>", "<term>",
    "<factor>", "<power>"]

lemma primarySymbols_spec :
    (∀ q ∈ singleRules, (q.1 ∈ primarySymbols → q.2 ∈ primarySymbols) ∧
      (q.1 ∈ operationSymbols → q.2 ∈ primarySymbols ++ operationSymbols)) ∧
    (∀ q ∈ binaryRules, q.1 ∉ primarySymbols ∧ q.2.1 ∈ primarySymbols ++ operationSymbols) ∧
    ∀ q ∈ commaRules, q.1 ∉ primarySymbols ++ operationSymbols := by
  decide

/-- Whether steps begin with a token. -/
def BeginsWithToken (steps : List Step) : Prop :=
  ∃ tok s rest, steps = .token tok s :: rest ∧ s ≠ []

lemma BeginsWithToken.append (h : BeginsWithToken steps) (rest : List Step) : BeginsWithToken (steps ++ rest) := by
  obtain ⟨tok, s, rest', rfl, hs⟩ := h
  exact ⟨tok, s, rest' ++ rest, rfl, hs⟩

lemma beginsWithToken_word (hw : IsLua w lua l) (ht : IsWord w t) (hlexed : AllLexed t) :
    BeginsWithToken (plan view t) := by
  obtain ⟨tok, -, hplan⟩ := hw.1.exists_plan ht hlexed view
  exact ⟨_, _, _, hplan, (Chunk.isWord_of_wordOf? hw.2.1).ne_nil⟩

lemma beginsWithToken_category {tok : Token} (hs : s ∈ builtinCategories) (htok : tok.symbol = utf8 s)
    (hlexed : AllLexed (.node (utf8 s) [.leaf (utf8 s) tok])) :
    BeginsWithToken (plan view (.node (utf8 s) [.leaf (utf8 s) tok])) := by
  have hlexed : tok.Lexed := hlexed _ (by simp [leaves, leavesOf])
  exact ⟨_, _, _, plan_category hs htok hlexed, hlexed.content_ne_nil⟩

/-- A primary expression begins with a token, and so does any other one that begins with no plus. -/
lemma Spelled.beginsWithToken {φ : Phrase} (h : Spelled plain φ t ls) (hlexed : AllLexed t)
    (hφ : ∃ s, φ = .symbol s ∧ (s ∈ primarySymbols ∨
      s ∈ operationSymbols ∧ ∀ tok, t.first? = some tok → tok.symbol ≠ utf8 "+")) :
    BeginsWithToken (plan view t) := by
  have hopening : ∀ p ∈ openingWords, IsLua p.1 p.2 (mark p.2) := fun p hp => (luaWords_spec.1 p hp).1
  have hadded : utf8 "\x7b" ≠ [] ∧ utf8 "#" ≠ [] := by decide
  have htable : ∀ (left : Token) (l : Text) (t : Tree) (ts : List Tree) items trailing,
      BeginsWithToken (Plan.table view (.leaf l left :: t :: ts) items trailing) := by
    intro left l t ts items trailing
    cases items with
    | none => exact ⟨_, _, _, rfl, hadded.1⟩
    | some steps =>
      rw [Plan.table, if_neg (by simp)]
      exact ⟨_, _, _, rfl, hadded.1⟩
  obtain ⟨s, hφ, hs⟩ := hφ
  induction h generalizing s with
  | category hs' htok => exact beginsWithToken_category hs' htok hlexed
  | literal hw ht =>
    have hmem : ∀ p ∈ literalWords, p ∈ closingWords := by decide
    rw [plan_node, flatMap_singleton]
    exact beginsWithToken_word (luaWords_spec.2.1 _ (hmem _ hw)).1 ht hlexed.child
  | single hs' ht ih =>
    cases hφ
    rw [plan_single hs' ht]
    obtain ⟨hprimary, hoperation⟩ := primarySymbols_spec.1 _ hs'
    refine ih hlexed.child _ rfl ?_
    rcases hs with hs | ⟨hs, hplus⟩
    · exact .inl (hprimary hs)
    · exact (mem_append.1 (hoperation hs)).imp_right fun hs => ⟨hs, by rwa [first?] at hplus⟩
  | binary hs' ht _ _ ih =>
    cases hφ
    have hform : ∀ q ∈ binaryRules, Form.ofLabel (utf8 q.1) = .sequence := by decide
    obtain ⟨hother, hleft⟩ := primarySymbols_spec.2.1 _ hs'
    obtain ⟨-, hplus⟩ := hs.resolve_left hother
    rw [plan_node (by simp [hform _ hs']), flatMap_cons]
    exact (ih hlexed.child _ rfl ((mem_append.1 hleft).imp_right fun hs =>
      ⟨hs, by rwa [first?] at hplus⟩)).append _
  | comma hs' =>
    cases hφ
    exact absurd (mem_append.2 (hs.imp_right And.left)) (primarySymbols_spec.2.2 _ hs')
  | pair | keyword =>
    cases hφ
    exact absurd (mem_append.2 (hs.imp_right And.left)) (by decide)
  | @not k t _ hk =>
    have hnot : BeginsWithToken (plan view k) :=
      beginsWithToken_word (hopening ("not", "not") (by decide)) hk hlexed.child
    rw [plan, show Form.ofLabel (utf8 "<inversion>") = .inversion by decide]
    cases hcomparison : isComparison t with
    | true => simpa [nth, hcomparison] using hnot.append _
    | false => simpa [parts_plain, hcomparison] using hnot.append _
  | @neg k t _ hk =>
    have hminus : BeginsWithToken (plan view k) :=
      beginsWithToken_word (hopening ("-", "-") (by decide)) hk hlexed.child
    obtain ⟨tok, rfl, hsymbol⟩ := hk
    have hne : tok.content ≠ utf8 "+" := by
      rw [(Token.content_of_symbol (by decide) hsymbol).1]
      decide
    rw [plan, show Form.ofLabel (utf8 "<factor>") = .factor by decide]
    simpa [parts_plain, Tree.isLeafOf, hne] using hminus.append _
  | pos hk =>
    cases hφ
    obtain ⟨tok, rfl, hsymbol⟩ := hk
    exact absurd hsymbol ((hs.resolve_left (by decide)).2 tok (by rw [first?, first?]))
  | firstItem | nextItem => cases hφ
  | paren ha =>
    rw [plan_node, flatMap_cons]
    exact (beginsWithToken_word (hopening ("(", "(") (by decide)) ha hlexed.child).append _
  | index _ _ _ _ ih =>
    rw [plan_node, flatMap_cons]
    exact (ih hlexed.child "<primary>" rfl (.inl (by decide))).append _
  | length hk =>
    obtain ⟨kw, rfl, -⟩ := hk
    rw [plan, show Form.ofLabel (utf8 "<len>") = .length by decide]
    exact ⟨_, _, _, rfl, hadded.2⟩
  | callNothing hf | call hf =>
    obtain ⟨tok, rfl, htok, -⟩ := hf
    rw [plan_node, flatMap_cons]
    exact (beginsWithToken_category (s := "<Identifier>") (by decide) htok
      (hlexed.child mem_cons_self)).append _
  | empty hs' ha hb =>
    simp only [mem_cons, Prod.mk.injEq, not_mem_nil, or_false] at hs'
    rcases hs' with ⟨rfl, rfl, rfl⟩ | ⟨rfl, rfl, rfl⟩
    · obtain ⟨left, rfl, -⟩ := ha
      rw [plan, show Form.ofLabel (utf8 "<list>") = .list by decide]
      exact htable _ _ _ _ _ _
    · rw [plan_dict ha, flatMap_cons]
      exact (beginsWithToken_word (hopening ("\x7b", "\x7b") (by decide)) ha
        hlexed.child).append _
  | table hs' ha =>
    obtain ⟨left, rfl, -⟩ := ha
    simp only [mem_cons, Prod.mk.injEq, not_mem_nil, or_false] at hs'
    rcases hs' with ⟨rfl, rfl, rfl, rfl⟩ | ⟨rfl, rfl, rfl, rfl⟩
    · rw [plan, show Form.ofLabel (utf8 "<list>") = .list by decide]
      exact htable _ _ _ _ _ _
    · rw [plan, show Form.ofLabel (utf8 "<set>") = .set by decide]
      exact htable _ _ _ _ _ _
  | dict ha =>
    rw [plan_dict ha, flatMap_cons]
    exact (beginsWithToken_word (hopening ("\x7b", "\x7b") (by decide)) ha
      hlexed.child).append _
  | dictNothing hk | dictCall hk =>
    obtain ⟨kw, rfl, hsymbol⟩ := hk
    rw [plan, show Form.ofLabel (utf8 "<dict>") = .dict by decide]
    simp only [tokenAt, getElem?_cons_zero, Option.bind_some, Tree.token?, Option.map_some,
      Token.content_place, (Token.content_of_symbol (by decide) hsymbol).1, ne_eq, not_true_eq_false, if_false]
    exact ⟨_, _, _, rfl, hadded.1⟩

/-! ### Simple statements -/

lemma IsOptional.renders (h : IsOptional plain s ts ls) (hlexed : ∀ t ∈ ts, AllLexed t) :
    Renders plain Open (ts.flatMap (plan id)) (ts.flatMap (placed id)) ls fun _ => True := by
  cases h with
  | none => exact Renders.nil.ended
  | some ht =>
    have hall : Written plain id Open _ ls Ended := ht.written (hlexed _ (by simp)) id
    rw [flatMap_singleton, flatMap_singleton]
    exact hall.ended

/-- A row with such a word is more than a closing keyword. -/
lemma exists_isMark (hw : w ∈ ["=", "("]) (ht : IsWord w t) (hlexed : AllLexed t) :
    ∃ st ∈ plan id t, st.IsMark := by
  have hspec : ∀ w ∈ ["=", "("], IsSpelled w w ∧ ∃ b ∈ utf8 w, b ∉ utf8 " end" := by decide
  obtain ⟨hspelled, hmark⟩ := hspec w hw
  obtain ⟨tok, -, hplan⟩ := hspelled.exists_plan ht hlexed id
  exact ⟨_, hplan ▸ mem_singleton_self _, _, _, rfl, hmark⟩

/-- The steps of a node that is no construct begin a line if those of its first part begin with a token. -/
lemma opens_node (hs : Form.ofLabel (utf8 s) ∈ [Form.sequence, .assignment, .call, .identifier])
    (h : Renders plain Open ((t :: ts).flatMap (plan id)) ((t :: ts).flatMap (placed id)) ls Q)
    (ht : BeginsWithToken (plan id t)) (hlaid : Laid (.node (utf8 s) (t :: ts))) (hinline : s ∈ inlineSymbols)
    (hk : k ∈ ts) (hmark : ∃ st ∈ plan id k, st.IsMark) :
    Opens plain (plan id (.node (utf8 s) (t :: ts))) (leaves (.node (utf8 s) (t :: ts))) ls Q := by
  rw [plan_node hs, leaves, ← flatMap_placed_id]
  refine ⟨h, ?_, ?_, ?_⟩
  · obtain ⟨tok, text, rest, hplan, -⟩ := ht
    exact ⟨tok, text, _, by rw [flatMap_cons, hplan, cons_append]⟩
  · obtain ⟨st, hst, hmark⟩ := hmark
    exact ⟨st, mem_flatMap.2 ⟨k, mem_cons_of_mem t hk, hst⟩, hmark⟩
  · rw [flatMap_placed_id]
    exact hlaid.visible hinline rfl

/-- The steps of a node that begins with a leading word begin a line. -/
lemma opens_leadingNode (hs : Form.ofLabel (utf8 s) ∈ [Form.sequence, .assignment, .call, .identifier])
    (hw : (w, lua, l) ∈ leadingWords) (hk : IsWord w k) (hinline : s ∈ inlineSymbols)
    (hlaid : Laid (.node (utf8 s) (k :: ts)))
    (h : Renders plain Open (ts.flatMap (plan id)) (ts.flatMap (placed id)) ls Q) :
    Opens plain (plan id (.node (utf8 s) (k :: ts))) (leaves (.node (utf8 s) (k :: ts))) (l :: ls) Q := by
  have hlexed : AllLexed k := allLexed_node.1 hlaid.lexed k (by simp)
  have hvisible := hlaid.visible hinline rfl
  rw [leaves, ← flatMap_placed_id] at hvisible
  rw [plan_node hs, leaves, ← flatMap_placed_id, flatMap_cons]
  exact opens_of_leading hw hk hlexed ((written_leading hw hk hlexed).append h) hvisible

/-- A call is a name before parentheses. -/
lemma Spelled.exists_call (h : Spelled plain "<function_call>" t ls) :
    ∃ f a ts, t = .node (utf8 "<function_call>") (f :: a :: ts) ∧ IsWord "(" a := by
  have hrules : (∀ q ∈ singleRules, q.1 ≠ "<function_call>") ∧ (∀ q ∈ binaryRules, q.1 ≠ "<function_call>") ∧
      (∀ q ∈ commaRules, q.1 ≠ "<function_call>") ∧ "<function_call>" ∉ builtinCategories := by decide
  generalize hφ : Phrase.symbol "<function_call>" = φ at h
  cases h with
  | callNothing _ ha | call _ ha => exact ⟨_, _, _, rfl, ha⟩
  | single hs => exact absurd (Phrase.symbol.inj hφ).symm (hrules.1 _ hs)
  | binary hs => exact absurd (Phrase.symbol.inj hφ).symm (hrules.2.1 _ hs)
  | comma hs => exact absurd (Phrase.symbol.inj hφ).symm (hrules.2.2.1 _ hs)
  | category hs => exact absurd (Phrase.symbol.inj hφ ▸ hs) hrules.2.2.2
  | empty hs | table hs =>
    obtain rfl := Phrase.symbol.inj hφ
    simp at hs
  | _ => simp at hφ

/-- A simple statement that is written can begin a line. -/
lemma IsWritten.opens (h : IsWritten plain t ls) (hlaid : Laid t) :
    Opens plain (plan id t) t.leaves ls fun _ => True := by
  cases h with
  | @assign s t c u ks ls hs ht hc hu =>
    have hmem : ∀ s ∈ ["<Identifier>", "<subscript>"], s ∈ primarySymbols := by decide
    have htarget : Written plain id Open t ks Ended := ht.written hlaid.lexed.child id
    have hvalue : Written plain id Open u ls Ended := hu.written hlaid.lexed.child id
    have hsign : Written plain id Ended c [mark "="] Open :=
      written_connecting hc hlaid.lexed.child
    exact opens_node (by decide) (by simpa using htarget.append (hsign.append hvalue.ended))
      (ht.beginsWithToken hlaid.lexed.child ⟨s, rfl, .inl (hmem s hs)⟩) hlaid (by decide) (show c ∈ [c, u] by simp)
      (exists_isMark (by decide) hc hlaid.lexed.child)
  | call ht =>
    have hall : Written plain id Open t ls Ended := ht.written hlaid.lexed id
    obtain ⟨tok, text, rest, hplan, -⟩ : BeginsWithToken (plan id t) :=
      ht.beginsWithToken hlaid.lexed ⟨_, rfl, .inl (by decide)⟩
    rw [Written, placed_id] at hall
    refine ⟨hall.ended, ⟨_, _, _, hplan⟩, ?_, hlaid.visible (by decide) ht.label⟩
    obtain ⟨f, a, ts, rfl, ha⟩ := ht.exists_call
    obtain ⟨st, hst, hmark⟩ := exists_isMark (by decide) ha hlaid.lexed.child
    rw [plan_node]
    exact ⟨st, mem_flatMap.2 ⟨a, by simp, hst⟩, hmark⟩
  | @print k a b ts ls hk ha hts hb =>
    have hleft : Written plain id Open a [mark "("] Open := written_opening ha hlaid.lexed.child
    have hright : Written plain id (fun _ => True) b [mark ")"] Ended :=
      written_closing hb hlaid.lexed.child
    have hargs := hts.renders fun t ht => hlaid.lexed.child (by simp [ht])
    refine opens_leadingNode (by decide) (show ("print", "print", _) ∈ leadingWords by decide) hk (by decide) hlaid ?_
    simpa [inParens] using hleft.append (hargs.append hright.ended)
  | «return» hk hts =>
    exact opens_leadingNode (by decide) (show ("return", "return", _) ∈ leadingWords by decide) hk (by decide) hlaid
      (hts.renders fun t ht => allLexed_node.1 hlaid.lexed t (by simp [ht]))
  | @jump w l _ hw hk =>
    have hspec : ∀ q ∈ jumpWords, (q.1, q.1, q.2) ∈ leadingWords ∧ q.1 ∈ inlineSymbols := by decide
    obtain ⟨hleading, hinline⟩ := hspec _ hw
    have hword : Written plain id Open t [l] Open := written_leading hleading hk hlaid.lexed
    have hlabel : t.label = utf8 w := by
      obtain ⟨tok, rfl, -⟩ := hk
      rfl
    rw [Written, placed_id, ← append_nil (plan id t)] at hword
    rw [← append_nil (plan id t)]
    exact opens_of_leading hleading hk hlaid.lexed hword.ended (hlaid.visible hinline hlabel)

/-! ### Fragments -/

/-- An expression rendered on its own gives a text on one line, made of the tokens that it stands for, and its
steps are aligned. -/
lemma Spelled.exists_goes (h : Spelled plain "<expression>" t ls) (hlaid : Laid t) :
    ∃ tok c done, t.first? = some tok ∧ Cursor.start.run (plan (Position.relativeTo tok.pos) t) = .ok c ∧
      byte '\n' ∉ c.text ∧ (plain → Lexes c.text ls) ∧
      Goes [⟨0, 0, 0, 0, some anchor⟩] 0 Cursor.start (plan (Position.relativeTo tok.pos) t) done [] := by
  obtain ⟨tok, rest, hfirst, hleaves⟩ := h.leads
  have hvisible := hlaid.visible (by decide) h.label
  have hfeed : ∀ u ∈ t.leaves, byte '\n' ∉ u.content := fun u hu => (hlaid.lexed u hu).notMem_feed
  have hall : Written plain (Position.relativeTo tok.pos) Open t ls Ended := h.written hlaid.lexed _
  have hseen : placed (Position.relativeTo tok.pos) t = t.leaves.map (Token.seenFrom tok.pos) := rfl
  have haccounts : Accounts [anchor] (plan (Position.relativeTo tok.pos) t)
      (t.leaves.map (Token.seenFrom tok.pos)) := by
    refine hseen ▸ hall.inline.accounts (fun u hu => ?_) ⟨anchor, rfl, by decide⟩
    obtain ⟨v, hv, rfl⟩ := mem_map.1 hu
    exact hvisible v hv
  have hchain := hlaid.chain
  rw [hleaves] at haccounts hchain hvisible hfeed
  have hgoes := goes_of_seenFrom haccounts hchain hvisible hfeed
  obtain ⟨c, hrun, -⟩ := hgoes.ends
  have hfirstLine := pos_of_mem_seenFrom hchain hvisible
  rw [← hleaves] at hfirstLine
  obtain ⟨r, hgrows, -⟩ := Cursor.exists_grows_run (c := .start) rfl
    (hall.inline.onLine fun u hu => (hfirstLine u hu).1) hrun
  refine ⟨tok, c, _, hfirst, hrun, hgrows.text ▸ hgrows.noFeed, fun hplain => ?_, hgoes⟩
  obtain ⟨c', hrun', hlexes, -⟩ := (hall.emits hplain).writes Cursor.start [] .nil open_start
  obtain rfl := Except.ok.inj (hrun'.symm.trans hrun)
  exact hlexes

/-- The expressions among some trees, and their texts. -/
def HasFragments (ts : List Tree) (ss : List Text) (es : List Tree) : Prop :=
  fragments id ts = ss.map .ok ∧ ts.filter (Tree.is expressionLabel) = es

lemma HasFragments.nil : HasFragments [] [] [] :=
  ⟨rfl, rfl⟩

lemma HasFragments.word {ts es : List Tree} {ss : List Text} {w : String} (h : HasFragments ts ss es)
    (ht : IsWord w t) (hw : w ≠ "<expression>" := by decide) : HasFragments (t :: ts) ss es := by
  have his := ht.is_expressionLabel hw
  refine ⟨?_, by simpa [his] using h.2⟩
  rw [fragments, if_neg (by simp [his]), h.1]

/-- The text of an expression that is rendered on its own. -/
lemma Spelled.exists_fragment (ht : Spelled plain "<expression>" t ls) (hlaid : Laid t) :
    ∃ s, byte '\n' ∉ s ∧ (plain → Lexes s ls) ∧
      ∀ {ts ss es}, HasFragments ts ss es → HasFragments (t :: ts) (s :: ss) (t :: es) := by
  obtain ⟨tok, c, -, hfirst, hrun, hline, hlexes, -⟩ := ht.exists_goes hlaid
  refine ⟨c.text, hline, hlexes, fun {ts ss es} h => ?_⟩
  have htext : fragmentText (plan (fun p => Position.relativeTo (id tok.pos) (id p)) t) = .ok c.text :=
    congrArg (Except.map Cursor.text) hrun
  have his : t.is expressionLabel = true := decide_eq_true ht.label
  refine ⟨?_, by simpa [his] using h.2⟩
  rw [fragments, if_pos his]
  simp only [hfirst, htext, h.1, map_cons]

/-- The end of a numeric loop is on one line. -/
lemma notMem_bound {finish : Tree} {text : Text} {down : Bool} (h : byte '\n' ∉ text) :
    byte '\n' ∉ bound finish text down := by
  have hminus : byte '\n' ≠ byte '-' := by decide
  have hint : ∀ v : Int, byte '\n' ∉ Text.ofInt v
    | .ofNat n => notMem_ofNat n
    | .negSucc n => by simp [Text.ofInt, hminus, notMem_ofNat]
  have hshift : byte '\n' ∉ utf8 (if down then " + 1" else " - 1") := by
    cases down <;> decide
  have hparens : byte '\n' ∉ utf8 "(" ∧ byte '\n' ∉ utf8 ")" := by decide
  have hother : byte '\n' ∉ text ++ utf8 (if down then " + 1" else " - 1") := by
    rw [mem_append, not_or]
    exact ⟨h, hshift⟩
  unfold bound
  generalize utf8 (if down then " + 1" else " - 1") = shift at hshift hother ⊢
  split
  · split
    · split
      · exact hint _
      · exact hother
    · exact hother
  · simp only [mem_append, not_or]
    exact ⟨⟨⟨hparens.1, h⟩, hparens.2⟩, hshift⟩

/-- The end of a numeric loop. -/
lemma lexes_endLexemes {s : Text} (hs : Lexes s ls) (down : Bool) :
    Lexes (bound t s down) (endLexemes t ls down) := by
  have hother := lexes_lastOp hs down
  have hparens := lexes_lastOp (lexes_inParens hs) down
  unfold bound endLexemes
  match t.leaves with
  | [] => exact hparens
  | tok :: tok' :: rest => exact hparens
  | [tok] =>
    by_cases hkind : tok.kind = .number
    · simp only [hkind, if_true]
      cases integer? tok.content with
      | none => exact hother
      | some v => exact lexes_ofInt _
    · simp only [hkind, if_false]
      exact hother

/-- The bounds of a numeric loop are on one line and are written as the tokens of the range. -/
lemma IsRange.exists_bounds (h : IsRange plain t ls) (hlaid : Laid t) : ∃ text us last,
    ((fragmentsIn id t).mapM id >>= bounds (t.children.filter (Tree.is expressionLabel))) = .ok text ∧
    t = .node (utf8 "<range>") (us ++ [.leaf (utf8 ")") last]) ∧ byte '\n' ∉ text ∧ (plain → Lexes text ls) := by
  have hsep : byte '\n' ∉ utf8 ", " ∧ byte '\n' ∉ utf8 "0, " := by decide
  have hparts : ∀ u ∈ t.children, Laid u := by
    cases h <;> exact fun u hu => hlaid.child (by decide) hu
  cases h with
  | @upTo k a t b ls hk ha ht hb =>
    obtain ⟨s, hfeed, hlexes, hs⟩ := ht.exists_fragment (hparts t (by simp [Tree.children]))
    obtain ⟨hfragments, hfilter⟩ := ((hs (.word .nil hb)).word ha).word hk
    have hzero : Lexes (utf8 "0") [.number (utf8 "0")] := lexes_ofNat 0
    obtain ⟨tok, rfl, -⟩ := hb
    refine ⟨_, [k, a, t], tok, ?_, rfl, ?_, fun hplain => lexes_comma hzero (lexes_endLexemes (hlexes hplain) false)⟩
    · simp only [fragmentsIn, Tree.children, hfragments, hfilter]
      rfl
    · exact mem_append.not.2 (not_or.2 ⟨hsep.2, notMem_bound hfeed⟩)
  | @between k a t c u b ks ls hk ha ht hc hu hb =>
    obtain ⟨s, hfeed, hlexes, hs⟩ := ht.exists_fragment (hparts t (by simp [Tree.children]))
    obtain ⟨s', hfeed', hlexes', hs'⟩ := hu.exists_fragment (hparts u (by simp [Tree.children]))
    obtain ⟨hfragments, hfilter⟩ := ((hs ((hs' (.word .nil hb)).word hc)).word ha).word hk
    obtain ⟨tok, rfl, -⟩ := hb
    refine ⟨_, [k, a, t, c, u], tok, ?_, rfl, ?_,
      fun hplain => lexes_comma (hlexes hplain) (lexes_endLexemes (hlexes' hplain) false)⟩
    · simp only [fragmentsIn, Tree.children, hfragments, hfilter]
      rfl
    · simp only [mem_append, not_or]
      exact ⟨⟨hfeed, hsep.1⟩, notMem_bound hfeed'⟩
  | @stepped k a t c u d v b ks ls ms hk ha ht hc hu hd hv hb =>
    obtain ⟨s, hfeed, hlexes, hs⟩ := ht.exists_fragment (hparts t (by simp [Tree.children]))
    obtain ⟨s', hfeed', hlexes', hs'⟩ := hu.exists_fragment (hparts u (by simp [Tree.children]))
    obtain ⟨s'', hfeed'', hlexes'', hs''⟩ := hv.exists_fragment (hparts v (by simp [Tree.children]))
    obtain ⟨hfragments, hfilter⟩ := ((hs ((hs' ((hs'' (.word .nil hb)).word hd)).word hc)).word ha).word hk
    obtain ⟨tok, rfl, -⟩ := hb
    refine ⟨_, [k, a, t, c, u, d, v], tok, ?_, rfl, ?_, fun hplain =>
      lexes_comma (lexes_comma (hlexes hplain) (lexes_endLexemes (hlexes' hplain) (isNegative v))) (hlexes'' hplain)⟩
    · simp only [fragmentsIn, Tree.children, hfragments, hfilter]
      rfl
    · simp only [mem_append, not_or]
      exact ⟨⟨⟨⟨hfeed, hsep.1⟩, notMem_bound hfeed'⟩, hsep.1⟩, hfeed''⟩

/-! ### Headers -/

section Headers

variable {c f i x r a : Tree} {colon : Colon} {word : String}

/-- The symbols of the parts of a header. -/
lemma IsHeader.exists_label (h : IsHeader plain s header ks) :
    ∀ t ∈ header, ∃ w ∈ inlineSymbols, t.label = utf8 w := by
  have hword : ∀ {w : String} {t : Tree}, IsWord w t → t.label = utf8 w := by
    rintro w _ ⟨tok, rfl, -⟩
    rfl
  have hname : ∀ {t : Tree} {l : Lexeme}, IsName t l → t.label = utf8 "<Identifier>" := by
    rintro _ l ⟨tok, rfl, -⟩
    rfl
  have hcondition : ∀ q ∈ conditionWords, q.2.1 ∈ inlineSymbols := by decide
  have hcolon : ":" ∈ inlineSymbols := by decide
  cases h with
  | condition hs hk ht hc =>
    simp only [forall_mem_cons, not_mem_nil, false_imp_iff, implies_true, and_true]
    exact ⟨⟨_, hcondition _ hs, hword hk⟩, ⟨_, by decide, ht.label⟩, _, hcolon, hword hc⟩
  | otherwise hk hc =>
    simp only [forall_mem_cons, not_mem_nil, false_imp_iff, implies_true, and_true]
    exact ⟨⟨_, by decide, hword hk⟩, _, hcolon, hword hc⟩
  | @define _ _ _ _ _ ps _ _ hk hf ha hps hb hc =>
    have hparameters : ∀ t ∈ ps, ∃ w ∈ inlineSymbols, t.label = utf8 w := by
      cases hps with
      | none => simp
      | some ht => exact forall_mem_singleton.2 ⟨_, by decide, ht.label⟩
    simp only [forall_mem_cons, forall_mem_append, not_mem_nil, false_imp_iff, implies_true, and_true]
    exact ⟨⟨_, by decide, hword hk⟩, ⟨_, by decide, hname hf⟩, ⟨_, by decide, hword ha⟩, hparameters,
      ⟨_, by decide, hword hb⟩, _, hcolon, hword hc⟩
  | @count _ _ _ r _ _ _ hk hx hi hr hc =>
    have hrange : r.label = utf8 "<range>" := by cases hr <;> rfl
    simp only [forall_mem_cons, not_mem_nil, false_imp_iff, implies_true, and_true]
    exact ⟨⟨_, by decide, hword hk⟩, ⟨_, by decide, hname hx⟩, ⟨_, by decide, hword hi⟩, ⟨_, by decide, hrange⟩,
      _, hcolon, hword hc⟩
  | each hk hx hi ht hc =>
    simp only [forall_mem_cons, not_mem_nil, false_imp_iff, implies_true, and_true]
    exact ⟨⟨_, by decide, hword hk⟩, ⟨_, by decide, hname hx⟩, ⟨_, by decide, hword hi⟩, ⟨_, by decide, ht.label⟩,
      _, hcolon, hword hc⟩

lemma IsHeader.isHeaderPart (h : IsHeader plain s header ks) : ∀ t ∈ header, IsHeaderPart t := by
  have hbodies : ∀ w ∈ inlineSymbols, w ≠ "<block>" ∧ w ≠ "<else>" := by decide
  intro t ht
  obtain ⟨w, hw, hlabel⟩ := h.exists_label t ht
  rw [IsHeaderPart, hlabel]
  exact ⟨fun heq => (hbodies w hw).1 (utf8_injective heq), fun heq => (hbodies w hw).2 (utf8_injective heq)⟩

lemma IsHeader.visible (h : IsHeader plain s header ks) (hlaid : ∀ t ∈ header, Laid t) :
    ∀ tok ∈ leavesOf header, tok.isVisible = true := by
  intro tok htok
  obtain ⟨t, ht, htok⟩ := exists_mem_of_mem_leaves (l := []) htok
  obtain ⟨w, hw, hlabel⟩ := h.exists_label t ht
  exact (hlaid t ht).visible hw hlabel tok htok

/-- Whether a construct with the given header is rendered with the given steps for it. The closing keyword comes
after the last body, unless the construct is an alternative. -/
def IsPlanned (s : String) (header : List Tree) (kw : Token) (steps : List Step) : Prop :=
  ∀ us last, (∀ u ∈ us, ∃ l vs, u = .node l vs) → lastBody (header ++ us) = some last →
    (s = "<for>" → us = [last]) →
    plan id (.node (utf8 s) (header ++ us)) =
      steps ++ us.flatMap (plan id) ++ if s = "<else>" then [] else [closing id (some kw) last]

/-- The constructs that are rendered as their parts, with the word that they begin with and what becomes of the
colon. -/
def colonForms : List (String × String × Colon) :=
  [("<function>", "def", .dropped), ("<if>", "if", .keyword (utf8 "then")),
    ("<while>", "while", .keyword (utf8 "do")), ("<else>", "elif", .keyword (utf8 "then")),
    ("<else>", "else", .dropped)]

lemma parts_append_parts (ts us : List Tree) :
    parts id colon (ts ++ us) = parts id colon ts ++ parts id colon us := by
  induction ts with
  | nil => simp [parts]
  | cons t ts ih =>
    rw [cons_append, parts, parts, ih]
    cases colonStep? id colon t with
    | none => simp
    | some step => simp

lemma parts_nodes (hus : ∀ u ∈ us, ∃ l vs, u = .node l vs) : parts id colon us = us.flatMap (plan id) := by
  induction us with
  | nil => simp [parts]
  | cons u us ih =>
    rw [forall_mem_cons] at hus
    rw [parts_cons_node hus.1, ih hus.2, flatMap_cons]

lemma isPlanned_parts {kw : Token} (header : List Tree) (hs : (s, w, colon) ∈ colonForms) (hk : IsWord w (.leaf (utf8 w) kw)) :
    IsPlanned s (.leaf (utf8 w) kw :: header) kw (parts id colon (.leaf (utf8 w) kw :: header)) := by
  intro us last hus hlast _
  have hopener : tokenAt id (.leaf (utf8 w) kw :: (header ++ us)) 0 = some kw := rfl
  simp only [cons_append] at hlast ⊢
  have hparts : parts id colon (.leaf (utf8 w) kw :: (header ++ us)) =
      parts id colon (.leaf (utf8 w) kw :: header) ++ us.flatMap (plan id) := by
    rw [← cons_append, parts_append_parts, parts_nodes hus]
  simp only [colonForms, mem_cons, Prod.mk.injEq, not_mem_nil, or_false] at hs
  rcases hs with ⟨rfl, rfl, rfl⟩ | ⟨rfl, rfl, rfl⟩ | ⟨rfl, rfl, rfl⟩ | ⟨rfl, rfl, rfl⟩ | ⟨rfl, rfl, rfl⟩
  · rw [plan, show Form.ofLabel (utf8 "<function>") = .function by decide]
    simp [closed, hlast, hopener, hparts]
  · rw [plan, show Form.ofLabel (utf8 "<if>") = .conditional by decide]
    simp [closed, hlast, hopener, hparts]
  · rw [plan, show Form.ofLabel (utf8 "<while>") = .whileLoop by decide]
    simp [closed, hlast, hopener, hparts]
  · simpa [Core.node] using (plan_alternative hk (by decide)).trans hparts
  · simpa [Core.node] using (plan_alternative hk (by decide)).trans hparts

/-- What is known of the header of a construct: it begins with a keyword and can begin a line. -/
def HasHeader (plain : Prop) (s : String) (header : List Tree) (ks : List Lexeme) : Prop :=
  ∃ kw rest steps, leavesOf header = kw :: rest ∧ Opens plain steps (leavesOf header) ks Open ∧
    IsPlanned s header kw steps

/-- A header from its keyword and the steps after it. -/
lemma hasHeader_of_renders (hw : (w, lua, l) ∈ leadingWords) (hk : IsWord w k) (hlexed : AllLexed k)
    (h : Renders plain Open steps (leavesOf header) ks Open)
    (hvisible : ∀ tok ∈ leavesOf (k :: header), tok.isVisible = true)
    (hplan : ∀ kw, k = .leaf (utf8 w) kw → IsPlanned s (k :: header) kw (plan id k ++ steps)) :
    HasHeader plain s (k :: header) (l :: ks) := by
  obtain ⟨kw, hkw, -⟩ := id hk
  have hkeyword : Written plain id Open k [l] Open := written_leading hw hk hlexed
  rw [Written, placed_id] at hkeyword
  refine ⟨kw, leavesOf header, plan id k ++ steps, by rw [leavesOf, hkw, leaves]; rfl, ?_, hplan kw hkw⟩
  exact opens_of_leading hw hk hlexed (by simpa [leavesOf] using hkeyword.append h) hvisible

lemma renders_colon (tok : Token) (hword : word ∈ ["then", "do"]) :
    Renders plain Q [.keyword tok (utf8 word)] [tok] [mark word] Open := by
  have hspec : ∀ w ∈ ["then", "do"], Chunk.wordOf? (utf8 w) = some (mark w) ∧ (utf8 w).isFree = true ∧
      (∀ x ∈ (utf8 w).getLast?, Open x) ∧ byte '\n' ∉ utf8 w := by decide +kernel
  obtain ⟨hlua, hfree, hlast, hfeed⟩ := hspec word hword
  have hlexes := Chunk.isWord_of_wordOf? hlua
  exact .keyword hfeed (.piece rfl hlexes.lexes hlexes.ne_nil (fun x _ => heldOff_of_isFree hfree x) hlast)

/-- The header of a numeric loop. -/
lemma hasHeader_count (hk : IsWord "for" k) (hx : IsName x l) (hi : IsWord "in" i) (hr : IsRange plain r ks)
    (hc : IsWord ":" c) (hlaid : ∀ t ∈ [k, x, i, r, c], Laid t)
    (hvisible : ∀ tok ∈ leavesOf [k, x, i, r, c], tok.isVisible = true) :
    HasHeader plain "<for>" [k, x, i, r, c] (mark "for" :: l :: mark "=" :: (ks ++ [mark "do"])) := by
  have hname : Written plain id Open x [l] Ended := hx.written (hlaid x (by simp)).lexed
  obtain ⟨text, us, last, htext, rfl, hfeed, hlexes⟩ := hr.exists_bounds (hlaid r (by simp))
  obtain ⟨first, rfl, -⟩ := hi
  obtain ⟨colon, rfl, -⟩ := hc
  have hspan : Renders plain Ended [.span first last (utf8 "= " ++ text)]
      (first :: leavesOf us ++ [last] ++ []) (mark "=" :: ks) fun _ => True := by
    have hsign : byte '\n' ∉ utf8 "= " := by decide
    refine ⟨.span (by simp [hsign, hfeed]) .nil, fun hplain => ?_⟩
    have hequals : Chunk.wordOf? (utf8 "=") = some (mark "=") := wordOf?_added "=" (by decide)
    have hbounds : Lexes (utf8 "= " ++ text) (mark "=" :: ks) := lexes_mark_blank hequals (hlexes hplain)
    exact .piece rfl hbounds (cons_ne_nil (byte '=') _) (fun x hx => heldOff_of_ended hx _) fun _ _ => trivial
  rw [Written, placed_id] at hname
  have hall := hname.append (hspan.append (renders_colon colon (show "do" ∈ _ by decide)))
  refine hasHeader_of_renders (show ("for", "for", mark "for") ∈ leadingWords by decide) hk (hlaid k (by simp)).lexed
    (by simpa [leavesOf, leavesOf_append, leaves] using hall) hvisible ?_
  rintro kw rfl us' body - - hus
  obtain rfl := hus rfl
  conv_lhs => rw [plan, show Form.ofLabel (utf8 "<for>") = .forLoop by decide]
  simp only [Tree.children, filter_append] at htext
  simp [nth, fragmentsNth, rangeHeader, htext, needed, tokenAt, Tree.token?, Tree.children, Tree.label, rangeLabel,
    place_id]

/-- The header of a loop over the keys of a table. -/
lemma hasHeader_each (hk : IsWord "for" k) (hx : IsName x l) (hi : IsWord "in" i)
    (ht : Spelled plain "<expression>" t ks) (hc : IsWord ":" c) (hlaid : ∀ u ∈ [k, x, i, t, c], Laid u)
    (hvisible : ∀ tok ∈ leavesOf [k, x, i, t, c], tok.isVisible = true) :
    HasHeader plain "<for>" [k, x, i, t, c]
      (mark "for" :: l :: mark "in" :: .name (utf8 "pairs") :: (inParens ks ++ [mark "do"])) := by
  have hname : Written plain id Open x [l] Ended := hx.written (hlaid x (by simp)).lexed
  have hin : Written plain id Ended i [mark "in"] Open := written_opening hi (hlaid i (by simp)).lexed
  have hcollection : Written plain id Open t ks Ended := ht.written (hlaid t (by simp)).lexed id
  have hpairs : ∀ tok, Emits Open [.before tok (utf8 "pairs(")] [.name (utf8 "pairs"), mark "("] Open := by
    have hname : Chunk.IsWord (utf8 "pairs") (.name (utf8 "pairs")) := Chunk.isWord_of_wordOf? (by decide)
    have hleft : Chunk.IsWord (utf8 "(") (mark "(") := isWord_added (by decide)
    have hlexes : Lexes (utf8 "pairs" ++ utf8 "(") [.name (utf8 "pairs"), mark "("] :=
      .word hname (apart_of_head (b := byte '(') (by decide)) hleft.lexes
    exact fun tok => .piece rfl hlexes (by decide) (fun x _ => heldOff_of_isFree (by decide) x)
      (by decide +kernel)
  have hright : Renders plain Ended [.insert (utf8 ")")] [] [mark ")"] Ended :=
    .insert (by decide) (emits_closingMark (by decide) rfl)
  obtain ⟨colon, rfl, -⟩ := hc
  have hinner := renders_before ht.leads (by decide) hpairs
    (hcollection.append (hright.append (renders_colon colon (show "do" ∈ _ by decide))))
  have hall := hname.append (hin.append hinner)
  have hne : utf8 "<expression>" ≠ rangeLabel := by decide
  refine hasHeader_of_renders (show ("for", "for", mark "for") ∈ leadingWords by decide) hk (hlaid k (by simp)).lexed
    (by simpa [leavesOf, leaves, placed_id, inParens] using hall) hvisible ?_
  rintro kw rfl us' body - - hus
  obtain rfl := hus rfl
  conv_lhs => rw [plan, show Form.ofLabel (utf8 "<for>") = .forLoop by decide]
  simp [nth, needed, tokenAt, Tree.token?, ht.label, hne, place_id]

/-- The header of every construct can begin a line. -/
lemma IsHeader.hasHeader (h : IsHeader plain s header ks) (hlaid : ∀ t ∈ header, Laid t) :
    HasHeader plain s header ks := by
  have hvisible := h.visible hlaid
  cases h with
  | @condition s w lua colon k t c ls hs hk ht hc =>
    have hspec : ∀ q ∈ conditionWords, (q.2.1, q.2.2.1, mark q.2.2.1) ∈ leadingWords ∧ q.2.2.2 ∈ ["then", "do"] ∧
        (q.1, q.2.1, Colon.keyword (utf8 q.2.2.2)) ∈ colonForms := by decide
    obtain ⟨hleading, hcolon, hform⟩ := hspec _ hs
    obtain ⟨-, -, -, hplain, -⟩ := leadingWords_spec _ hleading
    have hcondition : Written plain id Open t ls Ended := ht.written (hlaid t (by simp)).lexed id
    obtain ⟨tok, rfl, hparts⟩ := exists_parts_cons_colon hc (show Colon.keyword (utf8 colon) ≠ .plain by simp) id []
    rw [Written, placed_id] at hcondition
    refine hasHeader_of_renders hleading hk (hlaid k (by simp)).lexed
      (by simpa [leavesOf, leaves] using hcondition.append (renders_colon tok hcolon)) hvisible ?_
    rintro kw rfl
    have hplanned := isPlanned_parts [t, .leaf (utf8 ":") tok] hform hk
    rwa [parts_cons_word hk hplain, parts_cons_node ht.exists_node, hparts, parts] at hplanned
  | @otherwise k c hk hc =>
    obtain ⟨tok, rfl, hparts⟩ := exists_parts_cons_colon hc (show Colon.dropped ≠ .plain by simp) id []
    refine hasHeader_of_renders (show ("else", "else", mark "else") ∈ leadingWords by decide) hk
      (hlaid k (by simp)).lexed (by simpa [leavesOf, leaves] using Renders.drop (P := Open) tok) hvisible ?_
    rintro kw rfl
    have hplanned := isPlanned_parts [.leaf (utf8 ":") tok]
      (show ("<else>", "else", Colon.dropped) ∈ _ by decide) hk
    rwa [parts_cons_word hk (by decide), hparts, parts] at hplanned
  | @define k f a b c ps l ls hk hf ha hps hb hc =>
    obtain ⟨tok, rfl, hcolon⟩ := exists_parts_cons_colon hc (show Colon.dropped ≠ .plain by simp) id []
    obtain ⟨hlua, hfree, -⟩ := luaWords_spec.2.1 (")", ")") (by decide)
    have hname : Written plain id Open f [l] Ended := hf.written (hlaid f (by simp)).lexed
    have hleft : Written plain id Ended a [mark "("] Open := written_opening ha (hlaid a (by simp)).lexed
    have hright : Written plain id (fun _ => True) b [mark ")"] Open :=
      written_word hlua hb (hlaid b (by simp)).lexed (fun x _ => heldOff_of_isFree hfree x) (by decide +kernel)
    have hparameters := hps.renders fun p hp => (hlaid p (by simp [hp])).lexed
    have hall := hname.append (hleft.append (hparameters.append (hright.append (.drop tok))))
    refine hasHeader_of_renders (show ("def", "function", mark "function") ∈ leadingWords by decide) hk
      (hlaid k (by simp)).lexed
      (by simpa [leavesOf, leavesOf_append, leaves, placed_id, flatMap_placed_id, inParens] using hall) hvisible ?_
    rintro kw rfl
    have hplanned := isPlanned_parts (f :: a :: (ps ++ [b, .leaf (utf8 ":") tok]))
      (show ("<function>", "def", Colon.dropped) ∈ _ by decide) hk
    have hfunction : ∃ l us, f = .node l us := by
      obtain ⟨tok, rfl, -⟩ := hf
      exact ⟨_, _, rfl⟩
    have hnodes : ∀ p ∈ ps, ∃ l us, p = .node l us := by
      cases hps with
      | none => simp
      | some ht => exact forall_mem_singleton.2 ht.exists_node
    rwa [parts_cons_word hk (by decide), parts_cons_node hfunction, parts_cons_word ha (by decide),
      parts_append_parts, parts_nodes hnodes, parts_cons_word hb (by decide), hcolon, parts] at hplanned
  | count hk hx hi hr hc => exact hasHeader_count hk hx hi hr hc hlaid hvisible
  | each hk hx hi ht hc => exact hasHeader_each hk hx hi ht hc hlaid hvisible

end Headers

/-! ### Bodies -/

/-- The last token of a body that was read is the one its closing keyword looks for. -/
lemma lastToken_eq {body : Tree} {tok : Token} (h : lastRead body.leaves = some tok) :
    lastToken body = some tok := by
  have hfind : body.leaves.reverse.find? (fun t => !t.isSynthetic) = some tok := by
    rw [← head?_filter, filter_reverse, head?_reverse]
    exact h
  simp [lastToken, hfind]

/-- Whether the closing keyword of a construct that ends with a body is the one after that. -/
def Closes (b : Tree) : Prop :=
  ∀ kw, IsClosing (isInline b) kw b.leaves (closing id (some kw) b)

lemma closes_of_lastRead {tok : Token} (hinline : isInline b = false) (h : lastRead b.leaves = some tok) :
    Closes b := by
  intro kw
  have hclosing : closing id (some kw) b = .close kw tok := by
    simp only [closing, hinline, lastToken_eq h, Bool.false_eq_true, if_false]
    rfl
  rw [hclosing, hinline]
  exact ⟨tok, h, rfl⟩

lemma closes_of_isInline (hinline : isInline b = true) : Closes b := by
  intro kw
  have hclosing : closing id (some kw) b = .insert (utf8 " end") := if_pos hinline
  rw [hclosing, hinline]
  rfl

/-- Some token of an indented body was read: the first one after the opening of the body. -/
lemma exists_lastRead_of_block {n i d : Tree} (hi : IsWord "indent" i) (hlabel : t.label = utf8 "<statements>")
    (hlaid : Laid (.node (utf8 "<block>") [n, i, t, d])) :
    ∃ tok, lastRead (leaves (.node (utf8 "<block>") [n, i, t, d])) = some tok := by
  obtain ⟨indent, rfl, hsymbol⟩ := hi
  have hderivation := (hlaid.child (by decide) (show t ∈ _ by simp)).derivation
  obtain ⟨tok, rest, hleaves⟩ := exists_cons_of_ne_nil (leaves_ne_nil hderivation)
  have hindent : indent.isDivider indentText = true :=
    Token.isDivider_of_symbol hsymbol (by decide) (hlaid.lexed indent (by simp [leaves, leavesOf]))
  have hread : tok.isSynthetic = false := by
    have hall : leaves (.node (utf8 "<block>") [n, .leaf (utf8 "indent") indent, t, d]) =
        n.leaves ++ (indent :: tok :: (rest ++ d.leaves)) := by
      simp [leaves, leavesOf, hleaves]
    have hchain := hlaid.chain
    rw [hall] at hchain
    have hprecedes := (isChain_cons_cons.1 (isChain_append.1 hchain).2.1).1
    refine (hprecedes.changes _ (by simp) hindent).resolve_left ?_
    rw [indentText, head_ne_depth (by simp) hderivation hlabel (by decide) tok (by simp [hleaves])]
    exact Bool.false_ne_true
  exact exists_lastRead (mem_leaves_of_mem (t := t) (by simp) (by simp [hleaves])) hread

/-- Layout is neither read nor written. -/
lemma layout_of_isWord (hw : w ∈ ["newline", "indent", "dedent"]) (ht : IsWord w t) (hlexed : AllLexed t) :
    ∃ tok, t = .leaf (utf8 w) tok ∧ plan id t = [] ∧ tok.isSynthetic = true := by
  have hmem : ∀ w ∈ ["newline", "indent", "dedent"], w ∈ ["newline", "indent", "dedent", "pass"] := by decide
  have hnone : plan id t = [] := ht.plan_eq_nil (hmem w hw) hlexed
  obtain ⟨tok, rfl, hsymbol⟩ := ht
  exact ⟨tok, rfl, hnone, Token.isSynthetic_of_symbol hsymbol hw (hlexed tok (by simp [leaves]))⟩

lemma lays_word (hw : w ∈ ["newline", "indent", "dedent"]) (ht : IsWord w t) (hlexed : AllLexed t) :
    Lays plain (plan id t) t.leaves [] := by
  obtain ⟨tok, rfl, hnone, hsynthetic⟩ := layout_of_isWord hw ht hlexed
  rw [hnone, leaves]
  exact .silent (by simp [Token.isVisible, hsynthetic]) ⟨tok, rfl, hsynthetic⟩

lemma layout_of_newlines (ht : Derives "<newlines>" t) (hlexed : AllLexed t) :
    plan id t = [] ∧ ∀ tok ∈ t.leaves, tok.isSynthetic = true := by
  refine Derives.induct (motive := fun s t => s = "<newlines>" → AllLexed t →
    plan id t = [] ∧ ∀ tok ∈ t.leaves, tok.isSynthetic = true) ?_ ?_ ht rfl hlexed
  · rintro s t hterminal - rfl
    exact absurd (by decide) hterminal
  · rintro ⟨s, alternatives⟩ rhs ts hp hrhs hts rfl hlexed
    have hrules : ∀ p ∈ builtinTable, p.1 = "<newlines>" →
        p.2 = [["newline"], ["<newlines>", "newline"]] := by decide
    obtain rfl : alternatives = _ := hrules _ hp rfl
    have hlexed := allLexed_node.1 hlexed
    rw [plan_node]
    simp only [mem_cons, not_mem_nil, or_false] at hrhs
    rcases hrhs with rfl | rfl
    · obtain ⟨n, rfl, hn, -⟩ := exists_one hts
      obtain ⟨tok, rfl, hnone, hsynthetic⟩ :=
        layout_of_isWord (by decide) hn.isWord (hlexed n (by simp))
      simp [leaves, leavesOf, hnone, hsynthetic]
    · obtain ⟨u, n, rfl, ⟨-, hu⟩, hn, -⟩ := exists_two hts
      obtain ⟨tok, rfl, hnone, hsynthetic⟩ :=
        layout_of_isWord (by decide) hn.isWord (hlexed n (by simp))
      obtain ⟨hnone', hlayout⟩ := hu rfl (hlexed u (by simp))
      refine ⟨by simp [hnone, hnone'], fun v hv => ?_⟩
      simp only [leaves, leavesOf, append_nil, mem_append, mem_singleton] at hv
      rcases hv with hv | rfl
      · exact hlayout v hv
      · exact hsynthetic

/-! ### Statements -/

/-- What the steps of a tree of a statement do: a block is a body, an alternative is a part of a construct, and
all else is lines. -/
def Outcome (plain : Prop) (s : String) (t : Tree) (ls : List Lexeme) : Prop :=
  if s = "<block>" then Body plain (isInline t) (plan id t) t.leaves ls ∧ Closes t
  else if s = "<else>" then ∃ us last, t = .node (utf8 "<else>") us ∧ lastBody us = some last ∧ Closes last ∧
    OpenPart plain (isInline last) last.leaves (plan id t) t.leaves ls
  else Lays plain (plan id t) t.leaves ls

lemma outcome_iff_lays (hs : s ∉ ["<block>", "<else>"]) :
    Outcome plain s t ls ↔ Lays plain (plan id t) t.leaves ls := by
  simp only [mem_cons, not_mem_nil, or_false, not_or] at hs
  rw [Outcome, if_neg hs.1, if_neg hs.2]

/-- A line. -/
lemma outcome_line {n : Tree} (hs : s ∈ ["<statement>", "<block>"]) (ht : IsSimple plain t ls)
    (hn : IsWord "newline" n) (hlaid : Laid (.node (utf8 s) [t, n])) :
    Outcome plain s (.node (utf8 s) [t, n]) ls := by
  have hspec : ∀ s ∈ ["<statement>", "<block>"], s ∈ builtinTable.map Prod.fst ∧
      Form.ofLabel (utf8 s) = .sequence := by decide
  obtain ⟨hrules, hform⟩ := hspec s hs
  have hlaid' : ∀ u ∈ [t, n], Laid u := fun u hu => hlaid.child hrules hu
  obtain ⟨newline, rfl, hnone, hsynthetic⟩ := layout_of_isWord (by decide) hn (hlaid' n (by simp)).lexed
  have hsimple : t.label = utf8 "<simple_statement>" := by cases ht <;> rfl
  have hinline : isInline (.node (utf8 s) [t, .leaf (utf8 "newline") newline]) = true := by
    simp [isInline, Tree.children, hsimple]
  have hplan : plan id (.node (utf8 s) [t, .leaf (utf8 "newline") newline]) = plan id t := by
    rw [plan_node (by simp [hform])]
    simp [hnone]
  have hleaves : leaves (.node (utf8 s) [t, .leaf (utf8 "newline") newline]) = t.leaves ++ [newline] := by
    simp [leaves, leavesOf]
  have hboth : Lays plain (plan id t) (t.leaves ++ [newline]) ls ∧
      Body plain true (plan id t) (t.leaves ++ [newline]) ls := by
    have hinner := hlaid' t (by simp)
    cases ht with
    | @written u _ h =>
      have hlaid := hinner.child (by decide) (mem_singleton_self u)
      have hopens := h.opens hlaid
      rw [plan_node, flatMap_singleton, leaves, leavesOf, leavesOf, append_nil]
      exact ⟨hopens.lays hsynthetic hlaid.chain, hopens.toBody hsynthetic⟩
    | @pass k hk =>
      have hlexed := allLexed_node.1 hinner.lexed k (by simp)
      have hpass : plan id k = [] := hk.plan_eq_nil (by decide) hlexed
      have hkinds : utf8 "pass" ∉ operatorTexts ∧ utf8 "pass" ∉ dividerTexts := by decide
      obtain ⟨tok, rfl, hcontent, hkind⟩ := hk.exists_token (by decide) hlexed
      have hhidden : tok.isVisible = false := by
        simp only [hkinds, and_false, or_false] at hkind
        simp [Token.isVisible, Token.isPass, hkind, hcontent]
      have hhidden' : newline.isVisible = false := by simp [Token.isVisible, hsynthetic]
      rw [plan_node, flatMap_singleton, hpass]
      exact ⟨.silent (by simp [leaves, leavesOf, hhidden, hhidden']) ⟨newline, by simp, hsynthetic⟩,
        body_pass hhidden hsynthetic⟩
  rw [Outcome, hplan, hleaves, hinline]
  split
  · exact ⟨hboth.2, closes_of_isInline hinline⟩
  · rw [if_neg]
    · exact hboth.1
    · rintro rfl
      exact absurd hs (by decide)

/-- An indented block. -/
lemma outcome_block {n i d : Tree} (hn : Derives "<newlines>" n) (hi : IsWord "indent" i)
    (ht : Stated plain "<statements>" t ls) (hd : IsWord "dedent" d)
    (hlaid : Laid (.node (utf8 "<block>") [n, i, t, d])) (h : Lays plain (plan id t) t.leaves ls) :
    Outcome plain "<block>" (.node (utf8 "<block>") [n, i, t, d]) ls := by
  have hlexed := allLexed_node.1 hlaid.lexed
  obtain ⟨hnewlines, hlayout⟩ := layout_of_newlines hn (hlexed n (by simp))
  obtain ⟨tok, htok⟩ := exists_lastRead_of_block hi ht.label hlaid
  have hinline : isInline (.node (utf8 "<block>") [n, i, t, d]) = false := by
    simp only [isInline, Tree.children, head?_cons, Option.map_some, hn.label, Option.some.injEq,
      decide_eq_false_iff_not]
    exact fun heq => absurd (utf8_injective heq) (by decide)
  have hchain := hlaid.chain
  simp only [leaves, leavesOf, append_nil] at hchain
  replace hchain := (isChain_append.1 hchain).2.1
  have hlines := (lays_word (by decide) hi (hlexed i (by simp))).append
    (h.append (lays_word (by decide) hd (hlexed d (by simp))) (isChain_append.1 hchain).2.1) hchain
  have hbody := hlines.toBody hlayout (leaves_ne_nil hn.derivation)
  rw [Outcome, if_pos rfl, hinline, plan_node]
  exact ⟨by simpa [leaves, leavesOf, hnewlines] using hbody, closes_of_lastRead hinline htok⟩

/-- What comes after the header of a construct. -/
inductive Bodies (plain : Prop) (s : String) : List Tree → List Lexeme → Prop
  | one {u : Tree} {ls : List Lexeme} (hu : Stated plain "<block>" u ls) (h : Outcome plain "<block>" u ls) :
      Bodies plain s [u] ls
  | two {u v : Tree} {ls ms : List Lexeme} (hs : s ≠ "<for>") (hu : Stated plain "<block>" u ls)
      (h : Outcome plain "<block>" u ls) (h' : Outcome plain "<else>" v ms) : Bodies plain s [u, v] (ls ++ ms)

/-- A construct up to the keyword that closes it. -/
lemma IsHeader.exists_openPart (h : IsHeader plain s header ks) (hs : s ∈ builtinTable.map Prod.fst)
    (hlaid : Laid (.node (utf8 s) (header ++ us))) (hus : Bodies plain s us ls) : ∃ kw rest last steps,
      leaves (.node (utf8 s) (header ++ us)) = kw :: rest ∧ lastBody (header ++ us) = some last ∧ Closes last ∧
      OpenPart plain (isInline last) last.leaves steps (kw :: rest) (ks ++ ls) ∧
      plan id (.node (utf8 s) (header ++ us)) = steps ++ if s = "<else>" then [] else [closing id (some kw) last] := by
  obtain ⟨kw, rest, steps, hkw, hopens, hplanned⟩ :=
    h.hasHeader fun t ht => hlaid.child hs (mem_append_left _ ht)
  have hchain := hlaid.chain
  rw [leaves, leavesOf_append, hkw] at hchain ⊢
  rw [hkw] at hopens
  cases hus with
  | @one u ls hu hbody =>
    obtain ⟨hbody, hcloses⟩ : Body plain (isInline u) (plan id u) u.leaves ls ∧ Closes u := hbody
    have hlast := lastBody_block h.isHeaderPart hu.exists_node hu.label
    simp only [leavesOf, append_nil] at hchain ⊢
    refine ⟨kw, _, u, _, rfl, hlast, hcloses, hopens.append_body hbody hchain, ?_⟩
    simpa using hplanned [u] u (by simpa using hu.exists_node) hlast fun _ => rfl
  | @two u v ls ms hfor hu hbody helse =>
    obtain ⟨hbody, -⟩ : Body plain (isInline u) (plan id u) u.leaves ls ∧ Closes u := hbody
    obtain ⟨ws, last, rfl, hws, hcloses, hpart⟩ : ∃ ws last, v = .node (utf8 "<else>") ws ∧
      lastBody ws = some last ∧ Closes last ∧ OpenPart plain (isInline last) last.leaves (plan id v) v.leaves ms :=
      helse
    have hlast := lastBody_alternative h.isHeaderPart hu.exists_node hu.label hws
    simp only [leavesOf, append_nil, ← append_assoc] at hchain ⊢
    have hall := (hopens.append_body hbody (isChain_append.1 hchain).1).append hpart hchain
    refine ⟨kw, _, last, _, rfl, hlast, hcloses, by simpa using hall, ?_⟩
    simpa using hplanned [u, _] last (by simpa using hu.exists_node) hlast fun heq => absurd heq hfor

/-- A construct that is closed. -/
lemma outcome_closed (h : IsHeader plain s header ks) (hs : s ∈ closedSymbols)
    (hlaid : Laid (.node (utf8 s) (header ++ us))) (hus : Bodies plain s us ls) :
    Outcome plain s (.node (utf8 s) (header ++ us)) (ks ++ ls ++ [mark "end"]) := by
  have hspec : ∀ s ∈ closedSymbols, s ∈ builtinTable.map Prod.fst ∧ s ∉ ["<block>", "<else>"] ∧ s ≠ "<else>" := by
    decide
  obtain ⟨hrules, hlines, hne⟩ := hspec s hs
  obtain ⟨kw, rest, last, steps, hleaves, -, hcloses, hpart, hplan⟩ := h.exists_openPart hrules hlaid hus
  rw [outcome_iff_lays hlines, hplan, hleaves, if_neg hne]
  exact hpart.lays (hcloses kw)

/-- An alternative, which is not closed on its own. -/
lemma outcome_alternative (h : IsHeader plain "<else>" header ks)
    (hlaid : Laid (.node (utf8 "<else>") (header ++ us))) (hus : Bodies plain "<else>" us ls) :
    Outcome plain "<else>" (.node (utf8 "<else>") (header ++ us)) (ks ++ ls) := by
  obtain ⟨kw, rest, last, steps, hleaves, hlast, hcloses, hpart, hplan⟩ := h.exists_openPart (by decide) hlaid hus
  rw [if_pos rfl, append_nil] at hplan
  rw [Outcome, if_neg (by decide), if_pos rfl]
  exact ⟨_, last, rfl, hlast, hcloses, by rwa [hplan, hleaves]⟩

/-- Rendering a statement, a block or a program line by line writes the tokens that it stands for. -/
theorem Stated.outcome (h : Stated plain s t ls) (hlaid : Laid t) : Outcome plain s t ls := by
  induction h with
  | line hs ht hn => exact outcome_line hs ht hn hlaid
  | @blank n hn =>
    rw [outcome_iff_lays (by decide), plan_node, flatMap_singleton]
    simpa [leaves, leavesOf] using lays_word (by decide) hn hlaid.lexed.child
  | @single s s' t ls hs ht ih =>
    have hspec : ∀ q ∈ statementRules, q.1 ∈ builtinTable.map Prod.fst ∧
        Form.ofLabel (utf8 q.1) = .sequence ∧ q.1 ∉ ["<block>", "<else>"] ∧ q.2 ∉ ["<block>", "<else>"] := by decide
    obtain ⟨hrules, hform, hs, hs'⟩ := hspec _ hs
    rw [outcome_iff_lays hs, plan_node (by simp [hform]), flatMap_singleton]
    simpa [leaves, leavesOf] using (outcome_iff_lays hs').1 (ih (hlaid.child hrules (by simp)))
  | @more t u ks ls ht hu iht ihu =>
    have hchain := hlaid.chain
    have hfirst := (outcome_iff_lays (by decide)).1 (iht hlaid.child)
    have hsecond := (outcome_iff_lays (by decide)).1 (ihu hlaid.child)
    rw [outcome_iff_lays (by decide), plan_node]
    simp only [leaves, leavesOf, append_nil] at hchain ⊢
    simpa using hfirst.append hsecond hchain
  | @block n i t d ls hn hi ht hd ih =>
    exact outcome_block hn hi ht hd hlaid ((outcome_iff_lays (by decide)).1 (ih hlaid.child))
  | @construct s header u ks ls hs hheader hu ih =>
    have hrules : ∀ s ∈ closedSymbols, s ∈ builtinTable.map Prod.fst := by decide
    simpa using outcome_closed hheader hs hlaid (.one hu (ih (hlaid.child (hrules s hs) (by simp))))
  | @either header u v ks ls ms hheader hu hv ihu ihv =>
    simpa using outcome_closed hheader (by decide) hlaid (.two (by decide) hu
      (ihu hlaid.child) (ihv hlaid.child))
  | @alternative header u ks ls hheader hu ih =>
    exact outcome_alternative hheader hlaid (.one hu (ih hlaid.child))
  | @alternatives header u v ks ls ms hheader hu hv ihu ihv =>
    exact outcome_alternative hheader hlaid (.two (by decide) hu (ihu hlaid.child)
      (ihv hlaid.child))

end Tree

end Lunify
