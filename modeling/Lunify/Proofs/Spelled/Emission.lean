import Lunify.Proofs.Rendering.Inline
import Lunify.Proofs.Spelled.Expressions
import Lunify.Proofs.Text.Quoted
import Lunify.Proofs.Tree.Parts

/-!
# Expressions are rendered as their tokens

The steps that render a tree of an expression stay within a line and go through its tokens, they write the Lua
tokens that the tree stands for, and nothing joins (`Tree.Spelled.written`). An expression may begin with a number
and end with one, so it is written after what is `Open` and leaves what is `Ended`.
-/

namespace Lunify

open List

variable {tok : Token}

/-- No token of the source has a line feed. -/
lemma Token.Lexed.notMem_feed (h : tok.Lexed) : byte '\n' ∉ tok.content := by
  have htables : ∀ s ∈ reservedWords ++ (operatorTexts ++ dividerTexts), byte '\n' ∉ s := by decide
  intro hmem
  unfold Token.Lexed at h
  cases hkind : tok.kind with simp only [hkind] at h
  | keyword => exact htables _ (mem_append_left _ h) hmem
  | operator => exact htables _ (mem_append_right _ (mem_append_left _ h)) hmem
  | divider => exact htables _ (mem_append_right _ (mem_append_right _ h)) hmem
  | identifier =>
    obtain ⟨⟨b, r, hcons, hb, hr⟩, -⟩ := h
    rw [hcons, mem_cons] at hmem
    rcases hmem with rfl | hmem
    · exact absurd hb (by decide)
    · exact absurd (hr _ hmem) (by decide)
  | number => exact absurd (Chunk.mem_of_isNumeral h _ hmem) (by decide)
  | string =>
    obtain ⟨q, r, hcons, hq, hr⟩ := h
    have hne : byte '\n' ≠ q := by rcases hq with rfl | rfl <;> decide
    have hfeed : byte '\n' ∉ r := fun hmem => (hr _ hmem).2 rfl
    simp [hcons, hne, hfeed] at hmem

lemma Token.Lexed.content_ne_nil (h : tok.Lexed) : tok.content ≠ [] := by
  have htables : ∀ s ∈ reservedWords ++ (operatorTexts ++ dividerTexts), s ≠ [] := by decide
  unfold Token.Lexed at h
  cases hkind : tok.kind with simp only [hkind] at h
  | keyword => exact htables _ (mem_append_left _ h)
  | operator => exact htables _ (mem_append_right _ (mem_append_left _ h))
  | divider => exact htables _ (mem_append_right _ (mem_append_right _ h))
  | identifier =>
    obtain ⟨⟨b, r, hcons, -⟩, -⟩ := h
    simp [hcons]
  | number =>
    obtain ⟨b, r, hcons, -⟩ := h.exists_cons
    simp [hcons]
  | string =>
    obtain ⟨q, r, hcons, -⟩ := h
    simp [hcons]

namespace Tree

open Grammar Core Plan
open Chunk (Lexeme Lexes mark inParens)

variable {plain : Prop} {view : Position → Position} {P Q R : UInt8 → Prop} {t u v : Tree} {w lua m : String}
  {l : Lexeme} {ks ls : List Lexeme}

variable {ts : List Tree} {s : String} {φ : Phrase} {steps : List Step}

/-- Whether the steps of a tree stay within a line and write the given tokens. -/
abbrev Written (plain : Prop) (view : Position → Position) (P : UInt8 → Prop) (t : Tree) (ls : List Lexeme)
    (Q : UInt8 → Prop) : Prop :=
  Renders plain P (plan view t) (placed view t) ls Q

/-! ### Words -/

/-- The words after which an expression may begin, in Lua. -/
def openingWords : List (String × String) :=
  [("(", "("), ("[", "["), ("\x7b", "\x7b"), (",", ","), ("not", "not"), ("-", "-"), ("in", "in")]

/-- The words that end an expression, in Lua. -/
def closingWords : List (String × String) :=
  [(")", ")"), ("]", "]"), ("\x7d", "\x7d"), ("True", "true"), ("False", "false"), ("None", "nil")]

/-- The words between two expressions, in Lua. -/
def connectingWords : List (String × String) :=
  ("=", "=") :: (operatorWords ++ operatorRules.map Prod.snd)

/-- Whether a word of the grammar is written so, which is the given token. -/
def IsLua (w lua : String) (l : Lexeme) : Prop :=
  IsSpelled w lua ∧ Chunk.wordOf? (utf8 lua) = some l ∧ byte '\n' ∉ utf8 lua

instance (w lua : String) (l : Lexeme) : Decidable (IsLua w lua l) :=
  inferInstanceAs (Decidable (_ ∧ _))

lemma luaWords_spec :
    (∀ p ∈ openingWords, IsLua p.1 p.2 (mark p.2) ∧ (utf8 p.2).isFree = true ∧
      ∀ x ∈ (utf8 p.2).getLast?, Open x) ∧
    (∀ p ∈ closingWords, IsLua p.1 p.2 (mark p.2) ∧ (utf8 p.2).isFree = true ∧
      ∀ x ∈ (utf8 p.2).getLast?, Ended x) ∧
    ∀ p ∈ connectingWords, IsLua p.1 p.2 (mark p.2) ∧ (utf8 p.2).isConnective = true ∧
      ∀ x ∈ (utf8 p.2).getLast?, Open x := by
  decide +kernel

/-- A word is written in its Lua spelling. -/
lemma written_word (hw : IsLua w lua l) (ht : IsWord w t) (hlexed : AllLexed t)
    (hheld : ∀ x, P x → HeldOff x (utf8 lua)) (hlast : ∀ x ∈ (utf8 lua).getLast?, Q x) :
    Written plain view P t [l] Q := by
  obtain ⟨hspelled, hword, hfeed⟩ := hw
  obtain ⟨tok, rfl, hplan⟩ := hspelled.exists_plan ht hlexed view
  have hword := Chunk.isWord_of_wordOf? hword
  rw [Written, hplan, placed_leaf]
  exact .token hfeed fun _ => .piece rfl hword.lexes hword.ne_nil hheld hlast

lemma written_opening (ht : IsWord w t) (hlexed : AllLexed t) (hw : (w, lua) ∈ openingWords := by decide) :
    Written plain view P t [mark lua] Open := by
  obtain ⟨hlua, hfree, hlast⟩ := luaWords_spec.1 _ hw
  exact written_word hlua ht hlexed (fun x _ => heldOff_of_isFree hfree x) hlast

lemma written_closing (ht : IsWord w t) (hlexed : AllLexed t) (hw : (w, lua) ∈ closingWords := by decide) :
    Written plain view P t [mark lua] Ended := by
  obtain ⟨hlua, hfree, hlast⟩ := luaWords_spec.2.1 _ hw
  exact written_word hlua ht hlexed (fun x _ => heldOff_of_isFree hfree x) hlast

lemma written_connecting (ht : IsWord w t) (hlexed : AllLexed t) (hw : (w, lua) ∈ connectingWords := by decide) :
    Written plain view Ended t [mark lua] Open := by
  obtain ⟨hlua, hconnective, hlast⟩ := luaWords_spec.2.2 _ hw
  exact written_word hlua ht hlexed (fun x hx => heldOff_of_isConnective hconnective hx) hlast

/-- A node that is no construct is written as its children. -/
lemma written_node {s : Text}
    (h : Renders plain P (ts.flatMap (plan view)) (ts.flatMap (placed view)) ls Q)
    (hs : Form.ofLabel s ∈ [Form.sequence, .assignment, .call, .identifier] := by decide) :
    Written plain view P (.node s ts) ls Q := by
  rwa [Written, plan_node hs, placed_node]

/-- An operator. -/
lemma IsOperator.written {o : String} (h : IsOperator o t lua) (hlexed : AllLexed t) :
    Written plain view Ended t [mark lua] Open := by
  cases h with
  | word hw ht =>
    exact written_connecting ht hlexed (mem_cons_of_mem _ (mem_append_left _ hw))
  | among hs ht =>
    have hform : ∀ q ∈ operatorRules, Form.ofLabel (utf8 q.1) = .sequence := by decide
    refine written_node ?_ (by simp [hform _ hs])
    rw [flatMap_singleton, flatMap_singleton]
    exact written_connecting ht hlexed.child (mem_cons_of_mem _ (mem_append_right _ (mem_map_of_mem hs)))

/-! ### Names and literals -/

/-- What is none of these bytes may stand before an equals sign. -/
lemma ended_of_ne {x : UInt8} (h : x ≠ byte '[' ∧ x ≠ byte '=' ∧ x ≠ byte '<' ∧ x ≠ byte '>') :
    Ended x := by
  have hequals : Lunify.Lexeme.isWordByte (byte '=') = false ∧ Text.isDigit (byte '=') = false ∧
      byte '=' ≠ byte '.' ∧ byte '=' ≠ byte 'e' ∧ byte '=' ≠ byte 'E' ∧ byte '=' ≠ byte '-' ∧
      byte '=' ≠ byte ':' := by decide
  simp [Ended, Chunk.joins, hequals, h]

/-- A token of a category begins and ends like an expression. -/
lemma edges_of_category (hs : s ∈ builtinCategories) (htok : tok.symbol = utf8 s) (hlexed : tok.Lexed) :
    (∀ b ∈ tok.content.head?, b ≠ byte '=' ∧ b ≠ byte ':') ∧ ∀ x ∈ tok.content.getLast?, Ended x := by
  have hkind := Token.kind_of_symbol htok hs hlexed
  simp only [mem_cons, Prod.mk.injEq, not_mem_nil, or_false] at hkind
  have hdigit : ∀ b : UInt8, Text.isDigit b = true ∨ b = byte '.' →
      b ≠ byte '=' ∧ b ≠ byte ':' ∧ Ended b := by
    rintro b (hb | rfl)
    · have hne : ∀ c : UInt8, Text.isDigit c = false → b ≠ c := by
        rintro c hc rfl
        exact absurd (hc.symm.trans hb) Bool.false_ne_true
      exact ⟨hne _ (by decide), hne _ (by decide), ended_of_ne ⟨hne _ (by decide), hne _ (by decide),
        hne _ (by decide), hne _ (by decide)⟩⟩
    · exact ⟨by decide, by decide, by decide⟩
  rcases hkind with ⟨-, hkind⟩ | ⟨-, hkind⟩ | ⟨-, hkind⟩ <;> simp only [Token.Lexed, hkind] at hlexed
  · obtain ⟨⟨b, r, hcons, hb, hr⟩, -⟩ := hlexed
    have hpiece : isPiece tok.content = true := by
      refine isPiece_of_isWordByte ?_
      rw [hcons, forall_mem_cons]
      exact ⟨by simp [Lunify.Lexeme.isWordByte, hb], hr⟩
    simp only [isPiece, Bool.and_eq_true, Option.all_eq_true, bne_iff_ne, Bool.not_eq_true'] at hpiece
    exact ⟨fun b hb => ⟨(hpiece.1 b hb).1.1, (hpiece.1 b hb).2⟩, fun x hx => (hpiece.2 x hx).1⟩
  · obtain ⟨x, hlast, hx⟩ := Chunk.getLast?_of_isNumeral hlexed
    obtain ⟨b, r, hcons, hb⟩ := hlexed.exists_cons
    have hb := hdigit b (hb.imp_right And.left)
    refine ⟨fun c hc => ?_, fun y hy => ?_⟩
    · rw [hcons] at hc
      obtain rfl := Option.some.inj hc
      exact ⟨hb.1, hb.2.1⟩
    · obtain rfl := Option.some.inj (hlast.symm.trans hy)
      exact (hdigit x hx).2.2
  · obtain ⟨q, r, hcons, hq, -⟩ := hlexed
    rw [hcons, ← cons_append, getLast?_concat, cons_append, head?_cons]
    rcases hq with rfl | rfl <;> decide +kernel

/-- A name, a number or a string is written as it is. -/
lemma plan_category (hs : s ∈ builtinCategories) (htok : tok.symbol = utf8 s) (hlexed : tok.Lexed) :
    plan view (.node (utf8 s) [.leaf (utf8 s) tok]) = [.token (place view tok) tok.content] := by
  have hform : ∀ s ∈ builtinCategories,
      Form.ofLabel (utf8 s) ∈ [Form.sequence, .assignment, .call, .identifier] := by decide
  have hkind := Token.kind_of_symbol htok hs hlexed
  rw [plan_node (hform s hs), flatMap_singleton, plan_leaf]
  simp only [mem_cons, Prod.mk.injEq, not_mem_nil, or_false] at hkind
  tauto

lemma written_category (hs : s ∈ builtinCategories) (htok : tok.symbol = utf8 s)
    (hword : plain → Chunk.IsWord tok.content l) (hlexed : tok.Lexed) :
    Written plain view Open (.node (utf8 s) [.leaf (utf8 s) tok]) [l] Ended := by
  obtain ⟨hhead, hlast⟩ := edges_of_category hs htok hlexed
  rw [Written, plan_category hs htok hlexed, placed_node, flatMap_singleton, placed_leaf]
  exact .token hlexed.notMem_feed fun h =>
    .piece rfl (hword h).lexes (hword h).ne_nil (fun x hx => heldOff_of_open hx hhead) hlast

lemma IsName.written (h : IsName t l) (hlexed : AllLexed t) : Written plain view Open t [l] Ended := by
  obtain ⟨tok, rfl, htok, hword⟩ := h
  exact written_category (s := "<Identifier>") (by decide) htok (fun _ => hword)
    (hlexed _ (by simp [leaves, leavesOf]))

/-! ### First tokens -/

lemma leads_of_isWord (h : IsWord w t) : Leads t := by
  obtain ⟨tok, rfl, -⟩ := h
  exact leads_leaf _ tok

lemma IsName.leads (h : IsName t l) : Leads t := by
  obtain ⟨tok, rfl, -⟩ := h
  exact (leads_leaf _ tok).node _ _

/-- An expression begins with a token. -/
lemma Spelled.leads (h : Spelled plain φ t ls) : Leads t := by
  induction h with
  | category => exact (leads_leaf _ _).node _ _
  | keyword => exact ((leads_leaf _ _).node _ _).node _ _
  | single _ _ ih | binary _ _ _ _ ih | comma _ _ _ _ ih | index _ _ _ _ ih | pair _ _ _ ih
  | firstItem _ ih | nextItem _ _ _ ih => exact ih.node _ _
  | literal _ h | not h | neg h | pos h | paren h | length h | empty _ h | table _ h | dict h | dictNothing h
  | dictCall h => exact (leads_of_isWord h).node _ _
  | callNothing hf | call hf => exact hf.leads.node _ _

lemma Spelled.exists_node (h : Spelled plain φ t ls) : ∃ l ts, t = .node l ts := by
  cases h <;> exact ⟨_, _, rfl⟩

lemma Spelled.label (h : Spelled plain s t ls) : t.label = utf8 s := by
  generalize hφ : Phrase.symbol s = φ at h
  cases h <;> cases hφ <;> rfl

/-- Text before the first token of a tree. -/
lemma renders_before {s : Text} {after : List Token} (ht : Leads t) (hs : byte '\n' ∉ s)
    (hbefore : ∀ tok, Emits P [.before tok s] ks Q)
    (h : Renders plain Q steps (placed view t ++ after) ls R) :
    Renders plain P (needed (.before · s) (firstToken view (some t)) :: steps) (placed view t ++ after)
      (ks ++ ls) R := by
  obtain ⟨tok, rest, hfirst, hleaves⟩ := ht
  have hplaced : placed view t ++ after = place view tok :: (rest.map (place view) ++ after) := by
    rw [placed, hleaves, map_cons, cons_append]
  rw [hplaced] at h ⊢
  rw [firstToken, Option.bind_some, hfirst]
  exact h.before hs (hbefore _)

/-! ### Texts of constructs -/

/-- The marks that constructs add before an expression. -/
def openingMarks : List String :=
  ["[", "(", "\x7b", "#"]

/-- The marks that constructs add after an expression. -/
def closingMarks : List String :=
  [")", "\x7d", "end", "]", "=", "true"]

lemma wordOf?_added : ∀ m ∈ openingMarks ++ closingMarks, Chunk.wordOf? (utf8 m) = some (mark m) := by
  decide

/-- The texts that constructs add can be written anywhere. -/
lemma addedTexts_spec :
    (∀ m ∈ "] =" :: openingMarks, (utf8 m).isFree = true ∧ (∀ x ∈ (utf8 m).getLast?, Open x) ∧
      byte '\n' ∉ utf8 m) ∧
    ∀ m ∈ [")", "\x7d", "] = true"], (utf8 m).isFree = true ∧ (∀ x ∈ (utf8 m).getLast?, Ended x) ∧
      byte '\n' ∉ utf8 m := by
  decide +kernel

lemma isWord_added (hm : m ∈ openingMarks ++ closingMarks) : Chunk.IsWord (utf8 m) (mark m) :=
  Chunk.isWord_of_wordOf? (wordOf?_added m hm)

lemma emits_openingMark {st : Step} (hm : m ∈ openingMarks) (hst : st.text? = some (utf8 m)) :
    Emits P [st] [mark m] Open := by
  have hword := isWord_added (mem_append_left closingMarks hm)
  obtain ⟨hfree, hlast, -⟩ := addedTexts_spec.1 m (mem_cons_of_mem _ hm)
  exact .piece hst hword.lexes hword.ne_nil (fun x _ => heldOff_of_isFree hfree x) hlast

lemma renders_openingMark {after : List Token} (hm : m ∈ openingMarks) (ht : Leads t)
    (h : Renders plain Open steps (placed view t ++ after) ls R) :
    Renders plain P (needed (.before · (utf8 m)) (firstToken view (some t)) :: steps) (placed view t ++ after)
      (mark m :: ls) R :=
  renders_before ht (addedTexts_spec.1 m (mem_cons_of_mem _ hm)).2.2
    (fun _ => emits_openingMark hm rfl) h

lemma emits_closingMark {st : Step} (hm : m ∈ [")", "\x7d"]) (hst : st.text? = some (utf8 m)) :
    Emits P [st] [mark m] Ended := by
  have hmem : ∀ m ∈ [")", "\x7d"], m ∈ closingMarks ∧ m ∈ [")", "\x7d", "] = true"] := by decide
  have hword := isWord_added (mem_append_right openingMarks (hmem m hm).1)
  obtain ⟨hfree, hlast, -⟩ := addedTexts_spec.2 m (hmem m hm).2
  exact .piece hst hword.lexes hword.ne_nil (fun x _ => heldOff_of_isFree hfree x) hlast

lemma lexes_keyEnd {r : Text} (hr : Lexes r ls) : Lexes (utf8 "] = " ++ r) (mark "]" :: mark "=" :: ls) :=
  lexes_mark_blank (wordOf?_added "]" (by decide)) (lexes_mark_blank (wordOf?_added "=" (by decide)) hr)

/-- The end of a key. -/
lemma emits_keyEnd {st : Step} (hst : st.text? = some (utf8 "] =")) :
    Emits P [st] [mark "]", mark "="] Open := by
  have hequals : Chunk.IsWord (utf8 "=") (mark "=") := isWord_added (by decide)
  have hlexes : Lexes (utf8 "] =") [mark "]", mark "="] :=
    lexes_mark_blank (wordOf?_added "]" (by decide)) hequals.lexes
  obtain ⟨hfree, hlast, -⟩ := addedTexts_spec.1 "] =" (by decide)
  exact .piece hst hlexes (by decide) (fun x _ => heldOff_of_isFree hfree x) hlast

lemma emits_member {st : Step} (hst : st.text? = some (utf8 "] = true")) :
    Emits P [st] [mark "]", mark "=", mark "true"] Ended := by
  have htrue : Chunk.IsWord (utf8 "true") (mark "true") := isWord_added (by decide)
  obtain ⟨hfree, hlast, -⟩ := addedTexts_spec.2 "] = true" (by decide)
  exact .piece hst (lexes_keyEnd htrue.lexes) (by decide) (fun x _ => heldOff_of_isFree hfree x) hlast

/-- The bytes of a name are letters and digits. -/
lemma isWordByte_of_identifier (htok : tok.symbol = identifierSymbol) (hlexed : tok.Lexed) :
    ∀ b ∈ tok.content, Lunify.Lexeme.isWordByte b = true := by
  have hkind := Token.kind_of_symbol (s := "<Identifier>") htok (by decide) hlexed
  have hkind : tok.kind = .identifier := by simpa using hkind
  simp only [Token.Lexed, hkind] at hlexed
  obtain ⟨⟨b, r, hcons, hb, hr⟩, -⟩ := hlexed
  rw [hcons, forall_mem_cons]
  exact ⟨by simp [Lunify.Lexeme.isWordByte, hb], hr⟩

/-- A name as a string in brackets. -/
lemma lexes_key {s : Text} (hs : ∀ b ∈ s, Lunify.Lexeme.isWordByte b = true) :
    Lexes (utf8 "[" ++ Text.quoted s ++ utf8 "]") [mark "[", .string s, mark "]"] := by
  have hleft : Chunk.IsWord (utf8 "[") (mark "[") := isWord_added (by decide)
  have hright : Chunk.IsWord (utf8 "]") (mark "]") := isWord_added (by decide)
  have hne : ∀ c : UInt8, Lunify.Lexeme.isWordByte c = false → ∀ b ∈ s, b ≠ c := by
    rintro c hc b hb rfl
    exact absurd (hs b hb) (by simp [hc])
  have hstring : Chunk.IsWord (Text.quoted s) (.string s) := by
    rw [Text.quoted_of_isWordByte hs]
    refine .string (.inl rfl) fun c hc => ?_
    exact ⟨hne _ (by decide) c hc, hne _ (by decide) c hc, hne _ (by decide) c hc, hne _ (by decide) c hc⟩
  rw [append_assoc]
  refine .word hleft ?_ (hstring.lexes.append hright.lexes (apart_of_head (b := byte ']') (by decide)))
  rw [Text.quoted_of_isWordByte hs]
  exact apart_of_head (by decide)

/-! ### Constructs -/

/-- A symbol that stands for another one is rendered as that. -/
lemma plan_single {s' : String} (hs : (s, s') ∈ singleRules) (ht : Spelled plain s' t ls) :
    plan view (.node (utf8 s) [t]) = plan view t := by
  have hform : ∀ q ∈ singleRules, Form.ofLabel (utf8 q.1) ∈ [Form.sequence, .inversion, .factor] := by decide
  obtain ⟨l, ts, rfl⟩ := ht.exists_node
  have hl := hform _ hs
  simp only [mem_cons, not_mem_nil, or_false] at hl
  rcases hl with hl | hl | hl
  · rw [plan_node (by simp [hl]), flatMap_singleton]
  · rw [plan, hl]
    simp [parts_plain]
  · rw [plan, hl]
    simp [parts_plain, Tree.isLeafOf]

section Constructs

variable {k a b c : Tree} {cls : List Lexeme}

/-- A negation is rendered with its operand, in parentheses if that is a comparison. -/
lemma written_not (hk : IsWord "not" k) (hlexed : AllLexed k) (ht : Leads t)
    (h : Written plain view Open t ls Ended) :
    Written plain view Open (.node (utf8 "<inversion>") [k, t])
      (mark "not" :: if isComparison t then inParens ls else ls) Ended := by
  have hform : Form.ofLabel (utf8 "<inversion>") = .inversion := Form.ofLabel_symbol .inversion (by decide)
  have hnot : Written plain view Open k [mark "not"] Open := written_opening hk hlexed
  rw [Written, plan, hform, placed_node]
  cases hcomparison : isComparison t with
  | true =>
    have hclose : Renders plain Ended [.insert (utf8 ")")] [] [mark ")"] Ended :=
      .insert (by decide) (emits_closingMark (by decide) rfl)
    have hinner := hnot.append (renders_openingMark (m := "(") (by decide) ht (h.append hclose))
    simpa [nth, hcomparison, inParens] using hinner
  | false => simpa [parts_plain, hcomparison] using hnot.append h

/-- A minus is rendered before its operand. -/
lemma written_neg (hk : IsWord "-" k) (hlexed : AllLexed k) (h : Written plain view Open t ls Ended) :
    Written plain view Open (.node (utf8 "<factor>") [k, t]) (mark "-" :: ls) Ended := by
  have hform : Form.ofLabel (utf8 "<factor>") = .factor := Form.ofLabel_symbol .factor (by decide)
  have hminus : Written plain view Open k [mark "-"] Open := written_opening hk hlexed
  have hall := hminus.append h
  obtain ⟨tok, rfl, hsymbol⟩ := hk
  have hne : tok.content ≠ utf8 "+" := by
    rw [(Token.content_of_symbol (by decide) hsymbol).1]
    decide
  rw [Written, plan, hform, placed_node]
  simpa [parts_plain, Tree.isLeafOf, hne] using hall

/-- A plus is left out. -/
lemma written_pos (hk : IsWord "+" k) (h : Written plain view Open t ls Ended) :
    Written plain view Open (.node (utf8 "<factor>") [k, t]) ls Ended := by
  have hform : Form.ofLabel (utf8 "<factor>") = .factor := Form.ofLabel_symbol .factor (by decide)
  obtain ⟨tok, rfl, hsymbol⟩ := hk
  have hcontent := (Token.content_of_symbol (by decide) hsymbol).1
  have hall := (Renders.drop (place view tok)).append h
  rw [Written, plan, hform, placed_node]
  simpa [Tree.isLeafOf, hcontent, needed, tokenAt, Tree.token?, nth, placed_leaf] using hall

/-- A length is written as an operator, and the parentheses around a primary expression are left out. -/
lemma written_length (hk : IsWord "len" k) (ha : IsWord "(" a) (ha' : AllLexed a) (hb : IsWord ")" b)
    (hb' : AllLexed b) (h : Written plain view Open t ls Ended) :
    Written plain view Open (.node (utf8 "<len>") [k, a, t, b])
      (mark "#" :: if isPrimary t then ls else inParens ls) Ended := by
  have hform : Form.ofLabel (utf8 "<len>") = .length := Form.ofLabel_symbol .length (by decide)
  have hsharp : ∀ kw, Renders plain Open [.token kw (utf8 "#")] [kw] [mark "#"] Open :=
    fun kw => .token (by decide) fun _ => emits_openingMark (by decide) rfl
  have hleft : Written plain view Open a [mark "("] Open := written_opening ha ha'
  have hright : Written plain view Ended b [mark ")"] Ended := written_closing hb hb'
  have hall := hleft.append (h.append hright)
  obtain ⟨kw, rfl, -⟩ := hk
  obtain ⟨left, rfl, -⟩ := ha
  obtain ⟨right, rfl, -⟩ := hb
  rw [Written, plan, hform, placed_node]
  by_cases hprimary : isPrimary t = true
  · have hinner := (Renders.drop (place view left)).append (h.append (.drop (place view right)))
    simpa [nth, needed, tokenAt, Tree.token?, hprimary, placed_leaf] using
      (hsharp (place view kw)).append hinner
  · simpa [nth, needed, tokenAt, Tree.token?, hprimary, placed_leaf, inParens] using
      (hsharp (place view kw)).append hall

/-- The key of a pair is put into brackets. -/
lemma written_pair (hc : IsWord ":" c) (ht : Leads t) (h : Written plain view Open t ks Ended)
    (h' : Written plain view Open u ls Ended) :
    Written plain view Open (.node (utf8 "<pair>") [t, c, u])
      (mark "[" :: (ks ++ mark "]" :: mark "=" :: ls)) Ended := by
  have hform : Form.ofLabel (utf8 "<pair>") = .pair := Form.ofLabel_symbol .pair (by decide)
  obtain ⟨colon, rfl, -⟩ := hc
  have hend : Renders plain Ended [.token (place view colon) (utf8 "] =")] [place view colon]
      [mark "]", mark "="] Open :=
    .token (by decide) fun _ => emits_keyEnd rfl
  have hall := renders_openingMark (P := Open) (m := "[") (by decide) ht (h.append (hend.append h'))
  rw [Written, plan, hform, placed_node]
  simpa [nth, needed, tokenAt, Tree.token?, placed_leaf] using hall

/-- The key of a keyword argument is written as a string in brackets. -/
lemma written_keyword (htok : tok.symbol = identifierSymbol) (hlexed : tok.Lexed) (hc : IsWord "=" c)
    (hc' : AllLexed c) (h : Written plain view Open u ls Ended) :
    Written plain view Open (.node (utf8 "<keyword_argument>")
      [.node identifierSymbol [.leaf identifierSymbol tok], c, u])
      (mark "[" :: .string tok.content :: mark "]" :: mark "=" :: ls) Ended := by
  have hform : Form.ofLabel (utf8 "<keyword_argument>") = .keywordArgument :=
    Form.ofLabel_symbol .keywordArgument (by decide)
  have hequals : Written plain view Ended c [mark "="] Open := written_connecting hc hc'
  have hbytes := isWordByte_of_identifier htok hlexed
  have hfeed : byte '\n' ∉ utf8 "[" ++ Text.quoted tok.content ++ utf8 "]" := by
    have hsigns : byte '\n' ∉ utf8 "[" ∧ byte '\n' ∉ utf8 "]" ∧ byte '\n' ≠ byte '"' := by decide
    rw [Text.quoted_of_isWordByte hbytes]
    simp [hlexed.notMem_feed, hsigns]
  have hkey : Renders plain Open
      [.token (place view tok) (utf8 "[" ++ Text.quoted tok.content ++ utf8 "]")] [place view tok]
      [mark "[", .string tok.content, mark "]"] Ended := by
    refine .token hfeed fun _ => .piece rfl (lexes_key hbytes)
      (append_ne_nil_of_right_ne_nil _ (by decide)) (fun x _ => heldOff_of_isFree ?_ x) fun x hx => ?_
    · exact (by decide : Text.isFree [byte '['] = true)
    · obtain rfl : byte ']' = x := Option.some.inj (getLast?_concat.symm.trans hx)
      decide
  rw [Written, plan, hform, placed_node]
  simpa [nth, needed, firstToken, first?, placed_node, placed_leaf] using hkey.append (hequals.append h)

lemma renders_braced (left right : Token) {us : List Token} (h : Renders plain Open steps us ls Q) :
    Renders plain Open (.token left (utf8 "\x7b") :: (steps ++ [.token right (utf8 "\x7d")]))
      (left :: (us ++ [right])) (inBraces ls) Ended := by
  have hleft : Renders plain Open [.token left (utf8 "\x7b")] [left] [mark "\x7b"] Open :=
    .token (by decide) fun _ => emits_openingMark (by decide) rfl
  have hright : Renders plain Q [.token right (utf8 "\x7d")] [right] [mark "\x7d"] Ended :=
    .token (by decide) fun _ => emits_closingMark (by decide) rfl
  exact hleft.append (h.append hright)

/-- The key of an element of a list. -/
lemma emits_elementKey (tok : Token) (i : Nat) :
    Emits Open [.before tok (elementKey true i)]
      [mark "[", .number (Text.ofNat i), mark "]", mark "="] Open := by
  have hleft : Chunk.IsWord (utf8 "[") (mark "[") := isWord_added (by decide)
  have hblank : Lexes (utf8 "] = ") [mark "]", mark "="] := lexes_keyEnd .nil
  have hlexes : Lexes (utf8 "[" ++ Text.ofNat i ++ utf8 "] = ")
      [mark "[", .number (Text.ofNat i), mark "]", mark "="] := by
    rw [append_assoc]
    refine .word hleft ?_ ((lexes_ofNat i).append hblank (apart_of_head (b := byte ']') (by decide)))
    intro x hx b hb
    obtain rfl : byte '[' = x := Option.some.inj hx
    rw [head?_append_of_ne_nil _ (Text.ofNat_ne_nil i)] at hb
    have hdigit := Text.isDigit_of_mem_ofNat i b (mem_of_mem_head? hb)
    have hne : ∀ c : UInt8, Text.isDigit c = false → b ≠ c := by
      rintro c hc rfl
      exact absurd (hc.symm.trans hdigit) Bool.false_ne_true
    have hmarks : Lunify.Lexeme.isWordByte (byte '[') = false ∧ Text.isDigit (byte '[') = false ∧
        byte '[' ≠ byte '.' ∧ byte '[' ≠ byte '-' ∧ byte '[' ≠ byte '=' ∧ byte '[' ≠ byte '<' ∧
        byte '[' ≠ byte '>' ∧ byte '[' ≠ byte ':' := by decide
    simp [Chunk.joins, hmarks, hne (byte '[') (by decide), hne (byte '=') (by decide)]
  refine .piece rfl hlexes (append_ne_nil_of_right_ne_nil _ (by decide))
    (fun x _ => heldOff_of_isFree ?_ x) fun x hx => ?_
  · exact (by decide : Text.isFree [byte '['] = true)
  · have hlast : (utf8 "] = ").getLast? = some (byte ' ') := by decide
    rw [elementKey, if_pos rfl, getLast?_append, hlast] at hx
    obtain rfl : byte ' ' = x := Option.some.inj hx
    decide

lemma notMem_ofNat (n : Nat) : byte '\n' ∉ Text.ofNat n := fun hmem =>
  absurd (Text.isDigit_of_mem_ofNat n _ hmem) (by decide)

/-- An element of a list or of a set. -/
lemma written_element (isList : Bool) (i : Nat) (ht : Spelled plain "<expression>" t ls)
    (h : Written plain view Open t ls Ended) :
    Renders plain Open (element view isList i t (plan view t)).1 (placed view t) (elementLexemes isList i ls)
        Ended ∧ (element view isList i t (plan view t)).2 = i + 1 := by
  have hlead := ht.leads
  obtain ⟨l, ts, rfl⟩ := ht.exists_node
  refine ⟨?_, rfl⟩
  cases isList with
  | true =>
    have hfeed : byte '\n' ∉ elementKey true i := by
      have hends : byte '\n' ∉ utf8 "[" ∧ byte '\n' ∉ utf8 "] = " := by decide
      simp [elementKey, notMem_ofNat, hends]
    rw [Written, ← append_nil (placed view _)] at h
    have hall := renders_before hlead hfeed (fun tok => emits_elementKey tok i) h
    simpa [element, Tree.isLeaf, elementEnd, elementLexemes] using hall
  | false =>
    have hend : Renders plain Ended [.insert (utf8 "] = true")] [] [mark "]", mark "=", mark "true"] Ended :=
      .insert (by decide) (emits_member rfl)
    have hall := renders_openingMark (P := Open) (m := "[") (by decide) hlead (h.append hend)
    simpa [element, Tree.isLeaf, elementKey, elementEnd, elementLexemes] using hall

lemma IsTrailing.renders {cs : List Tree} (hc : IsTrailing cs cls) (hlexed : ∀ c ∈ cs, AllLexed c)
    (view : Position → Position) :
    Renders plain Ended (cs.flatMap (plan view)) (cs.flatMap (placed view)) cls fun _ => True := by
  cases hc with
  | none => exact Renders.nil.ended
  | comma hc =>
    rw [flatMap_singleton, flatMap_singleton]
    exact (written_opening hc (hlexed _ (by simp))).ended

/-- A list or a set is written with braces around its elements. -/
lemma written_table {l r : String} {isList : Bool} {n : Nat} {cs : List Tree}
    (hs : (s, l, r, isList) ∈ [("<list>", "[", "]", true), ("<set>", "\x7b", "\x7d", false)])
    (ha : IsWord l a) (ht : Spelled plain (.items isList n) t ls) (hc : IsTrailing cs cls) (hb : IsWord r b)
    (hlexed : ∀ c ∈ cs, AllLexed c)
    (h : Renders plain Open (chain view isList t).1 (placed view t) ls Ended) :
    Written plain view Open (.node (utf8 s) (a :: t :: (cs ++ [b]))) (inBraces (ls ++ cls)) Ended := by
  have hspec : ∀ q ∈ [("<list>", "[", "]", true), ("<set>", "\x7b", "\x7d", false)],
      Form.ofLabel (utf8 q.1) = (if q.2.2.2 then .list else .set) ∧ utf8 q.2.1 ≠ itemsLabel := by decide
  obtain ⟨hform, hlabel⟩ := hspec _ hs
  obtain ⟨left, rfl, -⟩ := ha
  obtain ⟨right, rfl, -⟩ := hb
  have hall := renders_braced (place view left) (place view right)
    (h.append (hc.renders hlexed view))
  obtain ⟨us, rfl⟩ : ∃ us, t = .node itemsLabel us := by
    cases ht <;> exact ⟨_, rfl⟩
  have hlist : ∀ ts, plan view (.node (utf8 s) ts) =
      table view ts (elements view isList ts) (nth view (ts.length - 2) ts) := by
    intro ts
    rw [plan, hform]
    cases isList <;> rfl
  rw [Written, hlist, placed_node]
  cases hc with
  | none =>
    simpa [table, elements, Tree.is, Tree.label, hlabel, braced, tokenAt, Tree.token?, needed, isLeafAt,
      Tree.isLeaf, placed_leaf] using hall
  | comma hc =>
    obtain ⟨comma, rfl, -⟩ := hc
    simpa [table, elements, Tree.is, Tree.label, hlabel, braced, tokenAt, Tree.token?, needed, isLeafAt,
      Tree.isLeaf, nth, placed_leaf] using hall

/-- A dict in braces is written as it is. -/
lemma plan_dict (ha : IsWord "\x7b" a) :
    plan view (.node (utf8 "<dict>") (a :: ts)) = (a :: ts).flatMap (plan view) := by
  have hne : utf8 "\x7b" ≠ utf8 "dict" := by decide
  obtain ⟨left, rfl, hsymbol⟩ := ha
  rw [plan, show Form.ofLabel (utf8 "<dict>") = .dict by decide]
  simp [tokenAt, Tree.token?, (Token.content_of_symbol (by decide) hsymbol).1, hne, parts_plain]

lemma written_dict (ha : IsWord "\x7b" a)
    (h : Renders plain P ((a :: ts).flatMap (plan view)) ((a :: ts).flatMap (placed view)) ls Q) :
    Written plain view P (.node (utf8 "<dict>") (a :: ts)) ls Q := by
  rwa [Written, plan_dict ha, placed_node]

/-- A list without elements is written as two braces. -/
lemma written_emptyList (ha : IsWord "[" a) (hb : IsWord "]" b) :
    Written plain view Open (.node (utf8 "<list>") [a, b]) (inBraces []) Ended := by
  have hform : Form.ofLabel (utf8 "<list>") = .list := Form.ofLabel_symbol .list (by decide)
  have hlabels : utf8 "[" ≠ itemsLabel ∧ utf8 "]" ≠ itemsLabel := by decide
  obtain ⟨left, rfl, -⟩ := ha
  obtain ⟨right, rfl, -⟩ := hb
  have hnil : Renders plain Open [] [] [] Open := .nil
  rw [Written, plan, hform, placed_node]
  simpa [table, elements, Tree.is, Tree.label, hlabels, braced, tokenAt, Tree.token?, needed, placed_leaf] using
    renders_braced (place view left) (place view right) hnil

/-- A dict call is written with braces around its keywords, or around nothing. -/
lemma written_dictCall (ts : List Tree) (hk : IsWord "dict" k) (ha : IsWord "(" a) (hb : IsWord ")" b)
    (hts : ts = [] ∧ ls = [] ∨ ∃ t, ts = [t] ∧ Spelled plain "<keywords>" t ls ∧
      Written plain view Open t ls Ended) :
    Written plain view Open (.node (utf8 "<dict>") (k :: a :: (ts ++ [b]))) (inBraces ls) Ended := by
  have hform : Form.ofLabel (utf8 "<dict>") = .dict := Form.ofLabel_symbol .dict (by decide)
  have hlabels : utf8 "dict" ≠ keywordsLabel ∧ utf8 "(" ≠ keywordsLabel ∧ utf8 ")" ≠ keywordsLabel := by
    decide
  obtain ⟨kw, rfl, hsymbol⟩ := hk
  obtain ⟨left, rfl, -⟩ := ha
  obtain ⟨right, rfl, -⟩ := hb
  have hcontent := (Token.content_of_symbol (by decide) hsymbol).1
  rw [Written, plan, hform, placed_node]
  rcases hts with ⟨rfl, rfl⟩ | ⟨t, rfl, ht, h⟩
  · have hdrop : Renders plain Open [.drop (place view left)] [place view left] [] Open := .drop _
    have hall := renders_braced (place view kw) (place view right) hdrop
    simpa [tokenAt, Tree.token?, hcontent, braced, needed, Tree.is, Tree.label, hlabels, placed_leaf] using hall
  · have hall := renders_braced (place view kw) (place view right)
      ((Renders.drop (place view left)).append h)
    obtain ⟨l, us, rfl⟩ := ht.exists_node
    obtain rfl : l = keywordsLabel := ht.label
    simpa [tokenAt, Tree.token?, hcontent, braced, needed, Tree.is, Tree.label, hlabels, found, placed_leaf]
      using hall

end Constructs

/-! ### Expressions -/

/-- Whether rendering a tree writes the given tokens. -/
def Emission (plain : Prop) (view : Position → Position) (φ : Phrase) (t : Tree) (ls : List Lexeme) : Prop :=
  match φ with
  | .symbol _ => Written plain view Open t ls Ended
  | .items isList n =>
    Renders plain Open (chain view isList t).1 (placed view t) ls Ended ∧ (chain view isList t).2 = n

/-- Rendering an expression writes the tokens that it stands for. -/
theorem Spelled.written (h : Spelled plain φ t ls) (hlexed : AllLexed t) (view : Position → Position) :
    Emission plain view φ t ls := by
  induction h with
  | category hs htok hword => exact written_category hs htok hword (hlexed _ (by simp [leaves, leavesOf]))
  | literal hw ht =>
    have hmem : ∀ p ∈ literalWords, p ∈ closingWords := by decide
    refine written_node ?_
    rw [flatMap_singleton, flatMap_singleton]
    exact written_closing ht hlexed.child (hmem _ hw)
  | single hs ht ih =>
    rw [Emission, Written, plan_single hs ht, placed_node, flatMap_singleton]
    exact ih hlexed.child
  | binary hs ht hu hv iht ihv =>
    have hform : ∀ q ∈ binaryRules, Form.ofLabel (utf8 q.1) = .sequence := by decide
    refine written_node ?_ (by simp [hform _ hs])
    simpa using (iht hlexed.child).append
      ((hu.written hlexed.child).append (ihv hlexed.child))
  | comma hs ht hu hv iht ihv =>
    have hform : ∀ q ∈ commaRules, Form.ofLabel (utf8 q.1) = .sequence := by decide
    refine written_node ?_ (by simp [hform _ hs])
    simpa using (iht hlexed.child).append
      ((written_opening hu hlexed.child).append (ihv hlexed.child))
  | not hk ht ih =>
    exact written_not hk hlexed.child ht.leads (ih hlexed.child)
  | neg hk ht ih =>
    exact written_neg hk hlexed.child (ih hlexed.child)
  | pos hk ht ih => exact written_pos hk (ih hlexed.child)
  | paren ha ht hb ih =>
    have hleft : Written plain view Open _ [mark "("] Open := written_opening ha hlexed.child
    refine written_node ?_
    simpa [inParens] using hleft.append ((ih hlexed.child).append
      (written_closing hb hlexed.child))
  | index ht ha hu hb iht ihu =>
    refine written_node ?_
    simpa using (iht hlexed.child).append ((written_opening ha hlexed.child).append
      ((ihu hlexed.child).append (written_closing hb hlexed.child)))
  | length hk ha ht hb ih =>
    exact written_length hk ha hlexed.child hb hlexed.child (ih hlexed.child)
  | callNothing hf ha hb =>
    refine written_node ?_
    simpa [inParens] using (hf.written hlexed.child).append
      ((written_opening ha hlexed.child).append
        (written_closing hb hlexed.child))
  | call hf ha ht hb ih =>
    refine written_node ?_
    simpa [inParens] using (hf.written hlexed.child).append
      ((written_opening ha hlexed.child).append ((ih hlexed.child).append
        (written_closing hb hlexed.child)))
  | empty hs ha hb =>
    simp only [mem_cons, Prod.mk.injEq, not_mem_nil, or_false] at hs
    rcases hs with ⟨rfl, rfl, rfl⟩ | ⟨rfl, rfl, rfl⟩
    · exact written_emptyList ha hb
    · have hleft : Written plain view Open _ [mark "\x7b"] Open :=
        written_opening ha hlexed.child
      refine written_dict ha ?_
      simpa [inBraces] using hleft.append (written_closing hb hlexed.child)
  | table hs ha ht hc hb ih =>
    exact written_table hs ha ht hc hb (fun c hc => hlexed.child (by simp [hc])) (ih hlexed.child).1
  | dict ha ht hc hb ih =>
    have hleft : Written plain view Open _ [mark "\x7b"] Open :=
      written_opening ha hlexed.child
    have hright : Written plain view (fun _ => True) _ [mark "\x7d"] Ended :=
      written_closing hb hlexed.child
    have htrailing : Renders plain Ended _ _ _ fun _ => True :=
      hc.renders (fun c hc => hlexed.child (by simp [hc])) view
    refine written_dict ha ?_
    simpa [inBraces] using hleft.append ((ih hlexed.child).append (htrailing.append hright))
  | dictNothing hk ha hb => exact written_dictCall [] hk ha hb (.inl ⟨rfl, rfl⟩)
  | dictCall hk ha ht hb ih =>
    exact written_dictCall _ hk ha hb (.inr ⟨_, rfl, ht, ih hlexed.child⟩)
  | pair ht hc hu iht ihu =>
    exact written_pair hc ht.leads (iht hlexed.child) (ihu hlexed.child)
  | keyword htok hc hu ih =>
    exact written_keyword htok (hlexed _ (by simp [leaves, leavesOf])) hc hlexed.child
      (ih hlexed.child)
  | @firstItem isList t ls ht ih =>
    have hne : utf8 "<expression>" ≠ itemsLabel := by decide
    have helement := written_element isList 0 ht (ih hlexed.child)
    have hchain : chain view isList (.node (utf8 "<items>") [t]) = element view isList 0 t (plan view t) := by
      simp [chain, chainOf, Tree.is, ht.label, hne, elementsFrom]
    rwa [Emission, hchain, placed_node, flatMap_singleton]
  | @nextItem isList n t c u ks ls ht hc hu iht ihu =>
    obtain ⟨hitems, hn⟩ := iht hlexed.child
    obtain ⟨helement, hcount⟩ := written_element isList n hu (ihu hlexed.child)
    have hcomma : Written plain view Ended c [mark ","] Open :=
      written_opening hc hlexed.child
    obtain ⟨us, rfl⟩ : ∃ us, t = .node itemsLabel us := by
      cases ht <;> exact ⟨_, rfl⟩
    have hall := hitems.append (hcomma.append helement)
    obtain ⟨comma, rfl, -⟩ := hc
    have hchain : chain view isList (.node (utf8 "<items>") [.node itemsLabel us, .leaf (utf8 ",") comma, u]) =
        ((chain view isList (.node itemsLabel us)).1 ++ (plan view (.leaf (utf8 ",") comma) ++
          (element view isList n u (plan view u)).1), (element view isList n u (plan view u)).2) := by
      have his : Tree.is itemsLabel (.node itemsLabel us) = true := by simp [Tree.is, Tree.label]
      have hleaf : ∀ i steps, element view isList i (.leaf (utf8 ",") comma) steps = (steps, i) :=
        fun _ _ => rfl
      rw [chain, chainOf]
      simp [his, Tree.isLeaf, elementsFrom, hleaf, hn]
    rw [Emission, hchain, placed_node]
    exact ⟨by simpa using hall, hcount⟩

end Tree

end Lunify
