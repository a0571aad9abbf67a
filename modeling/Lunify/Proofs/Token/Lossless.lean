import Lunify.Proofs.Token.Layout

/-!
# Tokens and the bytes they stand for

The tokens of a source can be put back at the bytes they come from. `Lexer.Covers base s placed` says that
tokens at offsets take up disjoint ranges of a part `s` of the source, in order, and that nothing but white
space is left between them; it composes along `++` (`Lexer.Covers.append`), so that a source is covered
line by line. `Token.StandsAt` says how the place that a token carries is computed from its offset.
-/

namespace Lunify

open List

variable {k : Nat}

/-- The bytes that a token takes up. The end of a line is a line feed, and changes of depth are nothing. -/
def Token.written (t : Token) : Text :=
  if t.isDivider newlineText then [byte '\n'] else if t.isSynthetic then [] else t.content

namespace Text

/-- Where the line around an offset begins. -/
def lineStart (s : Text) (offset : Nat) : Nat :=
  offset - ((s.take offset).reverse.takeWhile (· != byte '\n')).length

/-- The line around an offset, without the line feed that ends it. -/
def lineAt (s : Text) (offset : Nat) : Text :=
  (s.drop (s.lineStart offset)).takeWhile (· != byte '\n')

end Text

/-- How the place of a token depends on its offset in the source: its line is the number of line feeds
before it, and its column counts the bytes of the line before it, with three more for each leading tab of the
line. Where a line of white space ends, its tabs have no such weight. -/
structure Token.StandsAt (source : Text) (offset : Nat) (t : Token) : Prop where
  line : t.pos.line = (source.take offset).count (byte '\n')
  column : t.pos.column = (offset - source.lineStart offset : Nat) +
    if t.isDivider newlineText ∧ (source.lineAt offset).all Lexer.isSpace then 0
    else 3 * leadingTabs (source.lineAt offset)

namespace Text

/-! ### Lines -/

/-- Whether a text can stand before a line. -/
def EndsLine (s : Text) : Prop :=
  s = [] ∨ s.getLast? = some (byte '\n')

/-- Whether a text can stand after a line. -/
def StartsAfterLine (s : Text) : Prop :=
  s = [] ∨ s.head? = some (byte '\n')

variable {before line after : Text}

/-- Bytes other than line feeds are taken up to a line feed. -/
lemma takeWhile_line (hline : byte '\n' ∉ line) (hafter : after.StartsAfterLine) :
    (line ++ after).takeWhile (· != byte '\n') = line := by
  have hall : ∀ b ∈ line, (b != byte '\n') = true := fun b hb => by
    rw [bne_iff_ne]
    rintro rfl
    exact hline hb
  rw [takeWhile_append_of_pos hall]
  rcases hafter with rfl | hafter
  · simp
  · obtain ⟨r, rfl⟩ := head?_eq_some_iff.1 hafter
    simp

/-- The line around an offset in it begins where it is put. -/
lemma lineStart_eq (hbefore : before.EndsLine) (hline : byte '\n' ∉ line) (hk : k ≤ line.length) :
    (before ++ line ++ after).lineStart (before.length + k) = before.length := by
  have htake : (before ++ line ++ after).take (before.length + k) = before ++ line.take k := by
    rw [append_assoc, take_length_add_append, take_append_of_le_length hk]
  have hstart : StartsAfterLine before.reverse := by
    rcases hbefore with rfl | h
    · exact .inl rfl
    · exact .inr (by rw [head?_reverse, h])
  have hfeed : byte '\n' ∉ (line.take k).reverse := fun h =>
    hline (mem_of_mem_take (mem_reverse.1 h))
  rw [lineStart, htake, reverse_append, takeWhile_line hfeed hstart, length_reverse,
    length_take, Nat.min_eq_left hk, Nat.add_sub_cancel]

lemma lineAt_eq (hbefore : before.EndsLine) (hline : byte '\n' ∉ line) (hafter : after.StartsAfterLine)
    (hk : k ≤ line.length) : (before ++ line ++ after).lineAt (before.length + k) = line := by
  rw [lineAt, lineStart_eq hbefore hline hk, append_assoc, drop_left,
    takeWhile_line hline hafter]

/-- The line feeds before an offset in a line are those before the line. -/
lemma count_take_line (hline : byte '\n' ∉ line) (hk : k ≤ line.length) :
    ((before ++ line ++ after).take (before.length + k)).count (byte '\n') =
      before.count (byte '\n') := by
  have hfeed : byte '\n' ∉ line.take k := fun h => hline (mem_of_mem_take h)
  rw [append_assoc, take_length_add_append, take_append_of_le_length hk,
    count_append, count_eq_zero.2 hfeed, Nat.add_zero]

end Text

namespace Lexer

variable {p : Nat × Token} {number : Nat} {tokens : List Token}

/-! ### Ranges -/

/-- Tokens at offsets take up disjoint ranges of a part of the source that begins at the offset `base`, in
order, and leave out white space only. -/
structure Covers (base : Nat) (s : Text) (placed : List (Nat × Token)) : Prop where
  ordered : placed.Pairwise fun p q => p.1 + p.2.written.length ≤ q.1
  inside : ∀ p ∈ placed, ∃ before after, s = before ++ (p.2.written ++ after) ∧
    p.1 = base + before.length
  rest : ∀ k b, s[k]? = some b → isSpace b = true ∨
    ∃ p ∈ placed, p.1 ≤ base + k ∧ base + k < p.1 + p.2.written.length

variable {base : Nat} {s t : Text} {ps qs : List (Nat × Token)}

lemma covers_spaces (base : Nat) (hs : ∀ b ∈ s, isSpace b = true) : Covers base s [] where
  ordered := .nil
  inside := by simp
  rest _ b hb := .inl (hs b (mem_of_getElem? hb))

lemma covers_token (base : Nat) (t : Token) : Covers base t.written [(base, t)] where
  ordered := pairwise_singleton _ _
  inside := by simp
  rest k b hb := by
    have hk := (List.getElem?_eq_some_iff.1 hb).1
    exact .inr ⟨(base, t), mem_cons_self, Nat.le_add_right _ _, by simpa using hk⟩

lemma Covers.bounds (h : Covers base s ps) (hp : p ∈ ps) :
    base ≤ p.1 ∧ p.1 + p.2.written.length ≤ base + s.length := by
  obtain ⟨before, after, rfl, hoffset⟩ := h.inside p hp
  simp only [length_append]
  omega

/-- Parts of a source that follow each other. -/
theorem Covers.append (hs : Covers base s ps) (ht : Covers (base + s.length) t qs) :
    Covers base (s ++ t) (ps ++ qs) where
  ordered := by
    refine pairwise_append.2 ⟨hs.ordered, ht.ordered, fun p hp q hq => ?_⟩
    exact (hs.bounds hp).2.trans (ht.bounds hq).1
  inside := by
    intro p hp
    rcases mem_append.1 hp with h | h
    · obtain ⟨before, after, rfl, hoffset⟩ := hs.inside p h
      exact ⟨before, after ++ t, by simp, hoffset⟩
    · obtain ⟨before, after, rfl, hoffset⟩ := ht.inside p h
      exact ⟨s ++ before, after, by simp, by rw [hoffset, length_append, Nat.add_assoc]⟩
  rest := by
    intro k b hb
    by_cases hk : k < s.length
    · rw [getElem?_append_left hk] at hb
      rcases hs.rest k b hb with h | ⟨p, hp, h⟩
      · exact .inl h
      · exact .inr ⟨p, mem_append_left _ hp, h⟩
    · rw [getElem?_append_right (Nat.le_of_not_lt hk)] at hb
      rcases ht.rest _ b hb with h | ⟨p, hp, h⟩
      · exact .inl h
      · exact .inr ⟨p, mem_append_right _ hp, by omega⟩

lemma Covers.drop_take (h : Covers 0 s ps) (hp : p ∈ ps) :
    (s.drop p.1).take p.2.written.length = p.2.written := by
  obtain ⟨before, after, rfl, hoffset⟩ := h.inside p hp
  rw [hoffset, Nat.zero_add, drop_left, take_left]

/-- Two tokens do not take up the same byte. -/
lemma Covers.eq_of_common (h : Covers base s ps) {q : Nat × Token} (hp : p ∈ ps) (hq : q ∈ ps)
    (hpk : p.1 ≤ k ∧ k < p.1 + p.2.written.length) (hqk : q.1 ≤ k ∧ k < q.1 + q.2.written.length) :
    p = q := by
  let Apart (p q : Nat × Token) : Prop :=
    p.1 + p.2.written.length ≤ q.1 ∨ q.1 + q.2.written.length ≤ p.1
  have hsymm : Std.Symm Apart := ⟨fun _ _ => Or.symm⟩
  have hapart : ps.Pairwise Apart := h.ordered.imp Or.inl
  by_contra hne
  rcases hapart.forall hp hq hne with h | h <;> omega

/-- What is written with a line feed, and reads none from the text, is the end of a line. -/
lemma isDivider_of_mem_written {t : Token} (hfeed : byte '\n' ∉ t.content) (h : byte '\n' ∈ t.written) :
    t.isDivider newlineText = true := by
  by_contra hdivider
  rw [Token.written, if_neg hdivider] at h
  split at h
  · exact not_mem_nil h
  · exact hfeed h

/-- A line feed is the end of one line. -/
lemma Covers.existsUnique_newline (h : Covers 0 s ps) (hfeed : ∀ p ∈ ps, byte '\n' ∉ p.2.content)
    (hk : s[k]? = some (byte '\n')) :
    ∃! p, p ∈ ps ∧ p.1 = k ∧ p.2.isDivider newlineText = true := by
  have hwritten : ∀ {t : Token}, t.isDivider newlineText = true → t.written.length = 1 :=
    fun ht => by rw [Token.written, if_pos ht, length_singleton]
  rcases h.rest k _ hk with hspace | ⟨p, hp, hfirst, hlast⟩
  · exact absurd hspace (by decide)
  · rw [Nat.zero_add] at hfirst hlast
    have hmem : byte '\n' ∈ p.2.written := by
      rw [← h.drop_take hp]
      refine mem_of_getElem? (i := k - p.1) ?_
      rw [getElem?_take_of_lt (by omega), getElem?_drop, Nat.add_sub_cancel' hfirst, hk]
    have hdivider := isDivider_of_mem_written (hfeed p hp) hmem
    have hlength := hwritten hdivider
    refine ⟨p, ⟨hp, by omega, hdivider⟩, fun q ⟨hq, hqk, hqdivider⟩ => ?_⟩
    have hqlength := hwritten hqdivider
    exact h.eq_of_common hq hp ⟨by omega, by omega⟩ ⟨hfirst, hlast⟩

/-! ### One line -/

lemma written_of_read {t : Token} (h : t.isSynthetic = false) : t.written = t.content := by
  have hnewline : t.isDivider newlineText = false := isDivider_of_read (by simp) h
  rw [Token.written, if_neg (by simp [hnewline]), if_neg (by simp [h])]

/-- The tokens of a part of a line are at their columns in it. -/
lemma Reads.covers {column : Nat} {rest s : Text} (h : Reads number rest column s tokens) (base : Nat) :
    ∃ placed, placed.map Prod.snd = tokens ∧ Covers base s placed ∧
      ∀ p ∈ placed, p.2.isSynthetic = false ∧ p.2.pos = ⟨number, column + (p.1 - base : Nat)⟩ := by
  induction h generalizing base with
  | nil column => exact ⟨[], rfl, covers_spaces base (by simp), by simp⟩
  | @space column b s tokens hb _ ih =>
    obtain ⟨placed, hplaced, hcovers, hpos⟩ := ih (base + 1)
    refine ⟨placed, hplaced, (covers_spaces (s := [b]) base (by simpa using hb)).append hcovers, ?_⟩
    intro p hp
    have hle := (hcovers.bounds hp).1
    obtain ⟨hread, hpos⟩ := hpos p hp
    refine ⟨hread, hpos.trans ?_⟩
    congr 1
    omega
  | @lexeme column kind w s tokens _ hfirst _ ih =>
    obtain ⟨placed, rfl, hcovers, hpos⟩ := ih (base + w.length)
    have hread := isSynthetic_of_first? hfirst ⟨number, column⟩
    have hhere := covers_token base ⟨kind, w, ⟨number, column⟩⟩
    rw [written_of_read hread] at hhere
    refine ⟨(base, ⟨kind, w, ⟨number, column⟩⟩) :: placed, rfl, hhere.append hcovers, ?_⟩
    refine forall_mem_cons.2 ⟨⟨hread, by simp⟩, fun p hp => ?_⟩
    have hle := (hcovers.bounds hp).1
    obtain ⟨hread', hpos'⟩ := hpos p hp
    refine ⟨hread', hpos'.trans ?_⟩
    congr 1
    omega

/-- Changes of depth take up nothing. -/
lemma covers_depthChange (base old new : Nat) (pos : Position) :
    Covers base [] ((depthChange old new pos).map (base, ·)) := by
  obtain ⟨n, w, hw, heq⟩ := exists_depthChange old new pos
  have hwritten : Token.written ⟨.divider, w, pos⟩ = [] := by
    rcases hw with rfl | rfl <;> rfl
  rw [heq, map_replicate]
  refine ⟨pairwise_replicate.2 (.inr ?_), ?_, by simp⟩
  · simp [hwritten]
  · intro p hp
    obtain rfl := eq_of_mem_replicate hp
    exact ⟨[], [], by simp [hwritten], rfl⟩

lemma leadingTabs_le (line : Text) : leadingTabs line ≤ line.length :=
  (List.takeWhile_prefix _).length_le

/-- The tokens of a line are in it, each at its column. -/
lemma ReadsLine.covers {depth depth' : Nat} {last : Bool} {line : Text}
    (h : ReadsLine number depth last line tokens depth') (base : Nat) :
    ∃ placed, placed.map Prod.snd = tokens ∧ Covers base line placed ∧
      ∀ p ∈ placed, p.2.isDivider newlineText = false ∧
        p.2.pos = ⟨number, (p.1 - base : Nat) + 3 * leadingTabs line⟩ := by
  -- The changes of depth of a line stand after its leading tabs.
  have hdepth : ∀ new, ∀ p ∈ (depthChange depth new ⟨number, tabWidth * leadingTabs line⟩).map
      (base + leadingTabs line, ·), p.2.isDivider newlineText = false ∧
        p.2.pos = ⟨number, (p.1 - base : Nat) + 3 * leadingTabs line⟩ := by
    intro new p hp
    obtain ⟨t, ht, rfl⟩ := mem_map.1 hp
    obtain ⟨n, w, hw, heq⟩ := exists_depthChange depth new ⟨number, tabWidth * leadingTabs line⟩
    rw [heq] at ht
    obtain rfl := eq_of_mem_replicate ht
    refine ⟨by rcases hw with rfl | rfl <;> rfl, ?_⟩
    simp only [tabWidth, Position.mk.injEq, true_and]
    omega
  have htabs : Covers base (line.take (leadingTabs line)) [] := covers_spaces base isSpace_of_mem_tabs
  have hlength : (line.take (leadingTabs line)).length = leadingTabs line := by
    rw [length_take, Nat.min_eq_left (leadingTabs_le line)]
  have hcovers : ∀ (new : Nat) {read : List (Nat × Token)},
      Covers (base + leadingTabs line) (line.drop (leadingTabs line)) read →
        Covers base line ((depthChange depth new ⟨number, tabWidth * leadingTabs line⟩).map
          (base + leadingTabs line, ·) ++ read) := by
    intro new read hread
    have hrest := (covers_depthChange (base + leadingTabs line) depth new
      ⟨number, tabWidth * leadingTabs line⟩).append (by simpa using hread)
    have hall := htabs.append (by simpa only [hlength] using hrest)
    rwa [nil_append, nil_append, take_append_drop] at hall
  cases h with
  | blank hspace => exact ⟨[], rfl, covers_spaces base (all_eq_true.1 hspace), by simp⟩
  | last hspace =>
    have hrest : ∀ b ∈ line.drop (leadingTabs line), isSpace b = true :=
      fun b hb => all_eq_true.1 hspace b (mem_of_mem_drop hb)
    refine ⟨_, ?_, hcovers 0 (covers_spaces _ hrest), ?_⟩
    · rw [append_nil, map_map]
      exact map_id _
    · rw [append_nil]
      exact hdepth 0
  | text _ _ h =>
    obtain ⟨placed, rfl, hplaced, hpos⟩ := h.covers (base + leadingTabs line)
    refine ⟨_, ?_, hcovers (leadingTabs line) hplaced, ?_⟩
    · rw [map_append, map_map]
      exact congrArg (· ++ _) (map_id _)
    · refine forall_mem_append.2 ⟨hdepth _, fun p hp => ?_⟩
      obtain ⟨hread, hpos⟩ := hpos p hp
      have hle := (hplaced.bounds hp).1
      refine ⟨isDivider_of_read (by simp) hread, hpos.trans ?_⟩
      simp only [tabWidth, Position.mk.injEq, true_and]
      omega

/-! ### All lines -/

section Places

variable {before line after : Text}

/-- The place of a token of a line. -/
lemma standsAt_of_line (hbefore : before.EndsLine) (hline : byte '\n' ∉ line)
    (hafter : after.StartsAfterLine) {offset : Nat} (hfirst : before.length ≤ offset)
    (hlast : offset ≤ before.length + line.length) {t : Token}
    (hnewline : t.isDivider newlineText = false)
    (hpos : t.pos = ⟨before.count (byte '\n'), (offset - before.length : Nat) + 3 * leadingTabs line⟩) :
    t.StandsAt (before ++ line ++ after) offset := by
  obtain ⟨k, rfl⟩ := Nat.exists_eq_add_of_le hfirst
  have hk : k ≤ line.length := by omega
  constructor
  · rw [Text.count_take_line hline hk, hpos]
  · rw [Text.lineStart_eq hbefore hline hk, Text.lineAt_eq hbefore hline hafter hk, hpos, hnewline]
    simp

/-- The place of the end of a line. -/
lemma newline_standsAt (hbefore : before.EndsLine) (hline : byte '\n' ∉ line)
    (hafter : after.StartsAfterLine) :
    (newline (before.count (byte '\n')) (newlineColumn line)).StandsAt (before ++ line ++ after)
      (before.length + line.length) := by
  have htabs := leadingTabs_le line
  constructor
  · rw [Text.count_take_line hline (Nat.le_refl _)]
    rfl
  · rw [Text.lineStart_eq hbefore hline (Nat.le_refl _),
      Text.lineAt_eq hbefore hline hafter (Nat.le_refl _)]
    have hdivider : ∀ column, (newline (before.count (byte '\n')) column).isDivider newlineText =
        true := fun _ => rfl
    have hpos : ∀ column : Nat, (newline (before.count (byte '\n')) column).pos.column = column :=
      fun _ => rfl
    rw [hdivider, hpos, newlineColumn]
    by_cases hspace : line.all isSpace = true
    · simp [hspace]
    · rw [if_neg hspace, if_neg (by simp [hspace]), tabWidth, length_drop]
      omega

end Places

/-- The tokens of the lines after some text are in these lines, each at its place. -/
lemma covers_linesTokens {depth : Nat} {lines : List Text} (hfeed : ∀ line ∈ lines, byte '\n' ∉ line)
    (h : linesTokens number depth lines = .ok tokens) {before : Text} (hbefore : before.EndsLine)
    (hnumber : number = before.count (byte '\n')) :
    ∃ placed, placed.map Prod.snd = tokens ∧
      Covers before.length (Text.join [byte '\n'] lines) placed ∧
      ∀ p ∈ placed, p.2.StandsAt (before ++ Text.join [byte '\n'] lines) p.1 := by
  rw [linesTokens_eq_ok_iff] at h
  induction h generalizing before with
  | nil => exact ⟨[], rfl, covers_spaces _ (by simp [Text.join]), by simp⟩
  | @last number depth depth' line tokens h =>
    obtain ⟨placed, hplaced, hcovers, hpos⟩ := h.covers before.length
    rw [Text.join, intercalate_singleton]
    refine ⟨placed, hplaced, hcovers, fun p hp => ?_⟩
    obtain ⟨hnewline, hpos⟩ := hpos p hp
    have hbounds := hcovers.bounds hp
    rw [← append_nil (before ++ line)]
    exact standsAt_of_line hbefore (hfeed line (by simp)) (.inl rfl) hbounds.1 (by omega) hnewline
      (hnumber ▸ hpos)
  | @cons number depth depth' line next rest here later h _ ih =>
    have hnofeed : byte '\n' ∉ line := hfeed line mem_cons_self
    obtain ⟨placed, hplaced, hcovers, hpos⟩ := h.covers before.length
    -- The later lines come after this one and its line feed.
    have hbefore' : (before ++ (line ++ [byte '\n'])).EndsLine := .inr (by simp)
    have hnumber' : number + 1 = (before ++ (line ++ [byte '\n'])).count (byte '\n') := by
      rw [count_append, count_append, count_eq_zero.2 hnofeed, ← hnumber]
      rfl
    obtain ⟨placed', hplaced', hcovers', hpos'⟩ :=
      ih (fun l hl => hfeed l (mem_cons_of_mem _ hl)) hbefore' hnumber'
    have hend : Covers (before.length + line.length) [byte '\n']
        [(before.length + line.length, newline number (newlineColumn line))] :=
      covers_token _ (newline number (newlineColumn line))
    have hall := hcovers.append (hend.append
      (by simpa only [length_append, Nat.add_assoc] using hcovers'))
    rw [Text.join, intercalate_cons_cons, ← Text.join, append_assoc]
    refine ⟨_, ?_, hall, fun p hp => ?_⟩
    · rw [map_append, map_append, hplaced, hplaced']
      rfl
    · have hafter : Text.StartsAfterLine ([byte '\n'] ++ Text.join [byte '\n'] (next :: rest)) :=
        .inr rfl
      rcases mem_append.1 hp with hp | hp
      · obtain ⟨hnewline, hpos⟩ := hpos p hp
        have hbounds := hcovers.bounds hp
        rw [← append_assoc before]
        exact standsAt_of_line hbefore hnofeed hafter hbounds.1 (by omega) hnewline (hnumber ▸ hpos)
      · rcases mem_append.1 hp with hp | hp
        · obtain rfl := mem_singleton.1 hp
          rw [← append_assoc before, hnumber]
          exact newline_standsAt hbefore hnofeed hafter
        · simpa only [append_assoc] using hpos' p hp

end Lexer

/-- Nothing is lost of a source, and its tokens say where they stand. They can be put at offsets of the source
where they take up disjoint ranges, in order. What was read from the text is written there, and the ends of
lines are the line feeds. Every other byte is a blank, a tab or a carriage return. The places of the tokens are
computed from the offsets, and no token begins before the one before it ends. -/
theorem lex_lossless {source : Text} {tokens : List Token} (h : lex source = .ok tokens) :
    (∃ placed : List (Nat × Token), placed.map Prod.snd = tokens ∧
      placed.Pairwise (fun p q => p.1 + p.2.written.length ≤ q.1) ∧
      (∀ p ∈ placed, p.1 + p.2.written.length ≤ source.length ∧
        (source.drop p.1).take p.2.written.length = p.2.written ∧ p.2.StandsAt source p.1) ∧
      (∀ k, source[k]? = some (byte '\n') →
        ∃! p, p ∈ placed ∧ p.1 = k ∧ p.2.isDivider newlineText = true) ∧
      ∀ k b, source[k]? = some b → b ∈ [byte ' ', byte '\t', byte '\r'] ∨
        ∃ p ∈ placed, p.1 ≤ k ∧ k < p.1 + p.2.written.length) ∧
    tokens.IsChain fun a b => a.finish.le b.pos := by
  obtain ⟨hchain, hplace⟩ := isChain_of_lex h
  refine ⟨?_, hchain.imp fun _ _ hab => hab.ordered⟩
  obtain ⟨placed, rfl, hcovers, hpos⟩ := Lexer.covers_linesTokens
    (fun line hline => Text.notMem_of_mem_splitOn hline) h (.inl (rfl : ([] : Text) = [])) rfl
  rw [Text.join_splitOn] at hcovers hpos
  have hrest : ∀ k b, source[k]? = some b → Lexer.isSpace b = true ∨
      ∃ p ∈ placed, p.1 ≤ k ∧ k < p.1 + p.2.written.length := by
    simpa using hcovers.rest
  refine ⟨placed, rfl, hcovers.ordered, fun p hp => ⟨?_, ?_, by simpa using hpos p hp⟩, ?_, ?_⟩
  · simpa using (hcovers.bounds hp).2
  · exact hcovers.drop_take hp
  · intro k hk
    exact hcovers.existsUnique_newline (fun p hp => (hplace _ (List.mem_map_of_mem hp)).noFeed)
      (by simpa using hk)
  · intro k b hb
    refine (hrest k b hb).imp_left fun hspace => ?_
    simpa [Lexer.isSpace, or_assoc] using hspace

/-- A block with a line of white space in it, and a tab at the end. -/
theorem lex_lossless_block :
    ∃ (tokens : List Token) (placed : List (Nat × Token)),
      lex (utf8 "if a:\n\tb = 1\r\n\t \n\t") = .ok tokens ∧
      (tokens.map fun t => (t.pos.line, t.pos.column)) =
        [(0, 0), (0, 3), (0, 4), (0, 5), (1, 4), (1, 4), (1, 6), (1, 8), (1, 10), (2, 2), (3, 4)] ∧
      placed.map Prod.snd = tokens ∧
      (∀ p ∈ placed, p.2.StandsAt (utf8 "if a:\n\tb = 1\r\n\t \n\t") p.1) ∧
      tokens.IsChain fun a b => a.finish.le b.pos := by
  let tokens : List Token :=
    [⟨.keyword, utf8 "if", ⟨0, 0⟩⟩, ⟨.identifier, utf8 "a", ⟨0, 3⟩⟩, ⟨.divider, utf8 ":", ⟨0, 4⟩⟩,
      ⟨.divider, newlineText, ⟨0, 5⟩⟩, ⟨.divider, indentText, ⟨1, 4⟩⟩, ⟨.identifier, utf8 "b", ⟨1, 4⟩⟩,
      ⟨.operator, utf8 "=", ⟨1, 6⟩⟩, ⟨.number, utf8 "1", ⟨1, 8⟩⟩, ⟨.divider, newlineText, ⟨1, 10⟩⟩,
      ⟨.divider, newlineText, ⟨2, 2⟩⟩, ⟨.divider, dedentText, ⟨3, 4⟩⟩]
  have hlex : lex (utf8 "if a:\n\tb = 1\r\n\t \n\t") = .ok tokens := by decide +kernel
  obtain ⟨⟨placed, hplaced, -, hplaces, -, -⟩, hchain⟩ := lex_lossless hlex
  exact ⟨tokens, placed, hlex, rfl, hplaced, fun p hp => (hplaces p hp).2.2, hchain⟩

end Lunify
