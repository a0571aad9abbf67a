import Lunify.Proofs.Rendering.Alignment
import Lunify.Proofs.Rendering.OpenRows

/-!
# Steps line by line

What a statement begins with may join anything that is written right before it: a name that begins with an `e`
goes on with a number. But a statement on a line of its own is written after a line feed, and this is known
from the place of the cursor. `Sets plain P done steps u ls Q` says that steps which go through the tokens `u`
after the tokens `done` account for these and, if the strings of the source are plain, write the Lua tokens `ls`
for a cursor that stands where it does after `done`.

Statements are put together from steps that begin a line (`Opens`), bodies (`Body`), constructs up to the keyword
that closes them (`OpenPart`) and whole lines (`Lays`). Each of these says how its steps are set and which rows
they make.
-/

namespace Lunify

open List

open Chunk (Lexeme Lexes IsBlank mark)

/-- Steps that go through the tokens `u` after the tokens `done` and, if strings are plain, add the given words,
which are the words of the single texts. -/
structure Sets (plain : Prop) (P : UInt8 → Prop) (done : List Token) (steps : List Step) (u : List Token)
    (ls : List Lexeme) (Q : UInt8 → Prop) : Prop where
  accounts : Accounts done steps u
  writes : plain → ∀ {entries : List Posting} {closes : Int} {c : Cursor} {rest : List Token} {ks : List Lexeme},
    InOrder (done ++ (u ++ rest)) → Stands entries closes c done (u ++ rest) → Lexes c.text ks → P c.last →
    ∃ c', c.run steps = .ok c' ∧ Lexes c'.text (ks ++ ls) ∧ Q c'.last
  values : plain → steps.flatMap Step.values = ls

/-- Whether a statement can be written after a byte: at the start of a line, and otherwise as an expression
can. -/
def Begins (done : List Token) (x : UInt8) : Prop :=
  LineStart done ∨ Open x

/-- Whether tokens end with the end of a line. -/
def EndsLine (u : List Token) : Prop :=
  ∃ t, u.getLast? = some t ∧ t.isSynthetic = true

variable {plain : Prop} {P P' Q Q' R : UInt8 → Prop} {done u u' body : List Token} {steps steps' : List Step}
  {ks ls : List Lexeme} {t : Token} {s : Text} {st : Step}

lemma EndsLine.append (h : EndsLine u') (u : List Token) : EndsLine (u ++ u') := by
  obtain ⟨t, hlast, ht⟩ := h
  exact ⟨t, by rw [getLast?_append, hlast, Option.some_or], ht⟩

lemma EndsLine.lineStart (h : EndsLine u) : LineStart u := by
  rw [← nil_append u]
  exact lineStart_append h

lemma EndsLine.ne_nil (h : EndsLine u) : u ≠ [] := by
  rintro rfl
  obtain ⟨t, ht, -⟩ := h
  cases ht

/-- White space makes a place where anything can begin. -/
lemma Cursor.Pads.open_last {c c' : Cursor} (h : c.Pads c') (hne : c'.text ≠ c.text) : Open c'.last := by
  obtain ⟨ws, hws, htext⟩ := h
  have hne : ws ≠ [] := by
    rintro rfl
    exact hne (by simpa using htext)
  have hblank : ∀ x : UInt8, IsBlank x → Open x := by
    rintro x (rfl | rfl) <;> decide
  rw [Cursor.last_eq, htext, getLast?_append, getLast?_eq_some_getLast hne, Option.some_or,
    Option.getD_some]
  exact hblank _ (hws _ (getLast_mem hne))

namespace Sets

lemma weaken (h : Sets plain P done steps u ls Q) (hP : ∀ x, P' x → P x) (hQ : ∀ x, Q x → Q' x) :
    Sets plain P' done steps u ls Q' where
  accounts := h.accounts
  writes := fun hplain _ _ _ _ _ horder hstands hks hx => by
    obtain ⟨c', hrun, hlexes, hlast⟩ := h.writes hplain horder hstands hks (hP _ hx)
    exact ⟨c', hrun, hlexes, hQ _ hlast⟩
  values := h.values

lemma ended (h : Sets plain P done steps u ls Q) : Sets plain P done steps u ls fun _ => True :=
  h.weaken (fun _ => id) fun _ _ => trivial

/-- Steps after other steps. -/
lemma append (h : Sets plain P done steps u ks Q) (h' : Sets plain Q (done ++ u) steps' u' ls R) :
    Sets plain P done (steps ++ steps') (u ++ u') (ks ++ ls) R where
  accounts := h.accounts.append h'.accounts
  writes := fun hplain _ _ _ _ _ horder hstands hjs hP => by
    rw [append_assoc] at horder hstands
    obtain ⟨c', hrun, hlexes, hQ⟩ := h.writes hplain horder hstands hjs hP
    obtain ⟨c₁, hrun₁, hstands₁⟩ := (h.accounts.goes horder hstands).ends
    obtain rfl : c' = c₁ := Except.ok.inj (hrun.symm.trans hrun₁)
    obtain ⟨c'', hrun', hlexes', hR⟩ := h'.writes hplain (by rwa [append_assoc]) hstands₁ hlexes hQ
    refine ⟨c'', ?_, by rwa [← append_assoc], hR⟩
    rw [Cursor.run, foldlM_append, ← Cursor.run, hrun]
    exact hrun'
  values := fun hplain => by rw [flatMap_append, h.values hplain, h'.values hplain]

lemma of_emits (haccounts : Accounts done steps u) (h : plain → Emits P steps ls Q) :
    Sets plain P done steps u ls Q where
  accounts := haccounts
  writes := fun hplain _ _ _ _ _ _ _ hks hP => (h hplain).writes _ _ hks hP
  values := fun hplain => (h hplain).values

/-- Tokens that are neither read nor written. -/
lemma silent (hu : ∀ t ∈ u, t.isVisible = false) : Sets plain P done [] u [] P := by
  refine .of_emits ?_ fun _ => .nil
  induction u generalizing done with
  | nil => exact .nil
  | cons t u ih =>
    rw [forall_mem_cons] at hu
    exact .silent hu.1 (ih hu.2)

/-- At the start of a line the first token of a statement is written after a line feed, or it is the first of
all. -/
lemma of_lineStart (haccounts : Accounts done (.token t s :: steps) (t :: u)) (hline : LineStart done)
    (ht : t.isSynthetic = false) (h : plain → Emits Open (.token t s :: steps) ls Q) :
    Sets plain P done (.token t s :: steps) (t :: u) ls Q where
  accounts := haccounts
  writes := fun hplain entries closes c rest js horder hstands hjs hP => by
    replace h := h hplain
    have hchain : (done ++ [t]).IsChain Token.Precedes :=
      horder.chain.prefix ⟨u ++ rest, by simp⟩
    rcases hstands.lt_or_fresh hline hchain with hlt | ⟨rfl, -⟩
    · have hreaches := hstands.reaches ht (horder.placed t (by simp)).column
      have hne : (c.advance t.pos).text ≠ c.text := by
        intro heq
        have hplace := hreaches.fits
        rw [Cursor.Fits, heq, hstands.fits] at hplace
        have hsame : c.line = (c.advance t.pos).line := congrArg Position.line hplace
        rw [hreaches.line] at hsame
        omega
      -- The cursor moves to the token first, and moving there again changes nothing.
      have hrun : c.run (.token t s :: steps) = (c.advance t.pos).run (.token t s :: steps) := by
        have hstep : c.step (.token t s) = (c.advance t.pos).step (.token t s) := by
          simp only [Cursor.step, Cursor.token, hreaches.advance_eq]
        simp only [Cursor.run, foldlM_cons, hstep]
      obtain ⟨ws, hws, htext⟩ := hreaches.pads
      rw [hrun]
      exact h.writes _ _ (htext ▸ hjs.append_blanks hws) (hreaches.pads.open_last hne)
    · exact h.writes _ _ hjs open_start
  values := fun hplain => (h hplain).values

end Sets

/-- A closing keyword is written after white space, and there is some. -/
lemma Cursor.exists_close (c : Cursor) (opener last : Token) : ∃ c₁, c.Pads c₁ ∧ c₁.text ≠ c.text ∧
    (c.close opener last).text = (c₁.write (utf8 "end")).text := by
  obtain ⟨line, hlt, hline⟩ : ∃ line, c.line < line ∧
      (if last.pos.line + c.shift + 1 ≤ c.line then c.line + 1 else last.pos.line + c.shift + 1) = line := by
    split
    · exact ⟨_, by omega, rfl⟩
    · exact ⟨_, by omega, rfl⟩
  have hfeeds : (c.downTo line).text = c.text ++ List.replicate (line - c.line).toNat (byte '\n') := by
    rw [downTo, if_neg (by omega)]
    exact text_append c _
  have hright := pads_rightTo (c.downTo line) opener.pos.column
  refine ⟨(c.downTo line).rightTo opener.pos.column, (pads_downTo c line).trans hright, fun heq => ?_, ?_⟩
  · obtain ⟨ws, -, htext⟩ := hright
    rw [htext, hfeeds, append_assoc, append_right_eq_self, append_eq_nil_iff,
      replicate_eq_nil_iff] at heq
    omega
  · simp only [close, hline]
    rfl

/-- A closing keyword joins nothing. -/
lemma emits_close {P : UInt8 → Prop} (opener last : Token) :
    Emits P [.close opener last] [mark "end"] fun _ => True := by
  have hword : Chunk.IsWord (utf8 "end") (mark "end") := Chunk.isWord_of_wordOf? (by decide +kernel)
  refine ⟨fun c ks hks _ => ?_, by simp [Step.values, Step.text?, hword.lexes.values_eq]⟩
  obtain ⟨c₁, hpads, hne, hclose⟩ := c.exists_close opener last
  have hheld : HeldOff c₁.last (utf8 "end") := heldOff_of_open (hpads.open_last hne) (by decide +kernel)
  obtain ⟨ws, hws, htext⟩ := hpads
  obtain ⟨ws', hws', htext', hneeds⟩ := Cursor.extends_write c₁ (utf8 "end")
  refine ⟨c.close opener last, rfl, ?_, trivial⟩
  rw [hclose, htext']
  refine (Chunk.Lexes.append_blanks ?_ hws').append hword.lexes (apart_of_heldOff hws' hneeds hheld)
  rw [htext]
  exact hks.append_blanks hws

/-- A closing keyword. -/
lemma IsClosing.sets {inline : Bool} {opener : Token} {before after : List Token}
    (h : IsClosing inline opener body st) (hdone : done = before ++ opener :: after) (hbefore : LineStart before)
    (hopener : opener.isVisible = true) (hline : LineStart done) (hbody : body <:+ done) :
    Sets plain P done [st] [] [mark "end"] fun _ => True := by
  cases inline with
  | true =>
    obtain rfl : st = .insert (utf8 " end") := h
    refine .of_emits (.insert (.inr ⟨hline, opener, by simp [hdone], hopener⟩) (by decide) .nil) fun _ => ?_
    have hword : Chunk.IsWord (utf8 "end") (mark "end") := Chunk.isWord_of_wordOf? (by decide +kernel)
    have hend : Lexes (utf8 " end") [mark "end"] := .blank (.inl rfl) hword.lexes
    exact .piece rfl hend (by decide) (fun x _ => heldOff_of_isFree (by decide +kernel) x) fun _ _ => trivial
  | false =>
    obtain ⟨last, hlast, rfl⟩ : ∃ last, lastRead body = some last ∧ st = .close opener last := h
    obtain ⟨ahead, hahead⟩ := hbody
    refine .of_emits (.close hdone hbefore hopener hline ?_ .nil) fun _ => emits_close opener last
    rw [← hahead]
    exact lastRead_append_of_some hlast

/-! ### Steps that begin a line -/

/-- Steps within a line that begin with a token and are more than a closing keyword. -/
structure Opens (plain : Prop) (steps : List Step) (u : List Token) (ls : List Lexeme) (Q : UInt8 → Prop) :
    Prop where
  renders : Renders plain Open steps u ls Q
  leads : ∃ t s within, steps = .token t s :: within
  marked : ∃ st ∈ steps, st.IsMark
  visible : ∀ t ∈ u, t.isVisible = true

namespace Opens

lemma exists_cons (h : Opens plain steps u ls Q) :
    ∃ t s within rest, steps = .token t s :: within ∧ u = t :: rest := by
  obtain ⟨t, s, within, rfl⟩ := h.leads
  cases h.renders.inline with
  | token hs h => exact ⟨t, s, within, _, rfl, rfl⟩

lemma sets (h : Opens plain steps u ls Q) (done : List Token) :
    Sets plain (Begins done) done steps u ls Q := by
  obtain ⟨t, s, within, rest, rfl, rfl⟩ := h.exists_cons
  have haccounts := h.renders.inline.accounts_token h.visible done
  by_cases hline : LineStart done
  · exact .of_lineStart haccounts hline (Token.isSynthetic_of_isVisible (h.visible t mem_cons_self))
      h.renders.emits
  · exact (Sets.of_emits haccounts h.renders.emits).weaken (fun x hx => hx.resolve_left hline) fun _ => id

/-- Such steps are a row that ends with their last token. -/
lemma exists_endsInRow (h : Opens plain steps u ls Q) (hchain : u.IsChain Token.Precedes) {l : Int}
    (hreads : ReadsBelow l u) : ∃ c, u.getLast? = some c ∧ c.isSynthetic = false ∧ EndsInRow l steps c.pos.line := by
  obtain ⟨t, s, within, rest, rfl, rfl⟩ := h.exists_cons
  have honward := onward_of_isChain hchain h.visible
  have hne : t :: rest ≠ [] := cons_ne_nil t rest
  have hmem := getLast_mem hne
  have hrow : Row t s within := by
    have hline := h.renders.inline.onLine fun v hv => (honward v hv).1
    rw [forall_mem_cons] at hline
    exact ⟨hline.1.noFeed s rfl, hline.2, h.marked⟩
  refine ⟨_, getLast?_eq_some_getLast hne, Token.isSynthetic_of_isVisible (h.visible _ hmem), ?_⟩
  rw [(honward _ hmem).1]
  exact .of_row (hreads t mem_cons_self (Token.isSynthetic_of_isVisible (h.visible t mem_cons_self))) hrow

end Opens

/-! ### Whole lines -/

/-- Steps that begin at the start of a line and end with the end of one. -/
structure Lays (plain : Prop) (steps : List Step) (u : List Token) (ls : List Lexeme) : Prop where
  sets : ∀ done, LineStart done → Sets plain (fun _ => True) done steps u ls fun _ => True
  rows : ∀ l, -1 ≤ l → ReadsBelow l u → Rows l steps (lastLine l u)
  ends : EndsLine u

namespace Lays

lemma silent (hu : ∀ t ∈ u, t.isVisible = false) (hends : EndsLine u) : Lays plain [] u [] where
  sets := fun _ _ => .silent hu
  rows := fun _ _ hreads => .nil (le_lastLine hreads)
  ends := hends

lemma append (h : Lays plain steps u ks) (h' : Lays plain steps' u' ls)
    (hchain : (u ++ u').IsChain Token.Precedes) : Lays plain (steps ++ steps') (u ++ u') (ks ++ ls) where
  sets := fun done hdone => (h.sets done hdone).append (h'.sets _ (lineStart_append h.ends))
  rows := fun l hl hreads => by
    rw [readsBelow_append] at hreads
    have hstart : LineStart u := h.ends.lineStart
    have hfirst := h.rows l hl hreads.1
    rw [lastLine_append]
    exact hfirst.append (h'.rows _ (hl.trans hfirst.le) (readsBelow_lastLine hchain hstart hreads.2))
  ends := h'.ends.append u

end Lays

/-- A statement on a line of its own. -/
lemma Opens.lays {n : Token} (h : Opens plain steps u ls Q) (hn : n.isSynthetic = true)
    (hchain : u.IsChain Token.Precedes) : Lays plain steps (u ++ [n]) ls where
  sets := fun done hdone => by
    have hnewline : Sets plain Q (done ++ u) [] [n] [] Q := .silent (by simp [Token.isVisible, hn])
    simpa using ((h.sets done).append hnewline).weaken (fun _ _ => .inl hdone) fun _ _ => trivial
  rows := fun l _ hreads => by
    obtain ⟨c, hc, hread, hrow⟩ := h.exists_endsInRow hchain (readsBelow_append.1 hreads).1
    have hlast : lastLine c.pos.line [n] = c.pos.line := lastLine_eq_self (by simp [hn])
    rw [lastLine_append, lastLine_of_getLast? hc hread, hlast]
    exact hrow.rows
  ends := ⟨n, by simp, hn⟩

/-! ### Bodies -/

/-- The steps of a body after the header of a construct, on the line of that or not. -/
structure Body (plain : Prop) (inline : Bool) (steps : List Step) (u : List Token) (ls : List Lexeme) : Prop where
  sets : ∀ done, Sets plain Open done steps u ls fun _ => True
  rows : ∀ {l : Int} {before : List Step} {c : Token}, c.isSynthetic = false → -1 ≤ c.pos.line →
    (c :: u).IsChain Token.Precedes → EndsInRow l before c.pos.line →
    OpenRows inline l (before ++ steps) (lastLine c.pos.line u)
  ends : EndsLine u

/-- A statement on the line of the header. -/
lemma Opens.toBody {n : Token} (h : Opens plain steps u ls Q) (hn : n.isSynthetic = true) :
    Body plain true steps (u ++ [n]) ls where
  sets := fun done => by
    have hnewline : Sets plain Q (done ++ u) [] [n] [] Q := .silent (by simp [Token.isVisible, hn])
    simpa using ((h.sets done).append hnewline).weaken (fun _ => .inr) fun _ _ => trivial
  rows := fun {l before c} hc _ hchain hrow => by
    obtain ⟨t, s, within, rest, rfl, rfl⟩ := h.exists_cons
    rw [← cons_append] at hchain
    obtain ⟨hfirst, hrest⟩ := isChain_cons_cons.1 (isChain_append.1 hchain).1
    have hline : ∀ v ∈ t :: rest, v.pos.line = c.pos.line := fun v hv =>
      ((onward_of_isChain hrest h.visible v hv).1).trans (hfirst.onward hc).1
    have hlast : lastLine c.pos.line (t :: rest ++ [n]) = c.pos.line := by
      refine lastLine_eq_self fun v hv hread => ?_
      rcases mem_append.1 hv with hv | hv
      · exact hline v hv
      · rw [mem_singleton.1 hv, hn] at hread
        cases hread
    have hopen := hrow.append (h.renders.inline.onLine hline)
    rw [hlast]
    exact ⟨hopen.rows, fun _ => hopen⟩
  ends := ⟨n, by simp, hn⟩

/-- A statement that does nothing, on the line of the header. -/
lemma body_pass {p n : Token} (hp : p.isVisible = false) (hn : n.isSynthetic = true) :
    Body plain true [] [p, n] [] where
  sets := fun done => by
    have hn' : n.isVisible = false := by simp [Token.isVisible, hn]
    exact (Sets.silent (by simp [hp, hn'])).ended
  rows := fun {l before c} hc _ hchain hrow => by
    have hlast : lastLine c.pos.line [p, n] = c.pos.line := by
      refine lastLine_eq_self fun v hv hread => ?_
      rcases mem_cons.1 hv with rfl | hv
      · exact ((isChain_cons_cons.1 hchain).1.onward hc).1
      · rw [mem_singleton.1 hv, hn] at hread
        cases hread
    rw [append_nil, hlast]
    exact ⟨hrow.rows, fun _ => hrow⟩
  ends := ⟨n, rfl, hn⟩

/-- Lines below the line of the header. -/
lemma Lays.toBody (h : Lays plain steps u' ls) (hu : ∀ t ∈ u, t.isSynthetic = true) (hne : u ≠ []) :
    Body plain false steps (u ++ u') ls where
  sets := fun done => by
    have hsilent : Sets plain Open done [] u [] Open := .silent fun t ht => by simp [Token.isVisible, hu t ht]
    have hstart : LineStart (done ++ u) :=
      lineStart_append ⟨_, getLast?_eq_some_getLast hne, hu _ (getLast_mem hne)⟩
    exact hsilent.append ((h.sets _ hstart).weaken (fun _ _ => trivial) fun _ => id)
  rows := fun {l before c} hc hl hchain hrow => by
    have hnone : u.filter (fun t => !t.isSynthetic) = [] := by
      rw [filter_eq_nil_iff]
      intro t ht
      simp [hu t ht]
    have hlast : lastRead (c :: u) = some c := by simp [lastRead, hc, hnone]
    have hstart : LineStart ([c] ++ u) :=
      lineStart_append ⟨_, getLast?_eq_some_getLast hne, hu _ (getLast_mem hne)⟩
    have hline : lastLine c.pos.line u = c.pos.line :=
      lastLine_eq_self fun t ht hread => absurd (hread.symm.trans (hu t ht)) Bool.false_ne_true
    rw [← cons_append] at hchain
    rw [lastLine_append, hline]
    refine ⟨hrow.rows.append (h.rows _ hl (readsBelow_of_lastRead hchain hstart hlast)), ?_⟩
    exact fun heq => absurd heq Bool.false_ne_true
  ends := h.ends.append u

/-! ### Constructs -/

/-- The steps of a construct up to the keyword that closes it, which ends with the given body. -/
structure OpenPart (plain : Prop) (inline : Bool) (body : List Token) (steps : List Step) (u : List Token)
    (ls : List Lexeme) : Prop where
  sets : ∀ done, Sets plain (Begins done) done steps u ls fun _ => True
  rows : ∀ l, -1 ≤ l → ReadsBelow l u → OpenRows inline l steps (lastLine l u)
  leads : ∀ t ∈ u.head?, t.isVisible = true
  tail : body <:+ u
  ends : EndsLine u

variable {inline inline' : Bool} {body' : List Token}

/-- A header and a body. -/
lemma Opens.append_body (h : Opens plain steps u ks Open) (hbody : Body plain inline steps' u' ls)
    (hchain : (u ++ u').IsChain Token.Precedes) :
    OpenPart plain inline u' (steps ++ steps') (u ++ u') (ks ++ ls) where
  sets := fun done => (h.sets done).append (hbody.sets _)
  rows := fun l hl hreads => by
    have hreads := (readsBelow_append.1 hreads).1
    obtain ⟨c, hc, hread, hrow⟩ := h.exists_endsInRow (isChain_append.1 hchain).1 hreads
    have hline : l < c.pos.line := hreads c (mem_of_getLast? hc) hread
    rw [lastLine_append, lastLine_of_getLast? hc hread]
    obtain ⟨before, rfl⟩ := getLast?_eq_some_iff.1 hc
    have hlast : (c :: u').IsChain Token.Precedes := hchain.infix ⟨before, [], by simp⟩
    exact hbody.rows hread (by omega) hlast hrow
  leads := by
    obtain ⟨t, s, within, rest, rfl, rfl⟩ := h.exists_cons
    rintro _ ⟨⟩
    exact h.visible t mem_cons_self
  tail := suffix_append _ _
  ends := hbody.ends.append u

/-- A construct with an alternative to its body. -/
lemma OpenPart.append (h : OpenPart plain inline body steps u ks) (h' : OpenPart plain inline' body' steps' u' ls)
    (hchain : (u ++ u').IsChain Token.Precedes) :
    OpenPart plain inline' body' (steps ++ steps') (u ++ u') (ks ++ ls) where
  sets := fun done => (h.sets done).append
    ((h'.sets _).weaken (fun _ _ => .inl (lineStart_append h.ends)) fun _ => id)
  rows := fun l hl hreads => by
    rw [readsBelow_append] at hreads
    have hstart : LineStart u := h.ends.lineStart
    have hfirst := (h.rows l hl hreads.1).rows
    rw [lastLine_append]
    exact (h'.rows _ (hl.trans hfirst.le) (readsBelow_lastLine hchain hstart hreads.2)).prepend hfirst
  leads := by
    obtain ⟨t, rest, rfl⟩ := exists_cons_of_ne_nil h.ends.ne_nil
    exact h.leads
  tail := h'.tail.trans (suffix_append _ _)
  ends := h'.ends.append u

/-- A construct with the keyword that closes it. -/
lemma OpenPart.lays (h : OpenPart plain inline body steps (t :: u) ls) (hst : IsClosing inline t body st) :
    Lays plain (steps ++ [st]) (t :: u) (ls ++ [mark "end"]) where
  sets := fun done hdone => by
    have hclosing : Sets plain (fun _ => True) (done ++ t :: u) [st] [] [mark "end"] fun _ => True :=
      hst.sets rfl hdone (h.leads t rfl) (lineStart_append h.ends) (h.tail.trans (suffix_append _ _))
    simpa using ((h.sets done).weaken (fun _ _ => .inl hdone) fun _ => id).append hclosing
  rows := fun l hl hreads => (h.rows l hl hreads).rows_closing hst h.tail hl hreads
  ends := h.ends

end Lunify
