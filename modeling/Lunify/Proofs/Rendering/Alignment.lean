import Lunify.Proofs.Rendering.Accounts

/-!
# Accounts keep the output aligned

`Stands` is what is known of the cursor between two steps: where it stands in the output, how far the
current line runs ahead, and that what comes next in the source is not behind it. There is one lemma for
each kind of step, and `Accounts.goes` takes them along a whole list of steps.
-/

namespace Lunify

open List

variable {st : Step}

/-- Whether a token of the source can come next: it is not behind the cursor, and if it goes on on the
line of the cursor, there is a token on that line, or nothing has happened yet. -/
def Awaits (entries : List Posting) (c : Cursor) (t : Token) : Prop :=
  c.line ≤ t.pos.line + c.shift ∧ (c.line = t.pos.line + c.shift →
    c.column ≤ t.pos.column + c.delta ∧
      ((∃ e ∈ entries, e.line = c.line ∧ e.token?.isSome = true) ∨ c.text = [] ∧ entries = []))

/-- The cursor between steps that have gone through the tokens `done` and have the tokens `rest` before
them. -/
structure Stands (entries : List Posting) (closes : Int) (c : Cursor) (done rest : List Token) :
    Prop where
  fits : c.Fits
  shift : c.shift = closes
  delta : c.delta = lead entries c.line
  /-- Nothing stands below the cursor. -/
  below : ∀ e ∈ entries, e.line ≤ c.line
  next : ∀ t ∈ rest.head?, t.isSynthetic = false → Awaits entries c t
  last : ∀ t, lastRead done = some t → c.line ≤ t.pos.line + c.shift
  fresh : lastRead done = none → c = Cursor.start ∧ entries = []
  /-- In the middle of a line the cursor is on that line, which begins with a token. -/
  middle : ∀ t, done.getLast? = some t → t.isVisible = true → c.line = t.pos.line + c.shift ∧
    ∃ e ∈ entries, e.line = c.line ∧ e.token?.isSome = true
  /-- What began a line stands in its own column. -/
  openers : ∀ before t after, done = before ++ t :: after → LineStart before → t.isVisible = true →
    ∃ e ∈ entries, e.token? = some t ∧ e.column = t.pos.column

namespace Cursor

variable {c c₁ : Cursor} {p : Position} {s : Text} {delta : Int}

lemma Reaches.advance_eq (h : Reaches c c₁ p delta) : c₁.advance p = c₁ := by
  have hdown : c₁.downTo (p.line + c₁.shift) = c₁ := by
    rw [downTo, if_pos (by rw [h.line, h.shift])]
  have hright : c₁.rightTo (p.column + c₁.delta) = c₁ := by
    rw [rightTo, if_pos (by rw [h.column, h.delta])]
  rw [advance, hdown, hright]

/-- What is known after writing a text in place of `width` columns at a place of the source. -/
structure Puts (c c₁ c' : Cursor) (p : Position) (s : Text) (width : Int) : Prop where
  fits : c'.Fits
  line : c'.line = p.line + c.shift
  shift : c'.shift = c.shift
  text : c'.text = c₁.text ++ c₁.glue s ++ s
  start : c'.column - s.length = c₁.column + (c₁.glue s).length
  delta : c'.delta = c₁.delta + (c'.column - c₁.column - width)
  column : c'.column = p.column + width + c'.delta

lemma Reaches.puts (h : Reaches c c₁ p delta) (hs : byte '\n' ∉ s) (width : Int) :
    Puts c c₁ (c₁.replace s width) p s width := by
  obtain ⟨hfits, htext, hcolumn, hline, hshift, hdelta⟩ := replace_spec h.fits hs width
  refine ⟨hfits, hline.trans h.line, hshift.trans h.shift, htext, by omega, hdelta, ?_⟩
  rw [hdelta, h.delta, h.column]
  omega

/-- No blank is written at the start of a line. -/
lemma Reaches.glue_eq_nil (h : Reaches c c₁ p delta) (hc : c.Fits)
    (hline : c.line < p.line + c.shift ∨ c.text = []) (s : Text) : c₁.glue s = [] := by
  rw [glue, if_neg]
  rw [Bool.not_eq_true]
  by_cases htext : c₁.text = c.text
  · rcases hline with hlt | hnil
    · have hplace := h.fits
      rw [Fits, htext, hc] at hplace
      have heq : c.line = c₁.line := congrArg Position.line hplace
      rw [h.line] at heq
      omega
    · have hwritten : c₁.written = [] := by
        rw [hnil] at htext
        exact reverse_eq_nil_iff.1 htext
      simp [needsBlank, hwritten]
  · exact needsBlank_of_pads h.pads htext s

end Cursor

/-- Tokens that stand in a text one after the other. -/
structure InOrder (tokens : List Token) : Prop where
  chain : tokens.IsChain Token.Precedes
  placed : ∀ t ∈ tokens, t.Placed

/-- Whether what began a line among the given tokens stands in its own column. -/
def Opened (entries : List Posting) (done : List Token) : Prop :=
  ∀ before t after, done = before ++ t :: after → LineStart before → t.isVisible = true →
    ∃ e ∈ entries, e.token? = some t ∧ e.column = t.pos.column

/-- A step that is aligned and leads to a cursor after the tokens `done` and before the tokens `rest`. -/
def Steps (entries : List Posting) (closes : Int) (c : Cursor) (st : Step) (done rest : List Token) : Prop :=
  ∃ c', c.step st = .ok c' ∧ Aligned entries closes c st c' ∧
    Stands (entries ++ postingsOf c c' st) (if st.isClose then closes + 1 else closes) c' done rest

namespace Stands

variable {entries entries' : List Posting} {closes closes' : Int} {c c' : Cursor} {done rest : List Token}
  {t u : Token} {s : Text}

/-- The cursor has no column to make up for on a line below it. -/
lemma lead_below (h : Stands entries closes c done rest) {line : Int} (hlt : c.line < line + c.shift) :
    lead entries (line + closes) = 0 := by
  refine lead_eq_zero fun e he => ?_
  have hbelow := h.below e he
  rw [h.shift] at hlt
  omega

/-- The cursor moves to a token that comes next. -/
lemma reaches (h : Stands entries closes c done (t :: rest)) (ht : t.isSynthetic = false)
    (hcolumn : 0 ≤ t.pos.column) :
    Cursor.Reaches c (c.advance t.pos) t.pos (lead entries (t.pos.line + closes)) := by
  obtain ⟨hle, heq⟩ := h.next t rfl ht
  by_cases hline : c.line = t.pos.line + c.shift
  · have hreaches := Cursor.reaches_of_eq h.fits hline (heq hline).1
    rwa [h.delta, hline, h.shift] at hreaches
  · have hlt : c.line < t.pos.line + c.shift := by omega
    rw [h.lead_below hlt]
    exact Cursor.reaches_of_lt h.fits hlt hcolumn

/-- At the start of a line, the next token is on a later line, or it is the first one. -/
lemma lt_or_fresh (h : Stands entries closes c done rest) (hstart : LineStart done)
    (hchain : (done ++ [t]).IsChain Token.Precedes) :
    c.line < t.pos.line + c.shift ∨ c = Cursor.start ∧ entries = [] := by
  cases hlast : lastRead done with
  | none => exact .inr (h.fresh hlast)
  | some a =>
    have hle := h.last a hlast
    have hlt := line_lt_of_lineStart hchain hstart hlast
    exact .inl (by omega)

/-- A token on a new line stands in its own column. -/
lemma unled (h : Stands entries closes c done (t :: rest)) (ht : t.isSynthetic = false)
    (hcolumn : 0 ≤ t.pos.column) (hnew : c.line < t.pos.line + c.shift ∨ c.text = [] ∧ entries = []) (s : Text) :
    (c.advance t.pos).glue s = [] ∧ lead entries (t.pos.line + closes) = 0 := by
  refine ⟨(h.reaches ht hcolumn).glue_eq_nil h.fits (hnew.imp_right And.left) s, ?_⟩
  rcases hnew with hlt | ⟨-, rfl⟩
  · exact h.lead_below hlt
  · rfl

/-- The first token on a line, which stands in its own column, or a later one. -/
lemma first (h : Stands entries closes c done (t :: rest)) (ht : t.isSynthetic = false)
    (hcolumn : 0 ≤ t.pos.column) (s : Text) :
    (∃ e ∈ entries, e.line = t.pos.line + closes ∧ e.token?.isSome = true) ∨
      (c.advance t.pos).glue s = [] ∧ lead entries (t.pos.line + closes) = 0 := by
  obtain ⟨hle, heq⟩ := h.next t rfl ht
  by_cases hline : c.line = t.pos.line + c.shift
  · rcases (heq hline).2 with ⟨e, he, heline, htoken⟩ | hfresh
    · exact .inl ⟨e, he, by rw [heline, hline, h.shift], htoken⟩
    · exact .inr (h.unled ht hcolumn (.inr hfresh) s)
  · exact .inr (h.unled ht hcolumn (.inl (by omega)) s)

/-- In the middle of a line, the next token is on the line of the cursor. -/
lemma line_eq (h : Stands entries closes c done (t :: rest)) (hmiddle : MidLine done)
    (hchain : (done ++ t :: rest).IsChain Token.Precedes) :
    c.line = t.pos.line + c.shift ∧
      ∃ e ∈ entries, e.line = t.pos.line + closes ∧ e.token?.isSome = true := by
  obtain ⟨a, ha, hvisible⟩ := hmiddle
  obtain ⟨hline, e, he, heline, htoken⟩ := h.middle a ha hvisible
  have hprecedes : a.Precedes t := (isChain_append.1 hchain).2.2 a ha t rfl
  have hsame := (hprecedes.onLine (Token.isSynthetic_of_isVisible hvisible)).1
  have hline' : c.line = t.pos.line + c.shift := by omega
  exact ⟨hline', e, he, by rw [heline, hline', h.shift], htoken⟩

/-- What began a line, among more tokens. -/
lemma openers_append (h : Stands entries closes c done rest) {new : List Token} (hsubset : entries ⊆ entries')
    (hnew : ∀ before t after, new = before ++ t :: after → LineStart (done ++ before) →
      t.isVisible = true → ∃ e ∈ entries', e.token? = some t ∧ e.column = t.pos.column) :
    Opened entries' (done ++ new) := by
  intro before t after heq hstart ht
  rcases append_eq_append_iff.1 heq with ⟨as, rfl, hnew'⟩ | ⟨bs, rfl, hafter⟩
  · exact hnew as t after hnew' hstart ht
  · cases bs with
    | nil => exact hnew [] t after (by simpa using hafter.symm) (by simpa using hstart) ht
    | cons b bs =>
      obtain ⟨rfl, -⟩ := List.cons.inj hafter
      obtain ⟨e, he, hspec⟩ := h.openers before t bs rfl hstart ht
      exact ⟨e, hsubset he, hspec⟩

lemma openers_mono (h : Stands entries closes c done rest) (hsubset : entries ⊆ entries') :
    Opened entries' done := by
  intro before t after heq hstart ht
  obtain ⟨e, he, hspec⟩ := h.openers before t after heq hstart ht
  exact ⟨e, hsubset he, hspec⟩

lemma isChain_append_head (h : (done ++ rest).IsChain Token.Precedes) (hu : u ∈ rest.head?) :
    (done ++ [u]).IsChain Token.Precedes := by
  obtain ⟨rest, rfl⟩ := head?_eq_some_iff.1 hu
  exact h.prefix ⟨rest, by simp⟩

lemma eq_of_singleton {before after : List Token} (h : [t] = before ++ u :: after) :
    before = [] ∧ u = t := by
  cases before with
  | nil => exact ⟨rfl, (List.cons.inj h).1.symm⟩
  | cons v before => simp at h

/-- No line begins after a visible token. -/
lemma not_lineStart_append {new : List Token} (hmiddle : MidLine done)
    (hnew : ∀ u ∈ new, u.isVisible = true) : ¬ LineStart (done ++ new) := by
  obtain ⟨a, ha, hvisible⟩ : MidLine (done ++ new) := by
    rcases eq_nil_or_concat new with rfl | ⟨new, v, rfl⟩
    · rwa [append_nil]
    · exact ⟨v, by simp, hnew v (by simp)⟩
  intro hstart
  exact absurd ((Token.isSynthetic_of_isVisible hvisible).symm.trans (hstart a ha)) Bool.false_ne_true

/-! ### Where the cursor stands -/

/-- Before anything is read from the text, a run is at its start. -/
lemma of_fresh (hdone : lastRead done = none) (hrest : ∀ t ∈ rest.head?, t.Placed) :
    Stands [] 0 Cursor.start done rest := by
  have hinvisible : ∀ t ∈ done, t.isVisible ≠ true := by
    intro t ht hvisible
    obtain ⟨u, hu⟩ := exists_lastRead ht (Token.isSynthetic_of_isVisible hvisible)
    exact absurd (hdone.symm.trans hu) nofun
  refine ⟨Cursor.fits_start, rfl, rfl, by simp, fun t ht _ => ?_, by simp [hdone], fun _ => ⟨rfl, rfl⟩, ?_, ?_⟩
  · have hplaced := hrest t ht
    refine ⟨?_, fun _ => ⟨?_, .inr ⟨rfl, rfl⟩⟩⟩
    · simpa [Cursor.start] using hplaced.line
    · simpa [Cursor.start] using hplaced.column
  · exact fun t ht hvisible => absurd hvisible (hinvisible t (mem_of_getLast? ht))
  · exact fun before t after heq _ hvisible => absurd hvisible (hinvisible t (by simp [heq]))

/-- In the middle of a line, all that has to be known of what comes next is its column. -/
lemma of_visible (hlast : done.getLast? = some t) (ht : t.isVisible = true)
    (hchain : (done ++ rest).IsChain Token.Precedes) (hfits : c.Fits) (hshift : c.shift = closes)
    (hdelta : c.delta = lead entries c.line) (hbelow : ∀ e ∈ entries, e.line ≤ c.line)
    (hline : c.line = t.pos.line + c.shift) (htoken : ∃ e ∈ entries, e.line = c.line ∧ e.token?.isSome = true)
    (hnext : ∀ u ∈ rest.head?, u.isSynthetic = false → t.Precedes u → c.column ≤ u.pos.column + c.delta)
    (hopeners : Opened entries done) : Stands entries closes c done rest := by
  have hread := Token.isSynthetic_of_isVisible ht
  have hlastRead : lastRead done = some t := by
    obtain ⟨before, rfl⟩ := getLast?_eq_some_iff.1 hlast
    exact lastRead_append_read hread
  refine ⟨hfits, hshift, hdelta, hbelow, ?_, ?_, ?_, ?_, hopeners⟩
  · intro u hu hu'
    have hprecedes : t.Precedes u := (isChain_append.1 hchain).2.2 t hlast u hu
    have hsame := (hprecedes.onward hread).1
    exact ⟨by omega, fun _ => ⟨hnext u hu hu' hprecedes, .inl htoken⟩⟩
  · intro u hu
    obtain rfl := Option.some.inj (hlastRead.symm.trans hu)
    exact hline.le
  · exact fun hnone => absurd (hlastRead.symm.trans hnone) nofun
  · intro u hu _
    obtain rfl := Option.some.inj (hlast.symm.trans hu)
    exact ⟨hline, htoken⟩

/-- At the start of a line, whatever comes next is on a later one. -/
lemma of_lineStart (hstart : LineStart done) (hlast : lastRead done = some t)
    (hchain : (done ++ rest).IsChain Token.Precedes) (hfits : c.Fits) (hshift : c.shift = closes)
    (hdelta : c.delta = lead entries c.line) (hbelow : ∀ e ∈ entries, e.line ≤ c.line)
    (hline : c.line ≤ t.pos.line + c.shift) (hopeners : Opened entries done) :
    Stands entries closes c done rest := by
  refine ⟨hfits, hshift, hdelta, hbelow, ?_, ?_, ?_, ?_, hopeners⟩
  · intro u hu _
    have hlt := line_lt_of_lineStart (isChain_append_head hchain hu) hstart hlast
    exact ⟨by omega, fun heq => absurd heq (by omega)⟩
  · intro u hu
    obtain rfl := Option.some.inj (hlast.symm.trans hu)
    exact hline
  · exact fun hnone => absurd (hlast.symm.trans hnone) nofun
  · intro u hu hvisible
    exact absurd ((Token.isSynthetic_of_isVisible hvisible).symm.trans (hstart u hu)) Bool.false_ne_true

/-! ### One lemma for each kind of step -/

/-- What a step puts on its line is in the ledger. -/
lemma posted (h : Stands entries closes c done rest) (c' : Cursor) (st : Step)
    (hclose : st.isClose = false) (hline : c.line ≤ c'.line)
    (hdelta : c'.delta = lead entries c'.line + (c'.column - (c.reach st).column - st.sourceWidth)) :
    c'.delta = lead (entries ++ postingsOf c c' st) c'.line ∧
      ∀ e ∈ entries ++ postingsOf c c' st, e.line ≤ c'.line := by
  simp only [postingsOf, hclose, Bool.false_eq_true, if_false]
  constructor
  · rw [hdelta]
    exact (lead_append_singleton entries ⟨c'.line, _, _, _, _⟩).symm
  · intro e he
    rcases mem_append.1 he with he | he
    · have hbelow := h.below e he
      omega
    · rw [mem_singleton.1 he]

/-- A token that does not show is passed over. -/
lemma silent (h : Stands entries closes c done (t :: rest)) (ht : t.isVisible = false)
    (horder : InOrder (done ++ t :: rest)) : Stands entries closes c (done ++ [t]) rest := by
  have hopeners : Opened entries (done ++ [t]) := by
    refine h.openers_append (List.Subset.refl _) fun before u after heq _ hvisible => ?_
    obtain ⟨-, rfl⟩ := eq_of_singleton heq
    exact absurd (ht.symm.trans hvisible) Bool.false_ne_true
  cases hsynthetic : t.isSynthetic with
  | true =>
    have hlast : lastRead (done ++ [t]) = lastRead done := lastRead_append_synthetic hsynthetic
    cases hread : lastRead done with
    | none =>
      obtain ⟨rfl, rfl⟩ := h.fresh hread
      obtain rfl : 0 = closes := h.shift
      exact of_fresh (hlast.trans hread) fun u hu => horder.placed u (by simp [mem_of_mem_head? hu])
    | some a =>
      exact of_lineStart (lineStart_append ⟨t, rfl, hsynthetic⟩) (hlast.trans hread) (by simpa using horder.chain)
        h.fits h.shift h.delta h.below (h.last a hread) hopeners
  | false =>
    obtain ⟨hle, heq⟩ := h.next t rfl hsynthetic
    have hlast : lastRead (done ++ [t]) = some t := lastRead_append_read hsynthetic
    refine ⟨h.fits, h.shift, h.delta, h.below, ?_, ?_, by simp [hlast], by simp [ht], hopeners⟩
    · intro u hu _
      have hprecedes : t.Precedes u := (isChain_cons.1 (isChain_append.1 horder.chain).2.1).1 u hu
      obtain ⟨hsame, hfinish⟩ := hprecedes.onward hsynthetic
      refine ⟨by omega, fun hline => ?_⟩
      obtain ⟨hbound, htoken⟩ := heq (by omega)
      exact ⟨by omega, htoken⟩
    · intro u hu
      obtain rfl := Option.some.inj (hlast.symm.trans hu)
      exact hle

/-- A move leads to the place that belongs to the token that comes next. -/
lemma moves (h : Stands entries closes c done (t :: rest)) (ht : t.isSynthetic = false)
    (hcolumn : 0 ≤ t.pos.column) (htarget : st.target? = some t.pos) {p : Position} (hp : st.target? = some p) :
    c.IsAhead p ∧
      (c.reach st).text.place = ⟨p.line + closes, p.column + lead entries (p.line + closes)⟩ := by
  obtain rfl : t.pos = p := Option.some.inj (htarget.symm.trans hp)
  have hreaches := h.reaches ht hcolumn
  obtain ⟨hle, heq⟩ := h.next t rfl ht
  have hreach : c.reach st = c.advance t.pos := by rw [Cursor.reach, htarget]
  rw [hreach]
  exact ⟨⟨hle, fun hline => (heq hline).1⟩,
    hreaches.fits.trans (by rw [hreaches.line, hreaches.column, h.shift])⟩

/-- A token is written. -/
lemma token (h : Stands entries closes c done (t :: rest)) (ht : t.isVisible = true) (hs : byte '\n' ∉ s)
    (hchain : (done ++ t :: rest).IsChain Token.Precedes) (hcolumn : 0 ≤ t.pos.column) :
    Steps entries closes c (.token t s) (done ++ [t]) rest := by
  have hread := Token.isSynthetic_of_isVisible ht
  have hreaches := h.reaches hread hcolumn
  have hputs := hreaches.puts hs t.content.length
  set c₁ := c.advance t.pos with hc₁
  set c' := c₁.replace s t.content.length with hc'
  obtain ⟨hdelta, hbelow⟩ := h.posted c' (.token t s) rfl (by rw [hputs.line]; exact (h.next t rfl hread).1) (by
    rw [hputs.delta, hreaches.delta, hputs.line, h.shift]
    rfl)
  -- The posting of this token is the first one on a new line.
  obtain ⟨e, he, heline, hesome, hetoken, hecolumn⟩ : ∃ e ∈ entries ++ postingsOf c c' (.token t s),
      e.line = c'.line ∧ e.token?.isSome = true ∧ e.token? = some t ∧ e.column = c₁.column + (c₁.glue s).length :=
    ⟨_, mem_append_right _ (mem_singleton_self _), rfl, rfl, rfl, hputs.start⟩
  refine ⟨c', rfl, ⟨h.fits, h.shift, h.delta, fun p hp => (h.moves hread hcolumn rfl hp).1,
    fun p hp => (h.moves hread hcolumn rfl hp).2, ?_, by simp, ?_, fun _ _ hne => absurd rfl (hne t s), by simp⟩, ?_⟩
  · rintro _ _ ⟨⟩
    exact hputs.text
  · rintro _ _ ⟨⟩
    exact h.first hread hcolumn s
  · refine of_visible getLast?_concat ht (by simpa using hchain) hputs.fits (hputs.shift.trans h.shift) hdelta
      hbelow (by rw [hputs.line, hputs.shift]) ⟨e, he, heline, hesome⟩ (fun u _ _ hprecedes => ?_) ?_
    · have hfinish := (hprecedes.onward hread).2
      have hend := hputs.column
      omega
    · refine h.openers_append (subset_append_left _ _) fun before u after heq hstart _ => ?_
      obtain ⟨rfl, rfl⟩ := eq_of_singleton heq
      rw [append_nil] at hstart
      have hnew := (h.lt_or_fresh hstart (isChain_append_head hchain rfl)).imp_right
        (And.imp_left fun hc => (congrArg Cursor.text hc : c.text = []))
      obtain ⟨hglue, hlead⟩ := h.unled hread hcolumn hnew s
      refine ⟨e, he, hetoken, ?_⟩
      rw [hecolumn, hglue, hreaches.column, hlead]
      simp

/-- A move within a line. -/
lemma aligned_within (h : Stands entries closes c done (t :: rest)) (hmiddle : MidLine done)
    (ht : t.isVisible = true) (hchain : (done ++ t :: rest).IsChain Token.Precedes)
    (hcolumn : 0 ≤ t.pos.column) (htarget : st.target? = some t.pos) (htoken : ∀ u s, st ≠ .token u s)
    (hclose : ∀ opener last, st ≠ .close opener last)
    (hkeyword : ∀ u s, st = .keyword u s → c'.text = (c.reach st).text ++ (c.reach st).space ++ s) :
    Aligned entries closes c st c' := by
  have hread := Token.isSynthetic_of_isVisible ht
  refine ⟨h.fits, h.shift, h.delta, fun p hp => (h.moves hread hcolumn htarget hp).1,
    fun p hp => (h.moves hread hcolumn htarget hp).2, fun u s heq => absurd heq (htoken u s), hkeyword,
    fun u s heq => absurd heq (htoken u s), ?_, fun opener last heq => absurd heq (hclose opener last)⟩
  intro p hp _
  obtain rfl : t.pos = p := Option.some.inj (htarget.symm.trans hp)
  exact (h.line_eq hmiddle hchain).2

/-- A step that does not move. -/
lemma aligned_still (h : Stands entries closes c done rest) (htarget : st.target? = none)
    (hclose : st.isClose = false) (c' : Cursor) : Aligned entries closes c st c' := by
  cases st with
  | insert | drop | fail =>
    refine ⟨h.fits, h.shift, h.delta, ?_, ?_, ?_, ?_, ?_, ?_, ?_⟩ <;> simp [Step.target?]
  | close => cases hclose
  | _ => cases htarget

/-- What is known of a step within a line that is no closing keyword. -/
structure Within (c : Cursor) (st : Step) (c' : Cursor) : Prop where
  isClose : st.isClose = false
  fits : c'.Fits
  line : c'.line = c.line
  shift : c'.shift = c.shift
  delta : c'.delta = c.delta + (c'.column - (c.reach st).column - st.sourceWidth)

/-- A text that is written in the middle of a line at the place of a token. -/
lemma within_of_puts (h : Stands entries closes c done (t :: rest)) (hmiddle : MidLine done)
    (ht : t.isVisible = true) (hchain : (done ++ t :: rest).IsChain Token.Precedes) (hcolumn : 0 ≤ t.pos.column)
    (hst : st.isClose = false) (htarget : st.target? = some t.pos)
    (hputs : Cursor.Puts c (c.advance t.pos) c' t.pos s st.sourceWidth) : Within c st c' := by
  have hline := (h.line_eq hmiddle hchain).1
  have hreaches := h.reaches (Token.isSynthetic_of_isVisible ht) hcolumn
  refine ⟨hst, hputs.fits, hputs.line.trans hline.symm, hputs.shift, ?_⟩
  rw [hputs.delta, hreaches.delta, h.delta, hline, h.shift, Cursor.reach, htarget]

/-- A step within a line that no token is read for. -/
lemma hold (h : Stands entries closes c done rest) (hmiddle : MidLine done)
    (hchain : (done ++ rest).IsChain Token.Precedes) (hstep : Within c st c')
    (hnext : ∀ u ∈ rest.head?, u.isSynthetic = false → c.line = u.pos.line + c.shift →
      c'.column ≤ u.pos.column + c'.delta) :
    Stands (entries ++ postingsOf c c' st) closes c' done rest := by
  obtain ⟨a, ha, hvisible⟩ := hmiddle
  obtain ⟨hline, e, he, heline, htoken⟩ := h.middle a ha hvisible
  obtain ⟨hdelta, hbelow⟩ := h.posted c' st hstep.isClose hstep.line.ge (by rw [hstep.delta, h.delta, hstep.line])
  refine of_visible ha hvisible hchain hstep.fits (hstep.shift.trans h.shift) hdelta hbelow
    (by rw [hstep.line, hline, hstep.shift]) ⟨e, mem_append_left _ he, heline.trans hstep.line.symm, htoken⟩
    (fun u hu hread hprecedes => hnext u hu hread ?_) (h.openers_mono (subset_append_left _ _))
  rw [(hprecedes.onward (Token.isSynthetic_of_isVisible hvisible)).1, hline]

/-- A step within a line in place of the tokens `new`, of which the last one ends where the cursor stands. -/
lemma past (new : List Token) {last : Token} (h : Stands entries closes c done (new ++ [last] ++ rest))
    (hmiddle : MidLine done) (hvisible : ∀ u ∈ new ++ [last], u.isVisible = true)
    (hchain : (done ++ (new ++ [last] ++ rest)).IsChain Token.Precedes) (hstep : Within c st c')
    (hcolumn : c'.column ≤ last.pos.column + last.content.length + c'.delta) :
    Stands (entries ++ postingsOf c c' st) closes c' (done ++ (new ++ [last])) rest := by
  obtain ⟨first, tokens, hcons⟩ : ∃ first tokens, new ++ [last] = first :: tokens :=
    exists_cons_of_ne_nil (by simp)
  have hrest : new ++ [last] ++ rest = first :: (tokens ++ rest) := by rw [hcons, cons_append]
  obtain ⟨hline, e, he, heline, htoken⟩ := (hrest ▸ h).line_eq hmiddle (hrest ▸ hchain)
  have hsame : last.pos.line = first.pos.line := by
    refine (onward_of_isChain ?_ (hcons ▸ hvisible) last (by simp [← hcons])).1
    exact hcons ▸ (isChain_append.1 (isChain_append.1 hchain).2.1).1
  obtain ⟨hdelta, hbelow⟩ := h.posted c' st hstep.isClose hstep.line.ge (by rw [hstep.delta, h.delta, hstep.line])
  refine of_visible (t := last) (by simp) (hvisible last (by simp)) (by simpa using hchain) hstep.fits
    (hstep.shift.trans h.shift) hdelta hbelow (by rw [hstep.line, hline, hsame, hstep.shift])
    ⟨e, mem_append_left _ he, by rw [heline, hstep.line, hline, h.shift], htoken⟩ (fun u _ _ hprecedes => ?_) ?_
  · have hfinish := (hprecedes.onward (Token.isSynthetic_of_isVisible (hvisible last (by simp)))).2
    omega
  · refine h.openers_append (subset_append_left _ _) fun before u after heq hstart _ => ?_
    refine absurd hstart (not_lineStart_append hmiddle fun v hv => hvisible v ?_)
    rw [heq]
    exact mem_append_left _ hv

/-- A colon is written as a keyword. -/
lemma keyword (h : Stands entries closes c done (t :: rest)) (hmiddle : MidLine done)
    (ht : t.isVisible = true) (hs : byte '\n' ∉ s)
    (hchain : (done ++ t :: rest).IsChain Token.Precedes) (hcolumn : 0 ≤ t.pos.column) :
    Steps entries closes c (.keyword t s) (done ++ [t]) rest := by
  have hreaches := h.reaches (Token.isSynthetic_of_isVisible ht) hcolumn
  set c₁ := c.advance t.pos with hc₁
  set word := if c₁.last = byte ' ' then s else byte ' ' :: s with hword
  have hfeed : byte '\n' ∉ word := by
    rw [hword]
    split
    · exact hs
    · rw [mem_cons, not_or]
      exact ⟨by decide, hs⟩
  have hputs := hreaches.puts hfeed t.content.length
  have hstep : c.step (.keyword t s) = .ok (c₁.replace word t.content.length) := by
    change Except.ok (c₁.token t word) = _
    rw [Cursor.token, hreaches.advance_eq]
  refine ⟨_, hstep, h.aligned_within hmiddle ht hchain hcolumn rfl (by simp) (by simp) ?_, ?_⟩
  · rintro _ _ ⟨⟩
    exact hputs.text.trans (Cursor.glue_append_word c₁ s)
  · exact past [] h hmiddle (by simpa using ht) hchain (h.within_of_puts hmiddle ht hchain hcolumn rfl rfl hputs)
      hputs.column.le

/-- A token is left out. -/
lemma drop (h : Stands entries closes c done (t :: rest)) (hmiddle : MidLine done)
    (ht : t.isVisible = true) (hchain : (done ++ t :: rest).IsChain Token.Precedes) :
    Steps entries closes c (.drop t) (done ++ [t]) rest := by
  have hline := (h.line_eq hmiddle hchain).1
  have hcolumn := ((h.next t rfl (Token.isSynthetic_of_isVisible ht)).2 hline).1
  have hstep : c.step (.drop t) = .ok { c with delta := c.delta - t.content.length } := by
    rw [Cursor.step, if_pos hline.symm]
  refine ⟨_, hstep, h.aligned_still rfl rfl _, past [] h hmiddle (by simpa using ht) hchain ⟨rfl, h.fits, rfl, rfl, ?_⟩ ?_⟩
  · simp only [Cursor.reach, Step.target?, Step.sourceWidth]
    omega
  · simp only
    omega

/-- A text is written before a token. -/
lemma before (h : Stands entries closes c done (t :: rest)) (hmiddle : MidLine done)
    (ht : t.isVisible = true) (hs : byte '\n' ∉ s)
    (hchain : (done ++ t :: rest).IsChain Token.Precedes) (hcolumn : 0 ≤ t.pos.column) :
    Steps entries closes c (.before t s) done (t :: rest) := by
  have hputs := (h.reaches (Token.isSynthetic_of_isVisible ht) hcolumn).puts hs 0
  refine ⟨_, rfl, h.aligned_within hmiddle ht hchain hcolumn rfl (by simp) (by simp) (by simp),
    h.hold hmiddle hchain (h.within_of_puts hmiddle ht hchain hcolumn rfl rfl hputs) ?_⟩
  rintro _ ⟨⟩ _ _
  have hend := hputs.column
  omega

/-- A text is written where the cursor stands. -/
lemma insert (h : Stands entries closes c done rest)
    (hdone : MidLine done ∨ LineStart done ∧ ∃ u ∈ done, u.isVisible = true)
    (hs : byte '\n' ∉ s) (hchain : (done ++ rest).IsChain Token.Precedes) :
    Steps entries closes c (.insert s) done rest := by
  obtain ⟨hfits, -, -, hline, hshift, hdelta⟩ := Cursor.replace_spec h.fits hs 0
  refine ⟨c.replace s 0, rfl, h.aligned_still rfl rfl _, ?_⟩
  rcases hdone with hmiddle | ⟨hstart, u, hu, hvisible⟩
  · refine h.hold hmiddle hchain ⟨rfl, hfits, hline, hshift, hdelta⟩ fun u hu hread heq => ?_
    have hbound := ((h.next u hu hread).2 heq).1
    omega
  · obtain ⟨b, hb⟩ := exists_lastRead hu (Token.isSynthetic_of_isVisible hvisible)
    obtain ⟨hlead, hbelow⟩ := h.posted _ (.insert s) rfl hline.ge (by rw [hdelta, h.delta, hline]; rfl)
    refine of_lineStart hstart hb hchain hfits (hshift.trans h.shift) hlead hbelow ?_
      (h.openers_mono (subset_append_left _ _))
    rw [hline, hshift]
    exact h.last b hb

/-- A text is written in place of several tokens of a line. -/
lemma span {first last : Token} {middle : List Token}
    (h : Stands entries closes c done (first :: middle ++ [last] ++ rest)) (hmiddle : MidLine done)
    (hvisible : ∀ u ∈ first :: middle ++ [last], u.isVisible = true) (hs : byte '\n' ∉ s)
    (hchain : (done ++ (first :: middle ++ [last] ++ rest)).IsChain Token.Precedes)
    (hcolumn : 0 ≤ first.pos.column) :
    Steps entries closes c (.span first last s) (done ++ (first :: middle ++ [last])) rest := by
  have hfirst : first.isVisible = true := hvisible first (by simp)
  have hputs := (h.reaches (Token.isSynthetic_of_isVisible hfirst) hcolumn).puts hs
    (last.finish.column - first.pos.column)
  have hfinish : last.finish.column = last.pos.column + last.content.length := by
    rw [Lexer.finish_of_read (Token.isSynthetic_of_isVisible (hvisible last (by simp)))]
  refine ⟨_, rfl, h.aligned_within hmiddle hfirst hchain hcolumn rfl (by simp) (by simp) (by simp),
    past _ h hmiddle hvisible hchain (h.within_of_puts hmiddle hfirst hchain hcolumn rfl rfl hputs) ?_⟩
  have hend := hputs.column
  omega

/-- A block is closed on a line of its own. -/
lemma close (h : Stands entries closes c done rest) {before after : List Token} {opener last : Token}
    (hdone : done = before ++ opener :: after) (hbefore : LineStart before)
    (hopener : opener.isVisible = true) (hstart : LineStart done) (hlast : lastRead done = some last)
    (hchain : (done ++ rest).IsChain Token.Precedes) (hcolumn : 0 ≤ opener.pos.column) :
    Steps entries closes c (.close opener last) done rest := by
  have hle := h.last last hlast
  obtain ⟨hfits₁, hcolumn₁, hline₁, hshift₁, hdelta₁⟩ :=
    Cursor.downTo_spec h.fits (show c.line < last.pos.line + c.shift + 1 by omega)
  have hpads := (Cursor.pads_downTo c (last.pos.line + c.shift + 1)).trans
    (Cursor.pads_rightTo _ opener.pos.column)
  set c₁ := c.downTo (last.pos.line + c.shift + 1) with hc₁
  obtain ⟨hfits₂, hcolumn₂, hline₂, hshift₂, hdelta₂⟩ :=
    Cursor.rightTo_spec hfits₁ (show c₁.column ≤ opener.pos.column by omega)
  set c₂ := c₁.rightTo opener.pos.column with hc₂
  obtain ⟨hfits₃, htext₃, -, hline₃, hshift₃, hdelta₃⟩ := Cursor.write_spec hfits₂ (s := utf8 "end") (by decide)
  set c₃ := c₂.write (utf8 "end") with hc₃
  have hstep : c.step (.close opener last) = .ok { c₃ with shift := c₃.shift + 1 } := by
    rw [Cursor.step, Cursor.close, if_neg (by omega)]
  have hglue : c₂.glue (utf8 "end") = [] := by
    rw [Cursor.glue, Cursor.needsBlank_of_pads hpads]
    · rfl
    · intro heq
      have hplace := hfits₂
      rw [Cursor.Fits, heq, h.fits] at hplace
      have hline : c.line = c₂.line := congrArg Position.line hplace
      omega
  have htarget : (Step.close opener last).target? = none := rfl
  refine ⟨_, hstep, ⟨h.fits, h.shift, h.delta, by simp [htarget], by simp [htarget], by simp, by simp, by simp,
    by simp [htarget], ?_⟩, ?_⟩
  · rintro _ _ ⟨⟩
    obtain ⟨e, he, htoken, hecolumn⟩ := h.openers before opener after hdone hbefore hopener
    obtain ⟨gap, hgap, htext⟩ := hpads
    refine ⟨e, he, htoken, gap, ?_, hgap, ?_⟩
    · change c₃.text = _
      rw [htext₃, hglue, append_nil, htext]
    · rw [← htext, hfits₂, hline₂, hline₁, hcolumn₂, h.shift, hecolumn]
  · have hbelow : ∀ e ∈ entries, e.line < c₃.line := by
      intro e he
      have hebelow := h.below e he
      omega
    have hpostings : entries ++ postingsOf c { c₃ with shift := c₃.shift + 1 } (.close opener last) = entries :=
      append_nil entries
    rw [hpostings]
    refine of_lineStart hstart hlast hchain hfits₃ ?_ ?_ (fun e he => (hbelow e he).le) ?_ h.openers
    · change c₃.shift + 1 = closes + 1
      rw [← h.shift]
      omega
    · change c₃.delta = lead entries c₃.line
      rw [lead_eq_zero hbelow]
      omega
    · change c₃.line ≤ last.pos.line + (c₃.shift + 1)
      omega

end Stands

/-! ### Whole runs -/

/-- What is known of a run of steps through some tokens: it ends, and each of its steps is aligned. -/
structure Goes (entries : List Posting) (closes : Int) (c : Cursor) (steps : List Step)
    (done rest : List Token) : Prop where
  ends : ∃ c', c.run steps = .ok c' ∧
    Stands (entries ++ ledger c steps) (closes + closings steps) c' done rest
  aligned : ∀ before st after, steps = before ++ st :: after → ∃ c₁ c₂, c.run before = .ok c₁ ∧
    c₁.step st = .ok c₂ ∧ Aligned (entries ++ ledger c before) (closes + closings before) c₁ st c₂

/-- A step before a run. -/
lemma Steps.cons {entries : List Posting} {closes : Int} {c : Cursor} {steps : List Step}
    {done done' rest rest' : List Token} (h : Steps entries closes c st done rest)
    (hrest : ∀ {entries closes c}, Stands entries closes c done rest → Goes entries closes c steps done' rest') :
    Goes entries closes c (st :: steps) done' rest' := by
  obtain ⟨c₁, hstep, haligned, hstands⟩ := h
  replace hrest := hrest hstands
  have hrun : ∀ steps, c.run (st :: steps) = c₁.run steps := by
    intro steps
    rw [Cursor.run, foldlM_cons, hstep]
    rfl
  have hledger : ∀ steps, entries ++ ledger c (st :: steps) =
      entries ++ postingsOf c c₁ st ++ ledger c₁ steps := by
    intro steps
    rw [ledger, hstep, append_assoc]
  have hclosings : ∀ steps, closes + closings (st :: steps) =
      (if st.isClose then closes + 1 else closes) + closings steps := by
    intro steps
    simp only [closings, countP_cons]
    split <;> push_cast <;> omega
  constructor
  · obtain ⟨c', hrun', hstands'⟩ := hrest.ends
    refine ⟨c', (hrun steps).trans hrun', ?_⟩
    rwa [hledger, hclosings]
  · intro before st' after heq
    cases before with
    | nil =>
      obtain ⟨rfl, rfl⟩ := List.cons.inj heq
      refine ⟨c, c₁, rfl, hstep, ?_⟩
      simpa [ledger, closings] using haligned
    | cons st'' before =>
      obtain ⟨rfl, rfl⟩ := List.cons.inj heq
      obtain ⟨c₂, c₃, hrun₂, hstep₃, haligned₃⟩ := hrest.aligned before st' after rfl
      refine ⟨c₂, c₃, (hrun before).trans hrun₂, hstep₃, ?_⟩
      rwa [hledger, hclosings]

/-- Steps that account for the tokens before them keep the output aligned. -/
theorem Accounts.goes {done u rest : List Token} {steps : List Step} (h : Accounts done steps u)
    {entries : List Posting} {closes : Int} {c : Cursor} (horder : InOrder (done ++ (u ++ rest)))
    (hstands : Stands entries closes c done (u ++ rest)) : Goes entries closes c steps (done ++ u) rest := by
  induction h generalizing entries closes c with
  | nil =>
    refine ⟨⟨c, rfl, ?_⟩, by simp⟩
    simpa [ledger, closings] using hstands
  | silent ht _ ih =>
    have hnext := hstands.silent ht horder
    rw [cons_append, append_cons] at horder
    rw [append_cons]
    exact ih horder hnext
  | token ht hs _ ih =>
    have hstep := hstands.token ht hs horder.chain (horder.placed _ (by simp)).column
    rw [cons_append, append_cons] at horder
    rw [append_cons]
    exact hstep.cons (ih horder)
  | keyword hdone ht hs _ ih =>
    have hstep := hstands.keyword hdone ht hs horder.chain (horder.placed _ (by simp)).column
    rw [cons_append, append_cons] at horder
    rw [append_cons]
    exact hstep.cons (ih horder)
  | drop hdone ht _ ih =>
    have hstep := hstands.drop hdone ht horder.chain
    rw [cons_append, append_cons] at horder
    rw [append_cons]
    exact hstep.cons (ih horder)
  | before hdone ht hs _ ih =>
    exact (hstands.before hdone ht hs horder.chain (horder.placed _ (by simp)).column).cons (ih horder)
  | insert hdone hs _ ih => exact (hstands.insert hdone hs horder.chain).cons (ih horder)
  | span hdone ht hs _ ih =>
    rw [append_assoc] at horder hstands
    have hstep := hstands.span hdone ht hs horder.chain (horder.placed _ (by simp)).column
    rw [← append_assoc] at horder ⊢
    exact hstep.cons (ih horder)
  | close hdone hbefore hopener hline hlast _ ih =>
    exact (hstands.close hdone hbefore hopener hline hlast horder.chain
      (horder.placed _ (by simp [hdone])).column).cons (ih horder)

end Lunify
