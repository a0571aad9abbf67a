import Lunify.Proofs.Chunk.Expressions

/-!
# Reading statements

What the reader of Lua blocks makes of given token values: single statements (`Reader.IsStat`), runs of
them (`Reader.IsStats`), which may go on, and whole blocks (`Reader.IsBlock`), which may end with a
`return` or a `break`. A text that is scanned to a block is a chunk (`exists_read_of_isBlock`).
-/

namespace Lunify

open List

namespace Chunk

variable {ls : List Lexeme}

namespace Reader

variable {l : Lexeme} {t : Token} {Q : Expr → Prop} {R S : List Stat → Prop} {bs cs ks : List Lexeme}

/-! ### What comes after -/

/-- Whether a value is a name. -/
def isName : Lexeme → Bool
  | .name _ => true
  | _ => false

/-- Whether a value begins a statement that others may follow. -/
def beginsStat (l : Lexeme) : Bool :=
  isName l || (["if", "while", "for", "function"].map mark).contains l

/-- Whether a value ends a block. -/
def closesBlock (l : Lexeme) : Bool :=
  (.finish :: ["end", "else", "elseif"].map mark).contains l

/-- Whether a value can come after a statement. -/
def followsStat (l : Lexeme) : Bool :=
  isName l || (.finish :: ["if", "while", "for", "function", "end", "else", "elseif", "return",
    "break"].map mark).contains l

theorem followsStat_of_closesBlock (h : closesBlock l = true) : followsStat l = true := by
  have hall : ∀ l ∈ .finish :: ["end", "else", "elseif"].map mark, followsStat l = true := by decide
  exact hall l (contains_iff_mem.1 h)

theorem followsStat_of_beginsStat (h : beginsStat l = true) : followsStat l = true := by
  have hall : ∀ l ∈ ["if", "while", "for", "function"].map mark, followsStat l = true := by decide
  obtain h | h := Bool.or_eq_true_iff.1 h
  · rw [followsStat, h, Bool.true_or]
  · exact hall l (contains_iff_mem.1 h)

/-- An expression ends where a statement can follow, and nothing goes on with it. -/
theorem endsExprs_of_followsStat (h : followsStat l = true) :
    EndsExprs True l ∧ l ≠ mark "=" ∧ l ≠ mark ";" := by
  have hall : ∀ l ∈ .finish :: ["if", "while", "for", "function", "end", "else", "elseif", "return",
      "break"].map mark, EndsExprs True l ∧ l ≠ mark "=" ∧ l ≠ mark ";" := by decide
  obtain h | h := Bool.or_eq_true_iff.1 h
  · cases l with
    | name x => exact ⟨⟨⟨⟨rfl, .inl trivial⟩, rfl⟩, Lexeme.noConfusion⟩, Lexeme.noConfusion, Lexeme.noConfusion⟩
    | _ => cases h
  · exact hall l (contains_iff_mem.1 h)

theorem isSound_of_followsStat (h : followsStat l = true) : IsSound l :=
  isSound_of_endsOperand (endsExprs_of_followsStat h).1.1.1.1

theorem endsBlock_of_closesBlock (h : closesBlock t.lexeme = true) : endsBlock t = true := by
  simp only [closesBlock, contains_iff_mem, map_cons, map_nil, mem_cons,
    not_mem_nil, or_false] at h
  unfold endsBlock
  obtain h | h | h | h := h <;> rw [h] <;> decide

theorem endsBlock_of_beginsExpr (h : BeginsExpr True t.lexeme) : endsBlock t = false := by
  replace h := h.of_strict
  have hall : ∀ s ∈ ["end", "else", "elseif", "until"], beginsExpr (mark s) = false := by decide
  unfold endsBlock
  cases hl : t.lexeme with
  | mark s =>
    by_contra hends
    obtain ⟨u, hu, rfl⟩ := mem_map.1 (contains_iff_mem.1 (Bool.of_not_eq_false hends))
    rw [hl, show Lexeme.mark (utf8 u) = mark u from rfl, hall u hu] at h
    cases h
  | finish =>
    rw [hl] at h
    cases h
  | _ => rfl

/-- A statement begins with no token that the reader of blocks takes for itself. -/
theorem ne_of_beginsStat (h : beginsStat t.lexeme = true) :
    endsBlock t = false ∧ ∀ s ∈ [";", "break", "return"], t.lexeme ≠ mark s := by
  have hall : ∀ l ∈ ["if", "while", "for", "function"].map mark,
      (∀ s ∈ ["end", "else", "elseif", "until"], l ≠ mark s) ∧
        ∀ s ∈ [";", "break", "return"], l ≠ mark s := by decide
  obtain h | h := Bool.or_eq_true_iff.1 h
  · cases hl : t.lexeme with
    | name x => exact ⟨by rw [endsBlock, hl], fun _ _ => Lexeme.noConfusion⟩
    | _ => simp [hl, isName] at h
  · obtain ⟨s, hs, hl⟩ := mem_map.1 (contains_iff_mem.1 h)
    refine ⟨?_, (hall _ (contains_iff_mem.1 h)).2⟩
    have hends : ∀ s ∈ ["if", "while", "for", "function"],
        (["end", "else", "elseif", "until"].map utf8).contains (utf8 s) = false := by decide
    rw [endsBlock, ← hl]
    exact hends s hs

/-! ### Blocks -/

/-- Token values that are read as a statement. -/
structure IsStat (ls : List Lexeme) (Q : Stat → Prop) : Prop where
  head : ∃ l ∈ ls.head?, beginsStat l = true
  reads : ∀ t, t.lexeme ∈ ls.head? →
    Reads True (fun fuel => stat fuel t) 3 (fun l => followsStat l = true) ls Q

/-- Token values that are read as statements, whatever statements follow. -/
structure IsStats (ls : List Lexeme) (Q : List Stat → Prop) : Prop where
  head : ∀ l ∈ ls.head?, beginsStat l = true
  reads : ∀ (fuel : Nat) (ts rest : List Token), ts.map Token.lexeme = ls →
    followsStat (next rest) = true → 8 * ls.length + 4 ≤ fuel →
    ∃ b fuel', fuel ≤ fuel' + 8 * ls.length ∧ Q b ∧ ∀ c rest', block fuel' rest = .ok (c, rest') →
      block fuel (ts ++ rest) = .ok (b ++ c, rest')

/-- Token values that are read as a block. -/
structure IsBlock (ls : List Lexeme) (Q : List Stat → Prop) : Prop where
  head : ∀ l ∈ ls.head?, followsStat l = true
  reads : Reads True block 4 (fun l => closesBlock l = true) ls Q

theorem IsStat.mono {Q R : Stat → Prop} (h : IsStat ls Q) (hQ : ∀ s, Q s → R s) : IsStat ls R :=
  ⟨h.head, fun t ht => (h.reads t ht).mono hQ⟩

theorem IsBlock.mono {Q : List Stat → Prop} (h : IsBlock ls Q) (hQ : ∀ b, Q b → R b) : IsBlock ls R :=
  ⟨h.head, h.reads.mono hQ⟩

/-- What comes next where token values stand before the given tokens. -/
theorem followsStat_next {ts rest : List Token} (hts : ts.map Token.lexeme = ls)
    (hls : ∀ l ∈ ls.head?, followsStat l = true) (hrest : followsStat (next rest) = true) :
    followsStat (next (ts ++ rest)) = true := by
  subst hts
  cases ts with
  | nil => exact hrest
  | cons t ts => exact hls _ rfl

theorem IsStat.isStats {Q : Stat → Prop} (h : IsStat ls Q) : IsStats ls fun b => ∃ s, Q s ∧ b = [s] where
  head := by
    obtain ⟨l, hl, hbegins⟩ := h.head
    intro k hk
    rwa [Option.mem_unique hk hl]
  reads := by
    intro fuel ts rest hts hrest hfuel
    obtain ⟨f, rfl⟩ : ∃ f, fuel = f + 1 := ⟨fuel - 1, by omega⟩
    obtain ⟨l, hl, hbegins⟩ := h.head
    have hpos : 0 < ls.length := length_pos_of_mem (mem_of_mem_head? hl)
    cases ts with
    | nil =>
      subst hts
      cases hl
    | cons t ts =>
      have hnext : t.lexeme = l := next_append rest hts hl
      obtain ⟨_, hs, s, rfl, hQ⟩ := (h.reads t (hnext ▸ hl) f fun _ => by omega).exists_eq hts hrest
      refine ⟨[s], f, by omega, ⟨s, hQ, rfl⟩, fun c rest' hc => ?_⟩
      rw [← hnext] at hbegins
      have hsound := isSound_of_followsStat (followsStat_of_beginsStat hbegins)
      obtain ⟨hends, hne⟩ := ne_of_beginsStat hbegins
      rw [cons_append] at hs ⊢
      rw [block, bind_of_eq_ok (peek_cons _ hsound), hends]
      refine (bind_of_eq_ok (accept_cons_of_ne _ rfl hsound (hne ";" (by decide)))).trans ?_
      refine (bind_of_eq_ok (accept_cons_of_ne _ rfl hsound (hne "break" (by decide)))).trans ?_
      refine (bind_of_eq_ok (accept_cons_of_ne _ rfl hsound (hne "return" (by decide)))).trans ?_
      refine (bind_of_eq_ok hs).trans ?_
      exact bind_of_eq_ok hc

theorem IsStats.append_isBlock {Q : List Stat → Prop} (h : IsStats ls Q) (hk : IsBlock ks R) :
    IsBlock (ls ++ ks) fun b => ∃ b₁ b₂, Q b₁ ∧ R b₂ ∧ b = b₁ ++ b₂ where
  head := by
    intro l hl
    cases ls with
    | nil => exact hk.head l hl
    | cons k ls => exact followsStat_of_beginsStat (h.head l hl)
  reads := by
    intro fuel hfuel ts rest hts hrest
    have hfuel := hfuel trivial
    rw [length_append] at hfuel
    obtain ⟨us, vs, rfl, hus, hvs⟩ := map_eq_append_iff.1 hts
    have hnext := followsStat_next hvs hk.head (followsStat_of_closesBlock hrest)
    obtain ⟨b₁, f₁, hf₁, hQ, hb₁⟩ := h.reads fuel us (vs ++ rest) hus hnext (by omega)
    obtain ⟨_, hb₂, b₂, rfl, hR⟩ := (hk.reads f₁ fun _ => by omega).exists_eq hvs hrest
    rw [append_assoc]
    exact .inl ⟨_, hb₁ _ _ hb₂, b₁ ++ b₂, rfl, b₁, b₂, hQ, hR, rfl⟩

theorem isBlock_nil : IsBlock [] fun b => b = [] where
  head := by
    rintro l ⟨⟩
  reads := reads_succ fun fuel _ => by
    rw [block]
    refine goes_peek_last (fun l hl => isSound_of_followsStat (followsStat_of_closesBlock hl)) fun t ht => ?_
    rw [endsBlock_of_closesBlock ht]
    exact goes_pure rfl

/-- Nothing comes after the last statement of a block, and no semicolon. -/
theorem goes_noSemicolon {k : Bool → Reader (List Stat)} {M : Reader (List Stat) → Prop}
    (h : Goes True (k false) (fun l => closesBlock l = true) [] M) :
    Goes True (accept ";" >>= k) (fun l => closesBlock l = true) [] M :=
  goes_refuse_last (fun _ hl => ⟨isSound_of_followsStat (followsStat_of_closesBlock hl),
    (endsExprs_of_followsStat (followsStat_of_closesBlock hl)).2.2⟩) h

theorem isBlock_break : IsBlock [mark "break"] fun b => ∃ line, b = [.break line] where
  head := by
    rintro l ⟨⟩
    decide
  reads := reads_succ fun fuel _ => by
    rw [block]
    refine goes_peek rfl (isSound_mark _) fun t ht => ?_
    rw [show endsBlock t = false by rw [endsBlock, ht]; decide]
    refine goes_refuse_mark (by decide) (goes_accept ?_)
    exact goes_noSemicolon (goes_pure ⟨t.line, rfl⟩)

/-- A block that begins with `return`, from there on. -/
theorem isBlock_of_return {Q : List Stat → Prop}
    (h : ∀ fuel t, 8 * ls.length + 11 ≤ fuel → Goes True (do
      let u ← peek
      let es ← if endsBlock u || u.lexeme = .mark (utf8 ";") then pure [] else exprs fuel
      let _ ← accept ";"
      return [.return (Token.line t) es]) (fun l => closesBlock l = true) ls (Returns Q)) :
    IsBlock (mark "return" :: ls) Q where
  head := by
    rintro l ⟨⟩
    decide
  reads := reads_succ fun fuel hfuel => by
    rw [block]
    refine goes_peek rfl (isSound_mark _) fun t ht => ?_
    rw [show endsBlock t = false by rw [endsBlock, ht]; decide]
    refine goes_refuse_mark (by decide) (goes_refuse_mark (by decide) (goes_accept ?_))
    exact h fuel t (by simp only [length_cons] at hfuel; omega)

theorem isBlock_return : IsBlock [mark "return"] fun b => ∃ line, b = [.return line []] := by
  refine isBlock_of_return fun fuel t _ => ?_
  refine goes_peek_last (fun l hl => isSound_of_followsStat (followsStat_of_closesBlock hl)) fun u hu => ?_
  rw [endsBlock_of_closesBlock hu]
  exact (goes_pure rfl).bind_last (fun _ hl => hl) fun es hes => goes_noSemicolon (goes_pure ⟨t.line, by rw [hes]⟩)

theorem isBlock_returnExprs {Q : List Expr → Prop} (h : IsExprs True ls Q) :
    IsBlock (mark "return" :: ls) fun b => ∃ line es, Q es ∧ b = [.return line es] := by
  refine isBlock_of_return fun fuel t hfuel => ?_
  obtain ⟨l, hl, hbegins⟩ := h.head
  refine goes_peek hl (hbegins.isSound) fun u hu => ?_
  have hbegin : (endsBlock u || decide (u.lexeme = .mark (utf8 ";"))) = false := by
    rw [endsBlock_of_beginsExpr (hu ▸ hbegins), hu, Bool.false_or]
    exact decide_eq_false (hbegins.ne_mark (by decide +kernel))
  rw [hbegin]
  refine (h.reads fuel fun _ => by omega).bind_last
    (fun l hl => (endsExprs_of_followsStat (followsStat_of_closesBlock hl)).1) fun es hQ => ?_
  exact goes_noSemicolon (goes_pure ⟨t.line, es, hQ, rfl⟩)

/-! ### Statements -/

/-- A statement that begins with a name. -/
theorem isStat_of_exprStat {Q : Stat → Prop} (hname : ∃ l ∈ ls.head?, isName l = true)
    (h : ∀ fuel, 8 * ls.length + 2 ≤ fuel → Goes True (exprStat fuel) (fun l => followsStat l = true) ls (Returns Q)) :
    IsStat ls Q := by
  obtain ⟨l, hl, hbegins⟩ := hname
  refine ⟨⟨l, hl, by rw [beginsStat, hbegins, Bool.true_or]⟩, fun t ht => reads_succ fun fuel hfuel => ?_⟩
  rw [stat, Option.mem_unique ht hl]
  cases l with
  | name x => exact h fuel hfuel
  | _ => cases hbegins

theorem isStat_assign {Q : Expr → Bool → Prop} {R : List Expr → Prop}
    (hname : ∃ l ∈ ls.head?, isName l = true) (h : IsPrimary True ls Q) (hQ : ∀ e a, Q e a → a = true)
    (hk : IsExprs True ks R) :
    IsStat (ls ++ mark "=" :: ks) fun s =>
      ∃ line u a vs, Q u a ∧ R vs ∧ s = .assign line [u] vs := by
  obtain ⟨l, hl, hbegins⟩ := hname
  refine isStat_of_exprStat ⟨l, mem_head?_append hl, hbegins⟩ fun fuel hfuel => ?_
  obtain ⟨f, rfl⟩ : ∃ f, fuel = f + 1 + 1 := ⟨fuel - 2, by omega⟩
  rw [length_append, length_cons] at hfuel
  rw [exprStat]
  refine (h.goes fun _ => by omega).bind (by decide) ?_
  rintro ⟨u, a⟩ hu
  obtain rfl := hQ u a hu
  refine goes_peek rfl (isSound_mark _) fun t ht => ?_
  rw [ht]
  have htargets : Goes True (moreTargets (f + 1)) (· = mark "=") [] (Returns (· = [])) := by
    rw [moreTargets]
    exact goes_refuse_last (fun l hl => hl ▸ ⟨isSound_mark _, by decide⟩) (goes_pure rfl)
  refine htargets.bind rfl fun es hes => ?_
  refine goes_expect ?_
  refine (hk.reads (f + 1) fun _ => by omega).bind_last (fun l hl => (endsExprs_of_followsStat hl).1) fun vs hR => ?_
  exact goes_pure ⟨u.line, u, true, vs, hu, hR, by rw [hes]⟩

theorem isStat_call {Q : Expr → Bool → Prop} (hname : ∃ l ∈ ls.head?, isName l = true)
    (h : IsPrimary True ls Q) (hQ : ∀ e a, Q e a → e.isCall = true) :
    IsStat ls fun s => ∃ line u a, Q u a ∧ s = .call line u := by
  refine isStat_of_exprStat hname fun fuel hfuel => ?_
  obtain ⟨f, rfl⟩ : ∃ f, fuel = f + 1 := ⟨fuel - 1, by omega⟩
  rw [exprStat]
  refine (h.goes fun _ => by omega).bind_last (fun l hl => (endsExprs_of_followsStat hl).1.1.1) ?_
  rintro ⟨u, a⟩ hu
  refine goes_peek_last (fun l hl => isSound_of_followsStat hl) fun t ht => ?_
  obtain ⟨⟨-, hcomma⟩, hequals, -⟩ := endsExprs_of_followsStat ht
  have hcond : (a && (decide (t.lexeme = .mark (utf8 "=")) ||
      decide (t.lexeme = .mark (utf8 ",")))) = false := by
    simp only [mark] at hequals hcomma
    simp [hequals, hcomma]
  simp only [hcond, hQ u a hu, Bool.false_eq_true, if_false, if_true]
  exact goes_pure ⟨u.line, u, a, hu, rfl⟩

/-- A statement that begins with a keyword. -/
theorem isStat_of_mark {w : String} {Q : Stat → Prop} (hw : beginsStat (mark w) = true)
    (h : ∀ fuel t, t.lexeme = mark w → 8 * ls.length + 10 ≤ fuel →
      Goes True (stat (fuel + 1) t) (fun l => followsStat l = true) (mark w :: ls) (Returns Q)) :
    IsStat (mark w :: ls) Q where
  head := ⟨_, rfl, hw⟩
  reads t ht := reads_succ fun fuel hfuel => by
    rw [length_cons] at hfuel
    exact h fuel t (Option.some.inj ht).symm (by omega)

theorem isStat_loop
    (hc : IsExpr True cs Q) (hb : IsBlock bs R) :
    IsStat (mark "while" :: (cs ++ mark "do" :: (bs ++ [mark "end"]))) fun s =>
      ∃ line u b, Q u ∧ R b ∧ s = .loop line u b := by
  refine isStat_of_mark (by decide) fun fuel t ht hfuel => ?_
  simp only [length_cons, length_append, length_nil] at hfuel
  rw [stat, ht]
  refine goes_advance ?_
  refine (hc.reads fuel fun _ => by omega).bind (by decide) fun u hQ => ?_
  refine goes_expect ?_
  refine (hb.reads fuel fun _ => by omega).bind (by decide) fun b hR => ?_
  exact goes_expect (goes_pure ⟨t.line, u, b, hQ, hR, rfl⟩)

/-- Token values that are read as a conditional from after its keyword on. -/
def IsBranches (ls : List Lexeme) (Q : Stat → Prop) : Prop :=
  ∀ line, Reads True (fun fuel => branches fuel line) 0 (fun _ => True) ls Q

/-- A conditional from its first alternative on. -/
theorem isBranches_of_goes
    {S : Stat → Prop} (hc : IsExpr True cs Q) (hb : IsBlock bs R) (hl : closesBlock l = true)
    (h : ∀ line fuel u b, 8 * ks.length + 8 ≤ fuel → Q u → R b → Goes True (do
      let t ← peek
      if ← accept "elseif" then
        return .branch line u b [← branches fuel t.line]
      else if ← accept "else" then
        let no ← block fuel
        expect "end"
        return .branch line u b no
      else
        expect "end"
        return .branch line u b []) (fun _ => True) (l :: ks) (Returns S)) :
    IsBranches (cs ++ mark "then" :: (bs ++ l :: ks)) S := by
  intro line fuel hfuel
  replace hfuel := hfuel trivial
  simp only [length_cons, length_append] at hfuel
  obtain ⟨f, rfl⟩ : ∃ f, fuel = f + 1 := ⟨fuel - 1, by omega⟩
  simp only [branches]
  refine (hc.reads f fun _ => by omega).bind (by decide) fun u hQ => ?_
  refine goes_expect ?_
  exact (hb.reads f fun _ => by omega).bind hl fun b hR => h line f u b (by omega) hQ hR

theorem isBranches_only
    (hc : IsExpr True cs Q) (hb : IsBlock bs R) :
    IsBranches (cs ++ mark "then" :: (bs ++ [mark "end"])) fun s =>
      ∃ line u b, Q u ∧ R b ∧ s = .branch line u b [] := by
  refine isBranches_of_goes hc hb (by decide) fun line fuel u b _ hQ hR => ?_
  refine goes_peek rfl (isSound_mark _) fun t _ => ?_
  refine goes_refuse_mark (by decide) (goes_refuse_mark (by decide) ?_)
  exact goes_expect (goes_pure ⟨line, u, b, hQ, hR, rfl⟩)

theorem isBranches_else {ds : List Lexeme}
    (hc : IsExpr True cs Q) (hb : IsBlock bs R) (hd : IsBlock ds S) :
    IsBranches (cs ++ mark "then" :: (bs ++ mark "else" :: (ds ++ [mark "end"]))) fun s =>
      ∃ line u b c, Q u ∧ R b ∧ S c ∧ s = .branch line u b c := by
  refine isBranches_of_goes hc hb (by decide) fun line fuel u b hfuel hQ hR => ?_
  rw [length_append] at hfuel
  refine goes_peek rfl (isSound_mark _) fun t _ => ?_
  refine goes_refuse_mark (by decide) (goes_accept ?_)
  refine (hd.reads fuel fun _ => by omega).bind (by decide) fun c hS => ?_
  exact goes_expect (goes_pure ⟨line, u, b, c, hQ, hR, hS, rfl⟩)

theorem isBranches_elseif
    {S : Stat → Prop} (hc : IsExpr True cs Q) (hb : IsBlock bs R) (hk : IsBranches ks S) :
    IsBranches (cs ++ mark "then" :: (bs ++ mark "elseif" :: ks)) fun s =>
      ∃ line u b c, Q u ∧ R b ∧ S c ∧ s = .branch line u b [c] := by
  refine isBranches_of_goes hc hb (by decide) fun line fuel u b hfuel hQ hR => ?_
  refine goes_peek rfl (isSound_mark _) fun t _ => ?_
  refine goes_accept ?_
  refine (hk t.line fuel fun _ => by omega).bind_last (fun _ _ => trivial) fun c hS => ?_
  exact goes_pure ⟨line, u, b, c, hQ, hR, hS, rfl⟩

theorem isStat_branch {Q : Stat → Prop} (h : IsBranches ls Q) : IsStat (mark "if" :: ls) Q := by
  refine isStat_of_mark (by decide) fun fuel t ht hfuel => ?_
  rw [stat, ht]
  refine goes_advance ?_
  exact (h t.line fuel fun _ => by omega).trans_last (fun _ _ => trivial) fun _ hm => .refl hm

/-- What comes after two alternatives comes after the choice between them. -/
theorem bind_ite {α β : Type} (c : Reader Bool) (x y : Reader α) (k : α → Reader β) :
    (c >>= fun b => if b = true then x >>= k else y >>= k) =
      (c >>= fun b => if b = true then x else y) >>= k := by
  rw [bind_assoc]
  refine bind_congr fun b => ?_
  cases b <;> rfl

/-- The step of a loop over numbers, if there is one. -/
def step (fuel : Nat) : Reader (Option Expr) := do
  if ← accept "," then some <$> expr fuel 0 else pure none

/-- Token values that are read as the step of a loop over numbers. -/
structure IsStep (ls : List Lexeme) (P : Option Expr → Prop) : Prop where
  head : ∀ l ∈ (ls ++ [mark "do"]).head?, EndsExpr True l
  reads : Reads True step 3 (fun l => l = mark "do") ls P

theorem isStep_none : IsStep [] fun o => o = none where
  head := by
    rintro l ⟨⟩
    decide
  reads fuel _ := goes_refuse_last (fun l hl => hl ▸ ⟨isSound_mark _, by decide⟩) (goes_pure rfl)

theorem isStep_some {P : Expr → Prop} (h : IsExpr True ls P) :
    IsStep (mark "," :: ls) fun o => ∃ u, P u ∧ o = some u where
  head := by
    rintro l ⟨⟩
    decide
  reads := by
    intro fuel hfuel
    replace hfuel := hfuel trivial
    rw [length_cons] at hfuel
    refine goes_accept ?_
    simp only [if_true, map_eq_pure_bind]
    exact (h.reads fuel fun _ => by omega).bind_last (fun l hl => hl ▸ by decide) fun u hP => goes_pure ⟨u, hP, rfl⟩

/-- A loop over numbers. -/
theorem isStat_count {as es : List Lexeme} {x : Text} {R : Expr → Prop}
    {P : Option Expr → Prop} (ha : IsExpr True as Q) (he : IsExpr True es R)
    (hc : IsStep cs P) (hb : IsBlock bs S) :
    IsStat (mark "for" :: .name x :: mark "=" ::
        (as ++ mark "," :: (es ++ (cs ++ mark "do" :: (bs ++ [mark "end"]))))) fun s =>
      ∃ line u v w b, Q u ∧ R v ∧ P w ∧ S b ∧ s = .count line x u v w b := by
  refine isStat_of_mark (by decide) fun fuel t ht hfuel => ?_
  obtain ⟨f, rfl⟩ : ∃ f, fuel = f + 1 := ⟨fuel - 1, by omega⟩
  simp only [length_cons, length_append, length_nil] at hfuel
  -- The first value after the limit is that of the step, or of the block.
  obtain ⟨l, ls, hsplit, hends⟩ : ∃ l ls, cs ++ mark "do" :: (bs ++ [mark "end"]) = l :: ls ∧ EndsExpr True l := by
    cases cs with
    | nil => exact ⟨_, _, rfl, hc.head _ rfl⟩
    | cons c cs => exact ⟨_, _, rfl, hc.head _ rfl⟩
  rw [hsplit, stat, ht]
  refine goes_advance ?_
  rw [loopHeader]
  refine goes_name (goes_accept ?_)
  refine (ha.reads f fun _ => by omega).bind (by decide) fun u hQ => ?_
  refine goes_expect ?_
  refine (he.reads f fun _ => by omega).bind hends fun v hR => ?_
  rw [← hsplit, bind_ite]
  refine (hc.reads f fun _ => by omega).bind rfl fun w hP => ?_
  refine goes_expect ?_
  refine (hb.reads f fun _ => by omega).bind (by decide) fun b hS => ?_
  exact goes_expect (goes_pure ⟨t.line, u, v, w, b, hQ, hR, hP, hS, rfl⟩)

/-! ### Functions -/

/-- The parameters of a function, if there are any, up to the closing parenthesis. -/
def paramList (fuel : Nat) : Reader (List Text × Bool) := do
  if ← isAt ")" then pure ([], false) else params fuel

/-- Token values of names with commas between them. -/
def nameList (xs : List Text) : List Lexeme :=
  commas (xs.map fun x => [.name x])

theorem reads_params {xs : List Text} (hne : xs ≠ []) :
    Reads True params 1 (fun l => l = mark ")") (nameList xs) fun p => p = (xs, false) := by
  induction xs with
  | nil => exact absurd rfl hne
  | cons x xs ih =>
    refine reads_succ fun fuel hfuel => ?_
    rw [params]
    refine goes_refuse rfl (fun _ => Lexeme.noConfusion) Lexeme.noConfusion ?_
    refine goes_name ?_
    cases xs with
    | nil => exact goes_refuse_last (fun l hl => hl ▸ ⟨isSound_mark _, by decide⟩) (goes_pure rfl)
    | cons y ys =>
      have hlength : (nameList (x :: y :: ys)).length = (nameList (y :: ys)).length + 2 := by
        simp [nameList, commas]
      refine goes_accept ?_
      refine (ih (cons_ne_nil y ys) fuel fun _ => by omega).bind_last (fun _ hl => hl) fun p hp => ?_
      exact goes_pure (by rw [hp])

theorem reads_paramList (xs : List Text) :
    Reads True paramList 1 (fun l => l = mark ")") (nameList xs) fun p => p = (xs, false) := by
  intro fuel hfuel ts rest hts hrest
  unfold paramList
  cases xs with
  | nil =>
    obtain rfl := map_eq_nil_iff.1 hts
    rw [nil_append, bind_of_eq_ok (isAt_eq (isSound_of_eq_mark hrest) ")"), hrest,
      decide_eq_true rfl]
    exact .inl ⟨_, rfl, _, rfl, rfl⟩
  | cons x xs =>
    have hnext : next (ts ++ rest) = .name x := next_append rest hts rfl
    rw [bind_of_eq_ok (isAt_eq (by simp [IsSound, hnext]) ")"), hnext]
    exact reads_params (cons_ne_nil x xs) fuel hfuel ts rest hts hrest

/-- The definition of a function with a plain name. -/
theorem isStat_define {x : Text} {xs : List Text} (hb : IsBlock bs S) :
    IsStat (mark "function" :: .name x :: (inParens (nameList xs) ++ (bs ++ [mark "end"]))) fun s =>
      ∃ l₁ l₂ l₃ b, S b ∧ s = .define (.name l₁ x) (.function l₂ xs false b l₃) := by
  refine isStat_of_mark (by decide) fun fuel t ht hfuel => ?_
  obtain ⟨f, rfl⟩ : ∃ f, fuel = f + 1 + 1 := ⟨fuel - 2, by omega⟩
  simp only [inParens, length_cons, length_append, length_nil] at hfuel
  have htarget : ∀ e, Goes True (functionName (f + 1) e) (· = mark "(") [] (Returns (· = e)) := by
    intro e
    rw [functionName]
    exact goes_refuse_last (fun l hl => hl ▸ ⟨isSound_mark _, by decide⟩) (goes_pure rfl)
  have hfunction : Goes True (function (f + 1) []) (fun l => followsStat l = true)
      (mark "(" :: (nameList xs ++ mark ")" :: (bs ++ [mark "end"])))
      (Returns fun e => ∃ l₂ l₃ b, S b ∧ e = .function l₂ xs false b l₃) := by
    rw [function]
    refine goes_peek rfl (isSound_mark _) fun o _ => ?_
    refine goes_expect ?_
    rw [bind_ite]
    refine (reads_paramList xs f fun _ => by omega).bind rfl fun p hp => ?_
    refine goes_expect ?_
    refine (hb.reads f fun _ => by omega).bind (by decide) fun b hS => ?_
    refine goes_peek rfl (isSound_mark _) fun z _ => ?_
    exact goes_expect (goes_pure ⟨o.line, z.line, b, hS, by rw [hp]; rfl⟩)
  simp only [inParens, cons_append, append_assoc, nil_append]
  rw [stat, ht]
  refine goes_advance ?_
  rw [functionStat]
  refine goes_peek rfl (fun _ => Lexeme.noConfusion) fun n _ => ?_
  refine goes_name ?_
  refine (htarget _).bind rfl fun e he => ?_
  refine goes_refuse_mark (by decide) ?_
  refine hfunction.bind_last (fun _ hl => hl) ?_
  rintro _ ⟨l₂, l₃, b, hS, rfl⟩
  exact goes_pure ⟨n.line, l₂, l₃, b, hS, by rw [he]⟩

end Reader

/-- A text that is scanned to a block is a chunk. -/
theorem exists_read_of_isBlock {s : Text} {Q : List Stat → Prop} (h : Lexes s ls) (hb : Reader.IsBlock ls Q) :
    ∃ chunk, read s = .ok chunk ∧ Q chunk := by
  obtain ⟨us, fs, hsplit, hus, hfs⟩ := map_eq_append_iff.1 (map_lexeme_tokens h)
  obtain ⟨z, rfl, hz⟩ := map_eq_singleton_iff.1 hfs
  have hcloses : Reader.closesBlock (Reader.next [z]) = true := by
    rw [Reader.next, hz]
    decide
  have hlength : ls.length ≤ (tokens s).length := by
    rw [hsplit, ← hus, length_map, length_append]
    omega
  obtain ⟨_, hblock, b, rfl, hQ⟩ := (hb.reads (16 * (tokens s).length + 64) fun _ => by omega).exists_eq
    hus hcloses
  refine ⟨b, ?_, hQ⟩
  have hchunk : Reader.chunk (16 * (tokens s).length + 64) (us ++ [z]) = .ok (b, [z]) := by
    unfold Reader.chunk
    refine (Reader.bind_of_eq_ok hblock).trans ?_
    refine (Reader.bind_of_eq_ok (Reader.peek_cons [] (by simp [Reader.IsSound, hz]))).trans ?_
    rw [hz]
    rfl
  simp only [read]
  rw [← hsplit] at hchunk
  rw [hchunk]
  rfl

end Chunk

end Lunify
