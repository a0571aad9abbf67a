import Mathlib.Data.List.Forall2
import Lunify.Chunk.Reader
import Lunify.Proofs.Chunk.Scanner

/-!
# Reading expressions

What the reader of Lua expressions makes of given token values. `Reader.Reads strict r extra F ls Q` says that
a reader with enough fuel goes past tokens with the values `ls`, whatever comes after them that satisfies `F`,
and returns something that satisfies `Q`. If not `strict`, it may also go wrong, with any fuel: it fails, or it
stops early before a bracket or a parenthesis, where no expression ends (`Reader.IsStuck`). Operands
(`Reader.IsOperand`), expressions (`Reader.IsExpr`) and tables are built up from their parts.

Two descriptions lead to expressions. `Reader.ReadsAt` follows the strength of the operators and says what an
expression is read as. `Reader.Chain` forgets about strengths: operands with operators between and before them
are an expression, whatever its structure.
-/

namespace Lunify

open List

namespace Chunk

/-- The token of a literal. -/
def Constant.lexeme : Constant → Lexeme
  | .nil => mark "nil"
  | .bool b => mark (if b then "true" else "false")
  | .number s => .number s
  | .string s => .string s

namespace Reader

variable {α β γ : Type} {strict : Prop} {t : Token} {ts rest : List Token} {l : Lexeme} {ls ks : List Lexeme}
  {s : String} {fuel limit : Nat} {Q R : Expr → Prop}

variable {a : α} {n p : Nat} {op : BinaryOp}

/-! ### Single steps -/

/-- The value of the next token. -/
def next : List Token → Lexeme
  | [] => .finish
  | t :: _ => t.lexeme

/-- Whether a token with the given value can be asked for. -/
def IsSound (l : Lexeme) : Prop :=
  ∀ e, l ≠ .broken e

theorem bind_of_eq_ok {x : Reader α} {f : α → Reader β} {ts ts' : List Token} (h : x ts = .ok (a, ts')) :
    (x >>= f) ts = f a ts' := by
  change (x ts >>= fun p => f p.1 p.2) = _
  rw [h]
  rfl

theorem exists_peek (h : IsSound (next ts)) : ∃ t, t.lexeme = next ts ∧ peek ts = .ok (t, ts) := by
  cases ts with
  | nil => exact ⟨.finish, rfl, rfl⟩
  | cons t ts =>
    refine ⟨t, rfl, ?_⟩
    unfold peek
    split
    · cases ‹_ = []›
    · rename_i h'
      cases h'
      split
      · exact absurd ‹_› (h _)
      · rfl

theorem peek_cons (ts : List Token) (h : IsSound t.lexeme) : peek (t :: ts) = .ok (t, t :: ts) := by
  unfold peek
  split
  · cases ‹_ = []›
  · rename_i h'
    cases h'
    split
    · exact absurd ‹_› (h _)
    · rfl

theorem isAt_eq (h : IsSound (next ts)) (s : String) : isAt s ts = .ok (decide (next ts = mark s), ts) := by
  obtain ⟨t, ht, hpeek⟩ := exists_peek h
  unfold isAt
  rw [bind_of_eq_ok hpeek, ht]
  rfl

theorem isSound_mark (s : Text) : IsSound (.mark s) :=
  fun _ => Lexeme.noConfusion

theorem isSound_of_eq_mark (h : l = mark s) : IsSound l := by
  subst h
  exact isSound_mark _

theorem isAt_cons (ts : List Token) (h : t.lexeme = mark s) : isAt s (t :: ts) = .ok (true, t :: ts) := by
  have hnext : next (t :: ts) = mark s := h
  rw [isAt_eq (isSound_of_eq_mark hnext) s, hnext, decide_eq_true rfl]

theorem accept_cons (ts : List Token) (h : t.lexeme = mark s) : accept s (t :: ts) = .ok (true, ts) := by
  unfold accept
  rw [bind_of_eq_ok (isAt_cons ts h)]
  rfl

theorem accept_of_ne (h : IsSound (next ts)) (hs : next ts ≠ mark s) : accept s ts = .ok (false, ts) := by
  unfold accept
  rw [bind_of_eq_ok (isAt_eq h s)]
  simp only [hs, decide_false, Bool.false_eq_true, if_false]
  rfl

theorem accept_cons_of_ne (ts : List Token) (h : t.lexeme = l)
    (hl : IsSound l) (hs : l ≠ mark s) : accept s (t :: ts) = .ok (false, t :: ts) := by
  subst h
  exact accept_of_ne hl hs

theorem expect_cons (ts : List Token) (h : t.lexeme = mark s) : expect s (t :: ts) = .ok ((), ts) := by
  unfold expect
  rw [bind_of_eq_ok (isAt_cons ts h)]
  rfl

theorem advance_cons (t : Token) (ts : List Token) : advance (t :: ts) = .ok ((), ts) :=
  rfl

theorem name_cons {x : Text} (ts : List Token) (h : t.lexeme = .name x) : name (t :: ts) = .ok (x, ts) := by
  unfold name
  rw [bind_of_eq_ok (peek_cons ts (by simp [IsSound, h])), h]
  rfl

/-! ### What comes after -/

/-- The marks that go on after an operand. -/
def suffixMarks : List Text :=
  ["[", ".", ":", "(", "\x7b"].map utf8

/-- Whether an operand ends before the given value. -/
def endsOperand : Lexeme → Bool
  | .string _ | .broken _ => false
  | .mark s => !suffixMarks.contains s
  | _ => true

/-- How strongly a value binds to the operand before it. -/
def strength : Lexeme → Nat
  | .mark s => ((binaryOp? s).map fun p => p.2.1).getD 0
  | _ => 0

/-- The marks that close something around an expression. -/
def closers : List String :=
  [")", "]", ",", "\x7d"]

/-- The operators with two operands and their strengths, to the left and to the right. -/
def infixOps : List (String × BinaryOp × Nat × Nat) :=
  [("or", .or, 1, 1), ("and", .and, 2, 2), ("<", .lt, 3, 3), (">", .gt, 3, 3), ("<=", .le, 3, 3),
    (">=", .ge, 3, 3), ("~=", .ne, 3, 3), ("==", .eq, 3, 3), ("..", .concat, 5, 4), ("+", .arith .add, 6, 6),
    ("-", .arith .sub, 6, 6), ("*", .arith .mul, 7, 7), ("/", .arith .div, 7, 7), ("%", .arith .mod, 7, 7),
    ("^", .arith .pow, 10, 9)]

/-- The signs of the operators with two operands. -/
def infixes : List String :=
  infixOps.map Prod.fst

/-- Whether a value comes after an expression as part of a larger one, or at the end of a text. -/
def Follows (l : Lexeme) : Prop :=
  l = .finish ∨ ∃ m ∈ closers ++ infixes, l = mark m

instance (l : Lexeme) : Decidable (Follows l) :=
  inferInstanceAs (Decidable (_ ∨ ∃ m ∈ closers ++ infixes, l = mark m))

/-- Whether an operand ends before the given value. Unless all is to be read, only values that may come after
an expression are of interest. -/
def Ends (strict : Prop) (l : Lexeme) : Prop :=
  endsOperand l = true ∧ (strict ∨ Follows l)

/-- Whether an expression ends before the given value. -/
def EndsExpr (strict : Prop) (l : Lexeme) : Prop :=
  Ends strict l ∧ strength l = 0

/-- Whether a list of expressions ends before the given value. -/
def EndsExprs (strict : Prop) (l : Lexeme) : Prop :=
  EndsExpr strict l ∧ l ≠ mark ","

instance (l : Lexeme) : Decidable (Ends True l) :=
  inferInstanceAs (Decidable (_ ∧ (True ∨ Follows l)))

instance (l : Lexeme) : Decidable (EndsExpr True l) :=
  inferInstanceAs (Decidable (_ ∧ _))

instance (l : Lexeme) : Decidable (EndsExprs True l) :=
  inferInstanceAs (Decidable (_ ∧ _))

theorem ends_mark {m : String} (hm : m ∈ closers ++ infixes) : Ends strict (mark m) := by
  have hall : ∀ m ∈ closers ++ infixes, endsOperand (mark m) = true := by decide
  exact ⟨hall m hm, .inr (.inr ⟨m, hm, rfl⟩)⟩

theorem endsExpr_mark {m : String} (hm : m ∈ closers) : EndsExpr strict (mark m) := by
  have hall : ∀ m ∈ closers, strength (mark m) = 0 := by decide
  exact ⟨ends_mark (mem_append_left _ hm), hall m hm⟩

theorem isSound_of_endsOperand (h : endsOperand l = true) : IsSound l := by
  rintro e rfl
  cases h

theorem exists_of_binaryOp? {s : Text} {p : BinaryOp × Nat × Nat} (h : binaryOp? s = some p) :
    ∃ w, (w, p) ∈ infixOps ∧ utf8 w = s := by
  obtain ⟨⟨w, q⟩, hq, hqs⟩ := exists_of_findSome?_eq_some h
  obtain ⟨rfl, rfl⟩ : utf8 w = s ∧ q = p := by simpa using hqs
  exact ⟨w, hq, rfl⟩

theorem binaryOp?_spec {s : Text} {r : Nat} (h : binaryOp? s = some (op, n, r)) :
    (∀ strict, Ends strict (.mark s)) ∧ 0 < r ∧ r ≤ n := by
  have hall : ∀ q ∈ infixOps, 0 < q.2.2.2 ∧ q.2.2.2 ≤ q.2.2.1 := by decide
  obtain ⟨w, hw, rfl⟩ := exists_of_binaryOp? h
  exact ⟨fun _ => ends_mark (mem_append_right _ (mem_map_of_mem hw)), hall _ hw⟩

/-- No more operators are read where none binds more strongly than the limit. -/
theorem operators_stop (e : Expr) (h : IsSound (next ts)) (hl : strength (next ts) ≤ limit) (hfuel : 0 < fuel) :
    operators fuel limit e ts = .ok (e, ts) := by
  obtain ⟨f, rfl⟩ : ∃ f, fuel = f + 1 := ⟨fuel - 1, by omega⟩
  obtain ⟨t, ht, hpeek⟩ := exists_peek h
  rw [operators, bind_of_eq_ok hpeek, ht]
  cases hs : next ts with
  | mark s =>
    rcases hop : binaryOp? s with _ | ⟨op, n, r⟩
    · simp only [hop]
      rfl
    · have hn : ¬ limit < n := by simpa [hs, strength, hop] using hl
      simp only [hop]
      rw [if_neg hn]
      rfl
  | _ => rfl

/-- An operator that binds more strongly than the limit is read with its right operand. -/
theorem operators_cons {s : Text} {r fuel limit : Nat} {left : Expr} (ts : List Token)
    (ht : t.lexeme = .mark s) (hop : binaryOp? s = some (op, n, r)) (hn : limit < n) :
    operators (fuel + 1) limit left (t :: ts) =
      (expr fuel r >>= fun right => operators fuel limit (.binary left.line op left right)) ts := by
  rw [operators, bind_of_eq_ok (peek_cons ts (ht ▸ isSound_mark s)), ht]
  simp only [hop]
  rw [if_pos hn]
  exact bind_of_eq_ok (advance_cons t ts)

/-- No more calls and subscripts are read where an operand ends. -/
theorem suffixes_stop (e : Expr) (a : Bool)
    (h : endsOperand (next ts) = true) (hfuel : 0 < fuel) : suffixes fuel e a ts = .ok ((e, a), ts) := by
  obtain ⟨f, rfl⟩ : ∃ f, fuel = f + 1 := ⟨fuel - 1, by omega⟩
  obtain ⟨t, ht, hpeek⟩ := exists_peek (isSound_of_endsOperand h)
  rw [suffixes, bind_of_eq_ok hpeek, ht]
  cases hs : next ts with
  | string s =>
    rw [hs] at h
    cases h
  | mark s =>
    have hne : ∀ u ∈ ["[", ".", ":", "(", "\x7b"], s ≠ utf8 u := by
      rintro u hu rfl
      simp only [hs, endsOperand, suffixMarks, Bool.not_eq_true', contains_eq_mem,
        decide_eq_false_iff_not] at h
      exact h (mem_map_of_mem hu)
    simp only [hne "[" (by decide), hne "." (by decide), hne ":" (by decide), hne "(" (by decide),
      hne "\x7b" (by decide), decide_false, Bool.or_self, Bool.false_eq_true, if_false]
    rfl
  | _ => rfl

/-! ### Readers and token values -/

/-- Whether a reader has stopped where no expression ends. -/
def IsStuck (ts : List Token) : Prop :=
  next ts = mark "[" ∨ next ts = mark "("

/-- Whether a reading has failed, or has stopped where no expression ends. -/
def Wrong (x : Except SyntaxError (α × List Token)) : Prop :=
  ∀ p, x = .ok p → IsStuck p.2

/-- Whether what comes next goes wrong where a reader is stuck. -/
def Stays (k : α → Reader β) : Prop :=
  ∀ a ts, IsStuck ts → Wrong (k a ts)

/-- A reader goes past the given token values, whatever comes after them that has the property `F`, and
reads on as a reader with the property `K`. If not `strict`, it may go wrong. -/
def Goes (strict : Prop) (m : Reader α) (F : Lexeme → Prop) (ls : List Lexeme)
    (K : Reader α → Prop) : Prop :=
  ∀ ts rest : List Token, ts.map Token.lexeme = ls → F (next rest) →
    (∃ m', m (ts ++ rest) = m' rest ∧ K m') ∨ ¬strict ∧ Wrong (m (ts ++ rest))

/-- Whether a reader returns a value with the given property. -/
def Returns (Q : α → Prop) (m : Reader α) : Prop :=
  ∃ a, m = pure a ∧ Q a

/-- Whether there is enough fuel for a reading that must not go wrong. -/
def Enough (strict : Prop) (n fuel : Nat) : Prop :=
  strict → n ≤ fuel

theorem Enough.of {m fuel fuel' : Nat} (h : Enough strict n fuel) (hle : m + fuel ≤ n + fuel') :
    Enough strict m fuel' := by
  intro hs
  have := h hs
  omega

theorem mem_head?_append (h : l ∈ ls.head?) : l ∈ (ls ++ ks).head? := by
  cases ls with
  | nil => cases h
  | cons k ls => exact h

theorem next_append (rest : List Token)
    (hts : ts.map Token.lexeme = ls) (hl : l ∈ ls.head?) : next (ts ++ rest) = l := by
  subst hts
  cases ts with
  | nil => cases hl
  | cons t ts => simpa [next] using hl

section Goes

variable {m : Reader α} {k : α → Reader β} {F G : Lexeme → Prop} {Q : α → Prop} {K K' : Reader α → Prop}
  {M : Reader β → Prop}

/-- A computation that succeeds goes through its first part. -/
theorem exists_of_bind {p : β × List Token} (h : (m >>= k) ts = .ok p) :
    ∃ a ts', m ts = .ok (a, ts') ∧ k a ts' = .ok p := by
  change (m ts >>= fun p => k p.1 p.2) = _ at h
  cases hm : m ts with
  | error e =>
    rw [hm] at h
    cases h
  | ok q =>
    rw [hm] at h
    exact ⟨q.1, q.2, rfl, h⟩

theorem fail_ne_ok {fault : Fault} {p : α × List Token} : (fail fault : Reader α) ts ≠ .ok p := by
  intro h
  obtain ⟨t, ts', -, h⟩ := exists_of_bind h
  cases h

theorem fail_bind {fault : Fault} (k : α → Reader β) : ((fail fault : Reader α) >>= k) = fail fault := by
  funext ts
  rw [fail, bind_assoc]
  rfl

theorem wrong_bind (h : Wrong (m ts)) (hk : Stays k) : Wrong ((m >>= k) ts) := by
  intro p hp
  obtain ⟨a, ts', hm, hk'⟩ := exists_of_bind hp
  exact hk a ts' (h _ hm) p hk'

/-! #### Where a reader is stuck -/

theorem IsStuck.next_ne (h : IsStuck ts) (hs : mark "[" ≠ mark s ∧ mark "(" ≠ mark s) :
    next ts ≠ mark s := by
  rcases h with h | h <;> rw [h]
  · exact hs.1
  · exact hs.2

theorem IsStuck.isSound (h : IsStuck ts) : IsSound (next ts) :=
  h.elim isSound_of_eq_mark isSound_of_eq_mark

theorem stays_pure {f : α → β} : Stays fun a => (pure (f a) : Reader β) := by
  rintro a ts hstuck p hp
  obtain rfl := Except.ok.inj hp
  exact hstuck

theorem stays_expect {k : α → Unit → Reader β} (hs : mark "[" ≠ mark s ∧ mark "(" ≠ mark s) :
    Stays fun a => expect s >>= k a := by
  intro a ts hstuck p hp
  obtain ⟨_, _, hexpect, -⟩ := exists_of_bind hp
  unfold expect at hexpect
  rw [bind_of_eq_ok (isAt_eq hstuck.isSound s), decide_eq_false (hstuck.next_ne hs)] at hexpect
  exact absurd hexpect fail_ne_ok

theorem stays_accept {k : α → Bool → Reader β} (hs : mark "[" ≠ mark s ∧ mark "(" ≠ mark s)
    (hk : Stays fun a => k a false) : Stays fun a => accept s >>= k a := by
  intro a ts hstuck
  beta_reduce
  rw [bind_of_eq_ok (accept_of_ne hstuck.isSound (hstuck.next_ne hs))]
  exact hk a ts hstuck

theorem stays_operators {f : α → Expr} : Stays fun a => operators fuel limit (f a) := by
  intro a ts hstuck p hp
  have hstrength : strength (next ts) = 0 := by rcases hstuck with h | h <;> rw [h] <;> decide
  beta_reduce at hp
  cases fuel with
  | zero => exact absurd hp fail_ne_ok
  | succ fuel =>
    rw [operators_stop (f a) hstuck.isSound (hstrength ▸ Nat.zero_le _) (Nat.succ_pos fuel)] at hp
    obtain rfl := Except.ok.inj hp
    exact hstuck

/-! #### Composition -/

/-- A reading that must not go wrong. -/
theorem Goes.exists_eq (h : Goes True m F ls K) (hts : ts.map Token.lexeme = ls)
    (hrest : F (next rest)) : ∃ m', m (ts ++ rest) = m' rest ∧ K m' :=
  (h ts rest hts hrest).resolve_right fun hwrong => hwrong.1 trivial

theorem Goes.refl (h : K m) : Goes strict m F [] K := by
  intro ts rest hts _
  obtain rfl := map_eq_nil_iff.1 hts
  exact .inl ⟨m, rfl, h⟩

theorem goes_pure (h : Q a) : Goes strict (pure a) F [] (Returns Q) :=
  .refl ⟨a, rfl, h⟩

/-- What fails goes wrong. -/
theorem goes_of_ne_ok (hs : ¬strict) (h : ∀ ts p, m ts ≠ .ok p) : Goes strict m F ls K :=
  fun _ _ _ _ => .inr ⟨hs, fun p hp => absurd hp (h _ p)⟩

/-- What returns before a bracket or a parenthesis goes wrong. -/
theorem goes_stuck (hs : ¬strict) (hl : l = mark "[" ∨ l = mark "(") {a : α} :
    Goes strict (pure a) F (l :: ls) K := by
  intro ts rest hts _
  refine .inr ⟨hs, fun p hp => ?_⟩
  obtain rfl := Except.ok.inj hp
  have hnext : next (ts ++ rest) = l := next_append rest hts rfl
  rwa [← hnext] at hl

theorem Goes.mono (h : Goes strict m F ls K) (hK : ∀ m', K m' → K' m') : Goes strict m F ls K' := by
  intro ts rest hts hrest
  exact (h ts rest hts hrest).imp_left fun ⟨m', hm', hk⟩ => ⟨m', hm', hK m' hk⟩

theorem Goes.trans (h : Goes strict m F ls K) (hl : F l) (hk : ∀ m', K m' → Goes strict m' G (l :: ks) K') :
    Goes strict m G (ls ++ l :: ks) K' := by
  intro ts rest hts hrest
  obtain ⟨us, vs, rfl, hus, hvs⟩ := map_eq_append_iff.1 hts
  have hnext : next (vs ++ rest) = l := next_append rest hvs rfl
  rw [append_assoc]
  obtain ⟨m', hm', hK⟩ | hwrong := h us (vs ++ rest) hus (by rwa [hnext])
  · rw [hm']
    exact hk m' hK vs rest hvs hrest
  · exact .inr hwrong

theorem Goes.trans_last (h : Goes strict m F ls K) (hF : ∀ l, G l → F l)
    (hk : ∀ m', K m' → Goes strict m' G [] K') : Goes strict m G ls K' := by
  intro ts rest hts hrest
  obtain ⟨m', hm', hK⟩ | hwrong := h ts rest hts (hF _ hrest)
  · rw [hm']
    exact hk m' hK [] rest rfl hrest
  · exact .inr hwrong

theorem Goes.seq (h : Goes strict m F ls (Returns Q)) (hstays : ¬strict → Stays k) :
    Goes strict (m >>= k) F ls fun m' => ∃ a, m' = k a ∧ Q a := by
  intro ts rest hts hrest
  obtain ⟨m', hm', a, rfl, hQ⟩ | ⟨hs, hwrong⟩ := h ts rest hts hrest
  · exact .inl ⟨k a, bind_of_eq_ok hm', a, rfl, hQ⟩
  · exact .inr ⟨hs, wrong_bind hwrong (hstays hs)⟩

theorem Goes.bind_of_stays (h : Goes strict m F ls (Returns Q)) (hl : F l) (hstays : Stays k)
    (hk : ∀ a, Q a → Goes strict (k a) G (l :: ks) M) : Goes strict (m >>= k) G (ls ++ l :: ks) M :=
  (h.seq fun _ => hstays).trans hl fun _ ⟨a, heq, hQ⟩ => heq ▸ hk a hQ

theorem Goes.bind_last_of_stays (h : Goes strict m F ls (Returns Q)) (hF : ∀ l, G l → F l) (hstays : Stays k)
    (hk : ∀ a, Q a → Goes strict (k a) G [] M) : Goes strict (m >>= k) G ls M :=
  (h.seq fun _ => hstays).trans_last hF fun _ ⟨a, heq, hQ⟩ => heq ▸ hk a hQ

theorem Goes.bind (h : Goes True m F ls (Returns Q)) (hl : F l)
    (hk : ∀ a, Q a → Goes True (k a) G (l :: ks) M) : Goes True (m >>= k) G (ls ++ l :: ks) M :=
  (h.seq fun hs => absurd trivial hs).trans hl fun _ ⟨a, heq, hQ⟩ => heq ▸ hk a hQ

theorem Goes.bind_last (h : Goes True m F ls (Returns Q)) (hF : ∀ l, G l → F l)
    (hk : ∀ a, Q a → Goes True (k a) G [] M) : Goes True (m >>= k) G ls M :=
  (h.seq fun hs => absurd trivial hs).trans_last hF fun _ ⟨a, heq, hQ⟩ => heq ▸ hk a hQ

theorem Goes.map (h : Goes strict m F ls K) (g : α → γ) :
    Goes strict (g <$> m) F ls fun m' => ∃ m'', m' = g <$> m'' ∧ K m'' := by
  have hmap : ∀ (m : Reader α) (ts : List Token), (g <$> m) ts = (fun p => (g p.1, p.2)) <$> m ts :=
    fun _ _ => rfl
  intro ts rest hts hrest
  obtain ⟨m', hm', hK⟩ | ⟨hs, hwrong⟩ := h ts rest hts hrest
  · exact .inl ⟨g <$> m', by rw [hmap, hmap, hm'], m', rfl, hK⟩
  · refine .inr ⟨hs, ?_⟩
    rw [map_eq_pure_bind]
    exact wrong_bind hwrong stays_pure

theorem goes_peek {k : Token → Reader β} (hl : l ∈ ls.head?) (hsound : IsSound l)
    (h : ∀ t, t.lexeme = l → Goes strict (k t) F ls M) : Goes strict (peek >>= k) F ls M := by
  intro ts rest hts hrest
  have hnext : next (ts ++ rest) = l := next_append rest hts hl
  obtain ⟨t, ht, hpeek⟩ := exists_peek (hnext ▸ hsound)
  rw [bind_of_eq_ok hpeek]
  exact h t (ht.trans hnext) ts rest hts hrest

theorem goes_peek_last {k : Token → Reader β} (hF : ∀ l, F l → IsSound l)
    (h : ∀ t, F t.lexeme → Goes strict (k t) F [] M) : Goes strict (peek >>= k) F [] M := by
  intro ts rest hts hrest
  obtain rfl := map_eq_nil_iff.1 hts
  obtain ⟨t, ht, hpeek⟩ := exists_peek (hF _ hrest)
  rw [nil_append, bind_of_eq_ok hpeek]
  exact h t (ht ▸ hrest) [] rest rfl hrest

/-- A token that is passed by what is asked of it. -/
theorem goes_cons (hm : ∀ t ts, t.lexeme = l → m (t :: ts) = .ok (a, ts)) (h : Goes strict (k a) F ls M) :
    Goes strict (m >>= k) F (l :: ls) M := by
  intro ts rest hts hrest
  obtain ⟨t, us, rfl, ht, hus⟩ := map_eq_cons_iff.1 hts
  rw [cons_append, bind_of_eq_ok (hm t (us ++ rest) ht)]
  exact h us rest hus hrest

theorem goes_advance {k : Unit → Reader β} (h : Goes strict (k ()) F ls M) :
    Goes strict (advance >>= k) F (l :: ls) M :=
  goes_cons (fun t ts _ => advance_cons t ts) h

theorem goes_expect {k : Unit → Reader β} (h : Goes strict (k ()) F ls M) :
    Goes strict (expect s >>= k) F (mark s :: ls) M :=
  goes_cons (fun _ ts ht => expect_cons ts ht) h

theorem goes_accept {k : Bool → Reader β} (h : Goes strict (k true) F ls M) :
    Goes strict (accept s >>= k) F (mark s :: ls) M :=
  goes_cons (fun _ ts ht => accept_cons ts ht) h

theorem goes_name {k : Text → Reader β} {x : Text} (h : Goes strict (k x) F ls M) :
    Goes strict (name >>= k) F (.name x :: ls) M :=
  goes_cons (fun _ ts ht => name_cons ts ht) h

/-- A mark is not there. -/
theorem goes_refuse {k : Bool → Reader β} (hl : l ∈ ls.head?) (hsound : IsSound l) (hne : l ≠ mark s)
    (h : Goes strict (k false) F ls M) : Goes strict (accept s >>= k) F ls M := by
  intro ts rest hts hrest
  have hnext : next (ts ++ rest) = l := next_append rest hts hl
  rw [bind_of_eq_ok (accept_of_ne (hnext ▸ hsound) (hnext ▸ hne))]
  exact h ts rest hts hrest

theorem goes_refuse_mark {k : Bool → Reader β} {w : String} (hne : mark w ≠ mark s)
    (h : Goes strict (k false) F (mark w :: ls) M) : Goes strict (accept s >>= k) F (mark w :: ls) M :=
  goes_refuse rfl (isSound_mark _) hne h

theorem goes_refuse_last {k : Bool → Reader β} (hF : ∀ l, F l → IsSound l ∧ l ≠ mark s)
    (h : Goes strict (k false) F [] M) : Goes strict (accept s >>= k) F [] M := by
  intro ts rest hts hrest
  obtain rfl := map_eq_nil_iff.1 hts
  rw [nil_append, bind_of_eq_ok (accept_of_ne (hF _ hrest).1 (hF _ hrest).2)]
  exact h [] rest rfl hrest

/-- A reader that fails without fuel takes one unit for its first step. -/
theorem goes_succ {r : Nat → Reader α} {fuel : Nat} (hzero : r 0 = fail .syntaxError)
    (hfuel : Enough strict (n + 1) fuel) (h : ∀ f, fuel = f + 1 → Goes strict (r (f + 1)) F ls K) :
    Goes strict (r fuel) F ls K := by
  cases fuel with
  | zero => exact goes_of_ne_ok (fun hs => absurd (hfuel hs) (by omega)) fun _ _ => hzero ▸ fail_ne_ok
  | succ f => exact h f rfl

/-- A reader with enough fuel goes past the given token values and returns a value with the given
property, whatever comes after them that has the property `F`. If not `strict`, it may go wrong, with any
fuel. -/
def Reads (strict : Prop) (r : Nat → Reader α) (extra : Nat) (F : Lexeme → Prop) (ls : List Lexeme)
    (Q : α → Prop) : Prop :=
  ∀ fuel, Enough strict (8 * ls.length + extra) fuel → Goes strict (r fuel) F ls (Returns Q)

theorem Reads.mono {r : Nat → Reader α} {extra : Nat} {R : α → Prop} (h : Reads strict r extra F ls Q)
    (hQ : ∀ a, Q a → R a) : Reads strict r extra F ls R :=
  fun fuel hfuel => (h fuel hfuel).mono fun _ ⟨a, ha, hq⟩ => ⟨a, ha, hQ a hq⟩

theorem reads_of_succ {r : Nat → Reader α} {extra : Nat} (hzero : r 0 = fail .syntaxError)
    (h : ∀ fuel, Enough strict (8 * ls.length + extra) fuel → Goes strict (r (fuel + 1)) F ls (Returns Q)) :
    Reads strict r (extra + 1) F ls Q := by
  intro fuel hfuel
  refine goes_succ hzero hfuel fun f hf => h f (hfuel.of ?_)
  omega

theorem reads_succ {r : Nat → Reader α} {extra : Nat}
    (h : ∀ fuel, 8 * ls.length + extra ≤ fuel → Goes True (r (fuel + 1)) F ls (Returns Q)) :
    Reads True r (extra + 1) F ls Q := by
  intro fuel hfuel
  have := hfuel trivial
  obtain ⟨f, rfl⟩ : ∃ f, fuel = f + 1 := ⟨fuel - 1, by omega⟩
  exact h f (by omega)

end Goes

/-! ### Beginnings of expressions -/

/-- Whether a value is an operator before an operand. -/
def isUnary : Lexeme → Bool
  | .mark s => (unaryOp? s).isSome
  | _ => false

/-- Whether a value begins an operand. -/
def beginsOperand : Lexeme → Bool
  | .name _ | .number _ | .string _ => true
  | l => (["nil", "true", "false", "(", "\x7b"].map mark).contains l

/-- Whether a value begins an expression. -/
def beginsExpr (l : Lexeme) : Bool :=
  beginsOperand l || (["-", "not", "#"].map mark).contains l

/-- Whether a value is a reserved word that may stand where a name is meant. -/
def isReservedName : Lexeme → Bool
  | .mark s => reservedWords.contains s && (unaryOp? s).isNone
  | _ => false

/-- Whether a value begins an operand. Unless all is to be read, it may be a reserved word. -/
def BeginsOperand (strict : Prop) (l : Lexeme) : Prop :=
  beginsOperand l = true ∨ ¬strict ∧ isReservedName l = true

/-- Whether a value begins an expression. Unless all is to be read, it may be a reserved word. -/
def BeginsExpr (strict : Prop) (l : Lexeme) : Prop :=
  beginsExpr l = true ∨ ¬strict ∧ isReservedName l = true

theorem beginsExpr_of_beginsOperand (h : beginsOperand l = true) : beginsExpr l = true := by
  simp [beginsExpr, h]

theorem beginsExpr_of_unaryOp? {s : Text} {op : UnaryOp} (h : unaryOp? s = some op) :
    beginsExpr (.mark s) = true := by
  unfold unaryOp? at h
  split_ifs at h with hneg hnot hlength
  · subst hneg
    decide
  · subst hnot
    decide
  · subst hlength
    decide

theorem isUnary_of_beginsOperand (h : beginsOperand l = true) : isUnary l = false := by
  cases l with
  | mark s =>
    have hall : ∀ l ∈ ["nil", "true", "false", "(", "\x7b"].map mark, isUnary l = false := by decide
    exact hall _ (contains_iff_mem.1 h)
  | _ => rfl

theorem BeginsOperand.of_strict (h : BeginsOperand True l) : beginsOperand l = true :=
  h.resolve_right fun hreserved => hreserved.1 trivial

theorem BeginsExpr.of_strict (h : BeginsExpr True l) : beginsExpr l = true :=
  h.resolve_right fun hreserved => hreserved.1 trivial

theorem BeginsOperand.beginsExpr (h : BeginsOperand strict l) : BeginsExpr strict l :=
  h.imp_left beginsExpr_of_beginsOperand

theorem BeginsExpr.isSound (h : BeginsExpr strict l) : IsSound l := by
  rintro e rfl
  simp [BeginsExpr, Reader.beginsExpr, beginsOperand, isReservedName, mark] at h

/-- An expression begins with no other mark. -/
theorem BeginsExpr.ne_mark (h : BeginsExpr strict l)
    (hs : Reader.beginsExpr (mark s) = false ∧ isReservedName (mark s) = false) : l ≠ mark s := by
  rintro rfl
  simp [BeginsExpr, hs] at h

theorem BeginsOperand.isUnary_eq (h : BeginsOperand strict l) : isUnary l = false := by
  rcases h with h | ⟨-, h⟩
  · exact isUnary_of_beginsOperand h
  · cases l with
    | mark s => simp_all [isReservedName, isUnary]
    | _ => rfl

/-- A closing mark begins nothing. -/
theorem begins_closers : ∀ s ∈ closers, beginsExpr (mark s) = false ∧ isReservedName (mark s) = false := by
  decide +kernel

/-- Token values that are read as an expression. -/
structure IsExpr (strict : Prop) (ls : List Lexeme) (Q : Expr → Prop) : Prop where
  head : ∃ l ∈ ls.head?, BeginsExpr strict l
  reads : Reads strict (fun fuel => expr fuel 0) 3 (EndsExpr strict) ls Q

/-- Token values that are read as an operand. -/
structure IsOperand (strict : Prop) (ls : List Lexeme) (Q : Expr → Prop) : Prop where
  head : ∃ l ∈ ls.head?, BeginsOperand strict l
  reads : Reads strict simple 2 (Ends strict) ls Q

/-- Token values that are read as an operand whatever comes after them. -/
structure IsLiteral (strict : Prop) (ls : List Lexeme) (Q : Expr → Prop) : Prop where
  head : ∃ l ∈ ls.head?, beginsOperand l = true
  reads : Reads strict simple 2 (fun _ => True) ls Q

/-- Token values that are read as something that subscripts may come after, by a reader that returns `g` of
what it has read. A literal is read so where it is to go wrong. -/
def IsBase (strict : Prop) (r : Nat → Reader α) (extra : Nat) (g : Expr × Bool → α)
    (ls : List Lexeme) (Q : Expr → Bool → Prop) : Prop :=
  ∀ fuel, Enough strict (8 * ls.length + extra + 1) fuel →
    Goes strict (r fuel) (fun l => strict ∨ Follows l ∨ l = mark "[") ls fun m =>
      (∃ e a fuel', fuel ≤ fuel' + 8 * ls.length + extra ∧ m = g <$> suffixes fuel' e a ∧ Q e a) ∨
        ¬strict ∧ ∃ e, m = pure (g (e, false)) ∧ Q e false

/-- Token values that are read as a name or an expression in parentheses with calls and subscripts
after it. -/
def IsPrimary (strict : Prop) : List Lexeme → (Expr → Bool → Prop) → Prop :=
  IsBase strict primary 0 id

theorem IsOperand.mono (h : IsOperand strict ls Q) (hQ : ∀ e, Q e → R e) : IsOperand strict ls R :=
  ⟨h.head, h.reads.mono hQ⟩

/-! ### Literals -/

theorem isLiteral_constant (c : Constant) :
    IsLiteral strict [c.lexeme] fun e => ∃ line, e = .constant line c where
  head := ⟨_, rfl, by rcases c with _ | (_ | _) | _ | _ <;> rfl⟩
  reads := reads_of_succ rfl fun fuel _ => by
    have hsound : IsSound c.lexeme := by cases c <;> exact fun _ => Lexeme.noConfusion
    rw [simple]
    refine goes_peek rfl hsound fun t ht => ?_
    rw [ht]
    rcases c with _ | (_ | _) | x | x <;> exact goes_advance (goes_pure ⟨t.line, rfl⟩)

theorem IsLiteral.isOperand (h : IsLiteral strict ls Q) : IsOperand strict ls Q where
  head := h.head.imp fun _ hl => ⟨hl.1, .inl hl.2⟩
  reads fuel hfuel := (h.reads fuel hfuel).trans_last (fun _ _ => trivial) fun _ hm => .refl hm

/-! ### Names and parentheses -/

theorem isPrimary_name (x : Text) :
    IsPrimary strict [.name x] fun e a => (∃ line, e = .name line x) ∧ a = true := by
  intro fuel hfuel
  refine goes_succ rfl hfuel fun f hf => ?_
  rw [primary]
  refine goes_peek rfl (fun _ => Lexeme.noConfusion) fun t ht => ?_
  rw [ht]
  exact goes_advance (.refl (.inl ⟨_, _, f, by simp; omega, (id_map _).symm, ⟨t.line, rfl⟩, rfl⟩))

theorem isPrimary_inParens (h : IsExpr strict ls Q) :
    IsPrimary strict (inParens ls) fun e a => (∃ line u, Q u ∧ e = u.parenthesized line) ∧ a = false := by
  intro fuel hfuel
  simp only [inParens, length_cons, length_append, length_nil] at hfuel ⊢
  refine goes_succ rfl hfuel fun f hf => ?_
  rw [primary]
  refine goes_peek rfl (isSound_mark _) fun t ht => ?_
  rw [ht]
  refine goes_expect ?_
  refine (h.reads f (hfuel.of (by omega))).bind_of_stays (endsExpr_mark (by decide))
    (stays_expect (by decide)) fun u hQ => ?_
  refine goes_expect ?_
  exact .refl (.inl ⟨_, _, f, by omega, (id_map _).symm, ⟨t.line, u, hQ, rfl⟩, rfl⟩)

/-! ### Lists -/

/-- Token values that are read as expressions with commas between them. -/
structure IsExprs (strict : Prop) (ls : List Lexeme) (Q : List Expr → Prop) : Prop where
  head : ∃ l ∈ ls.head?, BeginsExpr strict l
  reads : Reads strict exprs 4 (EndsExprs strict) ls Q

theorem isExprs_singleton (h : IsExpr strict ls Q) : IsExprs strict ls fun es => ∃ e, Q e ∧ es = [e] where
  head := h.head
  reads := reads_of_succ rfl fun fuel hfuel => by
    rw [exprs]
    refine (h.reads fuel hfuel).bind_last_of_stays (fun _ hl => hl.1)
      (stays_accept (by decide) stays_pure) fun e hQ => ?_
    refine goes_refuse_last (fun l hl => ⟨isSound_of_endsOperand hl.1.1.1, hl.2⟩) ?_
    exact goes_pure ⟨e, hQ, rfl⟩

theorem isExprs_cons {R : List Expr → Prop} (h : IsExpr strict ls Q) (hk : IsExprs strict ks R) :
    IsExprs strict (ls ++ mark "," :: ks) fun es => ∃ e es', Q e ∧ R es' ∧ es = e :: es' where
  head := h.head.imp fun _ hl => ⟨mem_head?_append hl.1, hl.2⟩
  reads := reads_of_succ rfl fun fuel hfuel => by
    simp only [length_append, length_cons] at hfuel
    rw [exprs]
    refine (h.reads fuel (hfuel.of (by omega))).bind_of_stays (endsExpr_mark (by decide))
      (stays_accept (by decide) stays_pure) fun e hQ => ?_
    refine goes_accept ?_
    refine (hk.reads fuel (hfuel.of (by omega))).bind_last_of_stays (fun _ hl => hl) stays_pure
      fun es hR => ?_
    exact goes_pure ⟨e, es, hQ, hR, rfl⟩

theorem IsExprs.mono {Q R : List Expr → Prop} (h : IsExprs strict ls Q)
    (hQ : ∀ es, Q es → R es) : IsExprs strict ls R :=
  ⟨h.head, h.reads.mono hQ⟩

/-- Lists of token values with commas between them. -/
def commas : List (List Lexeme) → List Lexeme
  | [] => []
  | ls :: lss => ls ++ lss.flatMap (mark "," :: ·)

theorem commas_append {lss kss : List (List Lexeme)} (h : lss ≠ []) (hk : kss ≠ []) :
    commas (lss ++ kss) = commas lss ++ mark "," :: commas kss := by
  obtain ⟨ls, lss, rfl⟩ := exists_cons_of_ne_nil h
  obtain ⟨ks, kss, rfl⟩ := exists_cons_of_ne_nil hk
  simp [commas]

theorem isExprs_commas {ι : Type} {R : ι → Expr → Prop} {is : List ι} {lss : List (List Lexeme)}
    (h : List.Forall₂ (fun i ls => IsExpr strict ls (R i)) is lss) (hne : lss ≠ []) :
    IsExprs strict (commas lss) (List.Forall₂ R is) := by
  induction h with
  | nil => exact absurd rfl hne
  | @cons i ls is lss hls h ih =>
    cases h with
    | nil =>
      rw [commas, flatMap_nil, append_nil]
      refine (isExprs_singleton hls).mono ?_
      rintro _ ⟨e, he, rfl⟩
      exact .cons he .nil
    | cons hks h =>
      refine (isExprs_cons hls (ih (cons_ne_nil _ _))).mono ?_
      rintro _ ⟨e, es, he, hes, rfl⟩
      exact .cons he hes

/-! ### Calls and subscripts -/

/-- Token values that are read as the arguments of a call. They do not end where no expression does. -/
def IsArgs (strict : Prop) (ls : List Lexeme) (Q : List Expr → Prop) : Prop :=
  ls.head? = some (mark "(") ∧ ∀ fuel, Enough strict (8 * ls.length) fuel →
    ∀ (k : List Expr → Reader (Expr × Bool)) (F : Lexeme → Prop),
      Goes strict (args fuel >>= k) F ls fun m => ∃ es, m = k es ∧ Q es

theorem isArgs_nil : IsArgs strict (inParens []) fun es => es = [] := by
  refine ⟨rfl, fun fuel hfuel k F => goes_succ (r := fun fuel => args fuel >>= k) (fail_bind k) hfuel fun f hf => ?_⟩
  simp only [args, bind_assoc]
  refine goes_peek rfl (isSound_mark _) fun t ht => ?_
  simp only [ht, mark, bind_assoc]
  refine goes_refuse_mark (by decide) ?_
  simp only [Bool.false_eq_true, if_false, bind_assoc]
  refine goes_expect ?_
  exact goes_accept (.refl ⟨[], rfl, rfl⟩)

theorem isArgs_exprs {Q : List Expr → Prop} (h : IsExprs strict ls Q) : IsArgs strict (inParens ls) Q := by
  refine ⟨rfl, fun fuel hfuel k F => goes_succ (r := fun fuel => args fuel >>= k) (fail_bind k) hfuel fun f hf => ?_⟩
  simp only [inParens, length_cons, length_append, length_nil] at hfuel
  obtain ⟨l, hl, hbegins⟩ := h.head
  simp only [args, bind_assoc]
  refine goes_peek rfl (isSound_mark _) fun t ht => ?_
  simp only [ht, mark, bind_assoc]
  refine goes_refuse_mark (by decide) ?_
  simp only [Bool.false_eq_true, if_false, bind_assoc]
  refine goes_expect ?_
  refine goes_refuse (mem_head?_append hl) hbegins.isSound (hbegins.ne_mark (begins_closers _ (by decide))) ?_
  simp only [Bool.false_eq_true, if_false, bind_assoc, pure_bind]
  refine (h.reads f (hfuel.of (by omega))).bind_of_stays ⟨endsExpr_mark (by decide), by decide⟩
    (stays_expect (by decide)) fun es hQ => ?_
  exact goes_expect (.refl ⟨es, rfl, hQ⟩)

theorem isPrimary_call {R : List Expr → Prop} (x : Text) (hk : IsArgs strict ks R) :
    IsPrimary strict (.name x :: ks) fun e a =>
      (∃ line u vs, (∃ line, u = .name line x) ∧ R vs ∧ e = .call line false u vs) ∧ a = false := by
  intro fuel hfuel
  obtain ⟨hopen, hargs⟩ := hk
  obtain ⟨ks, rfl⟩ := head?_eq_some_iff.1 hopen
  simp only [length_cons] at hfuel hargs ⊢
  refine goes_succ rfl hfuel fun f hf => ?_
  rw [primary]
  refine goes_peek rfl (fun _ => Lexeme.noConfusion) fun t ht => ?_
  rw [ht]
  refine goes_advance ?_
  refine goes_succ (r := fun fuel => suffixes fuel _ true) (n := 0) rfl (hfuel.of (by omega)) fun f' hf' => ?_
  simp only [suffixes]
  refine goes_peek rfl (isSound_mark _) fun u hu => ?_
  rw [hu]
  refine (hargs f' (hfuel.of (by omega)) _ _).mono ?_
  rintro _ ⟨es, rfl, hR⟩
  exact .inl ⟨_, _, f', by omega, (id_map _).symm, ⟨_, _, es, ⟨t.line, rfl⟩, hR, rfl⟩, rfl⟩

theorem goes_suffixes_index (hk : IsExpr strict ks R)
    (u : Expr) (b : Bool) (hfuel : Enough strict (8 * ks.length + 4) fuel) {F : Lexeme → Prop} :
    Goes strict (suffixes fuel u b) F (mark "[" :: (ks ++ [mark "]"])) fun m =>
      ∃ v fuel', fuel = fuel' + 1 ∧ m = suffixes fuel' (.index u.line u v) true ∧ R v := by
  refine goes_succ (r := fun fuel => suffixes fuel u b) rfl hfuel fun f hf => ?_
  simp only [suffixes]
  refine goes_peek rfl (isSound_mark _) fun t ht => ?_
  rw [ht]
  refine goes_advance ?_
  refine (hk.reads f (hfuel.of (by omega))).bind_of_stays (endsExpr_mark (by decide))
    (stays_expect (by decide)) fun v hR => ?_
  exact goes_expect (.refl ⟨v, f, hf, rfl, hR⟩)

section Base

variable {r : Nat → Reader α} {extra : Nat} {g : Expr × Bool → α} {Q R : Expr → Bool → Prop}

theorem IsBase.mono (h : IsBase strict r extra g ls Q) (hQ : ∀ e a, Q e a → R e a) :
    IsBase strict r extra g ls R :=
  fun fuel hfuel => (h fuel hfuel).mono fun _ hm => hm.imp
    (fun ⟨e, a, fuel', hf, hm, hq⟩ => ⟨e, a, fuel', hf, hm, hQ e a hq⟩)
    fun ⟨hs, e, hm, hq⟩ => ⟨hs, e, hm, hQ e false hq⟩

theorem isBase_index {S : Expr → Prop} (h : IsBase strict r extra g ls Q) (hk : IsExpr strict ks S) :
    IsBase strict r extra g (ls ++ mark "[" :: (ks ++ [mark "]"])) fun e a =>
      (∃ line u b v, Q u b ∧ S v ∧ e = .index line u v) ∧ a = true := by
  intro fuel hfuel
  simp only [length_cons, length_append, length_nil] at hfuel ⊢
  refine (h fuel (hfuel.of (by omega))).trans (.inr (.inr rfl)) ?_
  rintro _ (⟨u, b, f, hf, rfl, hQ⟩ | ⟨hs, e, rfl, -⟩)
  · refine ((goes_suffixes_index hk u b (hfuel.of (by omega))).map g).mono ?_
    rintro _ ⟨_, rfl, v, f', rfl, rfl, hS⟩
    exact .inl ⟨_, _, f', by omega, rfl, ⟨u.line, u, b, v, hQ, hS, rfl⟩, rfl⟩
  · exact goes_stuck hs (.inl rfl)

/-- Calls and subscripts end where an operand does. -/
theorem IsBase.goes (h : IsBase strict r extra g ls Q)
    (hfuel : Enough strict (8 * ls.length + extra + 1) fuel) :
    Goes strict (r fuel) (Ends strict) ls (Returns fun b => ∃ e a, b = g (e, a) ∧ Q e a) := by
  refine (h fuel hfuel).trans_last (fun l hl => hl.2.imp_right .inl) ?_
  rintro _ (⟨e, a, f, hf, rfl, hQ⟩ | ⟨-, e, rfl, hQ⟩)
  · have hf' : Enough strict 1 f := hfuel.of (by omega)
    have hstop : Goes strict (suffixes f e a) (Ends strict) [] (Returns fun p => p = (e, a)) := by
      refine goes_succ (r := fun f => suffixes f e a) (n := 0) rfl hf' fun f' _ => ?_
      intro ts rest hts hrest
      obtain rfl := map_eq_nil_iff.1 hts
      exact .inl ⟨pure (e, a), suffixes_stop e a hrest.1 (Nat.succ_pos f'), (e, a), rfl, rfl⟩
    refine (hstop.map g).mono ?_
    rintro _ ⟨_, rfl, _, rfl, rfl⟩
    exact ⟨g (e, a), map_pure g (e, a), e, a, rfl, hQ⟩
  · exact .refl ⟨g (e, false), rfl, e, false, rfl, hQ⟩

end Base

theorem IsPrimary.goes {Q : Expr → Bool → Prop} (h : IsPrimary strict ls Q)
    (hfuel : Enough strict (8 * ls.length + 1) fuel) :
    Goes strict (primary fuel) (Ends strict) ls (Returns fun p => Q p.1 p.2) :=
  (IsBase.goes h hfuel).mono fun _ ⟨p, hm, e, a, hp, hQ⟩ => ⟨p, hm, by rw [hp]; exact hQ⟩

/-- Whether a value begins a name or an expression in parentheses. -/
def beginsPrimary : Lexeme → Bool
  | .name _ => true
  | l => l = mark "("

theorem beginsOperand_of_beginsPrimary (h : beginsPrimary l = true) : beginsOperand l = true := by
  cases l with
  | name x => rfl
  | mark s =>
    obtain rfl : s = utf8 "(" := by simpa [beginsPrimary, mark] using h
    decide
  | _ => cases h

/-- Token values that are read as an operand that subscripts may come after. -/
structure IsSubscriptable (strict : Prop) (ls : List Lexeme) (Q : Expr → Bool → Prop) : Prop where
  head : ∃ l ∈ ls.head?, BeginsOperand strict l
  reads : IsBase strict simple 1 Prod.fst ls Q

theorem IsPrimary.isSubscriptable {Q : Expr → Bool → Prop} (h : IsPrimary strict ls Q)
    (hl : ∃ l ∈ ls.head?, beginsPrimary l = true) : IsSubscriptable strict ls Q where
  head := hl.imp fun _ hl => ⟨hl.1, .inl (beginsOperand_of_beginsPrimary hl.2)⟩
  reads := by
    intro fuel hfuel
    obtain ⟨l, hl, hbegins⟩ := hl
    refine goes_succ rfl hfuel fun f hf => ?_
    have hprimary : Goes strict (primary f >>= fun p => pure p.1)
        (fun l => strict ∨ Follows l ∨ l = mark "[") ls fun m =>
          (∃ e a fuel', fuel ≤ fuel' + 8 * ls.length + 1 ∧ m = Prod.fst <$> suffixes fuel' e a ∧ Q e a) ∨
            ¬strict ∧ ∃ e, m = pure e ∧ Q e false := by
      rw [← map_eq_pure_bind]
      refine ((h f (hfuel.of (by omega))).map Prod.fst).mono ?_
      rintro _ ⟨_, rfl, ⟨e, a, fuel', hf', rfl, hQ⟩ | ⟨hs, e, rfl, hQ⟩⟩
      · exact .inl ⟨e, a, fuel', by omega, by rw [id_map], hQ⟩
      · exact .inr ⟨hs, e, map_pure Prod.fst (e, false), hQ⟩
    rw [simple]
    cases l with
    | name x =>
      refine goes_peek hl (fun _ => Lexeme.noConfusion) fun t ht => ?_
      rw [ht]
      exact hprimary
    | mark s =>
      obtain rfl : s = utf8 "(" := by simpa [beginsPrimary, mark] using hbegins
      refine goes_peek hl (isSound_mark _) fun t ht => ?_
      rw [ht]
      exact hprimary
    | _ => cases hbegins

theorem IsSubscriptable.mono {Q R : Expr → Bool → Prop} (h : IsSubscriptable strict ls Q)
    (hQ : ∀ e a, Q e a → R e a) : IsSubscriptable strict ls R :=
  ⟨h.head, h.reads.mono hQ⟩

theorem IsSubscriptable.isOperand {Q : Expr → Bool → Prop}
    (h : IsSubscriptable strict ls Q) : IsOperand strict ls fun e => ∃ a, Q e a where
  head := h.head
  reads _ hfuel := (h.reads.goes hfuel).mono fun _ ⟨_, hm, e, a, he, hQ⟩ => ⟨e, hm.trans (congrArg pure he), a, hQ⟩

theorem isSubscriptable_index {Q : Expr → Bool → Prop}
    (h : IsSubscriptable strict ls Q) (hk : IsExpr strict ks R) :
    IsSubscriptable strict (ls ++ mark "[" :: (ks ++ [mark "]"])) fun e a =>
      (∃ line u b v, Q u b ∧ R v ∧ e = .index line u v) ∧ a = true where
  head := h.head.imp fun _ hl => ⟨mem_head?_append hl.1, hl.2⟩
  reads := isBase_index h.reads hk

/-- Where it may go wrong, a literal counts as an operand that subscripts may come after. -/
theorem IsLiteral.isSubscriptable (h : IsLiteral strict ls Q)
    (hs : ¬strict) : IsSubscriptable strict ls fun e _ => Q e where
  head := h.head.imp fun _ hl => ⟨hl.1, .inl hl.2⟩
  reads fuel hfuel := (h.reads fuel hfuel).trans_last (fun _ _ => trivial)
    fun _ ⟨e, hm, hQ⟩ => .refl (.inr ⟨hs, e, hm, hQ⟩)

/-! ### Operators by their strength -/

/-- An expression that begins with an operand. -/
theorem expr_of_simple (limit : Nat) (hsound : IsSound (next ts)) (hunary : isUnary (next ts) = false) :
    expr (fuel + 1) limit ts = (simple fuel >>= operators fuel limit) ts := by
  obtain ⟨t, ht, hpeek⟩ := exists_peek hsound
  rw [expr, bind_of_eq_ok hpeek, ht]
  cases hs : next ts with
  | mark s =>
    have hnone : unaryOp? s = none := by simpa [hs, isUnary] using hunary
    simp only [hnone]
  | _ => rfl

/-- An expression that begins with an operator. -/
theorem expr_of_unary {s : Text} {op : UnaryOp} (limit : Nat) (ts : List Token)
    (ht : t.lexeme = .mark s) (hop : unaryOp? s = some op) :
    expr (fuel + 1) limit (t :: ts) =
      (expr fuel unaryBinding >>= fun e => operators fuel limit (.unary e.line op e)) ts := by
  rw [expr, bind_of_eq_ok (peek_cons ts (ht ▸ isSound_mark s)), ht]
  simp only [hop]
  exact bind_of_eq_ok (advance_cons t ts)

theorem IsOperand.goes_expr (h : IsOperand strict ls Q) (limit : Nat)
    (hfuel : Enough strict (8 * ls.length + 2) fuel) :
    Goes strict (expr (fuel + 1) limit) (Ends strict) ls fun m => ∃ e, m = operators fuel limit e ∧ Q e := by
  intro ts rest hts hrest
  obtain ⟨l, hl, hbegins⟩ := h.head
  have hnext := next_append rest hts hl
  rw [expr_of_simple limit (hnext ▸ hbegins.beginsExpr.isSound) (hnext ▸ hbegins.isUnary_eq)]
  exact (h.reads fuel hfuel).seq (fun _ => stays_operators) ts rest hts hrest

theorem goes_unary {s : Text} {op : UnaryOp} {F : Lexeme → Prop} (limit : Nat) (hop : unaryOp? s = some op)
    (h : Goes strict (expr fuel unaryBinding) F ls (Returns Q)) :
    Goes strict (expr (fuel + 1) limit) F (.mark s :: ls) fun m =>
      ∃ u, m = operators fuel limit (.unary u.line op u) ∧ Q u := by
  intro ts rest hts hrest
  obtain ⟨t, us, rfl, ht, hus⟩ := map_eq_cons_iff.1 hts
  rw [cons_append, expr_of_unary limit _ ht hop]
  exact h.seq (fun _ => stays_operators) us rest hus hrest

theorem goes_binary {s : Text} {r fuel limit : Nat} {left : Expr} {F : Lexeme → Prop}
    (hop : binaryOp? s = some (op, n, r)) (hn : limit < n) (h : Goes strict (expr fuel r) F ls (Returns Q)) :
    Goes strict (operators (fuel + 1) limit left) F (.mark s :: ls) fun m =>
      ∃ v, m = operators fuel limit (.binary left.line op left v) ∧ Q v := by
  intro ts rest hts hrest
  obtain ⟨t, us, rfl, ht, hus⟩ := map_eq_cons_iff.1 hts
  rw [cons_append, operators_cons _ ht hop hn]
  exact h.seq (fun _ => stays_operators) us rest hus hrest

/-- No more operators are read where none binds more strongly than the limit. -/
theorem goes_operators (e : Expr) (hfuel : Enough strict 1 fuel)
    (hQ : Q e) {F : Lexeme → Prop} (hF : ∀ l, F l → Ends strict l ∧ strength l ≤ limit) :
    Goes strict (operators fuel limit e) F [] (Returns Q) := by
  refine goes_succ (r := fun fuel => operators fuel limit e) (n := 0) rfl hfuel fun f _ => ?_
  intro ts rest hts hrest
  obtain rfl := map_eq_nil_iff.1 hts
  obtain ⟨hends, hstrength⟩ := hF _ hrest
  exact .inl ⟨pure e, operators_stop e (isSound_of_endsOperand hends.1) hstrength (Nat.succ_pos f), e, rfl, hQ⟩

/-- Token values that are read as an expression whose operators bind at least as strongly as `p`. What
comes after them may go on with an operator that binds less strongly. -/
structure ReadsAt (strict : Prop) (p : Nat) (ls : List Lexeme) (Q : Expr → Prop) : Prop where
  head : ∃ l ∈ ls.head?, BeginsExpr strict l
  reads : ∀ fuel limit, limit < p → Enough strict (8 * ls.length + 3) fuel →
    Goes strict (expr fuel limit) (fun l => Ends strict l ∧ strength l ≤ min p unaryBinding) ls fun m =>
      ∃ e fuel', fuel ≤ fuel' + 8 * ls.length ∧ m = operators fuel' limit e ∧ Q e

theorem ReadsAt.mono {q : Nat} (h : ReadsAt strict p ls Q) (hqp : q ≤ p) (hQ : ∀ e, Q e → R e) :
    ReadsAt strict q ls R where
  head := h.head
  reads := by
    intro fuel limit hlimit hfuel
    refine (h.reads fuel limit (by omega) hfuel).trans_last (fun l hl => ⟨hl.1, by omega⟩) ?_
    rintro m ⟨e, f, hf, hm, hq⟩
    exact .refl ⟨e, f, hf, hm, hQ e hq⟩

/-- The operators are those of the whole expression where none comes after it. -/
theorem ReadsAt.goes (h : ReadsAt strict p ls Q) (hlimit : limit < p)
    (hfuel : Enough strict (8 * ls.length + 3) fuel) {F : Lexeme → Prop}
    (hF : ∀ l, F l → Ends strict l ∧ strength l ≤ min limit unaryBinding) :
    Goes strict (expr fuel limit) F ls (Returns Q) := by
  refine (h.reads fuel limit hlimit hfuel).trans_last (fun l hl => ⟨(hF l hl).1, ?_⟩) ?_
  · have := (hF l hl).2
    omega
  · rintro _ ⟨e, f, hf, rfl, hQ⟩
    exact goes_operators e (hfuel.of (by omega)) hQ fun l hl => ⟨(hF l hl).1, by have := (hF l hl).2; omega⟩

theorem ReadsAt.isExpr (h : ReadsAt strict p ls Q) (hp : 0 < p) : IsExpr strict ls Q where
  head := h.head
  reads _ hfuel := h.goes hp hfuel fun _ hl => ⟨hl.1, by rw [hl.2]; exact Nat.zero_le _⟩

theorem IsOperand.readsAt (h : IsOperand strict ls Q) (p : Nat) : ReadsAt strict p ls Q where
  head := h.head.imp fun _ hl => ⟨hl.1, hl.2.beginsExpr⟩
  reads := by
    intro fuel limit _ hfuel
    obtain ⟨l, hl, -⟩ := h.head
    have hpos : 0 < ls.length := length_pos_of_mem (mem_of_mem_head? hl)
    refine goes_succ (r := fun fuel => expr fuel limit) rfl hfuel fun f hf => ?_
    refine (h.goes_expr limit (hfuel.of (by omega))).trans_last (fun l hl => hl.1) ?_
    rintro _ ⟨e, rfl, hQ⟩
    exact .refl ⟨e, f, by omega, rfl, hQ⟩

theorem readsAt_unary {op : UnaryOp} (p : Nat)
    (hop : unaryOp? (utf8 s) = some op) (h : ReadsAt strict (unaryBinding + 1) ls Q) :
    ReadsAt strict p (mark s :: ls) fun e => ∃ line u, Q u ∧ e = .unary line op u where
  head := ⟨_, rfl, .inl (beginsExpr_of_unaryOp? hop)⟩
  reads := by
    intro fuel limit _ hfuel
    simp only [length_cons] at hfuel ⊢
    refine goes_succ (r := fun fuel => expr fuel limit) rfl hfuel fun f hf => ?_
    have hu : Goes strict (expr f unaryBinding) (fun l => Ends strict l ∧ strength l ≤ min p unaryBinding) ls
        (Returns Q) :=
      h.goes (Nat.lt_succ_self _) (hfuel.of (by omega)) fun l hl => ⟨hl.1, by omega⟩
    refine (goes_unary limit hop hu).mono ?_
    rintro _ ⟨u, rfl, hQ⟩
    exact ⟨_, f, by omega, rfl, u.line, u, hQ, rfl⟩

theorem readsAt_binary (hop : binaryOp? (utf8 s) = some (op, p, p)) (hp : p ≤ unaryBinding)
    (h : ReadsAt strict p ls Q) (hk : ReadsAt strict (p + 1) ks R) :
    ReadsAt strict p (ls ++ mark s :: ks) fun e => ∃ line u v, Q u ∧ R v ∧ e = .binary line op u v where
  head := h.head.imp fun _ hl => ⟨mem_head?_append hl.1, hl.2⟩
  reads := by
    intro fuel limit hlimit hfuel
    simp only [length_append, length_cons] at hfuel ⊢
    have hmark : strength (mark s) = p := by simp [strength, mark, hop]
    refine (h.reads fuel limit hlimit (hfuel.of (by omega))).trans
      ⟨(binaryOp?_spec hop).1 strict, by omega⟩ ?_
    rintro _ ⟨u, f, hf, rfl, hQ⟩
    refine goes_succ (r := fun f => operators f limit u) (n := 0) rfl (hfuel.of (by omega)) fun f' hf' => ?_
    -- The right operand ends where the whole expression does.
    have hv : Goes strict (expr f' p) (fun l => Ends strict l ∧ strength l ≤ min p unaryBinding) ks
        (Returns R) :=
      hk.goes (Nat.lt_succ_self p) (hfuel.of (by omega)) fun _ hl => hl
    refine (goes_binary hop hlimit hv).mono ?_
    rintro _ ⟨v, rfl, hR⟩
    exact ⟨_, f', by omega, rfl, u.line, u, v, hQ, hR, rfl⟩

/-- A power binds more strongly than what stands before it. -/
theorem readsAt_power (h : IsOperand strict ls Q) (hk : ReadsAt strict 10 ks R) :
    ReadsAt strict 10 (ls ++ mark "^" :: ks) fun e =>
      ∃ line u v, Q u ∧ R v ∧ e = .binary line (.arith .pow) u v where
  head := h.head.imp fun _ hl => ⟨mem_head?_append hl.1, hl.2.beginsExpr⟩
  reads := by
    intro fuel limit hlimit hfuel
    simp only [length_append, length_cons] at hfuel ⊢
    have hop : binaryOp? (utf8 "^") = some (.arith .pow, 10, 9) := by decide
    refine goes_succ (r := fun fuel => expr fuel limit) rfl hfuel fun f hf => ?_
    refine (h.goes_expr limit (hfuel.of (by omega))).trans (ends_mark (by decide)) ?_
    rintro _ ⟨u, rfl, hQ⟩
    refine goes_succ (r := fun f => operators f limit u) (n := 0) rfl (hfuel.of (by omega)) fun f' hf' => ?_
    have hv : Goes strict (expr f' 9) (fun l => Ends strict l ∧ strength l ≤ min 10 unaryBinding) ks
        (Returns R) :=
      hk.goes (by decide) (hfuel.of (by omega)) fun l hl => ⟨hl.1, by unfold unaryBinding at *; omega⟩
    refine (goes_binary hop hlimit hv).mono ?_
    rintro _ ⟨v, rfl, hR⟩
    exact ⟨_, f', by omega, rfl, u.line, u, v, hQ, hR, rfl⟩

/-! ### Operators whatever their strength -/

/-- Operands with operators between and before them. The operators between them bind at least as
strongly as `p`. -/
inductive Chain (p : Nat) : List Lexeme → Prop
  | operand {ls : List Lexeme} (h : IsOperand True ls fun _ => True) : Chain p ls
  | unary {s : Text} {op : UnaryOp} {ls : List Lexeme} (hop : unaryOp? s = some op)
      (h : Chain p ls) : Chain p (.mark s :: ls)
  | binary {s : Text} {op : BinaryOp} {n r : Nat} {ls ks : List Lexeme}
      (h : IsOperand True ls fun _ => True) (hop : binaryOp? s = some (op, n, r)) (hr : p ≤ r)
      (hk : Chain p ks) : Chain p (ls ++ .mark s :: ks)

/-- What is left of a chain after an operand, if no operator that binds more strongly than `limit`
comes next. -/
def Stops (p limit : Nat) (ls : List Lexeme) : Prop :=
  ls = [] ∨ ∃ s op n r ks, ls = .mark s :: ks ∧ binaryOp? s = some (op, n, r) ∧ p ≤ r ∧
    n ≤ limit ∧ Chain p ks

/-- What is left of a chain after an operand. -/
def Tail (p : Nat) (ls : List Lexeme) : Prop :=
  ls = [] ∨ ∃ s op n r ks, ls = .mark s :: ks ∧ binaryOp? s = some (op, n, r) ∧ p ≤ r ∧ Chain p ks

theorem Stops.tail {limit : Nat} (h : Stops p limit ls) : Tail p ls := by
  obtain rfl | ⟨s, op, n, r, ks, rfl, hop, hr, -, hks⟩ := h
  · exact .inl rfl
  · exact .inr ⟨s, op, n, r, ks, rfl, hop, hr, hks⟩

theorem Stops.operators {limit fuel : Nat} (e : Expr) (h : Stops p limit (ts.map Token.lexeme))
    (hrest : endsOperand (next rest) = true) (hstrength : strength (next rest) ≤ limit) (hfuel : 0 < fuel) :
    operators fuel limit e (ts ++ rest) = .ok (e, ts ++ rest) := by
  obtain hnil | ⟨s, op, n, r, ks, hts, hop, -, hn, -⟩ := h
  · rw [map_eq_nil_iff.1 hnil]
    exact operators_stop e (isSound_of_endsOperand hrest) hstrength hfuel
  · have hnext : next (ts ++ rest) = .mark s := next_append rest hts rfl
    refine operators_stop e (hnext ▸ isSound_mark s) ?_ hfuel
    simpa [hnext, strength, hop] using hn

theorem Chain.head (h : Chain p ls) : ∃ l ∈ ls.head?, beginsExpr l = true := by
  cases h with
  | operand h =>
    obtain ⟨l, hl, hbegins⟩ := h.head
    exact ⟨l, hl, beginsExpr_of_beginsOperand hbegins.of_strict⟩
  | unary hop _ => exact ⟨_, rfl, beginsExpr_of_unaryOp? hop⟩
  | binary h _ _ _ =>
    obtain ⟨l, hl, hbegins⟩ := h.head
    exact ⟨l, mem_head?_append hl, beginsExpr_of_beginsOperand hbegins.of_strict⟩

/-- One reading of operands and operators up to where an operator binds too weakly, after a first
operand and from the beginning. The induction is on the number of tokens. -/
theorem exists_stops {rest : List Token} (hrest : endsOperand (next rest) = true)
    (hstrength : strength (next rest) ≤ min p unaryBinding) (n : Nat) :
    (∀ (ts : List Token) (fuel limit : Nat) (e : Expr), ts.length ≤ n →
      Tail p (ts.map Token.lexeme) → 8 * ts.length < fuel →
      ∃ e' fuel' ts', fuel + 8 * ts'.length ≤ fuel' + 8 * ts.length ∧ ts'.length ≤ ts.length ∧
        Stops p limit (ts'.map Token.lexeme) ∧
        operators fuel limit e (ts ++ rest) = operators fuel' limit e' (ts' ++ rest)) ∧
    ∀ (ts : List Token) (fuel limit : Nat), ts.length ≤ n → Chain p (ts.map Token.lexeme) →
      8 * ts.length + 2 < fuel →
      ∃ e' fuel' ts', fuel + 8 * ts'.length ≤ fuel' + 8 * ts.length ∧ ts'.length < ts.length ∧
        Stops p limit (ts'.map Token.lexeme) ∧
        expr fuel limit (ts ++ rest) = operators fuel' limit e' (ts' ++ rest) := by
  induction n with
  | zero =>
    constructor
    · intro ts fuel limit e hts _ _
      obtain rfl := eq_nil_of_length_eq_zero (Nat.le_zero.1 hts)
      exact ⟨e, fuel, [], le_rfl, le_rfl, .inl rfl, rfl⟩
    · intro ts fuel limit hts hchain _
      obtain rfl := eq_nil_of_length_eq_zero (Nat.le_zero.1 hts)
      obtain ⟨l, hl, -⟩ := hchain.head
      cases hl
  | succ n ih =>
    obtain ⟨ihTail, ihChain⟩ := ih
    have hunary : strength (next rest) ≤ unaryBinding := by omega
    constructor
    · intro ts fuel limit e hts htail hfuel
      obtain hnil | ⟨s, op, m, r, ks, hmap, hop, hr, hks⟩ := htail
      · exact ⟨e, fuel, ts, by omega, le_rfl, .inl hnil, rfl⟩
      · by_cases hm : limit < m
        · obtain ⟨t, us, rfl, ht, rfl⟩ := map_eq_cons_iff.1 hmap
          simp only [length_cons] at hts hfuel ⊢
          obtain ⟨f, rfl⟩ : ∃ f, fuel = f + 1 := ⟨fuel - 1, by omega⟩
          obtain ⟨v, f₁, ts₁, hf₁, hlt₁, hstops₁, hv⟩ :=
            ihChain us f r (by omega) hks (by omega)
          rw [hstops₁.operators v hrest (by omega) (by omega)] at hv
          obtain ⟨e', f₂, ts₂, hf₂, hle₂, hstops₂, he'⟩ := ihTail ts₁ f limit
            (.binary e.line op e v) (by omega) hstops₁.tail (by omega)
          refine ⟨e', f₂, ts₂, by omega, by omega, hstops₂, ?_⟩
          rw [← he', cons_append]
          exact (operators_cons _ ht hop hm).trans (bind_of_eq_ok hv)
        · exact ⟨e, fuel, ts, by omega, le_rfl,
            .inr ⟨s, op, m, r, ks, hmap, hop, hr, by omega, hks⟩, rfl⟩
    · intro ts fuel limit hts hchain hfuel
      obtain ⟨f, rfl⟩ : ∃ f, fuel = f + 1 := ⟨fuel - 1, by omega⟩
      generalize hls : ts.map Token.lexeme = ls at hchain
      cases hchain with
      | operand h =>
        obtain ⟨l, hl, hbegins⟩ := h.head
        have hlength : ls.length = ts.length := by rw [← hls, length_map]
        obtain ⟨_, he, e, rfl, -⟩ := (h.reads f fun _ => by omega).exists_eq hls ⟨hrest, .inl trivial⟩
        have hpos : 0 < ls.length := length_pos_of_mem (mem_of_mem_head? hl)
        refine ⟨e, f, [], by simp; omega, by simp; omega, .inl rfl, ?_⟩
        rw [← next_append rest hls hl] at hbegins
        exact (expr_of_simple limit hbegins.beginsExpr.isSound hbegins.isUnary_eq).trans (bind_of_eq_ok he)
      | @unary s op ks hop h =>
        obtain ⟨t, us, rfl, ht, rfl⟩ := map_eq_cons_iff.1 hls
        simp only [length_cons] at hts hfuel ⊢
        obtain ⟨u, f₁, ts₁, hf₁, hlt₁, hstops₁, hu⟩ :=
          ihChain us f unaryBinding (by omega) h (by omega)
        rw [hstops₁.operators u hrest hunary (by omega)] at hu
        obtain ⟨e', f₂, ts₂, hf₂, hle₂, hstops₂, he'⟩ := ihTail ts₁ f limit
          (.unary u.line op u) (by omega) hstops₁.tail (by omega)
        refine ⟨e', f₂, ts₂, by omega, by omega, hstops₂, ?_⟩
        rw [← he', cons_append]
        exact (expr_of_unary limit _ ht hop).trans (bind_of_eq_ok hu)
      | @binary s op m r as ks h hop hr hk =>
        obtain ⟨us, ts', rfl, hus, hts'⟩ := map_eq_append_iff.1 hls
        obtain ⟨l, hl, hbegins⟩ := h.head
        have hlength : as.length = us.length := by rw [← hus, length_map]
        have hpos : 0 < as.length := length_pos_of_mem (mem_of_mem_head? hl)
        have hnext : next (ts' ++ rest) = .mark s := next_append rest hts' rfl
        simp only [length_append] at hts hfuel ⊢
        obtain ⟨_, he, e, rfl, -⟩ := (h.reads f fun _ => by omega).exists_eq hus
          (by rw [hnext]; exact (binaryOp?_spec hop).1 True)
        obtain ⟨e', f₂, ts₂, hf₂, hle₂, hstops₂, he'⟩ := ihTail ts' f limit e (by omega)
          (.inr ⟨s, op, m, r, ks, hts', hop, hr, hk⟩) (by omega)
        refine ⟨e', f₂, ts₂, by omega, by omega, hstops₂, ?_⟩
        rw [← he', append_assoc]
        rw [← next_append (ts' ++ rest) hus hl] at hbegins
        exact (expr_of_simple limit hbegins.beginsExpr.isSound hbegins.isUnary_eq).trans (bind_of_eq_ok he)

/-- A chain is an expression. -/
theorem Chain.readsAt (h : Chain p ls) : ReadsAt True p ls fun _ => True where
  head := h.head.imp fun _ hl => ⟨hl.1, .inl hl.2⟩
  reads := by
    rintro fuel limit hlimit hfuel ts rest hts ⟨⟨hrest, -⟩, hstrength⟩
    have hfuel := hfuel trivial
    subst hts
    rw [length_map] at hfuel ⊢
    refine .inl ?_
    obtain ⟨e, f, ts', hf, -, hstops, he⟩ :=
      (exists_stops hrest hstrength ts.length).2 ts fuel limit le_rfl h (by omega)
    obtain hnil | ⟨s, op, n, r, ks, -, hop, hr, hn, -⟩ := hstops
    · obtain rfl := map_eq_nil_iff.1 hnil
      exact ⟨_, he, e, f, by simpa using hf, rfl, trivial⟩
    · have := (binaryOp?_spec hop).2.2
      omega

theorem Chain.append {r : Nat} {s : Text} (h : Chain p ls) (hop : binaryOp? s = some (op, n, r)) (hr : p ≤ r)
    (hk : Chain p ks) : Chain p (ls ++ .mark s :: ks) := by
  induction h with
  | operand h => exact .binary h hop hr hk
  | unary hop' _ ih => exact .unary hop' ih
  | binary h hop' hr' _ ih =>
    rw [append_assoc]
    exact .binary h hop' hr' ih

/-! ### Tables -/

section Tables

variable {ι : Type} {R : ι → Field → Prop} {is : List ι} {lss : List (List Lexeme)}
  {trail : List Lexeme}

/-- Token values that are read as a field of a table with its key in brackets. -/
structure IsField (strict : Prop) (ls : List Lexeme) (Q : Field → Prop) : Prop where
  head : mark "[" ∈ ls.head?
  reads : Reads strict field 4 (EndsExpr strict) ls Q

theorem isField_pair {ks vs : List Lexeme} {Q S : Expr → Prop} (hk : IsExpr strict ks Q)
    (hv : IsExpr strict vs S) :
    IsField strict (mark "[" :: (ks ++ mark "]" :: mark "=" :: vs)) fun f =>
      ∃ u v, Q u ∧ S v ∧ f = .pair u v where
  head := rfl
  reads := reads_of_succ rfl fun fuel hfuel => by
    simp only [length_cons, length_append] at hfuel
    rw [field]
    refine goes_peek rfl (isSound_mark _) fun t ht => ?_
    rw [ht]
    refine goes_accept ?_
    refine (hk.reads fuel (hfuel.of (by omega))).bind_of_stays (endsExpr_mark (by decide))
      (stays_expect (by decide)) fun u hQ => ?_
    refine goes_expect (goes_expect ?_)
    exact (hv.reads fuel (hfuel.of (by omega))).bind_last_of_stays (fun _ hl => hl) stays_pure
      fun v hS => goes_pure ⟨u, v, hQ, hS, rfl⟩

theorem stays_moreFields : Stays fun f : Field => moreFields fuel >>= fun fs => pure (f :: fs) := by
  have hmore : Stays fun _ : Field => moreFields fuel := by
    cases fuel with
    | zero => exact fun _ _ _ _ hp => absurd hp fail_ne_ok
    | succ fuel =>
      rw [moreFields]
      exact stays_accept (by decide) (stays_accept (by decide) (stays_expect (by decide)))
  exact fun f ts hstuck => wrong_bind (hmore f ts hstuck) stays_pure

/-- The values of further fields up to the closing brace, with or without a comma after the last of them. -/
def moreFieldValues (lss : List (List Lexeme)) (trail : List Lexeme) : List Lexeme :=
  lss.flatMap (mark "," :: ·) ++ (trail ++ [mark "\x7d"])

/-- After a field comes a comma or the closing brace. -/
theorem exists_moreFieldValues (htrail : trail = [] ∨ trail = [mark ","]) (lss : List (List Lexeme)) :
    ∃ l ls, moreFieldValues lss trail = l :: ls ∧ EndsExpr strict l := by
  cases lss with
  | nil => obtain rfl | rfl := htrail <;> exact ⟨_, _, rfl, endsExpr_mark (by decide)⟩
  | cons k kss => exact ⟨_, _, rfl, endsExpr_mark (by decide)⟩

theorem reads_moreFields (htrail : trail = [] ∨ trail = [mark ","])
    (h : List.Forall₂ (fun i ls => IsField strict ls (R i)) is lss) :
    Reads strict moreFields 1 (fun _ => True) (moreFieldValues lss trail) (List.Forall₂ R is) := by
  have hclose : Reads strict moreFields 1 (fun _ => True) [mark "\x7d"] (List.Forall₂ R []) := by
    refine reads_of_succ rfl fun fuel _ => ?_
    rw [moreFields]
    exact goes_accept (goes_pure .nil)
  induction h with
  | nil =>
    obtain rfl | rfl := htrail
    · exact hclose
    · refine reads_of_succ rfl fun fuel hfuel => ?_
      rw [moreFields]
      refine goes_refuse_mark (by decide) (goes_accept ?_)
      refine goes_peek rfl (isSound_mark _) fun t ht => ?_
      have hends : endsField t = true := by
        rw [endsField, ht]
        decide
      rw [hends]
      exact hclose fuel (hfuel.of (by simp [moreFieldValues]))
  | @cons i ls is lss hfield h hmore =>
    have hsplit : moreFieldValues (ls :: lss) trail = mark "," :: (ls ++ moreFieldValues lss trail) := by
      simp [moreFieldValues]
    obtain ⟨l, ks, heq, hends⟩ := exists_moreFieldValues htrail lss
    rw [hsplit]
    rw [heq] at hmore ⊢
    refine reads_of_succ rfl fun fuel hfuel => ?_
    simp only [length_cons, length_append] at hfuel
    rw [moreFields]
    refine goes_refuse_mark (by decide) (goes_accept ?_)
    refine goes_peek (mem_head?_append hfield.head) (isSound_mark _) fun t ht => ?_
    have hopen : endsField t = false := by
      rw [endsField, ht]
      decide
    rw [hopen]
    refine (hfield.reads fuel (hfuel.of (by omega))).bind_of_stays hends stays_moreFields fun f hR => ?_
    exact (hmore fuel (hfuel.of (by simp only [length_cons]; omega))).bind_last_of_stays (fun _ hl => hl)
      stays_pure fun fs hRs => goes_pure (.cons hR hRs)

/-- The fields of a table, with or without a comma after the last of them. -/
theorem isLiteral_table (htrail : trail = [] ∨ trail = [mark ","]) (hne : lss ≠ [])
    (h : List.Forall₂ (fun i ls => IsField strict ls (R i)) is lss) :
    IsLiteral strict (mark "\x7b" :: (commas lss ++ (trail ++ [mark "\x7d"]))) fun e =>
      ∃ line fs, List.Forall₂ R is fs ∧ e = .table line fs where
  head := ⟨_, rfl, by decide⟩
  reads := by
    cases h with
    | nil => exact absurd rfl hne
    | @cons i ls is lss hfield h =>
      have hmore := reads_moreFields htrail h
      have hsplit : commas (ls :: lss) ++ (trail ++ [mark "\x7d"]) = ls ++ moreFieldValues lss trail := by
        simp [commas, moreFieldValues]
      obtain ⟨l, ks, heq, hends⟩ := exists_moreFieldValues htrail lss
      rw [hsplit]
      rw [heq] at hmore ⊢
      refine reads_of_succ rfl fun fuel hfuel => ?_
      simp only [length_cons, length_append] at hfuel
      rw [simple]
      refine goes_peek rfl (isSound_mark _) fun t ht => ?_
      rw [ht]
      refine goes_advance ?_
      refine Goes.bind_last_of_stays (Q := List.Forall₂ R (i :: is)) ?_ (fun _ hl => hl) stays_pure
        fun fs hfs => goes_pure ⟨t.line, fs, hfs, rfl⟩
      refine goes_succ rfl (hfuel.of (m := 8 * ls.length + 5) (by omega)) fun f hf => ?_
      rw [fields]
      refine goes_refuse (mem_head?_append hfield.head) (isSound_mark _) (by decide) ?_
      refine (hfield.reads f (hfuel.of (by omega))).bind_of_stays hends stays_moreFields fun u hR => ?_
      exact (hmore f (hfuel.of (by simp only [length_cons]; omega))).bind_last_of_stays
        (fun _ hl => trivial) stays_pure fun fs hRs => goes_pure (.cons hR hRs)

theorem isLiteral_emptyTable :
    IsLiteral strict [mark "\x7b", mark "\x7d"] fun e => ∃ line, e = .table line [] where
  head := ⟨_, rfl, by decide⟩
  reads := reads_of_succ rfl fun fuel hfuel => by
    rw [simple]
    refine goes_peek rfl (isSound_mark _) fun t ht => ?_
    rw [ht]
    refine goes_advance ?_
    refine Goes.bind_last_of_stays (Q := (· = [])) ?_ (fun _ hl => hl) stays_pure
      fun fs hfs => goes_pure ⟨t.line, by rw [hfs]⟩
    refine goes_succ rfl (hfuel.of (m := 1) (by simp)) fun f hf => ?_
    rw [fields]
    exact goes_accept (goes_pure rfl)

end Tables

end Reader

end Chunk

end Lunify
