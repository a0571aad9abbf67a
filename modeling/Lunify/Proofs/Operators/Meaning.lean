import Lunify.Proofs.Chunk.Inversion
import Lunify.Proofs.Operators.Tree

/-!
# Token values with one meaning

`Reader.Means n T ls` says that Lua cannot read token values `ls` as anything but an expression with the
operators `T`, whose outermost operator has the strength `n`. What comes after the values must not bind more
strongly than that. The reader may go wrong: it may fail, and it may stop early before a bracket or a
parenthesis, where no expression ends.

The meanings of operations, calls and tables follow from those of their parts. A word of Lua that stands for
a name has the meaning of a literal or none: `function` looks like the beginning of a function, which would
need a body after its parameters.
-/

namespace Lunify

open List

namespace Chunk

namespace Reader

variable {n : Nat} {T U : OperatorTree} {Ts Us : List OperatorTree} {ls ks : List Lexeme} {l : Lexeme}

/-! ### What comes after -/

/-- What comes after an operand is none of these marks. -/
theorem ne_mark_of_follows (h : False ∨ Follows l ∨ l = mark "[") {w : String}
    (hw : w ∉ "[" :: (closers ++ infixes)) : l ≠ mark w := by
  have hinj : ∀ {m : String}, mark m = mark w → m = w :=
    fun heq => Grammar.utf8_injective (Lexeme.mark.inj heq)
  rintro rfl
  rcases h with h | (h | ⟨m, hm, h⟩) | h
  · exact h
  · cases h
  · exact hw (mem_cons_of_mem _ (hinj h.symm ▸ hm))
  · exact hw (hinj h.symm ▸ mem_cons_self)

/-- No body comes after what may follow an operand. -/
theorem next_ne_end {fuel : Nat} {ts : List Token} {q : List Stat × List Token}
    (h : False ∨ Follows (next ts) ∨ next ts = mark "[") (hblock : block fuel ts = .ok q) :
    next q.2 ≠ mark "end" := by
  have hmarks : ∀ m ∈ "end" :: "(" :: statementMarks, m ∉ "[" :: (closers ++ infixes) := by decide
  have hname : ∀ x, next ts ≠ .name x := by
    rcases h with h | (h | ⟨m, -, h⟩) | h
    · exact h.elim
    all_goals
      rw [h]
      exact fun _ => Lexeme.noConfusion
  rw [eq_of_block hname (fun m hm => ne_mark_of_follows h (hmarks m (mem_cons_of_mem _ hm))) hblock]
  exact ne_mark_of_follows h (hmarks "end" (by decide))

/-- The sign of an operator with two operands. -/
theorem sign_of_binaryOp? {s : Text} {op : BinaryOp} {m r : Nat} (h : binaryOp? s = some (op, m, r)) :
    utf8 op.sign = s := by
  have hall : ∀ q ∈ infixOps, q.2.1.sign = q.1 := by decide
  obtain ⟨w, hw, rfl⟩ := exists_of_binaryOp? h
  exact congrArg utf8 (hall _ hw)

/-- The sign of an operator before its operand. -/
theorem sign_of_unaryOp? {s : Text} {op : UnaryOp} (h : unaryOp? s = some op) : utf8 op.sign = s := by
  unfold unaryOp? at h
  split_ifs at h with hneg hnot hlength <;> cases h
  · exact hneg.symm
  · exact hnot.symm
  · exact hlength.symm

/-! ### Meanings -/

/-- Values that begin like an expression: with no closing mark, comma or ellipsis, and with no such mark after
their first value. -/
def Begins (ls : List Lexeme) : Prop :=
  ∃ l ls', ls = l :: ls' ∧ (∀ m ∈ [")", ",", "..."], l ≠ mark m) ∧
    ∀ l' ∈ ls'.head?, ∀ m ∈ [")", ","], l' ≠ mark m

/-- Values that are read as an expression with the operators `T`, if they are read as one. Its outermost
operator has the strength `n`. -/
structure Means (n : Nat) (T : OperatorTree) (ls : List Lexeme) : Prop where
  begins : Begins ls
  operand : n = 10 → IsSubscriptable False ls fun e _ => e.operatorTree = T
  reads : ReadsAt False (if 8 ≤ n then 10 else n) ls fun e => e.operatorTree = T

theorem Means.readsAt (h : Means n T ls) {m : Nat} (hm : m ≤ n ∧ m ≤ 10 ∨ 8 ≤ n ∧ m ≤ 10) :
    ReadsAt False m ls fun e => e.operatorTree = T := by
  refine h.reads.mono ?_ fun _ he => he
  split <;> omega

theorem Means.isExpr (h : Means n T ls) (hn : 0 < n) : IsExpr False ls fun e => e.operatorTree = T :=
  (h.readsAt (m := 1) (by omega)).isExpr Nat.one_pos

/-- An operand has a meaning. -/
theorem IsSubscriptable.means (h : IsSubscriptable False ls fun e _ => e.operatorTree = T)
    (hbegins : Begins ls) : Means 10 T ls where
  begins := hbegins
  operand _ := h
  reads := (h.isOperand.readsAt 10).mono le_rfl fun _ ⟨_, he⟩ => he

/-- Values with commas between them whose parts mean the given operators. -/
def MeansList (P : OperatorTree → List Lexeme → Prop) (Ts : List OperatorTree) (ls : List Lexeme) : Prop :=
  ∃ lss, lss ≠ [] ∧ ls = commas lss ∧ List.Forall₂ P Ts lss

/-- Values that are read as expressions with the operators `Ts`, if they are read as expressions. -/
def MeansExprs : List OperatorTree → List Lexeme → Prop :=
  MeansList fun T ls => ∃ n, 0 < n ∧ Means n T ls

/-- Values that are read as fields with the operators `Ts`, if they are read as fields. -/
def MeansFields : List OperatorTree → List Lexeme → Prop :=
  MeansList fun T ls => IsField False ls fun f => f.operatorTree = T

/-- Arguments: none, or expressions with the given meanings. -/
def MeansArgs (Ts : List OperatorTree) (ls : List Lexeme) : Prop :=
  (ls = [] ∧ Ts = []) ∨ MeansExprs Ts ls

theorem meansList_singleton {P : OperatorTree → List Lexeme → Prop} (h : P T ls) : MeansList P [T] ls :=
  ⟨[ls], cons_ne_nil _ _, by simp [commas], .cons h .nil⟩

theorem MeansList.append {P : OperatorTree → List Lexeme → Prop} (h : MeansList P Ts ks)
    (h' : MeansList P Us ls) : MeansList P (Ts ++ Us) (ks ++ mark "," :: ls) := by
  obtain ⟨lss, hne, rfl, h⟩ := h
  obtain ⟨kss, hne', rfl, h'⟩ := h'
  exact ⟨lss ++ kss, by simp [hne], (commas_append hne hne').symm, rel_append h h'⟩

theorem map_eq_of_forall₂ {α : Type} {f : α → OperatorTree} {xs : List α}
    (h : List.Forall₂ (fun T x => f x = T) Ts xs) : xs.map f = Ts := by
  induction h with
  | nil => rfl
  | cons hx _ ih => rw [map_cons, hx, ih]

/-! ### How values begin -/

theorem begins_cons (hl : ∀ m ∈ [")", ",", "..."], l ≠ mark m)
    (hls : ∀ l' ∈ ls.head?, ∀ m ∈ [")", ","], l' ≠ mark m) : Begins (l :: ls) :=
  ⟨l, ls, rfl, hl, hls⟩

/-- The first value. -/
theorem Begins.head_ne (h : Begins ls) : ∀ l ∈ (ls ++ ks).head?, ∀ m ∈ [")", ",", "..."], l ≠ mark m := by
  obtain ⟨l, ls', rfl, hl, -⟩ := h
  intro l' hl'
  obtain rfl : l = l' := by simpa using hl'
  exact hl

theorem Begins.append (h : Begins ks) (hls : ∀ l ∈ ls.head?, ∀ m ∈ [")", ","], l ≠ mark m) :
    Begins (ks ++ ls) := by
  obtain ⟨l, ks', rfl, hl, hks'⟩ := h
  refine begins_cons hl fun l' hl' => ?_
  cases ks' with
  | nil => exact hls l' hl'
  | cons k ks' => exact hks' l' hl'

/-- A mark before values that begin like an expression. -/
theorem Begins.cons (h : Begins ls) (hl : ∀ m ∈ [")", ",", "..."], l ≠ mark m) : Begins (l :: (ls ++ ks)) := by
  refine begins_cons hl fun l' hl' m hm => h.head_ne l' hl' m ?_
  exact (by decide : ∀ m ∈ [")", ","], m ∈ [")", ",", "..."]) m hm

/-! ### Literals and names -/

/-- A literal means itself. -/
theorem means_constant (c : Constant) : Means 10 (.leaf c.lexeme) [c.lexeme] := by
  have hne : ∀ m ∈ [")", ",", "..."], c.lexeme ≠ mark m := by
    rcases c with _ | (_ | _) | _ | _ <;> first | decide | exact fun _ _ => Lexeme.noConfusion
  refine (((isLiteral_constant c).isSubscriptable not_false).mono ?_).means (begins_cons hne (by simp))
  rintro _ _ ⟨line, rfl⟩
  rfl

/-- Values of words that name something: names, and reserved words other than operators. -/
def IsNaming (l : Lexeme) : Prop :=
  (∃ x, l = .name x) ∨ isReservedName l = true

/-- Reserved words that name something are literals, begin a function or begin no operand. -/
theorem reservedWords_spec : ∀ r ∈ reservedWords, (unaryOp? r).isNone = true →
    (∃ c ∈ [Constant.nil, .bool true, .bool false], .mark r = c.lexeme) ∨ .mark r = mark "function" ∨
      ∀ w ∈ openers, r ≠ utf8 w := by
  decide

theorem IsNaming.cases (h : IsNaming l) : (∃ x, l = .name x) ∨ (∃ c : Constant, l = c.lexeme) ∨
    l = mark "function" ∨ ∃ r, l = .mark r ∧ ∀ w ∈ openers, r ≠ utf8 w := by
  rcases h with h | h
  · exact .inl h
  · cases l with
    | mark r =>
      rw [isReservedName, Bool.and_eq_true] at h
      rcases reservedWords_spec r (contains_iff_mem.1 h.1) h.2 with ⟨c, -, hc⟩ | hfunction | hother
      · exact .inr (.inl ⟨c, hc⟩)
      · exact .inr (.inr (.inl hfunction))
      · exact .inr (.inr (.inr ⟨r, rfl, hother⟩))
    | _ => cases h

theorem IsNaming.beginsOperand (h : IsNaming l) : BeginsOperand False l := by
  rcases h with ⟨x, rfl⟩ | h
  · exact .inl rfl
  · exact .inr ⟨not_false, h⟩

/-- A word that names something is no closing mark, comma or ellipsis. -/
theorem IsNaming.ne_mark (h : IsNaming l) : ∀ m ∈ [")", ",", "..."], l ≠ mark m := by
  have hall : ∀ m ∈ [")", ",", "..."], isReservedName (mark m) = false := by decide
  rintro m hm rfl
  rcases h with ⟨x, h⟩ | h
  · cases h
  · rw [hall m hm] at h
    cases h

/-- A name or a reserved word means itself. -/
theorem means_naming (h : IsNaming l) : Means 10 (.leaf l) [l] := by
  have hbegins : Begins [l] := begins_cons h.ne_mark (by simp)
  rcases h.cases with ⟨x, rfl⟩ | ⟨c, rfl⟩ | hfunction | ⟨r, rfl, hr⟩
  · refine (((isPrimary_name x).isSubscriptable ⟨_, rfl, rfl⟩).mono ?_).means hbegins
    rintro _ _ ⟨⟨line, rfl⟩, -⟩
    rfl
  · exact means_constant c
  · refine IsSubscriptable.means ⟨⟨l, rfl, h.beginsOperand⟩, fun fuel _ ts rest hts hrest => ?_⟩ hbegins
    refine .inr ⟨not_false, fun p hp => ?_⟩
    obtain ⟨t, rfl, ht⟩ := map_eq_singleton_iff.1 hts
    obtain ⟨fuel', q, hread⟩ := exists_of_simple_function (ht.trans hfunction) hp
    exact absurd (exists_of_function hread).1 (ne_mark_of_follows hrest (by decide))
  · refine IsSubscriptable.means ⟨⟨_, rfl, h.beginsOperand⟩, fun fuel _ ts rest hts _ => ?_⟩ hbegins
    exact .inr ⟨not_false, fun p hp => absurd hp (simple_ne_ok hr (next_append rest hts rfl))⟩

/-! ### Operations -/

/-- An operator before its operand. -/
theorem means_unary {w : String} {op : UnaryOp} (hop : unaryOp? (utf8 w) = some op)
    (hw : w ∈ ["-", "not", "#"]) (h : Means n T ls) (hn : 8 ≤ n) :
    Means 8 (.node (utf8 w) [T]) (mark w :: ls) where
  begins := by
    have hne : ∀ w ∈ ["-", "not", "#"], ∀ m ∈ [")", ",", "..."], mark w ≠ mark m := by decide
    simpa using @Begins.cons _ [] _ h.begins (hne w hw)
  operand := by simp
  reads := by
    refine (readsAt_unary 10 hop (h.readsAt (.inr ⟨hn, by decide⟩))).mono le_rfl ?_
    rintro _ ⟨line, u, hu, rfl⟩
    rw [Expr.operatorTree, hu, sign_of_unaryOp? hop]

theorem Means.begins_infix {w : String} (h : Means n T ks) (hw : w ∈ infixes) :
    Begins (ks ++ mark w :: ls) := by
  have hne : ∀ w ∈ infixes, ∀ m ∈ [")", ","], mark w ≠ mark m := by decide
  exact h.begins.append (by simpa using hne w hw)

/-- An operator between its operands. -/
theorem means_binary {lua : String} {op : BinaryOp} {r a b : Nat} (hop : binaryOp? (utf8 lua) = some (op, r, r))
    (hlua : lua ∈ infixes) (hl : Means a T ks) (hr : Means b U ls) (hra : r ≤ a) (hrb : r < b) (hr7 : r ≤ 7) :
    Means r (.node (utf8 lua) [T, U]) (ks ++ mark lua :: ls) where
  begins := hl.begins_infix hlua
  operand := by omega
  reads := by
    rw [if_neg (by omega)]
    have hbinding : r ≤ unaryBinding := hr7.trans (by decide)
    refine (readsAt_binary hop hbinding (hl.readsAt (by omega)) (hr.readsAt (by omega))).mono le_rfl ?_
    rintro _ ⟨line, u, v, hu, hv, rfl⟩
    rw [Expr.operatorTree, hu, hv, sign_of_binaryOp? hop]

/-- A power. -/
theorem means_power (hl : Means 10 T ks) (hr : Means n U ls) (hn : 8 ≤ n) :
    Means 9 (.node (utf8 "^") [T, U]) (ks ++ mark "^" :: ls) where
  begins := hl.begins_infix (by decide)
  operand := by omega
  reads := by
    refine (readsAt_power (hl.operand rfl).isOperand (hr.readsAt (.inr ⟨hn, by decide⟩))).mono le_rfl ?_
    rintro _ ⟨line, u, v, ⟨-, hu⟩, hv, rfl⟩
    rw [Expr.operatorTree, hu, hv]
    rfl

/-! ### Parentheses, subscripts and calls -/

/-- Parentheses mean what they enclose. -/
theorem means_inParens (h : Means n T ls) (hn : 0 < n) : Means 10 T (inParens ls) := by
  refine (((isPrimary_inParens (h.isExpr hn)).isSubscriptable ⟨_, rfl, rfl⟩).mono ?_).means
    (h.begins.cons (by decide))
  rintro _ _ ⟨⟨line, u, hu, rfl⟩, -⟩
  rw [operatorTree_parenthesized, hu]

/-- A subscript. -/
theorem means_index (h : Means 10 T ks) (hk : Means n U ls) (hn : 0 < n) :
    Means 10 (.node (utf8 "[]") [T, U]) (ks ++ mark "[" :: (ls ++ [mark "]"])) := by
  have hbegins : ∀ m ∈ [")", ","], mark "[" ≠ mark m := by decide
  refine ((isSubscriptable_index (h.operand rfl) (hk.isExpr hn)).mono ?_).means
    (h.begins.append (by simpa using hbegins))
  rintro _ _ ⟨⟨line, u, b, v, hu, hv, rfl⟩, -⟩
  rw [Expr.operatorTree, hu, hv]

/-- Arguments are read up to the parenthesis after them. -/
theorem MeansArgs.isArgs (h : MeansArgs Ts ls) :
    IsArgs False (inParens ls) fun es => es.map Expr.operatorTree = Ts := by
  rcases h with ⟨rfl, rfl⟩ | ⟨lss, hne, rfl, h⟩
  · exact ⟨rfl, fun fuel hfuel k F => (isArgs_nil.2 fuel hfuel k F).mono fun _ ⟨es, hm, hes⟩ => ⟨es, hm, by rw [hes]; rfl⟩⟩
  · have hexprs := h.imp fun T ls ⟨n, hn, hmeans⟩ => hmeans.isExpr hn
    exact isArgs_exprs ((isExprs_commas hexprs hne).mono fun _ => map_eq_of_forall₂)

/-- As parameters of a function, expressions end where they end as expressions. The induction is on their
number. -/
theorem eq_of_params {lss : List (List Lexeme)} (hne : lss ≠ []) (h : ∀ ls ∈ lss, Begins ls) {fuel : Nat}
    {us rest : List Token} {p : (List Text × Bool) × List Token} (hus : us.map Token.lexeme = commas lss)
    (hrest : next rest = mark ")") (hread : params fuel (us ++ rest) = .ok p) (hclose : next p.2 = mark ")") :
    p.2 = rest := by
  induction lss generalizing fuel us p with
  | nil => exact absurd rfl hne
  | cons ls lss ih =>
    obtain ⟨l, ls', rfl, hl, hls'⟩ := h ls mem_cons_self
    obtain ⟨u, vs, rfl, rfl, hvs⟩ := map_eq_cons_iff.1 hus
    have hnext : ∀ m ∈ [")", ","], next (vs ++ rest) = mark m → ls' = [] := by
      intro m hm heq
      cases ls' with
      | nil => rfl
      | cons l' ls' => exact absurd ((next_append rest hvs rfl).symm.trans heq) (hls' l' rfl m hm)
    rcases exists_of_params hread with hdots | ⟨-, ⟨hcomma, fuel', q, hparams⟩ | ⟨-, hstop⟩⟩
    · exact absurd hdots (hl "..." (by decide))
    · obtain rfl := hnext "," (by decide) hcomma
      cases lss with
      | nil =>
        obtain rfl := map_eq_nil_iff.1 hvs
        exact absurd (hrest.symm.trans hcomma) (by decide)
      | cons ks lss =>
        obtain ⟨c, ws, rfl, -, hws⟩ := map_eq_cons_iff.1 hvs
        exact ih (p := (q, p.2)) (cons_ne_nil _ _) (fun k hk => h k (mem_cons_of_mem _ hk)) hws hparams hclose
    · rw [hstop] at hclose ⊢
      obtain rfl := hnext ")" (by decide) hclose
      cases lss with
      | nil =>
        obtain rfl := map_eq_nil_iff.1 hvs
        rfl
      | cons ks lss => exact absurd ((next_append rest hvs rfl).symm.trans hclose) (by decide)

/-- Arguments are no parameters of a function, since no body comes after them. -/
theorem MeansArgs.function_ne_ok (h : MeansArgs Ts ls) {fuel : Nat} {first : List Text} {us rest : List Token}
    {p : Expr × List Token} (hus : us.map Token.lexeme = inParens ls)
    (hrest : False ∨ Follows (next rest) ∨ next rest = mark "[") :
    function fuel first (us ++ rest) ≠ .ok p := by
  intro hread
  obtain ⟨u, us', rfl, -, hus'⟩ := map_eq_cons_iff.1 hus
  obtain ⟨vs, ws, rfl, hvs, hws⟩ := map_eq_append_iff.1 hus'
  obtain ⟨v, rfl, hv⟩ := map_eq_singleton_iff.1 hws
  obtain ⟨-, fuel', ts, q, hparams, hclose, hblock, hend⟩ := exists_of_function hread
  simp only [cons_append, append_assoc, nil_append, drop_one, tail_cons] at hparams
  have hts : ts = v :: rest := by
    rcases h with ⟨rfl, -⟩ | ⟨lss, hne, rfl, h⟩
    · obtain rfl := map_eq_nil_iff.1 hvs
      rcases hparams with ⟨-, rfl⟩ | ⟨xs, hparams⟩
      · rfl
      · rcases exists_of_params hparams with hdots | ⟨⟨x, hx⟩, -⟩
        · exact absurd (hv.symm.trans hdots) (by decide)
        · exact absurd (hv.symm.trans hx) Lexeme.noConfusion
    · have hbegins : ∀ ls ∈ lss, Begins ls :=
        ((forall₂_and_left _ _).1 (h.flip.imp fun _ _ hmeans => ⟨hmeans.choose_spec.2.begins, hmeans⟩)).1
      rcases hparams with ⟨hnext, -⟩ | ⟨xs, hparams⟩
      · obtain ⟨ks, kss, rfl⟩ := exists_cons_of_ne_nil hne
        obtain ⟨l, ks', rfl, hl, -⟩ := hbegins ks mem_cons_self
        exact absurd ((next_append _ hvs rfl).symm.trans hnext) (hl ")" (by decide))
      · have hright : next (v :: rest) = mark ")" := hv
        exact eq_of_params hne hbegins hvs hright hparams hclose
  subst hts
  exact next_ne_end hrest hblock hend

/-- A call. -/
theorem means_call (hl : IsNaming l) (h : MeansArgs Ts ls) :
    Means 10 (.node (utf8 "()") (.leaf l :: Ts)) (l :: inParens ls) := by
  have hparen : ∀ m ∈ [")", ","], mark "(" ≠ mark m := by decide
  have hbegins : Begins (l :: inParens ls) := begins_cons hl.ne_mark (by simpa [inParens] using hparen)
  rcases hl.cases with ⟨x, rfl⟩ | ⟨c, rfl⟩ | hfunction | ⟨r, rfl, hr⟩
  · refine (((isPrimary_call x h.isArgs).isSubscriptable ⟨_, rfl, rfl⟩).mono ?_).means hbegins
    rintro _ _ ⟨⟨line, _, vs, ⟨line', rfl⟩, hvs, rfl⟩, -⟩
    rw [Expr.operatorTree, Expr.operatorTree, operatorTrees_eq_map, hvs]
  · refine IsSubscriptable.means ⟨⟨_, rfl, hl.beginsOperand⟩, fun fuel _ => ?_⟩ hbegins
    rw [← singleton_append]
    refine ((isLiteral_constant c).reads fuel False.elim).trans trivial ?_
    rintro _ ⟨e, rfl, -⟩
    exact goes_stuck not_false (.inr rfl)
  · refine IsSubscriptable.means ⟨⟨l, rfl, hl.beginsOperand⟩, fun fuel _ ts rest hts hrest => ?_⟩ hbegins
    refine .inr ⟨not_false, fun p hp => ?_⟩
    obtain ⟨t, us, rfl, ht, hus⟩ := map_eq_cons_iff.1 hts
    obtain ⟨fuel', q, hread⟩ := exists_of_simple_function (ht.trans hfunction) hp
    exact absurd hread (h.function_ne_ok hus hrest)
  · refine IsSubscriptable.means ⟨⟨_, rfl, hl.beginsOperand⟩, fun fuel _ ts rest hts _ => ?_⟩ hbegins
    exact .inr ⟨not_false, fun p hp => absurd hp (simple_ne_ok hr (next_append rest hts rfl))⟩

/-! ### Tables -/

/-- An entry. -/
theorem meansFields_pair {m : Nat} (hk : Means n T ks) (hn : 0 < n) (hv : Means m U ls) (hm : 0 < m) :
    MeansFields [.entry T U] (mark "[" :: (ks ++ mark "]" :: mark "=" :: ls)) := by
  have hfield := isField_pair (hk.isExpr hn) (hv.isExpr hm)
  refine meansList_singleton ⟨hfield.head, hfield.reads.mono ?_⟩
  rintro _ ⟨u, v, hu, hv, rfl⟩
  rw [Field.operatorTree, hu, hv]

/-- A table begins like an operand. -/
theorem begins_inBraces (h : ∀ l ∈ ls.head?, l = mark "[") : Begins (Tree.inBraces ls) := by
  have hbrace : ∀ m ∈ [")", ",", "..."], mark "\x7b" ≠ mark m := by decide
  have hafter : ∀ l ∈ [mark "[", mark "\x7d"], ∀ m ∈ [")", ","], l ≠ mark m := by decide
  refine begins_cons hbrace fun l hl => hafter l ?_
  cases ls with
  | nil => simp_all
  | cons k ls => simp_all

/-- A table without entries. -/
theorem means_emptyTable : Means 10 (.table []) (Tree.inBraces []) := by
  have hbegins : Begins (Tree.inBraces []) := begins_inBraces (by simp)
  refine ((isLiteral_emptyTable.isSubscriptable not_false).mono ?_).means hbegins
  rintro _ _ ⟨line, rfl⟩
  rfl

/-- A table with entries. A comma may come after the last one. -/
theorem means_table {cls : List Lexeme} (h : MeansFields Ts ls) (hc : cls = [] ∨ cls = [mark ","]) :
    Means 10 (.table Ts) (Tree.inBraces (ls ++ cls)) := by
  obtain ⟨lss, hne, rfl, h⟩ := h
  have htable := (isLiteral_table hc hne h).isSubscriptable not_false
  have hhead : ∀ l ∈ (commas lss ++ cls).head?, l = mark "[" := by
    cases h with
    | nil => exact absurd rfl hne
    | cons hfield _ =>
      obtain ⟨ks, rfl⟩ := head?_eq_some_iff.1 hfield.head
      exact fun l hl => (Option.some.inj hl).symm
  have hbegins := begins_inBraces hhead
  rw [Tree.inBraces, append_assoc] at hbegins ⊢
  refine (htable.mono ?_).means hbegins
  rintro _ _ ⟨line, fs, hfs, rfl⟩
  rw [Expr.operatorTree, entryTrees_eq_map, map_eq_of_forall₂ hfs]

end Reader

end Chunk

end Lunify
