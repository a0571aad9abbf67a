import Lunify.Proofs.Chunk.Expressions

/-!
# What a reader of functions has gone through

What follows when a reader of a function, its parameters or its body succeeds, from the value of the next
token: the readers that it called, with what they returned and where they stopped. A reserved word begins no
operand other than a literal or a function.
-/

namespace Lunify

namespace Chunk

namespace Reader

variable {α : Type} {ts ts' : List Token} {t : Token} {fuel : Nat}

/-! ### Single steps -/

/-- What returns a value returns it where it is. -/
theorem eq_of_pure {x : α} {p : α × List Token} (h : (pure x : Reader α) ts = .ok p) : p = (x, ts) :=
  (Except.ok.inj h).symm

theorem peek_spec (h : peek ts = .ok (t, ts')) : t.lexeme = next ts ∧ ts = ts' ∧ IsSound (next ts) := by
  cases ts with
  | nil =>
    obtain ⟨rfl, rfl⟩ := Prod.mk.inj (Except.ok.inj h)
    exact ⟨rfl, rfl, by simp [next, IsSound]⟩
  | cons u us =>
    unfold peek at h
    split at h
    · cases ‹_ = []›
    · rename_i h'
      cases h'
      split at h
      · cases h
      · rename_i hbroken
        obtain ⟨rfl, rfl⟩ := Prod.mk.inj (Except.ok.inj h)
        exact ⟨rfl, rfl, fun e => hbroken e⟩

theorem isAt_spec {s : String} {b : Bool} (h : isAt s ts = .ok (b, ts')) :
    b = decide (next ts = mark s) ∧ ts = ts' := by
  obtain ⟨t, us, hpeek, h⟩ := exists_of_bind h
  obtain ⟨ht, rfl, -⟩ := peek_spec hpeek
  obtain ⟨rfl, rfl⟩ := Prod.mk.inj (eq_of_pure h)
  rw [ht]
  exact ⟨rfl, rfl⟩

theorem accept_spec {s : String} {b : Bool} (h : accept s ts = .ok (b, ts')) :
    (next ts = mark s ∧ b = true ∧ ts' = ts.drop 1) ∨ (next ts ≠ mark s ∧ b = false ∧ ts = ts') := by
  obtain ⟨b', us, hat, h⟩ := exists_of_bind h
  obtain ⟨rfl, rfl⟩ := isAt_spec hat
  by_cases hs : next ts = mark s
  · rw [decide_eq_true hs, if_pos rfl] at h
    obtain ⟨rfl, rfl⟩ := Prod.mk.inj (Except.ok.inj h)
    exact .inl ⟨hs, rfl, rfl⟩
  · rw [decide_eq_false hs, if_neg Bool.false_ne_true] at h
    obtain ⟨rfl, rfl⟩ := Prod.mk.inj (eq_of_pure h)
    exact .inr ⟨hs, rfl, rfl⟩

theorem expect_spec {s : String} {u : Unit} (h : expect s ts = .ok (u, ts')) :
    next ts = mark s ∧ ts' = ts.drop 1 := by
  obtain ⟨b, us, hat, h⟩ := exists_of_bind h
  obtain ⟨rfl, rfl⟩ := isAt_spec hat
  by_cases hs : next ts = mark s
  · rw [decide_eq_true hs, if_pos rfl] at h
    exact ⟨hs, (Prod.mk.inj (Except.ok.inj h)).2.symm⟩
  · rw [decide_eq_false hs, if_neg Bool.false_ne_true] at h
    exact absurd h fail_ne_ok

theorem name_spec {x : Text} (h : name ts = .ok (x, ts')) : next ts = .name x ∧ ts' = ts.drop 1 := by
  obtain ⟨t, us, hpeek, h⟩ := exists_of_bind h
  obtain ⟨ht, rfl, -⟩ := peek_spec hpeek
  cases hl : t.lexeme with
  | name y =>
    rw [hl] at h
    obtain ⟨rfl, rfl⟩ := Prod.mk.inj (Except.ok.inj h)
    exact ⟨ht ▸ hl, rfl⟩
  | _ =>
    rw [hl] at h
    exact absurd h fail_ne_ok

/-! ### Reserved words -/

/-- What begins with neither a name nor a parenthesis is no name with calls and subscripts. -/
theorem primary_ne_ok {p : (Expr × Bool) × List Token} (hname : ∀ x, next ts ≠ .name x)
    (hparen : next ts ≠ mark "(") : primary fuel ts ≠ .ok p := by
  intro h
  cases fuel with
  | zero => exact absurd h fail_ne_ok
  | succ fuel =>
    rw [primary] at h
    obtain ⟨u, us, hpeek, h⟩ := exists_of_bind h
    obtain ⟨hu, rfl, -⟩ := peek_spec hpeek
    have hread : (do
        expect "("
        let e ← expr fuel 0
        expect ")"
        suffixes fuel (e.parenthesized u.line) false : Reader (Expr × Bool)) ts = .ok p := by
      cases hl : u.lexeme with
      | name x => exact absurd (hu ▸ hl) (hname x)
      | _ => rw [hl] at h; exact h
    obtain ⟨_, _, hleft, -⟩ := exists_of_bind hread
    exact hparen (expect_spec hleft).1

/-- The marks that begin an operand. -/
def openers : List String :=
  ["nil", "true", "false", "...", "\x7b", "function", "("]

/-- Any other mark begins none. -/
theorem simple_ne_ok {s : Text} {p : Expr × List Token} (hs : ∀ w ∈ openers, s ≠ utf8 w)
    (hnext : next ts = .mark s) : simple fuel ts ≠ .ok p := by
  intro h
  cases fuel with
  | zero => exact absurd h fail_ne_ok
  | succ fuel =>
    rw [simple] at h
    obtain ⟨u, us, hpeek, h⟩ := exists_of_bind h
    obtain ⟨hu, rfl, -⟩ := peek_spec hpeek
    rw [hu, hnext] at h
    simp only [hs "nil" (by decide), hs "true" (by decide), hs "false" (by decide), hs "..." (by decide),
      hs "\x7b" (by decide), hs "function" (by decide), if_false] at h
    obtain ⟨q, us, hprimary, -⟩ := exists_of_bind h
    refine absurd hprimary (primary_ne_ok (hnext ▸ fun _ => Lexeme.noConfusion) (hnext ▸ fun heq => ?_))
    exact hs "(" (by decide) (Lexeme.mark.inj heq)

/-- A function. -/
theorem exists_of_simple_function {p : Expr × List Token} (ht : t.lexeme = mark "function")
    (h : simple fuel (t :: ts) = .ok p) : ∃ fuel' q, function fuel' [] ts = .ok q := by
  cases fuel with
  | zero => exact absurd h fail_ne_ok
  | succ fuel =>
    rw [simple, bind_of_eq_ok (peek_cons ts (isSound_of_eq_mark ht)), ht] at h
    obtain ⟨_, _, hadvance, h⟩ := exists_of_bind (m := advance) h
    obtain ⟨-, rfl⟩ := Prod.mk.inj (Except.ok.inj hadvance)
    obtain ⟨f, ts', hfunction, -⟩ := exists_of_bind h
    exact ⟨fuel, _, hfunction⟩

/-! ### Functions -/

/-- A function has its parameters in parentheses, a body and an end. -/
theorem exists_of_function {first : List Text} {p : Expr × List Token} (h : function fuel first ts = .ok p) :
    next ts = mark "(" ∧ ∃ fuel' ts' q,
      (next (ts.drop 1) = mark ")" ∧ ts' = ts.drop 1 ∨ ∃ xs, params fuel' (ts.drop 1) = .ok (xs, ts')) ∧
      next ts' = mark ")" ∧ block fuel' (ts'.drop 1) = .ok q ∧ next q.2 = mark "end" := by
  cases fuel with
  | zero => exact absurd h fail_ne_ok
  | succ fuel =>
    rw [function] at h
    obtain ⟨t, us, hpeek, h⟩ := exists_of_bind h
    obtain ⟨-, rfl, -⟩ := peek_spec hpeek
    obtain ⟨_, _, hleft, h⟩ := exists_of_bind h
    obtain ⟨hnext, rfl⟩ := expect_spec hleft
    have hafter : ∀ (xs : List Text × Bool) {us : List Token},
        (do
          expect ")"
          let body ← block fuel
          let last ← peek
          expect "end"
          return .function t.line (first ++ xs.1) xs.2 body last.line : Reader Expr) us = .ok p →
        ∃ q, next us = mark ")" ∧ block fuel (us.drop 1) = .ok q ∧ next q.2 = mark "end" := by
      intro xs us h
      obtain ⟨_, _, hright, h⟩ := exists_of_bind h
      obtain ⟨hnext, rfl⟩ := expect_spec hright
      obtain ⟨body, us', hbody, h⟩ := exists_of_bind h
      obtain ⟨last, _, hpeek, h⟩ := exists_of_bind h
      obtain ⟨-, rfl, -⟩ := peek_spec hpeek
      obtain ⟨_, _, hend, -⟩ := exists_of_bind h
      exact ⟨_, hnext, hbody, (expect_spec hend).1⟩
    obtain ⟨b, us, hat, h⟩ := exists_of_bind h
    obtain ⟨rfl, rfl⟩ := isAt_spec hat
    by_cases hclose : next (ts.drop 1) = mark ")"
    · rw [decide_eq_true hclose] at h
      obtain ⟨q, hright, hbody, hend⟩ := hafter ([], false) h
      exact ⟨hnext, fuel, _, q, .inl ⟨hclose, rfl⟩, hright, hbody, hend⟩
    · rw [decide_eq_false hclose] at h
      obtain ⟨xs, us, hparams, h⟩ := exists_of_bind (m := params fuel) h
      obtain ⟨q, hright, hbody, hend⟩ := hafter xs h
      exact ⟨hnext, fuel, us, q, .inr ⟨xs, hparams⟩, hright, hbody, hend⟩

/-- Parameters are names with commas between them, or an ellipsis. -/
theorem exists_of_params {p : (List Text × Bool) × List Token} (h : params fuel ts = .ok p) :
    next ts = mark "..." ∨ (∃ x, next ts = .name x) ∧
      (next (ts.drop 1) = mark "," ∧ (∃ fuel' q, params fuel' (ts.drop 2) = .ok (q, p.2)) ∨
        next (ts.drop 1) ≠ mark "," ∧ p.2 = ts.drop 1) := by
  cases fuel with
  | zero => exact absurd h fail_ne_ok
  | succ fuel =>
    rw [params] at h
    obtain ⟨b, us, haccept, h⟩ := exists_of_bind h
    rcases accept_spec haccept with ⟨hnext, -⟩ | ⟨-, rfl, rfl⟩
    · exact .inl hnext
    · rw [if_neg Bool.false_ne_true] at h
      obtain ⟨x, us, hname, h⟩ := exists_of_bind h
      obtain ⟨hnext, rfl⟩ := name_spec hname
      obtain ⟨b, us, haccept, h⟩ := exists_of_bind h
      rcases accept_spec haccept with ⟨hcomma, rfl, rfl⟩ | ⟨hcomma, rfl, rfl⟩
      · rw [if_pos rfl] at h
        obtain ⟨q, us, hparams, h⟩ := exists_of_bind h
        obtain rfl := eq_of_pure h
        rw [List.drop_drop] at hparams
        exact .inr ⟨⟨x, hnext⟩, .inl ⟨hcomma, fuel, q, hparams⟩⟩
      · rw [if_neg Bool.false_ne_true] at h
        obtain rfl := eq_of_pure h
        exact .inr ⟨⟨x, hnext⟩, .inr ⟨hcomma, rfl⟩⟩

/-- The marks that begin statements other than calls and assignments. -/
def statementMarks : List String :=
  [";", "break", "return", "do", "while", "repeat", "if", "for", "function", "local", "::", "goto"]

/-- Any other statement begins with a name or a parenthesis. -/
theorem exists_of_stat {p : Stat × List Token} (ht : t.lexeme = next ts)
    (hmarks : ∀ m ∈ statementMarks, next ts ≠ mark m) (h : stat fuel t ts = .ok p) :
    ∃ fuel' q, primary fuel' ts = .ok q := by
  cases fuel with
  | zero => exact absurd h fail_ne_ok
  | succ fuel =>
    have hread : exprStat fuel ts = .ok p := by
      rw [stat, ht] at h
      cases hl : next ts with
      | mark s =>
        have hne : ∀ m ∈ statementMarks, s ≠ utf8 m :=
          fun m hm heq => hmarks m hm (hl.trans (congrArg Lexeme.mark heq))
        rw [hl] at h
        simpa only [hne "do" (by decide), hne "while" (by decide), hne "repeat" (by decide),
          hne "if" (by decide), hne "for" (by decide), hne "function" (by decide), hne "local" (by decide),
          hne "::" (by decide), hne "goto" (by decide), if_false] using h
      | _ =>
        rw [hl] at h
        exact h
    cases fuel with
    | zero => exact absurd hread fail_ne_ok
    | succ fuel =>
      rw [exprStat] at hread
      obtain ⟨q, us, hprimary, -⟩ := exists_of_bind hread
      exact ⟨fuel, _, hprimary⟩

/-- A block that begins with no statement ends there. -/
theorem eq_of_block {p : List Stat × List Token} (hname : ∀ x, next ts ≠ .name x)
    (hmarks : ∀ m ∈ "(" :: statementMarks, next ts ≠ mark m) (h : block fuel ts = .ok p) :
    p.2 = ts := by
  cases fuel with
  | zero => exact absurd h fail_ne_ok
  | succ fuel =>
    rw [block] at h
    obtain ⟨t, us, hpeek, h⟩ := exists_of_bind h
    obtain ⟨ht, rfl, hsound⟩ := peek_spec hpeek
    by_cases hend : endsBlock t = true
    · rw [if_pos hend] at h
      rw [eq_of_pure h]
    · have hskip : ∀ m ∈ statementMarks, accept m ts = .ok (false, ts) :=
        fun m hm => accept_of_ne hsound (hmarks m (List.mem_cons_of_mem _ hm))
      rw [if_neg hend, bind_of_eq_ok (hskip ";" (by decide)), if_neg Bool.false_ne_true,
        bind_of_eq_ok (hskip "break" (by decide)), if_neg Bool.false_ne_true,
        bind_of_eq_ok (hskip "return" (by decide)), if_neg Bool.false_ne_true] at h
      obtain ⟨s, us, hstat, -⟩ := exists_of_bind h
      obtain ⟨fuel', q, hprimary⟩ :=
        exists_of_stat ht (fun m hm => hmarks m (List.mem_cons_of_mem _ hm)) hstat
      exact absurd hprimary (primary_ne_ok hname (hmarks "(" List.mem_cons_self))

end Reader

end Chunk

end Lunify
