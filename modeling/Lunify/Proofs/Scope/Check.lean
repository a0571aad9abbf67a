import Lunify.Proofs.Scope.Collect

/-!
# Checking decides the scoping rules

Checking a program walks its trace with the tables of its first pass. `Scope.Simulates` relates a
piece of the trace to the uses of names that the rules see in the same piece of the program: the walk
goes on exactly when these uses are permitted, and then it has declared what they declare. Otherwise a
rule is broken, and never is a part of the tree missing. Pieces that follow each other compose, so the
relation is shown for whole trees by induction (`Scope.simulates_trace`), and `Scope.check_cases` reads
off that a program passes exactly when it is scoped.
-/

namespace Lunify

open List

namespace Scope

open Tables

variable {os os' : List Occurrence} {declared : List Text} {s : Scopes}

/-! ### Uses in order -/

/-- The names declared at program level after a use. -/
def declare (declared : List Text) : Occurrence → List Text
  | ⟨[], .declaration n⟩ => insertName declared n
  | _ => declared

/-- The names declared at program level after some uses. -/
def after (declared : List Text) (os : List Occurrence) : List Text :=
  os.foldl declare declared

/-- Uses are permitted one after the other. -/
def Admitted (program : Tree) : List Text → List Occurrence → Prop
  | _, [] => True
  | declared, o :: os =>
    Permitted program (fun n => n ∈ declared) o ∧ Admitted program (declare declared o) os

variable {program : Tree}

lemma admitted_append :
    Admitted program declared (os ++ os') ↔
      Admitted program declared os ∧ Admitted program (after declared os) os' := by
  induction os generalizing declared with
  | nil => simp [Admitted, after]
  | cons o os ih => simp [Admitted, after, ih, and_assoc]

/-- A declaration at program level stays, and there are no others. -/
lemma mem_after {n : Text} : n ∈ after declared os ↔ n ∈ declared ∨ ⟨[], .declaration n⟩ ∈ os := by
  induction os generalizing declared with
  | nil => simp [after]
  | cons o os ih =>
    have hcons : after declared (o :: os) = after (declare declared o) os := rfl
    rw [hcons, ih, mem_cons]
    rcases o with ⟨_ | ⟨d, within⟩, m | m | ⟨m, arguments⟩⟩ <;> simp [declare, or_assoc]

lemma after_append : after declared (os ++ os') = after (after declared os) os' :=
  foldl_append

/-- Uses are permitted in order exactly when each is permitted after those before it. -/
lemma admitted_iff :
    Admitted program declared os ↔ ∀ before o rest, os = before ++ o :: rest →
      Permitted program (fun n => n ∈ after declared before) o := by
  induction os generalizing declared with
  | nil => simp [Admitted]
  | cons o os ih =>
    rw [Admitted, ih]
    constructor
    · rintro ⟨ho, hos⟩ before o' rest heq
      cases before with
      | nil =>
        obtain ⟨rfl, -⟩ := List.cons.inj heq
        exact ho
      | cons o'' before =>
        obtain ⟨rfl, htail⟩ := List.cons.inj heq
        exact hos before o' rest htail
    · intro h
      refine ⟨h [] o os rfl, fun before o' rest heq => ?_⟩
      exact h (o :: before) o' rest (by rw [heq, cons_append])

/-- The rules ask that all uses are permitted in order. -/
lemma scoped_iff : Scoped program ↔ ((definitions program).map Definition.name).Nodup ∧
    Admitted program [] (occurrences [] program) := by
  rw [admitted_iff]
  constructor
  · rintro ⟨hdistinct, hpermitted⟩
    refine ⟨hdistinct, fun before o rest heq => ?_⟩
    simpa [mem_after] using hpermitted before o rest heq
  · rintro ⟨hdistinct, hadmitted⟩
    refine ⟨hdistinct, fun before o rest heq => ?_⟩
    simpa [mem_after] using hadmitted before o rest heq

/-! ### The walk along a trace -/

/-- The tables of a program. -/
structure TablesOf (program : Tree) (T : Tables) : Prop where
  function?_of_mem : ∀ d ∈ definitions program, ∃ s, T.function? d.name = some s ∧ Records s d
  function?_of_notMem : ∀ n, (∀ d ∈ definitions program, d.name ≠ n) → T.function? n = none
  globals : ∀ n, n ∈ T.globals ↔ n ∈ boundNames program ∨ ∃ d ∈ definitions program, d.name = n

/-- What the first pass collects are the tables of the program. -/
lemma TablesOf.of_collects {T : Tables}
    (hdistinct : ((definitions program).map Definition.name).Nodup)
    (h : Collects none (definitions program) (boundNames program) Tables.empty T) :
    TablesOf program T := by
  have hnames : T.names = (definitions program).map Definition.name := h.names_eq
  obtain ⟨new, hfunctions, -, hrecords⟩ := h.functions
  rw [Tables.empty, map_nil, nil_append] at hfunctions
  constructor
  · intro d hd
    have hmem : d.name ∈ T.names := hnames ▸ mem_map_of_mem hd
    obtain ⟨s, hs⟩ := Option.ne_none_iff_exists'.1 (mt function?_eq_none_iff.1 (not_not.2 hmem))
    have hname : s.name = d.name := by simpa using find?_some hs
    obtain ⟨d', hd', hrecord⟩ := hrecords s (hfunctions ▸ mem_of_find?_eq_some hs)
    -- Names are distinct, so the signature found by name is the one of this function.
    obtain rfl : d' = d :=
      inj_on_of_nodup_map hdistinct hd' hd (hrecord.name.symm.trans hname)
    exact ⟨s, hs, hrecord⟩
  · intro n hn
    rw [function?_eq_none_iff, hnames]
    intro hmem
    obtain ⟨d, hd, hname⟩ := mem_map.1 hmem
    exact hn d hd hname
  · intro n
    simpa [Tables.empty] using h.globals n

/-- The walk along a piece of the trace succeeds if the uses in that piece are permitted, and it then
declares what they declare. Otherwise it finds a breach of the rules. -/
def Simulates (program : Tree) (T : Tables) (within : List Definition) (events : List Event)
    (os : List Occurrence) : Prop :=
  ∀ s : Scopes, List.Forall₂ Records s.enclosing within →
    Admitted program s.declared os ∧
        events.foldlM (Scopes.step T) s = .ok ⟨after s.declared os, s.enclosing⟩ ∨
      ¬Admitted program s.declared os ∧ ∃ v, events.foldlM (Scopes.step T) s = .error (.violation v)

variable {T : Tables} {within : List Definition}

lemma Simulates.nil : Simulates program T within [] [] :=
  fun _ _ => .inl ⟨trivial, rfl⟩

/-- A piece after another. -/
lemma Simulates.append {events events' : List Event} (h : Simulates program T within events os)
    (h' : Simulates program T within events' os') :
    Simulates program T within (events ++ events') (os ++ os') := by
  intro s hs
  rw [foldlM_append, admitted_append, after_append]
  rcases h s hs with ⟨hadmitted, hrun⟩ | ⟨hnot, v, hrun⟩ <;> rw [hrun]
  · rcases h' ⟨after s.declared os, s.enclosing⟩ hs with ⟨hadmitted', hrun'⟩ | ⟨hnot, hfails⟩
    · exact .inl ⟨⟨hadmitted, hadmitted'⟩, hrun'⟩
    · exact .inr ⟨fun h => hnot h.2, hfails⟩
  · exact .inr ⟨fun h => hnot h.1, v, rfl⟩

/-- A single event that declares nothing. -/
lemma Simulates.of_allow {event : Event} {o : Occurrence} (violation? : Scopes → Option Violation)
    (hstep : ∀ s, Scopes.step T s event = s.allow (violation? s))
    (hdeclare : ∀ declared, declare declared o = declared)
    (h : ∀ s, List.Forall₂ Records s.enclosing within →
      (violation? s = none ↔ Permitted program (fun n => n ∈ s.declared) o)) :
    Simulates program T within [event] [o] := by
  intro s hs
  rw [foldlM_cons, hstep, Admitted, Admitted, and_true, ← h s hs, after, foldl_cons, foldl_nil, hdeclare]
  cases violation? s with
  | none => exact .inl ⟨rfl, rfl⟩
  | some v => exact .inr ⟨nofun, v, rfl⟩

lemma atProgramLevel_iff (hs : List.Forall₂ Records s.enclosing within) :
    s.atProgramLevel = true ↔ within = [] := by
  rw [Scopes.atProgramLevel, List.isEmpty_iff]
  constructor
  · intro h
    exact forall₂_nil_left_iff.1 (h ▸ hs)
  · intro h
    exact forall₂_nil_right_iff.1 (h ▸ hs)

/-- Only the program level takes note of a declaration. -/
lemma declare_eq (hs : List.Forall₂ Records s.enclosing within) (n : Text) :
    s.declare n = ⟨after s.declared [⟨within, .declaration n⟩], s.enclosing⟩ := by
  have hlevel := atProgramLevel_iff hs
  cases within with
  | nil =>
    rw [Scopes.declare, if_pos (hlevel.2 rfl)]
    rfl
  | cons d within =>
    rw [Scopes.declare, if_neg (fun h => cons_ne_nil d within (hlevel.1 h))]
    rfl

lemma Simulates.declaration (tok : Token) :
    Simulates program T within [.declare tok] [⟨within, .declaration tok.content⟩] := by
  intro s hs
  have hrun : [Event.declare tok].foldlM (Scopes.step T) s = .ok (s.declare tok.content) := rfl
  rw [hrun, declare_eq hs]
  exact .inl ⟨by simp [Admitted, Permitted], rfl⟩

lemma isLocal_iff (hs : List.Forall₂ Records s.enclosing within) (n : Text) :
    s.isLocal n = true ↔ ∃ d ∈ within, d.Binds n := by
  rw [Scopes.isLocal]
  generalize s.enclosing = enclosing at hs
  induction hs with
  | nil => simp
  | cons hrecord _ ih =>
    rw [any_cons, Bool.or_eq_true, ih]
    simp [hrecord.locals]

/-- The names that can be read at a place. -/
lemma isVisible_iff (hT : TablesOf program T) (hs : List.Forall₂ Records s.enclosing within) (n : Text) :
    s.isVisible T n = true ↔ Visible program (fun n => n ∈ s.declared) within n := by
  have hlocal := isLocal_iff hs n
  cases within with
  | nil =>
    simp [Scopes.isVisible, Scopes.atProgramLevel, forall₂_nil_right_iff.1 hs, Visible]
  | cons d within =>
    obtain ⟨f, enclosing, -, -, henclosing⟩ := forall₂_cons_right_iff.1 hs
    simp [Scopes.isVisible, Scopes.atProgramLevel, henclosing, Visible, hlocal, hT.globals]

/-- A reference. -/
lemma Simulates.reference (hT : TablesOf program T) (tok : Token) :
    Simulates program T within [.refer tok] [⟨within, .reference tok.content⟩] := by
  refine .of_allow (fun s => s.reference? T tok) (fun s => rfl) ?_ fun s hs => ?_
  · cases within <;> exact fun declared => rfl
  · rw [Permitted, ← isVisible_iff hT hs]
    unfold Scopes.reference?
    split
    · rename_i hvisible
      simpa using hvisible
    · rename_i hvisible
      cases s.enclosing <;> simpa using hvisible

/-- A call. -/
lemma Simulates.call (hT : TablesOf program T) (tok : Token) (arguments : Nat) :
    Simulates program T within [.call tok arguments] [⟨within, .call tok.content arguments⟩] := by
  refine .of_allow (fun s => s.call? T tok arguments) (fun s => rfl) ?_ fun s hs => ?_
  · cases within <;> exact fun declared => rfl
  · rw [Permitted, ← isLocal_iff hs, ← isVisible_iff hT hs]
    unfold Scopes.call?
    by_cases hlocal : s.isLocal tok.content = true
    · simp [hlocal]
    · rw [if_neg hlocal]
      by_cases hfunction : ∃ f ∈ definitions program, f.name = tok.content
      · obtain ⟨f, hf, hname⟩ := hfunction
        obtain ⟨signature, hsignature, hrecord⟩ := hT.function?_of_mem f hf
        rw [hname] at hsignature
        -- Any function of that name has this signature, so it has as many parameters.
        have harity : (∃ f ∈ definitions program, f.name = tok.content ∧
            f.parameters.length = arguments ∧ (within = [] → tok.content ∈ s.declared)) ↔
            signature.parameters = arguments ∧ (within = [] → tok.content ∈ s.declared) := by
          constructor
          · rintro ⟨f', hf', hname', hlength, hdeclared⟩
            obtain ⟨signature', hsignature', hrecord'⟩ := hT.function?_of_mem f' hf'
            rw [hname', hsignature] at hsignature'
            obtain rfl := Option.some.inj hsignature'
            exact ⟨hrecord'.parameters.trans hlength, hdeclared⟩
          · rintro ⟨hlength, hdeclared⟩
            exact ⟨f, hf, hname, hrecord.parameters.symm.trans hlength, hdeclared⟩
        have hother : ¬ ∀ f ∈ definitions program, f.name ≠ tok.content := fun h => h f hf hname
        rw [hsignature, harity, ← atProgramLevel_iff hs]
        simp only [hlocal, hother, false_and, or_false]
        by_cases hdeclared : tok.content ∈ s.declared <;>
          by_cases hlevel : s.atProgramLevel = true <;> simp [hdeclared, hlevel]
      · have hnone : T.function? tok.content = none :=
          hT.function?_of_notMem _ fun d hd hname => hfunction ⟨d, hd, hname⟩
        rw [hnone]
        have hno : ¬ ∃ f ∈ definitions program, f.name = tok.content ∧
            f.parameters.length = arguments ∧ (within = [] → tok.content ∈ s.declared) :=
          fun ⟨f, hf, hname, _⟩ => hfunction ⟨f, hf, hname⟩
        have hall : ∀ f ∈ definitions program, f.name ≠ tok.content :=
          fun f hf hname => hfunction ⟨f, hf, hname⟩
        simpa [hlocal, hno] using fun _ => hall

/-- The body of a function, entered and left. -/
lemma Simulates.function (hT : TablesOf program T) (tok : Token) {d : Definition}
    (hd : d ∈ definitions program) (hname : d.name = tok.content) {events : List Event}
    (h : Simulates program T (d :: within) events os) :
    Simulates program T within (.enter tok :: events ++ [.leave]) (declarationOf within d ++ os) := by
  obtain ⟨signature, hsignature, hrecord⟩ := hT.function?_of_mem d hd
  rw [hname] at hsignature
  intro s hs
  -- Entering declares the name, as a declaration does, and puts the signature on the stack.
  have hdeclared : after s.declared (declarationOf within d) = (s.declare tok.content).declared := by
    rw [declare_eq hs, ← hname]
    cases within <;> rfl
  have henter : Scopes.step T s (.enter tok) =
      .ok ⟨after s.declared (declarationOf within d), signature :: s.enclosing⟩ := by
    rw [Scopes.step, hsignature, hdeclared]
    simp [declare_eq hs]
  have hadmitted : Admitted program s.declared (declarationOf within d) := by
    cases within <;> simp [declarationOf, Admitted, Permitted]
  rw [cons_append, foldlM_cons, henter, admitted_append, after_append]
  change _ ∧ (events ++ [Event.leave]).foldlM (Scopes.step T) _ = _ ∨
    _ ∧ ∃ v, (events ++ [Event.leave]).foldlM (Scopes.step T) _ = _
  rw [foldlM_append]
  rcases h ⟨after s.declared (declarationOf within d), signature :: s.enclosing⟩ (.cons hrecord hs) with ⟨hos, hrun⟩ | ⟨hnot, v, hrun⟩ <;> rw [hrun]
  · exact .inl ⟨⟨hadmitted, hos⟩, rfl⟩
  · exact .inr ⟨fun h => hnot h.2, v, rfl⟩

/-! ### The trace of a tree -/

section Trees

open Tree Grammar

lemma definitions_subset {ts : List Tree} {t : Tree} (ht : t ∈ ts) :
    definitions t ⊆ definitionsOf ts := by
  induction ts with
  | nil => exact absurd ht (by simp)
  | cons u us ih =>
    rw [definitionsOf]
    rcases mem_cons.1 ht with rfl | ht
    · exact subset_append_left _ _
    · exact List.Subset.trans (ih ht) (subset_append_right _ _)

/-- The trace of the children of a node. -/
lemma simulates_traceOf {ts : List Tree}
    (h : ∀ t ∈ ts, Simulates program T within (trace t) (occurrences within t)) :
    Simulates program T within (traceOf ts) (occurrencesOf within ts) := by
  induction ts with
  | nil => exact .nil
  | cons t ts ih =>
    have hts := ih fun u hu => h u (mem_cons_of_mem t hu)
    cases t with
    | leaf l tok =>
      rw [traceOf, occurrencesOf, occurrences_leaf]
      exact hts
    | node l us =>
      rw [traceOf, occurrencesOf]
      exact (h _ mem_cons_self).append hts

section Nodes

/- A node whose children are simulated is simulated. One lemma for every form with a rule of its own. -/

variable {l : Text} {ts : List Tree} (hnode : IsDerivation builtin (.node l ts))
  (hchild : ∀ u ∈ ts, ∀ within, Simulates program T within (trace u) (occurrences within u))

include hnode hchild

/-- An assignment. -/
lemma simulates_assignment (hl : Form.ofLabel l = .assignment) :
    Simulates program T within (trace (.node l ts)) (occurrences within (.node l ts)) := by
  obtain ⟨target, sign, value, rfl, ⟨tok, rfl⟩ | htarget⟩ := shape_assignment hnode hl
  · have hvalue := hchild value (by simp) within
    simpa [trace, occurrences, hl, traceNth, eventAt, firstOf] using hvalue.append (.declaration tok)
  · have hne : target.label ≠ identifierSymbol := by
      rw [htarget]
      exact fun heq => absurd (utf8_injective heq) (by decide)
    have htarget := hchild target (by simp) within
    simpa [trace, occurrences, hl, traceNth, hne] using
      htarget.append (hchild value (by simp) within)

/-- A loop. -/
lemma simulates_forLoop (hl : Form.ofLabel l = .forLoop) :
    Simulates program T within (trace (.node l ts)) (occurrences within (.node l ts)) := by
  obtain ⟨a, tok, b, iterable, c, body, rfl, ha, hb, hiterable, hc, hbody⟩ := shape_forLoop hnode hl
  have hfound : traceFound blockLabel [a, identifier tok, b, iterable, c, body] = trace body := by
    rcases hiterable with hiterable | hiterable <;>
      simp [traceFound, Tree.is, ha, hb, hiterable, hc, hbody, identifierSymbol, blockLabel,
        rangeLabel, expressionLabel, utf8_injective.eq_iff]
  have hiterable := hchild iterable (by simp) within
  have hrest := (Simulates.declaration tok).append (hchild body (by simp) within)
  simpa [trace, occurrences, hl, traceNth, hfound, eventAt, firstOf] using hiterable.append hrest

/-- A call. -/
lemma simulates_call (hT : TablesOf program T) (hts : ∀ u ∈ ts, u.IsDerivation builtin)
    (hl : Form.ofLabel l = .call) :
    Simulates program T within (trace (.node l ts)) (occurrences within (.node l ts)) := by
  obtain ⟨tok, a, c, ha, hc, rfl | ⟨arguments, rfl, harguments⟩⟩ := shape_call hnode hl
  · simpa [trace, occurrences, hl, eventAt, firstOf, argumentCount, List.find?, Tree.is, ha, hc,
      identifierSymbol, argumentsLabel, utf8_injective.eq_iff] using Simulates.call hT tok 0
  · have hfound : traceFound argumentsLabel [identifier tok, a, arguments, c] = trace arguments := by
      simp [traceFound, Tree.is, ha, harguments, identifierSymbol, argumentsLabel,
        utf8_injective.eq_iff]
    have hcount : argumentCount [identifier tok, a, arguments, c] = (elements arguments).length := by
      rw [← (separated (show ("<arguments>", "<expression>") ∈ listRules by decide) (hts arguments (by simp))
        harguments).items]
      simp [argumentCount, List.find?, Tree.is, ha, harguments, identifierSymbol, argumentsLabel,
        utf8_injective.eq_iff]
    have hcall : Simulates program T within _ _ := .call hT tok (elements arguments).length
    simpa [trace, occurrences, hl, eventAt, firstOf, hcount, hfound, Tree.is, harguments] using
      hcall.append (hchild arguments (by simp) within)

/-- A function. -/
lemma simulates_function (hT : TablesOf program T)
    (hdefinitions : definitions (.node l ts) ⊆ definitions program)
    (hl : Form.ofLabel l = .function) :
    Simulates program T within (trace (.node l ts)) (occurrences within (.node l ts)) := by
  have hdefines : ∀ d, definition? l ts = some d → d ∈ definitions program := by
    intro d hd
    refine hdefinitions ?_
    simp [definitions, hd]
  obtain ⟨a, tok, b, c, d, body, ha, hb, hc, hd, hbody, hshape⟩ := shape_function hnode hl
  rcases hshape with rfl | ⟨parameters, rfl, hparameters⟩
  · have hfound : traceFound blockLabel [a, identifier tok, b, c, d, body] = trace body := by
      simp [traceFound, Tree.is, ha, hb, hc, hd, hbody, identifierSymbol, blockLabel,
        utf8_injective.eq_iff]
    have hmem := hdefines ⟨tok.content, [], boundNames body⟩ (by simp [definition?, hl])
    simpa [trace, occurrences, hl, firstOf, hfound] using
      Simulates.function hT tok hmem rfl (hchild body (by simp) _)
  · have hfound : traceFound blockLabel [a, identifier tok, b, parameters, c, d, body] =
        trace body := by
      simp [traceFound, Tree.is, ha, hb, hparameters, hc, hd, hbody, identifierSymbol,
        parametersLabel, blockLabel, utf8_injective.eq_iff]
    have hmem := hdefines ⟨tok.content, (elements parameters).map word, boundNames body⟩
      (by simp [definition?, hl])
    simpa [trace, occurrences, hl, firstOf, hfound] using
      Simulates.function hT tok hmem rfl (hchild body (by simp) _)

end Nodes

/-- The uses of names in a tree are those of its trace. -/
lemma simulates_trace (hT : TablesOf program T) {t : Tree} (ht : t.IsDerivation builtin)
    (hdefinitions : definitions t ⊆ definitions program) (within : List Definition) :
    Simulates program T within (trace t) (occurrences within t) := by
  induction ht generalizing within with
  | @leaf s tok hs hcategory htoken =>
    rw [trace, form_of_leaf hs hcategory, occurrences_leaf]
    exact .nil
  | @category s tok hs hcategory htoken =>
    rcases form_of_isTerminal hs with hform | rfl
    · simp only [trace, traceOf, occurrences, occurrencesOf, hform, append_nil]
      exact .nil
    · simp only [trace, occurrences, form_identifierSymbol]
      exact .reference hT tok
  | @rule r ts hr hlabels hts ih =>
    have hnode : IsDerivation builtin (.node r.lhs ts) := .rule hr hlabels hts
    have hchild : ∀ u ∈ ts, ∀ within,
        Simulates program T within (trace u) (occurrences within u) := by
      intro u hu within
      refine ih u hu ?_ within
      refine List.Subset.trans (definitions_subset hu) (List.Subset.trans ?_ hdefinitions)
      rw [definitions]
      exact subset_append_right _ _
    cases hform : Form.ofLabel r.lhs with
    | assignment => exact simulates_assignment hnode hchild hform
    | forLoop => exact simulates_forLoop hnode hchild hform
    | call => exact simulates_call hnode hchild hT hts hform
    | function => exact simulates_function hnode hchild hT hdefinitions hform
    | keywordArgument =>
      obtain ⟨key, sign, value, rfl⟩ := shape_keywordArgument hnode hform
      simpa [trace, occurrences, hform, traceNth] using hchild value (by simp) within
    | identifier =>
      obtain ⟨tok, htok⟩ := shape_identifier hnode hform
      rw [htok]
      exact .reference hT tok
    | _ =>
      rw [trace, occurrences.eq_def]
      simp only [hform]
      exact simulates_traceOf fun u hu => hchild u hu within

end Trees

/-- Checking a derivation of the built-in grammar decides the scoping rules on it. -/
lemma check_cases {program : Tree} (ht : program.IsDerivation Grammar.builtin) :
    Scoped program ∧ check program = .ok () ∨
      ¬Scoped program ∧ ∃ v, check program = .error (.violation v) := by
  rw [scoped_iff, check, Tables.ofTree]
  rcases collected_bindings ht none Tables.empty nodup_nil (by simp) with
    ⟨hdistinct, T, hrun, hcollects⟩ | ⟨hnot, v, hrun⟩ <;> rw [hrun]
  · have hT := TablesOf.of_collects hdistinct hcollects
    change _ ∧ validate T program = _ ∨ _ ∧ ∃ v, validate T program = _
    rw [validate]
    rcases simulates_trace hT ht (List.Subset.refl _) [] ⟨[], []⟩ .nil with
      ⟨hadmitted, hwalk⟩ | ⟨hnot, v, hwalk⟩ <;> rw [hwalk]
    · exact .inl ⟨⟨hdistinct, hadmitted⟩, rfl⟩
    · exact .inr ⟨fun h => hnot h.2, v, rfl⟩
  · exact .inr ⟨fun h => hnot h.1, v, rfl⟩

end Scope

/-- Checking decides the scoping rules: a program passes exactly when no two of its functions have the
same name and every use of a name in it is permitted. -/
theorem check_eq_ok_iff_scoped {tokens : List Token} {program : Tree}
    (h : parse Grammar.builtin tokens = .ok program) :
    check program = .ok () ↔ Scope.Scoped program := by
  obtain ⟨-, ht, -⟩ := isDerivation_of_parse_eq_ok Grammar.acceptSymbol_notMem_builtin h
  rcases Scope.check_cases ht with ⟨hscoped, hcheck⟩ | ⟨hnot, v, hcheck⟩
  · exact iff_of_true hcheck hscoped
  · exact iff_of_false (by simp [hcheck]) hnot

/-- A program that defines a function and calls it has a tree, and the rules decide on it. -/
theorem check_function_and_call :
    let word : String → Token := fun w => ⟨.keyword, utf8 w, ⟨0, 0⟩⟩
    let f : Token := ⟨.identifier, utf8 "f", ⟨0, 0⟩⟩
    let tokens := [word "def", f, word "(", word ")", word ":", word "pass",
      ⟨.divider, newlineText, ⟨0, 0⟩⟩, f, word "(", word ")", ⟨.divider, newlineText, ⟨0, 0⟩⟩]
    ∃ program, parse Grammar.builtin tokens = .ok program ∧
      (check program = .ok () ↔ Scope.Scoped program) := by
  intro word f tokens
  let program := Grammar.BuiltinMachine.build 200 [] tokens
  have hleaves : program.leaves = tokens := by decide +kernel
  have hparse : parse Grammar.builtin program.leaves = .ok program := parse_of_follows (by decide +kernel)
  rw [hleaves] at hparse
  exact ⟨program, hparse, check_eq_ok_iff_scoped hparse⟩

end Lunify
