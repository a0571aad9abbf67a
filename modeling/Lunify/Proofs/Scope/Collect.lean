import Lunify.Proofs.Scope.Lists

/-!
# What the tables of a program hold

Collecting the bindings of a program succeeds exactly when its functions have distinct names, and
the tables then hold the functions and names that the scoping rules speak about
(`Scope.collected_bindings`, `Scope.Records`). No part of a binding is ever missing.

The bindings of a part of the program are collected into tables that hold something already.
`Scope.Collected` says what becomes of such tables, and it is closed under sequences of parts, so
that the proof follows the tree.
-/

namespace Lunify

open List

variable {T : Tables}

namespace Tables

variable {n : Text}

/-- The names of the functions in the tables. -/
def names (T : Tables) : List Text :=
  T.functions.map Signature.name

@[simp] lemma mem_insertName {names : List Text} {a : Text} :
    n ∈ insertName names a ↔ n ∈ names ∨ n = a := by
  unfold insertName
  split
  · rename_i h
    constructor
    · exact .inl
    · rintro (hn | rfl)
      · exact hn
      · simpa using h
  · simp

@[simp] lemma mem_foldl_insertName {new names : List Text} :
    n ∈ new.foldl insertName names ↔ n ∈ names ∨ n ∈ new := by
  induction new generalizing names with
  | nil => simp
  | cons a new ih => rw [foldl_cons, ih, mem_insertName, mem_cons, or_assoc]

lemma function?_eq_none_iff : T.function? n = none ↔ n ∉ T.names := by
  simp [function?, names]

end Tables

namespace Scope

open Tables

variable {owner : Option Text} {defs : List Definition} {bound : List Text}

/-- A signature holds what the rules say about a function. -/
structure Records (s : Signature) (d : Definition) : Prop where
  name : s.name = d.name
  parameters : s.parameters = d.parameters.length
  locals : ∀ n, n ∈ s.locals ↔ d.Binds n

/-- A signature after names were bound, if it is the owner that they were bound in. -/
def grow (owner : Option Text) (bound : List Text) (s : Signature) : Signature :=
  if owner = some s.name then { s with locals := bound.foldl insertName s.locals } else s

@[simp] lemma name_grow (owner : Option Text) (bound : List Text) (s : Signature) :
    (grow owner bound s).name = s.name := by
  unfold grow
  split <;> rfl

/-- Names can be bound in two goes. -/
lemma grow_grow (owner : Option Text) (bound bound' : List Text) (s : Signature) :
    grow owner bound' (grow owner bound s) = grow owner (bound ++ bound') s := by
  by_cases h : owner = some s.name
  · have h' : owner = some (grow owner bound s).name := by rw [name_grow, h]
    rw [grow, if_pos h', grow, if_pos h, grow, if_pos h, foldl_append]
  · have h' : ¬ owner = some (grow owner bound s).name := by rwa [name_grow]
    rw [grow, if_neg h', grow, if_neg h, grow, if_neg h]

lemma map_grow_nil (owner : Option Text) (signatures : List Signature) :
    signatures.map (grow owner []) = signatures := by
  have hgrow : ∀ s, grow owner [] s = s := by
    intro s
    unfold grow
    split <;> rfl
  rw [map_congr_left (fun s _ => hgrow s), map_id']

/-- Binding names changes no function but their owner. -/
lemma map_grow_of_notMem {signatures : List Signature}
    (h : ∀ f, owner = some f → f ∉ signatures.map Signature.name) (bound : List Text) :
    signatures.map (grow owner bound) = signatures := by
  have hgrow : ∀ s ∈ signatures, grow owner bound s = s := by
    intro s hs
    refine if_neg fun howner => ?_
    exact h s.name howner (mem_map_of_mem hs)
  rw [map_congr_left hgrow, map_id']

/-- What the tables are after the bindings of a part of a program inside `owner`: the names that the
part binds have been added to the owner or to the program, and its functions to both lists. -/
structure Collects (owner : Option Text) (defs : List Definition) (bound : List Text)
    (T T' : Tables) : Prop where
  functions : ∃ new, T'.functions = T.functions.map (grow owner bound) ++ new ∧
    new.map Signature.name = defs.map Definition.name ∧ ∀ s ∈ new, ∃ d ∈ defs, Records s d
  globals : ∀ n, n ∈ T'.globals ↔
    n ∈ T.globals ∨ (owner = none ∧ n ∈ bound) ∨ ∃ d ∈ defs, d.name = n

/-- The functions of the part come after those of the tables. -/
lemma Collects.names_eq {T' : Tables} (h : Collects owner defs bound T T') :
    T'.names = T.names ++ defs.map Definition.name := by
  obtain ⟨new, hfunctions, hnames, -⟩ := h.functions
  have hold : (T.functions.map (grow owner bound)).map Signature.name = T.names := by
    rw [map_map, names]
    exact map_congr_left fun s _ => name_grow owner bound s
  rw [names, hfunctions, map_append, hold, hnames]

/-- Two parts of a program one after the other. -/
lemma Collects.trans {defs' : List Definition} {bound' : List Text} {T' T'' : Tables}
    (h : Collects owner defs bound T T') (h' : Collects owner defs' bound' T' T'')
    (howner : ∀ f, owner = some f → f ∉ defs.map Definition.name) :
    Collects owner (defs ++ defs') (bound ++ bound') T T'' := by
  constructor
  · obtain ⟨new, hfunctions, hnames, hrecords⟩ := h.functions
    obtain ⟨new', hfunctions', hnames', hrecords'⟩ := h'.functions
    refine ⟨new ++ new', ?_, ?_, ?_⟩
    · rw [hfunctions', hfunctions, map_append, map_map,
        map_grow_of_notMem (fun f hf => hnames ▸ howner f hf), append_assoc]
      congr 1
      exact map_congr_left fun s _ => grow_grow owner bound bound' s
    · rw [map_append, map_append, hnames, hnames']
    · intro s hs
      rcases mem_append.1 hs with hs | hs
      · obtain ⟨d, hd, hrecord⟩ := hrecords s hs
        exact ⟨d, mem_append_left _ hd, hrecord⟩
      · obtain ⟨d, hd, hrecord⟩ := hrecords' s hs
        exact ⟨d, mem_append_right _ hd, hrecord⟩
  · intro n
    rw [h'.globals, h.globals]
    simp only [mem_append, or_and_right, exists_or]
    grind

/-- The bindings of a part of a program, in whatever tables they are collected: they are all there
afterwards, unless a function gets a name that another one has, which breaks a rule. -/
def Collected (bs : List Binding) (owner : Option Text) (defs : List Definition) (bound : List Text)
    (T : Tables) : Prop :=
  (T.names ++ defs.map Definition.name).Nodup ∧
      (∃ T', bs.foldlM Tables.add T = .ok T' ∧ Collects owner defs bound T T') ∨
    ¬(T.names ++ defs.map Definition.name).Nodup ∧ ∃ v, bs.foldlM Tables.add T = .error (.violation v)

lemma Collected.nil (owner : Option Text) (hT : T.names.Nodup) : Collected [] owner [] [] T := by
  refine .inl ⟨by simpa using hT, T, rfl, ⟨[], ?_, rfl, by simp⟩, by simp⟩
  rw [map_grow_nil, append_nil]

/-- Bindings one after the other. The owner of the names is in the tables, so none of the functions
in the first part can be it. -/
lemma Collected.append {bs bs' : List Binding} {defs' : List Definition} {bound' : List Text}
    (howner : ∀ f, owner = some f → f ∈ T.names) (h : Collected bs owner defs bound T)
    (h' : ∀ T', T'.names.Nodup → (∀ f, owner = some f → f ∈ T'.names) → Collected bs' owner defs' bound' T') :
    Collected (bs ++ bs') owner (defs ++ defs') (bound ++ bound') T := by
  rw [Collected, foldlM_append, map_append, ← append_assoc]
  rcases h with ⟨hnodup, T₁, hrun, hcollects⟩ | ⟨hnot, v, hrun⟩
  · have hnames := hcollects.names_eq
    rw [hrun, ← hnames]
    rcases h' T₁ (hnames ▸ hnodup) fun f hf => hnames ▸ mem_append_left _ (howner f hf) with
      ⟨hnodup', T₂, hrun', hcollects'⟩ | hfails
    · refine .inl ⟨hnodup', T₂, hrun', hcollects.trans hcollects' fun f hf hmem => ?_⟩
      exact (nodup_append.1 hnodup).2.2 f (howner f hf) f hmem rfl
    · exact .inr hfails
  · rw [hrun]
    exact .inr ⟨fun hnodup => hnot (nodup_append.1 hnodup).1, v, rfl⟩

/-- A name is bound. -/
lemma Collected.name (owner : Option Text) (tok : Token) (hT : T.names.Nodup) :
    Collected [.name owner (some tok)] owner [] [tok.content] T := by
  refine .inl ⟨by simpa using hT, T.bind owner tok.content, rfl, ?_⟩
  cases owner with
  | none =>
    refine ⟨⟨[], ?_, rfl, by simp⟩, by simp [Tables.bind]⟩
    rw [append_nil, map_grow_of_notMem (by simp)]
    rfl
  | some f =>
    refine ⟨⟨[], ?_, rfl, by simp⟩, by simp [Tables.bind]⟩
    rw [append_nil]
    refine map_congr_left fun s _ => ?_
    simp only [grow, Option.some.injEq, eq_comm, foldl_cons, foldl_nil]

lemma mapM_id_map_some (tokens : List Token) : (tokens.map some).mapM id = some tokens := by
  induction tokens with
  | nil => rfl
  | cons tok tokens ih =>
    rw [map_cons, mapM_cons, ih]
    rfl

/-- A function with a new name is added to both lists. -/
lemma add_function_eq_ok {tok : Token} (hmem : tok.content ∉ T.names) (parameters : List Token) :
    T.add (.function (some tok) (parameters.map some)) =
      .ok ⟨T.functions ++ [⟨tok, (parameters.map Token.content).length,
        (parameters.map Token.content).foldl insertName []⟩], insertName T.globals tok.content⟩ := by
  rw [Tables.add, function?_eq_none_iff.2 hmem, mapM_id_map_some]

lemma exists_add_function_eq_error {tok : Token} (hmem : tok.content ∈ T.names)
    (parameters : List (Option Token)) : ∃ v, T.add (.function (some tok) parameters) = .error (.violation v) := by
  obtain ⟨earlier, hearlier⟩ := Option.ne_none_iff_exists'.1
    (mt function?_eq_none_iff.1 (not_not.2 hmem))
  exact ⟨_, by rw [Tables.add, hearlier]⟩

/-- A function is defined, and the rest of the bindings belong to it. -/
lemma Collected.function (owner : Option Text) (tok : Token) (parameters : List Token) {bs : List Binding}
    (hT : T.names.Nodup)
    (h : ∀ T', T'.names.Nodup → tok.content ∈ T'.names → Collected bs (some tok.content) defs bound T') :
    Collected (.function (some tok) (parameters.map some) :: bs) owner
      (⟨tok.content, parameters.map Token.content, bound⟩ :: defs) [] T := by
  rw [Collected, foldlM_cons]
  by_cases hmem : tok.content ∈ T.names
  · -- The name is taken, and both sides say so.
    obtain ⟨v, hadd⟩ := exists_add_function_eq_error hmem (parameters.map some)
    rw [hadd]
    refine .inr ⟨fun hnodup => ?_, v, rfl⟩
    exact absurd rfl ((nodup_append.1 hnodup).2.2 tok.content hmem tok.content (by simp))
  · rw [add_function_eq_ok hmem parameters]
    set s : Signature := ⟨tok, (parameters.map Token.content).length,
      (parameters.map Token.content).foldl insertName []⟩ with hs
    set T₁ : Tables := ⟨T.functions ++ [s], insertName T.globals tok.content⟩ with hT₁
    have hnames : T₁.names = T.names ++ [tok.content] := by
      simp [hT₁, hs, names, Signature.name]
    have hnodup : T₁.names.Nodup := by
      rw [hnames, nodup_append]
      refine ⟨hT, nodup_singleton _, ?_⟩
      rintro a ha b hb rfl
      exact hmem (mem_singleton.1 hb ▸ ha)
    have hrest := h T₁ hnodup (by simp [hnames])
    rw [Collected, hnames, append_assoc] at hrest
    rcases hrest with ⟨hnodup', T', hrun, ⟨new, hfunctions, hnew, hrecords⟩, hglobals⟩ | hfails
    · have hown : ∀ f, some tok.content = some f → f ∉ T.functions.map Signature.name := by
        rintro f hf
        rw [← Option.some.inj hf]
        exact hmem
      have howner : some tok.content = some s.name := rfl
      refine .inl ⟨hnodup', T', hrun, ⟨grow (some tok.content) bound s :: new, ?_, ?_, ?_⟩, ?_⟩
      · rw [hfunctions, map_append, map_grow_of_notMem hown, map_grow_nil, append_assoc]
        rfl
      · rw [map_cons, name_grow, hnew]
        rfl
      · intro s' hs'
        rcases mem_cons.1 hs' with rfl | hs'
        · refine ⟨_, mem_cons_self, name_grow _ _ _, ?_, fun n => ?_⟩
          · rw [grow, if_pos howner]
          · rw [grow, if_pos howner]
            simp [hs, Definition.Binds]
        · obtain ⟨d, hd, hrecord⟩ := hrecords s' hs'
          exact ⟨d, mem_cons_of_mem _ hd, hrecord⟩
      · intro n
        rw [hglobals]
        simp [hT₁, or_assoc, eq_comm]
    · exact .inr hfails

/-! ### The bindings of a tree -/

section Trees

open Tree Grammar

variable {t : Tree} {ts : List Tree}

@[simp] lemma word_identifier (tok : Token) : word (identifier tok) = tok.content :=
  rfl

@[simp] lemma boundNames_identifier (tok : Token) : boundNames (identifier tok) = [] := by
  simp [identifier, boundNames, boundNamesOf, ownNames]

lemma boundNames_word (ht : t.IsDerivation builtin) {w : String} (hw : w ∈ builtinWords)
    (hlabel : t.label = utf8 w) : boundNames t = [] := by
  obtain ⟨tok, rfl, -⟩ := leaf_of_label ht hw hlabel
  rw [boundNames]

/-- The tokens of the parameters of a function. -/
lemma exists_parameters (ht : t.IsDerivation builtin) (hlabel : t.label = parametersLabel) :
    ∃ tokens : List Token, t.items.map first? = tokens.map some ∧
      (elements t).map word = tokens.map Token.content := by
  obtain ⟨helements, hitems, -⟩ :=
    separated (show ("<parameters>", "<Identifier>") ∈ listRules by decide) ht hlabel
  have hrange : elements t ∈ Set.range (map identifier) := by
    rw [Set.range_list_map]
    intro u hu
    obtain ⟨tok, rfl⟩ := eq_identifier (helements u hu).1 (helements u hu).2
    exact ⟨tok, rfl⟩
  obtain ⟨tokens, htokens⟩ := hrange
  refine ⟨tokens, ?_, ?_⟩
  · rw [hitems, ← htokens, map_map]
    exact map_congr_left fun tok _ => by simp [identifier, first?]
  · rw [← htokens, map_map]
    rfl

/-- Parameters are not names bound by a body. -/
lemma boundNames_parameters (ht : t.IsDerivation builtin) (hlabel : t.label = parametersLabel) :
    boundNames t = [] := by
  have hline : ("<parameters>", [["<Identifier>"], ["<parameters>", ",", "<Identifier>"]]) ∈
      builtinTable := by
    decide
  have hform : Form.ofLabel parametersLabel = .sequence := by decide
  induction ht with
  | leaf hs => rfl
  | category hs hcategory htoken =>
    rw [label] at hlabel
    simp [boundNames, boundNamesOf, ownNames, hlabel, hform]
  | @rule r ts hr hlabels hts ih =>
    obtain ⟨hlabels', -⟩ := children_eq (.rule hr hlabels hts) "<parameters>" _ hline hlabel
    rw [label] at hlabel
    simp only [mem_cons, not_mem_nil, or_false, exists_eq_or_imp, exists_eq_left,
      map_cons, map_nil, map_eq_cons_iff, map_eq_nil_iff] at hlabels'
    rcases hlabels' with ⟨e, _, rfl, he, rfl⟩ |
      ⟨rest, _, rfl, hrest, comma, _, rfl, hcomma, e, _, rfl, he, rfl⟩
    · obtain ⟨tok, rfl⟩ := eq_identifier (hts e (by simp)) he
      simp [boundNames, boundNamesOf, ownNames, hlabel, hform]
    · obtain ⟨tok, rfl⟩ := eq_identifier (hts e (by simp)) he
      have hcomma' := boundNames_word (hts comma (by simp)) (by decide) hcomma
      simp [boundNames, boundNamesOf, ownNames, hlabel, hform, ih rest (by simp) hrest, hcomma']

/-- The function that a node defines, as the bindings see it and as the rules see it. Only the body
of a function binds names. -/
lemma exists_definition {l : Text} (h : IsDerivation builtin (.node l ts))
    (hts : ∀ u ∈ ts, u.IsDerivation builtin) (hl : Form.ofLabel l = .function) :
    ∃ (tok : Token) (tokens : List Token), firstOf ts 1 = some tok ∧
      parameterTokens ts = tokens.map some ∧
      definition? l ts = some ⟨tok.content, tokens.map Token.content, boundNamesOf ts⟩ := by
  obtain ⟨a, tok, b, c, d, body, ha, hb, hc, hd, hbody, hshape⟩ := shape_function h hl
  have hbound : ∀ {u : Tree} {w : String}, u ∈ ts → u.label = utf8 w → w ∈ builtinWords →
      boundNames u = [] := fun hu hlabel hw => boundNames_word (hts _ hu) hw hlabel
  rcases hshape with rfl | ⟨parameters, rfl, hlabel⟩
  · refine ⟨tok, [], by simp [firstOf], ?_, ?_⟩
    · simp [parameterTokens, List.find?, Tree.is, ha, hb, hc, hd, hbody, identifierSymbol,
        parametersLabel, blockLabel, utf8_injective.eq_iff]
    · have ha' := hbound (by simp) ha (by decide)
      have hb' := hbound (by simp) hb (by decide)
      have hc' := hbound (by simp) hc (by decide)
      have hd' := hbound (by simp) hd (by decide)
      simp [definition?, hl, boundNamesOf, ha', hb', hc', hd']
  · have hderives := hts parameters (by simp)
    obtain ⟨tokens, hitems, hwords⟩ := exists_parameters hderives hlabel
    refine ⟨tok, tokens, by simp [firstOf], ?_, ?_⟩
    · rw [← hitems]
      simp [parameterTokens, List.find?, Tree.is, ha, hb, hlabel, identifierSymbol,
        parametersLabel, utf8_injective.eq_iff]
    · have ha' := hbound (by simp) ha (by decide)
      have hb' := hbound (by simp) hb (by decide)
      have hc' := hbound (by simp) hc (by decide)
      have hd' := hbound (by simp) hd (by decide)
      have hparameters := boundNames_parameters hderives hlabel
      simp [definition?, hl, boundNamesOf, ha', hb', hc', hd', hparameters, hwords]

/-- The names that a node itself binds, as the bindings see them and as the rules see them. -/
lemma nodeBindings_eq {l : Text} (h : IsDerivation builtin (.node l ts))
    (hl : Form.ofLabel l ≠ .function) (owner : Option Text) :
    ∃ tokens : List Token, nodeBindings owner l ts = tokens.map (fun tok => .name owner (some tok)) ∧
      ownNames l ts = tokens.map Token.content := by
  cases hform : Form.ofLabel l with
  | function => exact absurd hform hl
  | assignment =>
    obtain ⟨target, sign, value, rfl, ⟨tok, rfl⟩ | htarget⟩ := shape_assignment h hform
    · exact ⟨[tok], by simp [nodeBindings, hform, Tree.is], by simp [ownNames, hform]⟩
    · have hne : target.label ≠ identifierSymbol := by
        rw [htarget]
        exact fun heq => absurd (utf8_injective heq) (by decide)
      exact ⟨[], by simp [nodeBindings, hform, Tree.is, hne], by simp [ownNames, hform, hne]⟩
  | forLoop =>
    obtain ⟨a, tok, b, iterable, c, body, rfl, -⟩ := shape_forLoop h hform
    exact ⟨[tok], by simp [nodeBindings, hform, firstOf], by simp [ownNames, hform]⟩
  | _ => exact ⟨[], by simp [nodeBindings, hform], by simp [ownNames, hform]⟩

/-- Several names are bound. -/
lemma Collected.names (owner : Option Text) (tokens : List Token) (hT : T.names.Nodup)
    (howner : ∀ f, owner = some f → f ∈ T.names) :
    Collected (tokens.map fun tok => .name owner (some tok)) owner [] (tokens.map Token.content)
      T := by
  induction tokens generalizing T with
  | nil => exact .nil owner hT
  | cons tok tokens ih => exact (Collected.name owner tok hT).append howner fun T' => ih

/-- The bindings of the children of a node. -/
lemma collected_bindingsOf
    (h : ∀ t ∈ ts, ∀ owner T, T.names.Nodup → (∀ f, owner = some f → f ∈ T.names) →
      Collected (bindings owner t) owner (definitions t) (boundNames t) T)
    (owner : Option Text) {T : Tables} (hT : T.names.Nodup) (howner : ∀ f, owner = some f → f ∈ T.names) :
    Collected (bindingsOf owner ts) owner (definitionsOf ts) (boundNamesOf ts) T := by
  induction ts generalizing T with
  | nil => exact .nil owner hT
  | cons t ts ih =>
    have hts := fun u hu => h u (mem_cons_of_mem t hu)
    cases t with
    | leaf l tok =>
      rw [bindingsOf, definitionsOf, definitions, boundNamesOf, boundNames]
      exact ih hts hT howner
    | node l us =>
      rw [bindingsOf, definitionsOf, boundNamesOf]
      exact (h _ mem_cons_self owner T hT howner).append howner fun T' => ih hts

/-- The bindings of a tree hold its functions and the names it binds. -/
lemma collected_bindings (ht : t.IsDerivation builtin) (owner : Option Text) (T : Tables) (hT : T.names.Nodup)
    (howner : ∀ f, owner = some f → f ∈ T.names) :
    Collected (bindings owner t) owner (definitions t) (boundNames t) T := by
  induction ht generalizing owner T with
  | @leaf s tok hs hcategory htoken =>
    rw [bindings, nodeBindings, form_of_leaf hs hcategory]
    exact .nil owner hT
  | @category s tok hs hcategory htoken =>
    have hform : Form.ofLabel s = .sequence ∨ Form.ofLabel s = .identifier :=
      (form_of_isTerminal hs).imp_right fun heq => by rw [heq, form_identifierSymbol]
    have hnil : bindings owner (.node s [.leaf s tok]) = [] ∧
        definitions (.node s [.leaf s tok]) = [] ∧ boundNames (.node s [.leaf s tok]) = [] := by
      rcases hform with hform | hform <;>
        simp [bindings, bindingsOf, nodeBindings, definitions, definitionsOf, definition?,
          boundNames, boundNamesOf, ownNames, hform]
    rw [hnil.1, hnil.2.1, hnil.2.2]
    exact .nil owner hT
  | @rule r ts hr hlabels hts ih =>
    have hnode : IsDerivation builtin (.node r.lhs ts) := .rule hr hlabels hts
    have hchildren := collected_bindingsOf (fun t ht owner T => ih t ht owner T)
    by_cases hform : Form.ofLabel r.lhs = .function
    · obtain ⟨tok, tokens, hfirst, hparameters, hdefinition⟩ := exists_definition hnode hts hform
      rw [bindings, nodeBindings, ownerBelow, hform, definitions, hdefinition, boundNames,
        if_pos hform]
      simp only [hfirst, hparameters]
      refine Collected.function owner tok tokens hT fun T' hT' hmem => ?_
      exact hchildren (some tok.content) hT' fun f hf => Option.some.inj hf ▸ hmem
    · obtain ⟨tokens, hnames, hown⟩ := nodeBindings_eq hnode hform owner
      have hbelow : ownerBelow owner r.lhs ts = owner := by
        cases h : Form.ofLabel r.lhs <;> simp_all [ownerBelow]
      have hdefinition : definition? r.lhs ts = none := by
        cases h : Form.ofLabel r.lhs <;> simp_all [definition?]
      rw [bindings, hbelow, hnames, definitions, hdefinition, boundNames, if_neg hform, hown]
      exact (Collected.names owner tokens hT howner).append howner fun T' => hchildren owner

end Trees

end Scope

end Lunify
