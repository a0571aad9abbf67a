import Lunify.Proofs.Core.Numbers

/-!
# States of core programs and of Lua

`Core.Related` relates the state of a core program to the state of the Lua program that it becomes. In
Lua the parameters and loop variables around are local variables and all else is global. A loop variable
of the program level that is out of scope still has a value in the core program and none in Lua, which
no rule of the fragment lets anyone see. Inside of a function the variables of the program do not
change.
-/

namespace Lunify

open List

namespace Core

open Chunk (Numerals)

variable {ν : Type}

variable {f : Function}

/-- Where a part of a program is run: the site, the parameters and loop variables around it, and the
variables of the program when the innermost function was called. -/
structure Context where
  site : Site
  inside : List Name
  fixed : Name → Option Value

/-- Inside of one more loop. -/
def Context.within (c : Context) (x : Name) : Context :=
  { c with inside := x :: c.inside }

/-- The value of a name of the innermost function, or of the program if there is none. -/
def State.current (s : State) (x : Name) : Option Value :=
  match s.frame? with
  | none => s.globals x
  | some f => f.value x

/-- Whether a Lua function is what a function of a program with the given loop variables is read as. -/
structure SameFunction (loops : List Name) (f : Function) (g : Lua.Function) : Prop where
  params : g.params = f.params.map Name.text
  body : BlockMatches f.body g.body
  nodup : f.params.Nodup
  allowed : AllowedIn (.function loops f.params f.body) f.params false false f.body

/-- The states of a core program and of Lua at the same point of a run. -/
structure Related (IsInt : ν → Int → Prop) (c : Context) (s : State) (σ : Lua.State ν) : Prop where
  functions : List.Forall₂ (SameFunction c.site.loops) s.functions σ.functions
  printed : σ.printed = s.printed
  print : σ.globals (utf8 "print") = .native .print
  globals : ∀ x v, x ∉ c.site.loops → s.globals x = some v → Same IsInt v (σ.globals x.text)
  names : σ.locals.map Prod.fst = c.inside.map Name.text
  locals : ∀ x ∈ c.inside, ∀ v, s.current x = some v →
    ∃ w, σ.locals.lookup x.text = some w ∧ Same IsInt v w
  own : ∀ x ∈ c.inside, x ∈ c.site.own
  program : c.site.params? = none → s.frame? = none ∧ c.site.own = c.site.loops
  function : ∀ params, c.site.params? = some params →
    (∃ f, s.frame? = some f ∧ f.own = c.site.own) ∧ (∀ x ∈ params, x ∈ c.inside) ∧ s.globals = c.fixed

namespace State

variable (s : State) {x y : Name} {v : Value}

@[simp] lemma functions_bind : (s.bind x v).functions = s.functions := by
  unfold State.bind
  split <;> rfl

@[simp] lemma printed_bind : (s.bind x v).printed = s.printed := by
  unfold State.bind
  split <;> rfl

variable {s}

lemma current_bind_self : (s.bind x v).current x = some v := by
  unfold State.bind State.current
  cases s.frame? with
  | none => exact if_pos rfl
  | some f => exact if_pos rfl

lemma current_bind_of_ne (hxy : y ≠ x) : (s.bind x v).current y = s.current y := by
  unfold State.bind State.current
  cases s.frame? with
  | none => exact if_neg hxy
  | some f => exact if_neg hxy

end State

/-! ### Local variables of Lua -/

section Locals

variable {x y : Text} {v : Chunk.Value ν} {l : List (Text × Chunk.Value ν)}

lemma map_fst_setLocal (x : Text) (v : Chunk.Value ν) (l : List (Text × Chunk.Value ν)) :
    (Lua.setLocal x v l).map Prod.fst = l.map Prod.fst := by
  induction l with
  | nil => rfl
  | cons p l ih =>
    obtain ⟨y, w⟩ := p
    by_cases hy : y = x
    · simp [Lua.setLocal, hy]
    · simp [Lua.setLocal, hy, ih]

/-- A local variable has the value that it was given. -/
lemma lookup_setLocal_self (hx : x ∈ l.map Prod.fst) : (Lua.setLocal x v l).lookup x = some v := by
  induction l with
  | nil => simp at hx
  | cons p l ih =>
    obtain ⟨y, w⟩ := p
    by_cases hy : y = x
    · simp [Lua.setLocal, hy]
    · have hxl : x ∈ l.map Prod.fst := by simpa [Ne.symm hy] using hx
      have hbeq : (x == y) = false := beq_false_of_ne (Ne.symm hy)
      simp [Lua.setLocal, hy, lookup_cons, hbeq, ih hxl]

lemma isSome_lookup (hx : x ∈ l.map Prod.fst) : (l.lookup x).isSome = true := by
  rw [Option.isSome_iff_ne_none, ne_eq, lookup_eq_none_iff]
  obtain ⟨p, hp, rfl⟩ := mem_map.1 hx
  intro hall
  simpa using hall p hp

lemma lookup_setLocal_of_ne (hxy : y ≠ x) : (Lua.setLocal x v l).lookup y = l.lookup y := by
  induction l with
  | nil => rfl
  | cons p l ih =>
    obtain ⟨z, w⟩ := p
    by_cases hz : z = x
    · have hbeq : (y == x) = false := beq_false_of_ne hxy
      simp [Lua.setLocal, hz, lookup_cons, hbeq]
    · simp [Lua.setLocal, hz, lookup_cons, ih]

lemma lookup_cons_of_ne (hxy : y ≠ x) : ((x, v) :: l).lookup y = l.lookup y := by
  have hbeq : (y == x) = false := beq_false_of_ne hxy
  simp [lookup_cons, hbeq]

end Locals

lemma Name.text_injective : Function.Injective Name.text :=
  fun _ _ h => Name.ext h

lemma Name.text_ne_print (x : Name) : x.text ≠ utf8 "print" := by
  intro h
  exact x.notReserved (h ▸ by decide)

namespace Related

variable {IsInt : ν → Int → Prop} {c : Context} {s : State} {σ : Lua.State ν}
  (h : Related IsInt c s σ)

variable {w : Chunk.Value ν}

include h

/-- A name is a local variable of Lua exactly where a parameter or a loop around binds it. -/
lemma lookup_locals_eq_none {x : Name} (hx : x ∉ c.inside) : σ.locals.lookup x.text = none := by
  rw [lookup_eq_none_iff]
  intro p hp
  have hmem : p.1 ∈ c.inside.map Name.text := h.names ▸ mem_map_of_mem hp
  obtain ⟨y, hy, heq⟩ := mem_map.1 hmem
  rw [bne_iff_ne, ← heq]
  intro htext
  exact hx (Name.text_injective htext ▸ hy)

/-- A name that can be read has the same value in Lua. -/
lemma lookup {x : Name} {v : Value} (hreads : c.site.Reads c.inside [x]) (hv : s.lookup x = some v) :
    Same IsInt v (σ.lookup x.text) := by
  rcases hreads x (by simp) with hinside | ⟨hown, hloops⟩
  · have hcurrent : s.current x = some v := by
      rw [← hv, State.current, State.lookup]
      cases hparams : c.site.params? with
      | none => simp [(h.program hparams).1]
      | some params =>
        obtain ⟨⟨f, hf, hfown⟩, -, -⟩ := h.function params hparams
        simp [hf, hfown, h.own x hinside]
    obtain ⟨w, hw, hsame⟩ := h.locals x hinside v hcurrent
    rwa [Lua.State.lookup, hw]
  · have hnone := h.lookup_locals_eq_none fun hinside => hown (h.own x hinside)
    have hglobal : s.globals x = some v := by
      rw [← hv, State.lookup]
      cases hparams : c.site.params? with
      | none => simp [(h.program hparams).1]
      | some params =>
        obtain ⟨⟨f, hf, hfown⟩, -, -⟩ := h.function params hparams
        simp [hf, hfown, hown]
    rw [Lua.State.lookup, hnone]
    exact h.globals x v hloops hglobal

/-- The function that prints is not hidden by a local variable. -/
lemma lookup_print : σ.lookup (utf8 "print") = .native .print := by
  have hnone : σ.locals.lookup (utf8 "print") = none := by
    rw [lookup_eq_none_iff]
    intro p hp
    have hmem : p.1 ∈ c.inside.map Name.text := h.names ▸ mem_map_of_mem hp
    obtain ⟨y, -, heq⟩ := mem_map.1 hmem
    rw [bne_iff_ne, ← heq]
    exact y.text_ne_print.symm
  rw [Lua.State.lookup, hnone]
  exact h.print

lemma printLine {N : Numerals ν} {line : Text} {vs : List (Chunk.Value ν)}
    (hline : Text.join (utf8 "\t") (vs.map (Chunk.Value.text N)) = line) :
    Related IsInt c (s.print line) (σ.print N vs) := by
  refine { h with printed := ?_ }
  rw [State.print, Lua.State.print, h.printed, hline]

/-- Assigning the same value at program level. -/
lemma bind_global {x : Name} {v : Value} (hsite : c.site.params? = none) (hx : x ∉ c.site.loops)
    (hsame : Same IsInt v w) :
    Related IsInt c (s.bind x v) (σ.assign x.text w) := by
  obtain ⟨hframe, hown⟩ := h.program hsite
  have hinside : x ∉ c.inside := fun hmem => hx (hown ▸ h.own x hmem)
  have hbind : s.bind x v = { s with globals := fun y => if y = x then some v else s.globals y } := by
    simp [State.bind, hframe]
  have hassign : σ.assign x.text w =
      { σ with globals := fun y => if y = x.text then w else σ.globals y } := by
    simp [Lua.State.assign, h.lookup_locals_eq_none hinside]
  rw [hbind, hassign]
  refine { h with print := ?_, globals := ?_, locals := ?_, function := ?_ }
  · simp only [x.text_ne_print.symm, if_false]
    exact h.print
  · intro y u hy hu
    by_cases hxy : y = x
    · subst hxy
      simp only [if_true, Option.some.injEq] at hu ⊢
      exact hu ▸ hsame
    · have htext : y.text ≠ x.text := fun heq => hxy (Name.text_injective heq)
      simp only [hxy, htext, if_false] at hu ⊢
      exact h.globals y u hy hu
  · intro y hy u hu
    have hxy : y ≠ x := fun heq => hinside (heq ▸ hy)
    simp only [State.current, hframe, hxy, if_false] at hu
    exact h.locals y hy u (by simpa [State.current, hframe] using hu)
  · intro params hparams
    exact absurd (hsite.symm.trans hparams) (by simp)

/-- Assigning the same value to a parameter. -/
lemma bind_param {x : Name} {v : Value} {params : List Name} (hsite : c.site.params? = some params)
    (hx : x ∈ params) (hsame : Same IsInt v w) :
    Related IsInt c (s.bind x v) (σ.assign x.text w) := by
  obtain ⟨⟨f, hf, hown⟩, hparams, hfixed⟩ := h.function params hsite
  have hname : x.text ∈ σ.locals.map Prod.fst := by
    rw [h.names]
    exact mem_map_of_mem (hparams x hx)
  have hbind : s.bind x v =
      { s with frame? := some { f with value := fun y => if y = x then some v else f.value y } } := by
    simp [State.bind, hf]
  have hassign : σ.assign x.text w = { σ with locals := Lua.setLocal x.text w σ.locals } := by
    simp [Lua.State.assign, isSome_lookup hname]
  rw [hbind, hassign]
  refine { h with names := ?_, locals := ?_, program := ?_, function := ?_ }
  · rw [map_fst_setLocal]
    exact h.names
  · intro y hy u hu
    by_cases hxy : y = x
    · subst hxy
      simp only [State.current, if_true, Option.some.injEq] at hu
      exact ⟨w, lookup_setLocal_self hname, hu ▸ hsame⟩
    · have htext : y.text ≠ x.text := fun heq => hxy (Name.text_injective heq)
      rw [lookup_setLocal_of_ne htext]
      refine h.locals y hy u ?_
      simpa [State.current, hf, hxy] using hu
  · intro hnone
    exact absurd (hnone.symm.trans hsite) (by simp)
  · intro params' hparams'
    obtain rfl := Option.some.inj (hsite.symm.trans hparams')
    exact ⟨⟨_, rfl, hown⟩, hparams, hfixed⟩

lemma bind {x : Name} {v : Value} (hx : c.site.Assigns x) (hsame : Same IsInt v w) :
    Related IsInt c (s.bind x v) (σ.assign x.text w) := by
  unfold Site.Assigns at hx
  cases hsite : c.site.params? with
  | none =>
    rw [hsite] at hx
    exact h.bind_global hsite hx hsame
  | some params =>
    rw [hsite] at hx
    exact h.bind_param hsite hx hsame

/-- Going into the body of a loop with the same integer. -/
lemma push {x : Name} {v : Value} (hx : x ∉ c.inside) (hown : x ∈ c.site.own) (hsame : Same IsInt v w) :
    Related IsInt (c.within x) (s.bind x v) (σ.push x.text w) := by
  have hne : ∀ y ∈ c.inside, y ≠ x ∧ y.text ≠ x.text := fun y hy =>
    ⟨fun heq => hx (heq ▸ hy), fun heq => hx (Name.text_injective heq ▸ hy)⟩
  refine ⟨?_, ?_, h.print, ?_, ?_, ?_, ?_, ?_, ?_⟩
  · rw [State.functions_bind]
    exact h.functions
  · rw [State.printed_bind]
    exact h.printed
  · intro y u hy hu
    refine h.globals y u hy ?_
    cases hsite : c.site.params? with
    | none =>
      obtain ⟨hframe, hloops⟩ := h.program hsite
      have hxy : y ≠ x := by
        rintro rfl
        exact hy (hloops ▸ hown)
      simpa [State.bind, hframe, hxy] using hu
    | some params =>
      obtain ⟨⟨f, hf, -⟩, -, -⟩ := h.function params hsite
      simpa [State.bind, hf] using hu
  · exact congrArg (x.text :: ·) h.names
  · intro y hy u hu
    rcases mem_cons.1 hy with rfl | hy
    · rw [State.current_bind_self, Option.some.injEq] at hu
      exact ⟨w, lookup_cons_self, hu ▸ hsame⟩
    · rw [State.current_bind_of_ne (hne y hy).1] at hu
      obtain ⟨w', hw', hsame'⟩ := h.locals y hy u hu
      exact ⟨w', (lookup_cons_of_ne (hne y hy).2).trans hw', hsame'⟩
  · intro y hy
    rcases mem_cons.1 hy with rfl | hy
    · exact hown
    · exact h.own y hy
  · intro hsite
    obtain ⟨hframe, hloops⟩ := h.program hsite
    exact ⟨by simp [State.bind, hframe], hloops⟩
  · intro params hsite
    obtain ⟨⟨f, hf, hfown⟩, hparams, hfixed⟩ := h.function params hsite
    refine ⟨⟨{ f with value := fun y => if y = x then some v else f.value y }, ?_, hfown⟩,
      fun y hy => mem_cons_of_mem x (hparams y hy), ?_⟩
    · simp [State.bind, hf]
    · simpa [State.bind, hf, Context.within] using hfixed

lemma define {g : Lua.Function} (hfg : SameFunction c.site.loops f g) :
    Related IsInt c (s.define f) (σ.define g) := by
  refine { h with functions := ?_, locals := ?_ }
  · exact rel_append h.functions (.cons hfg .nil)
  · exact h.locals

lemma params_subset : ∀ params, c.site.params? = some params → ∀ x ∈ params, x ∈ c.inside :=
  fun params hsite => (h.function params hsite).2.1

end Related

section

variable {IsInt : ν → Int → Prop} {c : Context} {s : State} {σ : Lua.State ν}

/-- Leaving the body of a loop. -/
lemma Related.pop {x : Name} (hx : x ∉ c.inside) (h : Related IsInt (c.within x) s σ)
    (hparams : ∀ params, c.site.params? = some params → ∀ y ∈ params, y ∈ c.inside) :
    Related IsInt c s σ.pop := by
  obtain ⟨p, l, hlocals, hp, hnames⟩ := map_eq_cons_iff.1 h.names
  refine { h with names := ?_, locals := ?_, own := ?_, function := ?_ }
  · rw [Lua.State.pop, hlocals]
    exact hnames
  · intro y hy v hv
    have hne : y.text ≠ x.text := fun heq => hx (Name.text_injective heq ▸ hy)
    obtain ⟨w, hw, hsame⟩ := h.locals y (mem_cons_of_mem x hy) v hv
    refine ⟨w, ?_, hsame⟩
    obtain ⟨z, u⟩ := p
    obtain rfl : z = x.text := hp
    rw [hlocals, lookup_cons_of_ne hne] at hw
    rwa [Lua.State.pop, hlocals]
  · exact fun y hy => h.own y (mem_cons_of_mem x hy)
  · intro params hsite
    obtain ⟨hframe, -, hfixed⟩ := h.function params hsite
    exact ⟨hframe, hparams params hsite, hfixed⟩

/-- The Lua arguments that arguments may be. The last one may be missing. -/
inductive SameAll (IsInt : ν → Int → Prop) : List Value → List (Chunk.Value ν) → Prop
  | nil : SameAll IsInt [] []
  | missing : SameAll IsInt [.none] []
  | cons {v : Value} {w : Chunk.Value ν} {vs : List Value} {ws : List (Chunk.Value ν)}
      (hv : Same IsInt v w) (hvs : SameAll IsInt vs ws) : SameAll IsInt (v :: vs) (w :: ws)

lemma map_fst_paramLocals (xs : List Text) (ws : List (Chunk.Value ν)) :
    (Lua.paramLocals xs ws).map Prod.fst = xs := by
  induction xs generalizing ws with
  | nil => rfl
  | cons x xs ih =>
    cases ws with
    | nil => simp [Lua.paramLocals, ih]
    | cons w ws => simp [Lua.paramLocals, ih]

/-- Parameters have the values of the arguments. -/
lemma lookup_paramLocals {params : List Name} {vs : List Value} {ws : List (Chunk.Value ν)}
    (hsame : SameAll IsInt vs ws) {x : Name} {v : Value} (hx : (params.zip vs).lookup x = some v) :
    ∃ w, (Lua.paramLocals (params.map Name.text) ws).lookup x.text = some w ∧ Same IsInt v w := by
  induction params generalizing vs ws with
  | nil => simp at hx
  | cons y params ih =>
    by_cases hxy : x = y
    · subst hxy
      cases hsame with
      | nil => simp at hx
      | missing =>
        obtain rfl : Value.none = v := by simpa using hx
        exact ⟨.nil, lookup_cons_self, .none⟩
      | @cons u w vs ws hu hvs =>
        obtain rfl : u = v := by simpa using hx
        exact ⟨w, lookup_cons_self, hu⟩
    · have htext : x.text ≠ y.text := fun heq => hxy (Name.text_injective heq)
      have hbeq : (x == y) = false := beq_false_of_ne hxy
      cases hsame with
      | nil => simp at hx
      | missing =>
        simp [lookup_cons, hbeq] at hx
      | @cons u w vs ws hu hvs =>
        have hlater : (params.zip vs).lookup x = some v := by
          simpa [lookup_cons, hbeq] using hx
        obtain ⟨w', hw', hsame⟩ := ih hvs hlater
        exact ⟨w', (lookup_cons_of_ne htext).trans hw', hsame⟩

/-- The context of a call. -/
def Context.call (c : Context) (s : State) (f : Function) : Context :=
  ⟨.function c.site.loops f.params f.body, f.params, s.globals⟩

/-- Going into a call with the same arguments. -/
lemma Related.enter (h : Related IsInt c s σ) {g : Lua.Function} {vs : List Value} {ws : List (Chunk.Value ν)}
    (hfg : SameFunction c.site.loops f g) (hsame : SameAll IsInt vs ws) :
    Related IsInt (c.call s f) { s with frame? := some (f.frame vs) }
      (σ.withLocals (Lua.paramLocals g.params ws)) := by
  refine ⟨h.functions, h.printed, h.print, h.globals, ?_, ?_, ?_, ?_, ?_⟩
  · rw [Lua.State.withLocals, map_fst_paramLocals, hfg.params]
    rfl
  · intro x _ v hv
    rw [Lua.State.withLocals, hfg.params]
    exact lookup_paramLocals hsame hv
  · exact fun x hx => mem_append_left _ hx
  · intro hsite
    exact absurd hsite (by simp [Context.call, Site.function])
  · intro params hsite
    obtain rfl : f.params = params := Option.some.inj hsite
    exact ⟨⟨_, rfl, rfl⟩, fun x hx => hx, rfl⟩

/-- Coming back from a call. -/
lemma Related.leave (h : Related IsInt c s σ) {s' : State} {σ' : Lua.State ν}
    (h' : Related IsInt (c.call s f) s' σ') :
    Related IsInt c { s' with frame? := s.frame? } (σ'.withLocals σ.locals) := by
  have hglobals : s'.globals = s.globals := (h'.function f.params rfl).2.2
  refine ⟨h'.functions, h'.printed, h'.print, h'.globals, h.names, ?_, h.own, h.program, ?_⟩
  · intro x hx v hv
    refine h.locals x hx v ?_
    rw [← hv, State.current, State.current, hglobals]
  · intro params hsite
    obtain ⟨hframe, hparams, hfixed⟩ := h.function params hsite
    exact ⟨hframe, hparams, hglobals.trans hfixed⟩

end

end Core

end Lunify
