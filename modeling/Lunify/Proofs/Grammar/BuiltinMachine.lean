import Lunify.Proofs.Grammar.Builtin
import Lunify.Proofs.Grammar.Machine

/-!
# A machine for the built-in grammar

The tables of a machine that reads the built-in grammar with one token of look-ahead. Symbols are
numbers here, their places in `symbolNames`, and a set of symbols is a number with a bit for each;
one bit more stands for the end of the input.

That the tables fit together is a computation, `BuiltinMachine.valid`, which `valid_builtinMachine`
carries over to the symbols of the grammar.
-/

namespace Lunify

namespace Grammar

/-- The symbols of the built-in grammar, those with rules first. -/
def symbolNames : List String :=
  builtinTable.map Prod.fst ++ (builtinWords ++ builtinCategories)

namespace BuiltinMachine

/-- How many symbols have rules. -/
def heads : Nat := 43

/-- The bit of the end of the input. -/
def inputEnd : Nat := 91

/-! ### Tables -/

/-- The rules, each with the number of its left-hand side. -/
def rules : List (Nat × List Nat) :=
  [
    (0, [1]), (1, [2]), (1, [1, 2]), (2, [3, 43]), (2, [4]), (2, [43]), (3, [7]), (3, [12]),
    (3, [11]), (3, [10]), (3, [44]), (3, [45]), (3, [46]), (4, [8]), (4, [14]), (4, [16]),
    (4, [17]), (5, [3, 43]), (5, [6, 47, 1, 48]), (6, [43]), (6, [6, 43]), (7, [88, 49, 19]),
    (7, [32, 49, 19]), (8, [50, 88, 51, 52, 53, 5]), (8, [50, 88, 51, 9, 52, 53, 5]), (9, [88]),
    (9, [9, 54, 88]), (10, [55]), (10, [55, 19]), (11, [56, 51, 52]), (11, [56, 51, 13, 52]),
    (12, [88, 51, 52]), (12, [88, 51, 13, 52]), (13, [19]), (13, [13, 54, 19]),
    (14, [57, 19, 53, 5]), (14, [57, 19, 53, 5, 15]), (15, [58, 19, 53, 5]),
    (15, [58, 19, 53, 5, 15]), (15, [59, 53, 5]), (16, [60, 19, 53, 5]),
    (17, [61, 88, 62, 18, 53, 5]), (17, [61, 88, 62, 19, 53, 5]), (18, [63, 51, 19, 52]),
    (18, [63, 51, 19, 54, 19, 52]), (18, [63, 51, 19, 54, 19, 54, 19, 52]), (19, [20]),
    (20, [20, 64, 21]), (20, [21]), (21, [21, 65, 22]), (21, [22]), (22, [66, 22]), (22, [23]),
    (23, [25, 24, 25]), (23, [25]), (24, [67]), (24, [68]), (24, [69]), (24, [70]), (24, [71]),
    (24, [72]), (25, [25, 26, 27]), (25, [27]), (26, [73]), (26, [74]), (27, [27, 28, 29]),
    (27, [29]), (28, [75]), (28, [76]), (28, [77]), (29, [74, 29]), (29, [73, 29]), (29, [30]),
    (30, [31, 78, 29]), (30, [31]), (31, [34]), (31, [12]), (31, [32]), (31, [33]),
    (31, [51, 19, 52]), (32, [31, 79, 19, 80]), (33, [81, 51, 19, 52]), (34, [88]), (34, [89]),
    (34, [90]), (34, [82]), (34, [83]), (34, [84]), (34, [35]), (34, [37]), (34, [42]),
    (35, [79, 80]), (35, [79, 36, 80]), (35, [79, 36, 54, 80]), (36, [19]), (36, [36, 54, 19]),
    (37, [85, 86]), (37, [85, 38, 86]), (37, [85, 38, 54, 86]), (37, [87, 51, 52]),
    (37, [87, 51, 40, 52]), (38, [39]), (38, [38, 54, 39]), (39, [19, 53, 19]), (40, [41]),
    (40, [40, 54, 41]), (41, [88, 49, 19]), (42, [85, 36, 86]), (42, [85, 36, 54, 86])
  ]

/-- The states that the symbols lead to from some states. Where the table has no entry, symbol `s`
leads to state `s + 1`. -/
def gotos : List (Nat × List (Nat × Nat)) :=
  [
    (1, [(48, 178)]), (2, [(2, 109), (178, 109)]), (3, [(0, 93), (2, 93), (48, 93), (178, 93)]),
    (5, [(131, 157), (160, 170), (162, 172), (165, 175), (173, 181), (177, 183), (182, 185)]),
    (12, [(0, 92), (2, 92), (48, 92), (129, 92), (131, 92), (160, 92), (162, 92), (165, 92),
      (173, 92), (177, 92), (178, 92), (182, 92)]), (13, [(101, 123)]), (15, [(185, 188)]),
    (19, [(50, 125), (52, 110), (54, 145), (55, 159), (56, 96), (58, 105), (59, 176), (61, 107),
      (63, 144), (80, 95), (86, 99), (106, 130), (108, 132), (111, 134), (113, 136), (119, 148),
      (121, 136), (155, 167), (161, 171), (180, 184), (186, 189)]), (21, [(65, 141)]),
    (22, [(66, 142), (67, 117)]), (25, [(25, 138)]), (27, [(27, 137)]), (29, [(29, 140),
      (74, 118), (75, 112), (79, 139)]), (36, [(86, 100)]), (39, [(119, 147)]),
    (41, [(154, 166)]), (43, [(0, 94), (2, 94), (4, 168), (7, 169), (48, 94), (93, 104),
      (178, 94)]), (49, [(33, 108), (128, 155)]), (51, [(57, 97), (64, 161), (82, 111), (88, 103),
      (89, 101), (102, 126)]), (52, [(10, 163), (14, 143), (41, 153), (101, 124), (103, 127),
      (110, 133), (123, 150), (126, 152), (134, 158), (171, 179), (184, 187), (189, 190)]),
    (53, [(19, 160), (60, 177), (105, 129), (107, 131), (144, 162), (152, 165), (163, 173),
      (176, 182)]), (54, [(10, 164), (37, 113), (39, 119), (41, 154), (100, 121), (171, 180),
      (184, 186)]), (73, [(26, 115), (138, 115)]), (74, [(26, 116), (138, 116)]),
    (79, [(32, 106)]), (80, [(37, 114), (113, 135), (130, 156)]), (86, [(39, 120), (100, 122),
      (119, 146), (121, 149)]), (88, [(51, 102), (62, 98), (103, 128), (126, 151), (154, 128),
      (164, 174)])
  ]

/-- The rules that a state applies, each with the symbols that keep it from doing so: the rule is not
applied before a token with which one of them begins. -/
def reductions : List (Nat × List (Nat × List Nat)) :=
  [
    (2, [(0, [2])]), (3, [(1, [])]), (5, [(4, [])]), (6, [(35, [15])]), (8, [(6, [])]),
    (9, [(13, [])]), (11, [(9, [])]), (12, [(8, [])]), (13, [(76, [])]), (15, [(14, [])]),
    (16, [(36, [])]), (17, [(15, [])]), (18, [(16, [])]), (20, [(33, [])]), (21, [(46, [64])]),
    (22, [(48, [65])]), (23, [(50, [])]), (24, [(52, [])]), (26, [(54, [24, 26])]),
    (28, [(62, [28])]), (30, [(66, [])]), (31, [(72, [])]), (32, [(74, [78, 79])]),
    (33, [(77, [49])]), (34, [(78, [])]), (35, [(75, [])]), (36, [(88, [])]), (38, [(89, [])]),
    (40, [(101, [])]), (42, [(104, [])]), (43, [(90, [])]), (44, [(19, [])]), (45, [(10, [])]),
    (46, [(11, [])]), (47, [(12, [])]), (49, [(18, [])]), (53, [(29, [])]), (56, [(27, [19])]),
    (68, [(55, [])]), (69, [(56, [])]), (70, [(57, [])]), (71, [(58, [])]), (72, [(59, [])]),
    (73, [(60, [])]), (76, [(67, [])]), (77, [(68, [])]), (78, [(69, [])]), (81, [(91, [])]),
    (83, [(85, [])]), (84, [(86, [])]), (85, [(87, [])]), (87, [(96, [])]),
    (89, [(82, [49, 51])]), (90, [(83, [])]), (91, [(84, [])]), (92, [(7, [79]), (76, [])]),
    (94, [(5, [])]), (95, [(94, [])]), (96, [(28, [])]), (99, [(94, [53])]), (104, [(3, [])]),
    (109, [(2, [])]), (112, [(70, [])]), (114, [(92, [])]), (115, [(63, [])]), (116, [(64, [])]),
    (117, [(51, [])]), (118, [(71, [])]), (120, [(97, [])]), (122, [(107, [])]),
    (124, [(31, [])]), (125, [(21, [])]), (127, [(99, [])]), (132, [(22, [])]), (133, [(79, [])]),
    (135, [(93, [])]), (136, [(95, [])]), (137, [(61, [28])]), (138, [(53, [26])]),
    (139, [(73, [])]), (140, [(65, [])]), (141, [(47, [65])]), (142, [(49, [])]),
    (143, [(30, [])]), (145, [(103, [])]), (146, [(98, [])]), (147, [(102, [])]),
    (149, [(108, [])]), (150, [(32, [])]), (151, [(25, [])]), (153, [(100, [])]),
    (156, [(80, [])]), (157, [(40, [])]), (158, [(81, [])]), (159, [(34, [])]),
    (166, [(105, [])]), (167, [(106, [])]), (168, [(17, [])]), (169, [(20, [])]),
    (170, [(41, [])]), (172, [(42, [])]), (174, [(26, [])]), (175, [(23, [])]), (179, [(43, [])]),
    (181, [(24, [])]), (183, [(39, [])]), (185, [(37, [15])]), (187, [(44, [])]),
    (188, [(38, [])]), (190, [(45, [])])
  ]

/-- The symbols with rules that come next inside the rules that are read in a state. -/
def opens : List (Nat × List Nat) :=
  [
    (0, [0]), (2, [2]), (6, [15]), (25, [25]), (26, [26, 24]), (27, [27]), (28, [28]), (29, [29]),
    (48, [1]), (50, [19]), (52, [19]), (54, [19]), (55, [19]), (56, [19]), (58, [19]), (59, [19]),
    (61, [19]), (63, [18, 19]), (65, [21]), (66, [22]), (67, [22]), (74, [29]), (75, [29]),
    (79, [29]), (80, [36]), (86, [38, 36]), (97, [13]), (101, [13]), (103, [40]), (106, [19]),
    (108, [19]), (111, [19]), (113, [19]), (119, [39]), (121, [19]), (126, [9]), (129, [5]),
    (131, [5]), (137, [28]), (138, [26]), (154, [41]), (155, [19]), (160, [5]), (161, [19]),
    (162, [5]), (165, [5]), (173, [5]), (177, [5]), (178, [2]), (180, [19]), (182, [5]),
    (185, [15]), (186, [19])
  ]

/-- For each symbol with rules, those with which its texts can begin. -/
def corners : List Nat :=
  [
    0x42f80035d9f, 0x42f80035d9e, 0x42f80035d9c, 0x42f80001c88, 0x34110, 0x42f80001ce8, 0x40,
    0x42f80001080, 0x100, 0x200, 0x400, 0x800, 0x1000, 0x42feaf83000, 0x4000, 0x8000, 0x10000,
    0x20000, 0x40000, 0x42feaf81000, 0x42feaf01000, 0x42feae01000, 0x42feac01000, 0x42fea801000,
    0x1000000, 0x42fea001000, 0x4000000, 0x42fe8001000, 0x10000000, 0x42fe0001000, 0x42fc0001000,
    0x42f80001000, 0x42f80001000, 0x200000000, 0x42c00000000, 0x800000000, 0x43feaf81000,
    0x2000000000, 0x4efeaf81000, 0x4afeaf81000, 0x30000000000, 0x20000000000, 0x40000000000
  ]

/-- For each symbol with rules, the terminals with which its texts can begin. -/
def firsts : List Nat :=
  [
    0x7be8000338c780000000000, 0x7be8000338c780000000000, 0x7be8000338c780000000000,
    0x7be80000188700000000000, 0x3204000000000000, 0x7be80000188780000000000, 0x80000000000,
    0x7be80000008000000000000, 0x4000000000000, 0x10000000000000000000000, 0x80000000000000,
    0x100000000000000, 0x10000000000000000000000, 0x7be86040008000000000000, 0x200000000000000,
    0xc00000000000000, 0x1000000000000000, 0x2000000000000000, 0x8000000000000000,
    0x7be86040008000000000000, 0x7be86040008000000000000, 0x7be86040008000000000000,
    0x7be86040008000000000000, 0x7be86000008000000000000, 0x1f80000000000000000,
    0x7be86000008000000000000, 0x6000000000000000000, 0x7be86000008000000000000,
    0x38000000000000000000, 0x7be86000008000000000000, 0x7be80000008000000000000,
    0x7be80000008000000000000, 0x7be80000008000000000000, 0x200000000000000000000,
    0x7bc80000000000000000000, 0x80000000000000000000, 0x7be86040008000000000000,
    0xa000000000000000000000, 0x7be86040008000000000000, 0x7be86040008000000000000,
    0x10000000000000000000000, 0x10000000000000000000000, 0x2000000000000000000000
  ]

/-- For each symbol with rules, the terminals that may come after it. -/
def follows : List Nat :=
  [
    0x80000000000000000000000, 0xfbe8000338d780000000000, 0xfbe8000338d780000000000,
    0x80000000000, 0xfbe8000338d780000000000, 0xfbe80003f8d780000000000, 0x880000000000,
    0x80000000000, 0xfbe8000338d780000000000, 0x50000000000000, 0x80000000000, 0x80000000000,
    0x41fffb0070080000000000, 0x50000000000000, 0xfbe8000338d780000000000,
    0xfbe8000338d780000000000, 0xfbe8000338d780000000000, 0xfbe8000338d780000000000,
    0x20000000000000, 0x4100000070080000000000, 0x4100010070080000000000,
    0x4100030070080000000000, 0x4100030070080000000000, 0x4100030070080000000000,
    0x7be86000008000000000000, 0x4107fb0070080000000000, 0x7be86000008000000000000,
    0x413ffb0070080000000000, 0x7be86000008000000000000, 0x413ffb0070080000000000,
    0x413ffb0070080000000000, 0x41fffb0070080000000000, 0x41fffb0070080000000000,
    0x41fffb0070080000000000, 0x41fffb0070080000000000, 0x41fffb0070080000000000,
    0x4100000040000000000000, 0x41fffb0070080000000000, 0x4000000040000000000000,
    0x4000000040000000000000, 0x50000000000000, 0x50000000000000, 0x41fffb0070080000000000
  ]

/-- The states in which a statement begins. -/
def statementStates : List Nat :=
  [0, 2, 48, 129, 131, 160, 162, 165, 173, 177, 178, 182]

/-- What may come after the symbols with which a statement can begin, where it does so. A call there
is a statement if the line ends after it. -/
def statementFollows : List (Nat × Nat) :=
  [
    (12, 0x80000000080000000000), (31, 0x80000000000000000000), (32, 0x80000002000000000000),
    (33, 0x80000000000000000000), (34, 0x80000000000000000000), (35, 0x80000000000000000000),
    (37, 0x80000000000000000000), (42, 0x80000000000000000000)
  ]

/-! ### Reading the tables -/

/-- The entry of a number in a table. -/
def find {α : Type} (n : Nat) : List (Nat × α) → Option α
  | [] => none
  | (m, x) :: rows => bif Nat.beq m n then some x else find n rows

/-- The state that a symbol leads to. -/
def goto (q s : Nat) : Nat :=
  match find s gotos with
  | none => s + 1
  | some row => (find q row).getD (s + 1)

/-- The terminals with which the texts of a symbol can begin. -/
def firstOf (s : Nat) : Nat :=
  bif Nat.blt s heads then firsts.getD s 0 else 1 <<< s

/-- The terminals with which the texts of some symbols can begin. -/
def firstOfAny (ss : List Nat) : Nat :=
  ss.foldr (fun s set => firstOf s ||| set) 0

/-- The first of some rules to apply before a terminal. -/
def ruleBefore (a : Nat) : List (Nat × List Nat) → Option Nat
  | [] => none
  | (i, barred) :: entries =>
    bif (firstOfAny barred).testBit a then ruleBefore a entries else some i

/-- The rules that a state applies. -/
def rulesAt (q : Nat) : List (Nat × List Nat) :=
  (find q reductions).getD []

/-- What may come after a symbol that begins in a state. -/
def ahead (q s : Nat) : Nat :=
  bif (((find q opens).getD []).foldr (fun o set => corners.getD o 0 ||| set) 0).testBit s then
    let usual := follows.getD s 0
    bif statementStates.any (Nat.beq q) then (find s statementFollows).getD usual else usual
  else 0

/-- What may come before some symbols, if `follow` may come after them. -/
def aheadOf (follow : Nat) : List Nat → Nat
  | [] => follow
  | s :: _ => firstOf s

/-- Whether one set of symbols is part of another. -/
def subset (a b : Nat) : Bool :=
  Nat.beq (a &&& b) a

/-- Whether rule `i` is the first of some rules to apply before all terminals of a set. -/
def applies (i : Nat) : Nat → List (Nat × List Nat) → Bool
  | set, [] => Nat.beq set 0
  | set, (j, barred) :: entries =>
    (Nat.beq j i || subset set (firstOfAny barred)) &&
      applies i (set &&& firstOfAny barred) entries

/-- The value of a function, computed after its argument. -/
def force (n : Nat) (f : Nat → Bool) : Bool :=
  match n with
  | 0 => f 0
  | k + 1 => f (k + 1)

/-- Whether the tables lead along the rest of rule `i` and then apply it. -/
def walks (i follow : Nat) : List Nat → Nat → Bool
  | [], q => applies i follow (rulesAt q)
  | s :: β, q =>
    (bif Nat.blt s heads then subset (aheadOf follow β) (ahead q s)
      else (ruleBefore s (rulesAt q)).isNone) && force (goto q s) (walks i follow β)

/-- Whether the tables lead along all rules wherever they begin. -/
def valid : Bool :=
  opens.all fun row => rules.zipIdx.all fun rule =>
    force (ahead row.1 rule.1.1) fun follow =>
      Nat.beq follow 0 || walks rule.2 follow rule.1.2 row.1

lemma valid_eq_true : valid = true := by
  decide +kernel

/-! ### The tables and the grammar -/

/-- The number of a symbol. -/
def code (s : Symbol) : Nat :=
  (symbolNames.map utf8).idxOf s

/-- The bit of what comes next in the input. -/
def codeNext : Option Symbol → Nat
  | none => inputEnd
  | some s => code s

lemma length_heads : (builtinTable.map Prod.fst).length = heads := by
  decide

lemma code_start : code builtin.start = 0 := by
  rw [start_builtin]
  decide +kernel

/-- The rules of the grammar have the numbers of the tables. -/
lemma rules_code : builtin.rules.map (fun r => (code r.lhs, r.rhs.map code)) = rules := by
  have hcodes : (builtin.rules.map fun r => (r.lhs, r.rhs)).map
      (fun p => (code p.1, p.2.map code)) = rules := by
    rw [builtin_rules]
    decide +kernel
  rwa [List.map_map] at hcodes

/-- A symbol has rules exactly when its number is one of the first. -/
lemma isTerminal_iff (s : Symbol) : builtin.isTerminal s = false ↔ code s < heads := by
  have happend : symbolNames.map utf8 =
      (builtinTable.map Prod.fst).map utf8 ++ (builtinWords ++ builtinCategories).map utf8 :=
    List.map_append
  have hlength : ((builtinTable.map Prod.fst).map utf8).length = heads := by
    rw [List.length_map, length_heads]
  unfold code
  rw [happend]
  constructor
  · intro hs
    obtain ⟨r, hr, rfl⟩ := (isTerminal_eq_false_iff _ _).1 hs
    obtain ⟨p, hp, -, -, hlhs, -⟩ := exists_of_mem_builtin hr
    have hmem : r.lhs ∈ (builtinTable.map Prod.fst).map utf8 :=
      hlhs ▸ List.mem_map_of_mem (List.mem_map_of_mem hp)
    rw [List.idxOf_append_of_mem hmem, ← hlength]
    exact List.idxOf_lt_length_of_mem hmem
  · intro hs
    by_contra hterminal
    have hnot : s ∉ (builtinTable.map Prod.fst).map utf8 := by
      intro hmem
      obtain ⟨l, hl, rfl⟩ := List.mem_map.1 hmem
      exact hterminal ((isTerminal_builtin_eq_false_iff l).2 hl)
    rw [List.idxOf_append_of_notMem hnot, hlength] at hs
    omega

lemma blt_heads (s : Symbol) : Nat.blt (code s) heads = !builtin.isTerminal s := by
  have hiff : Nat.blt (code s) heads = true ↔ code s < heads := Nat.blt_eq.to_iff
  rw [Bool.eq_iff_iff, hiff, ← isTerminal_iff, Bool.not_eq_true']

/-- The tables as a machine that reads the symbols of the grammar. -/
def builtinMachine : Machine where
  goto q s := goto q (code s)
  reduces q a := (ruleBefore (codeNext a) (rulesAt q)).bind (builtin.rules[·]?)
  ahead q s a := (ahead q (code s)).testBit (codeNext a) = true

lemma testBit_of_subset {a b i : Nat} (h : subset a b = true) (hi : a.testBit i = true) :
    b.testBit i = true := by
  have hand : a &&& b = a := Nat.eq_of_beq_eq_true h
  rw [← hand, Nat.testBit_and, Bool.and_eq_true] at hi
  exact hi.2

/-- The terminals with which the texts of a symbol begin have their bits. -/
lemma testBit_firstOf {s a : Symbol} (h : builtin.First s a) :
    (firstOf (code s)).testBit (code a) = true := by
  induction h with
  | @terminal a ha =>
    rw [firstOf, blt_heads, ha, Bool.not_true, cond_false]
    simp
  | @rule r a hr hfirst ih =>
    have hfirsts : ∀ rule ∈ rules, rule.2.head?.all fun s =>
        subset (firstOf s) (firstOf rule.1) := by decide
    have hmem : (code r.lhs, r.rhs.map code) ∈ rules := by
      rw [← rules_code]
      exact List.mem_map_of_mem hr
    have hsubset := hfirsts _ hmem
    rw [List.head?_map, List.head?_eq_some_head r.rhs_ne_nil] at hsubset
    exact testBit_of_subset hsubset ih

lemma force_eq (n : Nat) (f : Nat → Bool) : force n f = f n := by
  cases n <;> rfl

/-- A rule that applies before a set is the one to apply before each of its members. -/
lemma ruleBefore_eq {i a set : Nat} {entries : List (Nat × List Nat)}
    (h : applies i set entries = true) (ha : set.testBit a = true) :
    ruleBefore a entries = some i := by
  induction entries generalizing set with
  | nil =>
    have hset : set = 0 := Nat.eq_of_beq_eq_true h
    rw [hset, Nat.zero_testBit] at ha
    exact absurd ha Bool.false_ne_true
  | cons entry entries ih =>
    obtain ⟨j, barred⟩ := entry
    rw [applies, Bool.and_eq_true, Bool.or_eq_true] at h
    rw [ruleBefore]
    cases hbarred : (firstOfAny barred).testBit a with
    | true =>
      have hboth : (set &&& firstOfAny barred).testBit a = true := by
        rw [Nat.testBit_and, ha, hbarred, Bool.and_self]
      exact ih h.2 hboth
    | false =>
      rcases h.1 with hj | hsubset
      · rw [cond_false, Nat.eq_of_beq_eq_true hj]
      · have hbit := testBit_of_subset hsubset ha
        rw [hbarred] at hbit
        exact absurd hbit Bool.false_ne_true

/-- Walking along the numbers of a rule is walking along the rule. -/
lemma walks_of_walks {i p : Nat} {s : Symbol} {r : Rule} (hr : builtin.rules[i]? = some r)
    {β : List Symbol} {q : Nat} (h : walks i (ahead p (code s)) (β.map code) q = true) :
    builtinMachine.Walks builtin r (builtinMachine.ahead p s) q β := by
  induction β generalizing q with
  | nil =>
    intro a ha
    have hrule : ruleBefore (codeNext a) (rulesAt q) = some i := ruleBefore_eq h ha
    show (ruleBefore (codeNext a) (rulesAt q)).bind (builtin.rules[·]?) = some r
    rw [hrule, Option.bind_some, hr]
  | cons t β ih =>
    rw [List.map_cons, walks, force_eq, Bool.and_eq_true] at h
    refine ⟨?_, ih h.2⟩
    have hnext := h.1
    split
    · rename_i hterminal
      rw [blt_heads, hterminal, Bool.not_true, cond_false, Option.isNone_iff_eq_none] at hnext
      show (ruleBefore (code t) (rulesAt q)).bind (builtin.rules[·]?) = none
      rw [hnext, Option.bind_none]
    · rename_i hrules
      rw [blt_heads, Bool.eq_false_of_not_eq_true hrules, Bool.not_false, cond_true] at hnext
      intro a ha
      refine testBit_of_subset hnext ?_
      cases β with
      | nil => exact ha
      | cons u β =>
        obtain ⟨b, rfl, hfirst⟩ := ha
        exact testBit_firstOf hfirst

/-- A state in which something may begin is listed. -/
lemma exists_row {q s a : Nat} (h : (ahead q s).testBit a = true) : ∃ row ∈ opens, row.1 = q := by
  have hfind : ∀ {rows : List (Nat × List Nat)} {x : List Nat}, find q rows = some x →
      ∃ row ∈ rows, row.1 = q := by
    intro rows x hx
    induction rows with
    | nil => exact absurd hx (by simp [find])
    | cons row rows ih =>
      obtain ⟨m, y⟩ := row
      rw [find] at hx
      cases hm : Nat.beq m q with
      | true => exact ⟨(m, y), List.mem_cons_self, Nat.eq_of_beq_eq_true hm⟩
      | false =>
        rw [hm] at hx
        obtain ⟨row, hrow, heq⟩ := ih hx
        exact ⟨row, List.mem_cons_of_mem _ hrow, heq⟩
  cases hrow : find q opens with
  | some x => exact hfind hrow
  | none =>
    rw [ahead, hrow] at h
    simp at h

/-- The machine of the tables is valid for the built-in grammar. -/
theorem valid_builtinMachine : builtinMachine.Valid builtin where
  walks {q s a} h {r} hr hs := by
    subst hs
    obtain ⟨i, hi⟩ := List.mem_iff_getElem?.1 hr
    have hrule : rules[i]? = some (code r.lhs, r.rhs.map code) := by
      rw [← rules_code, List.getElem?_map, hi, Option.map_some]
    have hmem : ((code r.lhs, r.rhs.map code), i) ∈ rules.zipIdx :=
      List.mem_zipIdx_iff_getElem?.2 hrule
    obtain ⟨row, hrow, rfl⟩ := exists_row h
    have hvalid := valid_eq_true
    unfold valid at hvalid
    rw [List.all_eq_true] at hvalid
    have hwalks := List.all_eq_true.1 (hvalid row hrow) _ hmem
    rw [force_eq, Bool.or_eq_true] at hwalks
    rcases hwalks with hzero | hwalks
    · have hahead : (ahead row.1 (code r.lhs)).testBit (codeNext a) = true := h
      rw [Nat.eq_of_beq_eq_true hzero, Nat.zero_testBit] at hahead
      exact absurd hahead Bool.false_ne_true
    · exact walks_of_walks hi hwalks
  start := by
    show (ahead 0 (code builtin.start)).testBit inputEnd = true
    rw [code_start]
    decide
  stop := by
    show (ruleBefore inputEnd (rulesAt (goto 0 (code builtin.start)))).bind _ = none
    rw [code_start]
    have hrule : ruleBefore inputEnd (rulesAt (goto 0 0)) = none := by decide
    rw [hrule, Option.bind_none]

/-- The tree that the tables build from tokens with a number of steps. -/
def build : Nat → List (Nat × Tree) → List Token → Tree
  | 0, _, _ => .node [] []
  | fuel + 1, stack, input =>
    match ruleBefore (codeNext (input.head?.map Token.symbol)) (rulesAt (Machine.top stack)), input with
    | some i, _ =>
      let (lhs, rhs) := rules.getD i (0, [])
      let rest := stack.drop rhs.length
      let node := .node (utf8 (symbolNames.getD lhs "")) ((stack.take rhs.length).reverse.map Prod.snd)
      build fuel ((goto (Machine.top rest) lhs, node) :: rest) input
    | none, tok :: rest =>
      build fuel ((goto (Machine.top stack) (code tok.symbol), .ofTerminal tok.symbol tok) :: stack) rest
    | none, [] => (stack.head?.map Prod.snd).getD (.node [] [])

end BuiltinMachine

end Grammar

end Lunify
