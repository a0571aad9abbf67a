import Lunify.Cache.Adaptive
import Lunify.Grammar.Text

namespace Lunify

/-! ### Shared grammars

Grammars that were loaded from the same text are one and the same. Each load has a number, which
tells a grammar that is shared from one that was loaded anew. -/

/-- A grammar with the number of its load. -/
structure LoadedGrammar where
  number : Nat
  grammar : Grammar

/-- The grammars that are kept, by the hash of their text, and the number of the next load. -/
structure GrammarCache where
  entries : Adaptive Text LoadedGrammar
  next : Nat

namespace GrammarCache

def ofSize (size : Int) : GrammarCache :=
  ⟨.empty (max size 1).toNat, 0⟩

def length (c : GrammarCache) : Nat :=
  c.entries.length

/-- The grammar of a text, which is loaded unless it is kept. A text that cannot be loaded changes
nothing. -/
def load (c : GrammarCache) (text : Text) : Except LoadError LoadedGrammar × GrammarCache :=
  let key := Keccak.hash text
  match c.entries.get key with
  | (some g, entries) => (.ok g, { c with entries })
  | (none, _) =>
    match Grammar.load text with
    | .error e => (.error e, c)
    | .ok grammar =>
      let g := ⟨c.next, grammar⟩
      (.ok g, ⟨c.entries.add key g, c.next + 1⟩)

end GrammarCache

end Lunify
