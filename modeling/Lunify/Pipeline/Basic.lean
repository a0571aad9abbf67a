import Lunify.Files.Basic
import Lunify.Grammar.Builtin
import Lunify.Pipeline.Failure
import Lunify.Rendering.Plan
import Lunify.Scope.Trace

namespace Lunify

/-! ### From source to Lua

A pipeline holds a grammar and two switches. It takes a source through the stages one after the
other and keeps what the stages up to a failure gave. -/

/-- A way from sources to Lua texts. -/
structure Pipeline where
  grammar : Grammar
  /-- Whether the scope rules are left unchecked. -/
  skipCheck : Bool
  /-- Whether the Lua text is read back. -/
  verify : Bool

/-- What the stages give: the tokens and the tree as far as they were reached, and the Lua text or
the failure. -/
structure Stages where
  tokens : List Token
  tree? : Option Tree
  result : Except Failure Text

def readBack (lua : Text) : Except Chunk.SyntaxError Unit :=
  (Chunk.read lua).map fun _ => ()

namespace Pipeline

def standard : Pipeline :=
  ⟨.builtin, false, false⟩

/-- The Lua text of a tree. -/
def ofTree (p : Pipeline) (t : Tree) : Except Failure Text := do
  if !p.skipCheck then
    (check t).mapError .ofScope
  let lua ← (generate t).mapError .ofRender
  if p.verify then
    (readBack lua).mapError .chunk
  return lua

/-- Takes a source through the stages. -/
def stages (p : Pipeline) (source : Text) : Stages :=
  match lex source with
  | .error e => ⟨[], none, .error (.lex e)⟩
  | .ok tokens =>
    match parse p.grammar tokens with
    | .error e => ⟨tokens, none, .error (.parse e)⟩
    | .ok tree => ⟨tokens, some tree, p.ofTree tree⟩

def lua (p : Pipeline) (source : Text) : Except Failure Text :=
  (p.stages source).result

def mode (p : Pipeline) : UInt8 :=
  (if p.skipCheck then 1 else 0) + (if p.verify then 2 else 0)

def key (p : Pipeline) (source : Text) : Text :=
  Keccak.hash (p.grammar.digest ++ p.mode :: source)

end Pipeline

/-- Why a pipeline cannot be set up. -/
inductive SetupError where
  | unreadable (e : FileError)
  | badGrammar (path : Text) (e : LoadError)
deriving Repr

def SetupError.message : SetupError → Text
  | .unreadable e => utf8 "reading grammar: " ++ e.message
  | .badGrammar path e => utf8 "loading grammar " ++ path ++ utf8 ": " ++ e.message

def Grammar.inFile (files : Files) (path : Text) : Except SetupError Grammar := do
  let text ← (files.read path).mapError .unreadable
  (Grammar.load text).mapError (.badGrammar path)

/-- The grammar in a file, or the built-in one when the path is empty. -/
def Grammar.chosen (files : Files) (path : Text) : Except SetupError Grammar :=
  if path.isEmpty then .ok .builtin else Grammar.inFile files path

end Lunify
