import Lunify.Rendering.Cursor

namespace Lunify

/-! ### Rendering steps

Rendering a tree is a list of steps, each of which writes one piece of Lua text or moves the
cursor. -/

/-- What is wrong with the shape of a node. -/
inductive ShapeFault where
  | noBody
  | childCount (n : Nat)
  | argumentCount (n : Nat)
deriving DecidableEq, Repr

/-- Why a tree cannot be rendered: a node has the wrong shape, or lacks a part that its label
promises. -/
inductive RenderError where
  | shape (label : Text) (fault : ShapeFault)
  | malformed
deriving DecidableEq, Repr

/-- The fault in words. -/
def ShapeFault.message : ShapeFault → Text
  | .noBody => utf8 "no body"
  | .childCount n => utf8 "have " ++ Text.ofNat n ++ utf8 " children"
  | .argumentCount n => utf8 "have " ++ Text.ofNat n ++ utf8 " arguments"

def RenderError.message : RenderError → Text
  | .shape label fault => utf8 "codegen: malformed " ++ label ++ utf8 ": " ++ fault.message
  | .malformed => utf8 "codegen: malformed tree"

/-- One step of rendering. -/
inductive Step where
  /-- Writes a token as the given text. -/
  | token (t : Token) (text : Text)
  /-- Writes the tokens from the first to the last, on one line, as the given text. -/
  | span (first last : Token) (text : Text)
  /-- Writes a text that replaces nothing. -/
  | insert (text : Text)
  /-- Writes a text that replaces nothing right before a token. -/
  | before (t : Token) (text : Text)
  /-- Leaves a token out. -/
  | drop (t : Token)
  /-- Writes a token as a keyword that a blank divides from what stands before it. -/
  | keyword (t : Token) (word : Text)
  /-- Closes the block of an opening keyword on a line of its own, below the last line of its body. -/
  | close (opener : Token) (last : Token)
  /-- Gives up. -/
  | fail (e : RenderError)
deriving DecidableEq, Repr

namespace Cursor

def token (c : Cursor) (t : Token) (text : Text) : Cursor :=
  (c.advance t.pos).replace text t.content.length

/-- The cursor after a closing keyword on a line of its own. -/
def close (c : Cursor) (opener last : Token) : Cursor :=
  let line := last.pos.line + c.shift + 1
  let c := c.downTo (if line ≤ c.line then c.line + 1 else line)
  let c := (c.rightTo opener.pos.column).write (utf8 "end")
  { c with shift := c.shift + 1 }

/-- The cursor after a step. -/
def step (c : Cursor) : Step → Except RenderError Cursor
  | .token t text => .ok (c.token t text)
  | .span first last text =>
    .ok ((c.advance first.pos).replace text (last.finish.column - first.pos.column))
  | .insert text => .ok (c.replace text 0)
  | .before t text => .ok ((c.advance t.pos).replace text 0)
  | .drop t =>
    .ok (if t.pos.line + c.shift = c.line then { c with delta := c.delta - t.content.length } else c)
  | .keyword t word =>
    let c := c.advance t.pos
    .ok (c.token t (if c.last = byte ' ' then word else byte ' ' :: word))
  | .close opener last => .ok (c.close opener last)
  | .fail e => .error e

def run (c : Cursor) (steps : List Step) : Except RenderError Cursor :=
  steps.foldlM step c

end Cursor

end Lunify
