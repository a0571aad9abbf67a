import Lunify.Files.Basic

namespace Lunify

namespace Batch

/-! ### What a batch works on

The files below the input are sources or assets, by their names. Each has its place below the
output, where a source gets another name. -/

def sourceEnd : Text := utf8 ".py"

def luaEnd : Text := utf8 ".lua"

/-- The sources and the assets below the input, both sorted. An input that is a file is a source. -/
def discover (files : Files) (input : Text) : Except FileError (List Text × List Text) := do
  match ← files.stat input with
  | .file _ => return ([input], [])
  | .directory =>
    let place := ((files.place input).toOption).getD []
    let paths := (files.below place).map fun (p, _) =>
      Path.join input (Text.join [Path.slash] p)
    return (Text.sorted (paths.filter fun p => sourceEnd.isSuffixOf p),
      Text.sorted (paths.filter fun p => !sourceEnd.isSuffixOf p))

/-- A file that cannot be seen from the input. -/
structure NotBelow where
  path : Text
  input : Text
deriving DecidableEq, Repr

def NotBelow.message (e : NotBelow) : Text :=
  utf8 "Rel: can't make " ++ e.path ++ utf8 " relative to " ++ e.input

/-- The path of a file as seen from the input. An input that is a file shows only names. -/
def relative (files : Files) (input path : Text) : Except NotBelow Text :=
  match files.stat input with
  | .ok .directory =>
    match Path.relative? input path with
    | some p => .ok p
    | none => .error ⟨path, input⟩
  | _ => .ok (Path.base path)

/-- The name of what is made from a file: a source becomes a Lua file, and so does the input. -/
def renamed (input path name : Text) : Text :=
  if sourceEnd.isSuffixOf name then name.take (name.length - sourceEnd.length) ++ luaEnd
  else if path = input then name ++ luaEnd
  else name

def target (files : Files) (input output path : Text) : Except NotBelow Text := do
  return Path.join output (renamed input path (← relative files input path))

end Batch

end Lunify
