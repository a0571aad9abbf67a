import Lunify.Http.CrossOrigin
import Lunify.Http.MediaType
import Lunify.Http.Route
import Lunify.Pipeline.Basic
import Lunify.Version

namespace Lunify

namespace Http

/-! ### The service

The service takes sources and answers with their Lua texts. A source is the body of a request, or
a member of the body when that is JSON. How many sources are taken may be limited. -/

/-- A service and the state it keeps between requests. -/
structure Service where
  pipeline : Pipeline
  origins : Origins
  /-- How many more sources are taken, when there is a limit. -/
  left? : Option Nat

/-- A service. When it is limited it takes `burst` sources, and at least one. -/
def Service.start (pipeline : Pipeline) (origins : List Text) (isLimited : Bool) (burst : Int) :
    Service :=
  ⟨pipeline, .ofList origins, if isLimited then some (max burst.toNat 1) else none⟩

def sourceRoute : Route := ⟨post, utf8 "/translate"⟩

def healthRoute : Route := ⟨get, utf8 "/health"⟩

def routes : List Route := [sourceRoute, healthRoute]

def bodyLimit : Nat := 1048576

/-- Why a JSON body holds no source. -/
inductive BodyError where
  | notJson (e : Json.ReadError)
  /-- The body is no object. -/
  | wrongBody (kind : Text)
  /-- The member is no string. -/
  | wrongMember (kind name : Text)
deriving Repr

/-- The error in words. -/
def BodyError.message : BodyError → Text
  | .notJson e => e.message
  | .wrongBody kind =>
    utf8 "json: cannot unmarshal " ++ kind ++ utf8 " into Go value of type server.TranslateRequest"
  | .wrongMember kind name =>
    utf8 "json: cannot unmarshal " ++ kind ++ utf8 " into Go struct field TranslateRequest." ++ name
      ++ utf8 " of type string"

/-- The small letter that a rune is a form of, when it is one of an ASCII letter. -/
def caseless : Rune → Text
  | .char c =>
    if c.toNat = 0x17F then utf8 "s" else if c.toNat = 0x212A then utf8 "k"
    else Text.lower (String.utf8EncodeChar c)
  | .stray b => [b]

def isSourceName (name : Text) : Bool :=
  (Text.runes name).flatMap caseless = utf8 "source"

/-- The source in the members of an object: the last string under its name. -/
def memberSource (source : Text) : List (Text × Json.Value) → Except BodyError Text
  | [] => .ok source
  | (name, v) :: rest =>
    if !isSourceName name then memberSource source rest
    else match v with
      | .string s => memberSource s rest
      | .null => memberSource source rest
      | v => .error (.wrongMember v.kind name)

/-- The source in a JSON body. -/
def jsonSource (body : Text) : Except BodyError Text := do
  match ← (Json.read body).mapError .notJson with
  | .object members => memberSource [] members
  | .null => return []
  | v => .error (.wrongBody v.kind)

/-- The JSON text for the result of a source. -/
def resultText : Except Failure Text → Text
  | .ok lua => Json.Value.text (.object
      [(utf8 "lua", .string lua), (utf8 "success", .bool true)])
  | .error e => Json.Value.text (.object
      [(utf8 "lua", .string []), (utf8 "success", .bool false),
        (utf8 "kind", .string e.verdict.name), (utf8 "error", .string e.message)])

def healthText : Text :=
  Json.Value.text (.object
    [(utf8 "status", .string (utf8 "ok")), (utf8 "version", .string Version.release)])

/-- The response to a source. A tree that does not have the shape of the grammar's rules ends the
request without one. -/
def Service.source (s : Service) (r : Request) : Option Response :=
  if bodyLimit < r.body.length then some (.failure 413 (utf8 "request too large"))
  else
    let isJson := mediaType (r.header (utf8 "Content-Type")) = utf8 "application/json"
    match if isJson then jsonSource r.body else .ok r.body with
    | .error e => some (.failure 400 (utf8 "invalid JSON: " ++ e.message))
    | .ok source =>
      match s.pipeline.lua source with
      | .error .malformedTree => none
      | result => some (.json (resultText result))

/-- The response to a source, when there is no limit or it is not yet reached. -/
def Service.limitedSource (s : Service) (r : Request) : Option Response × Service :=
  match s.left? with
  | none => (s.source r, s)
  | some 0 => (some (.failure 429 (utf8 "too many requests")), s)
  | some (n + 1) => (s.source r, { s with left? := some n })

/-- The response to a request that is no question beforehand. -/
def Service.routed (s : Service) (r : Request) : Option Response × Service :=
  let target := Target.ofText r.target
  match dispatch routes r.method target.path with
  | .handled route =>
    if route = sourceRoute then s.limitedSource r else (some (.json healthText), s)
  | other => (some (other.response r.method target), s)

/-- The response to a request, if there is one, and the service after it. -/
def Service.respond (s : Service) (r : Request) : Option Response × Service :=
  if r.isPreflight then (some ⟨200, s.origins.preflight r, []⟩, s)
  else
    let (response, s') := s.routed r
    (response.map (·.adding (s.origins.fields r)), s')

end Http

end Lunify
