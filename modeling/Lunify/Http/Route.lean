import Lunify.Files.Path
import Lunify.Http.Message
import Lunify.Json.Read

namespace Lunify

namespace Http

/-! ### Routes

A route is a method and a path. A request that fits no route may still be close to one: a path
that differs in case, in a slash at its end or in names that cancel out is sent on to the path it
means, and a path that only has routes with other methods is answered with those methods. -/

/-- What a request asks for: the path without its encoding, and the query as it was sent. -/
structure Target where
  path : Text
  query? : Option Text

/-- Replaces each percent sign and the two digits after it by the byte they name. -/
def percentDecoded : Text → Text
  | [] => []
  | [a] => [a]
  | [a, b] => [a, b]
  | a :: b :: c :: r =>
    if a = byte '%' then
      match Json.hexValue? b, Json.hexValue? c with
      | some h, some l => (16 * h + l).toUInt8 :: percentDecoded r
      | _, _ => a :: percentDecoded (b :: c :: r)
    else a :: percentDecoded (b :: c :: r)

def Target.ofText (s : Text) : Target :=
  match Text.cutAt (utf8 "?") s with
  | none => ⟨percentDecoded s, none⟩
  | some (path, query) => ⟨percentDecoded path, some query⟩

def Target.withPath (t : Target) (path : Text) : Text :=
  path ++ match t.query? with
    | none => []
    | some query => utf8 "?" ++ query

/-- A method and a path that are answered. -/
structure Route where
  method : Text
  path : Text
deriving DecidableEq, Repr

/-- What becomes of a request. -/
inductive Dispatch where
  /-- It fits a route. -/
  | handled (r : Route)
  /-- It is sent to another path. -/
  | redirected (path : Text)
  /-- It asks which methods the path has. -/
  | described (allow : Text)
  /-- The path has other methods. -/
  | notAllowed (allow : Text)
  | notFound
deriving DecidableEq, Repr

def root : Text := utf8 "/"

/-- Whether a path ends like a directory: in a slash, or in the name of the directory itself. -/
def endsAsDirectory (path : Text) : Bool :=
  match (Text.splitOn Path.slash path).reverse with
  | last :: _ :: _ => last.isEmpty || last = Path.here
  | _ => false

/-- The path without names that cancel out. A slash at the end stays. -/
def cleanPath (path : Text) : Text :=
  let clean := Path.clean (Path.slash :: path)
  if endsAsDirectory path && clean != root then clean ++ root else clean

/-- The path that is meant by a path that fits none of the routes. -/
def repaired? (routes : List Route) (path : Text) : Option Text :=
  let clean := cleanPath path
  if path = root || routes.isEmpty then none
  else if clean = root then some root
  else
    let near (r : Route) : Bool :=
      Text.lower clean = Text.lower r.path || Text.lower clean = Text.lower (r.path ++ root)
    (routes.find? near).map (·.path)

/-- The routes to show for a path that is reached with another method. A star stands for all
paths. -/
def others (routes : List Route) (method path : Text) : List Route :=
  if path = utf8 "*" then routes else routes.filter fun r => r.method != method && r.path = path

/-- What becomes of a request with a method and a path. -/
def dispatch (routes : List Route) (method path : Text) : Dispatch :=
  let own := routes.filter (·.method = method)
  match own.find? (·.path = path) with
  | some r => .handled r
  | none =>
    match repaired? own path with
    | some p => .redirected p
    | none =>
      match others routes method path with
      | [] => .notFound
      | rs =>
        let allow := Text.join (utf8 ", ") (rs.map (·.method) ++ [options])
        if method = options then .described allow else .notAllowed allow

/-- A text inside a web page. -/
def htmlEscaped (s : Text) : Text :=
  s.flatMap fun b =>
    if b = byte '&' then utf8 "&amp;"
    else if b = byte '<' then utf8 "&lt;"
    else if b = byte '>' then utf8 "&gt;"
    else if b = byte '"' then utf8 "&#34;"
    else if b = 39 then utf8 "&#39;"
    else [b]

def asciiEscaped (s : Text) : Text :=
  s.flatMap fun b => if b < 0x80 then [b] else byte '%' :: Text.hex 2 b.toNat

/-- The response that sends a request on. Only a request for a page gets one. -/
def redirection (method location : Text) : Response :=
  let place := (utf8 "Location", [asciiEscaped location])
  if method = get then
    ⟨301, [place, (utf8 "Content-Type", [utf8 "text/html; charset=utf-8"])],
      utf8 "<a href=\"" ++ htmlEscaped location ++ utf8 "\">Moved Permanently</a>.\n\n"⟩
  else ⟨307, [place], []⟩

/-- The response to a request that fits no route. -/
def Dispatch.response (method : Text) (target : Target) : Dispatch → Response
  | .handled _ => ⟨200, [], []⟩
  | .redirected path => redirection method (target.withPath path)
  | .described allow => ⟨200, [(utf8 "Allow", [allow])], []⟩
  | .notAllowed allow =>
    (Response.failure 405 (utf8 "Method Not Allowed")).adding [(utf8 "Allow", [allow])]
  | .notFound => .failure 404 (utf8 "404 page not found")

end Http

end Lunify
