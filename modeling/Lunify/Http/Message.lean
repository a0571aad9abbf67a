import Lunify.Text.Basic

namespace Lunify

namespace Http

/-! ### Requests and responses

The parts of a message that the service looks at. Names of header fields are compared without
regard to case; of several fields with one name a request is read by the first. -/

/-- A request. -/
structure Request where
  method : Text
  /-- The path with its query, as it was sent. -/
  target : Text
  headers : List (Text × Text)
  body : Text

/-- The value of the first field with a name, empty when there is none. -/
def Request.header (r : Request) (name : Text) : Text :=
  ((r.headers.find? fun h => Text.lower h.1 = Text.lower name).map (·.2)).getD []

/-- A response. -/
structure Response where
  status : Nat
  headers : List (Text × List Text)
  body : Text
deriving DecidableEq, Repr

def plainHeaders : List (Text × List Text) :=
  [(utf8 "Content-Type", [utf8 "text/plain; charset=utf-8"]),
    (utf8 "X-Content-Type-Options", [utf8 "nosniff"])]

def Response.failure (status : Nat) (message : Text) : Response :=
  ⟨status, plainHeaders, message ++ utf8 "\n"⟩

def Response.json (text : Text) : Response :=
  ⟨200, [(utf8 "Content-Type", [utf8 "application/json"])], text ++ utf8 "\n"⟩

def Response.adding (headers : List (Text × List Text)) (r : Response) : Response :=
  { r with headers := headers ++ r.headers }

def get : Text := utf8 "GET"

def post : Text := utf8 "POST"

def options : Text := utf8 "OPTIONS"

end Http

end Lunify
