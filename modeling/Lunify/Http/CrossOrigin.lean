import Lunify.Http.Message

namespace Lunify

namespace Http

/-! ### Requests from other sites

A browser sends the site a page comes from as the origin of its requests, and asks beforehand
whether a request with an unusual method would be taken. The service names the origins it serves;
what it answers differs by origin, which the field `Vary` tells caches. Origins and methods are
ASCII texts and are compared without regard to case. -/

/-- The origins that are served. -/
inductive Origins where
  | all
  /-- One of the patterns fits: a star in a pattern stands for any text. -/
  | matching (patterns : List Text)
deriving DecidableEq, Repr

/-- The origins that a list of patterns names. No pattern, or a star alone, names all. -/
def Origins.ofList (patterns : List Text) : Origins :=
  if patterns.isEmpty || patterns.contains (utf8 "*") then .all
  else .matching (patterns.map Text.lower)

/-- Whether a pattern fits a text. Only the first star is special. -/
def fits (pattern s : Text) : Bool :=
  match Text.cutAt (utf8 "*") pattern with
  | none => pattern = s
  | some (start, finish) =>
    start.length + finish.length ≤ s.length && start.isPrefixOf s && finish.isSuffixOf s

def Origins.allow (o : Origins) (origin : Text) : Bool :=
  match o with
  | .all => true
  | .matching patterns => patterns.any fun p => fits p (Text.lower origin)

def isShared (method : Text) : Bool :=
  [get, post, options].contains (Text.upper method)

/-- The field that lets the browser use a response. -/
def Origins.grant (o : Origins) (origin : Text) : Text × List Text :=
  (utf8 "Access-Control-Allow-Origin", [match o with
    | .all => utf8 "*"
    | .matching _ => origin])

def originField : Text := utf8 "Origin"

/-- The name of the field with the method that a browser asks for. -/
def methodField : Text := utf8 "Access-Control-Request-Method"

/-- The name of the field with the header fields that a browser asks for. -/
def headersField : Text := utf8 "Access-Control-Request-Headers"

def Origins.shares (o : Origins) (origin method : Text) : Bool :=
  !origin.isEmpty && o.allow origin && isShared method

def isNamePart (b : UInt8) : Bool :=
  Text.isDigit b || b = byte '-' || b = byte '_' || b = byte '.'

/-- The names in a list, each part with a capital. The word `word` is not finished, and `capital`
tells whether a letter would start a part. -/
def fieldNames (word : Text) (capital : Bool) : Text → List Text
  | [] => if word.isEmpty then [] else [word]
  | b :: r =>
    if b = byte ' ' || b = byte ',' then
      if word.isEmpty then fieldNames [] capital r else word :: fieldNames [] true r
    else
      let starts := b = byte '-' || b = byte '_'
      if isNamePart b then fieldNames (word ++ [b]) starts r
      else if (byte 'a' ≤ b && b ≤ byte 'z') || (byte 'A' ≤ b && b ≤ byte 'Z') then
        fieldNames (word ++ [if capital then Text.upperByte b else Text.lowerByte b]) starts r
      else fieldNames word starts r

def memory : Nat := 600

/-- The fields of the answer to a browser that asks beforehand. -/
def Origins.preflight (o : Origins) (r : Request) : List (Text × List Text) :=
  let origin := r.header originField
  let method := r.header methodField
  let names := fieldNames [] true (r.header headersField)
  (utf8 "Vary", [originField, methodField, headersField]) ::
    if o.shares origin method then
      [o.grant origin, (utf8 "Access-Control-Allow-Methods", [Text.upper method])]
        ++ (if names.isEmpty then []
          else [(utf8 "Access-Control-Allow-Headers", [Text.join (utf8 ", ") names])])
        ++ [(utf8 "Access-Control-Max-Age", [Text.ofNat memory])]
    else []

/-- The fields that are added to the response to any other request. -/
def Origins.fields (o : Origins) (r : Request) : List (Text × List Text) :=
  (utf8 "Vary", [originField]) ::
    if o.shares (r.header originField) r.method then [o.grant (r.header originField)] else []

def Request.isPreflight (r : Request) : Bool :=
  r.method = options && !(r.header methodField).isEmpty

end Http

end Lunify
