import Lunify.Text.Basic

namespace Lunify

namespace Http

/-! ### Addresses

An address is a host and a service with a colon between them. A service is a number or a name; a
host with colons of its own stands in brackets. -/

/-- Why an address cannot be used. -/
inductive AddressError where
  /-- The form of the address is wrong. -/
  | malformed (address reason : Text)
  /-- The number of the service is out of range. -/
  | badService (service : Text)
  /-- No service of this name is known. -/
  | unknownService (service : Text)
  /-- There is nothing to listen with. -/
  | unsupported (address : Text)
deriving DecidableEq, Repr

/-- The error in words. -/
def AddressError.message : AddressError → Text
  | .malformed address reason =>
    utf8 "listen tcp: address " ++ address ++ utf8 ": " ++ reason
  | .badService service => utf8 "listen tcp: address " ++ service ++ utf8 ": invalid port"
  | .unknownService service => utf8 "listen tcp: lookup tcp/" ++ service ++ utf8 ": unknown port"
  | .unsupported address => utf8 "listen tcp " ++ address ++ utf8 ": operation not supported"

/-- The text after the last colon and the text before it. -/
def lastColon? (s : Text) : Option (Text × Text) :=
  match s.reverse.dropWhile (· != byte ':') with
  | [] => none
  | _ :: host => some (host.reverse, (s.reverse.takeWhile (· != byte ':')).reverse)

/-- The host in brackets at the start of an address, and what follows it. -/
def bracketed? (s : Text) : Option (Text × Text) :=
  Text.cutAt (utf8 "]") s

/-- The host and the service of an address. -/
def splitAddress (s : Text) : Except AddressError (Text × Text) :=
  let fail {α : Type} (reason : String) : Except AddressError α :=
    .error (.malformed s (utf8 reason))
  match lastColon? s with
  | none => fail "missing port in address"
  | some (host, service) =>
    if s.head? = some (byte '[') then
      match bracketed? (s.drop 1) with
      | none => fail "missing ']' in address"
      | some (inner, after) =>
        if after.isEmpty then fail "missing port in address"
        else if after.head? != some (byte ':') then fail "missing port in address"
        else if (after.drop 1).contains (byte ':') then fail "too many colons in address"
        else if (s.drop 1).contains (byte '[') then fail "unexpected '[' in address"
        else if after.contains (byte ']') then fail "unexpected ']' in address"
        else .ok (inner, service)
    else if host.contains (byte ':') then fail "too many colons in address"
    else if s.contains (byte '[') then fail "unexpected '[' in address"
    else if s.contains (byte ']') then fail "unexpected ']' in address"
    else .ok (host, service)

def services : List Text :=
  [utf8 "http", utf8 "https", utf8 "ftp", utf8 "ssh", utf8 "smtp", utf8 "domain", utf8 "telnet"]

/-- Checks a service: a number up to 65535, or a name. -/
def checkService (service : Text) : Except AddressError Unit :=
  let (negative, digits) := match service with
    | [] => (false, [])
    | b :: r =>
      if b = byte '-' then (true, r) else if b = byte '+' then (false, r) else (false, service)
  if digits.all Text.isDigit then
    let n := Text.digitsValue digits
    if (negative && n != 0) || 65535 < n then .error (.badService service) else .ok ()
  else if services.contains (Text.lower service) then .ok ()
  else .error (.unknownService service)

/-- Listens at an address. No network belongs to this library, so that an address without a fault
is refused as well. -/
def listen (address : Text) : Except AddressError Unit := do
  let address := if address.isEmpty then utf8 ":http" else address
  let (_, service) ← splitAddress address
  checkService service
  .error (.unsupported address)

end Http

end Lunify
