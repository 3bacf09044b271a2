import Cadish.Lib.FinMap
import Cadish.Text

/-!
# Requests and headers

The engine's view of a request, and the header map of `net/http`: names are kept in canonical case,
a name that is no token as it is. Cookies are read by one lenient parser.
-/

namespace Cadish

open Str

/-! ## Header maps -/

/-- `http.Header`: the values of each field, by canonical name. -/
abbrev Header := FinMap Str (List Str)

namespace Header

def isTokenByte (b : UInt8) : Bool :=
  (0x30 ≤ b && b ≤ 0x39) || (0x41 ≤ b && b ≤ 0x5a) || (0x61 ≤ b && b ≤ 0x7a) ||
    (lit "!#$%&'*+-.^_`|~").elem b

def titleCase : Bool → Str → Str
  | _, [] => []
  | upper, b :: s =>
    (if upper then upperByte b else lowerByte b) :: titleCase (b == byte '-') s

variable (h : Header) (name : Str)

def canonicalKey : Str :=
  if name.all isTokenByte then titleCase true name else name

def values : List Str := (h.lookup (canonicalKey name)).getD []

def get : Str := (h.values name).headD []

def present : Bool := (h.lookup (canonicalKey name)).isSome

def set (value : Str) : Header := h.insert (canonicalKey name) [value]

def del : Header := h.erase (canonicalKey name)

/-- All the values of a field as the one field value a recipient may combine them into. -/
def combined : Str :=
  match h.values name with
  | [] => []
  | [v] => v
  | vs => join (lit ", ") vs

theorem canonicalKey_cookie : canonicalKey (lit "Cookie") = lit "Cookie" := by decide

theorem canonicalKey_forwardedFor : canonicalKey (lit "X-Forwarded-For") = lit "X-Forwarded-For" := by
  decide

theorem canonicalKey_userAgent : canonicalKey (lit "User-Agent") = lit "User-Agent" := by decide

theorem canonicalKey_connection : canonicalKey (lit "Connection") = lit "Connection" := by decide

end Header

/-! ## Cookies -/

structure CookieKV where
  name : Str
  value : Str
deriving DecidableEq, Repr

/-- One part of a Cookie field, between semicolons. A part without a name is no cookie. -/
def parseCookiePart (part : Str) : Option CookieKV :=
  let part := part.trimSpace
  if part = [] then none
  else
    let (name, value) := match part.cut (byte '=') with
      | some (n, v) => (n.trimSpace, v.trimSpace)
      | none => (part, [])
    if name = [] then none else some ⟨name, value.unquote⟩

def parseLenientCookies (raw : Str) : List CookieKV :=
  (raw.split (byte ';')).filterMap parseCookiePart

def lenientCookies (h : Header) : List CookieKV :=
  match (h.lookup (lit "Cookie")).getD [] with
  | [] => []
  | lines => parseLenientCookies (join (lit "; ") lines)

namespace Header

variable (h : Header)

def cookieLine : Str := Str.join (lit "; ") (h.values (lit "Cookie"))

theorem lenientCookies_eq : lenientCookies h = parseLenientCookies h.cookieLine := by
  rw [lenientCookies, cookieLine, values, canonicalKey_cookie]
  cases (h.lookup (lit "Cookie")).getD [] with
  | nil => decide
  | cons l ls => rfl

theorem cookieLine_of_one_line {h : Header} (hone : (h.values (lit "Cookie")).length ≤ 1) :
    h.cookieLine = h.get (lit "Cookie") := by
  rw [cookieLine, get]
  generalize h.values (lit "Cookie") = lines at hone ⊢
  rcases lines with _ | ⟨l, _ | ⟨l', ls⟩⟩
  · rfl
  · simp [join]
  · simp at hone

end Header

/-! ## Requests -/

/-- `pipeline.Request`, without the memo fields: what the phases capture for each other is
passed on explicitly. -/
structure Request where
  method : Str
  host : Str
  path : Str
  query : FinMap Str (List Str)
  header : Header
  clientIP : Str
  /-- the client address behind trusted proxies; `none` when it was not resolved -/
  realClientIP : Option Str
  device : Str
  geo : Str
  geoContinent : Str
  geoRegion : Str
  /-- whether a named pool has a live backend; `none` when no view was given -/
  poolHealthy : Option (Str → Bool)

namespace Request

def get (path : Str) (header : Header) : Request :=
  { method := lit "GET", host := lit "example.com", path, query := ∅, header, clientIP := []
    realClientIP := none, device := [], geo := [], geoContinent := [], geoRegion := []
    poolHealthy := none }

/-- The effective method: upper case, GET when empty. -/
def effMethod (r : Request) : Str := if r.method = [] then lit "GET" else r.method.toUpper

/-- The value of a cookie: that of the first of its name, or the empty string. -/
def cookie (r : Request) (name : Str) : Str :=
  match (lenientCookies r.header).find? (·.name = name) with
  | some c => c.value
  | none => []

def cookieNames (r : Request) : List Str := (lenientCookies r.header).map (·.name)

end Request

/-- Drop the port of a lower-case host. A bracketed address keeps everything up to its last
bracket; a bare IPv6 address has several colons and is left alone. -/
def stripPort (host : Str) : Str :=
  if hasPrefix host (lit "[") then
    match cut (byte ']') host.reverse with
    | some (rest, addr) =>
      if hasPrefix rest.reverse (lit ":") then addr.reverse ++ lit "]" else host
    | none => host
  else if host.count (byte ':') = 1 then host.takeWhile (· ≠ byte ':')
  else host

/-- `normalizeHost`: lower case, without port and without the trailing dot. -/
def normalizeHost (host : Str) : Str :=
  let bare := stripPort (toLower (trimSpace host))
  if hasSuffix bare (lit ".") then bare.dropLast else bare

def Request.normHost (r : Request) : Str := normalizeHost r.host

end Cadish
