import Mathlib.Algebra.Group.Nat.Defs
import OpenLustre.Lib.Text
import OpenLustre.Lib.Utf8

/-! Who may talk to the Studio: the test a request passes before anything reads its body. -/

namespace OpenLustre.Studio.Gate

/-- The request header that carries the token for clients without the cookie. -/
def tokenHeader : String := "x-openlustre-token"

/-- The loopback names a request may address the Studio by. -/
def loopbackNames : List String := ["127.0.0.1", "localhost", "[::1]"]

/-- This launch's access rule: its token and the port it serves on. -/
structure Access where
  token : String
  port : Nat
  portBound : port < 2 ^ 16

/-- What to do with a request. -/
inductive Verdict
  | allow
  /-- The launch link: set the cookie and go to the page. -/
  | enter (cookie : String)
  | deny (status : Nat) (contentType body : String)
  deriving DecidableEq, Repr

/-- What a connection asks, its target cut at the question mark. -/
structure Request where
  method : String
  path : String
  query : String
  headers : String
  deriving DecidableEq, Repr

section Texts

def eqIgnoreAsciiCase (a b : String) : Bool :=
  a.toList.map Char.toLower = b.toList.map Char.toLower

/-- The text before and behind the first separator. -/
def splitOnce (sep : Char) (s : String) : Option (String × String) :=
  if sep ∈ s.toList then
    some (String.ofList (s.toList.takeWhile (· ≠ sep)),
      String.ofList (s.toList.dropWhile (· ≠ sep)).tail)
  else none

def splitAll (sep : Char) (s : String) : List String := (s.toList.splitOn sep).map String.ofList

/-- A line's value, if it is a header of the name. -/
def headerLine (name line : String) : Option String := do
  let (key, value) ← splitOnce ':' line
  if eqIgnoreAsciiCase (Text.trim key) name then some (Text.trim value) else none

/-- The value of a header in a block whose first line is the request line. -/
def header (headers name : String) : Option String :=
  ((Text.lines headers).drop 1).findSome? (headerLine name)

/-- What `name=value` gives the name. -/
def assigned (name pair : String) : Option String := do
  let (key, value) ← splitOnce '=' pair
  if key = name then some value else none

def cookieIn (name line : String) : Option String :=
  (splitAll ';' line).findSome? fun pair => assigned name (Text.trim pair)

def cookie (headers name : String) : Option String := do
  let line ← header headers "cookie"
  cookieIn name line

def queryValue (query name : String) : Option String := (splitAll '&' query).findSome? (assigned name)

/-- What a host is taken for: a name in brackets to the closing one, another name to the colon. -/
def hostName (host : List Char) : List Char :=
  if host.head? = some '[' then host.takeWhile (· ≠ ']') ++ (host.dropWhile (· ≠ ']')).take 1
  else host.takeWhile (· ≠ ':')

/-- A host names a loopback address. -/
def isLoopbackHost (host : String) : Bool :=
  loopbackNames.any fun name => eqIgnoreAsciiCase (String.ofList (hostName host.toList)) name

/-- Compare without stopping at the first difference. -/
def same (a b : String) : Bool :=
  decide ((utf8 a).length = (utf8 b).length) &&
    ((utf8 a).zip (utf8 b)).foldl (fun acc (x, y) => acc ||| (x ^^^ y)) 0 == 0

end Texts

section Refusals

def denyText (message : String) : Verdict := .deny 403 "text/plain; charset=utf-8" message

def noToken : String :=
  "This page needs the Studio's launch link. Open the Studio from its " ++
    "shortcut (Start Menu, Applications, the desktop) or with " ++
    "<code>openlustre studio launch</code>; " ++
    "with <code>openlustre studio serve</code>, open the link it printed, which ends in " ++
    "<code>?token=…</code>. The link keeps other web pages from using the Studio."

def staleLink : String :=
  "This link is from an earlier run of the Studio. Open the Studio again from " ++
    "its shortcut or with <code>openlustre studio launch</code>, or use the link " ++
    "<code>openlustre studio serve</code> printed this time."

def denyPage (message : String) : Verdict :=
  .deny 403 "text/html; charset=utf-8" <|
    "<!doctype html><html><head><meta charset=\"utf-8\">" ++
      "<title>OpenLustre Studio: open it from its link</title>" ++
      "<style>body\x7bfont:15px/1.5 system-ui,sans-serif;max-width:36em;margin:4em auto;" ++
      "padding:0 1em;color:#222\x7dcode\x7bbackground:#f2f2f2;padding:0 .25em\x7d</style></head>" ++
      "<body><h1>OpenLustre Studio</h1><p>" ++ message ++ "</p></body></html>"

/-- The refusal of an endpoint; nothing in the message needs an escape. -/
def denyCall : Verdict :=
  .deny 403 "application/json" <|
    "\x7b\"schema_version\":1,\"error\":\"this request needs the Studio's launch token: " ++
      "open the Studio from the link `openlustre studio serve` printed, " ++
      "or send the X-OpenLustre-Token header\"\x7d"

end Refusals

namespace Access

variable (access : Access)

/-- Cookies are shared by every port of a host, so the name carries the port. -/
def cookieName : String := "openlustre_studio_" ++ toString access.port

def isOwnOrigin (origin : String) : Bool :=
  loopbackNames.any fun name =>
    eqIgnoreAsciiCase origin ("http://" ++ name ++ ":" ++ toString access.port)

def isPage (r : Request) : Bool := r.method = "GET" && (r.path = "/" || r.path = "/index.html")

/-- The token a link to the page carries. -/
def link (r : Request) : Option String := if isPage r then queryValue r.query "token" else none

def presented (r : Request) : Option String :=
  (header r.headers tokenHeader).or (cookie r.headers access.cookieName)

/-- Decide on a request that is addressed to the Studio by its own page. -/
def checkToken (r : Request) : Verdict :=
  if r.path = "/api/health" then .allow
  else if (link r).any (same · access.token) then
    .enter (access.cookieName ++ "=" ++ access.token ++ "; Path=/; HttpOnly; SameSite=Strict")
  else if (access.presented r).any (same · access.token) then .allow
  else if (link r).isSome then denyPage staleLink
  else if isPage r then denyPage noToken
  else denyCall

/-- Decide on a request from its method, path, query and header block. -/
def check (r : Request) : Verdict :=
  if !(header r.headers "host").any isLoopbackHost then
    denyText ("This OpenLustre Studio only answers requests addressed to " ++
      "127.0.0.1 or localhost.")
  else if (header r.headers "origin").any (!access.isOwnOrigin ·) then
    denyText "This OpenLustre Studio refuses requests from other web pages."
  else access.checkToken r

end Access

section Connection

/-- What a read of a connection gives. -/
inductive Read
  | data (bytes : List UInt8)
  | closed
  | failed
  deriving DecidableEq, Repr

/-- What becomes of a connection. -/
inductive Outcome
  | dropped
  | tooLarge
  | answered (verdict : Verdict)
  | routed (r : Request) (body : List UInt8)
  deriving DecidableEq, Repr

def maxRequestBytes : Nat := 4 * 1024 * 1024

def findDoubleCrlf (buf : List UInt8) : Option Nat :=
  buf.tails.findIdx? ([13, 10, 13, 10].isPrefixOf ·)

def splitWhitespace (line : String) : List String :=
  ((line.toList.splitOnP Text.isWhitespace).filter (· ≠ [])).map String.ofList

/-- The method and the target on the first line. -/
def parseRequestLine (headers : String) : String × String :=
  let words := splitWhitespace ((Text.lines headers).head?.getD "")
  (words[0]?.getD "", words[1]?.getD "/")

def parseContentLength (headers : String) : Option Nat :=
  (Text.lines headers).findSome? fun line => do
    let rest ← "content-length:".toList.isPrefixOf? (line.toList.map Char.toLower)
    (Text.readUnsigned (Text.trimChars rest)).filter (· < 2 ^ 64)

/-- What a header block asks. -/
def requested (headers : String) : Request :=
  let (method, target) := parseRequestLine headers
  let (path, query) := (splitOnce '?' target).getD (target, "")
  { method, path, query, headers }

/-- Read to the end of the headers. -/
def readHeaders : List Read → List UInt8 → Except Outcome (List UInt8 × Nat × List Read)
  | [], _ | .failed :: _, _ | .closed :: _, _ => .error .dropped
  | .data bytes :: reads, buf =>
    let buf := buf ++ bytes
    match findDoubleCrlf buf with
    | some stop => .ok (buf, stop, reads)
    | none => if maxRequestBytes < buf.length then .error .tooLarge else readHeaders reads buf

/-- Read until there are as many bytes as announced. -/
def readBody (stop : Nat) : List Read → List UInt8 → Except Outcome (List UInt8)
  | reads, buf =>
    if stop ≤ buf.length then .ok buf
    else
      match reads with
      | [] | .failed :: _ => .error .dropped
      | .closed :: _ => .ok buf
      | .data bytes :: reads =>
        if maxRequestBytes < (buf ++ bytes).length then .error .tooLarge
        else readBody stop reads (buf ++ bytes)
  termination_by structural reads => reads

/-- Who is asking, before a body is read or anything is touched. -/
def connect (access : Access) (reads : List Read) : Except Outcome Outcome := do
  let (buf, headersEnd, reads) ← readHeaders reads []
  let r := requested ((ofUtf8 (buf.take headersEnd)).getD "")
  match access.check r with
  | .allow =>
    let contentLength := min ((parseContentLength r.headers).getD 0) maxRequestBytes
    let start := headersEnd + 4
    let buf ← readBody (start + contentLength) reads buf
    .ok (.routed r
      (if start + contentLength ≤ buf.length then (buf.drop start).take contentLength else []))
  | verdict => .ok (.answered verdict)

def handleConnection (access : Access) (reads : List Read) : Outcome :=
  match connect access reads with
  | .ok outcome | .error outcome => outcome

end Connection

end OpenLustre.Studio.Gate
