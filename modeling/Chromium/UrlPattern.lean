import Mathlib.Data.List.Basic
import Mathlib.Tactic

/-!
# URL patterns

`extensions/common/url_pattern.cc`: patterns for the scheme, the host, the port and the path
of a URL, and the question whether one pattern contains another. Texts are lists of
characters.
-/
namespace Chromium.UrlPattern

abbrev Text := List Char

def kHttpScheme : Text := "http".toList
def kHttpsScheme : Text := "https".toList
def kFileScheme : Text := "file".toList
def kFtpScheme : Text := "ftp".toList
def kChromeUIScheme : Text := "chrome".toList
def kExtensionScheme : Text := "chrome-extension".toList
def kFileSystemScheme : Text := "filesystem".toList
def kStandardSchemeSeparator : Text := "://".toList
def kAllUrlsPattern : Text := "<all_urls>".toList

/-- `valid_schemes_` is a bit mask in an `int`. -/
abbrev SchemeMask := BitVec 32

def schemeHttp : SchemeMask := 1
def schemeHttps : SchemeMask := 2
def schemeFile : SchemeMask := 4
def schemeFtp : SchemeMask := 8
def schemeChromeUI : SchemeMask := 16
def schemeExtension : SchemeMask := 32
def schemeFileSystem : SchemeMask := 64
def schemeAll : SchemeMask := -1

/-- `kValidSchemes` with `kValidSchemeMasks`. -/
def kValidSchemes : List (Text × SchemeMask) :=
  [(kHttpScheme, schemeHttp), (kHttpsScheme, schemeHttps), (kFileScheme, schemeFile),
    (kFtpScheme, schemeFtp), (kChromeUIScheme, schemeChromeUI),
    (kExtensionScheme, schemeExtension), (kFileSystemScheme, schemeFileSystem)]

/-! ### URLs -/

/-- What the patterns use of `GURL` and of `url_util`. `canonicalHost h` is the host of
`GURL("http://" + h + "/")`. Which schemes are standard is registered when the program starts. -/
structure Gurl where
  canonicalHost : Text → Text
  isIPAddress : Text → Bool
  isStandard : Text → Bool
  isStandard_valid : ∀ scheme ∈ kValidSchemes, isStandard scheme.1

/-- A URL without the one it may be nested in. Hosts are canonical, and the path of a URL with a
standard scheme begins with a slash. -/
structure PlainUrl (gurl : Gurl) where
  scheme : Text
  host : Text
  effectiveIntPort : ℤ
  path : Text
  pathForRequest : Text
  host_canonical : gurl.canonicalHost host = host
  path_slash : gurl.isStandard scheme → path.head? = some '/' ∧ pathForRequest.head? = some '/'

structure Url (gurl : Gurl) where
  outer : PlainUrl gurl
  innerUrl : Option (PlainUrl gurl)

namespace Url
variable {gurl : Gurl}

def schemeIsFileSystem (url : Url gurl) : Bool := url.outer.scheme = kFileSystemScheme

/-- The URL whose origin counts. -/
def origin (url : Url gurl) : PlainUrl gurl := url.innerUrl.getD url.outer

/-- The inner path comes before the path of the outer URL. -/
def requestPath (url : Url gurl) : Text :=
  match url.innerUrl with
  | some inner => inner.path ++ url.outer.pathForRequest
  | none => url.outer.pathForRequest

end Url

/-! ### Patterns -/

/-- `*` is any text, `?` at most one character, and the backslash takes the next character as
it is. -/
def matchPattern (eval : Text) : Text → Bool
  | [] => eval.isEmpty
  | c :: pattern =>
    if c = '*' then eval.tails.any fun rest => matchPattern rest pattern
    else if c = '?' then
      matchPattern eval pattern ||
        match eval with
        | [] => false
        | _ :: rest => matchPattern rest pattern
    else if c = '\\' then
      match pattern with
      | [] => false
      | d :: pattern =>
        match eval with
        | [] => false
        | e :: rest => e = d && matchPattern rest pattern
    else
      match eval with
      | [] => false
      | e :: rest => e = c && matchPattern rest pattern

structure Pattern where
  validSchemes : SchemeMask := 0
  matchAllUrls : Bool := false
  scheme : Text := []
  host : Text := []
  matchSubdomains : Bool := false
  port : Text := ['*']
  path : Text := []
  pathEscaped : Text := []
  deriving DecidableEq

inductive ParseError
  | missingSchemeSeparator
  | invalidScheme
  | wrongSchemeSeparator
  | emptyHost
  | invalidHostWildcard
  | emptyPath
  | invalidPort
  deriving DecidableEq

namespace Pattern

def isValidScheme (p : Pattern) (scheme : Text) : Bool :=
  p.validSchemes = schemeAll ||
    kValidSchemes.any fun valid => scheme = valid.1 && p.validSchemes &&& valid.2 ≠ 0

/-- The scheme must be valid unless it is `*`, which stands for http and https. -/
def setScheme (p : Pattern) (scheme : Text) : Option Pattern :=
  if scheme = ['*'] then
    some { p with
      scheme := scheme, validSchemes := p.validSchemes &&& (schemeHttp ||| schemeHttps) }
  else if p.isValidScheme scheme then some { p with scheme := scheme }
  else none

def escapeChar (c : Char) : Text :=
  if c = '\\' then ['\\', '\\'] else if c = '?' then ['\\', '?'] else [c]

/-- First every backslash is doubled, then every question mark gets one. -/
def escape (path : Text) : Text := path.flatMap escapeChar

def setPath (p : Pattern) (path : Text) : Pattern :=
  { p with path := path, pathEscaped := escape path }

def setMatchAllUrls (p : Pattern) : Pattern :=
  setPath { p with matchAllUrls := true, matchSubdomains := true, scheme := ['*'], host := [] }
    ['/', '*']

def usesPort (scheme : Text) : Bool :=
  scheme ∈ ["http".toList, "https".toList, "ftp".toList, "wss".toList, "gopher".toList,
    "ws".toList]

/-- `base::StringToInt`. -/
def stringToInt (text : Text) : Option ℤ :=
  let negative : Bool := text.head? = some '-'
  let digits := if negative ∨ text.head? = some '+' then text.tail else text
  if digits.isEmpty ∨ ¬ digits.all Char.isDigit then none
  else
    let value := digits.foldl (fun n c => 10 * n + (c.toNat - '0'.toNat)) 0
    if negative then if value ≤ 2 ^ 31 then some (-value) else none
    else if value < 2 ^ 31 then some value else none

def isValidPortForScheme (scheme port : Text) : Bool :=
  port = ['*'] || (usesPort scheme &&
    match stringToInt port with
    | some parsedPort => 0 ≤ parsedPort ∧ parsedPort < 65536
    | none => false)

def setPort (p : Pattern) (port : Text) : Option Pattern :=
  if isValidPortForScheme p.scheme port then some { p with port := port } else none

end Pattern

/-! ### Parsing -/

/-- The text before the first `needle` and the one from it on. -/
def splitAt (needle : Text) : Text → Option (Text × Text)
  | [] => none
  | c :: text =>
    if needle.isPrefixOf (c :: text) then some ([], c :: text)
    else (splitAt needle text).map fun parts => (c :: parts.1, parts.2)

def isWhitespace (c : Char) : Bool := c ∈ [' ', '\t', '\n', '\x0b', '\x0c', '\r']

def trim (text : Text) : Text :=
  ((text.dropWhile isWhitespace).reverse.dropWhile isWhitespace).reverse

/-- `base::SplitString` and `JoinString` for the dots of a host: the trimmed components. A host
of white space has none. -/
def hostComponents (host : Text) : List Text :=
  let components := (host.splitOn '.').map trim
  if components = [[]] then [] else components

def joinComponents (components : List Text) : Text := List.intercalate ['.'] components

open Pattern

def isStandardScheme (gurl : Gurl) (scheme : Text) : Bool :=
  scheme = ['*'] || gurl.isStandard scheme

/-- The host with its wildcard. There is no result when the first of no components is read. -/
def parseHost (p : Pattern) (host : Text) : Option Pattern :=
  match hostComponents host with
  | [] => none
  | first :: rest =>
    if first = ['*'] then some { p with matchSubdomains := true, host := joinComponents rest }
    else some { p with host := joinComponents (first :: rest) }

/-- The port is taken from the host. -/
def parsePort (p : Pattern) : Except ParseError Pattern :=
  match splitAt [':'] p.host with
  | none => .ok p
  | some (host, port) =>
    match p.setPort port.tail with
    | none => .error .invalidPort
    | some p => .ok { p with host := host }

def checkHost (p : Pattern) : Except ParseError Pattern :=
  if '*' ∈ p.host then .error .invalidHostWildcard else .ok p

/-- The host and the path of a pattern; `text` comes after the separator of the scheme. -/
def parseAuthority (gurl : Gurl) (p : Pattern) (text : Text) :
    Option (Except ParseError Pattern) :=
  if isStandardScheme gurl p.scheme then
    if p.scheme = kFileScheme then
      -- the host of a file is ignored and may be left out
      match splitAt ['/'] text with
      | none => some (.ok (p.setPath ('/' :: text)))
      | some (_, path) => some (.ok (p.setPath path))
    else
      match splitAt ['/'] text with
      | none => some (.error .emptyPath)
      | some (host, path) =>
        if host.isEmpty then some (.error .emptyHost)
        else (parseHost p host).map fun p => .ok (p.setPath path)
  else some (.ok (p.setPath text))

/-- The scheme, whether its separator is the standard one, and what comes after it. -/
def splitScheme (pattern : Text) : Option (Text × Bool × Text) :=
  match splitAt kStandardSchemeSeparator pattern with
  | some (scheme, rest) => some (scheme, true, rest.drop 3)
  | none => (splitAt [':'] pattern).map fun parts => (parts.1, false, parts.2.tail)

/-- `Parse` on a new pattern. No result stands for the host of white space. -/
def parse (gurl : Gurl) (validSchemes : SchemeMask) (pattern : Text) :
    Option (Except ParseError Pattern) :=
  let p : Pattern := { validSchemes := validSchemes }
  if pattern = kAllUrlsPattern then some (.ok p.setMatchAllUrls)
  else
    match splitScheme pattern with
    | none => some (.error .missingSchemeSeparator)
    | some (scheme, hasStandardSchemeSeparator, rest) =>
      match p.setScheme scheme with
      | none => some (.error .invalidScheme)
      | some p =>
        if isStandardScheme gurl scheme ≠ hasStandardSchemeSeparator then
          some (.error .wrongSchemeSeparator)
        else if rest.isEmpty then some (.error .emptyHost)
        else (parseAuthority gurl p rest).map fun result =>
          result >>= fun p => parsePort p >>= checkHost

/-! ### Matching -/

namespace Pattern
variable {gurl : Gurl}

def matchesScheme (p : Pattern) (test : Text) : Bool :=
  p.isValidScheme test && (p.scheme = ['*'] || test = p.scheme)

/-- `test` is the host of a URL. -/
def matchesHost (gurl : Gurl) (p : Pattern) (test : Text) : Bool :=
  if test = p.host then true
  else if p.matchSubdomains && p.host.isEmpty then true
  else if !p.matchSubdomains then false
  else if gurl.isIPAddress test then false
  else if test.length ≤ p.host.length + 1 then false
  else if test.drop (test.length - p.host.length) ≠ p.host then false
  else test[test.length - p.host.length - 1]? = some '.'

def matchesPath (p : Pattern) (test : Text) : Bool :=
  test ++ ['/', '*'] = p.pathEscaped || matchPattern test p.pathEscaped

def matchesPortPattern (p : Pattern) (port : Text) : Bool := p.port = ['*'] || p.port = port

def matchesSecurityOriginHelper (gurl : Gurl) (p : Pattern) (test : PlainUrl gurl) : Bool :=
  if p.scheme ≠ kFileScheme && !p.matchesHost gurl test.host then false
  else p.matchesPortPattern (toString test.effectiveIntPort).toList

def matchesUrl (p : Pattern) (test : Url gurl) : Bool :=
  if test.innerUrl.isSome && !test.schemeIsFileSystem then false
  else if !p.matchesScheme test.origin.scheme then false
  else if p.matchAllUrls then true
  else p.matchesSecurityOriginHelper gurl test.origin && p.matchesPath test.requestPath

/-! ### Containment -/

def stripTrailingWildcard (path : Text) : Text :=
  if path.idxOf '*' = path.length - 1 then path.dropLast else path

def getExplicitSchemes (p : Pattern) : List Text :=
  if p.scheme ≠ ['*'] && !p.matchAllUrls && p.isValidScheme p.scheme then [p.scheme]
  else (kValidSchemes.map Prod.fst).filter p.matchesScheme

def contains (gurl : Gurl) (p other : Pattern) : Bool :=
  p.matchAllUrls ||
    (other.getExplicitSchemes.all p.matchesScheme &&
      p.matchesHost gurl (gurl.canonicalHost other.host) && p.matchesPortPattern other.port &&
      p.matchesPath (stripTrailingWildcard other.path))

end Pattern

end Chromium.UrlPattern
