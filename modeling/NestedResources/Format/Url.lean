import NestedResources.Number.Power
import NestedResources.Query.Params
import NestedResources.Text.Category

/-!
# Absolute URLs

Whether a text is an absolute URL, by the parsing rules that browsers share: surrounding blanks and
controls are dropped, as are tabs and line ends anywhere; `http`, `https`, `ws`, `wss` and `ftp`
need a host; hosts that end in a number are IPv4 addresses.
-/
namespace NestedResources.Url

/-- Drops controls and spaces at both ends, and tabs and line ends anywhere. -/
def clean (s : String) : List Char :=
  let edge (c : Char) : Bool := c.toNat ≤ 0x20
  let cs := ((s.toList.dropWhile edge).reverse.dropWhile edge).reverse
  cs.filter fun c => c ≠ '\t' && c ≠ '\n' && c ≠ '\r'

/-- The scheme in lower case, and what follows its colon. -/
def scheme? (cs : List Char) : Option (String × List Char) :=
  let isSchemeChar (c : Char) : Bool := c.isAlphanum || c = '+' || c = '-' || c = '.'
  let name := cs.takeWhile isSchemeChar
  match name, cs.drop name.length with
  | first :: _, ':' :: rest =>
    if first.isAlpha then some (Text.asciiLower (String.ofList name), rest) else none
  | _, _ => none

/-! ## Hosts -/

/-- A part of an IPv4 address: decimal, octal after `0`, or hexadecimal after `0x`. -/
def ipv4Part? (cs : List Char) : Option Nat :=
  let (base, digits) := match cs with
    | '0' :: 'x' :: rest | '0' :: 'X' :: rest => (16, rest)
    | '0' :: c :: rest => (8, c :: rest)
    | rest => (10, rest)
  if cs = [] then none
  else (digits.mapM fun c => (Params.hexValue? c.toNat).filter (· < base)).map fun values =>
    values.foldl (fun n d => n * base + d) 0

/-- The parts between dots, without an empty one at the end. -/
def hostParts (cs : List Char) : List (List Char) :=
  let parts := Text.split '.' cs
  if parts.getLast? = some [] then parts.dropLast else parts

/-- Whether the last part of a host is a number. -/
def endsInNumber (cs : List Char) : Bool :=
  match (hostParts cs).getLast? with
  | none | some [] => false
  | some last => last.all Char.isDigit || (ipv4Part? last).isSome

/-- One to four numbers; each but the last is a byte, and the last fills the other bytes. -/
def isIpv4 (cs : List Char) : Bool :=
  let parts := hostParts cs
  parts.length ≤ 4 &&
    match parts.mapM ipv4Part? with
    | none => false
    | some numbers =>
      numbers.dropLast.all (· ≤ 255)
        && numbers.getLast?.any fun last => last < twoTo (8 * (5 - numbers.length))

/-- A group of an IPv6 address: one to four hexadecimal digits. -/
def isIpv6Group (cs : List Char) : Bool :=
  !cs.isEmpty && cs.length ≤ 4 && cs.all fun c => (Params.hexValue? c.toNat).isSome

/-- Four decimal bytes without leading zeros. -/
def isDottedQuad (cs : List Char) : Bool :=
  let parts := Text.split '.' cs
  parts.length = 4 && parts.all fun p =>
    !p.isEmpty && p.length ≤ 3 && p.all Char.isDigit && (p.length = 1 || p.head? ≠ some '0')
      && (ipv4Part? p).any (· ≤ 255)

/-- The number of 16-bit groups of a row of groups; a dotted quad may stand last and counts twice. -/
def ipv6Groups? (mayEndInQuad : Bool) (cs : List Char) : Option Nat :=
  if cs = [] then some 0
  else
    let groups := Text.split ':' cs
    let last := groups.getLastD []
    if groups.dropLast.all isIpv6Group then
      if isIpv6Group last then some groups.length
      else if mayEndInQuad && isDottedQuad last then some (groups.length + 1)
      else none
    else none

/-- The texts before and after the first `::`. -/
def splitDoubleColon? : List Char → Option (List Char × List Char)
  | ':' :: ':' :: rest => some ([], rest)
  | c :: cs => (splitDoubleColon? cs).map fun (before, after) => (c :: before, after)
  | [] => none

/-- Eight groups, or fewer with `::` in place of at least one. -/
def isIpv6 (cs : List Char) : Bool :=
  match splitDoubleColon? cs with
  | none => ipv6Groups? true cs = some 8
  | some (before, after) =>
    match ipv6Groups? false before, ipv6Groups? true after with
    | some m, some n => m + n ≤ 7
    | _, _ => false

/-- A host in square brackets: its address, if it is one. -/
def isBracketed (cs : List Char) : Bool :=
  cs.getLast? = some ']' && isIpv6 (cs.drop 1).dropLast

/-- The characters that no host of any scheme may have. -/
def isForbidden (c : Char) : Bool := c = '\x00' || c ∈ "\t\n\r #/:<>?@[\\]^|".toList

/-- The characters that no domain may have. -/
def isForbiddenInDomain (c : Char) : Bool :=
  c.toNat ≤ 0x20 || c = '%' || c = '\x7F' || isForbidden c || c = '\uFFFD' || Text.isInvisible c

/-- Characters that a domain leaves out. -/
def isIgnoredInDomain (c : Char) : Bool :=
  c = '\u00AD' || c = '\u200B' || c = '\u2060' || c = '\uFEFF'

/-- A host of a scheme that needs one. -/
def isHost (cs : List Char) : Bool :=
  if cs.head? = some '[' then isBracketed cs
  else
    let bytes := Params.percentDecode (Text.utf8Bytes (String.ofList cs))
    let domain := (Text.decodeLossy bytes).toList.filter fun c => !isIgnoredInDomain c
    !domain.isEmpty && !domain.any isForbiddenInDomain && (!endsInNumber domain || isIpv4 domain)

/-- A host of any other scheme. -/
def isOpaqueHost (cs : List Char) : Bool :=
  if cs.head? = some '[' then isBracketed cs else !cs.any isForbidden

/-! ## Authorities -/

/-- Ends an authority. -/
def isStop (special : Bool) (c : Char) : Bool := c = '/' || c = '?' || c = '#' || (special && c = '\\')

/-- The host before a colon outside brackets, and what follows it. -/
def splitPort (cs : List Char) : List Char × List Char :=
  let rec go (inside : Bool) : List Char → List Char × List Char
    | [] => ([], [])
    | c :: cs =>
      if c = ':' && !inside then ([], c :: cs)
      else
        let (host, rest) := go (if c = '[' then true else if c = ']' then false else inside) cs
        (c :: host, rest)
  go false cs

/-- Nothing, or a colon with digits of a number below 65536. -/
def isPort : List Char → Bool
  | [] => true
  | _ :: digits =>
    digits.all Char.isDigit && digits.foldl (fun n c => n * 10 + (c.toNat - '0'.toNat)) 0 < 65536

/-- The user information before the last `@`, if there is one, and the rest. -/
def splitUser (cs : List Char) : Option (List Char) × List Char :=
  match Text.splitLast? '@' (String.ofList cs) with
  | some (user, rest) => (some user.toList, rest.toList)
  | none => (none, cs)

/-- Whether what follows `//` starts with an authority. -/
def isAuthority (special : Bool) (cs : List Char) : Bool :=
  let authority := cs.takeWhile (!isStop special ·)
  let (user, rest) := splitUser authority
  let (host, portText) := splitPort rest
  if host = [] then
    !special && portText = [] && match user with
      | none => true
      | some [] => cs.length = authority.length
      | some u => u = [':']
  else (if special then isHost host else isOpaqueHost host) && isPort portText

/-! ## Whole URLs -/

def isSlash (c : Char) : Bool := c = '/' || c = '\\'

/-- A host of a file, which may be missing or a drive letter. -/
def isFileHost (cs : List Char) : Bool :=
  let host := cs.takeWhile (!isStop true ·)
  match host with
  | [] => true
  | [c, d] => (c.isAlpha && (d = ':' || d = '|')) || isHost host
  | _ => isHost host

def needsHost (scheme : String) : Bool := scheme ∈ ["http", "https", "ws", "wss", "ftp"]

def isAbsolute (s : String) : Bool :=
  match scheme? (clean s) with
  | none => false
  | some (scheme, rest) =>
    if scheme = "file" then
      match rest with
      | a :: b :: host => if isSlash a && isSlash b then isFileHost host else true
      | _ => true
    else if needsHost scheme then isAuthority true (rest.dropWhile isSlash)
    else match rest with
      | '/' :: '/' :: rest => isAuthority false rest
      | _ => true

end NestedResources.Url
