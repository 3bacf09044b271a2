import Cadish.Text

/-!
# Network addresses

What the client address is computed with of `net` and `net/netip`. An address that does not parse is
`none`, as the zero `netip.Addr` is invalid.
-/

namespace Cadish

open Str

inductive Addr where
  | v4 (ip : BitVec 32)
  | v6 (ip : BitVec 128) (zone : Str)
deriving DecidableEq, Repr

/-- `netip.Prefix`, a valid one: an address without a zone, and how many of its bits count. -/
inductive AddrBlock where
  | v4 (ip : BitVec 32) (bits : Fin 33)
  | v6 (ip : BitVec 128) (bits : Fin 129)
deriving DecidableEq, Repr

/-- `Prefix.Contains`: never an address of the other family, nor one with a zone. -/
def AddrBlock.contains : AddrBlock → Addr → Bool
  | .v4 p bits, .v4 ip => (ip ^^^ p) >>> (32 - bits.val) == 0
  | .v6 p bits, .v6 ip zone => zone.isEmpty && (ip ^^^ p) >>> (128 - bits.val) == 0
  | _, _ => false

/-- `Addr.Unmap`: an IPv4-mapped IPv6 address as the IPv4 address it stands for. -/
def Addr.unmap : Addr → Addr
  | .v6 ip zone => if ip >>> 32 = 0xffff then .v4 (ip.truncate 32) else .v6 ip zone
  | a => a

/-! ## Texts of addresses -/

def hexVal (b : UInt8) : Option Nat :=
  if byte '0' ≤ b ∧ b ≤ byte '9' then some (b - byte '0').toNat
  else if byte 'a' ≤ b ∧ b ≤ byte 'f' then some ((b - byte 'a').toNat + 10)
  else if byte 'A' ≤ b ∧ b ≤ byte 'F' then some ((b - byte 'A').toNat + 10)
  else none

def digitsVal (base : Nat) (s : Str) : Nat :=
  s.foldl (fun v b => v * base + (hexVal b).getD 0) 0

/-- A field of an IPv4 address: a number up to 255, without leading zeros. -/
def parseOctet (s : Str) : Option Nat :=
  if s = [] ∨ s.any (fun b => (hexVal b).all (10 ≤ ·)) ∨
      (1 < s.length ∧ s.head? = some (byte '0')) ∨ 255 < digitsVal 10 s then none
  else some (digitsVal 10 s)

def parseIPv4Fields (s : Str) : Option (List Nat) :=
  match (split (byte '.') s).mapM parseOctet with
  | some [a, b, c, d] => some [a, b, c, d]
  | _ => none

/-- The number that bytes stand for, the first one the most significant. -/
def bytesVal (bytes : List Nat) : Nat := bytes.foldl (fun v b => v * 256 + b) 0

/-- The loop of `parseIPv6`: groups of up to four digits with colons between them, one `::`, and
an IPv4 address at the end. The bytes read, and where among them the `::` was. A round reads two
bytes, so there is fuel for the rounds of a whole address. -/
def parseGroups : Nat → List Nat → Option Nat → Str → Option (List Nat × Option Nat)
  | 0, ip, ellipsis, s => if s = [] then some (ip, ellipsis) else none
  | fuel + 1, ip, ellipsis, s =>
    let digits := s.takeWhile fun b => (hexVal b).isSome
    let rest := s.dropWhile fun b => (hexVal b).isSome
    if digits = [] ∨ 4 < digits.length then none
    else if rest.head? = some (byte '.') then
      if (ellipsis = none ∧ ip.length ≠ 12) ∨ 16 < ip.length + 4 then none
      else (parseIPv4Fields s).map fun v4 => (ip ++ v4, ellipsis)
    else
      let group := digitsVal 16 digits
      let ip := ip ++ [group / 256, group % 256]
      match rest with
      | [] => some (ip, ellipsis)
      | c :: rest =>
        if c ≠ byte ':' ∨ rest = [] then none
        else if rest.head? = some (byte ':') then
          if ellipsis.isSome then none
          else if rest.tail = [] then some (ip, some ip.length)
          else parseGroups fuel ip (some ip.length) rest.tail
        else parseGroups fuel ip ellipsis rest

/-- The `::` stands for at least one group of zeros. -/
def expandEllipsis : List Nat × Option Nat → Option (List Nat)
  | (ip, some e) =>
    if ip.length < 16 then some (ip.take e ++ List.replicate (16 - ip.length) 0 ++ ip.drop e)
    else none
  | (ip, none) => if ip.length < 16 then none else some ip

/-- `parseIPv6`. A zone stands after a percent sign, and is not empty then. -/
def parseIPv6 (s : Str) : Option Addr :=
  let (s, zone) := match cut (byte '%') s with
    | some (s, zone) => (s, some zone)
    | none => (s, none)
  if zone = some [] then none
  else
    let leading := hasPrefix s (lit "::")
    let ip := if leading ∧ s.length = 2 then some ([], some 0)
      else parseGroups 8 [] (if leading then some 0 else none) (if leading then s.drop 2 else s)
    (ip.bind expandEllipsis).map fun ip => .v6 (BitVec.ofNat 128 (bytesVal ip)) (zone.getD [])

/-- `netip.ParseAddr`: the first dot, colon or percent sign decides the family. -/
def parseAddr (s : Str) : Option Addr :=
  match s.find? fun b => b == byte '.' || b == byte ':' || b == byte '%' with
  | none => none
  | some b =>
    if b = byte '.' then
      (parseIPv4Fields s).map fun ip => .v4 (BitVec.ofNat 32 (bytesVal ip))
    else if b = byte ':' then parseIPv6 s
    else none

/-- `net.SplitHostPort`: the host of a host and a port. The port stands behind the last colon; a
host with colons is in brackets. -/
def splitHostPort (s : Str) : Option Str :=
  if s.head? = some (byte '[') then
    match cut (byte ']') s with
    | some (host, rest) =>
      if rest.head? = some (byte ':') ∧ byte ':' ∉ rest.tail ∧
          byte '[' ∉ s.tail ∧ byte ']' ∉ rest then some host.tail
      else none
    | none => none
  else
    match cut (byte ':') s with
    | some (host, port) =>
      if byte ':' ∉ port ∧ byte '[' ∉ s ∧ byte ']' ∉ s then some host else none
    | none => none

/-! ## Prefixes -/

/-- `netip.ParsePrefix`: an address without a zone, and a length without leading zeros. -/
def parsePrefix (s : Str) : Option AddrBlock := do
  let (bits, addr) ← cut (byte '/') s.reverse
  let bits := bits.reverse
  guard (bits ≠ [] ∧ !bits.any (fun b => (hexVal b).all (10 ≤ ·)) ∧
    ¬ (1 < bits.length ∧ bits.head? = some (byte '0')))
  let n := digitsVal 10 bits
  match ← parseAddr addr.reverse with
  | .v4 ip => if h : n < 33 then some (.v4 ip ⟨n, h⟩) else none
  | .v6 ip zone => if h : zone = [] ∧ n < 129 then some (.v6 ip ⟨n, h.2⟩) else none

def AddrBlock.masked : AddrBlock → AddrBlock
  | .v4 ip bits => .v4 ((ip >>> (32 - bits.val)) <<< (32 - bits.val)) bits
  | .v6 ip bits => .v6 ((ip >>> (128 - bits.val)) <<< (128 - bits.val)) bits

end Cadish
