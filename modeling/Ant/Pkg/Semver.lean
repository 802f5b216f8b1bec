import Ant.Library.ByteString

/-! Versions and constraints of `resolver.zig`. -/
namespace Ant.Pkg.Semver
open Library.ByteLayout Library.ByteString

structure Version where
  major : Nat
  minor : Nat
  patch : Nat
  prerelease : Option Bytes
  build : Option Bytes
  deriving DecidableEq,Repr

def cutAt (separator : UInt8) (text : Bytes) : Option (Bytes × Bytes) :=
  match text.span (· != separator) with
  | (before,_ :: after) => some (before,after)
  | (_,[]) => none

def parseInt (text : Bytes) : Option Nat := parseUnsigned 64 10 text

namespace Version

def parse (text : Bytes) : Option Version := do
  let text := if text.head? = some 118 then text.drop 1 else text
  let (majorText,afterMajor) ← cutAt dot text
  let major ← parseInt majorText
  let (minorText,remaining) ← cutAt dot afterMajor
  let minor ← parseInt minorText
  let (patchText,prerelease,build) := match cutAt 45 remaining with
    | some (patchText,afterPatch) =>
      match cutAt 43 afterPatch with
      | some (prerelease,build) => (patchText,some prerelease,some build)
      | none => (patchText,some afterPatch,none)
    | none =>
      match cutAt 43 remaining with
      | some (patchText,build) => (patchText,none,some build)
      | none => (remaining,none,none)
  let patch ← parseInt patchText
  return ⟨major,minor,patch,prerelease,build⟩

/-- A number of decimal digits; the build has no overflow checks, so the value wraps around. -/
def parseNumeric (text : Bytes) : Option Nat :=
  if text = [] then none
  else text.foldl (fun value char => value.bind fun value =>
    if 48 ≤ char ∧ char ≤ 57 then some ((value * 10 + (char.toNat - 48)) % 2^64) else none) (some 0)

def compareIdentifier (a b : Bytes) : Ordering :=
  match parseNumeric a,parseNumeric b with
  | some a,some b => compare a b
  | some _,none => .lt
  | none,some _ => .gt
  | none,none => compare a b

/-- The identifiers one by one; where all are equal, the longer list is greater. -/
def orderIdentifiers : List Bytes → List Bytes → Ordering
  | [],[] => .eq
  | [],_ :: _ => .lt
  | _ :: _,[] => .gt
  | a :: as,b :: bs => (compareIdentifier a b).then (orderIdentifiers as bs)

def orderPrerelease (a b : Bytes) : Ordering := orderIdentifiers (split dot a) (split dot b)

def order (a b : Version) : Ordering :=
  if a.major ≠ b.major then compare a.major b.major
  else if a.minor ≠ b.minor then compare a.minor b.minor
  else if a.patch ≠ b.patch then compare a.patch b.patch
  else match a.prerelease,b.prerelease with
    | none,none => .eq
    | none,some _ => .gt
    | some _,none => .lt
    | some a,some b => orderPrerelease a b

def format (version : Version) : Bytes :=
  decimal version.major ++ [dot] ++ decimal version.minor ++ [dot] ++ decimal version.patch ++
    (match version.prerelease with
      | some prerelease => 45 :: prerelease
      | none => [])

end Version

inductive Kind where
  | exact | caret | tilde | gte | gt | lte | lt | tag | any
  deriving DecidableEq,Repr

structure Constraint where
  kind : Kind
  version : Version
  tag : Option Bytes := none
  deriving DecidableEq,Repr

namespace Constraint

def plain (major minor patch : Nat) : Version := ⟨major,minor,patch,none,none⟩

def afterLast (pattern text : Bytes) : Option Bytes :=
  ((text.tails.filter pattern.isPrefixOf).getLast?).map (·.drop pattern.length)

def trimSpaces (text : Bytes) : Bytes := trimEnd [32] (text.dropWhile (· == 32))

def operator (text : Bytes) : Kind × Bytes :=
  match text with
  | 94 :: rest => (.caret,rest)
  | 126 :: rest => (.tilde,rest)
  | 62 :: 61 :: rest => (.gte,rest)
  | 62 :: rest => (.gt,rest)
  | 60 :: 61 :: rest => (.lte,rest)
  | 60 :: rest => (.lt,rest)
  | 61 :: rest => (.exact,rest)
  | _ => (.exact,text)

/-- Only the last alternative of a range is read, and of it only the first comparator. -/
def parse (text : Bytes) : Option Constraint :=
  if text = [] ∨ text = ascii "*" ∨ text = ascii "latest" then some ⟨.any,plain 0 0 0,none⟩
  else if text.head?.all fun first => first != 118 && (first < 48 || 57 < first) && !(ascii "^~><=").contains first then
    some ⟨.tag,plain 0 0 0,some text⟩
  else
    let alternative := match afterLast (ascii "||") text with
      | some after => trimSpaces after
      | none => text
    let (kind,remaining) := operator (alternative.takeWhile (· != 32))
    match remaining.count dot with
    | 0 =>
      match parseInt remaining with
      | none => some ⟨.any,plain 0 0 0,none⟩
      | some major => some ⟨if kind = .exact then .caret else kind,plain major 0 0,none⟩
    | 1 =>
      let numbers := (split dot remaining).map fun part => (parseInt part).getD 0
      some ⟨if kind = .exact then .tilde else kind,plain (numbers.getD 0 0) (numbers.getD 1 0) 0,none⟩
    | _ => (Version.parse remaining).map fun version => ⟨kind,version,none⟩

def satisfies (self : Constraint) (version : Version) : Bool :=
  match self.kind with
  | .any => true
  | .exact =>
    if version.major ≠ self.version.major ∨ version.minor ≠ self.version.minor ∨ version.patch ≠ self.version.patch then false
    else match self.version.prerelease,version.prerelease with
      | none,none => true
      | some wanted,some found => wanted == found
      | _,_ => false
  | .caret =>
    if version.order self.version = .lt then false
    else if 0 < self.version.major then version.major == self.version.major
    else if 0 < self.version.minor then version.major == 0 && version.minor == self.version.minor
    else version.major == 0 && version.minor == 0 && version.patch == self.version.patch
  | .tilde =>
    if version.order self.version = .lt then false
    else version.major == self.version.major && version.minor == self.version.minor
  | .gte => version.order self.version != .lt
  | .gt => version.order self.version == .gt
  | .lte => version.order self.version != .gt
  | .lt => version.order self.version == .lt
  | .tag => false

end Constraint

end Ant.Pkg.Semver
