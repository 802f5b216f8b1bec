import Ant.Library.ByteLayout
import Mathlib.Data.List.TakeWhile

/-! Byte strings: literals, decimal numbers, and the slice functions of a systems
standard library as functions on lists of bytes. -/
namespace Ant.Library.ByteString
open ByteLayout List

def ascii (text : String) : Bytes := text.toList.map fun char => UInt8.ofNat char.toNat

def decimal (value : Nat) : Bytes := (Nat.toDigits 10 value).map fun char => UInt8.ofNat char.toNat

def slash : UInt8 := 47
def dot : UInt8 := 46

def untilZero (text : Bytes) : Bytes := text.takeWhile (· != 0)

def trimEnd (set text : Bytes) : Bytes := (text.reverse.dropWhile set.contains).reverse

def split (separator : UInt8) : Bytes → List Bytes
  | [] => [[]]
  | char :: rest =>
    if char = separator then [] :: split separator rest
    else match split separator rest with
      | [] => [[char]]
      | part :: parts => (char :: part) :: parts

def join (separator : Bytes) : List Bytes → Bytes
  | [] => []
  | [part] => part
  | part :: parts => part ++ separator ++ join separator parts

def dirname (path : Bytes) : Option Bytes :=
  let named := path.reverse.dropWhile (· == slash)
  match named.dropWhile (· != slash) with
  | [] => none
  | _ :: before => if before = [] then (if path.head? = some slash then some [slash] else none)
    else some before.reverse

def digit (base : Nat) (char : UInt8) : Option Nat :=
  let value := if 48 ≤ char ∧ char ≤ 57 then some (char.toNat - 48)
    else if 65 ≤ char ∧ char ≤ 90 then some (char.toNat - 55)
    else if 97 ≤ char ∧ char ≤ 122 then some (char.toNat - 87) else none
  value.filter (· < base)

/-- The digits of an integer literal below `limit`; underscores between digits are skipped. -/
def parseDigits (base limit : Nat) (negative : Bool) : Nat → Bytes → Option Nat
  | value,[] => some value
  | value,char :: rest =>
    if char = 95 then parseDigits base limit negative value rest
    else match digit base char with
      | none => none
      | some next =>
        if negative then (if next = 0 then parseDigits base limit negative 0 rest else none)
        else if value * base + next < limit then parseDigits base limit negative (value * base + next) rest
        else none

/-- `parseInt` for an unsigned type of `bits` bits: a sign is accepted, a negative value only when it is zero. -/
def parseUnsigned (bits base : Nat) (text : Bytes) : Option Nat :=
  let (negative,digits) := match text with
    | 43 :: rest => (false,rest)
    | 45 :: rest => (true,rest)
    | _ => (false,text)
  if digits = [] ∨ digits.head? = some 95 ∨ digits.getLast? = some 95 then none
  else parseDigits base (2^bits) negative 0 digits

def toUpper (char : UInt8) : UInt8 := if 97 ≤ char ∧ char ≤ 122 then char - 32 else char

def toLower (char : UInt8) : UInt8 := if 65 ≤ char ∧ char ≤ 90 then char + 32 else char

section
variable {separator : UInt8} {parts : List Bytes}

theorem untilZero_plain {text : Bytes} (plain : (0 : UInt8) ∉ text) : untilZero text = text := by
  rw [untilZero,takeWhile_eq_self_iff]
  intro char member
  rw [bne_iff_ne]
  rintro rfl
  exact plain member

theorem split_ne_nil (separator : UInt8) (text : Bytes) : split separator text ≠ [] := by
  induction text with
  | nil => simp [split]
  | cons char rest ih =>
    unfold split
    split
    next => simp
    next =>
      split
      next => simp
      next => simp

theorem split_append {separator : UInt8} {before after : Bytes} :
    split separator (before ++ separator :: after) = split separator before ++ split separator after := by
  induction before with
  | nil => simp [split]
  | cons char rest ih =>
    by_cases same : char = separator
    · simp [split,same,ih]
    · obtain ⟨part,parts,shape⟩ := exists_cons_of_ne_nil (split_ne_nil separator rest)
      simp [split,same,ih,shape]

theorem split_of_not_mem {text : Bytes} (free : separator ∉ text) : split separator text = [text] := by
  induction text with
  | nil => rfl
  | cons char rest ih =>
    obtain ⟨different,others⟩ := not_or.mp (mem_cons.not.mp free)
    simp [split,Ne.symm different,ih others]

theorem mem_of_mem_split {separator : UInt8} {text : Bytes} (part : Bytes) (inside : part ∈ split separator text) {char : UInt8}
    (member : char ∈ part) : char ∈ text ∧ char ≠ separator := by
  induction text generalizing part with
  | nil =>
    have blank : part = [] := by simpa [split] using inside
    simp [blank] at member
  | cons first rest ih =>
    rw [split] at inside
    split at inside
    next =>
      rcases mem_cons.mp inside with rfl | later
      · simp at member
      · exact ⟨mem_cons_of_mem _ (ih part later member).1,(ih part later member).2⟩
    next different =>
      obtain ⟨head,tail,parted⟩ := exists_cons_of_ne_nil (split_ne_nil separator rest)
      rw [parted] at inside ih
      rcases mem_cons.mp inside with rfl | later
      · rcases mem_cons.mp member with rfl | deeper
        · exact ⟨by simp,different⟩
        · have found := ih head (by simp) deeper
          exact ⟨mem_cons_of_mem _ found.1,found.2⟩
      · have found := ih part (mem_cons_of_mem _ later) member
        exact ⟨mem_cons_of_mem _ found.1,found.2⟩

theorem split_join (some_ : parts ≠ []) (free : ∀ part ∈ parts, separator ∉ part) :
    split separator (join [separator] parts) = parts := by
  induction parts with
  | nil => contradiction
  | cons part parts ih =>
    cases parts with
    | nil => exact split_of_not_mem (free part (by simp))
    | cons next more =>
      have rest := ih (by simp) fun other member => free other (by simp [member])
      rw [join,append_assoc,singleton_append,split_append,rest,split_of_not_mem (free part (by simp))]
      · rfl
      · simp

theorem join_cons (separator part : Bytes) (some_ : parts ≠ []) :
    join separator (part :: parts) = part ++ separator ++ join separator parts := by
  cases parts with
  | nil => contradiction
  | cons => rfl

theorem join_swap_iff (separator first second : Bytes) (parts : List Bytes) :
    join separator (first :: second :: parts) = join separator (second :: first :: parts) ↔
      first ++ separator ++ second = second ++ separator ++ first := by
  cases parts with
  | nil => rfl
  | cons part parts => simp only [join,← append_assoc,append_cancel_right_eq]

theorem join_perm {separator : Bytes} {parts others : List Bytes} (perm : parts.Perm others)
    (alike : ∀ a ∈ parts, ∀ b ∈ parts, a ++ separator ++ b = b ++ separator ++ a) :
    join separator parts = join separator others := by
  induction perm with
  | nil => rfl
  | @cons part parts others rest ih =>
    have same := ih fun a first b second => alike a (mem_cons_of_mem _ first) b (mem_cons_of_mem _ second)
    by_cases empty : parts = []
    · subst empty
      rw [rest.nil_eq]
    · have filled : others ≠ [] := fun none => empty (none ▸ rest).eq_nil
      rw [join_cons _ _ empty,join_cons _ _ filled,same]
  | swap first second parts => exact (join_swap_iff ..).mpr (alike _ (by simp) _ (by simp))
  | trans left right firstSame secondSame =>
    rw [firstSame alike,secondSame fun a first b second => alike a (left.mem_iff.mpr first) b (left.mem_iff.mpr second)]

theorem mem_join {separator : Bytes} {char : UInt8} (member : char ∈ join separator parts) :
    char ∈ separator ∨ ∃ part ∈ parts, char ∈ part := by
  induction parts with
  | nil => simp [join] at member
  | cons part parts ih =>
    cases parts with
    | nil => exact Or.inr ⟨part,by simp,member⟩
    | cons next more =>
      rw [join] at member
      · rcases mem_append.mp member with front | back
        · rcases mem_append.mp front with here | between
          · exact Or.inr ⟨part,by simp,here⟩
          · exact Or.inl between
        · exact (ih back).imp_right fun ⟨other,present,inside⟩ => ⟨other,by simp [present],inside⟩
      · simp

end

theorem dirname_append {path parent : Bytes} (relative : path.head? ≠ some slash) (found : dirname path = some parent) :
    ∃ rest, path = parent ++ slash :: rest ∧ parent ≠ [] := by
  unfold dirname at found
  simp only at found
  split at found
  next => contradiction
  next char before tail =>
    have isSlash : char = slash := by
      have stopped := head?_dropWhile_not (· != slash) (path.reverse.dropWhile (· == slash))
      rw [tail] at stopped
      simpa using stopped
    split at found
    next => exact absurd (by simp_all) relative
    next nonempty =>
      have whole := congrArg List.reverse (takeWhile_append_dropWhile (p := (· == slash)) (l := path.reverse))
      rw [← takeWhile_append_dropWhile (p := (· != slash)) (l := path.reverse.dropWhile (· == slash)),tail] at whole
      subst isSlash
      cases found
      refine ⟨((path.reverse.dropWhile (· == slash)).takeWhile (· != slash)).reverse ++
        (path.reverse.takeWhile (· == slash)).reverse,?_,by simpa using nonempty⟩
      simpa using whole.symm

end Ant.Library.ByteString
