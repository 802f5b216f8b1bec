import Ant.Pkg.Extractor
import Ant.Pkg.PosixPlain
import Mathlib.Data.List.TakeWhile

/-! Well-formed package archives: members with their headers, data and padding, all below
one common first component. -/
namespace Ant.Pkg.Tarball
open Library.ByteLayout Library.ByteString Library.Effect Tar TarStream TarFeed Posix PosixPlain Extractor List

structure Member where
  header : TarHeader
  payload : Bytes
  padding : Bytes
  block : header.length = 512
  filled : TarHeader.isZero header = false
  size : TarHeader.getSize header = some payload.length
  mode : (TarHeader.getMode header).isSome
  padded : padding.length = paddingOf payload.length

variable {windows : Bool} {platform : Platform}

namespace Member

def bytes (member : Member) : Bytes := member.header ++ member.payload ++ member.padding

def kind (member : Member) : EntryType := entryType member.header

def name (member : Member) : Bytes := TarHeader.getName member.header

def isDirectory (member : Member) : Bool := TarHeader.isDirectory member.header

def rel (top : Bytes) (member : Member) : Bytes := member.name.drop (top.length + 1)

end Member

def Named (path : Bytes) : Prop := (split slash path).getLastD [] ≠ [] ∧ (split slash path).getLastD [] ≠ [dot]

instance (path : Bytes) : Decidable (Named path) := inferInstanceAs (Decidable (_ ∧ _))

structure Way (path : Bytes) (names : List Bytes) (name : Bytes) : Prop where
  whole : namesOf path = names ++ [name]
  target : targetOf path = ⟨false,(names ++ [name]).map .into⟩
  ends : path.getLast? ≠ some slash
  parent : (dirname path = none ∧ names = []) ∨ ∃ parent, dirname path = some parent ∧ namesOf parent = names ∧
    parent.head? ≠ some slash ∧ [dot,dot] ∉ split slash parent ∧ parent <+: path

theorem Way.nonempty {path : Bytes} {names : List Bytes} {name : Bytes} (way : Way path names name) : path ≠ [] := by
  rintro rfl
  exact absurd way.whole (by simp [namesOf,split])

/-- A member is a directory at the common first component itself, with or without a slash, or lies below it. -/
inductive Placed (platform : Platform) (top : Bytes) (member : Member) : Prop
  | top (directory : member.kind = .directory) (name : member.name = top ∨ member.name = top ++ [slash])
  | below (name : member.name = top ++ slash :: member.rel top)
      (valid : validatePath platform.isWindows (member.rel top) = true) (driveless : Driveless platform (member.rel top))
      (named : member.kind ≠ .directory → Named (member.rel top))

structure Archive (platform : Platform) where
  top : Bytes
  members : List Member
  named : validatePath platform.isWindows top = true ∧ Driveless platform top ∧ slash ∉ top
  placed : ∀ member ∈ members, Placed platform top member

def streamOf (members : List Member) (more : Nat) : Bytes :=
  members.flatMap Member.bytes ++ List.replicate (512 + more) 0

theorem streamOf_nil (more : Nat) : streamOf [] more = List.replicate (512 + more) 0 := rfl

theorem streamOf_cons (member : Member) (members : List Member) (more : Nat) :
    streamOf (member :: members) more = member.bytes ++ streamOf members more := by
  rw [streamOf,flatMap_cons,append_assoc]
  rfl

def Archive.stream (archive : Archive platform) (more : Nat) : Bytes := streamOf archive.members more

def pathOf (strip : StripPrefix) (member : Member) : Bytes :=
  if strip.bytes.isPrefixOf member.name then member.name.drop strip.bytes.length else member.name

def stripAt (strip : StripPrefix) (member : Member) : StripPrefix := detectPrefix strip member.header member.name

def start : StripPrefix := ⟨ascii "package/",false⟩

def entryOf (strip : StripPrefix) (member : Member) : Entry :=
  ⟨pathOf strip member,(TarHeader.getMode member.header).getD 0,member.payload.length,member.kind⟩

def refuses (windows : Bool) (strip : StripPrefix) (member : Member) : Bool :=
  (pathOf strip member).length > 0 && !validatePath windows (pathOf strip member)

theorem readEntry_member (strip : StripPrefix) (member : Member) : readEntry windows strip member.header =
      if refuses windows strip member then .error .invalidPath else .ok (entryOf strip member) := by
  obtain ⟨mode,isMode⟩ := Option.isSome_iff_exists.mp member.mode
  simp only [readEntry,member.size,isMode,entryOf]
  rfl

theorem member_block (member : Member) (rest : Bytes) :
    ¬ (member.bytes ++ rest).length < 512 ∧ (member.bytes ++ rest).take 512 = member.header ∧
      (member.bytes ++ rest).drop 512 = member.payload ++ (member.padding ++ rest) := by
  have whole : member.bytes ++ rest = member.header ++ (member.payload ++ (member.padding ++ rest)) := by
    simp [Member.bytes]
  refine ⟨?_,?_,?_⟩
  · have length := member.block
    simp only [whole,length_append]
    omega
  · rw [whole,← member.block,take_left]
  · rw [whole,← member.block,drop_left]

theorem read_member (strip : StripPrefix) (member : Member) (rest : Bytes) :
    read windows strip (member.bytes ++ rest) =
      match readEntry windows (stripAt strip member) member.header with
      | .error error => ([],.invalid error)
      | .ok entry => prepend (.entry entry (TarHeader.linkname member.header) :: member.payload.map .byte)
        (read windows (stripAt strip member) rest) := by
  obtain ⟨long,head,tail⟩ := member_block member rest
  have skipped : (member.payload ++ (member.padding ++ rest)).drop
      (member.payload.length + paddingOf member.payload.length) = rest := by
    rw [← drop_drop,drop_left,← member.padded,drop_left]
  rw [read_eq,if_neg long,head,tail,member.filled]
  rw [show detectPrefix strip member.header (TarHeader.getName member.header) = stripAt strip member from rfl,
    readEntry_member]
  cases refuses windows (stripAt strip member) member with
  | true => rfl
  | false => simp only [Bool.false_eq_true,if_false,entryOf,take_left,skipped]

theorem read_zeros (strip : StripPrefix) (more : Nat) :
    read windows strip (List.replicate (512 + more) 0) = ([],.endOfArchive (List.replicate more 0)) := by
  have long : ¬ (List.replicate (512 + more) (0 : UInt8)).length < 512 := by
    rw [length_replicate]
    omega
  have zero : TarHeader.isZero (List.replicate 512 0) = true := all_eq_true.mpr fun byte member => by
    rw [eq_of_mem_replicate member]
    rfl
  rw [read_eq,if_neg long,take_replicate,drop_replicate,Nat.min_eq_left (by omega),Nat.add_sub_cancel_left,
    if_pos zero]

/-- The archive starts with its common first component where that matters: the members before a
place have no directory, and the component is the usual one, or the first directory is it. -/
def TopFirst (top : Bytes) (before : List Member) : Prop :=
  match before.find? Member.isDirectory with
  | none => top = ascii "package"
  | some directory => directory.name.take 127 = top ∨ directory.name.take 127 = top ++ [slash]

instance (top : Bytes) (before : List Member) : Decidable (TopFirst top before) := by
  unfold TopFirst
  split <;> infer_instance

end Ant.Pkg.Tarball
