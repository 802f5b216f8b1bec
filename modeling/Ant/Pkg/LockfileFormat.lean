import Ant.Library.ByteString
import Ant.Library.ByteLayout

/-! The records of `ant.lockb` as the extern structs of `lockfile.zig` lay them out,
and the offset arithmetic that the writer and the reader share. -/
namespace Ant.Pkg.LockfileFormat
open Library.ByteLayout Library.ByteString

def magicNumber : UInt32 := 0x504B474C
def formatVersion : UInt32 := 4

def maxIndex : UInt32 := 0xFFFFFFFF

structure StringRef where
  offset : UInt32
  len : UInt32
  deriving DecidableEq,Repr

def StringRef.empty : StringRef := ⟨0,0⟩

/-- `StringRef.slice` where `offset + len` does not leave the address width. -/
def StringRef.slice (ref : StringRef) (table : Bytes) : Bytes :=
  if ref.offset.toNat ≥ table.length then []
  else (table.take (min (ref.offset.toNat + ref.len.toNat) table.length)).drop ref.offset.toNat

structure Header where
  magic : UInt32 := magicNumber
  version : UInt32 := formatVersion
  packageCount : UInt32 := 0
  dependencyCount : UInt32 := 0
  stringTableOffset : UInt32 := 0
  stringTableSize : UInt32 := 0
  packageArrayOffset : UInt32 := 0
  dependencyArrayOffset : UInt32 := 0
  hashTableOffset : UInt32 := 0
  hashTableSize : UInt32 := 0
  platformOsHash : UInt32 := 0
  platformCpuHash : UInt32 := 0
  platformAbiHash : UInt32 := 0
  binEntryOffset : UInt32 := 0
  binEntryCount : UInt32 := 0
  disabledDependencyCount : UInt32 := 0
  platformEntryOffset : UInt32 := 0
  platformEntryCount : UInt32 := 0
  graphHash : UInt64 := 0
  resolutionHash : UInt64 := 0
  deriving DecidableEq,Repr

def Header.validate (header : Header) : Bool :=
  header.magic == magicNumber && header.version == formatVersion

structure PackageFlags where
  dev : Bool := false
  optional : Bool := false
  peer : Bool := false
  bundled : Bool := false
  hasBin : Bool := false
  hasScripts : Bool := false
  direct : Bool := false
  reserved : Bool := false
  deriving DecidableEq,Repr

def PackageFlags.toByte (flags : PackageFlags) : UInt8 :=
  UInt8.ofNat (flags.dev.toNat + 2*flags.optional.toNat + 4*flags.peer.toNat + 8*flags.bundled.toNat +
    16*flags.hasBin.toNat + 32*flags.hasScripts.toNat + 64*flags.direct.toNat + 128*flags.reserved.toNat)

def PackageFlags.ofByte (byte : UInt8) : PackageFlags :=
  let bit := fun i => byte.toNat.testBit i
  ⟨bit 0,bit 1,bit 2,bit 3,bit 4,bit 5,bit 6,bit 7⟩

theorem PackageFlags.ofByte_toByte (flags : PackageFlags) : ofByte flags.toByte = flags := by
  obtain ⟨dev,optional,peer,bundled,hasBin,hasScripts,direct,reserved⟩ := flags
  revert dev optional peer bundled hasBin hasScripts direct reserved
  decide

/-- `tail` is the four bytes that the alignment of the extern struct leaves after `file_count_bytes`. -/
structure Package where
  name : StringRef
  versionMajor : UInt64
  versionMinor : UInt64
  versionPatch : UInt64
  prerelease : StringRef
  integrity : Vector UInt8 64
  tarballUrl : StringRef
  parentPath : StringRef
  depsStart : UInt32
  depsCount : UInt32
  flags : PackageFlags
  fileCountBytes : Vector UInt8 3 := #v[0,0,0]
  tail : UInt32 := 0
  deriving DecidableEq,Repr

instance (priority := 2000) flags_exist : @NeZero Nat Zero.ofOfNat0 32 := ⟨by decide⟩

structure DependencyFlags where
  peer : Bool := false
  dev : Bool := false
  optional : Bool := false
  reserved : Fin 32 := 0
  deriving DecidableEq,Repr

def DependencyFlags.toByte (flags : DependencyFlags) : UInt8 :=
  UInt8.ofNat (flags.peer.toNat + 2*flags.dev.toNat + 4*flags.optional.toNat + 8*flags.reserved.val)

def DependencyFlags.ofByte (byte : UInt8) : DependencyFlags :=
  ⟨byte.toNat.testBit 0,byte.toNat.testBit 1,byte.toNat.testBit 2,Fin.ofNat 32 (byte.toNat / 8)⟩

theorem DependencyFlags.ofByte_toByte (flags : DependencyFlags) : ofByte flags.toByte = flags := by
  obtain ⟨peer,dev,optional,reserved⟩ := flags
  revert peer dev optional reserved
  decide

structure Dependency where
  packageIndex : UInt32
  constraint : StringRef
  flags : DependencyFlags := {}
  padding : Vector UInt8 3 := #v[0,0,0]
  deriving DecidableEq,Repr

structure HashBucket where
  nameHash : UInt32
  packageIndex : UInt32
  deriving DecidableEq,Repr

def HashBucket.empty : HashBucket := ⟨0,maxIndex⟩

structure BinEntry where
  packageIndex : UInt32
  name : StringRef
  path : StringRef
  deriving DecidableEq,Repr

structure DisabledDependency where
  parentPackageIndex : UInt32
  name : StringRef
  constraint : StringRef
  deriving DecidableEq,Repr

structure PlatformEntry where
  packageIndex : UInt32
  os : StringRef
  cpu : StringRef
  libc : StringRef
  deriving DecidableEq,Repr

def djb2Step (hash : UInt32) (char : UInt8) : UInt32 := ((hash <<< 5) + hash) + char.toUInt32

def djb2Hash (name : Bytes) : UInt32 := name.foldl djb2Step 5381

def StringRef.layout : Layout StringRef :=
  (Layout.u32.pair .u32).iso (fun (offset,len) => ⟨offset,len⟩) (fun ref => (ref.offset,ref.len)) fun _ => rfl

def Header.layout : Layout Header :=
  (Layout.u32.pair <| Layout.u32.pair <| Layout.u32.pair <| Layout.u32.pair <| Layout.u32.pair <|
    Layout.u32.pair <| Layout.u32.pair <| Layout.u32.pair <| Layout.u32.pair <| Layout.u32.pair <|
    Layout.u32.pair <| Layout.u32.pair <| Layout.u32.pair <| Layout.u32.pair <| Layout.u32.pair <|
    Layout.u32.pair <| Layout.u32.pair <| Layout.u32.pair <| Layout.u64.pair .u64).iso
    (fun (a,b,c,d,e,f,g,h,i,j,k,l,m,n,o,p,q,r,s,t) => ⟨a,b,c,d,e,f,g,h,i,j,k,l,m,n,o,p,q,r,s,t⟩)
    (fun ⟨a,b,c,d,e,f,g,h,i,j,k,l,m,n,o,p,q,r,s,t⟩ => (a,b,c,d,e,f,g,h,i,j,k,l,m,n,o,p,q,r,s,t))
    fun _ => rfl

def PackageFlags.layout : Layout PackageFlags := Layout.u8.iso ofByte toByte ofByte_toByte

def Package.layout : Layout Package :=
  (StringRef.layout.pair <| Layout.u64.pair <| Layout.u64.pair <| Layout.u64.pair <|
    StringRef.layout.pair <| (Layout.raw 64).pair <| StringRef.layout.pair <| StringRef.layout.pair <|
    Layout.u32.pair <| Layout.u32.pair <| PackageFlags.layout.pair <| (Layout.raw 3).pair .u32).iso
    (fun (a,b,c,d,e,f,g,h,i,j,k,l,m) => ⟨a,b,c,d,e,f,g,h,i,j,k,l,m⟩)
    (fun ⟨a,b,c,d,e,f,g,h,i,j,k,l,m⟩ => (a,b,c,d,e,f,g,h,i,j,k,l,m)) fun _ => rfl

def DependencyFlags.layout : Layout DependencyFlags := Layout.u8.iso ofByte toByte ofByte_toByte

def Dependency.layout : Layout Dependency :=
  (Layout.u32.pair <| StringRef.layout.pair <| DependencyFlags.layout.pair (.raw 3)).iso
    (fun (a,b,c,d) => ⟨a,b,c,d⟩) (fun ⟨a,b,c,d⟩ => (a,b,c,d)) fun _ => rfl

def HashBucket.layout : Layout HashBucket :=
  (Layout.u32.pair .u32).iso (fun (a,b) => ⟨a,b⟩) (fun ⟨a,b⟩ => (a,b)) fun _ => rfl

def BinEntry.layout : Layout BinEntry :=
  (Layout.u32.pair <| StringRef.layout.pair StringRef.layout).iso
    (fun (a,b,c) => ⟨a,b,c⟩) (fun ⟨a,b,c⟩ => (a,b,c)) fun _ => rfl

def DisabledDependency.layout : Layout DisabledDependency :=
  (Layout.u32.pair <| StringRef.layout.pair StringRef.layout).iso
    (fun (a,b,c) => ⟨a,b,c⟩) (fun ⟨a,b,c⟩ => (a,b,c)) fun _ => rfl

def PlatformEntry.layout : Layout PlatformEntry :=
  (Layout.u32.pair <| StringRef.layout.pair <| StringRef.layout.pair StringRef.layout).iso
    (fun (a,b,c,d) => ⟨a,b,c,d⟩) (fun ⟨a,b,c,d⟩ => (a,b,c,d)) fun _ => rfl

@[simp] theorem Header.layout_size : Header.layout.size = 88 := rfl
@[simp] theorem Package.layout_size : Package.layout.size = 136 := rfl
@[simp] theorem Dependency.layout_size : Dependency.layout.size = 16 := rfl
@[simp] theorem HashBucket.layout_size : HashBucket.layout.size = 8 := rfl
@[simp] theorem BinEntry.layout_size : BinEntry.layout.size = 20 := rfl
@[simp] theorem DisabledDependency.layout_size : DisabledDependency.layout.size = 20 := rfl
@[simp] theorem PlatformEntry.layout_size : PlatformEntry.layout.size = 28 := rfl

def alignUp (offset alignment : Nat) : Nat :=
  let rem := offset % alignment
  if rem = 0 then offset else offset + (alignment - rem)

variable {offset alignment : Nat}

theorem alignUp_dvd (positive : 0 < alignment) : alignment ∣ alignUp offset alignment := by
  have below := Nat.mod_lt offset positive
  simp only [alignUp]
  split
  next exact => exact Nat.dvd_of_mod_eq_zero exact
  next rest =>
    have split := Nat.div_add_mod offset alignment
    exact ⟨offset / alignment + 1,by rw [Nat.mul_add]; omega⟩

theorem le_alignUp : offset ≤ alignUp offset alignment := by
  simp only [alignUp]
  split <;> omega

theorem alignUp_of_dvd (aligned : alignment ∣ offset) : alignUp offset alignment = offset := by
  simp [alignUp,Nat.mod_eq_zero_of_dvd aligned]

end Ant.Pkg.LockfileFormat
