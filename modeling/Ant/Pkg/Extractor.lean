import Ant.Pkg.Posix
import Ant.Pkg.TarFeed

/-! `Extractor` of `extractor.zig`: the members of an archive in an output directory of the
file system, on POSIX systems and on Windows. -/
namespace Ant.Pkg.Extractor
open Library.ByteLayout Library.ByteString Library.Effect Tar TarFeed Posix

/-- On Windows every drive has a current directory. -/
inductive Platform where
  | posix
  | windows (current : Bytes → Bytes)

def Platform.isWindows : Platform → Bool
  | .posix => false
  | .windows _ => true

/-- A colon in the second place names a drive. -/
def namesDrive (path : Bytes) : Bool := path[1]? == some 58

/-- The path that the system's calls take. A drive path of Windows is not relative to the directory that it is given
with: the drives are the top of the tree, and without a slash the path goes on from the drive's current directory. -/
def native : Platform → Bytes → Bytes
  | .posix,path => path
  | .windows current,path =>
    if namesDrive path then
      let drive := (path.take 2).map toUpper
      if path[2]? = some slash then slash :: drive ++ path.drop 2
      else slash :: drive ++ slash :: current drive ++ slash :: path.drop 2
    else path

def Driveless (platform : Platform) (path : Bytes) : Prop := platform.isWindows = true → namesDrive path = false

theorem native_eq {platform : Platform} {path : Bytes} (driveless : Driveless platform path) : native platform path = path := by
  cases platform with
  | posix => rfl
  | windows current => simp [native,driveless rfl]

theorem Driveless.of_append {platform : Platform} {path rest : Bytes} (driveless : Driveless platform (path ++ rest)) : Driveless platform path := by
  intro onWindows
  have free := driveless onWindows
  simp only [namesDrive,beq_eq_false_iff_ne] at free ⊢
  intro colon
  have inside : 1 < path.length := (List.getElem?_eq_some_iff.mp colon).1
  exact free ((List.getElem?_append_left inside).trans colon)

inductive Fault where
  | extract (error : ExtractError)
  | system (errno : Errno)
  deriving DecidableEq,Repr

/-- `currentFile` is the number of the open file; an empty `currentFilePath` means that no mode is due. -/
structure Extraction where
  disk : Disk
  outputDir : Location
  currentFile : Option Nat
  currentFilePath : Bytes
  currentFileMode : Nat
  filesExtracted : Nat
  bytesExtracted : Nat
  archiveFinished : Bool

def init (disk : Disk) (outputDir : Location) : Extraction := ⟨disk,outputDir,none,[],0o644,0,0,false⟩

def onDisk (step : Location → Action Errno Disk) : Action Fault Extraction := fun self =>
  ({self with disk := (step self.outputDir self.disk).1},(step self.outputDir self.disk).2.map .system)

section
variable (platform : Platform)

/-- Executable files get their mode by name, once they are closed; not on Windows. -/
def applyFileMode (self : Extraction) : Extraction :=
  if self.currentFilePath = [] then self else
  let disk := if !platform.isWindows ∧ self.currentFileMode &&& 0o111 ≠ 0 then
      fchmodat self.outputDir self.currentFilePath (self.currentFileMode &&& 0o777) self.disk
    else self.disk
  {self with disk := disk, currentFilePath := []}

def closeCurrentFile (self : Extraction) : Extraction :=
  match self.currentFile with
  | none => self
  | some _ => {applyFileMode platform self with currentFile := none}

def createParent (path : Bytes) : Action Fault Extraction :=
  match dirname path with
  | none => done
  | some parent => onDisk fun dir => createDirPath dir (native platform parent)

def createFile (entry : Entry) : Action Fault Extraction := fun self =>
  andThen (createParent platform entry.path) (fun self =>
    let alreadyExists := access self.disk self.outputDir (native platform entry.path)
    match Posix.createFile self.outputDir (native platform entry.path) self.disk with
    | .error errno => (self,some (.system errno))
    | .ok (disk,number) =>
      ({self with
        disk := disk
        currentFile := some number
        currentFilePath := entry.path.take 256
        currentFileMode := entry.mode
        filesExtracted := if alreadyExists then self.filesExtracted else self.filesExtracted + 1},none))
    (closeCurrentFile platform self)

def createSymlink (entry : Entry) (target : Bytes) : Action Fault Extraction :=
  if entry.path = [] ∨ target = [] then done else
  if validatePath platform.isWindows target then
    andThen (createParent platform entry.path)
      (andThen (onDisk fun dir => attempt (update (deleteFile dir (native platform entry.path))))
        (onDisk fun dir => update (symLink dir (native platform target) (native platform entry.path))))
  else fail (.extract .invalidPath)

/-- Errors of directories and links are ignored. -/
def handleEntry (entry : Entry) (link : Bytes) : Action Fault Extraction :=
  if entry.path = [] then done else
  match entry.entryType with
  | .directory => attempt (onDisk fun dir => createDirPath dir (native platform entry.path))
  | .file => createFile platform entry
  | .symlink => attempt (createSymlink platform entry link)

def writeFileData (data : Bytes) : Action Fault Extraction := fun self =>
  match self.currentFile with
  | none => (self,none)
  | some number =>
    ({self with disk := append number data self.disk, bytesExtracted := self.bytesExtracted + data.length},none)

def endOfArchive : Action Fault Extraction := fun self =>
  (closeCurrentFile platform {self with archiveFinished := true},none)

def handlers : Handlers Fault Extraction := ⟨handleEntry platform,writeFileData,endOfArchive platform,.extract⟩

def run (disk : Disk) (outputDir : Location) (chunks : List Bytes) : (TarParser × Extraction) × Option Fault :=
  feedChunks platform.isWindows (handlers platform) chunks (Tar.init (ascii "package/"),init disk outputDir)

end

end Ant.Pkg.Extractor
