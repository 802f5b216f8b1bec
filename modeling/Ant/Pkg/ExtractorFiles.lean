import Ant.Pkg.ExtractorConfinement
import Ant.Pkg.Tarball

/-! Where the files of a well-formed archive end up: which path each of them is opened under,
and which bytes are appended to it. -/
namespace Ant.Pkg.ExtractorFiles
open Library.ByteLayout Library.ByteString Library.Effect Library.PathTree Library.LinkedTree List
open Tar TarStream TarFeed Posix PosixPlain Extractor Tarball

abbrev Log := List (Bytes × Bytes)

def appendNewest (data : Bytes) : Log → Log
  | [] => []
  | (path,sofar) :: older => (path,sofar ++ data) :: older

def recorded (platform : Platform) : Handlers Fault (Extraction × Log) where
  handleEntry entry link := fun (self,log) =>
    (((handleEntry platform entry link self).1,
      if entry.path ≠ [] ∧ entry.entryType = .file ∧ (handleEntry platform entry link self).2.isNone then (entry.path,[]) :: log
      else log),(handleEntry platform entry link self).2)
  writeFileData data := fun (self,log) =>
    (((writeFileData data self).1,if self.currentFile.isSome then appendNewest data log else log),
      (writeFileData data self).2)
  endOfArchive := fun (self,log) => (((endOfArchive platform self).1,log),(endOfArchive platform self).2)
  invalid := .extract

def written (platform : Platform) (disk : Disk) (outputDir : Location) (stream : Bytes) : List (Bytes × Bytes) :=
  (extract (recorded platform) (read platform.isWindows start stream) (init disk outputDir,[])).1.2.reverse

theorem append_nil (number : Nat) (disk : Disk) : append number [] disk = disk := by
  simp [append]

theorem append_append (number : Nat) (first second : Bytes) (disk : Disk) :
    append number second (append number first disk) = append number (first ++ second) disk := by
  simp [append]

theorem writeFileData_nil (self : Extraction) : writeFileData [] self = (self,none) := by
  unfold writeFileData
  split
  next => rfl
  next => rw [append_nil]; rfl

theorem writeFileData_append (first second : Bytes) (self : Extraction) :
    writeFileData (first ++ second) self = writeFileData second (writeFileData first self).1 := by
  unfold writeFileData
  split
  next closed => simp [closed]
  next number opened => simp [opened,append_append,Nat.add_assoc]

theorem writeFileData_succeeds (data : Bytes) (self : Extraction) : (writeFileData data self).2 = none := by
  unfold writeFileData
  split <;> rfl

theorem handlers_splits (platform : Platform) : Splits (handlers platform) := by
  refine ⟨funext writeFileData_nil,fun byte data => funext fun self => ?_⟩
  have first : (handlers platform).writeFileData [byte] self = ((writeFileData [byte] self).1,none) :=
    Prod.ext rfl (writeFileData_succeeds [byte] self)
  rw [andThen_of_ok _ _ _ _ first]
  exact writeFileData_append [byte] data self

theorem handlers_simulates (platform : Platform) :
    Simulates (fun first second => second = first) (handlers platform) (handlers platform) :=
  ⟨by rintro _ _ _ _ rfl; exact ⟨rfl,rfl⟩,by rintro _ _ _ rfl; exact ⟨rfl,rfl⟩,by rintro _ _ rfl; exact ⟨rfl,rfl⟩,rfl⟩

variable {members : List Member} {more : Nat} {member one two : Member} {entry : Entry} {self next : Extraction}
  {strip : StripPrefix} {top path : Bytes} {after : Disk} {platform : Platform} {windows : Bool}

theorem read_stop (strip : StripPrefix) {rest : Bytes}
    (stop : (read windows strip (streamOf members more)).2 = .endOfArchive rest) :
    rest = List.replicate more 0 := by
  induction members generalizing strip with
  | nil =>
    rw [streamOf_nil,read_zeros] at stop
    exact (Stop.endOfArchive.inj stop).symm
  | cons member members ih =>
    rw [streamOf_cons,read_member] at stop
    split at stop
    next => contradiction
    next => exact ih _ stop

theorem endOfArchive_again (self : Extraction) :
    endOfArchive platform (endOfArchive platform self).1 = ((endOfArchive platform self).1,none) := by
  unfold endOfArchive closeCurrentFile
  cases closed : self.currentFile with
  | none => simp
  | some number =>
    simp only [applyFileMode]
    split <;> rfl

theorem run_members {τ : Type} {view : τ → Extraction} {two : Handlers Fault τ}
    (simulates : Simulates (fun first second => view second = first) (handlers platform) two) (splits : Splits two)
    (disk : Disk) (root : Location) {chunks : List Bytes} (whole : chunks.flatten = streamOf members more) (second : τ)
    (fresh : view second = init disk root) : ∃ next, view next = (run platform disk root chunks).1.2 ∧
      extract two (read platform.isWindows start (streamOf members more)) second =
        (next,(run platform disk root chunks).2) := by
  have tokens : resume platform.isWindows (Tar.init (ascii "package/")) chunks.flatten =
      read platform.isWindows start (streamOf members more) := by
    rw [whole]
    rfl
  rw [← tokens]
  refine feedChunks_extract platform.isWindows simulates splits chunks (Tar.init (ascii "package/")) (init disk root) second
    init_valid fresh fun rest last next stop reached related => Or.inr ?_
  constructor
  · rw [tokens] at stop
    rw [read_stop start stop]
    exact all_eq_true.mpr fun byte member => by rw [eq_of_mem_replicate member]; rfl
  · obtain ⟨before,_,finished⟩ := andThen_success reached
    rw [stop] at finished
    obtain ⟨_,settled⟩ := simulates.finished (view before) before rfl
    rw [show two.endOfArchive before = (next,none) from finished] at settled
    rw [← related,settled]
    exact endOfArchive_again _

section Record

/-- The data between a file and the next one: that of the other members there. -/
def spill (members : List Member) : Bytes :=
  (members.takeWhile fun member => member.kind ≠ .file).flatMap Member.payload

end Record

section Disk
variable {root : Location} {top : Bytes}

def placeOf (top : Bytes) (member : Member) : List Bytes := namesOf (pathOf ⟨top ++ [slash],true⟩ member)

structure Holds (root : Location) (top : Bytes) (members : List Member) (state : Extraction) : Prop where
  output : state.outputDir = root
  dir : get state.disk.volume root = some .dir
  nodes : ∀ path node, path ≠ [] → get state.disk.volume (root ++ path) = some node →
    ∃ member ∈ members, path <+: placeOf top member ∧ (node ≠ .dir → placeOf top member = path ∧ member.kind ≠ .directory)
  files : ∀ member ∈ members, member.kind = .file → ∃ number,
    get state.disk.volume (root ++ placeOf top member) = some (.leaf (.file number)) ∧
    number < state.disk.nextFile ∧ state.disk.contents number = member.payload

/-- What one member may change: it adds nodes on its own path, and leaves the other files as they are. -/
structure Adds (root : Location) (top : Bytes) (member : Member) (before after : Extraction) : Prop where
  output : after.outputDir = before.outputDir
  dir : get before.disk.volume root = some .dir → get after.disk.volume root = some .dir
  nodes : ∀ path node, path ≠ [] → get after.disk.volume (root ++ path) = some node →
    get before.disk.volume (root ++ path) = some node ∨
    (path <+: placeOf top member ∧ (node ≠ .dir → placeOf top member = path ∧ member.kind ≠ .directory))
  files : ∀ place number, get before.disk.volume place = some (.leaf (.file number)) → number < before.disk.nextFile →
    get after.disk.volume place = some (.leaf (.file number)) ∧ number < after.disk.nextFile ∧
    after.disk.contents number = before.disk.contents number
  own : member.kind = .file → ∃ number, get after.disk.volume (root ++ placeOf top member) = some (.leaf (.file number)) ∧
    number < after.disk.nextFile ∧ after.disk.contents number = member.payload

theorem Holds.step (holds : Holds root top members self) (adds : Adds root top member self next) :
    Holds root top (members ++ [member]) next := by
  refine ⟨adds.output.trans holds.output,adds.dir holds.dir,?_,?_⟩
  · intro path node below present
    rcases adds.nodes path node below present with old | new
    · obtain ⟨other,inside,place⟩ := holds.nodes path node below old
      exact ⟨other,by simp [inside],place⟩
    · exact ⟨member,by simp,new⟩
  · intro other inside file
    rcases mem_append.mp inside with old | new
    · obtain ⟨number,present,bound,data⟩ := holds.files other old file
      obtain ⟨stays,below,same⟩ := adds.files _ number present bound
      exact ⟨number,stays,below,same.trans data⟩
    · rw [mem_singleton.mp new] at file ⊢
      exact adds.own file

theorem Holds.congr (holds : Holds root top members self) (next : Extraction) (output : next.outputDir = self.outputDir)
    (volume : next.disk.volume = self.disk.volume) (contents : next.disk.contents = self.disk.contents)
    (nextFile : next.disk.nextFile = self.disk.nextFile) : Holds root top members next :=
  ⟨output.trans holds.output,volume ▸ holds.dir,volume ▸ holds.nodes,by rw [volume,contents,nextFile]; exact holds.files⟩

section
variable {members : List Member} {member : Member} {self : Extraction} {names : List Bytes}

theorem grown_along {before : Disk} (grown : Grown before after)
    (others : ∀ place, (∀ part, part <+: names → place ≠ root ++ part) → get after.volume place = get before.volume place)
    {path : List Bytes} {node : Node (Leaf Bytes Nat)} (present : get after.volume (root ++ path) = some node) :
    get before.volume (root ++ path) = some node ∨ (node = .dir ∧ path <+: names) := by
  by_cases along : path <+: names
  · rcases grown.nodes (root ++ path) with same | ⟨_,directory⟩
    · exact Or.inl (same ▸ present)
    · rw [directory] at present
      exact Or.inr ⟨(Option.some.inj present).symm,along⟩
  · refine Or.inl ?_
    rw [← others _ fun part inside same => along (by rw [append_cancel_left same]; exact inside)]
    exact present

end

section Member
variable {members : List Member} {member : Member} {self : Extraction} {entry : Entry} {names : List Bytes} {name : Bytes}

/-- A new node, once the directories above it are there. -/
theorem Adds.node {parents : Disk} (free : get self.disk.volume (root ++ names ++ [name]) = none) (grown : Grown self.disk parents)
    (others : ∀ place, (∀ part, part <+: names → place ≠ root ++ part) → get parents.volume place = get self.disk.volume place)
    (place : placeOf top member = names ++ [name]) (kind : member.kind ≠ .directory) (output : next.outputDir = self.outputDir)
    (nodes : ∀ place, place ≠ root ++ names ++ [name] → get next.disk.volume place = get parents.volume place)
    (nextFile : parents.nextFile ≤ next.disk.nextFile)
    (contents : ∀ number < parents.nextFile, next.disk.contents number = parents.contents number)
    (own : member.kind = .file → ∃ number, get next.disk.volume (root ++ names ++ [name]) = some (.leaf (.file number)) ∧
      number < next.disk.nextFile ∧ next.disk.contents number = member.payload) : Adds root top member self next := by
  have kept {place : Location} {node : Node (Leaf Bytes Nat)} (present : get self.disk.volume place = some node) :
      get next.disk.volume place = some node := by
    rw [nodes place fun same => ?_]
    · exact grown.keeps present
    · rw [same,free] at present
      contradiction
  refine ⟨output,kept,?_,?_,?_⟩
  · intro path node _ present
    by_cases here : path = placeOf top member
    · exact Or.inr ⟨here ▸ prefix_refl _,fun _ => ⟨here.symm,kind⟩⟩
    · have apart : root ++ path ≠ root ++ names ++ [name] := by
        rw [append_assoc,← place]
        exact fun same => here (append_cancel_left same)
      rw [nodes _ apart] at present
      rcases grown_along grown others present with old | ⟨directory,along⟩
      · exact Or.inl old
      · exact Or.inr ⟨place ▸ along.trans (prefix_append _ _),fun leaf => absurd directory leaf⟩
  · intro other number present bound
    rw [← grown.nextFile] at bound
    exact ⟨kept present,bound.trans_le nextFile,(contents number bound).trans (by rw [grown.contents])⟩
  · rw [place,← append_assoc]
    exact own

theorem Adds.unchanged (other : member.kind ≠ .file) : Adds root top member self self :=
  ⟨rfl,id,fun _ _ _ present => Or.inl present,fun _ _ present bound => ⟨present,bound,rfl⟩,fun file => absurd file other⟩

theorem Adds.grown (other : member.kind ≠ .file) (grown : Grown self.disk after)
    (others : ∀ place, (∀ part, part <+: placeOf top member → place ≠ root ++ part) → get after.volume place = get self.disk.volume place)
    : Adds root top member self {self with disk := after} := by
  refine ⟨rfl,fun dir => grown.keeps dir,?_,?_,fun file => absurd file other⟩
  · intro path node _ present
    rcases grown_along grown others present with old | ⟨directory,along⟩
    · exact Or.inl old
    · exact Or.inr ⟨along,fun leaf => absurd directory leaf⟩
  · intro place number present bound
    exact ⟨grown.keeps present,by simpa [grown.nextFile] using bound,by simp [grown.contents]⟩

section
variable (holds : Holds root top members self)
include holds

end

end Member

/-- Of two members, one that lies at or above the other is a directory. -/
def Apart (top : Bytes) (one two : Member) : Prop :=
  (namesOf (one.rel top) <+: namesOf (two.rel top) → one.kind = .directory) ∧
  (namesOf (two.rel top) <+: namesOf (one.rel top) → two.kind = .directory)

/-- What keeps the members of an archive apart: no file or link lies at or above another member, each is read under
the strip prefix of the common first component, no data of another member comes between a file and the next one, and
nothing lies where a first component that is named without a slash is made. -/
structure Sound (archive : Archive platform) : Prop where
  apart : archive.members.Pairwise (Apart archive.top)
  stripped : ∀ before member after, archive.members = before ++ member :: after →
    TopFirst archive.top (before ++ [member])
  unspilled : ∀ before member after, archive.members = before ++ member :: after → member.kind = .file → spill after = []
  bare : ∀ directory ∈ archive.members, directory.name = archive.top → ∀ member ∈ archive.members,
    member.kind ≠ .directory → namesOf (member.rel archive.top) ≠ namesOf archive.top

section Whole
variable {archive : Archive platform}

section
variable (sound : Sound archive) (first : one ∈ archive.members) (second : two ∈ archive.members)
include sound first second

end

end Whole

end Disk

def libFile : Member := ⟨memberHeader "package/lib/a" "00000000001" 48 "",ascii "x",List.replicate 511 0,by decide +kernel,
  by decide +kernel,by decide +kernel,by decide +kernel,by decide +kernel⟩

def topDirectory : Member := ⟨memberHeader "package/" "00000000000" 53 "",[],[],by decide +kernel,by decide +kernel,
  by decide +kernel,by decide +kernel,by decide +kernel⟩

def emptyOut : Disk := ExtractorConfinement.emptyDisk (ascii "out")

/-- However the members of an archive are cut into chunks, the extractor ends with the same state and the same error. -/
theorem run_of_chunks (platform : Platform) (members : List Member) (more : Nat) (disk : Disk) (root : Location)
    (chunks : List Bytes) (whole : chunks.flatten = streamOf members more) :
    (run platform disk root chunks).1.2 = (run platform disk root [streamOf members more]).1.2 ∧
      (run platform disk root chunks).2 = (run platform disk root [streamOf members more]).2 := by
  obtain ⟨last,same,ended⟩ := run_members (handlers_simulates platform) (handlers_splits platform) disk root whole _ rfl
  obtain ⟨other,sameOther,endedOther⟩ := run_members (handlers_simulates platform) (handlers_splits platform) disk root
    (flatten_singleton ..) _ rfl
  obtain ⟨rfl,errors⟩ := Prod.mk.inj (ended.symm.trans endedOther)
  exact ⟨same.symm.trans sameOther,errors⟩

theorem run_of_two_chunks : (run .posix emptyOut [ascii "out"]
      [(streamOf [topDirectory,libFile,libFile] 0).take 9,(streamOf [topDirectory,libFile,libFile] 0).drop 9]).2 =
    (run .posix emptyOut [ascii "out"] [streamOf [topDirectory,libFile,libFile] 0]).2 :=
  (run_of_chunks .posix [topDirectory,libFile,libFile] 0 _ _ _ (by simp)).2

end Ant.Pkg.ExtractorFiles
