import Ant.Pkg.Extractor

/-! An archive that is extracted into a directory without links stays inside it, unless a path
of it names a drive of Windows: the links it makes point downwards, so no later member leaves
through them. -/
namespace Ant.Pkg.ExtractorConfinement
open Library.ByteLayout Library.ByteString Library.Effect Library.PathTree Library.LinkedTree
open Tar TarFeed Posix Extractor

variable {path : Bytes} {self : Extraction} {entry : Entry} {platform : Platform} {windows : Bool}

theorem not_up_of_segments (safe : [dot,dot] ∉ split slash path) : Descends (stepsOf path) := by
  intro member
  obtain ⟨part,present,chosen⟩ := List.mem_filterMap.mp member
  split at chosen
  next => contradiction
  next =>
    split at chosen
    next climbs => exact safe (climbs ▸ present)
    next => cases chosen

theorem validatePath_inward (path : Bytes) (valid : validatePath windows path = true) : Inward (targetOf path) := by
  obtain ⟨relative,segments⟩ := validatePath_facts valid
  exact ⟨by simpa [targetOf] using relative,not_up_of_segments segments⟩

theorem dirname_inward {parent : Bytes} (valid : validatePath platform.isWindows path = true)
    (driveless : Driveless platform path) (found : dirname path = some parent) :
    Inward (targetOf (native platform parent)) := by
  obtain ⟨relative,segments⟩ := validatePath_facts valid
  obtain ⟨rest,rfl,nonempty⟩ := dirname_append relative found
  rw [native_eq driveless.of_append]
  rw [split_append,List.mem_append,not_or] at segments
  obtain ⟨char,more,rfl⟩ := List.exists_cons_of_ne_nil nonempty
  exact ⟨by simpa [targetOf] using relative,not_up_of_segments segments.1⟩

def Inside (root : Location) (start : Disk) (self : Extraction) : Prop :=
  self.outputDir = root ∧ Confines root start self.disk

section Handlers
variable {root : Location} {start : Disk}

theorem onDisk_inside (step : Location → Action Errno Disk)
    (confines : ∀ disk, Confines root start disk → Confines root start (step root disk).1) (self : Extraction)
    (inside : Inside root start self) : Inside root start (onDisk step self).1 := by
  obtain ⟨rfl,confined⟩ := inside
  exact ⟨rfl,confines self.disk confined⟩

theorem createParent_inside (valid : validatePath platform.isWindows path = true) (driveless : Driveless platform path)
    (self : Extraction) (inside : Inside root start self) : Inside root start (createParent platform path self).1 := by
  cases found : dirname path with
  | none =>
    simp only [createParent,found]
    exact inside
  | some parent =>
    simp only [createParent,found]
    exact onDisk_inside _ (createDirPath_confines _ (dirname_inward valid driveless found)) self inside

theorem closeCurrentFile_inside (inside : Inside root start self) :
    Inside root start (closeCurrentFile platform self) := by
  have chmod : ∀ dir path mode disk, Confines root start disk → Confines root start (fchmodat dir path mode disk) := by
    intro dir path mode disk confines
    unfold fchmodat
    split
    next => exact ⟨confines.outside,confines.links,confines.touched⟩
    next => exact confines
  unfold closeCurrentFile
  split
  next => exact inside
  next =>
    unfold applyFileMode
    split
    next => exact inside
    next =>
      refine ⟨inside.1,?_⟩
      split
      next => exact chmod _ _ _ _ inside.2
      next => exact inside.2

theorem createFile_inside (valid : validatePath platform.isWindows entry.path = true)
    (driveless : Driveless platform entry.path) (inside : Inside root start self) :
    Inside root start (Extractor.createFile platform entry self).1 := by
  refine andThen_keeps (Inside root start) _ _ (createParent_inside valid driveless) ?_ _
    (closeCurrentFile_inside inside)
  intro self inside
  rw [native_eq driveless]
  split
  next => exact inside
  next disk number created =>
    obtain ⟨rfl,confines⟩ := inside
    exact ⟨rfl,createFile_confines (validatePath_inward entry.path valid) confines created⟩

theorem createSymlink_inside (valid : validatePath platform.isWindows entry.path = true)
    (driveless : Driveless platform entry.path) {target : Bytes}
    (plain : validatePath platform.isWindows target = true → Driveless platform target)
    (inside : Inside root start self) : Inside root start (createSymlink platform entry target self).1 := by
  have inward := validatePath_inward entry.path valid
  unfold createSymlink
  split
  next => exact inside
  split
  next targetValid =>
    rw [native_eq driveless,native_eq (plain targetValid)]
    refine andThen_keeps (Inside root start) _ _ (createParent_inside valid driveless) ?_ self inside
    refine andThen_keeps (Inside root start) _ _ (onDisk_inside _ ?_) (onDisk_inside _ ?_)
    · exact update_confines fun disk result => deleteFile_confines inward
    · exact update_confines fun disk result =>
        symLink_confines inward (validatePath_inward target targetValid)
  next => exact inside

/-- Neither the path of an entry nor the target of a link that is made names a drive. -/
def Plain (platform : Platform) (entry : Entry) (link : Bytes) : Prop :=
  Driveless platform entry.path ∧ (entry.path ≠ [] → entry.entryType = .symlink →
    validatePath platform.isWindows link = true → Driveless platform link)

theorem handleEntry_inside (entry : Entry) (link : Bytes) (self : Extraction) (checked : Checked platform.isWindows entry)
    (plain : Plain platform entry link) (inside : Inside root start self) :
    Inside root start (handleEntry platform entry link self).1 := by
  obtain ⟨driveless,target⟩ := plain
  unfold handleEntry
  split
  next => exact inside
  next named =>
    have valid := checked.resolve_left named
    cases kind : entry.entryType with
    | directory =>
      rw [native_eq driveless]
      exact onDisk_inside (fun dir => createDirPath dir entry.path)
        (createDirPath_confines entry.path (validatePath_inward entry.path valid)) self inside
    | file => exact createFile_inside valid driveless inside
    | symlink => exact createSymlink_inside valid driveless (target named kind) inside

theorem writeFileData_inside (data : Bytes) (self : Extraction) (inside : Inside root start self) :
    Inside root start (writeFileData data self).1 := by
  unfold writeFileData
  split
  next => exact inside
  next => exact ⟨inside.1,inside.2.outside,inside.2.links,inside.2.touched⟩

/-- The entries that an extraction comes to. -/
def entriesOf (platform : Platform) (disk : Disk) (root : Location) (chunks : List Bytes) : List (Entry × Bytes) :=
  handed platform.isWindows (handlers platform) chunks (Tar.init (ascii "package/"),Extractor.init disk root)

theorem run_inside {disk : Disk} (chunks : List Bytes) (confines : Confines root disk disk)
    (plain : ∀ pair ∈ entriesOf platform disk root chunks, Plain platform pair.1 pair.2) :
    Inside root disk (run platform disk root chunks).1.2 := by
  refine feedChunks_keeps_handed handleEntry_inside writeFileData_inside ?_ ⟨rfl,confines⟩ plain
  intro self inside
  exact closeCurrentFile_inside inside

end Handlers

/-- Everything that an extraction creates, or opens for writing, lies in the output directory; nothing outside it
changes; and what a link in it leads to, through any chain of links, lies in it too. On Windows this asks that no
path names a drive. -/
theorem extraction_confined (platform : Platform) (disk : Disk) (root : Location) (chunks : List Bytes)
    (plain : ∀ place target, root <+: place → get disk.volume place ≠ some (.leaf (.link target)))
    (driveless : ∀ pair ∈ entriesOf platform disk root chunks, Plain platform pair.1 pair.2) :
    (∀ place ∈ (run platform disk root chunks).1.2.disk.touched, place ∈ disk.touched ∨ root <+: place) ∧
    (∀ place, ¬ root <+: place → get (run platform disk root chunks).1.2.disk.volume place = get disk.volume place) ∧
    (∀ place name target reached, root <+: place →
      get (run platform disk root chunks).1.2.disk.volume (place ++ [name]) = some (.leaf (.link target)) →
      resolve (run platform disk root chunks).1.2.disk place target = .ok reached → root <+: reached.path) := by
  have start : Confines root disk disk :=
    ⟨fun _ _ => rfl,fun place target inside stored => absurd stored (plain place target inside),
      fun _ member => Or.inl member⟩
  obtain ⟨_,outside,links,touched⟩ := run_inside chunks start driveless
  refine ⟨touched,outside,?_⟩
  intro place name target reached inside stored walked
  obtain ⟨relative,down⟩ := links _ target (inside.trans (List.prefix_append _ [name])) stored
  simp only [resolve,relative,Bool.false_eq_true,if_false] at walked
  cases found : walk (run platform disk root chunks).1.2.disk.volume maxLinks place target.steps with
  | error error => simp [found,Except.mapError] at walked
  | ok other =>
    rw [found] at walked
    cases walked
    exact walk_inside links place target.steps reached inside down found

def emptyDisk (output : Bytes) : Disk := ⟨put Library.PathTree.empty [output] .dir,fun _ => [],0,[],[]⟩

theorem linkless_put {volume : Volume Bytes Nat} {path : List Bytes}
    (linkless : ∀ place target, get volume place ≠ some (.leaf (.link target))) :
    ∀ place target, get (put volume path .dir) place ≠ some (.leaf (.link target)) := by
  intro place target stored
  by_cases fits : Fits volume path
  · rw [get_put _ _ _ fits] at stored
    split at stored
    next => cases stored
    next => exact linkless place target stored
  · rw [put_of_not_fits volume _ fits] at stored
    exact linkless place target stored

theorem linkless_empty (place : Location) (target : Target Bytes) :
    get (Library.PathTree.empty : Volume Bytes Nat) place ≠ some (.leaf (.link target)) := by
  by_cases top : place = []
  · rw [top,get_root]
    simp
  · rw [get_empty top]
    simp

def throughLink : Bytes :=
  memberHeader "package/d" "00000000000" 50 "." ++ memberHeader "package/d/x" "00000000000" 48 "" ++ zeroBlock

def onDrives : Platform := .windows fun _ => []

theorem extraction_confined_through_link :
    (run onDrives (emptyDisk (ascii "out")) [ascii "out"] [throughLink]).1.2.disk.touched =
      [[ascii "out",ascii "d"],[ascii "out",ascii "x"]] ∧
    (∀ place ∈ (run onDrives (emptyDisk (ascii "out")) [ascii "out"] [throughLink]).1.2.disk.touched,
      place ∈ (emptyDisk (ascii "out")).touched ∨ [ascii "out"] <+: place) := by
  have entries : entriesOf onDrives (emptyDisk (ascii "out")) [ascii "out"] [throughLink] =
      [(⟨ascii "d/x",0o644,0,.file⟩,[]),(⟨ascii "d",0o644,0,.symlink⟩,[dot])] := by decide +kernel
  refine ⟨by decide +kernel,(extraction_confined onDrives (emptyDisk (ascii "out")) [ascii "out"] [throughLink]
    (fun place target _ => linkless_put linkless_empty place target) ?_).1⟩
  rw [entries]
  refine List.forall_mem_cons.mpr ⟨⟨fun _ => by decide,fun _ symlink => by cases symlink⟩,?_⟩
  exact List.forall_mem_singleton.mpr ⟨fun _ => by decide,fun _ _ _ _ => by decide⟩

def driveDisk : Disk := ⟨put (put Library.PathTree.empty [ascii "C:"] .dir) [ascii "C:",ascii "out"] .dir,fun _ => [],0,[],[]⟩

def drivePath : Bytes := memberHeader "package/C:/Users/evil" "00000000000" 48 "" ++ zeroBlock

/-- A path that names a drive of Windows passes the checks, and the file is made outside the output directory. -/
theorem drive_path_escapes : (∀ place target, get driveDisk.volume place ≠ some (.leaf (.link target))) ∧
    (run onDrives driveDisk [ascii "C:",ascii "out"] [drivePath]).2 = none ∧
    (run onDrives driveDisk [ascii "C:",ascii "out"] [drivePath]).1.2.disk.touched =
      [[ascii "C:",ascii "Users"],[ascii "C:",ascii "Users",ascii "evil"]] ∧
    ¬ [ascii "C:",ascii "out"] <+: [ascii "C:",ascii "Users",ascii "evil"] :=
  ⟨linkless_put (linkless_put linkless_empty),by decide +kernel,by decide +kernel,by decide⟩

end Ant.Pkg.ExtractorConfinement
