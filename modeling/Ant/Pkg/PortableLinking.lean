import Ant.Pkg.PackageGraph

/-! One package after the other: what `linkPackage` does to the project's `node_modules`. -/
namespace Ant.Pkg.PortableLinking
open Library.ByteLayout Library.ByteString Library.Effect Library.PathTree Storage StorageSpec StorageNames List
open PortableLinker PackageGraph

structure Project where
  linker : StorageLinker
  modules : Path
  some_ : modules ≠ []
  clean : ∀ part ∈ modules, Clean part
  named : linker.nodeModulesPath = text modules

namespace Project
variable (project : Project)

def target (pkg : Package) : Path := project.modules ++ pkg.place

def owned (name : String) : Path := project.modules ++ [ascii name]

def bins : Path := project.owned ".bin"

def Current (store : Store) (pkg : Package) : Prop := upToDate project.linker store pkg.link = .ok true

def Announces (pkg : Package) (place : Path) : Prop :=
  pkg.above = [] ∧ pkg.hasBin = true ∧
    ∃ bin ∈ pkg.bins, binIsSafe bin = true ∧ normalizeRelative (binPath project.linker bin) = .ok place

def Named (pkg : Package) : Prop :=
  pkg.above = [] → pkg.hasBin = true → ∀ bin ∈ pkg.bins, binIsSafe bin = true →
    ∃ place, normalizeRelative (binPath project.linker bin) = .ok place

structure Relinked (pkg : Package) (store next : Store) : Prop where
  copied : ∃ origin, normalizeRelative pkg.cachePath = .ok origin ∧ get project.linker.source origin = some .dir ∧
    ∀ rest, get next (project.target pkg ++ rest) = get project.linker.source (origin ++ rest)
  kept : ∀ place, ¬ project.target pkg <+: place → ¬ project.bins <+: place →
    Kept store next (project.target pkg) place
  commands : ∀ place, project.bins <+: place → (HasFile next place ↔ HasFile store place ∨ project.Announces pkg place)
  named : project.Named pkg

end Project

section Places
variable (project : Project)

theorem packagePath_head {rel : Path} (shape : PackagePath rel) :
    ∃ head rest, rel = head :: rest ∧ head ≠ ascii ".bin" ∧ head ≠ ascii ".ant" := by
  have first : ∀ parts, IsPackageName parts → ∃ head rest, parts = head :: rest ∧ head ≠ ascii ".bin" ∧ head ≠ ascii ".ant" := by
    intro parts shape
    match parts,shape with
    | [base],plain => exact ⟨base,[],rfl,plain.2⟩
    | [scope,base],isScope =>
      refine ⟨scope,[base],rfl,?_,?_⟩
      all_goals
        rintro rfl
        simp [IsPackageName,ascii] at isScope
  cases shape with
  | last parts shape => exact first _ shape
  | nested parts below shape inner =>
    obtain ⟨head,rest,rfl,apart⟩ := first parts shape
    exact ⟨head,rest ++ nodeModules :: below,rfl,apart⟩

theorem packagePath_apart (rel rest : Path) (shape : PackagePath rel) (name : Bytes) (owned : name = ascii ".bin" ∨ name = ascii ".ant") :
    ¬ rel <+: name :: rest ∧ ¬ [name] <+: rel := by
  obtain ⟨head,tail,rfl,notBin,notAnt⟩ := packagePath_head shape
  constructor
  all_goals
    rintro ⟨more,same⟩
    rcases owned with rfl | rfl
    · simp_all
    · simp_all

theorem place_packagePath (pkg : Package) : PackagePath pkg.place := relative_packagePath pkg.chain_ne_nil

theorem target_clean (pkg : Package) : ∀ part ∈ project.target pkg, Clean part := by
  intro part member
  rcases mem_append.mp member with above | inside
  · exact project.clean part above
  · exact pkg.place_clean part inside

theorem installPath_target (pkg : Package) : installPath project.linker pkg.link = text (project.target pkg) :=
  installPath_link project.some_ project.clean project.named

theorem target_ne_nil {pkg : Package} : project.target pkg ≠ [] := by
  simp [Project.target,project.some_]

theorem child_clean (name : Bytes) (clean : Clean name) : ∀ part ∈ project.modules ++ [name], Clean part := by
  intro part member
  rcases mem_append.mp member with above | last
  · exact project.clean part above
  · rwa [mem_singleton.mp last]

theorem join_child {name : Bytes} (clean : Clean name) :
    Storage.join project.linker.nodeModulesPath name = text (project.modules ++ [name]) := by
  rw [project.named,← join_text _ _ project.clean (by simpa using clean) project.some_ (by simp)]
  rfl

theorem bin_clean : Clean (ascii ".bin") := by decide +kernel

theorem ant_clean : Clean (ascii ".ant") := by decide +kernel

theorem bins_clean : ∀ part ∈ project.bins, Clean part := child_clean project _ bin_clean

theorem binPath_text (bin : PackageBin) : binPath project.linker bin = text project.bins ++ slash :: bin.name := by
  have separated : ascii "/.bin/" = slash :: (ascii ".bin" ++ [slash]) := by decide
  rw [Project.bins,Project.owned,text_append _ _ project.some_ (by simp),binPath,project.named,separated]
  simp [text,Library.ByteString.join]

theorem binIsSafe_name {bin : PackageBin} (safe : binIsSafe bin = true) : ∀ char ∈ bin.name, isSeparator char = false := by
  intro char member
  rw [binIsSafe,Bool.and_eq_true] at safe
  have parts := safe.2
  simp only [Bool.not_eq_true',Bool.or_eq_false_iff,contains_eq_mem,decide_eq_false_iff_not] at parts
  rw [isSeparator,Bool.or_eq_false_iff]
  constructor
  · simpa using fun same : char = slash => parts.1.1.1 (same ▸ member)
  · simpa using fun same : char = 92 => parts.1.1.2 (same ▸ member)

theorem bin_place {bin : PackageBin} (safe : binIsSafe bin = true) {place : Path}
    (ok : normalizeRelative (binPath project.linker bin) = .ok place) : project.bins <+: place := by
  rw [binPath_text] at ok
  rcases normalizeRelative_child (bins_clean project) (by simp [Project.bins,Project.owned])
    (binIsSafe_name safe) ok with rfl | ⟨last,rfl⟩
  · exact prefix_refl _
  · exact prefix_append _ _

end Places

section Step
variable (project : Project)

theorem writeBin_get {pkg : PackageLink} {bin : PackageBin} (safe : binIsSafe bin = true) {store next : Store}
    (ok : lift (write (binPath project.linker bin) (binScript pkg bin) true) store = (next,none)) :
    (∀ place, ¬ project.bins <+: place → Kept store next project.bins place) ∧
    (∀ place, HasFile next place ↔ HasFile store place ∨ normalizeRelative (binPath project.linker bin) = .ok place) ∧
    ∃ place, normalizeRelative (binPath project.linker bin) = .ok place := by
  obtain ⟨entry,normal,written⟩ := prepare_success (mapError_success ok)
  obtain ⟨file,elsewhere⟩ := fileWrite_get _ _ store next entry (update_success written)
  have inside := bin_place project safe normal
  refine ⟨?_,?_,entry,normal⟩
  · intro place outside
    have different : place ≠ entry := fun same => outside (same ▸ inside)
    refine (kept_grown store next entry place (elsewhere place different)).mono fun above => ?_
    rcases prefix_or_prefix_of_prefix above inside with before | after
    · exact before
    · exact absurd after outside
  · intro place
    by_cases here : place = entry
    · subst here
      exact iff_of_true file (Or.inr normal)
    · rw [hasFile_grown store next entry place (elsewhere place here),normal]
      simp [Ne.symm here]

theorem writeBins_get (pkg : PackageLink) (bins : List PackageBin) (safe : ∀ bin ∈ bins, binIsSafe bin = true)
    (store next : Store)
    (ok : forEach (fun bin => lift (write (binPath project.linker bin) (binScript pkg bin) true)) bins store = (next,none)) :
    (∀ place, ¬ project.bins <+: place → Kept store next project.bins place) ∧ (∀ place, HasFile next place ↔
      HasFile store place ∨ ∃ bin ∈ bins, normalizeRelative (binPath project.linker bin) = .ok place) ∧
    ∀ bin ∈ bins, ∃ place, normalizeRelative (binPath project.linker bin) = .ok place := by
  induction bins generalizing store with
  | nil =>
    cases ok
    exact ⟨fun _ _ => Or.inl rfl,by simp,by simp⟩
  | cons bin bins ih =>
    obtain ⟨middle,first,rest⟩ := andThen_success ok
    obtain ⟨keptFirst,filesFirst,namedFirst⟩ := writeBin_get project (safe bin (by simp)) first
    obtain ⟨keptRest,filesRest,namedRest⟩ := ih (fun other member => safe other (by simp [member])) middle rest
    refine ⟨fun place outside => (keptFirst place outside).trans (keptRest place outside),fun place => ?_,?_⟩
    · rw [filesRest,filesFirst,or_assoc]
      simp
    · rintro other member
      rcases mem_cons.mp member with rfl | later
      · exact namedFirst
      · exact namedRest other later

theorem checkCount_success {linker : StorageLinker} {pkg : PackageLink} {store next : Store}
    (ok : checkCount linker pkg store = (next,none)) : next = store := by
  unfold checkCount at ok
  split at ok
  next => cases ok
  next =>
    split at ok
    next => cases ok
    next =>
      cases ok
      rfl

theorem attemptRemove_get (path : Path) (clean : ∀ part ∈ path, Clean part) (some_ : path ≠ []) (store next : Store)
    (ok : attempt (lift (remove (text path))) store = (next,none)) (place : Path) :
    get next place = if path <+: place then none else get store place := by
  have removed := removed_get store path place
  have same : next = (update (fileRemove · path) store).1 := by
    rw [attempt,lift,remove,prepare_text clean] at ok
    exact (congrArg Prod.fst ok).symm
  have below : place ≠ [] ∧ path <+: place ↔ path <+: place := by
    refine and_iff_right_of_imp fun inside => ?_
    rintro rfl
    exact some_ (prefix_nil.mp inside)
  simpa only [same,below] using removed

section
variable (pkg : Package) (store next : Store)
include pkg store next

theorem copyTarget_get (free : get store (project.target pkg) = none)
    (ok : lift (copyBetween project.linker.source pkg.cachePath (installPath project.linker pkg.link)) store = (next,none)) :
    ∃ origin, normalizeRelative pkg.cachePath = .ok origin ∧
      (∀ rest, get next (project.target pkg ++ rest) = get project.linker.source (origin ++ rest)) ∧
      ∀ place, ¬ project.target pkg <+: place → get next place = grown store (project.target pkg) place := by
  have copied := mapError_success ok
  cases normal : normalizeRelative pkg.cachePath with
  | error error => simp [copyBetween,copyFrom,normal,fail] at copied
  | ok origin =>
    simp only [copyBetween,copyFrom,normal,installPath_target,prepare_text (target_clean project pkg)] at copied
    split at copied
    next => cases copied
    next => cases copied
    next => exact ⟨origin,rfl,fileCopy_get project.linker.source origin (project.target pkg) pathMax store next free copied⟩

theorem relink_spec (origin : Path) (normal : normalizeRelative pkg.cachePath = .ok origin)
    (isDir : get project.linker.source origin = some .dir)
    (ok : andThen (attempt (lift (remove (installPath project.linker pkg.link)))) (andThen (lift (copyBetween project.linker.source pkg.cachePath (installPath project.linker pkg.link))) (andThen (checkCount project.linker pkg.link) (if pkg.link.parentPath = none ∧ pkg.link.hasBin then writeBins project.linker pkg.link else done))) store = (next,none))
    : project.Relinked pkg store next := by
  obtain ⟨removed,removing,afterRemoval⟩ := andThen_success ok
  obtain ⟨copied,copying,afterCopy⟩ := andThen_success afterRemoval
  obtain ⟨counted,counting,writing⟩ := andThen_success afterCopy
  obtain rfl := checkCount_success counting
  rw [installPath_target] at removing
  have gone := attemptRemove_get (project.target pkg) (target_clean project pkg) (target_ne_nil project) store removed removing
  have free : get removed (project.target pkg) = none := by
    rw [gone,if_pos (prefix_refl _)]
  obtain ⟨_,again,content,elsewhere⟩ := copyTarget_get project pkg removed counted free copying
  obtain rfl := Except.ok.inj (normal.symm.trans again)
  have before : ∀ place, ¬ project.target pkg <+: place → get counted place = grown store (project.target pkg) place := by
    intro place outside
    rw [elsewhere place outside,grown,grown,gone,if_neg outside]
  have apart := packagePath_apart pkg.place
  -- the commands are written to `.bin`, which no package's directory contains
  have commands : (∀ place, ¬ project.bins <+: place → Kept counted next project.bins place) ∧
      (∀ place, project.bins <+: place → (HasFile next place ↔ HasFile counted place ∨ project.Announces pkg place)) ∧
      project.Named pkg := by
    have top : pkg.link.parentPath = none ↔ pkg.above = [] := by simp [Package.link]
    split at writing
    next announced =>
      obtain ⟨kept,files,named⟩ := writeBins_get project pkg.link (pkg.bins.filter binIsSafe)
        (fun bin member => (mem_filter.mp member).2) counted next writing
      refine ⟨kept,fun place _ => ?_,fun _ _ bin member safe => named bin (mem_filter.mpr ⟨member,safe⟩)⟩
      rw [files,Project.Announces,← top]
      have hasBin : pkg.hasBin = true := announced.2
      simp [announced.1,hasBin,and_assoc]
    next silent =>
      cases writing
      refine ⟨fun _ _ => Or.inl rfl,fun place _ => ?_,fun isTop hasBin => absurd ⟨top.mpr isTop,hasBin⟩ silent⟩
      have none_ : ¬ project.Announces pkg place := fun found => silent ⟨top.mpr found.1,found.2.1⟩
      simp [none_]
  constructor
  · refine ⟨origin,normal,isDir,fun rest => ?_⟩
    have outside : ¬ project.bins <+: project.target pkg ++ rest := by
      rw [Project.bins,Project.owned,Project.target,append_assoc,prefix_append_right_inj]
      intro inside
      obtain ⟨head,tail,spelled,notBin,_⟩ := packagePath_head (place_packagePath pkg)
      rw [spelled] at inside
      obtain ⟨_,same⟩ := inside
      exact notBin (List.cons.inj same).1.symm
    rcases commands.1 _ outside with same | ⟨_,_,above⟩
    · rw [same,content]
    · have shorter : project.target pkg <+: project.bins := (prefix_append _ _).trans above
      rw [Project.bins,Project.owned,Project.target,prefix_append_right_inj] at shorter
      exact absurd shorter (apart [] (place_packagePath pkg) _ (Or.inl rfl)).1
  · intro place outside notBin
    have first := kept_grown store counted (project.target pkg) place (before place outside)
    refine first.trans ((commands.1 place notBin).mono fun above => ?_)
    rcases prefix_concat_iff.mp above with whole | inModules
    · exact absurd (whole ▸ prefix_refl _) notBin
    · exact inModules.trans (prefix_append _ _)
  · intro place inside
    have outside : ¬ project.target pkg <+: place := by
      intro below
      obtain ⟨rest,rfl⟩ := inside
      rw [Project.bins,Project.owned,Project.target,append_assoc,prefix_append_right_inj] at below
      exact (apart rest (place_packagePath pkg) _ (Or.inl rfl)).1 below
    rw [commands.2.1 place inside,hasFile_grown store counted _ place (before place outside)]
  · exact commands.2.2

theorem linkPackage_cases (ok : linkPackage project.linker pkg.link store = (next,none)) :
    (project.Current store pkg ∧ next = store) ∨ (¬ project.Current store pkg ∧ project.Relinked pkg store next) := by
  unfold linkPackage at ok
  split at ok
  next => cases ok
  next stated =>
    split at ok
    next => cases ok
    next current =>
      cases ok
      exact Or.inl ⟨current,rfl⟩
    next stale =>
      refine Or.inr ⟨fun current => by simp [stale,Project.Current] at current,?_⟩
      unfold stat at stated
      split at stated
      next => cases stated
      next origin normal =>
        exact relink_spec project pkg store next origin normal (fileStat_some stated) ok
  next => cases ok

end

end Step

section Freshness
variable {project : Project}

section
variable (store : Store) (pkg : Package)
include store pkg

theorem readVersion_target :
    readVersion project.linker store (installPath project.linker pkg.link) =
      match get store (project.target pkg ++ [ascii "package.json"]) with
      | some (.leaf data) => project.linker.versionOf data
      | _ => none := by
  have json : Clean (ascii "package.json") := by decide +kernel
  have clean : ∀ part ∈ project.target pkg ++ [ascii "package.json"], Clean part := by
    intro part member
    rcases mem_append.mp member with above | last
    · exact target_clean project pkg part above
    · rwa [mem_singleton.mp last]
  have joined : Storage.join (installPath project.linker pkg.link) (ascii "package.json") =
      text (project.target pkg ++ [ascii "package.json"]) := by
    rw [installPath_target,← join_text _ _ (target_clean project pkg) (by simpa using json) (target_ne_nil project) (by simp)]
    rfl
  rw [readVersion,Storage.read.eq_def,stat,joined,normalizeRelative_text clean]
  simp only [fileStat]
  cases found : get store (project.target pkg ++ [ascii "package.json"]) with
  | none =>
    generalize List.any _ _ = below
    cases below <;> rfl
  | some node => cases node <;> rfl

theorem countFiles_target (present : get store (project.target pkg) = some .dir) :
    countFiles store (installPath project.linker pkg.link) =
      .ok (min (leafCount store (project.target pkg)) (2^32 - 1)) := by
  rw [countFiles,installPath_target,normalizeRelative_text (target_clean project pkg)]
  simp [fileStat,present]

theorem readVersion_present {version : Bytes}
    (found : readVersion project.linker store (installPath project.linker pkg.link) = some version) :
    get store (project.target pkg) = some .dir := by
  rw [readVersion_target] at found
  split at found
  next data file => exact get_above store (project.target pkg) [ascii "package.json"] (by simp) (by simp [file])
  next => cases found

theorem current_present (current : project.Current store pkg) : get store (project.target pkg) = some .dir := by
  unfold Project.Current upToDate at current
  split at current
  next source destination _ installed => exact readVersion_present store pkg installed
  next => cases current

end

theorem current_congr {one two : Store} {pkg : Package}
    (same : ∀ rest, get one (project.target pkg ++ rest) = get two (project.target pkg ++ rest)) :
    project.Current one pkg ↔ project.Current two pkg := by
  have versions : readVersion project.linker one (installPath project.linker pkg.link) =
      readVersion project.linker two (installPath project.linker pkg.link) := by
    rw [readVersion_target,readVersion_target,same]
  have whole : upToDate project.linker one pkg.link = upToDate project.linker two pkg.link := by
    unfold upToDate
    rw [versions]
    split
    next source destination cached installed =>
      have present := readVersion_present two pkg installed
      have presentOne : get one (project.target pkg) = some .dir := by
        have here := same []
        rwa [append_nil,present] at here
      rw [countFiles_target one pkg presentOne,countFiles_target two pkg present,
        leafCount_congr (by rintro _ ⟨rest,rfl⟩; exact same rest)]
    next => rfl
  rw [Project.Current,whole,Project.Current]

end Freshness

end Ant.Pkg.PortableLinking
