import Ant.Pkg.PortablePhases
import Ant.Pkg.PortableProgress

/-! A whole portable installation: which commands and which packages are there afterwards,
for every project it starts from. -/
namespace Ant.Pkg.PortableInstall
open Library.ByteLayout Library.ByteString Library.Effect Library.PathTree Storage StorageSpec StorageNames List
open PortableLinker PackageGraph PortableLinking PortableProgress PortablePhases

def links (graph : Graph) : List PackageLink := graph.packages.map (·.link)

def topLevelNames (graph : Graph) : List Bytes := ((links graph).filter (·.parentPath == none)).map (·.name)

variable {parts rel : Path} {expected : List Bytes}

theorem mem_topLevelNames (graph : Graph) (clean : ∀ part ∈ parts, Clean part) :
    text parts ∈ topLevelNames graph ↔ ∃ pkg ∈ graph.packages, pkg.above = [] ∧ pkg.place = parts := by
  have single : ∀ pkg : Package, pkg.above = [] → pkg.place = pkg.name.parts := by
    intro pkg top
    simp [Package.place,Package.chain,top,relative]
  constructor
  · intro member
    obtain ⟨_,filtered,same⟩ := mem_map.mp member
    obtain ⟨present,isTop⟩ := mem_filter.mp filtered
    obtain ⟨pkg,inside,rfl⟩ := mem_map.mp present
    have top : pkg.above = [] := by simpa [Package.link] using isTop
    have spelled := congrArg normalizeRelative same
    rw [normalizeRelative_text clean] at spelled
    have name : normalizeRelative pkg.link.name = .ok pkg.name.parts := normalizeRelative_text pkg.name.clean
    rw [name] at spelled
    exact ⟨pkg,inside,top,(single pkg top).trans (Except.ok.inj spelled)⟩
  · rintro ⟨pkg,inside,top,rfl⟩
    refine mem_map.mpr ⟨pkg.link,mem_filter.mpr ⟨mem_map.mpr ⟨pkg,inside,rfl⟩,?_⟩,?_⟩
    · simp [Package.link,top]
    · rw [single pkg top]
      rfl

section Tidiness
variable (linker : StorageLinker) (cacheTidy : Tidy linker.source)

theorem setNodeModulesPath_tidy (store : Store) (tidy : Tidy store) : Tidy (setNodeModulesPath linker store).1 :=
  andThen_keeps Tidy _ _ (mapError_keeps Tidy mkdirs_tidy) (mapError_keeps Tidy mkdirs_tidy) store tidy

theorem clearOwned_tidy (store : Store) (tidy : Tidy store) : Tidy (clearOwned linker store).1 :=
  andThen_keeps Tidy _ _ (attempt_keeps Tidy (mapError_keeps Tidy remove_tidy))
    (andThen_keeps Tidy _ _ (attempt_keeps Tidy (mapError_keeps Tidy remove_tidy))
      (mapError_keeps Tidy mkdirs_tidy)) store tidy

theorem checkCount_tidy {pkg : PackageLink} (store : Store) (tidy : Tidy store) : Tidy (checkCount linker pkg store).1 := by
  unfold checkCount
  split
  next => exact tidy
  next => split <;> exact tidy

include cacheTidy in
theorem linkPackage_tidy (pkg : PackageLink) (store : Store) (tidy : Tidy store) : Tidy (linkPackage linker pkg store).1 := by
  unfold linkPackage
  split
  next => exact tidy
  next =>
    split
    next => exact tidy
    next => exact tidy
    next =>
      refine andThen_keeps Tidy _ _ (attempt_keeps Tidy (mapError_keeps Tidy remove_tidy))
        (andThen_keeps Tidy _ _ (mapError_keeps Tidy (copyBetween_tidy cacheTidy))
          (andThen_keeps Tidy _ _ (checkCount_tidy linker) ?_)) store tidy
      intro store tidy
      split
      next => exact forEach_keeps Tidy _ _ (fun bin _ => mapError_keeps Tidy write_tidy) store tidy
      next => exact tidy
  next => exact tidy

theorem pruneScope_tidy {path scope : Bytes} {store : Store} (tidy : Tidy store) :
    Tidy (pruneScope expected path scope store).1 := by
  unfold pruneScope
  split
  next => exact tidy
  next entries _ =>
    refine andThen_keeps Tidy _ _ (forEach_keeps Tidy _ entries ?_) ?_ store tidy
    · intro entry _ store tidy
      split
      next => exact mapError_keeps Tidy remove_tidy store tidy
      next => exact tidy
    · intro store tidy
      split
      next => exact mapError_keeps Tidy remove_tidy store tidy
      next => exact tidy

theorem prune_tidy (store : Store) (tidy : Tidy store) : Tidy (pruneStaleTopLevelPackages linker expected store).1 := by
  unfold pruneStaleTopLevelPackages
  split
  next => exact tidy
  next entries _ =>
    refine forEach_keeps Tidy _ entries (fun entry _ store tidy => ?_) store tidy
    split
    next => exact tidy
    next =>
      split
      next => exact pruneScope_tidy tidy
      next =>
        split
        next => exact tidy
        next => exact mapError_keeps Tidy remove_tidy store tidy

theorem writeRecords_tidy {records : Records} (store : Store) (tidy : Tidy store) : Tidy (writeRecords linker records store).1 :=
  andThen_keeps Tidy _ _ (mapError_keeps Tidy write_tidy) (mapError_keeps Tidy write_tidy) store tidy

include cacheTidy in
theorem portableInstall_tidy (packages : List PackageLink) (records : Records) (store : Store) (tidy : Tidy store) :
    Tidy (portableInstall linker packages records store).1 :=
  andThen_keeps Tidy _ _ (setNodeModulesPath_tidy linker) (andThen_keeps Tidy _ _ (clearOwned_tidy linker)
    (andThen_keeps Tidy _ _ (forEach_keeps Tidy _ _ fun link _ => linkPackage_tidy linker cacheTidy link)
      (andThen_keeps Tidy _ _ (prune_tidy linker) (writeRecords_tidy linker)))) store tidy

end Tidiness

section Run
variable (project : Project) (graph : Graph) (records : Records) (store final : Store)

structure Phases where
  start : Store
  linked : Store
  pruned : Store
  kept : ∀ place, ¬ project.bins <+: place → ¬ project.owned ".ant" <+: place → Kept store start project.bins place
  noCommands : ∀ place, project.bins <+: place → ¬ HasFile start place
  linking : forEach (linkPackage project.linker) (sortLinks (links graph)) start = (linked,none)
  pruning : pruneStaleTopLevelPackages project.linker (topLevelNames graph) linked = (pruned,none)
  recording : writeRecords project.linker records pruned = (final,none)
  tidy : Tidy store → Tidy project.linker.source → Tidy linked

theorem install_phases (ok : portableInstall project.linker (links graph) records store = (final,none)) :
    Nonempty (Phases project graph records store final) := by
  obtain ⟨made,making,afterMaking⟩ := andThen_success ok
  obtain ⟨start,clearing,afterClearing⟩ := andThen_success afterMaking
  obtain ⟨linked,linking,afterLinking⟩ := andThen_success afterClearing
  obtain ⟨pruned,pruning,recording⟩ := andThen_success afterLinking
  obtain ⟨kept,empty⟩ := clearOwned_get clearing
  refine ⟨⟨start,linked,pruned,?_,empty,linking,pruning,recording,?_⟩⟩
  · intro place notBin notAnt
    exact (setNodeModulesPath_get making place).trans (kept place notBin notAnt)
  · intro tidy cacheTidy
    have madeTidy := setNodeModulesPath_tidy project.linker store tidy
    rw [making] at madeTidy
    have startTidy := clearOwned_tidy project.linker made madeTidy
    rw [clearing] at startTidy
    have linkedTidy := forEach_keeps Tidy _ (sortLinks (links graph))
      (fun link _ => linkPackage_tidy project.linker cacheTidy link) start startTidy
    rwa [linking] at linkedTidy

variable {project graph records store final}

theorem Phases.current_start (phases : Phases project graph records store final) (pkg : Package) :
    project.Current phases.start pkg ↔ project.Current store pkg := by
  refine current_congr fun rest => ?_
  have shape := place_packagePath pkg
  have notBin := bins_not_above project shape rest
  have notAnt : ¬ project.owned ".ant" <+: project.modules ++ pkg.place ++ rest := by
    rw [Project.owned,append_assoc,prefix_append_right_inj]
    intro inside
    obtain ⟨head,tail,spelled,_,notAnt⟩ := packagePath_head shape
    rw [spelled] at inside
    obtain ⟨_,same⟩ := inside
    exact notAnt (List.cons.inj same).1.symm
  rcases phases.kept _ notBin notAnt with same | ⟨_,_,above⟩
  · exact same
  · have shorter := (prefix_append (project.target pkg) rest).trans above
    rw [Project.bins,Project.owned,Project.target,prefix_append_right_inj] at shorter
    exact absurd shorter (packagePath_apart pkg.place [] shape _ (Or.inl rfl)).1

section Commands
variable (apart : ∀ place, normalizeRelative records.lockfilePath = .ok place → ¬ project.modules <+: place)
include apart

theorem Phases.commands (phases : Phases project graph records store final) (tidy : Tidy store)
    (cacheTidy : Tidy project.linker.source) (place : Path) (inside : project.bins <+: place) :
    HasFile final place ↔ ∃ pkg ∈ graph.packages, ¬ project.Current store pkg ∧ project.Announces pkg place := by
  have progress := progress_run phases.linking
  obtain ⟨pruned,_⟩ := prune_spec project (topLevelNames graph) (phases.tidy tidy cacheTidy)
    phases.pruning
  have recorded : get final place = get phases.pruned place := by
    obtain ⟨rest,rfl⟩ := inside
    have unchanged := writeRecords_get apart phases.recording (ascii ".bin") rest (by decide)
    simpa [Project.bins,Project.owned] using unchanged
  have linked := progress.commands place inside
  simp only [phases.noCommands place inside,false_or,phases.current_start,graph.mem_ordered] at linked
  rw [← linked,HasFile,HasFile,recorded,pruned.spared place (Or.inl inside)]

end Commands

def HasEntry (project : Project) (store : Store) (bin : PackageBin) : Prop :=
  ∃ place, normalizeRelative (binPath project.linker bin) = .ok place ∧ project.bins <+: place ∧ HasFile store place

/-- An installation leaves every command of a top-level package in `.bin`, unless a package was
skipped whose commands no package that was linked anew also has. -/
theorem commands_complete_iff
    (apart : ∀ place, normalizeRelative records.lockfilePath = .ok place → ¬ project.modules <+: place)
    (tidy : Tidy store) (cacheTidy : Tidy project.linker.source)
    (ok : portableInstall project.linker (links graph) records store = (final,none)) :
    (∀ pkg ∈ graph.packages, pkg.above = [] → pkg.hasBin = true → ∀ bin ∈ pkg.bins, binIsSafe bin = true →
      HasEntry project final bin) ↔ ∀ pkg ∈ graph.packages, pkg.above = [] → pkg.hasBin = true → project.Current store pkg →
      ∀ bin ∈ pkg.bins, binIsSafe bin = true → ∃ other ∈ graph.packages, ¬ project.Current store other ∧
        ∃ place, normalizeRelative (binPath project.linker bin) = .ok place ∧ project.Announces other place := by
  obtain ⟨phases⟩ := install_phases project graph records store final ok
  have commands := phases.commands apart tidy cacheTidy
  constructor
  · intro complete pkg member top hasBin _ bin inside safe
    obtain ⟨place,normal,below,file⟩ := complete pkg member top hasBin bin inside safe
    obtain ⟨other,present,fresh,announced⟩ := (commands place below).mp file
    exact ⟨other,present,fresh,place,normal,announced⟩
  · intro covered pkg member top hasBin bin inside safe
    by_cases current : project.Current store pkg
    · obtain ⟨other,present,fresh,place,normal,announced⟩ := covered pkg member top hasBin current bin inside safe
      have below := bin_place project safe normal
      exact ⟨place,normal,below,(commands place below).mpr ⟨other,present,fresh,announced⟩⟩
    · have progress := progress_run phases.linking
      have named := progress.named pkg ((graph.mem_ordered pkg).mpr member)
      rw [phases.current_start] at named
      obtain ⟨place,normal⟩ := named current top hasBin bin inside safe
      have below := bin_place project safe normal
      exact ⟨place,normal,below,(commands place below).mpr ⟨pkg,member,current,top,hasBin,bin,inside,safe,normal⟩⟩

section Sample

def sampleCache : Store :=
  put (put empty [ascii "c"] .dir) [ascii "c",ascii "package.json"] (.leaf (ascii "1.0.0"))

def sampleProject : Project where
  linker := ⟨sampleCache,nodeModules,some⟩
  modules := [nodeModules]
  some_ := by simp
  clean := by decide +kernel
  named := by decide +kernel

def sampleRecords : Records := ⟨ascii "ant.lockb",[],[]⟩

def plainName (base : String) (shape : IsPackageName [ascii base]) (clean : Clean (ascii base))
    (own : nodeModules ∉ [ascii base]) : Name := ⟨[ascii base],shape,by simpa using clean,own⟩

def toolName : Name := plainName "tool" (by decide +kernel) (by decide +kernel) (by decide +kernel)

def depName : Name := plainName "dep" (by decide +kernel) (by decide +kernel) (by decide +kernel)

def tool : Package := ⟨[],toolName,ascii "c",1,true,[⟨ascii "t",ascii "t.js"⟩]⟩

def dep : Package := ⟨[toolName],depName,ascii "c",1,false,[]⟩

def toolGraph : Graph := ⟨[tool],by simp,by simp [tool]⟩

theorem portableInstall_of_sorted (linker : StorageLinker) {packages : List PackageLink} (records : Records)
    (sorted : packages.Pairwise fun a b => packageLinkLessThanParentFirst b a = false) :
    portableInstall linker packages records = andThen (setNodeModulesPath linker) (andThen (clearOwned linker)
      (andThen (forEach (linkPackage linker) packages)
        (andThen (pruneStaleTopLevelPackages linker ((packages.filter (·.parentPath == none)).map (·.name)))
          (writeRecords linker records)))) := by
  have same : sortLinks packages = packages :=
    mergeSort_of_pairwise (sorted.imp fun {a b} less => by simp [less])
  rw [portableInstall,same]

def firstInstall : Store × Option InstallError :=
  portableInstall sampleProject.linker (links toolGraph) sampleRecords empty

def secondInstall : Store × Option InstallError :=
  portableInstall sampleProject.linker (links toolGraph) sampleRecords firstInstall.1

theorem toolGraph_sorted : (links toolGraph).Pairwise fun a b => packageLinkLessThanParentFirst b a = false := by
  simp [links,toolGraph]

theorem sampleCache_tidy : Tidy sampleProject.linker.source := tidy_of_entries (by decide +kernel)

theorem empty_tidy : Tidy empty := tidy_of_entries (by simp [empty])

theorem firstInstall_tidy : Tidy firstInstall.1 :=
  portableInstall_tidy sampleProject.linker sampleCache_tidy (links toolGraph) sampleRecords empty empty_tidy

theorem sampleRecords_apart (place : Path) (normal : normalizeRelative sampleRecords.lockfilePath = .ok place) :
    ¬ sampleProject.modules <+: place := by
  have lockfile : normalizeRelative sampleRecords.lockfilePath = .ok [ascii "ant.lockb"] := by decide +kernel
  rw [← Except.ok.inj (lockfile.symm.trans normal)]
  decide

theorem firstInstall_ok : firstInstall = (firstInstall.1,none) := by
  have succeeds : firstInstall.2 = none := by
    rw [firstInstall,portableInstall_of_sorted _ _ toolGraph_sorted]
    decide +kernel
  exact Prod.ext rfl succeeds

theorem commands_complete_first : firstInstall = (firstInstall.1,none) ∧
    ∀ pkg ∈ toolGraph.packages, pkg.above = [] → pkg.hasBin = true → ∀ bin ∈ pkg.bins, binIsSafe bin = true →
      HasEntry sampleProject firstInstall.1 bin := by
  refine ⟨firstInstall_ok,(commands_complete_iff sampleRecords_apart empty_tidy
    sampleCache_tidy firstInstall_ok).mpr ?_⟩
  intro pkg _ _ _ current
  have absent := current_present empty pkg current
  cases absent

/-- The second of two equal installations skips the package and leaves `.bin` without its command. -/
theorem commands_lost : firstInstall = (firstInstall.1,none) ∧ secondInstall.2 = none ∧ tool ∈ toolGraph.packages ∧
    tool.above = [] ∧ tool.hasBin = true ∧ ∃ bin ∈ tool.bins, binIsSafe bin = true ∧
      HasEntry sampleProject firstInstall.1 bin ∧ ¬ HasEntry sampleProject secondInstall.1 bin := by
  have runs : secondInstall.2 = none ∧ get secondInstall.1 [nodeModules,ascii ".bin",ascii "t"] = none ∧
      ∃ content, get firstInstall.1 [nodeModules,ascii ".bin",ascii "t"] = some (.leaf content) := by
    rw [secondInstall,firstInstall,portableInstall_of_sorted _ _ toolGraph_sorted]
    exact ⟨by decide +kernel,by decide +kernel,binScript tool.link ⟨ascii "t",ascii "t.js"⟩,by decide +kernel⟩
  have normal : normalizeRelative (binPath sampleProject.linker ⟨ascii "t",ascii "t.js"⟩) =
      .ok [nodeModules,ascii ".bin",ascii "t"] := by decide +kernel
  refine ⟨firstInstall_ok,runs.1,by simp [toolGraph],rfl,rfl,⟨ascii "t",ascii "t.js"⟩,by simp [tool],by decide,?_,?_⟩
  · exact ⟨_,normal,⟨[ascii "t"],rfl⟩,runs.2.2⟩
  · rintro ⟨place,again,_,_,file⟩
    rw [← Except.ok.inj (normal.symm.trans again),runs.2.1] at file
    cases file

end Sample

section Packages
variable (apart : ∀ place, normalizeRelative records.lockfilePath = .ok place → ¬ project.modules <+: place)
  (tidy : Tidy store) (cacheTidy : Tidy project.linker.source)

theorem packagePath_first (shape : PackagePath rel) : ∃ parts rest, IsPackageName parts ∧ rel = parts ++ rest := by
  cases shape with
  | last parts shape => exact ⟨rel,[],shape,by simp⟩
  | nested parts below shape inner => exact ⟨parts,_,shape,rfl⟩

include apart tidy cacheTidy

theorem Phases.pruned_package (phases : Phases project graph records store final) (rest : Path)
    (shape : IsPackageName parts) : get final (project.modules ++ (parts ++ rest)) = some .dir ↔
      get phases.linked (project.modules ++ (parts ++ rest)) = some .dir ∧
        ∃ top ∈ graph.packages, top.above = [] ∧ top.place = parts := by
  have linkedTidy := phases.tidy tidy cacheTidy
  obtain ⟨pruned,gone⟩ := prune_spec project (topLevelNames graph) linkedTidy phases.pruning
  have recorded : get final (project.modules ++ (parts ++ rest)) = get phases.pruned (project.modules ++ (parts ++ rest)) := by
    obtain ⟨head,tail,rfl,_,notAnt⟩ := packagePath_head (.last parts shape)
    exact writeRecords_get apart phases.recording head (tail ++ rest) notAnt
  have spared : text parts ∈ topLevelNames graph → get phases.pruned (project.modules ++ (parts ++ rest)) =
      get phases.linked (project.modules ++ (parts ++ rest)) := by
    intro expected
    refine pruned.spared _ (Or.inr ⟨parts,shape,expected,?_⟩)
    rw [prefix_append_right_inj]
    exact prefix_append _ _
  rw [recorded]
  constructor
  · intro isDir
    have present : get phases.linked (project.modules ++ (parts ++ rest)) = some .dir := by
      rcases pruned.removed (project.modules ++ (parts ++ rest)) with same | absent
      · rwa [same] at isDir
      · simp [absent] at isDir
    have clean : ∀ part ∈ parts, Clean part := fun part member =>
      linkedTidy (project.modules ++ (parts ++ rest)) (by simp [present]) part (by simp [member])
    refine ⟨present,(mem_topLevelNames graph clean).mp ?_⟩
    by_contra unexpected
    refine gone parts shape unexpected ?_
    by_cases last : rest = []
    · simpa [last] using isDir
    · refine get_above phases.pruned _ rest last ?_
      rw [append_assoc,isDir]
      rfl
  · rintro ⟨isDir,top,member,isTop,rfl⟩
    rw [spared ((mem_topLevelNames graph top.place_clean).mpr ⟨top,member,isTop,rfl⟩),isDir]

omit apart tidy cacheTidy in
theorem Phases.linked_kept (phases : Phases project graph records store final) (shape : PackagePath rel)
    (free : ∀ pkg ∈ graph.packages, pkg.place ≠ rel)
    (skipped : ∀ pkg ∈ graph.packages, pkg.place <+: rel → project.Current store pkg) :
    get phases.linked (project.modules ++ rel) = get store (project.modules ++ rel) := by
  have progress := progress_run phases.linking
  have notBin : ¬ project.bins <+: project.modules ++ rel := by simpa using bins_not_above project shape []
  have notAnt : ¬ project.owned ".ant" <+: project.modules ++ rel := by
    rw [Project.owned,prefix_append_right_inj]
    exact (packagePath_apart rel [] shape _ (Or.inr rfl)).2
  have before : get phases.start (project.modules ++ rel) = get store (project.modules ++ rel) := by
    rcases phases.kept _ notBin notAnt with same | ⟨_,_,above⟩
    · exact same
    · rw [Project.bins,Project.owned,prefix_append_right_inj] at above
      exact absurd above (packagePath_apart rel [] shape _ (Or.inl rfl)).1
  rw [← before]
  have current : ∀ pkg ∈ graph.ordered, project.target pkg <+: project.modules ++ rel → project.Current phases.start pkg := by
    intro pkg member above
    rw [Project.target,prefix_append_right_inj] at above
    exact (phases.current_start pkg).mpr (skipped pkg ((graph.mem_ordered pkg).mp member) above)
  rcases progress.kept _ notBin current with same | ⟨_,_,pkg,member,above⟩
  · exact same
  · rw [Project.target,prefix_append_right_inj] at above
    obtain ⟨before,after,split⟩ := append_of_mem member
    obtain ⟨outer,early,same⟩ := graph.outer_before before after pkg split rel shape above
      (Ne.symm (free pkg ((graph.mem_ordered pkg).mp member)))
    exact absurd same (free outer ((graph.mem_ordered outer).mp (by simp [split,early])))

/-- An installation leaves exactly the packages of the graph, unless the project had a package
below skipped packages only that the graph does not have. -/
theorem packages_exact_iff (bare : ∀ pkg ∈ graph.packages, ∀ origin, normalizeRelative pkg.cachePath = .ok origin →
      get project.linker.source (origin ++ [nodeModules]) = none)
    (ok : portableInstall project.linker (links graph) records store = (final,none)) : (∀ rel, PackagePath rel →
      (get final (project.modules ++ rel) = some .dir ↔ ∃ pkg ∈ graph.packages, pkg.place = rel)) ↔
    ∀ rel, PackagePath rel → get store (project.modules ++ rel) = some .dir → (∀ pkg ∈ graph.packages, pkg.place ≠ rel) →
      (∃ top ∈ graph.packages, top.above = [] ∧ top.place <+: rel) →
      ∃ pkg ∈ graph.packages, pkg.place <+: rel ∧ ¬ project.Current store pkg := by
  obtain ⟨phases⟩ := install_phases project graph records store final ok
  have progress := progress_run phases.linking
  have cleared := cleared_run phases.linking bare
  have topOf : ∀ parts rest, IsPackageName parts →
      ((∃ top ∈ graph.packages, top.above = [] ∧ top.place = parts) ↔
        ∃ top ∈ graph.packages, top.above = [] ∧ top.place <+: parts ++ rest) := by
    intro parts rest shape
    constructor
    · rintro ⟨top,member,isTop,rfl⟩
      exact ⟨top,member,isTop,prefix_append _ _⟩
    · rintro ⟨top,member,isTop,more,same⟩
      have single : top.place = top.name.parts := by simp [Package.place,Package.chain,isTop,relative]
      exact ⟨top,member,isTop,(isPackageName_append _ _ _ _ (single ▸ top.name.shape) shape same).1⟩
  constructor
  · intro exactly rel shape wasDir free above
    by_contra current
    push Not at current
    obtain ⟨parts,rest,name,rfl⟩ := packagePath_first shape
    have linked := phases.linked_kept shape free current
    have isDir := (phases.pruned_package apart tidy cacheTidy rest name).mpr
      ⟨linked.trans wasDir,(topOf parts rest name).mpr above⟩
    obtain ⟨pkg,member,same⟩ := (exactly _ shape).mp isDir
    exact free pkg member same
  · intro covered rel shape
    obtain ⟨parts,rest,name,rfl⟩ := packagePath_first shape
    rw [phases.pruned_package apart tidy cacheTidy rest name]
    constructor
    · rintro ⟨isDir,top⟩
      by_contra missing
      push Not at missing
      have skipped : ∀ pkg ∈ graph.packages, pkg.place <+: parts ++ rest → project.Current store pkg := by
        intro pkg member above
        by_contra fresh
        rw [← phases.current_start] at fresh
        have gone := cleared _ shape (fun other inside => missing other ((graph.mem_ordered other).mp inside))
          ⟨pkg,(graph.mem_ordered pkg).mpr member,above,fresh⟩
        simp [gone] at isDir
      have wasDir := (phases.linked_kept shape missing skipped).symm.trans isDir
      obtain ⟨pkg,member,above,fresh⟩ := covered _ shape wasDir missing ((topOf parts rest name).mp top)
      exact fresh (skipped pkg member above)
    · rintro ⟨pkg,member,same⟩
      have isDir := progress.present pkg ((graph.mem_ordered pkg).mpr member)
      rw [Project.target,same] at isDir
      refine ⟨isDir,(topOf parts rest name).mpr ?_⟩
      obtain ⟨first,others,spelled⟩ := exists_cons_of_ne_nil pkg.chain_ne_nil
      obtain ⟨top,present,reached⟩ := graph.encloses [first] (by simp) pkg member (spelled ▸ ⟨others,rfl⟩)
      have isTop : top.above = [] := by
        have counted := congrArg List.length reached
        simpa [Package.chain] using counted
      refine ⟨top,present,isTop,?_⟩
      rw [← same,Package.place,Package.place,reached,spelled]
      by_cases last : others = []
      · subst last
        exact prefix_refl _
      · rw [relative_cons first others last]
        exact prefix_append _ _

end Packages

section StaleSample

def nestedGraph : Graph where
  packages := [tool,dep]
  distinct := by simp [Package.chain,tool,dep]
  enclosed := by
    intro pkg member nested
    rcases mem_pair.mp member with rfl | rfl
    · exact absurd rfl nested
    · exact ⟨tool,by simp,rfl⟩

def nestedInstall : Store × Option InstallError :=
  portableInstall sampleProject.linker (links nestedGraph) sampleRecords empty

def flatInstall : Store × Option InstallError :=
  portableInstall sampleProject.linker (links toolGraph) sampleRecords nestedInstall.1

theorem nestedGraph_sorted : (links nestedGraph).Pairwise fun a b => packageLinkLessThanParentFirst b a = false := by
  decide +kernel

theorem nestedInstall_ok : nestedInstall = (nestedInstall.1,none) := by
  have succeeds : nestedInstall.2 = none := by
    rw [nestedInstall,portableInstall_of_sorted _ _ nestedGraph_sorted]
    decide +kernel
  exact Prod.ext rfl succeeds

theorem packages_exact_nested : nestedInstall = (nestedInstall.1,none) ∧ ∀ rel, PackagePath rel →
    (get nestedInstall.1 (sampleProject.modules ++ rel) = some .dir ↔ ∃ pkg ∈ nestedGraph.packages, pkg.place = rel) := by
  have bare : ∀ pkg ∈ nestedGraph.packages, ∀ origin, normalizeRelative pkg.cachePath = .ok origin →
      get sampleProject.linker.source (origin ++ [nodeModules]) = none := by
    intro pkg member origin normal
    have path : pkg.cachePath = ascii "c" := by
      rcases mem_pair.mp member with rfl | rfl <;> rfl
    have origins : normalizeRelative (ascii "c") = .ok [ascii "c"] := by decide +kernel
    rw [path,origins] at normal
    rw [← Except.ok.inj normal]
    decide +kernel
  refine ⟨nestedInstall_ok,(packages_exact_iff sampleRecords_apart empty_tidy
    sampleCache_tidy bare nestedInstall_ok).mpr ?_⟩
  intro rel _ present
  cases present

/-- The nested copy of the older graph survives below a package that is skipped. -/
theorem nested_copy_survives : nestedInstall = (nestedInstall.1,none) ∧ flatInstall.2 = none ∧ PackagePath dep.place ∧
    get flatInstall.1 (sampleProject.modules ++ dep.place) = some .dir ∧ ∀ pkg ∈ toolGraph.packages, pkg.place ≠ dep.place := by
  refine ⟨nestedInstall_ok,?_,place_packagePath dep,?_,by decide⟩
  · rw [flatInstall,nestedInstall,portableInstall_of_sorted _ _ nestedGraph_sorted,
      portableInstall_of_sorted _ _ toolGraph_sorted]
    decide +kernel
  · rw [flatInstall,nestedInstall,portableInstall_of_sorted _ _ nestedGraph_sorted,
      portableInstall_of_sorted _ _ toolGraph_sorted]
    decide +kernel

end StaleSample

end Run

end Ant.Pkg.PortableInstall
