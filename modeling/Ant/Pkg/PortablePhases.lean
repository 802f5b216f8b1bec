import Ant.Pkg.PortableLinking

/-! The phases around the loop of a portable installation: the directories that belong to the
installer are made anew before it, and stale packages are removed after it. -/
namespace Ant.Pkg.PortablePhases
open Library.ByteLayout Library.ByteString Library.Effect Library.PathTree Storage StorageSpec StorageNames List
open PortableLinker PackageGraph PortableLinking

variable {store next final : Store} {place : Path}

section Setup
variable {project : Project}

theorem mkdirs_kept (path : Path) (clean : ∀ part ∈ path, Clean part) (store next : Store)
    (ok : lift (mkdirs (text path)) store = (next,none)) (place : Path) : get next place = grown store path place := by
  have made := mapError_success ok
  rw [mkdirs,prepare_text clean] at made
  exact fileMkdirs_get next path (update_success made) place

theorem setNodeModulesPath_get (ok : setNodeModulesPath project.linker store = (next,none)) (place : Path) :
    Kept store next project.bins place := by
  obtain ⟨middle,modules,bins⟩ := andThen_success ok
  rw [project.named] at modules
  rw [join_child project bin_clean] at bins
  have first := kept_grown store middle _ place (mkdirs_kept project.modules project.clean store middle modules place)
  have second := kept_grown middle next _ place (mkdirs_kept _ (bins_clean project) middle next bins place)
  exact (first.mono fun above => above.trans (prefix_append _ _)).trans second

theorem clearOwned_get (ok : clearOwned project.linker store = (next,none)) :
    (∀ place, ¬ project.bins <+: place → ¬ project.owned ".ant" <+: place → Kept store next project.bins place) ∧
    ∀ place, project.bins <+: place → ¬ HasFile next place := by
  obtain ⟨noBin,removingBin,rest⟩ := andThen_success ok
  obtain ⟨noAnt,removingAnt,making⟩ := andThen_success rest
  rw [join_child project bin_clean] at removingBin making
  rw [join_child project ant_clean] at removingAnt
  have withoutBin := attemptRemove_get project.bins (bins_clean project) (by simp [Project.bins,Project.owned]) store noBin removingBin
  have withoutAnt := attemptRemove_get (project.owned ".ant") (child_clean project _ ant_clean) (by simp [Project.owned]) noBin noAnt removingAnt
  have made := mkdirs_kept _ (bins_clean project) noAnt next making
  constructor
  · intro place notBin notAnt
    have kept := kept_grown noAnt next project.bins place (made place)
    unfold Kept at kept ⊢
    rwa [withoutAnt,if_neg notAnt,withoutBin,if_neg notBin] at kept
  · intro place inside
    rw [hasFile_grown noAnt next _ place (made place)]
    rintro ⟨content,file⟩
    rw [withoutAnt,withoutBin] at file
    split at file <;> cases file

end Setup

section Records
variable {project : Project}

theorem marker_clean : Clean (ascii "install-state") := by decide +kernel

theorem writeRecords_get {records : Records}
    (apart : ∀ place, normalizeRelative records.lockfilePath = .ok place → ¬ project.modules <+: place)
    (ok : writeRecords project.linker records store = (final,none)) (name : Bytes) (rest : Path)
    (notAnt : name ≠ ascii ".ant") :
    get final (project.modules ++ name :: rest) = get store (project.modules ++ name :: rest) := by
  obtain ⟨middle,lockfile,marker⟩ := andThen_success ok
  obtain ⟨lockPlace,normal,written⟩ := prepare_success (mapError_success lockfile)
  have markerClean : ∀ part ∈ [ascii ".ant",ascii "install-state"], Clean part := by
    simp [ant_clean,marker_clean]
  have joined : Storage.join project.linker.nodeModulesPath (ascii ".ant/install-state") =
      text (project.modules ++ [ascii ".ant",ascii "install-state"]) := by
    rw [project.named,← join_text _ _ project.clean markerClean project.some_ (by simp)]
    rfl
  have wholeClean : ∀ part ∈ project.modules ++ [ascii ".ant",ascii "install-state"], Clean part := by
    intro part member
    rcases mem_append.mp member with above | last
    · exact project.clean part above
    · exact markerClean part last
  have marked := mapError_success marker
  rw [joined,atomicWrite,write,prepare_text wholeClean] at marked
  have first := (fileWrite_get _ _ store middle lockPlace (update_success written)).2
  have second := (fileWrite_get _ _ middle final _ (update_success marked)).2
  have outside : ¬ project.modules ++ name :: rest <+: project.modules ++ [ascii ".ant",ascii "install-state"] := by
    rw [prefix_append_right_inj]
    rintro ⟨_,same⟩
    exact notAnt (List.cons.inj same).1
  have notLock : ¬ project.modules ++ name :: rest <+: lockPlace :=
    fun inside => apart lockPlace normal ((prefix_append _ _).trans inside)
  rw [second _ fun same => outside (same ▸ prefix_refl _),grown,if_neg fun made => outside made.1,
    first _ fun same => notLock (same ▸ prefix_refl _),grown,if_neg fun made => notLock made.1]

end Records

section Prune
variable (project : Project) (expected : List Bytes)

def Spared (place : Path) : Prop :=
  project.bins <+: place ∨ ∃ parts, IsPackageName parts ∧ text parts ∈ expected ∧ project.modules ++ parts <+: place

structure Pruned (store next : Store) : Prop where
  spared : ∀ place, Spared project expected place → get next place = get store place
  removed : ∀ place, get next place = get store place ∨ get next place = none

theorem Pruned.refl (store : Store) : Pruned project expected store store := ⟨fun _ _ => rfl,fun _ => Or.inl rfl⟩

variable {project expected} in
theorem Pruned.trans {one two three : Store} (first : Pruned project expected one two)
    (second : Pruned project expected two three) : Pruned project expected one three where
  spared place spared := (second.spared place spared).trans (first.spared place spared)
  removed place := by
    rcases second.removed place with same | gone
    · rw [same]
      exact first.removed place
    · exact Or.inr gone

variable {project expected} in
theorem Pruned.not_dir (pruned : Pruned project expected store next) (absent : get store place ≠ some .dir) :
    get next place ≠ some .dir := by
  rcases pruned.removed place with same | gone
  · rwa [same]
  · simp [gone]

variable {project expected} in
theorem Pruned.tidy (pruned : Pruned project expected store next) (tidy : Tidy store) : Tidy next := by
  refine tidy_of store next tidy fun place present => Or.inl ?_
  rcases pruned.removed place with same | gone
  · rwa [same] at present
  · contradiction

theorem remove_pruned {path : Path} (clean : ∀ part ∈ path, Clean part) (some_ : path ≠ []) (store next : Store)
    (free : ∀ place, Spared project expected place → path <+: place → get store place = none)
    (ok : lift (remove (text path)) store = (next,none)) : Pruned project expected store next ∧ get next path = none := by
  have whole := mapError_success ok
  rw [remove,prepare_text clean] at whole
  have gone := fileRemove_get store next path (update_success whole)
  constructor
  · constructor
    · intro place spared
      rw [gone]
      split
      next below => exact (free place spared below.2).symm
      next => rfl
    · intro place
      rw [gone]
      split
      next => exact Or.inr rfl
      next => exact Or.inl rfl
  · rw [gone,if_pos ⟨some_,prefix_refl path⟩]

section
variable {store : Store} {path : Path} {entries : List (Bytes × Bool)} (clean : ∀ part ∈ path, Clean part)
include clean

theorem list_entries (ok : list store (text path) = .ok entries) :
    get store path = some .dir ∧ entries = (children store path).map fun name => (name,isDir store (path ++ [name])) := by
  simp only [list,normalizeRelative_text clean] at ok
  split at ok
  next => cases ok
  next => cases ok
  next => cases ok
  next stated =>
    cases ok
    exact ⟨fileStat_some stated,rfl⟩

theorem mem_list (ok : list store (text path) = .ok entries) (name : Bytes) (directory : Bool) :
    (name,directory) ∈ entries ↔ get store (path ++ [name]) ≠ none ∧ directory = isDir store (path ++ [name]) := by
  rw [(list_entries clean ok).2,mem_map]
  constructor
  · rintro ⟨other,member,same⟩
    cases same
    exact ⟨Option.isSome_iff_ne_none.mp ((mem_children_iff store path name).mp member),rfl⟩
  · rintro ⟨present,same⟩
    exact ⟨name,(mem_children_iff store path name).mpr (Option.isSome_iff_ne_none.mpr present),by rw [same]⟩

theorem list_error {error : StorageError} (failed : list store (text path) = .error error) : get store path ≠ some .dir := by
  intro isDir
  simp [list,normalizeRelative_text clean,fileStat,isDir] at failed

end

theorem spared_below {name : Bytes} (notBin : name ≠ ascii ".bin") (spared : Spared project expected place)
    (inside : project.modules ++ [name] <+: place) :
    ∃ parts, IsPackageName parts ∧ text parts ∈ expected ∧ project.modules ++ parts <+: place ∧ [name] <+: parts := by
  rcases spared with command | ⟨parts,shape,member,above⟩
  · have same := (prefix_of_prefix_length_le inside command (by simp [Project.bins,Project.owned])).eq_of_length
      (by simp [Project.bins,Project.owned])
    simp only [Project.bins,Project.owned,append_cancel_left_eq,List.cons.injEq,and_true] at same
    exact absurd same notBin
  · have longer : [name].length ≤ parts.length := by
      obtain ⟨head,rest,rfl,_⟩ := packagePath_head (.last parts shape)
      simp
    have nested := prefix_of_prefix_length_le inside above (by simpa using longer)
    exact ⟨parts,shape,member,above,(prefix_append_right_inj project.modules).mp nested⟩

section Scope
variable {scope : Bytes} (clean : Clean scope) (isScope : scope.head? = some 64)
include isScope

theorem scope_ne_bin : scope ≠ ascii ".bin" := by
  rintro rfl
  simp [ascii] at isScope

theorem spared_scope (spared : Spared project expected place) (inside : project.modules ++ [scope] <+: place) :
    ∃ base, text [scope,base] ∈ expected ∧ project.modules ++ [scope,base] <+: place := by
  obtain ⟨parts,shape,member,above,first⟩ :=
    spared_below project expected (scope_ne_bin isScope) spared inside
  match parts,shape,first with
  | [base],plain,⟨_,same⟩ =>
    exact absurd ((List.cons.inj same).1 ▸ isScope) plain.1
  | [_,base],_,⟨_,same⟩ =>
    obtain ⟨rfl,_⟩ := List.cons.inj same
    exact ⟨base,member,above⟩

include clean

theorem removeScoped_pruned {base : Bytes} (cleanBase : Clean base) (stale : text [scope,base] ∉ expected)
    (ok : lift (remove (Storage.join (text (project.modules ++ [scope])) base)) store = (next,none)) :
    Pruned project expected store next ∧ get next (project.modules ++ [scope,base]) = none := by
  have cleanScope := child_clean project scope clean
  have joined : Storage.join (text (project.modules ++ [scope])) base = text (project.modules ++ [scope,base]) := by
    have spelled := join_text _ [base] cleanScope (by simpa using cleanBase) (by simp) (by simp)
    rwa [append_assoc] at spelled
  have cleanBoth : ∀ part ∈ project.modules ++ [scope,base], Clean part := by
    intro part member
    rcases mem_append.mp member with above | below
    · exact project.clean part above
    · rcases mem_cons.mp below with rfl | last
      · exact clean
      · rwa [mem_singleton.mp last]
  rw [joined] at ok
  refine remove_pruned project expected cleanBoth (by simp) store next (fun place spared inside => ?_) ok
  have inScope : project.modules ++ [scope] <+: place := by
    refine List.IsPrefix.trans ?_ inside
    exact ⟨[base],by simp⟩
  obtain ⟨other,member,above⟩ := spared_scope project expected isScope spared inScope
  have same := (prefix_of_prefix_length_le inside above (by simp)).eq_of_length (by simp)
  simp only [append_cancel_left_eq,and_true,true_and] at same
  exact absurd (same ▸ member) stale

theorem pruneScope_spec (store next : Store) (tidy : Tidy store)
    (ok : pruneScope expected (text (project.modules ++ [scope])) scope store = (next,none)) :
    Pruned project expected store next ∧
    ∀ base, text [scope,base] ∉ expected → get next (project.modules ++ [scope,base]) ≠ some .dir := by
  have cleanScope := child_clean project scope clean
  have inside : ∀ base, project.modules ++ [scope,base] = project.modules ++ [scope] ++ [base] := by simp
  unfold pruneScope at ok
  split at ok
  next error failed =>
    cases ok
    refine ⟨Pruned.refl project expected store,fun base _ isDir => list_error cleanScope failed ?_⟩
    rw [inside] at isDir
    exact get_above store _ [base] (by simp) (by rw [isDir]; rfl)
  next entries listed =>
    have entry := mem_list cleanScope listed
    obtain ⟨middle,removing,ending⟩ := andThen_success ok
    have loop := forEach_run (fun before state => Pruned project expected store state ∧
        ∀ base, (base,true) ∈ before → text [scope,base] ∉ expected →
          get state (project.modules ++ [scope,base]) ≠ some .dir) ?_
        ⟨Pruned.refl project expected store,by simp⟩ removing
    · obtain ⟨pruned,gone⟩ := loop
      have stale : ∀ base, text [scope,base] ∉ expected → get middle (project.modules ++ [scope,base]) ≠ some .dir := by
        intro base unexpected
        by_cases wasDir : get store (project.modules ++ [scope,base]) = some .dir
        · refine gone base ((entry base true).mpr ?_) unexpected
          rw [← inside]
          exact ⟨by simp [wasDir],((isDir_iff store _).mpr wasDir).symm⟩
        · exact pruned.not_dir wasDir
      split at ending
      next empty =>
        have free : ∀ place, Spared project expected place → project.modules ++ [scope] <+: place → get middle place = none := by
          intro place spared below
          obtain ⟨base,_,above⟩ := spared_scope project expected isScope spared below
          by_contra present
          have package : get middle (project.modules ++ [scope] ++ [base]) ≠ none := by
            intro absent
            exact present (get_below_none absent (by simpa using above))
          have member := (mem_list cleanScope empty base _).mpr ⟨package,rfl⟩
          simp at member
        have last := (remove_pruned project expected cleanScope (by simp) middle next free ending).1
        exact ⟨pruned.trans last,fun base unexpected => last.not_dir (stale base unexpected)⟩
      next =>
        cases ending
        exact ⟨pruned,stale⟩
    · rintro before ⟨base,directory⟩ after split state after' ⟨pruned,gone⟩ step
      have member : (base,directory) ∈ entries := by simp [split]
      have cleanBase : Clean base := tidy _ ((entry base directory).mp member).1 base (by simp)
      have further : ∀ {later}, Pruned project expected state later →
          ((directory = true ∧ text [scope,base] ∉ expected) → get later (project.modules ++ [scope,base]) ≠ some .dir) →
          Pruned project expected store later ∧ ∀ other, (other,true) ∈ before ++ [(base,directory)] →
            text [scope,other] ∉ expected → get later (project.modules ++ [scope,other]) ≠ some .dir := by
        intro later next here
        refine ⟨pruned.trans next,fun other listed unexpected => ?_⟩
        rcases mem_append.mp listed with early | last
        · exact next.not_dir (gone other early unexpected)
        · obtain ⟨rfl,rfl⟩ := Prod.mk.inj (mem_singleton.mp last)
          exact here ⟨rfl,unexpected⟩
      have spelled : scope ++ [slash] ++ base = text [scope,base] := by simp [text,Library.ByteString.join]
      split at step
      next stale =>
        obtain ⟨removed,absent⟩ := removeScoped_pruned project expected clean isScope cleanBase stale.2 step
        exact further removed fun _ => by simp [absent]
      next kept =>
        cases step
        exact further (Pruned.refl project expected state) fun stale => absurd stale kept

end Scope

theorem prune_spec (tidy : Tidy store) (ok : pruneStaleTopLevelPackages project.linker expected store = (final,none)) :
    Pruned project expected store final ∧
    ∀ parts, IsPackageName parts → text parts ∉ expected → get final (project.modules ++ parts) ≠ some .dir := by
  unfold pruneStaleTopLevelPackages at ok
  rw [project.named] at ok
  split at ok
  next => cases ok
  next entries listed =>
    have entry := mem_list project.clean listed
    have loop := forEach_run (fun before state => Pruned project expected store state ∧
        ∀ parts, IsPackageName parts → text parts ∉ expected → (∃ head rest, parts = head :: rest ∧ (head,true) ∈ before) →
          get state (project.modules ++ parts) ≠ some .dir) ?_
        ⟨Pruned.refl project expected store,by simp⟩ ok
    · obtain ⟨pruned,gone⟩ := loop
      refine ⟨pruned,fun parts shape unexpected => ?_⟩
      by_cases wasDir : get store (project.modules ++ parts) = some .dir
      · obtain ⟨head,rest,rfl,_⟩ := packagePath_head (.last parts shape)
        refine gone _ shape unexpected ⟨head,rest,rfl,(entry head true).mpr ?_⟩
        have isDir : get store (project.modules ++ [head]) = some .dir := by
          by_cases last : rest = []
          · rwa [last] at wasDir
          · refine get_above store _ rest last ?_
            rw [append_assoc,singleton_append,wasDir]
            rfl
        exact ⟨by simp [isDir],((isDir_iff store _).mpr isDir).symm⟩
      · exact pruned.not_dir wasDir
    · rintro before ⟨name,directory⟩ after split state next ⟨pruned,gone⟩ step
      have member : (name,directory) ∈ entries := by simp [split]
      have clean : Clean name := tidy _ ((entry name directory).mp member).1 name (by simp)
      have further : ∀ {later}, Pruned project expected state later →
          (∀ rest, directory = true → IsPackageName (name :: rest) → text (name :: rest) ∉ expected →
            get later (project.modules ++ name :: rest) ≠ some .dir) →
          Pruned project expected store later ∧ ∀ parts, IsPackageName parts → text parts ∉ expected →
            (∃ head rest, parts = head :: rest ∧ (head,true) ∈ before ++ [(name,directory)]) →
            get later (project.modules ++ parts) ≠ some .dir := by
        intro later step here
        refine ⟨pruned.trans step,?_⟩
        rintro parts shape unexpected ⟨head,rest,rfl,listed⟩
        rcases mem_append.mp listed with early | last
        · exact step.not_dir (gone _ shape unexpected ⟨head,rest,rfl,early⟩)
        · obtain ⟨rfl,rfl⟩ := Prod.mk.inj (mem_singleton.mp last)
          exact here rest rfl shape unexpected
      have joined : Storage.join (text project.modules) name = text (project.modules ++ [name]) := by
        rw [← project.named,join_child project clean]
      simp only [joined] at step
      split at step
      next passed =>
        cases step
        refine further (Pruned.refl project expected state) fun rest isDir shape _ => ?_
        obtain ⟨head,tail,same,notBin,notAnt⟩ := packagePath_head (.last _ shape)
        obtain ⟨rfl,rfl⟩ := List.cons.inj same
        simp [isDir,notBin,notAnt] at passed
      next examined =>
        split at step
        next isScope =>
          obtain ⟨removed,absent⟩ :=
            pruneScope_spec project expected clean isScope state next (pruned.tidy tidy) step
          refine further removed fun rest _ shape unexpected => ?_
          match rest,shape with
          | [],plain => exact absurd isScope plain.1
          | [base],_ => exact absent base unexpected
        next notScope =>
          have single : ∀ rest, IsPackageName (name :: rest) → rest = [] := by
            intro rest shape
            match rest,shape with
            | [],_ => rfl
            | [_],scoped_ => exact absurd scoped_ notScope
          split at step
          next listed =>
            cases step
            refine further (Pruned.refl project expected state) fun rest _ shape unexpected => ?_
            rw [single rest shape] at unexpected
            exact absurd listed unexpected
          next stale =>
            have notBin : name ≠ ascii ".bin" := by
              rintro rfl
              simp at examined
            have free : ∀ place, Spared project expected place → project.modules ++ [name] <+: place → get state place = none := by
              intro place spared below
              obtain ⟨parts,shape,known,_,⟨rest,same⟩⟩ := spared_below project expected notBin spared below
              subst same
              rw [single rest (by simpa using shape)] at known
              exact absurd known stale
            obtain ⟨removed,absent⟩ := remove_pruned project expected (child_clean project name clean) (by simp) state next free step
            refine further removed fun rest _ shape _ => ?_
            rw [single rest shape,absent]
            simp

end Prune

end Ant.Pkg.PortablePhases
