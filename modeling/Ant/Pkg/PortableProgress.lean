import Ant.Pkg.PortableLinking

/-! The loop over the packages of a graph: what is installed, what stays as it was, and which
commands there are, at every point of the loop. -/
namespace Ant.Pkg.PortableProgress
open Library.ByteLayout Library.ByteString Library.Effect Library.PathTree Storage StorageSpec StorageNames List
open PortableLinker PackageGraph PortableLinking

structure Progress (project : Project) (start : Store) (linked : List Package) (store : Store) : Prop where
  kept : ∀ place, ¬ project.bins <+: place →
    (∀ pkg ∈ linked, project.target pkg <+: place → project.Current start pkg) →
    get store place = get start place ∨
      (get start place = none ∧ get store place = some .dir ∧ ∃ pkg ∈ linked, place <+: project.target pkg)
  present : ∀ pkg ∈ linked, get store (project.target pkg) = some .dir
  commands : ∀ place, project.bins <+: place → (HasFile store place ↔
    HasFile start place ∨ ∃ pkg ∈ linked, ¬ project.Current start pkg ∧ project.Announces pkg place)
  named : ∀ pkg ∈ linked, ¬ project.Current start pkg → project.Named pkg

def Cleared (project : Project) (start : Store) (linked : List Package) (store : Store) : Prop :=
  ∀ rel, PackagePath rel → (∀ pkg ∈ linked, pkg.place ≠ rel) →
    (∃ pkg ∈ linked, pkg.place <+: rel ∧ ¬ project.Current start pkg) → get store (project.modules ++ rel) = none

section Step
variable (project : Project) {start : Store} (store next : Store) (linked : List Package) (pkg : Package)
  (order : ∀ earlier ∈ linked, ¬ pkg.place <+: earlier.place)

theorem target_prefix_iff (one two : Package) : project.target one <+: project.target two ↔ one.place <+: two.place := by
  rw [Project.target,Project.target,prefix_append_right_inj]

theorem bins_not_above {rel : Path} (shape : PackagePath rel) (rest : Path) :
    ¬ project.bins <+: project.modules ++ rel ++ rest := by
  rw [Project.bins,Project.owned,append_assoc,prefix_append_right_inj]
  intro inside
  obtain ⟨head,tail,rfl,notBin,_⟩ := packagePath_head shape
  obtain ⟨_,same⟩ := inside
  exact notBin (List.cons.inj same).1.symm

include order in
theorem current_unchanged (progress : Progress project start linked store)
    (skipped : ∀ earlier ∈ linked, earlier.place <+: pkg.place → project.Current start earlier) :
    project.Current store pkg ↔ project.Current start pkg := by
  refine current_congr fun rest => ?_
  have above : ∀ earlier ∈ linked, project.target earlier <+: project.target pkg ++ rest → project.Current start earlier := by
    intro earlier member inside
    rcases prefix_or_prefix_of_prefix inside (prefix_append _ rest) with outer | inner
    · exact skipped earlier member ((target_prefix_iff project earlier pkg).mp outer)
    · exact absurd ((target_prefix_iff project pkg earlier).mp inner) (order earlier member)
  rcases progress.kept _ (bins_not_above project (place_packagePath pkg) rest) above with
    same | ⟨_,_,earlier,member,inside⟩
  · exact same
  · have below := (prefix_append _ rest).trans inside
    exact absurd ((target_prefix_iff project pkg earlier).mp below) (order earlier member)

include order in
theorem current_top_level (progress : Progress project start linked store) (top : pkg.above = []) :
    project.Current store pkg ↔ project.Current start pkg := by
  refine current_unchanged project store linked pkg order progress fun earlier member above => ?_
  have chains := relative_prefix earlier.chain_ne_nil above
  have single : pkg.chain = [pkg.name] := by simp [Package.chain,top]
  rw [single,prefix_cons_iff] at chains
  rcases chains with empty | ⟨tail,same,rest⟩
  · exact absurd empty earlier.chain_ne_nil
  · rw [prefix_nil.mp rest] at same
    have equal : pkg.place = earlier.place := by rw [Package.place,Package.place,same,single]
    exact absurd (equal ▸ prefix_refl _) (order earlier member)

include order in
theorem progress_step (progress : Progress project start linked store)
    (ok : linkPackage project.linker pkg.link store = (next,none)) : Progress project start (linked ++ [pkg]) next := by
  have topLevel := current_top_level project store linked pkg order progress
  rcases linkPackage_cases project pkg store next ok with ⟨current,rfl⟩ | ⟨stale,relinked⟩
  · constructor
    · intro place notBin skipped
      refine (progress.kept place notBin fun other member => skipped other (by simp [member])).imp_right ?_
      rintro ⟨absent,made,other,member,inside⟩
      exact ⟨absent,made,other,by simp [member],inside⟩
    · intro other member
      rcases mem_append.mp member with early | last
      · exact progress.present other early
      · rw [mem_singleton.mp last]
        exact current_present next pkg current
    · intro place inside
      rw [progress.commands place inside]
      have silent : ¬ (¬ project.Current start pkg ∧ project.Announces pkg place) :=
        fun found => found.1 ((topLevel found.2.1).mp current)
      simp [or_and_right,exists_or,silent]
    · intro other member fresh
      rcases mem_append.mp member with early | last
      · exact progress.named other early fresh
      · rw [mem_singleton.mp last] at fresh ⊢
        exact fun top => absurd ((topLevel top).mp current) fresh
  · constructor
    · intro place notBin skipped
      have early : ∀ other ∈ linked, project.target other <+: place → project.Current start other :=
        fun other member => skipped other (by simp [member])
      have outside : ¬ project.target pkg <+: place := by
        intro inside
        refine stale ((current_unchanged project store linked pkg order progress ?_).mpr (skipped pkg (by simp) inside))
        intro other member above
        exact early other member (((target_prefix_iff project other pkg).mpr above).trans inside)
      rcases relinked.kept place outside notBin with same | ⟨absent,made,above⟩
      · rw [same]
        refine (progress.kept place notBin early).imp_right ?_
        rintro ⟨absent,made,other,member,inside⟩
        exact ⟨absent,made,other,by simp [member],inside⟩
      · rcases progress.kept place notBin early with same | ⟨_,made,_⟩
        · exact Or.inr ⟨same ▸ absent,made,pkg,by simp,above⟩
        · simp [absent] at made
    · intro other member
      rcases mem_append.mp member with early | last
      · have outside : ¬ project.target pkg <+: project.target other :=
          fun inside => order other early ((target_prefix_iff project pkg other).mp inside)
        have notBin : ¬ project.bins <+: project.target other := by
          simpa [Project.target] using bins_not_above project (place_packagePath other) []
        rcases relinked.kept _ outside notBin with same | ⟨absent,_,_⟩
        · rw [same,progress.present other early]
        · simp [progress.present other early] at absent
      · obtain ⟨origin,_,isDir,content⟩ := relinked.copied
        rw [mem_singleton.mp last]
        simpa [isDir] using content []
    · intro place inside
      rw [relinked.commands place inside,progress.commands place inside,or_assoc]
      have fresh : project.Announces pkg place ↔ ¬ project.Current start pkg ∧ project.Announces pkg place :=
        ⟨fun found => ⟨fun current => stale ((topLevel found.1).mpr current),found⟩,And.right⟩
      rw [fresh]
      simp [or_and_right,exists_or]
    · intro other member fresh
      rcases mem_append.mp member with early | last
      · exact progress.named other early fresh
      · rw [mem_singleton.mp last]
        exact relinked.named

include order in
theorem skipped_current (progress : Progress project start linked store) (cleared : Cleared project start linked store)
    (current : project.Current store pkg) : project.Current start pkg := by
  by_cases skipped : ∀ earlier ∈ linked, earlier.place <+: pkg.place → project.Current start earlier
  · exact (current_unchanged project store linked pkg order progress skipped).mp current
  · push Not at skipped
    have gone := cleared pkg.place (place_packagePath pkg)
      (fun earlier member same => order earlier member (same ▸ prefix_refl _)) skipped
    have present := current_present store pkg current
    rw [Project.target,gone] at present
    cases present

include order in
theorem cleared_step (progress : Progress project start linked store) (cleared : Cleared project start linked store)
    (bare : ∀ origin, normalizeRelative pkg.cachePath = .ok origin → get project.linker.source (origin ++ [nodeModules]) = none)
    (outer : ∀ rel, PackagePath rel → rel <+: pkg.place → rel ≠ pkg.place → ∃ earlier ∈ linked, earlier.place = rel)
    (ok : linkPackage project.linker pkg.link store = (next,none)) : Cleared project start (linked ++ [pkg]) next := by
  intro rel shape free replaced
  have freeEarly : ∀ other ∈ linked, other.place ≠ rel := fun other member => free other (by simp [member])
  have freeHere : pkg.place ≠ rel := free pkg (by simp)
  obtain ⟨above,member,inside,stale⟩ := replaced
  rcases linkPackage_cases project pkg store next ok with ⟨current,rfl⟩ | ⟨_,relinked⟩
  · rcases mem_append.mp member with early | last
    · exact cleared rel shape freeEarly ⟨above,early,inside,stale⟩
    · rw [mem_singleton.mp last] at stale
      exact absurd (skipped_current project next linked pkg order progress cleared current) stale
  · by_cases below : pkg.place <+: rel
    · obtain ⟨rest,rfl⟩ := below
      have more : rest ≠ [] := by
        rintro rfl
        simp at freeHere
      obtain ⟨deeper,rfl⟩ := packagePath_below _ shape rfl pkg.chain_ne_nil more
      obtain ⟨origin,normal,_,content⟩ := relinked.copied
      have copied := content (nodeModules :: deeper)
      rw [Project.target,append_assoc] at copied
      rw [copied,show origin ++ nodeModules :: deeper = origin ++ [nodeModules] ++ deeper by simp]
      exact get_below_none (bare origin normal) (prefix_append _ _)
    · have early : above ∈ linked := by
        rcases mem_append.mp member with early | last
        · exact early
        · exact absurd (mem_singleton.mp last ▸ inside) below
      have absent := cleared rel shape freeEarly ⟨above,early,inside,stale⟩
      have outside : ¬ project.target pkg <+: project.modules ++ rel := by
        rwa [Project.target,prefix_append_right_inj]
      have notBin : ¬ project.bins <+: project.modules ++ rel := by simpa using bins_not_above project shape []
      rcases relinked.kept _ outside notBin with same | ⟨_,_,onWay⟩
      · rw [same,absent]
      · rw [Project.target,prefix_append_right_inj] at onWay
        obtain ⟨earlier,present,same⟩ := outer rel shape onWay (Ne.symm freeHere)
        exact absurd same (freeEarly earlier present)

end Step

section Run
variable {project : Project} {graph : Graph} {start : Store} {final : Store}
  (ok : forEach (linkPackage project.linker) (sortLinks (graph.packages.map (·.link))) start = (final,none))
include ok

theorem progress_run : Progress project start graph.ordered final := by
  rw [sortLinks_graph,forEach_map] at ok
  refine forEach_run (Progress project start) ?_ ?_ ok
  · intro before pkg after split store next progress linked
    exact progress_step project store next before pkg (graph.not_before before after pkg split) progress linked
  · exact ⟨fun _ _ _ => Or.inl rfl,by simp,by simp,by simp⟩

theorem cleared_run (bare : ∀ pkg ∈ graph.packages, ∀ origin, normalizeRelative pkg.cachePath = .ok origin →
    get project.linker.source (origin ++ [nodeModules]) = none) : Cleared project start graph.ordered final := by
  rw [sortLinks_graph,forEach_map] at ok
  have both := forEach_run (fun linked store => Progress project start linked store ∧ Cleared project start linked store) ?_ ?_ ok
  · exact both.2
  · rintro before pkg after split store next ⟨progress,cleared⟩ linked
    have order := graph.not_before before after pkg split
    have member : pkg ∈ graph.packages := (graph.mem_ordered pkg).mp (by simp [split])
    exact ⟨progress_step project store next before pkg order progress linked,
      cleared_step project store next before pkg order progress cleared (bare pkg member)
        (graph.outer_before before after pkg split) linked⟩
  · exact ⟨⟨fun _ _ _ => Or.inl rfl,by simp,by simp,by simp⟩,by simp [Cleared]⟩

end Run

end Ant.Pkg.PortableProgress
