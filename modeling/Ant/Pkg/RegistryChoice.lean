import Ant.Pkg.Metadata

/-! The choice between registries: a registry is chosen for a package when its metadata satisfies the
constraint, and the resolver then selects a version from the same metadata. -/
namespace Ant.Pkg.RegistryChoice
open Library.ByteLayout Library.ByteString Semver Metadata Option

variable (platform : Platform) (document : Option PackageMetadata) (metadata : PackageMetadata) (constraint : Constraint)

/-- The document is what its text parses to, if it does. -/
def metadataSatisfies (constraintStr : Bytes) : Bool :=
  match document,Constraint.parse constraintStr with
  | none,_ => false
  | some _,none => false
  | some metadata,some constraint =>
    (constraint.kind == .any && metadata.distTagLatest.any fun latest =>
      metadata.versions.any fun info => info.version.order latest == .eq && info.matchesPlatform platform) ||
    metadata.versions.any fun info => metadata.constraintMatches constraint info.version && info.matchesPlatform platform

def selected (constraintStr : Bytes) : Option VersionInfo :=
  document.bind fun metadata => (Constraint.parse constraintStr).bind (selectBestVersion platform metadata)

def Offered (info : VersionInfo) : Prop :=
  info ∈ metadata.versions ∧ metadata.constraintMatches constraint info.version = true ∧ info.matchesPlatform platform = true

/-- The versions that the selector looks at: tags and `any` reach prereleases, and so does a
constraint that names one. -/
def Reached (info : VersionInfo) : Prop :=
  constraint.kind = .tag ∨ constraint.kind = .any ∨ constraint.version.prerelease ≠ none ∨ info.version.prerelease = none

theorem greatest_isSome (passes : VersionInfo → Bool) :
    (greatest metadata passes).isSome = true ↔ ∃ info ∈ metadata.versions, passes info = true := by
  have fold (step : Option VersionInfo → VersionInfo → Option VersionInfo) (filled : ∀ best info, (step best info).isSome = true)
      (infos : List VersionInfo) (best : Option VersionInfo) :
      (infos.foldl step best).isSome = true ↔ best.isSome = true ∨ infos ≠ [] := by
    induction infos generalizing best with
    | nil => simp
    | cons info infos ih => simp [ih,filled]
  unfold greatest
  rw [fold _ _ (metadata.versions.filter passes) none]
  · simp
  · intro best info
    cases best with
    | none => rfl
    | some best =>
      dsimp only
      split <;> rfl

variable {platform metadata constraint}

theorem offered_any (any : constraint.kind = .any) {info : VersionInfo} :
    Offered platform metadata constraint info ↔ info ∈ metadata.versions ∧ info.matchesPlatform platform = true := by
  simp [Offered,PackageMetadata.constraintMatches,Constraint.satisfies,any]

theorem selectBestVersion_isSome : (selectBestVersion platform metadata constraint).isSome = true ↔
    ∃ info, Offered platform metadata constraint info ∧ Reached constraint info := by
  refine (firstFound_isSome _ _ _ _).trans ⟨?_,?_⟩
  · rintro (tagged | newest | best | last)
    · split at tagged
      next tag =>
        obtain ⟨info,inside,passes⟩ := List.find?_isSome.mp tagged
        exact ⟨info,⟨inside,by simpa using passes⟩,Or.inl tag⟩
      next => contradiction
    · split at newest
      next any =>
        obtain ⟨info,found⟩ := isSome_iff_exists.mp newest
        obtain ⟨wanted,-,found⟩ := bind_eq_some_iff.mp found
        have passes := List.find?_some found
        have runs := (Bool.and_eq_true_iff.mp passes).2
        exact ⟨info,(offered_any any).mpr ⟨List.mem_of_find?_eq_some found,runs⟩,Or.inr (Or.inl any)⟩
      next => contradiction
    · obtain ⟨info,inside,passes⟩ := (greatest_isSome _ _).mp best
      simp only [Bool.and_eq_true,Bool.or_eq_true,isNone_iff_eq_none,isSome_iff_ne_none] at passes
      exact ⟨info,⟨inside,passes.1.2,passes.1.1⟩,Or.inr (Or.inr passes.2.symm)⟩
    · split at last
      next => contradiction
      next any =>
        obtain ⟨info,inside,passes⟩ := (greatest_isSome _ _).mp last
        exact ⟨info,⟨inside,(Bool.and_eq_true_iff.mp passes).symm⟩,Or.inr (Or.inl (not_not.mp any))⟩
  · rintro ⟨info,⟨inside,fits,runs⟩,reached⟩
    rcases reached with tag | any | release
    · left
      rw [if_pos tag]
      exact List.find?_isSome.mpr ⟨info,inside,by simp [fits,runs]⟩
    · right; right; right
      rw [if_neg (not_not.mpr any)]
      exact (greatest_isSome _ _).mpr ⟨info,inside,by simp [fits,runs]⟩
    · right; right; left
      refine (greatest_isSome _ _).mpr ⟨info,inside,?_⟩
      simp only [Bool.and_eq_true,Bool.or_eq_true,isNone_iff_eq_none,isSome_iff_ne_none]
      exact ⟨⟨runs,fits⟩,release.symm⟩

theorem metadataSatisfies_iff {constraintStr : Bytes} (parsed : Constraint.parse constraintStr = some constraint) :
    metadataSatisfies platform (some metadata) constraintStr = true ↔ ∃ info, Offered platform metadata constraint info := by
  simp only [metadataSatisfies,parsed,Bool.or_eq_true,Bool.and_eq_true,beq_iff_eq,List.any_eq_true]
  constructor
  · rintro (⟨any,latest⟩ | offered)
    · obtain ⟨wanted,-,found⟩ := (any_eq_true _ _).mp latest
      obtain ⟨info,inside,passes⟩ := List.any_eq_true.mp found
      exact ⟨info,(offered_any any).mpr ⟨inside,(Bool.and_eq_true_iff.mp passes).2⟩⟩
    · exact offered
  · exact Or.inr

/-- The two agree unless every version that is offered is a prerelease that the selector passes over. -/
theorem registry_choice_iff (platform : Platform) (document : Option PackageMetadata) (constraintStr : Bytes) :
    (metadataSatisfies platform document constraintStr = true ↔ (selected platform document constraintStr).isSome = true) ↔
      ∀ metadata constraint, document = some metadata → Constraint.parse constraintStr = some constraint →
        (∃ info, Offered platform metadata constraint info) →
          ∃ info, Offered platform metadata constraint info ∧ Reached constraint info := by
  cases document with
  | none => simp [metadataSatisfies,selected]
  | some metadata =>
    cases parsed : Constraint.parse constraintStr with
    | none => simp [metadataSatisfies,selected,parsed]
    | some constraint =>
      rw [metadataSatisfies_iff parsed,selected,parsed,bind_some,bind_some,selectBestVersion_isSome]
      constructor
      · rintro agree _ _ ⟨⟩ ⟨⟩ offered
        exact agree.mp offered
      · intro reached
        exact ⟨reached metadata constraint rfl rfl,fun ⟨info,offered,_⟩ => ⟨info,offered⟩⟩

def beta : VersionInfo := ⟨⟨2,0,0,some (ascii "beta"),none⟩,[],[],[],[],[],[],none,none,none,[]⟩

theorem beta_chosen_not_selected :
    metadataSatisfies ⟨ascii "linux",ascii "x64",none⟩ (some ⟨[beta],none,[]⟩) (ascii ">=1.0.0") = true ∧
      selected ⟨ascii "linux",ascii "x64",none⟩ (some ⟨[beta],none,[]⟩) (ascii ">=1.0.0") = none := by
  decide +kernel

end Ant.Pkg.RegistryChoice
