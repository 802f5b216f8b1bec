import Ant.Pkg.Storage

/-! What the operations of a store do, path by path. -/
namespace Ant.Pkg.StorageSpec
open Library.ByteLayout Library.ByteString Library.Effect Library.PathTree Storage List

def grown (store : Store) (path place : Path) : Option (Node Bytes) :=
  if place <+: path ∧ get store place = none then some .dir else get store place

variable {place path : Path} {result : Store}

section
variable {store : Store} {path : Path}

theorem get_mkdir {store : Store} {above : Path} (name : Bytes) (parent : get store above = some .dir) (place : Path) :
    get (mkdir store (above ++ [name])) place =
      if place = above ++ [name] ∧ get store place = none then some .dir else get store place := by
  unfold mkdir
  split
  next present =>
    split
    next absent =>
      rw [absent.1] at absent
      simp [absent] at present
    next => rfl
  next absent =>
    have nothing : get store (above ++ [name]) = none := by simpa using absent
    have fits : Fits store (above ++ [name]) := ⟨by simp,by simpa using parent,by simp [nothing]⟩
    rw [get_put store place _ fits]
    by_cases here : place = above ++ [name]
    · simp [here,nothing]
    · simp [here]

theorem mkdirsFrom_get (store result : Store) (above rest : Path) (present : (get store above).isSome)
    (ok : mkdirsFrom store above rest = .ok result) (place : Path) :
    get result place = grown store (above ++ rest) place := by
  induction rest generalizing store above with
  | nil =>
    cases ok
    unfold grown
    split
    next missing =>
      by_cases whole : place = above
      · simp [← whole,missing.2] at present
      · have isDir := get_of_prefix result (by simpa using missing.1) whole present
        simp [missing.2] at isDir
    next => rfl
  | cons name rest ih =>
    simp only [mkdirsFrom] at ok
    split at ok
    next isDir =>
      have made := get_mkdir name isDir
      have exists_ : (get (mkdir store (above ++ [name])) (above ++ [name])).isSome := by
        rw [made]
        split
        next => rfl
        next other => simpa [Option.isSome_iff_ne_none] using other
      rw [ih _ _ exists_ ok]
      simp only [grown,made]
      by_cases here : place = above ++ [name] ∧ get store place = none
      · simp [here.1 ▸ here.2,here]
      · simp [here]
    next => contradiction

theorem fileMkdirs_get {store : Store} (result : Store) (path : Path) (ok : fileMkdirs store path = .ok result) (place : Path) :
    get result place = grown store path place :=
  mkdirsFrom_get store result [] path (by simp) ok place

theorem fileWrite_get (data : Bytes) (truncate : Bool) (store result : Store) (path : Path)
    (ok : fileWrite data truncate store path = .ok result) : (∃ content, get result path = some (.leaf content)) ∧
    ∀ place, place ≠ path → get result place = grown store path place := by
  unfold fileWrite at ok
  split at ok
  next => contradiction
  next made directories =>
    have before := fileMkdirs_get made path.dropLast directories
    have same : ∀ place, place ≠ path → grown store path.dropLast place = grown store path place := by
      intro place different
      have parts : place <+: path.dropLast ↔ place <+: path := by
        constructor
        · exact fun above => above.trans ( dropLast_prefix path)
        · rintro ⟨rest,rfl⟩
          have more : rest ≠ [] := by
            rintro rfl
            simp at different
          rw [dropLast_append_of_ne_nil more]
          exact prefix_append _ _
      simp only [grown,parts]
    split at ok
    next => contradiction
    next old present =>
      cases ok
      have fits := fits_of_leaf old present
      refine ⟨⟨_,by rw [get_put made path _ fits,if_pos rfl]⟩,?_⟩
      intro place different
      rw [get_put_ne made path place _ different,before,same place different]
    next absent =>
      split at ok
      next fits =>
        cases ok
        refine ⟨⟨_,by rw [get_put made path _ fits,if_pos rfl]⟩,?_⟩
        intro place different
        rw [get_put_ne made path place _ different,before,same place different]
      next => contradiction

theorem get_below_none {path : Path} (absent : get store path = none) (below : path <+: place) : get store place = none := by
  by_contra present
  by_cases same : path = place
  · exact present (same ▸ absent)
  · have isDir := get_of_prefix store below same (Option.isSome_iff_ne_none.mpr present)
    simp [absent] at isDir

theorem fileStat_some {node : Node Bytes} (ok : fileStat store path = .ok (some node)) : get store path = some node := by
  unfold fileStat at ok
  split at ok
  next found =>
    cases ok
    exact found
  next => split at ok <;> cases ok

theorem fileStat_none (ok : fileStat store path = .ok none) : get store path = none := by
  unfold fileStat at ok
  split at ok
  next => cases ok
  next absent => exact absent

end

theorem fileRemove_get (store result : Store) (path : Path) (ok : fileRemove store path = .ok result) (place : Path) :
    get result place = if place ≠ [] ∧ path <+: place then none else get store place := by
  unfold fileRemove at ok
  split at ok
  next => contradiction
  next missing =>
    cases ok
    have absent := fileStat_none missing
    split
    next below => exact get_below_none absent below.2
    next => rfl
  next =>
    cases ok
    exact get_eraseTree store

theorem removed_get (store : Store) (path place : Path) : get (update (fileRemove · path) store).1 place =
    if place ≠ [] ∧ path <+: place then none else get store place := by
  cases result : fileRemove store path with
  | ok next => simpa [update,result] using fileRemove_get store next path result place
  | error error =>
    have absent : get store path = none := by
      unfold fileRemove fileStat at result
      cases found : get store path with
      | none => rfl
      | some node => simp [found] at result
    simp only [update,result]
    split
    next below => exact get_below_none absent below.2
    next => rfl

def HasFile (store : Store) (place : Path) : Prop := ∃ content, get store place = some (.leaf content)

theorem hasFile_grown (store result : Store) (path place : Path) (same : get result place = grown store path place) :
    HasFile result place ↔ HasFile store place := by
  unfold HasFile
  rw [same,grown]
  split
  next missing => simp [missing.2]
  next => rfl

def Kept (store result : Store) (path place : Path) : Prop :=
  get result place = get store place ∨ (get store place = none ∧ get result place = some .dir ∧ place <+: path)

theorem kept_grown (store result : Store) (path place : Path) (same : get result place = grown store path place) :
    Kept store result path place := by
  unfold Kept
  rw [same,grown]
  split
  next missing => exact Or.inr ⟨missing.2,rfl,missing.1⟩
  next => exact Or.inl rfl

theorem Kept.trans {one two three : Store} (first : Kept one two path place) (second : Kept two three path place) :
    Kept one three path place := by
  rcases first with same | ⟨absent,made,above⟩
  · unfold Kept at *
    rwa [same] at second
  · rcases second with same | ⟨gone,_,_⟩
    · exact Or.inr ⟨absent,same.trans made,above⟩
    · simp [made] at gone

theorem Kept.mono {store : Store} {longer : Path} (kept : Kept store result path place)
    (above : place <+: path → place <+: longer) : Kept store result longer place :=
  kept.imp_right fun made => ⟨made.1,made.2.1,above made.2.2⟩

theorem child_apart (name other : Bytes) (below : Path) (different : name ≠ other) :
    ¬ path ++ [name] <+: path ++ other :: below := by
  intro inside
  obtain ⟨_,same⟩ := inside
  simp at same
  exact different same.1

section Copy
variable (source : Store) (origin target : Path)

theorem copyChildren_get {copy : Bytes → Action StorageError Store} {names : List Bytes} (distinct : names.Nodup)
    (step : ∀ name ∈ names, ∀ store result, get store (target ++ [name]) = none → copy name store = (result,none) → (∀ rest, get result (target ++ name :: rest) = get source (origin ++ name :: rest)) ∧ ∀ place, ¬ target ++ [name] <+: place → get result place = grown store (target ++ [name]) place)
    (store : Store) (parent : get store target = some .dir) (free : ∀ name ∈ names, get store (target ++ [name]) = none)
    (ok : forEach copy names store = (result,none)) :
    (∀ name ∈ names, ∀ rest, get result (target ++ name :: rest) = get source (origin ++ name :: rest)) ∧
    ∀ place, (∀ name ∈ names, ¬ target ++ [name] <+: place) → get result place = get store place := by
  induction names generalizing store with
  | nil =>
    cases ok
    exact ⟨by simp,fun _ _ => rfl⟩
  | cons name names ih =>
    obtain ⟨fresh,others⟩ := nodup_cons.mp distinct
    obtain ⟨middle,first,rest⟩ := andThen_success ok
    obtain ⟨copied,elsewhere⟩ := step name (by simp) store middle (free name (by simp)) first
    -- the directories above the child exist already
    have kept : ∀ place, ¬ target ++ [name] <+: place → get middle place = get store place := by
      intro place outside
      rw [elsewhere place outside,grown]
      split
      next missing =>
        have above : place <+: target := by
          rcases prefix_concat_iff.mp missing.1 with whole | above
          · exact absurd (whole ▸ prefix_refl place) outside
          · exact above
        by_cases same : place = target
        · rw [same,parent] at missing
          exact absurd missing.2 (by simp)
        · have isDir := get_of_prefix store above same (by simp [parent])
          simp [missing.2] at isDir
      next => rfl
    have stillDir : get middle target = some .dir := by
      rw [kept target,parent]
      intro inside
      have longer := inside.length_le
      simp only [length_append,length_singleton] at longer
      omega
    obtain ⟨done,unchanged⟩ := ih others (fun other member => step other (by simp [member])) middle stillDir
      (fun other member => by
        rw [kept _ (child_apart name other [] fun same => fresh (same ▸ member))]
        exact free other (by simp [member])) rest
    constructor
    · intro other member below
      rcases mem_cons.mp member with rfl | later
      · rw [unchanged,copied]
        intro next laterMember
        exact child_apart next other below fun same => fresh (same ▸ laterMember)
      · exact done other later below
    · intro place outside
      rw [unchanged place fun other member => outside other (by simp [member]),kept place (outside name (by simp))]

theorem fileCopy_get (fuel : Nat) (store result : Store) (free : get store target = none)
    (ok : fileCopy (fun _ => source) fuel origin target store = (result,none)) :
    (∀ rest, get result (target ++ rest) = get source (origin ++ rest)) ∧
    ∀ place, ¬ target <+: place → get result place = grown store target place := by
  induction fuel generalizing origin target store result with
  | zero => simp [fileCopy,fail] at ok
  | succ fuel ih =>
    have nothing : ∀ name rest, get store (target ++ name :: rest) = none :=
      fun name rest => get_below_none free (prefix_append _ _)
    have beyond : ∀ name rest, grown store target (target ++ name :: rest) = none := by
      intro name rest
      rw [grown,if_neg,nothing name rest]
      intro above
      have longer := above.1.length_le
      simp only [length_append,length_cons] at longer
      omega
    simp only [fileCopy] at ok
    split at ok
    next => cases ok
    next => cases ok
    next data stated =>
      have isFile := fileStat_some stated
      have written := update_success ok
      obtain ⟨_,elsewhere⟩ := fileWrite_get data true store result target written
      constructor
      · intro rest
        cases rest with
        | nil => simpa [isFile] using fileWrite_truncate written
        | cons name rest =>
          rw [elsewhere _ (by simp),beyond]
          by_contra present
          have isDir := get_above source origin (name :: rest) (by simp) (Option.isSome_iff_ne_none.mpr (Ne.symm present))
          rw [isFile] at isDir
          cases isDir
      · intro place outside
        exact elsewhere place fun same => outside (same ▸ prefix_refl place)
    next stated =>
      have isDir := fileStat_some stated
      obtain ⟨made,directories,copies⟩ := andThen_success ok
      have before := fileMkdirs_get made target (update_success directories)
      have madeDir : get made target = some .dir := by
        rw [before,grown,if_pos ⟨prefix_refl target,free⟩]
      obtain ⟨copied,unchanged⟩ := copyChildren_get source origin target
        children_nodup
        (fun name _ store result free ok => by simpa using ih (origin ++ [name]) (target ++ [name]) store result free ok)
        made madeDir (fun name _ => by rw [before,beyond]) copies
      constructor
      · intro rest
        cases rest with
        | nil =>
          rw [append_nil,append_nil,isDir,unchanged target,madeDir]
          intro name _ inside
          have longer := inside.length_le
          simp only [length_append,length_singleton] at longer
          omega
        | cons name rest =>
          by_cases member : name ∈ children source origin
          · exact copied name member rest
          · have absent : get source (origin ++ [name]) = none := by
              rwa [mem_children_iff,Option.not_isSome_iff_eq_none] at member
            rw [unchanged,before,beyond,show origin ++ name :: rest = origin ++ [name] ++ rest by simp,
              get_below_none absent (prefix_append _ rest)]
            intro other otherMember
            exact child_apart other name rest fun same => member (same ▸ otherMember)
      · intro place outside
        rw [unchanged,before]
        intro name _ inside
        exact outside ((prefix_append target [name]).trans inside)

end Copy

end Ant.Pkg.StorageSpec
