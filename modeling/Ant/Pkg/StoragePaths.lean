import Ant.Pkg.StorageNames

/-! The path functions of `storage.c`. A normalized relative path is the list of its components;
`text` spells it. -/
namespace Ant.Pkg.StoragePaths
open Library.ByteLayout Library.ByteString Storage StorageNames List

inductive Kind where
  | filePath
  | safTree
  deriving DecidableEq,Repr

/-- As `ant_storage_context_create` and `ant_storage_context_create_child` make them. -/
structure Context where
  kind : Kind
  location : Bytes
  token : Bytes
  base : Path
  located : location ≠ []
  clean : ∀ part ∈ base, Clean part

def normalize (path : Bytes) : Option Path :=
  if isSafeRelative path then some ((parts path).filter counts) else none

variable {path : Bytes} {place base : Path} {context : Context}

theorem normalize_clean (ok : normalize path = some place) : ∀ part ∈ place, Clean part := by
  unfold normalize at ok
  split at ok
  next safe =>
    cases ok
    exact clean_of_safe safe
  next => contradiction

theorem clean_append (first : ∀ part ∈ base, Clean part) (second : ∀ part ∈ place, Clean part) :
    ∀ part ∈ base ++ place, Clean part := forall_mem_append.mpr ⟨first,second⟩

def createChild (parent : Context) (path : Bytes) : Option Context :=
  match ok : normalize path with
  | none => none
  | some relative =>
    some {parent with base := parent.base ++ relative, clean := clean_append parent.clean (normalize_clean ok)}

def isContent (path : Bytes) : Bool := (ascii "content://").isPrefixOf path

def isVirtual (path : Bytes) : Bool := (ascii "ant-saf://").isPrefixOf path

def virtualPrefix (context : Context) : Bytes := ascii "ant-saf://" ++ context.token ++ [slash]

section Paths
variable (context : Context)

def isInsideBase (relative : Path) : Bool := context.base.isPrefixOf relative

def withBase (relative : Path) : Path := context.base ++ relative

def joinFilePath (relative : Path) : Bytes :=
  context.location ++ (if context.location.getLast? = some slash then [] else [slash]) ++ text relative

def relativePath (path : Bytes) : Option Path :=
  if isContent path then none else
  match context.kind with
  | .safTree =>
    if (virtualPrefix context).isPrefixOf path then
      (normalize (path.drop (virtualPrefix context).length)).filter (isInsideBase context)
    else if isVirtual path then none else (normalize path).map (withBase context)
  | .filePath =>
    if isVirtual path then none else
    if path.head? = some slash then
      let rest := path.drop context.location.length
      if context.location.isPrefixOf path && (rest == [] || rest.head? == some slash) then
        (normalize (rest.dropWhile (· == slash))).filter (isInsideBase context)
      else none
    else (normalize path).map (withBase context)

def virtualPath (path : Bytes) : Option Bytes :=
  match context.kind with
  | .safTree =>
    if (virtualPrefix context).isPrefixOf path then
      ((normalize (path.drop (virtualPrefix context).length)).filter (isInsideBase context)).map fun relative =>
        virtualPrefix context ++ text relative
    else if isContent path || path.head?.any isSeparator then none
    else (normalize path).map fun relative => virtualPrefix context ++ text (withBase context relative)
  | .filePath =>
    if isVirtual path || isContent path then none else
    (if path.head? = some slash then relativePath context path else normalize path).map fun relative =>
      joinFilePath context (withBase context relative)

end Paths

theorem normalize_text {path : Path} (clean : ∀ part ∈ path, Clean part) : normalize (text path) = some path := by
  obtain ⟨safe,kept⟩ := safe_text clean
  rw [normalize,if_pos safe,kept]

theorem text_append {rest : Path} (first : base ≠ []) (second : rest ≠ []) :
    text (base ++ rest) = text base ++ slash :: text rest := by
  induction base with
  | nil => contradiction
  | cons part base ih =>
    by_cases last : base = []
    · subst last
      exact (join_cons [slash] part second).trans (append_assoc _ _ _)
    · have more : base ++ rest ≠ [] := by simp [last]
      rw [cons_append,text,join_cons _ _ more,text,join_cons _ _ last,← text,ih last]
      simp [text]

/-- No component of `place` is empty, `.` or `..`, its spelling does not start with a separator and stays under the base. -/
def Contained (context : Context) (place : Path) : Prop :=
  (∀ part ∈ place, Clean part) ∧ (place ≠ [] → parts (text place) = place) ∧ (text place).head?.any isSeparator = false ∧
    (context.base ≠ [] → text place = text context.base ∨ text context.base ++ [slash] <+: text place)

def Idempotent (context : Context) : Prop :=
  ∀ path result, virtualPath context path = some result → virtualPath context result = some result

section Context
variable {context : Context} {path : Bytes} {place : Path}

theorem contained (clean : ∀ part ∈ place, Clean part) (inside : context.base <+: place) : Contained context place := by
  refine ⟨clean,parts_text clean,text_head clean,fun based => ?_⟩
  obtain ⟨rest,rfl⟩ := inside
  by_cases none_ : rest = []
  · rw [none_,append_nil]
    exact Or.inl rfl
  · rw [text_append based none_]
    exact Or.inr ⟨text rest,by simp⟩

theorem filtered (ok : (normalize path).filter (isInsideBase context) = some place) :
    (∀ part ∈ place, Clean part) ∧ context.base <+: place := by
  obtain ⟨found,inside⟩ := Option.filter_eq_some_iff.mp ok
  exact ⟨normalize_clean found, isPrefixOf_iff_prefix.mp inside⟩

theorem based (ok : (normalize path).map (withBase context) = some place) :
    (∀ part ∈ place, Clean part) ∧ context.base <+: place := by
  obtain ⟨relative,found,rfl⟩ := Option.map_eq_some_iff.mp ok
  exact ⟨clean_append context.clean (normalize_clean found),prefix_append _ _⟩

theorem relativePath_inside (ok : relativePath context path = some place) :
    (∀ part ∈ place, Clean part) ∧ context.base <+: place := by
  unfold relativePath at ok
  split at ok
  next => cases ok
  split at ok
  next =>
    split at ok
    next => exact filtered ok
    split at ok
    next => cases ok
    next => exact based ok
  next =>
    split at ok
    next => cases ok
    split at ok
    next =>
      dsimp only at ok
      split at ok
      next => exact filtered ok
      next => cases ok
    next => exact based ok

theorem saf_idempotent (saf : context.kind = .safTree) : Idempotent context := by
  have again (place : Path) (clean : ∀ part ∈ place, Clean part) (inside : context.base <+: place) :
      virtualPath context (virtualPrefix context ++ text place) = some (virtualPrefix context ++ text place) := by
    simp [virtualPath,saf,normalize_text clean,isInsideBase,inside]
  intro path result ok
  simp only [virtualPath,saf] at ok
  split at ok
  next =>
    obtain ⟨place,found,rfl⟩ := Option.map_eq_some_iff.mp ok
    exact again place (filtered found).1 (filtered found).2
  split at ok
  next => cases ok
  next =>
    obtain ⟨relative,found,rfl⟩ := Option.map_eq_some_iff.mp ok
    exact again _ (clean_append context.clean (normalize_clean found)) (prefix_append _ _)

end Context

/-- An absolute location without a slash at its end, or one that names the current directory. -/
def Rooted (location : Bytes) : Prop :=
  (location.head? = some slash ∧ location.getLast? ≠ some slash) ∨ normalize location = some []

theorem parts_slash (before after : Bytes) : parts (before ++ slash :: after) = parts before ++ parts after := by
  have slashes : (if isSeparator slash then slash else slash) = slash := by simp
  rw [parts,map_append,map_cons,slashes,split_append]
  rfl

theorem text_injective {one two : Path} (first : ∀ part ∈ one, Clean part) (second : ∀ part ∈ two, Clean part)
    (same : text one = text two) : one = two := by
  have equal := normalize_text first
  rw [same,normalize_text second] at equal
  exact (Option.some.inj equal).symm

theorem safe_iff (some_ : path ≠ []) : isSafeRelative path = true ↔ isContent path = false ∧
    path.head?.any isSeparator = false ∧ path.all (fun char => !(char < 0x20)) = true ∧
    (parts path).all (· != [dot,dot]) = true := by
  simp only [isSafeRelative,beq_eq_false_iff_ne.mpr some_,Bool.false_or,Bool.and_eq_true,Bool.not_eq_true',isContent,and_assoc]

theorem no_scheme {char : UInt8} (head : path.head? = some char) (other : char = slash ∨ char = dot) :
    isVirtual path = false ∧ isContent path = false := by
  cases path with
  | nil => cases head
  | cons first rest =>
    cases head
    rcases other with rfl | rfl <;> exact ⟨rfl,rfl⟩

theorem join_parts (context : Context) (place : Path) : ∃ stem, parts (joinFilePath context place) = stem ++ parts (text place) ∧
    (stem = parts context.location ∨ stem ++ [[]] = parts context.location) := by
  by_cases last : context.location.getLast? = some slash
  · have whole := dropLast_append_getLast? _ last
    refine ⟨parts context.location.dropLast,?_,Or.inr ?_⟩
    · rw [joinFilePath,if_pos last,← whole,dropLast_concat,append_nil,append_assoc]
      exact parts_slash _ _
    · conv_rhs => rw [← whole]
      exact (parts_slash _ []).symm
  · refine ⟨parts context.location,?_,Or.inl rfl⟩
    rw [joinFilePath,if_neg last,append_assoc]
    exact parts_slash _ _

theorem join_head (context : Context) (place : Path) : (joinFilePath context place).head? = context.location.head? := by
  rw [joinFilePath,append_assoc,head?_append,Option.or_of_isSome (isSome_head?.mpr context.located)]

section FilePath
variable {context : Context} {place : Path} (clean : ∀ part ∈ place, Clean part)
include clean

theorem join_filter : (parts (joinFilePath context place)).filter counts = (parts context.location).filter counts ++ place := by
  obtain ⟨stem,joined,same | same⟩ := join_parts context place
  · rw [joined,← same,filter_append,(safe_text clean).2]
  · rw [joined,← same,filter_append,(safe_text clean).2]
    simp [counts]

theorem join_safe : isSafeRelative (joinFilePath context place) = true ↔ isContent (joinFilePath context place) = false ∧
    context.location.head?.any isSeparator = false ∧ context.location.all (fun char => !(char < 0x20)) = true ∧
    (parts context.location).all (· != [dot,dot]) = true := by
  have some_ : joinFilePath context place ≠ [] := by simp [joinFilePath,context.located]
  have visible : (joinFilePath context place).all (fun char => !(char < 0x20)) = context.location.all (fun char => !(char < 0x20)) := by
    have spelled : (text place).all (fun char => !(char < 0x20)) = true := by
      rw [all_eq_true]
      intro char member
      simpa using text_nonzero clean member
    unfold joinFilePath
    split <;> simp [spelled,slash]
  have dots : (parts (joinFilePath context place)).all (· != [dot,dot]) = (parts context.location).all (· != [dot,dot]) := by
    have spelled : (parts (text place)).all (· != [dot,dot]) = true := by
      by_cases empty : place = []
      · subst empty
        rfl
      · rw [parts_text clean empty,all_eq_true]
        exact fun part member => by simpa using (clean part member).2.2.1
    obtain ⟨stem,joined,same | same⟩ := join_parts context place
    · rw [joined,← same,all_append,spelled,Bool.and_true]
    · rw [joined,← same,all_append,spelled]
      simp
  rw [safe_iff some_,join_head,visible,dots]

theorem relativePath_join (file : context.kind = .filePath) (absolute : context.location.head? = some slash) :
    relativePath context (joinFilePath context place) =
      if context.location.getLast? = some slash ∧ place ≠ [] then none else (some place).filter (isInsideBase context) := by
  have head := (join_head context place).trans absolute
  have free := no_scheme head (Or.inl rfl)
  have start := text_head clean
  have trimmed : (text place).dropWhile (· == slash) = text place := by
    cases spelled : text place with
    | nil => rfl
    | cons char rest =>
      have plain : char ≠ slash := by
        rintro rfl
        simp [spelled,isSeparator] at start
      simp [plain]
  simp only [relativePath,free,file,head]
  by_cases last : context.location.getLast? = some slash
  · by_cases none_ : place = []
    · subst none_
      simp [joinFilePath,last,Library.ByteString.join]
      rfl
    · cases spelled : text place with
      | nil => exact absurd (text_injective clean (forall_mem_nil _) spelled) none_
      | cons char rest =>
        have plain : char ≠ slash := by
          rintro rfl
          simp [spelled,isSeparator] at start
        simp [joinFilePath,last,none_,spelled,plain]
  · simp [joinFilePath,last,trimmed,normalize_text clean]

end FilePath

theorem local_head {location : Bytes} (some_ : location ≠ []) (here : normalize location = some []) :
    isSafeRelative location = true ∧ (parts location).filter counts = [] ∧ location.head? = some dot := by
  unfold normalize at here
  split at here
  next safe =>
    have none_ := Option.some.inj here
    refine ⟨safe,none_,?_⟩
    cases location with
    | nil => contradiction
    | cons char rest =>
      have plain := ((safe_iff some_).mp safe).2.1
      simp only [head?_cons,Option.any_some] at plain
      have other : char ≠ slash := by
        rintro rfl
        simp [isSeparator] at plain
      simp only [parts,map_cons,plain,Bool.false_eq_true,if_false,split,other] at none_
      split at none_ <;> simp_all [counts]
  next => cases here

theorem file_idempotent (file : context.kind = .filePath) (bare : context.base = []) (rooted : Rooted context.location) :
    Idempotent context := by
  intro path result ok
  simp only [virtualPath,file] at ok
  split at ok
  next => cases ok
  obtain ⟨place,found,rfl⟩ := Option.map_eq_some_iff.mp ok
  have clean : ∀ part ∈ place, Clean part := by
    split at found
    next => exact (relativePath_inside found).1
    next => exact normalize_clean found
  have same : withBase context place = place := by rw [withBase,bare,nil_append]
  have head := join_head context place
  rcases rooted with ⟨absolute,bounded⟩ | local_
  · have free := no_scheme (head.trans absolute) (Or.inl rfl)
    simp [virtualPath,file,free,head,absolute,relativePath_join clean file absolute,bounded,isInsideBase,bare,withBase]
  · obtain ⟨safe,none_,dotted⟩ := local_head context.located local_
    have free := no_scheme (head.trans dotted) (Or.inr rfl)
    have accepted : normalize (joinFilePath context place) = some place := by
      have spelled := (join_safe clean).mpr ⟨free.2,((safe_iff context.located).mp safe).2⟩
      rw [normalize,if_pos spelled,join_filter clean,none_,nil_append]
    have other : dot ≠ slash := by decide
    simp [virtualPath,file,free,head,dotted,other,accepted,withBase,bare]

theorem rooted_of_idempotent (file : context.kind = .filePath) (again : Idempotent context) :
    context.base = [] ∧ Rooted context.location := by
  have clean : ∀ part ∈ context.base ++ [[120]], Clean part :=
    clean_append context.clean (forall_mem_singleton.mpr (by decide +kernel))
  have first : virtualPath context [120] = some (joinFilePath context (context.base ++ [[120]])) := by
    simp only [virtualPath,file]
    rfl
  have second := again _ _ first
  simp only [virtualPath,file] at second
  split at second
  next => cases second
  obtain ⟨other,found,same⟩ := Option.map_eq_some_iff.mp second
  have plain : ∀ part ∈ other, Clean part := by
    split at found
    next => exact (relativePath_inside found).1
    next => exact normalize_clean found
  have equal := text_injective (clean_append context.clean plain) clean (append_cancel_left same)
  obtain rfl := append_cancel_left equal
  rw [join_head] at found
  split at found
  next absolute =>
    rw [relativePath_join clean file absolute] at found
    split at found
    next => cases found
    next bounded =>
      have short := congrArg List.length (Option.some.inj (Option.filter_eq_some_iff.mp found).1)
      exact ⟨length_eq_zero_iff.mp (by simpa using short),Or.inl ⟨absolute,by simpa using bounded⟩⟩
  next =>
    unfold normalize at found
    split at found
    next safe =>
      have short := Option.some.inj found
      rw [join_filter clean,← append_assoc] at short
      have none_ := append_eq_nil_iff.mp (append_cancel_right short)
      refine ⟨none_.2,Or.inr ?_⟩
      have spelled := (join_safe clean).mp safe
      have content : isContent context.location = false := by
        rw [Bool.eq_false_iff]
        intro content
        have within : ascii "content://" <+: joinFilePath context (context.base ++ [[120]]) := by
          rw [joinFilePath,append_assoc]
          exact ( isPrefixOf_iff_prefix.mp content).trans (prefix_append _ _)
        rw [isContent, isPrefixOf_iff_prefix.mpr within] at spelled
        cases spelled.1
      rw [normalize,if_pos ((safe_iff context.located).mpr ⟨content,spelled.2⟩),none_.1]
    next => cases found

/-- What the two functions promise holds for every tree, and for a file location without a base that is rooted. -/
theorem storage_paths_iff (context : Context) :
    ((∀ path place, relativePath context path = some place → Contained context place) ∧ Idempotent context) ↔
      context.kind = .safTree ∨ context.base = [] ∧ Rooted context.location := by
  have inside : ∀ path place, relativePath context path = some place → Contained context place := fun path place ok =>
    contained (relativePath_inside ok).1 (relativePath_inside ok).2
  rw [and_iff_right inside]
  cases kind : context.kind with
  | safTree => exact iff_of_true (saf_idempotent kind) (Or.inl rfl)
  | filePath =>
    constructor
    · exact fun again => Or.inr (rooted_of_idempotent kind again)
    · rintro (saf | ⟨bare,rooted⟩)
      · cases saf
      · exact file_idempotent kind bare rooted

def basedContext : Context := ⟨.filePath,ascii "/r",[],[ascii "b"],by decide,by decide +kernel⟩

/-- Below the base `b` of `/r`, the path of `x` is `/r/b/x`, and the path of that is `/r/b/b/x`. -/
theorem based_path_grows : virtualPath basedContext (ascii "x") = some (ascii "/r/b/x") ∧
    virtualPath basedContext (ascii "/r/b/x") = some (ascii "/r/b/b/x") ∧
    ¬ ((∀ path place, relativePath basedContext path = some place → Contained basedContext place) ∧
      Idempotent basedContext) := by
  have first : virtualPath basedContext (ascii "x") = some (ascii "/r/b/x") := by decide +kernel
  have second : virtualPath basedContext (ascii "/r/b/x") = some (ascii "/r/b/b/x") := by decide +kernel
  refine ⟨first,second,fun both => ?_⟩
  have same := second.symm.trans (both.2 _ _ first)
  exact absurd same (by decide +kernel)

end Ant.Pkg.StoragePaths
