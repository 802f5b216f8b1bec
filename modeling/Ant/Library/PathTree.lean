import Ant.Library.OrderedMap
import Mathlib.Data.List.Induction

/-! Finite trees of directories and leaves, as maps from paths. The root is always a
directory, and so is the parent of every other node. -/
namespace Ant.Library.PathTree
open OrderedMap List

variable {ν γ : Type} [DecidableEq ν]

inductive Node (γ : Type) where
  | dir
  | leaf (content : γ)
  deriving DecidableEq,Repr

abbrev Entries (ν γ : Type) := List (List ν × Node γ)

def lookup (entries : Entries ν γ) (path : List ν) : Option (Node γ) :=
  if path = [] then some .dir else find path entries

@[ext] structure Tree (ν γ : Type) [DecidableEq ν] where
  entries : Entries ν γ
  distinct : (entries.map Prod.fst).Nodup
  closed : ∀ path name, (lookup entries (path ++ [name])).isSome → lookup entries path = some .dir

def empty : Tree ν γ := ⟨[],by simp,by simp [lookup]⟩

def get (tree : Tree ν γ) (path : List ν) : Option (Node γ) := lookup tree.entries path

/-- A node can be put where the parent is a directory and no directory is replaced. -/
def Fits (tree : Tree ν γ) (path : List ν) : Prop :=
  path ≠ [] ∧ get tree path.dropLast = some .dir ∧ get tree path ≠ some .dir

instance [DecidableEq γ] (tree : Tree ν γ) (path : List ν) : Decidable (Fits tree path) :=
  inferInstanceAs (Decidable (_ ∧ _))

theorem lookup_put (entries : Entries ν γ) (path other : List ν) (node : Node γ) (below : path ≠ []) :
    lookup (OrderedMap.put path node entries) other = if other = path then some node else lookup entries other := by
  unfold lookup
  by_cases root : other = []
  · simp [root,below.symm]
  · simp [root,find_put]

theorem lookup_filter {entries : Entries ν γ} {path other : List ν} :
    lookup (entries.filter fun entry => !path.isPrefixOf entry.1) other =
      if other ≠ [] ∧ path <+: other then none else lookup entries other := by
  unfold lookup
  by_cases root : other = []
  · simp [root]
  · rw [if_neg root,if_neg root,find_filter fun key => !path.isPrefixOf key]
    by_cases inside : path <+: other
    · simp [root,inside, isPrefixOf_iff_prefix.mpr inside]
    · simp [inside]

/-- Putting where a node does not fit changes nothing. -/
def put [DecidableEq γ] (tree : Tree ν γ) (path : List ν) (node : Node γ) : Tree ν γ :=
  if fits : Fits tree path then
    { entries := OrderedMap.put path node tree.entries
      distinct := put_keys_nodup path node tree.entries tree.distinct
      closed := by
        intro parent name present
        rw [lookup_put _ _ _ _ fits.1] at present ⊢
        by_cases here : parent ++ [name] = path
        · have isDir := fits.2.1
          rw [← here,dropLast_concat] at isDir
          have different : parent ≠ path := by
            intro same
            have length := congrArg List.length here
            simp [same] at length
          rw [if_neg different]
          exact isDir
        · rw [if_neg here] at present
          have isDir := tree.closed parent name present
          have different : parent ≠ path := fun same => fits.2.2 (same ▸ isDir)
          rw [if_neg different]
          exact isDir }
  else tree

def eraseTree (tree : Tree ν γ) (path : List ν) : Tree ν γ where
  entries := tree.entries.filter fun entry => !path.isPrefixOf entry.1
  distinct := tree.distinct.sublist (filter_sublist.map _)
  closed := by
    intro parent name present
    rw [lookup_filter] at present ⊢
    split at present
    next => contradiction
    next outside =>
      have isDir := tree.closed parent name present
      have kept : ¬ (parent ≠ [] ∧ path <+: parent) := by
        rintro ⟨_,above⟩
        exact outside ⟨by simp,above.trans (prefix_append _ _)⟩
      rw [if_neg kept]
      exact isDir

def isDir (tree : Tree ν γ) (path : List ν) : Bool :=
  match get tree path with
  | some .dir => true
  | _ => false

def children (tree : Tree ν γ) (path : List ν) : List ν :=
  tree.entries.filterMap fun entry => if entry.1.dropLast = path then entry.1.getLast? else none

def leafCount (tree : Tree ν γ) (path : List ν) : Nat :=
  tree.entries.countP fun entry => entry.1 ≠ [] && path.isPrefixOf entry.1 && entry.2 matches .leaf _

@[simp] theorem get_root (tree : Tree ν γ) : get tree [] = some .dir := by simp [get,lookup]

theorem isDir_iff (tree : Tree ν γ) (path : List ν) : isDir tree path = true ↔ get tree path = some .dir := by
  unfold isDir
  split
  next found => simp [found]
  next other => exact ⟨by simp,fun found => absurd found other⟩

theorem get_empty {path : List ν} (below : path ≠ []) : get (empty : Tree ν γ) path = none := by
  simp [get,lookup,below,empty]

section
variable (tree : Tree ν γ)
include tree

theorem get_above (path below : List ν) (more : below ≠ []) (present : (get tree (path ++ below)).isSome) :
    get tree path = some .dir := by
  induction below using List.reverseRecOn with
  | nil => contradiction
  | append_singleton below name ih =>
    rw [← append_assoc] at present
    have parent : get tree (path ++ below) = some .dir := tree.closed _ _ present
    by_cases last : below = []
    · simpa [last] using parent
    · exact ih last (by rw [parent]; rfl)

theorem get_of_prefix {path lower : List ν} (above : path <+: lower) (different : path ≠ lower)
    (present : (get tree lower).isSome) : get tree path = some .dir := by
  obtain ⟨below,rfl⟩ := above
  exact get_above tree path below (by rintro rfl; simp at different) present

theorem get_eraseTree {path other : List ν} :
    get (eraseTree tree path) other = if other ≠ [] ∧ path <+: other then none else get tree other :=
  lookup_filter

theorem mem_entries_iff {path : List ν} (node : Node γ) (below : path ≠ []) :
    (path,node) ∈ tree.entries ↔ get tree path = some node := by
  rw [get,lookup,if_neg below]
  exact ⟨find_of_mem path node tree.entries tree.distinct,mem_of_find path node tree.entries⟩

end

private theorem snoc_of_child {key path : List ν} {name : ν}
    (chosen : (if key.dropLast = path then key.getLast? else none) = some name) : key = path ++ [name] := by
  split at chosen
  next parent =>
    have nonempty : key ≠ [] := by
      rintro rfl
      contradiction
    rw [getLast?_eq_getLast_of_ne_nil nonempty] at chosen
    rw [← parent,← Option.some.inj chosen,dropLast_append_getLast]
  next => contradiction

theorem mem_children_iff (tree : Tree ν γ) (path : List ν) (name : ν) :
    name ∈ children tree path ↔ (get tree (path ++ [name])).isSome := by
  have below : path ++ [name] ≠ [] := by simp
  constructor
  · intro member
    obtain ⟨⟨key,node⟩,stored,chosen⟩ := mem_filterMap.mp member
    have whole := snoc_of_child chosen
    subst whole
    rw [(mem_entries_iff tree node below).mp stored]
    rfl
  · intro present
    obtain ⟨node,found⟩ := Option.isSome_iff_exists.mp present
    refine mem_filterMap.mpr ⟨(path ++ [name],node),(mem_entries_iff tree node below).mpr found,?_⟩
    simp

theorem children_nodup {tree : Tree ν γ} {path : List ν} : (children tree path).Nodup := by
  have keys : children tree path =
      (tree.entries.map Prod.fst).filterMap fun key => if key.dropLast = path then key.getLast? else none := by
    rw [filterMap_map]
    rfl
  rw [keys]
  refine tree.distinct.filterMap ?_
  intro one two name first second
  rw [snoc_of_child first,snoc_of_child second]

theorem leafCount_congr {one two : Tree ν γ} {path : List ν}
    (same : ∀ place, path <+: place → get one place = get two place) : leafCount one path = leafCount two path := by
  simp only [leafCount,countP_eq_length_filter]
  refine List.Perm.length_eq ((perm_ext_iff_of_nodup (one.distinct.of_map.filter _)
    (two.distinct.of_map.filter _)).mpr ?_)
  rintro ⟨key,node⟩
  simp only [mem_filter,Bool.and_eq_true,decide_eq_true_eq,and_congr_left_iff]
  rintro ⟨⟨below,inside⟩,_⟩
  rw [mem_entries_iff one node below,mem_entries_iff two node below,
    same key ( isPrefixOf_iff_prefix.mp inside)]

theorem fits_of_leaf {tree : Tree ν γ} {path : List ν} (content : γ) (present : get tree path = some (.leaf content)) :
    Fits tree path := by
  have below : path ≠ [] := by
    rintro rfl
    simp at present
  refine ⟨below,?_,by simp [present]⟩
  have above := get_above tree path.dropLast [path.getLast below] (by simp)
  rw [dropLast_append_getLast] at above
  exact above (by simp [present])

section Put
variable [DecidableEq γ]

section
variable (tree : Tree ν γ)
include tree

theorem get_put {path : List ν} (other : List ν) (node : Node γ) (fits : Fits tree path) :
    get (put tree path node) other = if other = path then some node else get tree other := by
  rw [put,dif_pos fits]
  exact lookup_put tree.entries path other node fits.1

theorem put_of_not_fits {path : List ν} (node : Node γ) (unfit : ¬ Fits tree path) :
    put tree path node = tree := dif_neg unfit

theorem get_put_ne (path other : List ν) (node : Node γ) (different : other ≠ path) :
    get (put tree path node) other = get tree other := by
  by_cases fits : Fits tree path
  · rw [get_put tree other node fits,if_neg different]
  · rw [put_of_not_fits tree node fits]

end

end Put

end Ant.Library.PathTree
