import Ant.Pkg.StorageSpec

/-! The names that a store gets from normalized paths, and stores that hold no others. -/
namespace Ant.Pkg.StorageNames
open Library.ByteLayout Library.ByteString Library.Effect Library.PathTree Storage StorageSpec List

def Clean (part : Bytes) : Prop :=
  part ≠ [] ∧ part ≠ [dot] ∧ part ≠ [dot,dot] ∧ ∀ char ∈ part, isSeparator char = false ∧ ¬ char < 0x20

instance (part : Bytes) : Decidable (Clean part) :=
  inferInstanceAs (Decidable (part ≠ [] ∧ part ≠ [dot] ∧ part ≠ [dot,dot] ∧
    ∀ char ∈ part, isSeparator char = false ∧ ¬ char < 0x20))

def text (path : Path) : Bytes := Library.ByteString.join [slash] path

theorem slash_not_mem {part : Bytes} (clean : Clean part) : slash ∉ part := by
  intro member
  have plain := (clean.2.2.2 slash member).1
  simp [isSeparator] at plain

variable {char : UInt8} {place : Path} {store source : Store}

section
variable {path : Path} (clean : ∀ part ∈ path, Clean part)
include path clean

theorem text_char (member : char ∈ text path) : char = slash ∨ (isSeparator char = false ∧ ¬ char < 0x20) := by
  rcases mem_join member with between | ⟨part,present,inside⟩
  · exact Or.inl (mem_singleton.mp between)
  · exact Or.inr ((clean part present).2.2.2 char inside)

theorem text_nonzero (member : char ∈ text path) : ¬ char < 0x20 := by
  rcases text_char clean member with rfl | plain
  · decide
  · exact plain.2

theorem text_separators : (text path).map (fun char => if isSeparator char then slash else char) = text path := by
  refine (map_congr_left fun char member => ?_).trans (map_id _)
  rcases text_char clean member with rfl | plain
  · simp
  · simp [plain.1]

theorem parts_text (some_ : path ≠ []) : parts (text path) = path := by
  rw [parts,text_separators clean,text,
    split_join some_ fun part member => slash_not_mem (clean part member)]

theorem parts_append (some_ : path ≠ []) (rest : Bytes) : parts (text path ++ slash :: rest) = path ++ parts rest := by
  have slashes : (if isSeparator slash then slash else slash) = slash := by simp
  rw [parts,map_append,text_separators clean,map_cons,slashes,split_append,text,
    split_join some_ fun part member => slash_not_mem (clean part member)]
  rfl

theorem untilZero_text (rest : Bytes) : untilZero (text path ++ rest) = text path ++ untilZero rest := by
  refine takeWhile_append_of_pos fun char member => ?_
  have visible := text_nonzero clean member
  simp only [bne_iff_ne]
  rintro rfl
  exact visible (by decide)

theorem text_no_scheme (some_ : path ≠ []) (scheme rest : Bytes) (same : text path = scheme ++ slash :: slash :: rest) :
    False := by
  have whole := parts_text clean some_
  rw [parts,text_separators clean,same,show slash :: rest = [] ++ slash :: rest from rfl,
    split_append] at whole
  have empty : [] ∈ path := by
    rw [← whole]
    simp [split]
  exact (clean [] empty).1 rfl

theorem text_head : (text path).head?.any isSeparator = false := by
  cases path with
  | nil => rfl
  | cons part parts =>
    obtain ⟨char,more,rfl⟩ := exists_cons_of_ne_nil (clean part (by simp)).1
    have plain := ((clean (char :: more) (by simp)).2.2.2 char (by simp)).1
    cases parts with
    | nil => simpa [text,Library.ByteString.join] using plain
    | cons next rest => simpa [text,Library.ByteString.join] using plain

end

def counts (part : Bytes) : Bool := part != [] && part != [dot]

section
variable {path : Path} (clean : ∀ part ∈ path, Clean part)
include path clean

theorem filter_clean : path.filter counts = path := by
  rw [filter_eq_self]
  exact fun part member => by simp [counts,(clean part member).1,(clean part member).2.1]

theorem safe_text : isSafeRelative (text path) = true ∧ (parts (text path)).filter counts = path := by
  by_cases some_ : path = []
  · subst some_
    exact ⟨rfl,rfl⟩
  have content : (ascii "content://").isPrefixOf (text path) = false := by
    rw [Bool.eq_false_iff]
    intro found
    obtain ⟨rest,same⟩ := isPrefixOf_iff_prefix.mp found
    exact text_no_scheme clean some_ (ascii "content:") rest (same.symm.trans (by simp [ascii,slash]))
  have visible : (text path).all (fun char => !(char < 0x20)) = true := by
    rw [all_eq_true]
    intro char member
    simpa using text_nonzero clean member
  have noDots : path.all (· != [dot,dot]) = true := by
    rw [all_eq_true]
    exact fun part member => by simpa using (clean part member).2.2.1
  rw [isSafeRelative,parts_text clean some_,content,text_head clean,visible,noDots]
  exact ⟨by simp,filter_clean clean⟩

theorem normalizeRelative_text : normalizeRelative (text path) = .ok path := by
  have cut : untilZero (text path) = text path := by simpa [untilZero] using untilZero_text clean []
  have saf : (ascii "ant-saf://").isPrefixOf (text path) = false := by
    rw [Bool.eq_false_iff]
    intro found
    by_cases some_ : path = []
    · simp [some_,text,Library.ByteString.join,ascii] at found
    · obtain ⟨rest,same⟩ := isPrefixOf_iff_prefix.mp found
      exact text_no_scheme clean some_ (ascii "ant-saf:") rest (same.symm.trans (by simp [ascii,slash]))
  obtain ⟨safe,kept⟩ := safe_text clean
  unfold counts at kept
  simp only [normalizeRelative,cut,saf,safe,kept]
  simp

theorem normalizeRelative_child (some_ : path ≠ []) {name : Bytes} (free : ∀ char ∈ name, isSeparator char = false)
    (ok : normalizeRelative (text path ++ slash :: name) = .ok place) : place = path ∨ ∃ last, place = path ++ [last] := by
  have cut : untilZero (text path ++ slash :: name) = text path ++ slash :: untilZero name := by
    rw [untilZero_text clean]
    simp [untilZero,slash]
  have single : parts (untilZero name) = [untilZero name] := by
    have plain : ∀ char ∈ untilZero name, isSeparator char = false :=
      fun char member => free char (takeWhile_subset _ member)
    have same : (untilZero name).map (fun char => if isSeparator char then slash else char) = untilZero name :=
      (map_congr_left fun char member => by simp [plain char member]).trans (map_id _)
    rw [parts,same]
    refine split_of_not_mem fun member => ?_
    have separator := plain slash member
    simp [isSeparator] at separator
  have kept : path.filter (fun part => part != [] && part != [dot]) = path := filter_clean clean
  simp only [normalizeRelative,cut] at ok
  split at ok
  next => contradiction
  split at ok
  next =>
    rw [parts_append clean some_,single,filter_append,kept] at ok
    cases ok
    by_cases counted : (untilZero name != [] && untilZero name != [dot]) = true
    · exact Or.inr ⟨untilZero name,by simp [counted]⟩
    · exact Or.inl (by simp [counted])
  next => contradiction

end

theorem clean_of_safe {path : Bytes} (safe : isSafeRelative path = true) : ∀ part ∈ (parts path).filter counts, Clean part := by
  intro part member
  obtain ⟨inside,kept⟩ := mem_filter.mp member
  by_cases empty : path = []
  · subst empty
    have blank : part = [] := by simpa [parts,split] using inside
    simp [counts,blank] at kept
  have checked : (path.all (fun char => !(char < 0x20)) = true) ∧ (parts path).all (· != [dot,dot]) = true := by
    simp only [isSafeRelative,Bool.or_eq_true,beq_iff_eq,empty,false_or,Bool.and_eq_true] at safe
    exact ⟨safe.1.2,safe.2⟩
  simp only [counts,Bool.and_eq_true,bne_iff_ne] at kept
  refine ⟨kept.1,kept.2,by simpa using all_eq_true.mp checked.2 part inside,fun char present => ?_⟩
  have mapped := mem_of_mem_split part inside present
  obtain ⟨original,member,same⟩ := mem_map.mp mapped.1
  have plain : isSeparator original = false := by
    rw [Bool.eq_false_iff]
    intro separator
    rw [if_pos separator] at same
    exact mapped.2 same.symm
  rw [if_neg (by simp [plain])] at same
  subst same
  exact ⟨plain,by simpa using all_eq_true.mp checked.1 original member⟩

theorem normalizeRelative_clean {path : Bytes} (ok : normalizeRelative path = .ok place) : ∀ part ∈ place, Clean part := by
  simp only [normalizeRelative] at ok
  split at ok
  next => contradiction
  split at ok
  next safe =>
    cases ok
    exact clean_of_safe safe
  next => contradiction

def Tidy (store : Store) : Prop := ∀ path, get store path ≠ none → ∀ part ∈ path, Clean part

theorem tidy_of_entries (clean : ∀ entry ∈ store.entries, ∀ part ∈ entry.1, Clean part) : Tidy store := by
  intro path present part member
  obtain ⟨node,found⟩ := Option.ne_none_iff_exists'.mp present
  by_cases root : path = []
  · simp [root] at member
  · exact clean (path,node) ((mem_entries_iff store node root).mpr found) part member

theorem tidy_of (one two : Store) (tidy : Tidy one)
    (step : ∀ place, get two place ≠ none → get one place ≠ none ∨ ∀ part ∈ place, Clean part) : Tidy two := by
  intro place present
  rcases step place present with old | clean
  · exact tidy place old
  · exact clean

theorem grown_cases {path : Path} (present : grown store path place ≠ none) : get store place ≠ none ∨ place <+: path := by
  unfold grown at present
  split at present
  next made => exact Or.inr made.1
  next => exact Or.inl present

section Operations
variable {path : Path} (clean : ∀ part ∈ path, Clean part)
include clean

theorem fileMkdirs_tidy (store result : Store) (tidy : Tidy store) (ok : fileMkdirs store path = .ok result) :
    Tidy result := by
  refine tidy_of store result tidy fun place present => ?_
  rw [fileMkdirs_get result path ok] at present
  exact (grown_cases present).imp_right fun above part member => clean part (above.subset member)

theorem fileWrite_tidy (data : Bytes) (truncate : Bool) (store result : Store) (tidy : Tidy store)
    (ok : fileWrite data truncate store path = .ok result) : Tidy result := by
  refine tidy_of store result tidy fun place present => ?_
  by_cases here : place = path
  · exact Or.inr (here ▸ clean)
  · rw [(fileWrite_get data truncate store result path ok).2 place here] at present
    exact (grown_cases present).imp_right fun above part member => clean part (above.subset member)

end Operations

theorem fileRemove_tidy (path : Path) (store result : Store) (tidy : Tidy store) (ok : fileRemove store path = .ok result) :
    Tidy result := by
  refine tidy_of store result tidy fun place present => ?_
  rw [fileRemove_get store result path ok] at present
  split at present
  next => contradiction
  next => exact Or.inl present

theorem fileCopy_tidy (sourceTidy : Tidy source) {fuel : Nat} (origin target : Path) (clean : ∀ part ∈ target, Clean part)
    (store : Store) (tidy : Tidy store) : Tidy (fileCopy (fun _ => source) fuel origin target store).1 := by
  induction fuel generalizing origin target store with
  | zero => exact tidy
  | succ fuel ih =>
    simp only [fileCopy]
    split
    next => exact tidy
    next => exact tidy
    next data _ => exact update_keeps Tidy (fileWrite_tidy clean data true) store tidy
    next =>
      refine andThen_keeps Tidy _ _ (update_keeps Tidy (fileMkdirs_tidy clean)) ?_ store tidy
      intro store tidy
      refine forEach_keeps Tidy _ _ (fun name member store tidy => ih _ _ ?_ store tidy) store tidy
      intro part inside
      rcases mem_append.mp inside with above | last
      · exact clean part above
      · rw [mem_children_iff] at member
        exact sourceTidy _ (Option.isSome_iff_ne_none.mp member) part (mem_append_right origin last)

section Actions

theorem prepare_text {path : Path} (clean : ∀ part ∈ path, Clean part) (operation : Path → Action StorageError Store) :
    prepare (text path) operation = operation path := by
  simp [prepare,normalizeRelative_text clean]

theorem prepare_tidy {path : Bytes} {operation : Path → Action StorageError Store}
    (keeps : ∀ place, (∀ part ∈ place, Clean part) → ∀ store, Tidy store → Tidy (operation place store).1)
    (tidy : Tidy store) : Tidy (prepare path operation store).1 := by
  cases normal : normalizeRelative path with
  | error error => simpa [prepare,normal,fail] using tidy
  | ok place => simpa [prepare,normal] using keeps place (normalizeRelative_clean normal) store tidy

theorem mkdirs_tidy {path : Bytes} (store : Store) (tidy : Tidy store) : Tidy (mkdirs path store).1 :=
  prepare_tidy (fun place clean => update_keeps Tidy (fileMkdirs_tidy clean)) tidy

theorem write_tidy {path data : Bytes} {truncate : Bool} (store : Store) (tidy : Tidy store) :
    Tidy (write path data truncate store).1 :=
  prepare_tidy (fun place clean => update_keeps Tidy (fileWrite_tidy clean data truncate)) tidy

theorem remove_tidy {path : Bytes} (store : Store) (tidy : Tidy store) : Tidy (remove path store).1 :=
  prepare_tidy (fun place _ => update_keeps Tidy (fileRemove_tidy place)) tidy

theorem copyBetween_tidy (sourceTidy : Tidy source) {origin target : Bytes} (store : Store) (tidy : Tidy store) :
    Tidy (copyBetween source origin target store).1 := by
  cases normal : normalizeRelative origin with
  | error error => simpa [copyBetween,copyFrom,normal,fail] using tidy
  | ok place =>
    simp only [copyBetween,copyFrom,normal]
    split
    next => exact tidy
    next => exact tidy
    next => exact prepare_tidy (fun _ clean => fileCopy_tidy sourceTidy place _ clean) tidy

end Actions

end Ant.Pkg.StorageNames
