import Ant.Library.Sorting
import Ant.Pkg.PortableLinker
import Ant.Pkg.StorageNames

/-! Resolved graphs: packages with npm names, each at the chain of packages that enclose it,
and how their install paths look below `node_modules`. -/
namespace Ant.Pkg.PackageGraph
open Library.ByteLayout Library.ByteString Library.PathTree Library.Sorting Storage StorageNames PortableLinker List

def nodeModules : Bytes := ascii "node_modules"

def IsPackageName : Path → Prop
  | [base] => base.head? ≠ some 64 ∧ base ≠ ascii ".bin" ∧ base ≠ ascii ".ant"
  | [scope,_] => scope.head? = some 64
  | _ => False

instance : DecidablePred IsPackageName
  | [] => .isFalse id
  | [base] => inferInstanceAs (Decidable (base.head? ≠ some 64 ∧ base ≠ ascii ".bin" ∧ base ≠ ascii ".ant"))
  | [scope,_] => inferInstanceAs (Decidable (scope.head? = some 64))
  | _ :: _ :: _ :: _ => .isFalse id

@[ext] structure Name where
  parts : Path
  shape : IsPackageName parts
  clean : ∀ part ∈ parts, Clean part
  own : nodeModules ∉ parts

def relative : List Name → Path
  | [] => []
  | [name] => name.parts
  | name :: rest => name.parts ++ nodeModules :: relative rest

inductive PackagePath : Path → Prop
  | last (parts) (shape : IsPackageName parts) : PackagePath parts
  | nested (parts rest) (shape : IsPackageName parts) (below : PackagePath rest) :
      PackagePath (parts ++ nodeModules :: rest)

structure Package where
  above : List Name
  name : Name
  cachePath : Bytes
  fileCount : Nat
  hasBin : Bool
  bins : List PackageBin

namespace Package

def chain (pkg : Package) : List Name := pkg.above ++ [pkg.name]

def place (pkg : Package) : Path := relative pkg.chain

def link (pkg : Package) : PackageLink where
  cachePath := pkg.cachePath
  name := text pkg.name.parts
  parentPath := if pkg.above = [] then none else some (text (relative pkg.above))
  fileCount := pkg.fileCount
  hasBin := pkg.hasBin
  bins := pkg.bins

end Package

/-- Every package is there once, and so is the one that encloses it. -/
structure Graph where
  packages : List Package
  distinct : (packages.map (·.chain)).Nodup
  enclosed : ∀ pkg ∈ packages, pkg.above ≠ [] → ∃ outer ∈ packages, outer.chain = pkg.above

section Shapes

theorem isPackageName_append (one two first second : Path) (oneShape : IsPackageName one) (twoShape : IsPackageName two)
    (same : one ++ first = two ++ second) : one = two ∧ first = second := by
  match one,two,oneShape,twoShape with
  | [base],[other],_,_ => simpa using same
  | [base],[scope,_],plain,isScoped =>
    simp only [cons_append,List.cons.injEq] at same
    exact absurd (same.1 ▸ isScoped) plain.1
  | [scope,_],[base],isScoped,plain =>
    simp only [cons_append,List.cons.injEq] at same
    exact absurd (same.1 ▸ isScoped) plain.1
  | [scope,base],[otherScope,other],_,_ => simpa [and_assoc] using same

theorem relative_cons (name : Name) (rest : List Name) (more : rest ≠ []) :
    relative (name :: rest) = name.parts ++ nodeModules :: relative rest := by
  cases rest with
  | nil => contradiction
  | cons next rest => rfl

theorem relative_append {first second : List Name} (one : first ≠ []) (two : second ≠ []) :
    relative (first ++ second) = relative first ++ nodeModules :: relative second := by
  induction first with
  | nil => contradiction
  | cons name rest ih =>
    cases rest with
    | nil => exact relative_cons name second two
    | cons next rest =>
      rw [cons_append,relative_cons name _ (by simp),ih (by simp),relative_cons name _ (by simp)]
      simp

theorem relative_packagePath {chain : List Name} (some_ : chain ≠ []) : PackagePath (relative chain) := by
  induction chain with
  | nil => contradiction
  | cons name rest ih =>
    by_cases last : rest = []
    · subst last
      exact .last name.parts name.shape
    · rw [relative_cons name rest last]
      exact .nested name.parts _ name.shape (ih last)

theorem packagePath_below {chain : List Name} {rest : Path} (path : Path) (shape : PackagePath path)
    (same : path = relative chain ++ rest) (some_ : chain ≠ []) (more : rest ≠ []) :
    ∃ below, rest = nodeModules :: below := by
  induction chain generalizing path with
  | nil => contradiction
  | cons name names ih =>
    by_cases last : names = []
    · subst last
      cases shape with
      | last parts shape =>
        have whole : path ++ [] = name.parts ++ rest := by simpa [relative] using same
        exact absurd (isPackageName_append _ _ _ _ shape name.shape whole).2.symm more
      | nested parts below shape inner =>
        exact ⟨below,(isPackageName_append _ _ _ _ shape name.shape same).2.symm⟩
    · rw [relative_cons name names last,append_assoc] at same
      cases shape with
      | last parts shape =>
        have whole : path ++ [] = name.parts ++ nodeModules :: (relative names ++ rest) := by simpa using same
        exact absurd (isPackageName_append _ _ _ _ shape name.shape whole).2 (by simp)
      | nested parts below shape inner =>
        have tails := (isPackageName_append _ _ _ _ shape name.shape same).2
        exact ih below inner (List.cons.inj tails).2 last

theorem packagePath_above {path rest : Path} (shape : PackagePath path) (chain : List Name)
    (same : relative chain = path ++ rest) :
    ∃ before after, chain = before ++ after ∧ before ≠ [] ∧ path = relative before ∧ (rest ≠ [] → after ≠ []) := by
  induction shape generalizing chain with
  | last parts shape =>
    match chain with
    | [] =>
      have empty : parts ++ rest = [] := same.symm
      simp only [append_eq_nil_iff] at empty
      simp [empty.1,IsPackageName] at shape
    | [name] =>
      have whole : name.parts ++ [] = parts ++ rest := by simpa [relative] using same
      obtain ⟨rfl,rfl⟩ := isPackageName_append _ _ _ _ name.shape shape whole
      exact ⟨[name],[],rfl,by simp,rfl,by simp⟩
    | name :: next :: names =>
      obtain ⟨rfl,_⟩ := isPackageName_append _ _ _ _ name.shape shape same
      exact ⟨[name],next :: names,rfl,by simp,rfl,by simp⟩
  | nested parts below shape inner ih =>
    rw [append_assoc] at same
    match chain with
    | [] => simp [relative] at same
    | [name] =>
      have whole : name.parts ++ [] = parts ++ nodeModules :: (below ++ rest) := by simpa [relative] using same
      exact absurd (isPackageName_append _ _ _ _ name.shape shape whole).2 (by simp)
    | name :: next :: names =>
      obtain ⟨rfl,tails⟩ := isPackageName_append _ _ _ _ name.shape shape same
      obtain ⟨before,after,split,some_,rfl,ends⟩ := ih (next :: names) (List.cons.inj tails).2
      exact ⟨name :: before,after,by rw [split]; rfl,by simp,(relative_cons name before some_).symm,ends⟩

theorem Name.parts_ne_nil (name : Name) : name.parts ≠ [] := by
  intro empty
  have shape := name.shape
  simp [empty,IsPackageName] at shape

theorem relative_ne_nil {chain : List Name} (some_ : chain ≠ []) : relative chain ≠ [] := by
  cases chain with
  | nil => contradiction
  | cons name rest =>
    by_cases last : rest = []
    · subst last
      exact name.parts_ne_nil
    · rw [relative_cons name rest last]
      simp

theorem relative_injective (one two : List Name) (same : relative one = relative two) : one = two := by
  induction one generalizing two with
  | nil =>
    by_contra different
    exact relative_ne_nil (Ne.symm different) same.symm
  | cons name rest ih =>
    cases two with
    | nil => exact absurd same (relative_ne_nil (by simp))
    | cons other others =>
      have shapes := isPackageName_append name.parts other.parts
      by_cases last : rest = []
      · subst last
        by_cases otherLast : others = []
        · subst otherLast
          rw [Name.ext (shapes [] [] name.shape other.shape (by simpa [relative] using same)).1]
        · exact absurd (shapes [] _ name.shape other.shape (by simpa [relative] using same)).2 (by simp)
      · rw [relative_cons name rest last] at same
        by_cases otherLast : others = []
        · subst otherLast
          exact absurd (shapes _ [] name.shape other.shape (by simpa [relative] using same)).2 (by simp)
        · rw [relative_cons other others otherLast] at same
          obtain ⟨heads,tails⟩ := shapes _ _ name.shape other.shape same
          rw [Name.ext heads,ih others (List.cons.inj tails).2]

theorem relative_prefix {one two : List Name} (some_ : one ≠ []) (above : relative one <+: relative two) : one <+: two := by
  obtain ⟨rest,same⟩ := above
  obtain ⟨before,after,split,_,equal,_⟩ :=
    packagePath_above (relative_packagePath some_) two same.symm
  rw [relative_injective one before equal,split]
  exact prefix_append _ _

theorem nodeModules_clean : Clean nodeModules := by decide +kernel

theorem relative_clean (chain : List Name) : ∀ part ∈ relative chain, Clean part := by
  induction chain with
  | nil => simp [relative]
  | cons name rest ih =>
    intro part member
    by_cases last : rest = []
    · subst last
      exact name.clean part member
    · rw [relative_cons name rest last] at member
      rcases mem_append.mp member with here | below
      · exact name.clean part here
      · rcases mem_cons.mp below with rfl | deeper
        · exact nodeModules_clean
        · exact ih part deeper

end Shapes

section Texts

theorem text_append (first second : Path) (one : first ≠ []) (two : second ≠ []) :
    text (first ++ second) = text first ++ slash :: text second := by
  induction first with
  | nil => contradiction
  | cons part rest ih =>
    cases rest with
    | nil =>
      simp [text,Library.ByteString.join]
    | cons next rest =>
      have onward := ih (by simp)
      simp only [text,cons_append,Library.ByteString.join] at onward ⊢
      simp [onward]

theorem text_ne_nil (path : Path) (clean : ∀ part ∈ path, Clean part) (some_ : path ≠ []) : text path ≠ [] := by
  intro empty
  have whole := normalizeRelative_text clean
  rw [empty] at whole
  exact some_ (Except.ok.inj whole).symm

theorem text_last {path : Path} (clean : ∀ part ∈ path, Clean part) : (text path).getLast? ≠ some slash := by
  induction path with
  | nil => simp [text,Library.ByteString.join]
  | cons part rest ih =>
    intro ends
    cases rest with
    | nil =>
      have member : slash ∈ part := mem_of_getLast? ends
      exact slash_not_mem (clean part (by simp)) member
    | cons next rest =>
      have onward := ih fun other member => clean other (by simp [member])
      rw [show part :: next :: rest = [part] ++ (next :: rest) from rfl,text_append _ _ (by simp) (by simp)] at ends
      have nonempty := text_ne_nil (next :: rest) (fun other member => clean other (by simp [member])) (by simp)
      rw [getLast?_append_of_ne_nil _ (by simp),getLast?_cons_of_ne_nil nonempty] at ends
      exact onward ends

theorem join_text (path below : Path) (clean : ∀ part ∈ path, Clean part) (cleanBelow : ∀ part ∈ below, Clean part)
    (one : path ≠ []) (two : below ≠ []) : Storage.join (text path) (text below) = text (path ++ below) := by
  rw [Storage.join,if_neg (text_ne_nil path clean one),if_neg (text_ne_nil below cleanBelow two),
    if_neg (text_last clean),text_append path below one two,append_assoc,singleton_append]

theorem Package.chain_ne_nil (pkg : Package) : pkg.chain ≠ [] := by simp [Package.chain]

theorem Package.place_ne_nil (pkg : Package) : pkg.place ≠ [] := relative_ne_nil pkg.chain_ne_nil

theorem Package.place_clean (pkg : Package) : ∀ part ∈ pkg.place, Clean part := relative_clean pkg.chain

theorem installPath_link {linker : StorageLinker} {modules : Path} (some_ : modules ≠ [])
    (clean : ∀ part ∈ modules, Clean part) (same : linker.nodeModulesPath = text modules) {pkg : Package} :
    installPath linker pkg.link = text (modules ++ pkg.place) := by
  have whole : installPath linker pkg.link = Storage.join linker.nodeModulesPath (text pkg.place) := by
    by_cases top : pkg.above = []
    · simp [installPath,Package.link,Package.place,Package.chain,top,relative]
    · have names : relative pkg.chain = relative pkg.above ++ ([nodeModules] ++ relative [pkg.name]) :=
        relative_append top (by simp)
      have separator : ascii "/node_modules/" = slash :: (text [nodeModules] ++ [slash]) := by decide
      rw [Package.place,names,text_append _ _ (relative_ne_nil top) (by simp),
        text_append [nodeModules] _ (by simp) (relative_ne_nil (by simp))]
      simp [installPath,Package.link,top,relative,separator]
  rw [whole,same,join_text modules pkg.place clean pkg.place_clean some_ pkg.place_ne_nil]

end Texts

section Order

theorem occurrences_part {part : Bytes} (rest : Bytes) (free : slash ∉ part) :
    occurrences (ascii "/node_modules/") 0 (part ++ rest) = occurrences (ascii "/node_modules/") 0 rest := by
  induction part with
  | nil => rfl
  | cons char part ih =>
    have different : char ≠ slash := fun same => free (by simp [same])
    have first : ¬ (ascii "/node_modules/").isPrefixOf (char :: (part ++ rest)) := by
      intro found
      obtain ⟨more,same⟩ := isPrefixOf_iff_prefix.mp found
      have head : slash = char := (List.cons.inj same).1
      exact different head.symm
    rw [cons_append,occurrences,if_neg first]
    exact ih fun member => free (by simp [member])

theorem occurrences_skip (pattern : Bytes) (skipped rest : Bytes) :
    occurrences pattern skipped.length (skipped ++ rest) = occurrences pattern 0 rest := by
  induction skipped with
  | nil => rfl
  | cons char skipped ih => exact ih

theorem occurrences_level (rest : Bytes) : occurrences (ascii "/node_modules/") 0 (ascii "/node_modules/" ++ rest) =
      1 + occurrences (ascii "/node_modules/") 0 rest := by
  have onward := occurrences_skip (ascii "/node_modules/") (ascii "node_modules/") rest
  have first : (ascii "/node_modules/").isPrefixOf (slash :: (ascii "node_modules/" ++ rest)) :=
    isPrefixOf_iff_prefix.mpr (prefix_append (ascii "/node_modules/") rest)
  have apart : ascii "/node_modules/" ++ rest = slash :: (ascii "node_modules/" ++ rest) := rfl
  exact congrArg (1 + ·) onward

theorem occurrences_name (name : Name) (tail : Bytes) (ends : tail = [] ∨ ∃ more, tail = slash :: more) :
    occurrences (ascii "/node_modules/") 0 (text name.parts ++ tail) = occurrences (ascii "/node_modules/") 0 tail := by
  have noSlash : ∀ part ∈ name.parts, slash ∉ part := fun part member => slash_not_mem (name.clean part member)
  have own := name.own
  have shape := name.shape
  generalize name.parts = parts at noSlash own shape
  match parts,shape with
  | [base],_ => exact occurrences_part tail (noSlash base (by simp))
  | [scope,base],_ =>
    have baseFree := noSlash base (by simp)
    have first : ¬ (ascii "/node_modules/").isPrefixOf (slash :: (base ++ tail)) := by
      intro found
      obtain ⟨more,same⟩ := isPrefixOf_iff_prefix.mp found
      have tails : nodeModules ++ slash :: more = base ++ tail := (List.cons.inj same).2
      have parted := congrArg (split slash) tails
      rw [split_append,split_of_not_mem (by decide)] at parted
      rcases ends with rfl | ⟨later,rfl⟩
      · rw [append_nil,split_of_not_mem baseFree] at parted
        exact split_ne_nil slash more (List.cons.inj parted).2
      · rw [split_append,split_of_not_mem baseFree] at parted
        exact own (by simp [(List.cons.inj parted).1])
    have spread : text [scope,base] ++ tail = scope ++ slash :: (base ++ tail) := by
      simp [text,Library.ByteString.join]
    rw [spread,occurrences_part _ (noSlash scope (by simp)),occurrences,if_neg first,
      occurrences_part tail baseFree]

theorem occurrences_relative {chain : List Name} (some_ : chain ≠ []) :
    occurrences (ascii "/node_modules/") 0 (text (relative chain)) + 1 = chain.length := by
  induction chain with
  | nil => contradiction
  | cons name rest ih =>
    by_cases last : rest = []
    · subst last
      have single := occurrences_name name [] (Or.inl rfl)
      rw [append_nil] at single
      simp [relative,single,occurrences]
    · have spread : text (relative (name :: rest)) = text name.parts ++ (ascii "/node_modules/" ++ text (relative rest)) := by
        rw [relative_cons name rest last,text_append _ _ name.parts_ne_nil (by simp),
          show nodeModules :: relative rest = [nodeModules] ++ relative rest from rfl,
          text_append _ _ (by simp) (relative_ne_nil last)]
        simp [text,Library.ByteString.join,nodeModules,ascii,slash]
      rw [spread,occurrences_name name (ascii "/node_modules/" ++ _) (Or.inr ⟨_,rfl⟩),occurrences_level,length_cons,← ih last]
      omega

theorem linkPathDepth_link (pkg : Package) : linkPathDepth pkg.link.parentPath = pkg.above.length := by
  by_cases top : pkg.above = []
  · simp [Package.link,top,linkPathDepth]
  · have nonempty := text_ne_nil _ (relative_clean pkg.above) (relative_ne_nil top)
    have counted := occurrences_relative top
    simp only [Package.link,top,if_false,linkPathDepth] at counted ⊢
    omega

theorem packageLinkLessThanParentFirst_eq {a b : PackageLink} : packageLinkLessThanParentFirst a b =
    (compareLex (compareOn fun link => linkPathDepth link.parentPath)
      (compareLex (compareOn fun link => link.parentPath.getD []) (compareOn (·.name))) a b == .lt) := by
  rw [← lexicographic_lt,compareLex,← then_lt]
  rfl

def Graph.ordered (graph : Graph) : List Package :=
  graph.packages.mergeSort fun a b => !packageLinkLessThanParentFirst b.link a.link

theorem sortLinks_graph (graph : Graph) : sortLinks (graph.packages.map (·.link)) = graph.ordered.map (·.link) :=
  (map_mergeSort (f := Package.link) fun _ _ _ _ => rfl).symm

theorem Graph.mem_ordered (graph : Graph) (pkg : Package) : pkg ∈ graph.ordered ↔ pkg ∈ graph.packages :=
  (mergeSort_perm graph.packages _).mem_iff

theorem Graph.ordered_parent_first (graph : Graph) : graph.ordered.Pairwise fun one two => ¬ two.place <+: one.place := by
  have sorted : graph.ordered.Pairwise fun a b => packageLinkLessThanParentFirst b.link a.link = false :=
    mergeSort_sorted (compareLex (compareOn fun pkg : Package => linkPathDepth pkg.link.parentPath)
      (compareLex (compareOn fun pkg => pkg.link.parentPath.getD []) (compareOn fun pkg => pkg.link.name)))
      (fun a b => packageLinkLessThanParentFirst_eq)
  have nodup : (graph.ordered.map Package.chain).Nodup :=
    ((mergeSort_perm graph.packages _).map Package.chain).nodup_iff.mpr graph.distinct
  have distinct : graph.ordered.Pairwise fun a b => a.chain ≠ b.chain := pairwise_map.mp nodup
  refine (sorted.and distinct).imp fun {one two} both inside => ?_
  have above := relative_prefix two.chain_ne_nil inside
  have shorter : two.above.length < one.above.length := by
    have bound := above.length_le
    rcases Nat.lt_or_ge two.above.length one.above.length with less | notLess
    · exact less
    · refine absurd (above.eq_of_length ?_) (Ne.symm both.2)
      simp only [Package.chain,length_append,length_singleton] at bound ⊢
      omega
  have less : packageLinkLessThanParentFirst two.link one.link = true := by
    rw [packageLinkLessThanParentFirst,linkPathDepth_link,linkPathDepth_link,if_pos (by omega)]
    simpa using shorter
  simp [both.1] at less

theorem Graph.encloses (graph : Graph) (chain : List Name) (some_ : chain ≠ []) (pkg : Package)
    (member : pkg ∈ graph.packages) (above : chain <+: pkg.chain) : ∃ outer ∈ graph.packages, outer.chain = chain := by
  induction size : pkg.above.length using Nat.strong_induction_on generalizing pkg with
  | _ size ih =>
    rcases prefix_concat_iff.mp above with whole | inAbove
    · exact ⟨pkg,member,whole.symm⟩
    · have nested : pkg.above ≠ [] := by
        intro top
        rw [top,prefix_nil] at inAbove
        exact some_ inAbove
      obtain ⟨outer,present,same⟩ := graph.enclosed pkg member nested
      refine ih outer.above.length ?_ outer present (same ▸ inAbove) rfl
      rw [← size,← same,Package.chain]
      simp

section Position
variable (graph : Graph) (before after : List Package) (pkg : Package) (split : graph.ordered = before ++ pkg :: after)
include split

theorem Graph.not_before (earlier : Package) (member : earlier ∈ before) : ¬ pkg.place <+: earlier.place := by
  have sorted := graph.ordered_parent_first
  rw [split,pairwise_append] at sorted
  exact sorted.2.2 earlier member pkg (by simp)

theorem Graph.outer_before (rel : Path) (shape : PackagePath rel) (above : rel <+: pkg.place) (different : rel ≠ pkg.place) :
    ∃ outer ∈ before, outer.place = rel := by
  have member : pkg ∈ graph.packages := (graph.mem_ordered pkg).mp (by simp [split])
  obtain ⟨rest,same⟩ := above
  obtain ⟨chain,_,spelled,some_,rfl,_⟩ := packagePath_above shape pkg.chain same.symm
  obtain ⟨outer,present,reached⟩ := graph.encloses chain some_ pkg member (spelled ▸ prefix_append _ _)
  have placed : outer.place = relative chain := by rw [Package.place,reached]
  have inside := (graph.mem_ordered outer).mpr present
  rw [split] at inside
  rcases mem_append.mp inside with early | late
  · exact ⟨outer,early,placed⟩
  · rcases mem_cons.mp late with rfl | later
    · exact absurd placed.symm different
    · have sorted := graph.ordered_parent_first
      rw [split,pairwise_append,pairwise_cons] at sorted
      refine absurd ?_ (sorted.2.1.1 outer later)
      rw [placed,← same]
      exact prefix_append _ _

end Position

end Order

end Ant.Pkg.PackageGraph
