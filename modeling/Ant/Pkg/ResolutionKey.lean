import Ant.Library.Sorting
import Ant.Pkg.LockfileSerialize
import Mathlib.Data.List.Perm.Basic

/-! The key under which a resolution is cached: the registry, the platform and the dependencies of
`package.json`, hashed as one stream of bytes. -/
namespace Ant.Pkg.ResolutionKey
open Library.ByteLayout Library.ByteString Library.Sorting LockfileSerialize List

/-- A map from names to versions, in the order in which it is iterated over. -/
structure StringHashMap where
  entries : List (Bytes × Bytes)
  distinct : (entries.map Prod.fst).Nodup

structure PackageJson where
  dependencies : StringHashMap
  devDependencies : StringHashMap
  optionalDependencies : StringHashMap
  peerDependencies : StringHashMap

@[ext] structure ResolutionCacheEntry where
  section_ : UInt8
  name : Bytes
  version : Bytes
  deriving DecidableEq,Repr

def resolutionCacheEntryLessThan (a b : ResolutionCacheEntry) : Bool :=
  if a.section_ ≠ b.section_ then decide (a.section_ < b.section_)
  else
    let nameOrder := compare a.name b.name
    if nameOrder ≠ .eq then nameOrder == .lt else compare a.version b.version == .lt

def isRegistryResolutionCacheable (version : Bytes) : Bool :=
  !version.isEmpty && ["file:","link:","workspace:","git:","github:","http://","https://"].all fun start =>
    !(ascii start).isPrefixOf version

def appendResolutionCacheEntries (entries : List ResolutionCacheEntry) (section_ : UInt8) (deps : StringHashMap) :
    Option (List ResolutionCacheEntry) :=
  if deps.entries.all fun (_,version) => isRegistryResolutionCacheable version then
    some (entries ++ deps.entries.map fun (name,version) => ⟨section_,name,version⟩)
  else none

/-- The entries differ from each other, so that a sort that is not stable, as `std.sort.heap`, gives
the same list. -/
def resolutionCacheStream (env : Env) (pkgJson : PackageJson) (registry : Bytes) : Option Bytes :=
  if pkgJson.peerDependencies.entries ≠ [] then none
  else do
    let entries ← appendResolutionCacheEntries [] 100 pkgJson.dependencies
    let entries ← appendResolutionCacheEntries entries 68 pkgJson.devDependencies
    let entries ← appendResolutionCacheEntries entries 111 pkgJson.optionalDependencies
    if entries = [] then none
    else
      some (ascii "resolution-lock-v3" ++ [0] ++ registry ++ [0] ++ env.osTag ++ [0] ++ env.cpuArch ++ [0] ++ env.abiName ++
        (memSort resolutionCacheEntryLessThan entries).flatMap fun entry =>
          [0,entry.section_,0] ++ entry.name ++ [0] ++ entry.version)

def resolutionCacheKey (env : Env) (pkgJson : PackageJson) (registry : Bytes) : Option UInt64 :=
  (resolutionCacheStream env pkgJson registry).map env.wyhash

def PackageJson.sections (pkgJson : PackageJson) : List (UInt8 × StringHashMap) :=
  [(100,pkgJson.dependencies),(68,pkgJson.devDependencies),(111,pkgJson.optionalDependencies)]

/-- The entries as a set. -/
def PackageJson.Has (pkgJson : PackageJson) (entry : ResolutionCacheEntry) : Prop :=
  ∃ deps, (entry.section_,deps) ∈ pkgJson.sections ∧ (entry.name,entry.version) ∈ deps.entries

def fields (entry : ResolutionCacheEntry) : List Bytes := [[entry.section_],entry.name,entry.version]

abbrev order : ResolutionCacheEntry → ResolutionCacheEntry → Ordering :=
  compareLex (compareOn (·.section_)) (compareLex (compareOn (·.name)) (compareOn (·.version)))

theorem lessThan_eq (a b : ResolutionCacheEntry) : resolutionCacheEntryLessThan a b = (order a b == .lt) := by
  rw [← lexicographic_lt,compareLex,← then_lt]
  rfl

theorem eq_of_order {a b : ResolutionCacheEntry} (equal : order a b = .eq) : a = b := by
  obtain ⟨parts,names,versions⟩ : compare a.section_ b.section_ = .eq ∧ compare a.name b.name = .eq ∧ compare a.version b.version = .eq := by
    simpa only [compareLex,compareOn,Ordering.then_eq_eq] using equal
  exact ResolutionCacheEntry.ext_iff.mpr ⟨Std.LawfulEqOrd.eq_of_compare parts,Std.LawfulEqOrd.eq_of_compare names,Std.LawfulEqOrd.eq_of_compare versions⟩

/-- One list for each set of entries. -/
theorem sorted_eq_iff {first second : List ResolutionCacheEntry} (one : first.Nodup) (two : second.Nodup) :
    memSort resolutionCacheEntryLessThan first = memSort resolutionCacheEntryLessThan second ↔
      ∀ entry, entry ∈ first ↔ entry ∈ second := by
  have perm (items : List ResolutionCacheEntry) : (memSort resolutionCacheEntryLessThan items).Perm items := mergeSort_perm _ _
  have sorted (items : List ResolutionCacheEntry) : (memSort resolutionCacheEntryLessThan items).Pairwise fun a b =>
      resolutionCacheEntryLessThan b a = false := mergeSort_sorted order lessThan_eq
  constructor
  · intro same entry
    rw [← (perm first).mem_iff,same,(perm second).mem_iff]
  · intro same
    have both := (perm first).trans (((perm_ext_iff_of_nodup one two).mpr same).trans (perm second).symm)
    refine both.eq_of_pairwise (fun a b _ _ before after => eq_of_order ?_) (sorted first) (sorted second)
    have swapped : order b a = (order a b).swap := Std.OrientedCmp.eq_swap
    rw [lessThan_eq,swapped] at before
    rw [lessThan_eq] at after
    cases compared : order a b <;> simp [compared] at before after ⊢

theorem fields_injective {first second : List ResolutionCacheEntry} (same : first.flatMap fields = second.flatMap fields) :
    first = second := by
  induction first generalizing second with
  | nil => cases second with
    | nil => rfl
    | cons => simp [fields] at same
  | cons a first ih => cases second with
    | nil => simp [fields] at same
    | cons b second =>
      simp only [flatMap_cons,fields,cons_append,List.cons.injEq,and_true] at same
      obtain ⟨sections,names,versions,rest⟩ := same
      rw [ih rest,ResolutionCacheEntry.ext_iff.mpr ⟨sections,names,versions⟩]

def entriesOf (pkgJson : PackageJson) : List ResolutionCacheEntry :=
  pkgJson.sections.flatMap fun (section_,deps) => deps.entries.map fun (name,version) => ⟨section_,name,version⟩

def written (pkgJson : PackageJson) : List Bytes := (memSort resolutionCacheEntryLessThan (entriesOf pkgJson)).flatMap fields

variable {env : Env} {pkgJson : PackageJson} {registry stream : Bytes}

theorem mem_entriesOf {entry : ResolutionCacheEntry} : entry ∈ entriesOf pkgJson ↔ pkgJson.Has entry := by
  simp only [entriesOf,mem_flatMap,mem_map,Prod.exists]
  constructor
  · rintro ⟨_,deps,listed,name,version,stored,rfl⟩
    exact ⟨deps,listed,stored⟩
  · rintro ⟨deps,listed,stored⟩
    exact ⟨_,deps,listed,_,_,stored,rfl⟩

theorem entriesOf_nodup (pkgJson : PackageJson) : (entriesOf pkgJson).Nodup := by
  refine nodup_flatMap.mpr ⟨fun (section_,deps) _ => deps.distinct.of_map.map fun a b same => ?_,?_⟩
  · exact Prod.ext (ResolutionCacheEntry.ext_iff.mp same).2.1 (ResolutionCacheEntry.ext_iff.mp same).2.2
  · have apart : pkgJson.sections.Pairwise fun a b => a.1 ≠ b.1 := by simp [PackageJson.sections]
    refine apart.imp fun different entry first second => ?_
    obtain ⟨_,_,rfl⟩ := mem_map.mp first
    obtain ⟨_,_,same⟩ := mem_map.mp second
    exact different (ResolutionCacheEntry.ext_iff.mp same).1.symm

theorem join_flatMap (separator part : Bytes) (parts : List Bytes) :
    join separator (part :: parts) = part ++ parts.flatMap (separator ++ ·) := by
  induction parts generalizing part with
  | nil => simp [join]
  | cons next more ih => rw [join_cons _ _ (by simp),ih,flatMap_cons,append_assoc,append_assoc]

theorem append_some {entries out : List ResolutionCacheEntry} {section_ : UInt8} {deps : StringHashMap}
    (appended : appendResolutionCacheEntries entries section_ deps = some out) :
    out = entries ++ deps.entries.map fun (name,version) => ⟨section_,name,version⟩ := by
  unfold appendResolutionCacheEntries at appended
  split at appended
  next => exact (Option.some.inj appended).symm
  next => contradiction

theorem stream_eq (made : resolutionCacheStream env pkgJson registry = some stream) :
    stream = ascii "resolution-lock-v3" ++ 0 :: (registry ++ 0 :: (env.osTag ++ [0] ++ env.cpuArch ++ [0] ++ env.abiName ++
      join [0] ([] :: written pkgJson))) := by
  unfold resolutionCacheStream at made
  split at made
  next => contradiction
  next =>
    obtain ⟨_,first,made⟩ := Option.bind_eq_some_iff.mp made
    obtain ⟨_,second,made⟩ := Option.bind_eq_some_iff.mp made
    obtain ⟨entries,third,made⟩ := Option.bind_eq_some_iff.mp made
    split at made
    next => contradiction
    next =>
      have all : entries = entriesOf pkgJson := by
        rw [append_some third,append_some second,append_some first]
        simp [entriesOf,PackageJson.sections]
      rw [← Option.some.inj made,all,join_flatMap]
      simp [written,fields,flatMap_assoc]

/-- No name, version or registry holds a zero byte. -/
structure Plain (pkgJson : PackageJson) (registry : Bytes) : Prop where
  registry : 0 ∉ registry
  entries : ∀ entry, pkgJson.Has entry → 0 ∉ entry.name ∧ 0 ∉ entry.version

theorem split_written (plain : Plain pkgJson registry) : split 0 (join [0] ([] :: written pkgJson)) = [] :: written pkgJson := by
  refine split_join (by simp) (forall_mem_cons.mpr ⟨by simp,fun part member => ?_⟩)
  obtain ⟨entry,inside,listed⟩ := mem_flatMap.mp member
  obtain ⟨deps,known,stored⟩ := mem_entriesOf.mp ((mergeSort_perm _ _).mem_iff.mp inside)
  obtain ⟨name,version⟩ := plain.entries entry ⟨deps,known,stored⟩
  have nonzero : entry.section_ ≠ 0 := by
    simp only [PackageJson.sections,mem_cons,Prod.mk.injEq,not_mem_nil,or_false] at known
    obtain ⟨equal,_⟩ | ⟨equal,_⟩ | ⟨equal,_⟩ := known <;> rw [equal] <;> decide
  simp only [fields,mem_cons,not_mem_nil,or_false] at listed
  obtain rfl | rfl | rfl := listed
  · simpa using nonzero.symm
  · exact name
  · exact version

theorem streams_equal_iff (env : Env) (first second : PackageJson) (registry other : Bytes) {stream next : Bytes}
    (made : resolutionCacheStream env first registry = some stream) (plain : Plain first registry)
    (again : resolutionCacheStream env second other = some next) (clean : Plain second other) :
    stream = next ↔ registry = other ∧ ∀ entry, first.Has entry ↔ second.Has entry := by
  have sets := sorted_eq_iff (entriesOf_nodup first) (entriesOf_nodup second)
  simp only [mem_entriesOf] at sets
  rw [← sets,stream_eq made,stream_eq again,append_cancel_left_eq,cons.injEq,eq_self,true_and]
  constructor
  · intro same
    have parts := congrArg (split 0) same
    rw [split_append,split_append,split_of_not_mem plain.registry,split_of_not_mem clean.registry] at parts
    obtain rfl := (cons.inj parts).1
    have behind := append_cancel_left (cons.inj (append_cancel_left same)).2
    have pieces := congrArg (split 0) behind
    rw [split_written plain,split_written clean] at pieces
    exact ⟨rfl,fields_injective (cons.inj pieces).2⟩
  · intro ⟨registries,entries⟩
    rw [registries,written,entries]
    rfl

def oneDependency : PackageJson := ⟨⟨[(ascii "a",ascii "1")],by simp⟩,⟨[],by simp⟩,⟨[],by simp⟩,⟨[],by simp⟩⟩

theorem registries_told_apart : ∃ stream next, stream ≠ next ∧
    resolutionCacheStream ⟨fun _ => 0,[],[],[]⟩ oneDependency [1] = some stream ∧
    resolutionCacheStream ⟨fun _ => 0,[],[],[]⟩ oneDependency [2] = some next := by
  have made (registry : Bytes) : ∃ stream, resolutionCacheStream ⟨fun _ => 0,[],[],[]⟩ oneDependency registry = some stream := ⟨_,rfl⟩
  have plain (registry : Bytes) (free : 0 ∉ registry) : Plain oneDependency registry := by
    refine ⟨free,fun entry has => ?_⟩
    obtain rfl : entry = ⟨100,ascii "a",ascii "1"⟩ := mem_singleton.mp (mem_entriesOf.mpr has)
    decide
  obtain ⟨stream,first⟩ := made [1]
  obtain ⟨next,second⟩ := made [2]
  refine ⟨stream,next,fun same => ?_,first,second⟩
  have equal := (streams_equal_iff _ _ _ _ _ first (plain [1] (by decide)) second (plain [2] (by decide))).mp same
  simp at equal

end Ant.Pkg.ResolutionKey
