import Ant.Pkg.LockfileSerialize

/-! What a sequence of writer commands leaves in the writer: the added records in
order, and string references that read back as the strings they were interned for. -/
namespace Ant.Pkg.LockfileBuild
open Library.ByteLayout LockfileFormat LockfileSerialize List

def Denotes (table : Bytes) (ref : StringRef) (text : Bytes) : Prop :=
  ref = .empty ∧ text = [] ∨ ref.offset.toNat + ref.len.toNat ≤ table.length ∧ ref.len.toNat ≠ 0 ∧
    (table.drop ref.offset.toNat).take ref.len.toNat = text

variable {table text : Bytes} {ref : StringRef} {command : Command}

theorem Denotes.mono (denotes : Denotes table ref text) (more : Bytes) : Denotes (table ++ more) ref text := by
  rcases denotes with empty | ⟨inside,filled,reads⟩
  · exact .inl empty
  · refine .inr ⟨by simp; omega,filled,?_⟩
    rw [drop_append_of_le_length (by omega),take_append_of_le_length (by simp; omega)]
    exact reads

theorem Denotes.slice (denotes : Denotes table ref text) : ref.slice table = text := by
  unfold StringRef.slice
  rcases denotes with ⟨rfl,rfl⟩ | ⟨inside,filled,reads⟩
  · split
    next => rfl
    next => simp [StringRef.empty]
  · have start : ¬ ref.offset.toNat ≥ table.length := by omega
    rw [if_neg start,Nat.min_eq_left inside,drop_take]
    simpa using reads

def Command.package? : Command → Option Package
  | .addPackage pkg => some pkg
  | _ => none

def Command.dependency? : Command → Option Dependency
  | .addDependency dep => some dep
  | _ => none

def Command.bin? : Command → Option (UInt32 × Bytes × Bytes)
  | .addBinEntry packageIndex name path => some (packageIndex,name,path)
  | _ => none

def Command.disabled? : Command → Option (UInt32 × Bytes × Bytes)
  | .addDisabledDependency parent name constraint => some (parent,name,constraint)
  | _ => none

/-- An absent constraint is stored as the empty string; an entry without any is not stored. -/
def Command.platform? : Command → Option (UInt32 × Bytes × Bytes × Bytes)
  | .addPlatformEntry packageIndex os cpu libc =>
    if os = none ∧ cpu = none ∧ libc = none then none
    else some (packageIndex,os.getD [],cpu.getD [],libc.getD [])
  | _ => none

def binText (table : Bytes) (entry : BinEntry) : UInt32 × Bytes × Bytes :=
  (entry.packageIndex,entry.name.slice table,entry.path.slice table)

def disabledText (table : Bytes) (entry : DisabledDependency) : UInt32 × Bytes × Bytes :=
  (entry.parentPackageIndex,entry.name.slice table,entry.constraint.slice table)

def platformText (table : Bytes) (entry : PlatformEntry) : UInt32 × Bytes × Bytes × Bytes :=
  (entry.packageIndex,entry.os.slice table,entry.cpu.slice table,entry.libc.slice table)

structure Built (commands : List Command) (writer : LockfileWriter) : Prop where
  packages : writer.packages = commands.filterMap Command.package?
  dependencies : writer.dependencies = commands.filterMap Command.dependency?
  strings : ∀ text ref, writer.stringOffsets.lookup text = some ref → Denotes writer.stringBuilder ref text
  bins : List.Forall₂ (fun entry text => entry.packageIndex = text.1 ∧
    Denotes writer.stringBuilder entry.name text.2.1 ∧ Denotes writer.stringBuilder entry.path text.2.2)
    writer.binEntries (commands.filterMap Command.bin?)
  disabled : List.Forall₂ (fun entry text => entry.parentPackageIndex = text.1 ∧
    Denotes writer.stringBuilder entry.name text.2.1 ∧ Denotes writer.stringBuilder entry.constraint text.2.2)
    writer.disabledDependencies (commands.filterMap Command.disabled?)
  platform : List.Forall₂ (fun entry text => entry.packageIndex = text.1 ∧
    Denotes writer.stringBuilder entry.os text.2.1 ∧ Denotes writer.stringBuilder entry.cpu text.2.2.1 ∧
    Denotes writer.stringBuilder entry.libc text.2.2.2)
    writer.platformEntries (commands.filterMap Command.platform?)

section
variable {commands : List Command} {writer : LockfileWriter} {ε α β : Type}

theorem built_init : Built [] {} := by
  refine ⟨rfl,rfl,?_,.nil,.nil,.nil⟩
  intro text ref found
  simp at found

theorem Built.extend (built : Built commands writer) {more : Bytes} {offsets : AList fun _ : Bytes => StringRef}
    (strings : ∀ text ref, offsets.lookup text = some ref → Denotes (writer.stringBuilder ++ more) ref text) :
    Built commands {writer with stringBuilder := writer.stringBuilder ++ more, stringOffsets := offsets} := by
  refine ⟨built.packages,built.dependencies,strings,?_,?_,?_⟩
  · exact built.bins.imp fun _ _ related => ⟨related.1,related.2.1.mono more,related.2.2.mono more⟩
  · exact built.disabled.imp fun _ _ related => ⟨related.1,related.2.1.mono more,related.2.2.mono more⟩
  · exact built.platform.imp fun _ _ related =>
      ⟨related.1,related.2.1.mono more,related.2.2.1.mono more,related.2.2.2.mono more⟩

theorem toNat_ofNat {value : Nat} (bound : value < 2^32) : (UInt32.ofNat value).toNat = value := by
  exact Nat.mod_eq_of_lt bound

private theorem fresh_denotes (table text : Bytes) (nonempty : text.length ≠ 0) (tableFits : table.length ≤ 2^32 - 1)
    (textFits : text.length ≤ 2^32 - 1) :
    Denotes (table ++ text) ⟨UInt32.ofNat table.length,UInt32.ofNat text.length⟩ text := by
  have offset := toNat_ofNat (show table.length < 2^32 by omega)
  have len := toNat_ofNat (show text.length < 2^32 by omega)
  refine .inr ⟨?_,by simpa [len] using nonempty,?_⟩
  · simp only [offset,len,length_append,le_refl]
  · simp only [offset,len,drop_left,take_length]

theorem internString_built (commands : List Command) (writer next : LockfileWriter) (text : Bytes) (ref : StringRef)
    (built : Built commands writer) (ok : internString writer text = .ok (ref,next)) :
    Built commands next ∧ Denotes next.stringBuilder ref text ∧
      ∀ other value, Denotes writer.stringBuilder other value → Denotes next.stringBuilder other value := by
  unfold internString at ok
  split at ok
  next empty =>
    cases ok
    exact ⟨built,.inl ⟨rfl,length_eq_zero_iff.mp empty⟩,fun _ _ denotes => denotes⟩
  next filled =>
  split at ok
  next known found =>
    cases ok
    exact ⟨built,built.strings text ref found,fun _ _ denotes => denotes⟩
  next =>
  split at ok
  next => contradiction
  next tableFits =>
  split at ok
  next => contradiction
  next textFits =>
    cases ok
    have fresh := fresh_denotes writer.stringBuilder text filled (by omega) (by omega)
    refine ⟨built.extend ?_,fresh,fun _ _ denotes => denotes.mono text⟩
    intro other value found
    by_cases same : other = text
    · subst same
      rw [AList.lookup_insert] at found
      cases found
      exact fresh
    · rw [AList.lookup_insert_ne same] at found
      exact (built.strings other value found).mono text

theorem internOptional_built {commands : List Command} {writer next : LockfileWriter} {text : Option Bytes}
    (built : Built commands writer) (ok : internOptional writer text = .ok (ref,next)) :
    Built commands next ∧ Denotes next.stringBuilder ref (text.getD []) ∧
      ∀ other value, Denotes writer.stringBuilder other value → Denotes next.stringBuilder other value := by
  cases text with
  | none =>
    cases ok
    exact ⟨built,.inl ⟨rfl,rfl⟩,fun _ _ denotes => denotes⟩
  | some text => exact internString_built commands writer next text ref built ok

theorem bind_success {first : Except ε α} {next : α → Except ε β} {result : β} (ok : (first >>= next) = .ok result) :
    ∃ value, first = .ok value ∧ next value = .ok result := by
  cases first with
  | error error => cases ok
  | ok value => exact ⟨value,rfl,ok⟩

theorem map_success {first : Except ε α} {next : α → β} {result : β} (ok : first.map next = .ok result) :
    ∃ value, first = .ok value ∧ next value = result := by
  cases first with
  | error error => cases ok
  | ok value => exact ⟨value,rfl,Except.ok.inj ok⟩

private theorem skipped {α : Type} {select : Command → Option α} {items : List α} (same : items = commands.filterMap select)
    (ignored : select command = none := by rfl) :
    items = (commands ++ [command]).filterMap select := by
  simpa [ignored] using same

private theorem skips {α β : Type} {related : β → α → Prop} {select : Command → Option α} {items : List β}
    (all : List.Forall₂ related items (commands.filterMap select)) (ignored : select command = none := by rfl) :
    List.Forall₂ related items ((commands ++ [command]).filterMap select) := by
  simpa [ignored] using all

private theorem adds {α β : Type} {related : β → α → Prop} {select : Command → Option α} {items : List β} {item : β}
    {added : α} (all : List.Forall₂ related items (commands.filterMap select)) (chosen : select command = some added)
    (last : related item added) : List.Forall₂ related (items ++ [item]) ((commands ++ [command]).filterMap select) := by
  have listed : (commands ++ [command]).filterMap select = commands.filterMap select ++ [added] := by
    simp [chosen]
  rw [listed]
  exact rel_append all (.cons last .nil)

theorem perform_built {commands : List Command} (writer next : LockfileWriter) (command : Command)
    (built : Built commands writer) (ok : perform writer command = .ok next) : Built (commands ++ [command]) next := by
  cases command with
  | internString text =>
    obtain ⟨⟨ref,result⟩,interned,rfl⟩ := map_success ok
    have grown := (internString_built commands writer result text ref built interned).1
    exact ⟨skipped grown.packages,skipped grown.dependencies,grown.strings,skips grown.bins,skips grown.disabled,
      skips grown.platform⟩
  | addPackage pkg =>
    obtain ⟨⟨index,result⟩,added,rfl⟩ := map_success ok
    obtain ⟨_,_,added⟩ := bind_success added
    cases added
    exact ⟨by simp [Command.package?,built.packages],skipped built.dependencies,built.strings,
      skips built.bins,skips built.disabled,skips built.platform⟩
  | addDependency dep =>
    cases ok
    exact ⟨skipped built.packages,by simp [addDependency,Command.dependency?,built.dependencies],
      built.strings,skips built.bins,skips built.disabled,skips built.platform⟩
  | addBinEntry packageIndex name path =>
    obtain ⟨⟨nameRef,named⟩,internedName,ok⟩ := bind_success ok
    obtain ⟨⟨pathRef,pathed⟩,internedPath,ok⟩ := bind_success ok
    cases ok
    obtain ⟨first,denotesName,_⟩ := internString_built commands writer named name nameRef built internedName
    obtain ⟨second,denotesPath,kept⟩ := internString_built commands named pathed path pathRef first internedPath
    exact ⟨skipped second.packages,skipped second.dependencies,second.strings,
      adds second.bins rfl ⟨rfl,kept nameRef name denotesName,denotesPath⟩,skips second.disabled,skips second.platform⟩
  | addDisabledDependency parent name constraint =>
    obtain ⟨⟨nameRef,named⟩,internedName,ok⟩ := bind_success ok
    obtain ⟨⟨pathRef,pathed⟩,internedPath,ok⟩ := bind_success ok
    cases ok
    obtain ⟨first,denotesName,_⟩ := internString_built commands writer named name nameRef built internedName
    obtain ⟨second,denotesPath,kept⟩ := internString_built commands named pathed constraint pathRef first internedPath
    exact ⟨skipped second.packages,skipped second.dependencies,second.strings,skips second.bins,
      adds second.disabled rfl ⟨rfl,kept nameRef name denotesName,denotesPath⟩,skips second.platform⟩
  | addPlatformEntry packageIndex os cpu libc =>
    simp only [perform,addPlatformEntry] at ok
    split at ok
    next absent =>
      cases ok
      exact ⟨skipped built.packages,skipped built.dependencies,built.strings,skips built.bins,skips built.disabled,
        skips built.platform (if_pos absent)⟩
    next present =>
      obtain ⟨⟨osRef,first⟩,internedOs,ok⟩ := bind_success ok
      obtain ⟨⟨cpuRef,second⟩,internedCpu,ok⟩ := bind_success ok
      obtain ⟨⟨libcRef,third⟩,internedLibc,ok⟩ := bind_success ok
      cases ok
      obtain ⟨builtOs,denotesOs,_⟩ := internOptional_built built internedOs
      obtain ⟨builtCpu,denotesCpu,keptCpu⟩ :=
        internOptional_built builtOs internedCpu
      obtain ⟨last,denotesLibc,keptLibc⟩ :=
        internOptional_built builtCpu internedLibc
      exact ⟨skipped last.packages,skipped last.dependencies,last.strings,skips last.bins,skips last.disabled,
        adds last.platform (if_neg present) ⟨rfl,keptLibc osRef _ (keptCpu osRef _ denotesOs),
          keptLibc cpuRef _ denotesCpu,denotesLibc⟩⟩
  | setResolutionHash hash =>
    cases ok
    exact ⟨skipped built.packages,skipped built.dependencies,built.strings,skips built.bins,skips built.disabled,
      skips built.platform⟩

private theorem foldlM_built (done rest : List Command) (writer final : LockfileWriter) (built : Built done writer)
    (ok : rest.foldlM perform writer = .ok final) : Built (done ++ rest) final := by
  induction rest generalizing done writer with
  | nil =>
    cases ok
    simpa using built
  | cons command rest ih =>
    obtain ⟨next,performed,remaining⟩ := bind_success ok
    have step := ih (done ++ [command]) next (perform_built writer next command built performed) remaining
    simpa using step

theorem build_built {commands : List Command} {writer : LockfileWriter} (ok : build commands = .ok writer) :
    Built commands writer := by
  simpa using foldlM_built [] commands {} writer built_init ok

theorem map_eq_of_forall₂ {α β : Type} {text : α → β} {left : List α} {right : List β}
    (all : List.Forall₂ (fun a b => text a = b) left right) : left.map text = right := by
  have mapped : List.Forall₂ Eq (left.map text) right := List.forall₂_map_left_iff.mpr all
  rwa [List.forall₂_eq_eq_eq] at mapped

section
variable (built : Built commands writer)
include built

theorem Built.bin_texts : writer.binEntries.map (binText writer.stringBuilder) = commands.filterMap Command.bin? := by
  apply map_eq_of_forall₂
  refine built.bins.imp fun entry text related => ?_
  rw [binText,related.1,related.2.1.slice,related.2.2.slice]

theorem Built.disabled_texts : writer.disabledDependencies.map (disabledText writer.stringBuilder) =
      commands.filterMap Command.disabled? := by
  apply map_eq_of_forall₂
  refine built.disabled.imp fun entry text related => ?_
  rw [disabledText,related.1,related.2.1.slice,related.2.2.slice]

theorem Built.platform_texts :
    writer.platformEntries.map (platformText writer.stringBuilder) = commands.filterMap Command.platform? := by
  apply map_eq_of_forall₂
  refine built.platform.imp fun entry text related => ?_
  rw [platformText,related.1,related.2.1.slice,related.2.2.1.slice,related.2.2.2.slice]

end

end

end Ant.Pkg.LockfileBuild
