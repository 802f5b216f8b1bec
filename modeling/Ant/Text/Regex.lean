import Ant.Text.Replace
import Mathlib.Data.Rat.Floor

/-! Regular expressions: the paths of `exec`, `search` and `replace` around the matching engine, and
the positions they give to the program. The engine is a parameter; it works on the bytes of the
string. -/
namespace Ant.Text.Regex
open Library.Wtf8 Library.FirstMatch Strings Equality Replace List Option

/-- A compiled pattern: from the bytes of the string, the offset to start from and whether the match
has to begin there, the offsets where the match begins and ends. -/
abbrev Engine := List Nat → Nat → Bool → Option (Nat × Nat)

/-- An expression whose `exec` is the built-in one. A `lastIndex` that is no number counts as absent;
one that is not finite counts as one out of range. -/
structure RegExp where
  source : List Point
  globalFlag : Bool
  stickyFlag : Bool
  ignoreCase : Bool
  hasIndices : Bool
  unicodeFlag : Bool
  unicodeSets : Bool
  namedGroups : Bool
  compiled : Engine
  lastIndex : Option Rat

structure Match where
  index : Nat
  matched : Str
  deriving DecidableEq,Repr

def special : List Nat := [0x5C,0x5E,0x24,0x2E,0x2A,0x2B,0x3F,0x28,0x29,0x5B,0x5D,0x7B,0x7D,0x7C]

def regexSourceIsPlainLiteral (source : List Nat) : Bool :=
  source.length ≠ 0 && source.length ≤ regexpPlainLiteralMax && source.all fun byte => !special.contains byte

def regexpPlainLiteralPattern (regexp : RegExp) : Bool :=
  !(regexp.ignoreCase || regexp.stickyFlag || regexp.unicodeSets) && regexSourceIsPlainLiteral (bytes regexp.source)

def RegExp.tracks (regexp : RegExp) : Bool := regexp.globalFlag || regexp.stickyFlag

def startOffset (regexp : RegExp) (length : Nat) : Option Nat :=
  if regexp.tracks then match regexp.lastIndex with
    | none => some 0
    | some last => if 0 ≤ last ∧ last ≤ length then some last.floor.toNat else none
  else some 0

def matchOf (text : List Nat) (range : Nat × Nat) : Match := ⟨range.1,.flat ((text.drop range.1).take (range.2 - range.1))⟩

def regexpExecPlainLiteralFast (regexp : RegExp) (text : List Nat) : Option (Option Match) :=
  if regexpPlainLiteralPattern regexp then
    some ((findBytes text (bytes regexp.source)).map fun place => matchOf text (place,place + (bytes regexp.source).length))
  else none

def regexpExecSharedFast (regexp : RegExp) (text : List Nat) (start : Nat) : Option (Option Match) :=
  if regexp.tracks || regexp.hasIndices then none
  else match regexpExecPlainLiteralFast regexp text with
    | some result => some result
    | none => if regexp.namedGroups then none else some ((regexp.compiled text start regexp.stickyFlag).map (matchOf text))

def regexpSetLastIndex (regexp : RegExp) (value : Rat) : RegExp := {regexp with lastIndex := some value}

def regexpExecInternal (regexp : RegExp) (str : Str) : Option Match × RegExp :=
  let text := vstr str
  match startOffset regexp text.length with
  | none => (none,regexpSetLastIndex regexp 0)
  | some start => match regexpExecSharedFast regexp text start with
    | some result => (result,regexp)
    | none => match regexp.compiled text start regexp.stickyFlag with
      | none => (none,if regexp.tracks then regexpSetLastIndex regexp 0 else regexp)
      | some range => (some (matchOf text range),if regexp.tracks then regexpSetLastIndex regexp range.2 else regexp)

def regexpSymbolSearch (regexp : RegExp) (str : Str) : Option Nat × RegExp :=
  if regexpPlainLiteralPattern regexp then (findBytes (vstr str) (bytes regexp.source),regexp)
  else
    let executed := regexpExecInternal (regexpSetLastIndex regexp 0) str
    (executed.1.map Match.index,{executed.2 with lastIndex := regexp.lastIndex})

def builtinStringSearch (compiled : Engine) (str : Str) : Option Nat := (compiled (vstr str) 0 false).map Prod.fst

def utf8SequenceLength (byte : Nat) : Nat :=
  if byte < 0x80 then 1 else if byte / 0x20 = 6 then 2 else if byte / 0x10 = 14 then 3 else if byte / 8 = 30 then 4 else 0

def utf8CharLenAt (text : List Nat) (place : Nat) : Nat :=
  match text[place]? with
  | none => 1
  | some byte =>
    if utf8SequenceLength byte = 0 then 1
    else if text.length < place + utf8SequenceLength byte then text.length - place
    else utf8SequenceLength byte

def replaceMatches (str : Str) : Nat → RegExp → List Match
  | 0,_ => []
  | fuel+1,regexp =>
    let executed := regexpExecInternal regexp str
    match executed.1 with
    | none => []
    | some found =>
      if regexp.globalFlag = false then [found]
      else if (vstr found.matched).length = 0 then
        let last := executed.2.lastIndex.getD 0
        let advance := if regexp.unicodeFlag ∧ last < (vstr str).length then utf8CharLenAt (vstr str) last.floor.toNat else 1
        found :: replaceMatches str fuel (regexpSetLastIndex executed.2 (last + advance))
      else found :: replaceMatches str fuel executed.2

def replaceCalls (regexp : RegExp) (str : Str) (fuel : Nat) : List Match :=
  (replaceMatches str fuel (if regexp.globalFlag then regexpSetLastIndex regexp 0 else regexp)).map fun found =>
    {found with index := min found.index (vstr str).length}

/-- What is assumed of the engine: a match begins not before the start, a search that starts between code points finds a match
that lies between code points, and a pattern that stands for itself is found where it first occurs. Nothing more is assumed of a
search that starts inside a code point. -/
structure Correct (regexp : RegExp) : Prop where
  later : ∀ text start anchored first last, regexp.compiled (bytes text) start anchored = some (first,last) → start ≤ first
  boundaries : ∀ front rest anchored first last,
    regexp.compiled (bytes (front ++ rest)) (bytes front).length anchored = some (first,last) →
      ∃ before matched after, front ++ rest = before ++ (matched ++ after) ∧ first = (bytes before).length ∧
        last = (bytes (before ++ matched)).length
  literal : regexpPlainLiteralPattern regexp = true → ∀ text, regexp.compiled (bytes text) 0 false =
    (indexOf (bytes regexp.source) (bytes text)).map fun place => (place,place + (bytes regexp.source).length)

def IsBasicLatin (text : List Point) : Prop := ∀ point ∈ text, point.val < 0x80

/-- The bytes before the place are of basic latin. -/
def LatinTo (string : Built) (place : Nat) : Prop := ∀ byte ∈ (vstr string.value).take place, byte < 0x80

structure MatchAt (string : Built) (found : Match) (before matched : List Point) : Prop where
  within : before ++ matched <+: string.stored
  index : found.index = (bytes before).length
  text : found.matched = .flat (bytes matched)

def CountsUnits (string : Built) (found : Match) (before : List Point) : Prop :=
  found.index = (units before).length ∧ ∀ kept, strictEqValues (builtinStringSlice string.value kept (some (found.index : Int))
    (some (found.index + strUtf16Len found.matched : Int))) found.matched = true

/-- Both the `lastIndex` that was read and the one that is left count code units. -/
def LastIndexCountsUnits (string : Built) (regexp after : RegExp) (before matched : List Point) : Prop :=
  after.lastIndex = some ((units (before ++ matched)).length : Rat) ∧
  ∀ start, startOffset regexp (vstr string.value).length = some start → (bytes (takeUnits start string.stored)).length = start

variable {before matched : List Point} {string : Built}

section
variable {string : Built} {found : Match} {regexp : RegExp}

theorem slice_of_match (there : MatchAt string found before matched) (counted : found.index = (units before).length)
    (kept : Nat) : strictEqValues (builtinStringSlice string.value kept (some (found.index : Int))
      (some (found.index + strUtf16Len found.matched : Int))) found.matched = true := by
  obtain ⟨after,equal⟩ := there.within
  have length : strUtf16Len found.matched = (units matched).length := by rw [there.text,strUtf16Len,flatUtf16Len_bytes]
  have whole : strUtf16Len string.value = (units before).length + ((units matched).length + (units after).length) := by
    rw [(value_spells string).length,← equal]
    simp
  have range : mkstrUtf16Range (vstr string.value) kept (units before).length ((units before).length + (units matched).length) =
      bytes matched := by
    rw [(value_spells string).bytes,mkstrUtf16Range_bytes,Nat.add_sub_cancel_left,← equal,append_assoc]
    have dropped := (splitUnits_append before (matched ++ after) 0).2
    have taken := (splitUnits_append matched after 0).1
    simp only [Nat.add_zero,dropUnits,takeUnits,append_nil] at dropped taken
    rw [dropped,taken]
  have start : relative (strUtf16Len string.value) ((units before).length : Int) = (units before).length := by
    rw [relative,if_neg (by omega)]
    omega
  have stop : relative (strUtf16Len string.value) ((units before).length + (units matched).length : Int) =
      (units before).length + (units matched).length := by
    rw [relative,if_neg (by omega)]
    omega
  rw [strictEqValues_iff,builtinStringSlice,counted,length,there.text]
  simp only [elim_some,start,stop]
  rw [Nat.min_eq_left (Nat.le_add_right _ _),range]

theorem matchOf_split (before matched after : List Point) :
    matchOf (bytes (before ++ (matched ++ after))) ((bytes before).length,(bytes (before ++ matched)).length) =
      ⟨(bytes before).length,.flat (bytes matched)⟩ := by
  simp [matchOf]

theorem literal_found {source : List Point} (nonempty : source ≠ []) {place : Nat}
    (found : findBytes (bytes string.stored) (bytes source) = some place) :
    ∃ before, MatchAt string (matchOf (bytes string.stored) (place,place + (bytes source).length)) before source := by
  rw [findBytes_eq _ _ (bytes_ne_nil nonempty)] at found
  obtain ⟨before,after,split,rfl⟩ := bytes_place nonempty (indexOf_eq_some _ found).1
  refine ⟨before,?_⟩
  rw [split,← length_append,← bytes_append,matchOf_split]
  exact ⟨⟨after,by rw [split,append_assoc]⟩,rfl,rfl⟩

theorem source_ne_nil (plain : regexpPlainLiteralPattern regexp = true) : regexp.source ≠ [] := by
  intro empty
  rw [regexpPlainLiteralPattern,empty] at plain
  simp [regexSourceIsPlainLiteral] at plain

theorem MatchAt.latin_iff (there : MatchAt string found before matched) : LatinTo string found.index ↔ IsBasicLatin before := by
  obtain ⟨after,equal⟩ := there.within
  have taken : (vstr string.value).take found.index = bytes before := by
    rw [(value_spells string).bytes,← equal,append_assoc,bytes_append,there.index,take_left]
  rw [LatinTo,taken,bytes_ascii_iff]
  rfl

theorem MatchAt.latin_end_iff (there : MatchAt string found before matched) :
    LatinTo string (found.index + (vstr found.matched).length) ↔ IsBasicLatin (before ++ matched) := by
  obtain ⟨after,equal⟩ := there.within
  have size : found.index + (vstr found.matched).length = (bytes (before ++ matched)).length := by
    rw [there.index,there.text,bytes_append,length_append,vstr_flat]
  have taken : (vstr string.value).take (bytes (before ++ matched)).length = bytes (before ++ matched) := by
    rw [(value_spells string).bytes,← equal,bytes_append (before ++ matched),take_left]
  rw [LatinTo,size,taken,bytes_ascii_iff]
  rfl

theorem MatchAt.unique {other rest : List Point} (there : MatchAt string found before matched)
    (again : MatchAt string found other rest) : before = other ∧ matched = rest := by
  have front : before <+: string.stored := (prefix_append before matched).trans there.within
  have front' : other <+: string.stored := (prefix_append other rest).trans again.within
  have same : before = other := by
    obtain ⟨after,equal⟩ := front
    obtain ⟨after',equal'⟩ := front'
    have place : (bytes before).length = (bytes other).length := there.index.symm.trans again.index
    apply bytes_injective
    rw [← @take_left _ (bytes before) (bytes after),← @take_left _ (bytes other) (bytes after'),place,← bytes_append,
      ← bytes_append,equal,equal']
  have text := there.text.symm.trans again.text
  exact ⟨same,bytes_injective (Str.flat.inj text)⟩

/-- What one search finds, and where the next one starts. -/
theorem exec_cases {regexp : RegExp} {string : Built} {found : Match}
    (executed : (regexpExecInternal regexp string.value).1 = some found) :
    (regexp.tracks = false ∧ regexpPlainLiteralPattern regexp = true ∧ ∃ place,
        findBytes (bytes string.stored) (bytes regexp.source) = some place ∧
        found = matchOf (bytes string.stored) (place,place + (bytes regexp.source).length)) ∨
      ∃ start range, startOffset regexp (bytes string.stored).length = some start ∧
        regexp.compiled (bytes string.stored) start regexp.stickyFlag = some range ∧ found = matchOf (bytes string.stored) range ∧
        (regexp.tracks = true → (regexpExecInternal regexp string.value).2.lastIndex = some (range.2 : Rat)) := by
  unfold regexpExecInternal at executed ⊢
  simp only [(value_spells string).bytes] at executed ⊢
  cases begin : startOffset regexp (bytes string.stored).length with
  | none => simp [begin] at executed
  | some start =>
    simp only [begin] at executed ⊢
    cases fast : regexpExecSharedFast regexp (bytes string.stored) start with
    | some result =>
      simp only [fast] at executed ⊢
      subst executed
      unfold regexpExecSharedFast at fast
      split at fast
      · cases fast
      · next untracked =>
        have notTracked : regexp.tracks = false := by
          cases tracked : regexp.tracks with
          | true => exact absurd (by rw [tracked]; rfl) untracked
          | false => rfl
        unfold regexpExecPlainLiteralFast at fast
        by_cases plain : regexpPlainLiteralPattern regexp = true
        · simp only [if_pos plain] at fast
          obtain ⟨place,there,rfl⟩ := map_eq_some_iff.mp (Option.some.inj fast)
          exact Or.inl ⟨notTracked,plain,place,there,rfl⟩
        · simp only [if_neg plain] at fast
          split at fast
          · cases fast
          · obtain ⟨range,there,rfl⟩ := map_eq_some_iff.mp (Option.some.inj fast)
            exact Or.inr ⟨start,range,rfl,there,rfl,fun tracked => by simp [notTracked] at tracked⟩
    | none =>
      simp only [fast] at executed ⊢
      cases run : regexp.compiled (bytes string.stored) start regexp.stickyFlag with
      | none => simp [run] at executed
      | some range =>
        simp only [run,Option.some.injEq] at executed ⊢
        exact Or.inr ⟨start,range,rfl,run,executed.symm,fun tracked => by simp [tracked,regexpSetLastIndex]⟩

theorem startOffset_le {length start : Nat} (begin : startOffset regexp length = some start) : start ≤ length := by
  unfold startOffset at begin
  split at begin
  · split at begin
    · cases begin
      exact Nat.zero_le _
    · next last _ =>
      split at begin
      · next within =>
        cases begin
        have floor : last.floor ≤ (length : Int) := by
          have below := (Rat.floor_le last).trans within.2
          exact_mod_cast below
        omega
      · cases begin
  · cases begin
    exact Nat.zero_le _

/-- A match that only bytes of basic latin precede lies between code points. -/
theorem exec_found (correct : Correct regexp) (executed : (regexpExecInternal regexp string.value).1 = some found)
    (latin : LatinTo string found.index) :
    ∃ before matched, MatchAt string found before matched ∧ (regexp.tracks = true →
        (regexpExecInternal regexp string.value).2.lastIndex = some ((bytes (before ++ matched)).length : Rat) ∧
        ∀ start, startOffset regexp (vstr string.value).length = some start → start ≤ (bytes before).length) := by
  have spelled := (value_spells string).bytes
  rcases exec_cases executed with ⟨untracked,plain,place,there,rfl⟩ | ⟨start,range,begin,run,rfl,left⟩
  · obtain ⟨before,at_⟩ := literal_found (source_ne_nil plain) there
    exact ⟨before,regexp.source,at_,fun tracked => by simp [untracked] at tracked⟩
  · have later := correct.later _ _ _ _ _ run
    have ascii : ∀ byte ∈ (bytes string.stored).take start, byte < 0x80 := by
      intro byte member
      rw [LatinTo,spelled] at latin
      exact latin byte ((take_prefix_take_left later).subset member)
    obtain ⟨front,rest,parts,rfl⟩ := place_of_ascii _ (startOffset_le begin) ascii
    rw [parts] at run
    obtain ⟨before,matched,after,equal,first,last⟩ := correct.boundaries _ _ _ _ _ run
    have split : string.stored = before ++ (matched ++ after) := parts.trans equal
    have pair : range = ((bytes before).length,(bytes (before ++ matched)).length) := Prod.ext first last
    refine ⟨before,matched,?_,fun tracked => ⟨by rw [left tracked,last],fun other same => ?_⟩⟩
    · rw [pair,split,matchOf_split]
      exact ⟨⟨after,by rw [split,append_assoc]⟩,rfl,rfl⟩
    · rw [spelled] at same
      rw [← Option.some.inj (begin.symm.trans same),← first]
      exact later

theorem counts_units_iff (there : MatchAt string found before matched) :
    CountsUnits string found before ↔ IsBasicLatin before := by
  unfold CountsUnits IsBasicLatin
  rw [← length_units_eq_iff,← there.index]
  exact ⟨fun counts => counts.1,fun counted => ⟨counted,slice_of_match there counted⟩⟩

theorem takeUnits_start {rest : List Point} (latin : IsBasicLatin before) {start : Nat}
    (within : start ≤ (bytes before).length) : (bytes (takeUnits start (before ++ rest))).length = start := by
  have latinTaken : IsBasicLatin (before.take start) := fun point member => latin point (mem_of_mem_take member)
  rw [bytes_ascii latin,length_map] at within
  have count : (units (before.take start)).length = start := by
    rw [units_ascii latinTaken,length_map,length_take,Nat.min_eq_left within]
  have taken := (splitUnits_append (before.take start) (before.drop start ++ rest) 0).1
  rw [← append_assoc,take_append_drop,Nat.add_zero,count,takeUnits,append_nil] at taken
  rw [taken,bytes_ascii latinTaken,length_map,length_take,Nat.min_eq_left within]

theorem counted_iff (located : LatinTo string found.index → ∃ before matched, MatchAt string found before matched) :
    (∃ before matched, MatchAt string found before matched ∧ CountsUnits string found before) ↔ LatinTo string found.index := by
  constructor
  · rintro ⟨before,matched,there,counts⟩
    exact there.latin_iff.mpr ((counts_units_iff there).mp counts)
  · intro latin
    obtain ⟨before,matched,there⟩ := located latin
    exact ⟨before,matched,there,(counts_units_iff there).mpr (there.latin_iff.mp latin)⟩

theorem exec_counted_iff (correct : Correct regexp) (executed : (regexpExecInternal regexp string.value).1 = some found) :
    (∃ before matched, MatchAt string found before matched ∧ CountsUnits string found before) ↔ LatinTo string found.index := by
  refine counted_iff fun latin => ?_
  obtain ⟨before,matched,there,_⟩ := exec_found correct executed latin
  exact ⟨before,matched,there⟩

/-- With basic latin before the match, `lastIndex` counts code units when the match is basic latin. -/
theorem lastIndex_counts_iff (there : MatchAt string found before matched) (latin : IsBasicLatin before) {after : RegExp}
    (left : after.lastIndex = some ((bytes (before ++ matched)).length : Rat))
    (later : ∀ start, startOffset regexp (vstr string.value).length = some start → start ≤ (bytes before).length) :
    LastIndexCountsUnits string regexp after before matched ↔ IsBasicLatin (before ++ matched) := by
  have started : ∀ start, startOffset regexp (vstr string.value).length = some start →
      (bytes (takeUnits start string.stored)).length = start := by
    intro start begin
    obtain ⟨rest,equal⟩ := there.within
    rw [← equal,append_assoc]
    exact takeUnits_start latin (later start begin)
  unfold LastIndexCountsUnits IsBasicLatin
  rw [left,← length_units_eq_iff,some_inj,Nat.cast_inj]
  exact ⟨fun both => both.1,fun same => ⟨same,started⟩⟩

theorem exec_counts_units_iff (correct : Correct regexp) (executed : (regexpExecInternal regexp string.value).1 = some found) :
    (∃ before matched, MatchAt string found before matched ∧ CountsUnits string found before ∧ (regexp.tracks = true →
        LastIndexCountsUnits string regexp (regexpExecInternal regexp string.value).2 before matched)) ↔
      LatinTo string found.index ∧ (regexp.tracks = true → LatinTo string (found.index + (vstr found.matched).length)) := by
  constructor
  · rintro ⟨before,matched,there,counts,last⟩
    have latin := there.latin_iff.mpr ((counts_units_iff there).mp counts)
    obtain ⟨other,rest,again,tracked⟩ := exec_found correct executed latin
    obtain ⟨rfl,rfl⟩ := there.unique again
    refine ⟨latin,fun tracks => there.latin_end_iff.mpr ?_⟩
    obtain ⟨left,later⟩ := tracked tracks
    exact (lastIndex_counts_iff there (there.latin_iff.mp latin) left later).mp (last tracks)
  · rintro ⟨latin,ends⟩
    obtain ⟨before,matched,there,tracked⟩ := exec_found correct executed latin
    have front := there.latin_iff.mp latin
    refine ⟨before,matched,there,(counts_units_iff there).mpr front,fun tracks => ?_⟩
    obtain ⟨left,later⟩ := tracked tracks
    exact (lastIndex_counts_iff there front left later).mpr (there.latin_end_iff.mp (ends tracks))

theorem Correct.withLastIndex (correct : Correct regexp) (value : Option Rat) :
    Correct {regexp with lastIndex := value} := ⟨correct.later,correct.boundaries,correct.literal⟩

end

theorem exec_keeps (regexp : RegExp) (str : Str) : ∃ value, (regexpExecInternal regexp str).2 = {regexp with lastIndex := value} := by
  unfold regexpExecInternal
  simp only
  split
  · exact ⟨some 0,rfl⟩
  · split
    · exact ⟨regexp.lastIndex,rfl⟩
    · split
      · split
        · exact ⟨some 0,rfl⟩
        · exact ⟨regexp.lastIndex,rfl⟩
      · next range _ =>
        split
        · exact ⟨some range.2,rfl⟩
        · exact ⟨regexp.lastIndex,rfl⟩

theorem startOffset_zero (regexp : RegExp) (length : Nat) : startOffset (regexpSetLastIndex regexp 0) length = some 0 := by
  unfold startOffset regexpSetLastIndex
  split
  · have zero : (0 : Rat).floor = 0 := rfl
    simp [zero]
  · rfl

theorem search_eq_exec {regexp : RegExp} (correct : Correct regexp) (string : Built) :
    (regexpSymbolSearch regexp string.value).1 =
      (regexpExecInternal (regexpSetLastIndex regexp 0) string.value).1.map Match.index := by
  have spelled := (value_spells string).bytes
  unfold regexpSymbolSearch
  split
  · next plain =>
    have nonempty := bytes_ne_nil (source_ne_nil plain)
    have same : regexpPlainLiteralPattern (regexpSetLastIndex regexp 0) = true := plain
    have notSticky : regexp.stickyFlag = false := by
      simp only [regexpPlainLiteralPattern,Bool.and_eq_true,Bool.not_eq_true',Bool.or_eq_false_iff] at plain
      exact plain.1.1.2
    unfold regexpExecInternal regexpExecSharedFast regexpExecPlainLiteralFast
    simp only [spelled,startOffset_zero,show (regexpSetLastIndex regexp 0).source = regexp.source from rfl]
    split
    · next result taken =>
      split at taken
      · cases taken
      · rw [← Option.some.inj taken]
        cases findBytes (bytes string.stored) (bytes regexp.source) <;> rfl
    · next taken =>
      have engine : regexp.compiled (bytes string.stored) 0 regexp.stickyFlag = _ := notSticky ▸ correct.literal plain string.stored
      simp only [regexpSetLastIndex,engine,findBytes_eq _ _ nonempty]
      cases indexOf (bytes regexp.source) (bytes string.stored) <;> rfl
  · rfl

/-- Every match of a replacement is one that `exec` finds from some `lastIndex`. -/
theorem replace_exec {fuel : Nat} {str : Str} (regexp : RegExp) : ∀ found ∈ replaceMatches str fuel regexp,
    ∃ value, (regexpExecInternal {regexp with lastIndex := value} str).1 = some found := by
  induction fuel generalizing regexp with
  | zero => simp [replaceMatches]
  | succ fuel ih =>
    intro found member
    simp only [replaceMatches] at member
    cases executed : (regexpExecInternal regexp str).1 with
    | none => simp [executed] at member
    | some first =>
      obtain ⟨value,kept⟩ := exec_keeps regexp str
      have here : first = found → ∃ value, (regexpExecInternal {regexp with lastIndex := value} str).1 = some found :=
        fun same => ⟨regexp.lastIndex,same ▸ executed⟩
      have further (next : Option Rat) (later : found ∈ replaceMatches str fuel {regexp with lastIndex := next}) :
          ∃ value, (regexpExecInternal {regexp with lastIndex := value} str).1 = some found :=
        ih {regexp with lastIndex := next} found later
      rw [executed,kept] at member
      simp only at member
      split at member
      · exact here (mem_singleton.mp member).symm
      · split at member
        · rcases mem_cons.mp member with same | later
          · exact here same.symm
          · exact further _ later
        · rcases mem_cons.mp member with same | later
          · exact here same.symm
          · exact further _ later

theorem call_at {found : Match} (there : MatchAt string found before matched) :
    MatchAt string {found with index := min found.index (vstr string.value).length} before matched := by
  obtain ⟨after,equal⟩ := there.within
  refine ⟨there.within,?_,there.text⟩
  have size : (vstr string.value).length = (bytes before).length + ((bytes matched).length + (bytes after).length) := by
    rw [(value_spells string).bytes,← equal]
    simp
  simp only [there.index]
  omega

theorem call_counted_iff {regexp : RegExp} (correct : Correct regexp) (fuel : Nat) (call : Match)
    (member : call ∈ replaceCalls regexp string.value fuel) :
    (∃ before matched, MatchAt string call before matched ∧ CountsUnits string call before) ↔ LatinTo string call.index := by
  obtain ⟨found,among,rfl⟩ := mem_map.mp member
  have started : Correct (if regexp.globalFlag then regexpSetLastIndex regexp 0 else regexp) := by
    split
    · exact correct.withLastIndex (some 0)
    · exact correct
  obtain ⟨value,executed⟩ := replace_exec _ found among
  refine counted_iff fun latin => ?_
  have same : LatinTo string found.index := by
    unfold LatinTo at latin ⊢
    rwa [take_eq_take_min]
  obtain ⟨before,matched,there,_⟩ := exec_found (started.withLastIndex value) executed same
  exact ⟨before,matched,call_at there⟩

/-- The positions of `exec`, `search` and `replace` count code units where the string up to the match,
and for `lastIndex` also the match, is basic latin, and nowhere else. -/
theorem match_positions_count_units_iff (regexp : RegExp) (correct : Correct regexp) (string : Built) :
    (∀ found, (regexpExecInternal regexp string.value).1 = some found →
      ((∃ before matched, MatchAt string found before matched ∧ CountsUnits string found before ∧ (regexp.tracks = true →
          LastIndexCountsUnits string regexp (regexpExecInternal regexp string.value).2 before matched)) ↔
        LatinTo string found.index ∧ (regexp.tracks = true → LatinTo string (found.index + (vstr found.matched).length)))) ∧
    (∀ index, (regexpSymbolSearch regexp string.value).1 = some index →
      ∃ found, (regexpExecInternal (regexpSetLastIndex regexp 0) string.value).1 = some found ∧ index = found.index ∧
        ((∃ before matched, MatchAt string found before matched ∧ CountsUnits string found before) ↔ LatinTo string index)) ∧
    (∀ index, builtinStringSearch regexp.compiled string.value = some index →
      ((∃ before, before <+: string.stored ∧ index = (bytes before).length ∧ index = (units before).length) ↔
        LatinTo string index)) ∧
    (∀ fuel, ∀ call ∈ replaceCalls regexp string.value fuel,
      ((∃ before matched, MatchAt string call before matched ∧ CountsUnits string call before) ↔ LatinTo string call.index)) := by
  refine ⟨fun found => exec_counts_units_iff correct,?_,?_,call_counted_iff correct⟩
  · intro index searched
    rw [search_eq_exec correct string] at searched
    obtain ⟨found,executed,rfl⟩ := map_eq_some_iff.mp searched
    exact ⟨found,executed,rfl,exec_counted_iff (correct.withLastIndex (some 0)) executed⟩
  · intro index searched
    have spelled := (value_spells string).bytes
    rw [builtinStringSearch,spelled] at searched
    obtain ⟨⟨first,last⟩,run,rfl⟩ := map_eq_some_iff.mp searched
    obtain ⟨before,matched,after,parts,rfl,_⟩ := correct.boundaries [] _ _ _ _ run
    have front : before <+: string.stored := ⟨matched ++ after,parts.symm⟩
    have taken : (vstr string.value).take (bytes before).length = bytes before := by
      rw [spelled,← nil_append string.stored,parts,bytes_append,take_left]
    rw [LatinTo,taken,bytes_ascii_iff,← length_units_eq_iff]
    constructor
    · rintro ⟨other,within,place,counted⟩
      obtain ⟨rest,equal⟩ := within
      have same : before = other := by
        apply bytes_injective
        have place : (bytes before).length = (bytes other).length := place
        rw [← taken,spelled,← equal,bytes_append,place,take_left]
      rw [same]
      exact place.symm.trans counted
    · exact fun counted => ⟨before,front,rfl,counted⟩

def literalEngine (source : List Point) : Engine := fun text start anchored =>
  if anchored then if bytes source <+: text.drop start then some (start,start + (bytes source).length) else none
  else (indexOf (bytes source) (text.drop start)).map fun offset => (start + offset,start + offset + (bytes source).length)

def literal (source : List Point) (globalFlag : Bool) : RegExp :=
  ⟨source,globalFlag,false,false,false,false,false,false,literalEngine source,some 0⟩

theorem literal_correct (source : List Point) (nonempty : source ≠ []) (globalFlag : Bool) : Correct (literal source globalFlag) := by
  have found (text : List Point) (place : Nat) (there : bytes source <+: (bytes text).drop place) :
      ∃ before matched after, text = before ++ (matched ++ after) ∧ place = (bytes before).length ∧
        place + (bytes source).length = (bytes (before ++ matched)).length := by
    obtain ⟨before,after,split,rfl⟩ := bytes_place nonempty there
    exact ⟨before,source,after,split,rfl,by simp⟩
  have range (text : List Point) (start : Nat) (anchored : Bool) (first last : Nat)
      (run : literalEngine source (bytes text) start anchored = some (first,last)) : start ≤ first ∧
      ∃ before matched after, text = before ++ (matched ++ after) ∧ first = (bytes before).length ∧
        last = (bytes (before ++ matched)).length := by
    unfold literalEngine at run
    split at run
    · split at run
      · next there =>
        cases run
        exact ⟨le_rfl,found text start there⟩
      · cases run
    · obtain ⟨offset,there,equal⟩ := map_eq_some_iff.mp run
      cases equal
      have place := (indexOf_eq_some _ there).1
      rw [drop_drop] at place
      exact ⟨Nat.le_add_right _ _,found text (start + offset) place⟩
  constructor
  · exact fun text start anchored first last run => (range text start anchored first last run).1
  · exact fun front rest anchored first last run => (range _ _ anchored first last run).2
  · simp [literal,literalEngine]

theorem match_positions_count_units_in_basic_latin :
    (∃ before matched, MatchAt (.literal [0x61,0x62,0xE9]) ⟨1,.flat [0x62]⟩ before matched ∧
      CountsUnits (.literal [0x61,0x62,0xE9]) ⟨1,.flat [0x62]⟩ before ∧
      ((literal [0x62] true).tracks = true → LastIndexCountsUnits (.literal [0x61,0x62,0xE9]) (literal [0x62] true)
        (regexpExecInternal (literal [0x62] true) (Built.literal [0x61,0x62,0xE9]).value).2 before matched)) ↔
    LatinTo (.literal [0x61,0x62,0xE9]) 1 ∧ ((literal [0x62] true).tracks = true → LatinTo (.literal [0x61,0x62,0xE9]) 2) :=
  (match_positions_count_units_iff (literal [0x62] true) (literal_correct [0x62] (by simp) true) (.literal [0x61,0x62,0xE9])).1
    ⟨1,.flat [0x62]⟩ (by decide +kernel)

/-- Behind a letter of two bytes the positions count the bytes. -/
theorem match_positions_count_bytes :
    let string := Built.literal [0xE9,0x61]
    let executed := regexpExecInternal (literal [0x61] true) string.value
    executed.1 = some ⟨2,.flat [0x61]⟩ ∧ executed.2.lastIndex = some 3 ∧ string.units = [0xE9,0x61] ∧
      strictEqValues (builtinStringSlice string.value 0 (some 2) (some 3)) (.flat [0x61]) = false ∧
      (regexpSymbolSearch (literal [0x61] true) string.value).1 = some 2 := by
  decide +kernel

end Ant.Text.Regex
