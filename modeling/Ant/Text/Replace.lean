import Ant.Library.FirstMatch
import Ant.Text.Equality
import Mathlib.Algebra.Group.Nat.Defs

/-! Replacing a string in a string: the search and the copy loop of the runtime work on bytes; the
language replaces occurrences in code units and expands the dollar signs of the replacement. -/
namespace Ant.Text.Replace
open Library.Wtf8 Library.FirstMatch Strings Equality List Option

def regexpPlainLiteralMax : Nat := 32

/-- Short needles are compared at every place; long ones are searched with a table of borders. -/
def findBytes (haystack needle : List Nat) : Option Nat :=
  if needle.length = 0 ∨ haystack.length < needle.length then none
  else if regexpPlainLiteralMax < needle.length then search needle haystack
  else (List.range (haystack.length - needle.length + 1)).find? fun place =>
    haystack[place]? == needle[0]? && memcmp needle.length (haystack.drop place) needle == 0

/-- Bytes copied to the buffer, which grows as it has to. Nothing comes of a copy that reads past the
end of its source. -/
def strBufAppend (buf data : List Nat) (count : Nat) : Option (List Nat) :=
  if count ≤ data.length then some (buf ++ data.take count) else none

/-- The difference of two sizes, which wraps around below zero. -/
def sizeSub (left right : Nat) : Nat := if right ≤ left then left - right else left + 2^64 - right

def emitStrReplacement (buf repl : List Nat) : Option (List Nat) := strBufAppend buf repl repl.length

structure Progress where
  pos : Nat
  buf : List Nat
  replaced : Bool
  deriving DecidableEq,Repr

def replaceEach (text needle repl : List Nat) : Nat → Progress → Option Progress
  | 0,progress => some progress
  | fuel+1,⟨pos,buf,replaced⟩ => match findBytes (text.drop pos) needle with
    | none => some ⟨pos,buf,replaced⟩
    | some offset => do
      let kept ← strBufAppend buf (text.drop pos) offset
      let buf ← emitStrReplacement kept repl
      replaceEach text needle repl fuel ⟨pos + offset + needle.length,buf,true⟩

def replaceBetween (text repl : List Nat) : Nat → Progress → Option Progress
  | 0,progress => some progress
  | fuel+1,⟨pos,buf,replaced⟩ =>
    if pos ≤ text.length then do
      let emitted ← emitStrReplacement buf repl
      let buf ← if pos < text.length then strBufAppend emitted (text.drop pos) 1 else some emitted
      replaceBetween text repl fuel ⟨pos + 1,buf,true⟩
    else some ⟨pos,buf,replaced⟩

def stringReplaceImpl (str needle replacement : Str) (replaceAll : Bool) : Option Str :=
  let text := vstr str
  let pattern := vstr needle
  let repl := vstr replacement
  if replaceAll = false then
    if text.length < pattern.length then some str
    else match if pattern.length = 0 then some 0 else findBytes text pattern with
      | none => some str
      | some place => do
        let kept ← strBufAppend [] text place
        let emitted ← emitStrReplacement kept repl
        let buf ← strBufAppend emitted (text.drop (place + pattern.length)) (sizeSub (sizeSub text.length place) pattern.length)
        some (.flat buf)
  else do
    let progress ← if pattern.length ≠ 0 then replaceEach text pattern repl (text.length + 1) ⟨0,[],false⟩
      else replaceBetween text repl (text.length + 2) ⟨0,[],false⟩
    let buf ← strBufAppend progress.buf (text.drop progress.pos) (sizeSub text.length progress.pos)
    some (if progress.replaced then .flat buf else str)

/-! What the language says, in code units. -/

def stringIndexOf (string pattern : List Nat) (start : Nat) : Option Nat :=
  if start ≤ string.length then (indexOf pattern (string.drop start)).map (start + ·) else none

def matchPositions (string pattern : List Nat) : Nat → Nat → List Nat
  | 0,_ => []
  | fuel+1,start => match stringIndexOf string pattern start with
    | none => []
    | some position => position :: matchPositions string pattern fuel (position + max 1 pattern.length)

def positions (string pattern : List Nat) (replaceAll : Bool) : List Nat :=
  if replaceAll then matchPositions string pattern (string.length + 1) 0 else (stringIndexOf string pattern 0).toList

/-- The replacement for one occurrence: `$$`, `$&` and the text before and after it are filled in,
and without captures every other dollar sign stands for itself. -/
def getSubstitution (matched string : List Nat) (position : Nat) : List Nat → List Nat
  | 0x24 :: 0x24 :: rest => 0x24 :: getSubstitution matched string position rest
  | 0x24 :: 0x26 :: rest => matched ++ getSubstitution matched string position rest
  | 0x24 :: 0x60 :: rest => string.take position ++ getSubstitution matched string position rest
  | 0x24 :: 0x27 :: rest => string.drop (position + matched.length) ++ getSubstitution matched string position rest
  | unit :: rest => unit :: getSubstitution matched string position rest
  | [] => []

def substitute (string pattern template : List Nat) : List Nat → Nat → List Nat
  | [],start => string.drop start
  | position :: later,start => (string.drop start).take (position - start) ++ getSubstitution pattern string position template ++
      substitute string pattern template later (position + pattern.length)

def replaceString (string pattern template : List Nat) (replaceAll : Bool) : List Nat :=
  substitute string pattern template (positions string pattern replaceAll) 0

def Shown (text pattern : List Point) (position : Nat) : Prop :=
  ∃ before after, text = before ++ (pattern ++ after) ∧ (units before).length = position

def Yields (outcome : Option Str) (expected : List Nat) : Prop :=
  ∃ result text, outcome = some result ∧ vstr result = bytes text ∧ units text = expected

theorem memcmp_prefix (needle text : List Nat) (fits : needle.length ≤ text.length) :
    memcmp needle.length text needle = 0 ↔ needle <+: text := by
  induction needle generalizing text with
  | nil => simp [memcmp]
  | cons byte needle ih =>
    cases text with
    | nil => simp at fits
    | cons other text =>
      have tails := ih text (by simpa using fits)
      simp only [length_cons,memcmp]
      split
      · next less => simp; omega
      · split
        · next greater => simp; omega
        · next notLess notGreater =>
          rw [tails]
          have equal : byte = other := by omega
          simp [equal]

theorem compares_iff {haystack needle : List Nat} (nonempty : needle ≠ []) {place : Nat}
    (fits : place + needle.length ≤ haystack.length) :
    (haystack[place]? == needle[0]? && memcmp needle.length (haystack.drop place) needle == 0) = true ↔
      needle <+: haystack.drop place := by
  have compared := memcmp_prefix needle (haystack.drop place) (by rw [length_drop]; omega)
  simp only [Bool.and_eq_true,beq_iff_eq]
  rw [compared]
  refine ⟨fun both => both.2,fun there => ⟨?_,there⟩⟩
  obtain ⟨behind,equal⟩ := there
  obtain ⟨byte,needle,rfl⟩ := exists_cons_of_ne_nil nonempty
  have first := congrArg List.head? equal
  simpa using first.symm

theorem findBytes_eq (haystack needle : List Nat) (nonempty : needle ≠ []) : findBytes haystack needle = indexOf needle haystack := by
  have positive := length_pos_iff.mpr nonempty
  unfold findBytes
  split
  · next none =>
    refine (indexOf_eq_none_of fun place there => ?_).symm
    have fits := there.length_le
    rw [length_drop] at fits
    omega
  · next fits =>
    split
    · exact search_eq_indexOf nonempty
    · cases first : indexOf needle haystack with
      | none =>
        rw [find?_range_eq_none]
        intro place inside
        have missing := indexOf_eq_none first place
        rw [← compares_iff nonempty (by omega)] at missing
        simpa only [Bool.not_eq_true',Bool.not_eq_true] using missing
      | some place =>
        obtain ⟨there,earlier⟩ := indexOf_eq_some place first
        have short := there.length_le
        rw [length_drop] at short
        rw [find?_range_eq_some]
        refine ⟨(compares_iff nonempty (by omega)).mpr there,mem_range.mpr (by omega),?_⟩
        intro before less
        have missing := earlier before less
        rw [← compares_iff nonempty (by omega)] at missing
        simpa only [Bool.not_eq_true',Bool.not_eq_true] using missing

/-- The search returns the first place where a needle that is not empty stands. -/
theorem findBytes_first (haystack needle : List Nat) :
    (needle ≠ [] → (∀ place, findBytes haystack needle = some place ↔
        needle <+: haystack.drop place ∧ ∀ earlier < place, ¬ needle <+: haystack.drop earlier) ∧
      (findBytes haystack needle = none ↔ ∀ place, ¬ needle <+: haystack.drop place)) ∧
    findBytes haystack [] = none := by
  refine ⟨fun nonempty => ?_,by simp [findBytes]⟩
  rw [findBytes_eq haystack needle nonempty]
  constructor
  · intro place
    exact ⟨indexOf_eq_some place,fun occurs => indexOf_eq occurs.1 occurs.2⟩
  · exact ⟨indexOf_eq_none,indexOf_eq_none_of⟩

/-- The empty needle stands everywhere and is not found. -/
theorem findBytes_empty : findBytes [97] [] = none ∧ [] <+: [97].drop 0 := ⟨rfl, nil_prefix⟩

theorem indexOf_bytes (pattern text : List Point) (nonempty : pattern ≠ []) :
    indexOf (bytes pattern) (bytes text) = (indexOf pattern text).map fun count => (bytes (text.take count)).length := by
  cases first : indexOf pattern text with
  | none =>
    refine indexOf_eq_none_of fun place there => ?_
    obtain ⟨before,after,rfl,_⟩ := bytes_place nonempty there
    exact indexOf_eq_none first before.length (by simp)
  | some count =>
    obtain ⟨⟨after,equal⟩,earlier⟩ := indexOf_eq_some _ first
    have whole : text = text.take count ++ (pattern ++ after) := by rw [equal,take_append_drop]
    rw [map_some]
    refine indexOf_eq ?_ ?_
    · nth_rewrite 2 [whole]
      rw [bytes_append,drop_left,bytes_append]
      exact prefix_append _ _
    · intro place less there
      obtain ⟨before,rest,rfl,front⟩ := bytes_place nonempty there
      have shorter : before.length < count := by
        by_contra longer
        have start : (before ++ (pattern ++ rest)).take count = before.take count := take_append_of_le_length (by omega)
        have parts : bytes before = bytes (before.take count) ++ bytes (before.drop count) := by
          rw [← bytes_append,take_append_drop]
        have sizes := congrArg List.length parts
        rw [start] at less
        simp only [length_append] at sizes
        omega
      exact earlier before.length shorter (by simp)

theorem strBufAppend_take (buf data : List Nat) (count : Nat) (within : count ≤ data.length) :
    strBufAppend buf data count = some (buf ++ data.take count) := if_pos within

theorem emitStrReplacement_eq (buf repl : List Nat) : emitStrReplacement buf repl = some (buf ++ repl) := by
  rw [emitStrReplacement,strBufAppend_take _ _ _ le_rfl,take_length]

theorem stringIndexOf_units (pattern done rest : List Point)
    (shown : ∀ position, stringIndexOf (units (done ++ rest)) (units pattern) (units done).length = some position →
      Shown (done ++ rest) pattern position) : stringIndexOf (units (done ++ rest)) (units pattern) (units done).length =
      (indexOf pattern rest).map fun count => (units (done ++ rest.take count)).length := by
  have reduced : stringIndexOf (units (done ++ rest)) (units pattern) (units done).length =
      (indexOf (units pattern) (units rest)).map ((units done).length + ·) := by
    rw [stringIndexOf,if_pos (by simp),units_append,drop_left]
  rw [reduced] at shown ⊢
  -- An occurrence in code points is one in units.
  have seen (count : Nat) (there : pattern <+: rest.drop count) : units pattern <+: (units rest).drop (units (rest.take count)).length := by
    obtain ⟨after,equal⟩ := there
    have whole : units rest = units (rest.take count) ++ (units pattern ++ units after) := by
      rw [← units_append,← units_append,equal,take_append_drop]
    rw [whole,drop_left]
    exact prefix_append _ _
  cases first : indexOf (units pattern) (units rest) with
  | none =>
    cases stored : indexOf pattern rest with
    | none => rfl
    | some count => exact absurd (seen count (indexOf_eq_some _ stored).1) (indexOf_eq_none first _)
  | some offset =>
    obtain ⟨_,earlier⟩ := indexOf_eq_some _ first
    obtain ⟨before,after,equal,place⟩ := shown ((units done).length + offset) (by rw [first]; rfl)
    have start : done <+: before := prefix_of_length_units_le (prefix_append done rest) (equal ▸ prefix_append _ _) (by omega)
    obtain ⟨skipped,rfl⟩ := start
    rw [append_assoc,append_cancel_left_eq] at equal
    subst equal
    have counted : (units skipped).length = offset := by
      simp only [units_append,length_append] at place
      omega
    have stored : indexOf pattern (skipped ++ (pattern ++ after)) = some skipped.length := by
      refine indexOf_eq (by simp) ?_
      intro count less there
      refine earlier _ ?_ (seen count there)
      rw [take_append_of_le_length less.le,← counted]
      have parts : skipped = skipped.take count ++ skipped.drop count := (take_append_drop _ _).symm
      obtain ⟨point,more,remains⟩ : ∃ point more, skipped.drop count = point :: more :=
        exists_cons_of_length_pos (by rw [length_drop]; omega)
      have positive := unitsOf_length_pos point
      nth_rewrite 2 [parts]
      rw [units_append,length_append,remains,units_cons,length_append]
      omega
    rw [stored]
    simp [counted]

theorem bytes_ne_nil {text : List Point} (nonempty : text ≠ []) : bytes text ≠ [] := by
  intro empty
  exact nonempty (bytes_injective (empty.trans bytes_nil.symm))

theorem replaceEach_spec (text pattern repl : List Point) (nonempty : pattern ≠ []) (fuel turns : Nat) (done rest out : List Point)
    (replaced : Bool) (whole : text = done ++ rest) (enough : rest.length < fuel) (turnsEnough : (units rest).length < turns)
    (shown : ∀ position ∈ matchPositions (units text) (units pattern) turns (units done).length, Shown text pattern position)
    (verbatim : ∀ position ∈ matchPositions (units text) (units pattern) turns (units done).length,
      getSubstitution (units pattern) (units text) position (units repl) = units repl) : ∃ passed left built changed,
      replaceEach (bytes text) (bytes pattern) (bytes repl) fuel ⟨(bytes done).length,bytes out,replaced⟩ =
        some ⟨(bytes passed).length,bytes built,changed⟩ ∧ text = passed ++ left ∧
      units (built ++ left) = units out ++ substitute (units text) (units pattern) (units repl)
        (matchPositions (units text) (units pattern) turns (units done).length) (units done).length ∧
      (changed = false → replaced = false ∧ built ++ left = out ++ rest) := by
  induction fuel generalizing turns done rest out replaced with
  | zero => omega
  | succ fuel ih =>
    obtain ⟨turns,rfl⟩ : ∃ less, turns = less + 1 := ⟨turns - 1,by omega⟩
    have agree := stringIndexOf_units pattern done rest (by
      rw [← whole]
      intro position found
      apply shown position
      simp only [matchPositions,found]
      exact mem_cons_self)
    have searched : findBytes ((bytes text).drop (bytes done).length) (bytes pattern) =
        (indexOf pattern rest).map fun count => (bytes (rest.take count)).length := by
      rw [findBytes_eq _ _ (bytes_ne_nil nonempty),whole,bytes_append,drop_left,indexOf_bytes pattern rest nonempty]
    rw [← whole] at agree
    cases first : indexOf pattern rest with
    | none =>
      rw [first] at agree searched
      refine ⟨done,rest,out,replaced,?_,whole,?_,fun same => ⟨same,rfl⟩⟩
      · simp only [replaceEach,searched,map_none]
      · simp only [matchPositions,agree,map_none,substitute]
        rw [whole,units_append,units_append,drop_left]
    | some count =>
      rw [first] at agree searched
      obtain ⟨⟨after,equal⟩,_⟩ := indexOf_eq_some _ first
      have parts : rest = rest.take count ++ (pattern ++ after) := by rw [equal,take_append_drop]
      obtain ⟨kept,keptEq⟩ : ∃ kept, rest.take count = kept := ⟨_,rfl⟩
      rw [keptEq] at parts
      simp only [map_some,keptEq] at agree searched
      have longer : max 1 (units pattern).length = (units pattern).length := by
        obtain ⟨point,more,rfl⟩ := exists_cons_of_ne_nil nonempty
        have positive := unitsOf_length_pos point
        simp only [units_cons,length_append]
        omega
      have patternPos := length_pos_iff.mpr nonempty
      have next : (units (done ++ kept)).length + (units pattern).length = (units (done ++ (kept ++ pattern))).length := by
        simp only [units_append,length_append]
        omega
      have listed : matchPositions (units text) (units pattern) (turns + 1) (units done).length = (units (done ++ kept)).length ::
          matchPositions (units text) (units pattern) turns (units (done ++ (kept ++ pattern))).length := by
        simp only [matchPositions,agree,longer,next]
      rw [listed] at shown verbatim ⊢
      obtain ⟨passed,left,built,changed,run,split,result,unchanged⟩ := ih turns (done ++ (kept ++ pattern)) after (out ++ (kept ++ repl)) true
        (by rw [whole,parts]; simp) (by rw [parts] at enough; simp at enough; omega)
        (by rw [parts] at turnsEnough; simp at turnsEnough; omega)
        (fun position later => shown position (mem_cons_of_mem _ later))
        (fun position later => verbatim position (mem_cons_of_mem _ later))
      refine ⟨passed,left,built,changed,?_,split,?_,?_⟩
      · have behind : (bytes text).drop (bytes done).length = bytes kept ++ bytes (pattern ++ after) := by
          rw [whole,parts,bytes_append,drop_left,bytes_append]
        have copied : strBufAppend (bytes out) ((bytes text).drop (bytes done).length) (bytes kept).length =
            some (bytes out ++ bytes kept) := by
          rw [behind,strBufAppend_take _ _ _ (by simp),take_left]
        have state : (⟨(bytes done).length + (bytes kept).length + (bytes pattern).length,bytes out ++ bytes kept ++ bytes repl,true⟩ :
            Progress) = ⟨(bytes (done ++ (kept ++ pattern))).length,bytes (out ++ (kept ++ repl)),true⟩ := by
          simp [Nat.add_assoc]
        rw [← run,← state]
        simp only [replaceEach,searched,copied,emitStrReplacement_eq,bind_eq_bind,bind_some]
      · rw [result,substitute,verbatim _ mem_cons_self,next]
        have between : ((units text).drop (units done).length).take ((units (done ++ kept)).length - (units done).length) = units kept := by
          rw [whole,parts,units_append done kept,length_append,Nat.add_sub_cancel_left,units_append,drop_left,units_append,take_left]
        rw [between]
        simp
      · intro same
        exact absurd (unchanged same).1 (by simp)

theorem sizeSub_of_le {left right : Nat} (less : right ≤ left) : sizeSub left right = left - right := if_pos less

section Stored
variable {str needle replacement : Str} {text pattern repl : List Point}
variable (ofStr : vstr str = bytes text) (ofNeedle : vstr needle = bytes pattern) (ofReplacement : vstr replacement = bytes repl)
include ofStr ofNeedle ofReplacement

theorem stringReplaceImpl_first : stringReplaceImpl str needle replacement false =
    some ((indexOf pattern text).elim str fun count =>
      .flat (bytes (text.take count ++ (repl ++ text.drop (count + pattern.length))))) := by
  have searched : (if (bytes pattern).length = 0 then some 0 else findBytes (bytes text) (bytes pattern)) =
      (indexOf pattern text).map fun count => (bytes (text.take count)).length := by
    split
    · next empty =>
      have nothing : pattern = [] := bytes_injective (eq_nil_of_length_eq_zero empty)
      subst nothing
      have here : indexOf [] text = some 0 := indexOf_eq (by simp) (by simp)
      simp [here]
    · next present =>
      have nonempty : pattern ≠ [] := by
        rintro rfl
        simp at present
      rw [findBytes_eq _ _ (bytes_ne_nil nonempty),indexOf_bytes pattern text nonempty]
  unfold stringReplaceImpl
  simp only [ofStr,ofNeedle,ofReplacement,searched,if_true]
  cases first : indexOf pattern text with
  | none => simp
  | some count =>
    obtain ⟨⟨after,equal⟩,_⟩ := indexOf_eq_some _ first
    have parts : text = text.take count ++ (pattern ++ after) := by rw [equal,take_append_drop]
    have behind : text.drop (count + pattern.length) = after := by rw [← drop_drop,← equal,drop_left]
    obtain ⟨kept,keptEq⟩ : ∃ kept, text.take count = kept := ⟨_,rfl⟩
    rw [keptEq] at parts
    have size : (bytes text).length = (bytes kept).length + ((bytes pattern).length + (bytes after).length) := by
      rw [parts]
      simp
    have tail : (bytes text).drop ((bytes kept).length + (bytes pattern).length) = bytes after := by
      rw [parts,← drop_drop,bytes_append,drop_left,bytes_append,drop_left]
    have copied : strBufAppend [] (bytes text) (bytes kept).length = some (bytes kept) := by
      rw [strBufAppend_take _ _ _ (by omega),parts,bytes_append,take_left,nil_append]
    rw [if_neg (by omega)]
    simp only [map_some,elim_some,behind,keptEq,copied,bind_eq_bind,bind_some,emitStrReplacement_eq]
    rw [tail,sizeSub_of_le (show (bytes kept).length ≤ (bytes text).length by omega),sizeSub_of_le (by omega),
      strBufAppend_take _ _ _ (by omega),take_of_length_le (by omega)]
    simp

theorem stringReplaceImpl_all (nonempty : pattern ≠ [])
    (shown : ∀ position ∈ positions (units text) (units pattern) true, Shown text pattern position)
    (verbatim : ∀ position ∈ positions (units text) (units pattern) true,
      getSubstitution (units pattern) (units text) position (units repl) = units repl) :
    Yields (stringReplaceImpl str needle replacement true) (replaceString (units text) (units pattern) (units repl) true) := by
  have enough : text.length < (bytes text).length + 1 := Nat.lt_succ_of_le (Scan.length_le_bytes text)
  obtain ⟨passed,left,built,changed,run,split,result,unchanged⟩ := replaceEach_spec text pattern repl nonempty ((bytes text).length + 1)
    ((units text).length + 1) [] text [] false rfl enough (Nat.lt_succ_self _) shown verbatim
  have present : (bytes pattern).length ≠ 0 := by
    rw [Ne,length_eq_zero_iff]
    exact bytes_ne_nil nonempty
  have size : (bytes text).length = (bytes passed).length + (bytes left).length := by rw [split,bytes_append,length_append]
  have rest : (bytes text).drop (bytes passed).length = bytes left := by rw [split,bytes_append,drop_left]
  have outcome : stringReplaceImpl str needle replacement true = some (if changed then .flat (bytes (built ++ left)) else str) := by
    unfold stringReplaceImpl
    simp only [ofStr,ofNeedle,ofReplacement,if_pos present]
    rw [show replaceEach (bytes text) (bytes pattern) (bytes repl) ((bytes text).length + 1) ⟨0,[],false⟩ = _ from run]
    simp only [bind_eq_bind,bind_some]
    rw [rest,sizeSub_of_le (by omega),strBufAppend_take _ _ _ (by omega),take_of_length_le (by omega),← bytes_append]
    rfl
  have expected : units (built ++ left) = replaceString (units text) (units pattern) (units repl) true := result
  cases changed with
  | true => exact ⟨_,built ++ left,outcome,vstr_flat,expected⟩
  | false =>
    have same : built ++ left = text := (unchanged rfl).2
    exact ⟨str,text,outcome,ofStr,by rw [← expected,same]⟩

end Stored

def AllShown (string pattern : Built) (replaceAll : Bool) : Prop :=
  ∀ position ∈ positions string.units pattern.units replaceAll, Shown string.stored pattern.stored position

def Verbatim (string pattern replacement : Built) (replaceAll : Bool) : Prop :=
  ∀ position ∈ positions string.units pattern.units replaceAll,
    getSubstitution pattern.units string.units position replacement.units = replacement.units

def ReplacesAsSpecified (string pattern replacement : Built) (replaceAll : Bool) : Prop :=
  Yields (stringReplaceImpl string.value pattern.value replacement.value replaceAll)
    (replaceString string.units pattern.units replacement.units replaceAll)

theorem first_replaced_iff {string pattern : Built} (replacement : Built) (shown : AllShown string pattern false) :
    ReplacesAsSpecified string pattern replacement false ↔ Verbatim string pattern replacement false := by
  have outcome := stringReplaceImpl_first (value_spells string).bytes (value_spells pattern).bytes (value_spells replacement).bytes
  unfold AllShown at shown
  unfold ReplacesAsSpecified Verbatim
  simp only [← units_stored] at shown ⊢
  have agree := stringIndexOf_units pattern.stored [] string.stored (by
    intro position found
    apply shown position
    simp only [positions,if_false]
    rw [show stringIndexOf (units string.stored) (units pattern.stored) 0 = some position from found]
    simp)
  rw [outcome]
  simp only [nil_append,units_nil,length_nil] at agree
  unfold replaceString
  simp only [positions,Bool.false_eq_true,if_false,agree]
  cases first : indexOf pattern.stored string.stored with
  | none =>
    simp only [map_none,toList_none,not_mem_nil,false_implies,implies_true,iff_true,elim_none]
    exact ⟨string.value,string.stored,rfl,(value_spells string).bytes,rfl⟩
  | some count =>
    obtain ⟨⟨after,equal⟩,_⟩ := indexOf_eq_some _ first
    have parts : string.stored = string.stored.take count ++ (pattern.stored ++ after) := by rw [equal,take_append_drop]
    have behind : string.stored.drop (count + pattern.stored.length) = after := by rw [← drop_drop,← equal,drop_left]
    obtain ⟨kept,keptEq⟩ : ∃ kept, string.stored.take count = kept := ⟨_,rfl⟩
    rw [keptEq] at parts
    have inUnits : units string.stored = units kept ++ (units pattern.stored ++ units after) := by
      rw [parts,units_append,units_append]
    have front : (units string.stored).take (units kept).length = units kept := by rw [inUnits,take_left]
    have tail : (units string.stored).drop ((units kept).length + (units pattern.stored).length) = units after := by
      rw [inUnits,← drop_drop,drop_left,drop_left]
    simp only [map_some,toList_some,mem_singleton,forall_eq,elim_some,keptEq,behind,substitute,drop_zero,
      Nat.sub_zero,front,tail]
    constructor
    · rintro ⟨result,text,returned,spelled,same⟩
      rw [← Option.some.inj returned,vstr_flat] at spelled
      rw [← bytes_injective spelled,units_append,units_append,append_assoc,append_cancel_left_eq,
        append_cancel_right_eq] at same
      exact same.symm
    · intro verbatim
      exact ⟨_,_,rfl,vstr_flat,by simp [verbatim]⟩

/-- A replacement of shown occurrences is right when there is nothing to be filled in, and a single one
only then. -/
theorem string_replace_is_specified (string pattern replacement : Built) (replaceAll : Bool)
    (nonempty : replaceAll = true → pattern.units ≠ []) (shown : AllShown string pattern replaceAll) :
    (Verbatim string pattern replacement replaceAll → ReplacesAsSpecified string pattern replacement replaceAll) ∧
      (replaceAll = false → ReplacesAsSpecified string pattern replacement replaceAll →
        Verbatim string pattern replacement replaceAll) := by
  cases replaceAll with
  | false =>
    have exact_ := first_replaced_iff replacement shown
    exact ⟨exact_.mpr,fun _ => exact_.mp⟩
  | true =>
    refine ⟨fun verbatim => ?_,fun single => absurd single (by simp)⟩
    have present : pattern.stored ≠ [] := by
      intro empty
      apply nonempty rfl
      rw [← units_stored,empty,units_nil]
    unfold AllShown at shown
    unfold Verbatim at verbatim
    unfold ReplacesAsSpecified
    simp only [← units_stored] at shown verbatim ⊢
    exact stringReplaceImpl_all (value_spells string).bytes (value_spells pattern).bytes (value_spells replacement).bytes
      present shown verbatim

theorem string_replace_is_specified_behind_a_pair :
    ReplacesAsSpecified (.literal [0x1F600,0x58,0x62,0x58]) (.literal [0x58]) (.literal [0x79,0x24]) true := by
  have places : positions (Built.literal [0x1F600,0x58,0x62,0x58]).units (Built.literal [0x58]).units true = [2,4] := by decide +kernel
  refine (string_replace_is_specified _ _ _ true (fun _ => by decide) ?_).1 ?_
  · unfold AllShown
    rw [places]
    intro position member
    simp only [mem_cons,not_mem_nil,or_false] at member
    obtain rfl | rfl := member
    · exact ⟨[0x1F600],[0x62,0x58],rfl,by decide⟩
    · exact ⟨[0x1F600,0x58,0x62],[],rfl,by decide⟩
  · unfold Verbatim
    decide

theorem replaceBetween_pos (text repl : List Nat) (fuel : Nat) (progress result : Progress) (before : progress.pos ≤ text.length + 1)
    (enough : text.length + 1 < progress.pos + fuel) (run : replaceBetween text repl fuel progress = some result) :
    result.pos = text.length + 1 := by
  induction fuel generalizing progress with
  | zero => omega
  | succ fuel ih =>
    obtain ⟨pos,buf,replaced⟩ := progress
    simp only [replaceBetween,emitStrReplacement_eq,bind_eq_bind,bind_some] at run
    split at run
    · next inside =>
      have further (next : List Nat) := ih ⟨pos + 1,next,true⟩ (by simp only; omega) (by simp only at enough ⊢; omega)
      split at run
      · obtain ⟨next,_,rest⟩ := bind_eq_some_iff.mp run
        exact further next rest
      · exact further _ run
    · next outside =>
      rw [← Option.some.inj run]
      simp only at before ⊢
      omega

theorem replaceAll_of_empty (str needle replacement : Str) (empty : vstr needle = []) :
    stringReplaceImpl str needle replacement true = none := by
  unfold stringReplaceImpl
  simp only [empty,Bool.true_eq_false,length_nil,not_true_eq_false,if_false,bind_eq_bind]
  cases run : replaceBetween (vstr str) (vstr replacement) ((vstr str).length + 2) ⟨0,[],false⟩ with
  | none => rfl
  | some progress =>
    have past := replaceBetween_pos _ _ _ _ _ (by simp) (by simp) run
    rw [bind_some,past,sizeSub,if_neg (by omega),strBufAppend,if_neg (by simp)]
    rfl

theorem Yields.decoded {outcome : Option Str} {expected : List Nat} (yields : Yields outcome expected) :
    (outcome.map fun result => units (decode (vstr result))) = some expected := by
  obtain ⟨result,text,returned,spelled,same⟩ := yields
  rw [returned,map_some,spelled,decode_bytes,same]

/-- Dollar signs are not filled in, an empty pattern never comes back from `replaceAll`, and half of
a pair is not found. -/
theorem dollars_empties_and_halves_fail :
    ¬ ReplacesAsSpecified (.literal [0x61]) (.literal [0x61]) (.literal [0x24,0x26,0x24,0x26]) false ∧
    (∀ string replacement : Built, ¬ ReplacesAsSpecified string (.literal []) replacement true) ∧
    ¬ ReplacesAsSpecified (.literal [0x1F600]) (.literal [0xDE00]) (.literal [0x61]) false := by
  refine ⟨fun yields => ?_,fun string replacement yields => ?_,fun yields => ?_⟩
  · exact absurd yields.decoded (by decide +kernel)
  · have failed := replaceAll_of_empty string.value (Built.literal []).value replacement.value rfl
    have returned := yields.decoded
    rw [failed] at returned
    cases returned
  · exact absurd yields.decoded (by decide +kernel)

end Ant.Text.Replace
