import Ant.Text.Scan

/-! Strings of the runtime: flat ones, which are bytes, and ropes, which are flattened when the bytes
are asked for. A builder is read through its snapshot, which is one of these. Memory never runs out here. -/
namespace Ant.Text.Strings
open Library.Wtf8 Scan List

inductive Str where
  | flat (text : List Nat)
  | rope (left right : Str) (depth : Nat)
  deriving DecidableEq,Repr

def ropeDepthSaturated : Nat := 65535

def strShortConsThreshold : Nat := 13

def Str.isRope : Str → Bool
  | .flat _ => false
  | .rope _ _ _ => true

def Str.depth : Str → Nat
  | .flat _ => 0
  | .rope _ _ depth => depth

/-- The pieces are copied from the last one to the first. -/
def ropeFlattenInto : Str → List Nat → List Nat
  | .flat text,behind => text ++ behind
  | .rope left right _,behind => ropeFlattenInto left (ropeFlattenInto right behind)

def vstr (str : Str) : List Nat := ropeFlattenInto str []

def strLenFast : Str → Nat
  | .flat text => text.length
  | .rope left right _ => strLenFast left + strLenFast right

def flatUtf16Len (text : List Nat) : Nat := if isAscii text then text.length else utf16Strlen text

def strUtf16Len : Str → Nat
  | .flat text => flatUtf16Len text
  | .rope left right depth =>
    if depth = ropeDepthSaturated then flatUtf16Len (vstr (.rope left right depth)) else strUtf16Len left + strUtf16Len right

def doStringPlus (left right : Str) : Str :=
  if strLenFast right = 0 then left
  else if strLenFast left = 0 then right
  else if strLenFast left + strLenFast right < strShortConsThreshold ∧ left.isRope = false ∧ right.isRope = false then
    .flat (vstr left ++ vstr right)
  else .rope left right (min (max left.depth right.depth + 1) ropeDepthSaturated)

def memcmp : Nat → List Nat → List Nat → Int
  | count+1,a :: first,b :: second => if a < b then -1 else if b < a then 1 else memcmp count first second
  | _,_,_ => 0

def strictEqValues (left right : Str) : Bool :=
  (vstr left).length == (vstr right).length && memcmp (vstr left).length (vstr left) (vstr right) == 0

/-- Code points that there are not have no bytes. -/
def utf8Encode (point : Nat) : List Nat := if bound : point < 0x110000 then encode ⟨point,bound⟩ else []

def utf16CodeUnitToWtf8 (unit : Nat) : List Nat :=
  if 0xD800 ≤ unit ∧ unit ≤ 0xDFFF then [0xE0 + unit / 4096,0x80 + unit / 64 % 64,0x80 + unit % 64] else utf8Encode unit

def half (unit : Option Nat) : List Nat := unit.elim [] utf16CodeUnitToWtf8

def mkstrUtf16Range (text : List Nat) (kept start stop : Nat) : List Nat :=
  let range := utf16RangeToByteRange text kept start stop
  half range.prefixSurrogate ++ (text.drop range.byteStart).take (range.byteEnd - range.byteStart) ++ half range.suffixSurrogate

/-- A position from the start, or from the end when it is negative, kept inside the string. -/
def relative (length : Nat) (position : Int) : Nat :=
  if position < 0 then (position + length).toNat else min position.toNat length

/-- An argument that is no number counts as absent. -/
def builtinStringSlice (str : Str) (kept : Nat) (first last : Option Int) : Str :=
  let length := strUtf16Len str
  let start := first.elim 0 (relative length)
  let stop := last.elim length (relative length)
  .flat (mkstrUtf16Range (vstr str) kept (min start stop) stop)

def builtinStringSubstring (str : Str) (kept : Nat) (first last : Option Int) : Str :=
  let length := strUtf16Len str
  let start := first.elim 0 fun position => min position.toNat length
  let stop := last.elim length fun position => min position.toNat length
  .flat (mkstrUtf16Range (vstr str) kept (min start stop) (max start stop))

def builtinStringCharAt (str : Str) (kept : Nat) (index : Int) : Str :=
  if index < 0 then .flat [] else .flat (half (utf16CodeUnitAt (vstr str) kept index.toNat))

theorem ropeFlattenInto_append (str : Str) (behind : List Nat) : ropeFlattenInto str behind = vstr str ++ behind := by
  induction str generalizing behind with
  | flat text => simp [vstr,ropeFlattenInto]
  | rope left right depth ihLeft ihRight =>
    simp only [vstr,ropeFlattenInto]
    rw [ihRight,ihLeft,ihRight [],ihLeft (vstr right ++ [])]
    simp

@[simp] theorem vstr_flat {text : List Nat} : vstr (.flat text) = text := by simp [vstr,ropeFlattenInto]

@[simp] theorem vstr_rope (left right : Str) (depth : Nat) : vstr (.rope left right depth) = vstr left ++ vstr right := by
  rw [vstr,ropeFlattenInto,ropeFlattenInto_append,ropeFlattenInto_append,append_nil]

theorem strLenFast_vstr (str : Str) : strLenFast str = (vstr str).length := by
  induction str with
  | flat text => simp [strLenFast]
  | rope left right depth ihLeft ihRight => simp [strLenFast,ihLeft,ihRight]

theorem vstr_doStringPlus (left right : Str) : vstr (doStringPlus left right) = vstr left ++ vstr right := by
  unfold doStringPlus
  simp only [strLenFast_vstr]
  split
  · next empty => simp [eq_nil_of_length_eq_zero empty]
  · split
    · next empty => simp [eq_nil_of_length_eq_zero empty]
    · split <;> simp

theorem memcmp_eq_zero (first second : List Nat) (same : first.length = second.length) :
    memcmp first.length first second = 0 ↔ first = second := by
  induction first generalizing second with
  | nil => cases second with
    | nil => simp [memcmp]
    | cons b second => simp at same
  | cons a first ih => cases second with
    | nil => simp at same
    | cons b second =>
      have tails := ih second (by simpa using same)
      simp only [length_cons,memcmp]
      split
      · next less => simp; omega
      · split
        · next greater => simp; omega
        · next notLess notGreater =>
          rw [tails]
          have equal : a = b := by omega
          simp [equal]

theorem strictEqValues_iff (left right : Str) : strictEqValues left right = true ↔ vstr left = vstr right := by
  simp only [strictEqValues,Bool.and_eq_true,beq_iff_eq]
  constructor
  · rintro ⟨same,zero⟩
    exact (memcmp_eq_zero _ _ same).mp zero
  · intro equal
    have same := congrArg List.length equal
    exact ⟨same,(memcmp_eq_zero _ _ same).mpr equal⟩

theorem utf8Encode_point {point : Point} : utf8Encode point.val = encode point := by simp [utf8Encode]

theorem utf16CodeUnitToWtf8_point (point : Point) : utf16CodeUnitToWtf8 point.val = encode point := by
  unfold utf16CodeUnitToWtf8
  split
  · next surrogate =>
    rw [encode,if_neg (by omega),if_neg (by omega),if_pos (by omega)]
  · exact utf8Encode_point

/-- A half of a pair, if there is one, as the text that it is. -/
structure Halved (unit : Option Nat) (text : List Point) : Prop where
  stored : half unit = bytes text
  spelt : unit.toList = units text

theorem halved_none : Halved none [] := ⟨rfl,rfl⟩

theorem halved_high {pair : Point} (above : 0x10000 ≤ pair.val) : Halved (some (high pair)) [highPoint pair] := by
  constructor
  · rw [half,Option.elim_some,← highPoint_val above,utf16CodeUnitToWtf8_point,bytes_cons,bytes_nil,append_nil]
  · rw [units_cons,unitsOf_highPoint above]
    rfl

theorem halved_low (pair : Point) : Halved (some (low pair)) [lowPoint pair] := by
  constructor
  · rw [half,Option.elim_some,← lowPoint_val pair,utf16CodeUnitToWtf8_point,bytes_cons,bytes_nil,append_nil]
  · rw [units_cons,unitsOf_lowPoint]
    rfl

theorem isAscii_bytes {text : List Point} (ascii : isAscii (bytes text) = true) : ∀ point ∈ text, point.val < 0x80 := by
  intro point member
  by_contra above
  obtain ⟨byte,large,inside⟩ : ∃ byte, 0x80 ≤ byte ∧ byte ∈ encode point := by
    obtain ⟨upper,_⟩ | ⟨_,_,equal⟩ | ⟨_,_,equal⟩ | ⟨_,equal⟩ := encode_cases point
    · exact absurd upper above
    · exact ⟨0xC0 + point.val / 64,by omega,by simp [equal]⟩
    · exact ⟨0xE0 + point.val / 4096,by omega,by simp [equal]⟩
    · exact ⟨0xF0 + point.val / 262144,by omega,by simp [equal]⟩
  have small := all_eq_true.mp ascii byte (mem_flatMap.mpr ⟨point,member,inside⟩)
  simp at small
  omega

section Ascii
variable {text : List Point} (ascii : ∀ point ∈ text, point.val < 0x80)
include ascii

theorem bytes_ascii : bytes text = text.map Fin.val := by
  induction text with
  | nil => rfl
  | cons point rest ih =>
    simp only [mem_cons,forall_eq_or_imp] at ascii
    rw [bytes_cons,ih ascii.2,encode,if_pos ascii.1]
    rfl

theorem units_ascii : units text = text.map Fin.val := by
  induction text with
  | nil => rfl
  | cons point rest ih =>
    simp only [mem_cons,forall_eq_or_imp] at ascii
    rw [units_cons,ih ascii.2,unitsOf_basic (by omega)]
    rfl

theorem takeUnits_ascii (count : Nat) : takeUnits count text = text.take count := by
  induction text generalizing count with
  | nil => simp
  | cons point rest ih =>
    simp only [mem_cons,forall_eq_or_imp] at ascii
    cases count with
    | zero => simp [takeUnits]
    | succ count => rw [takeUnits_basic count rest (by omega),ih ascii.2,take_succ_cons]

theorem dropUnits_ascii (count : Nat) : dropUnits count text = text.drop count := by
  induction text generalizing count with
  | nil => simp
  | cons point rest ih =>
    simp only [mem_cons,forall_eq_or_imp] at ascii
    cases count with
    | zero => simp [dropUnits]
    | succ count => rw [dropUnits_basic count rest (by omega),ih ascii.2,drop_succ_cons]

end Ascii

theorem flatUtf16Len_bytes {text : List Point} : flatUtf16Len (bytes text) = (units text).length := by
  unfold flatUtf16Len
  split
  · next ascii =>
    have small := isAscii_bytes ascii
    rw [bytes_ascii small,units_ascii small]
  · exact utf16Strlen_bytes

theorem rest_of_range (done rest : List Point) (stop fuel : Nat) (enough : rest.length ≤ fuel) (reached : (units done).length ≤ stop) :
    let last := scan (bytes (done ++ rest)) stop cutEnd fuel (cursorAfter done)
    ∃ middle back, Halved last.2 back ∧ middle ++ back = takeUnits (stop - (units done).length) rest ∧
      ((bytes (done ++ rest)).drop (cursorAfter done).byte).take (last.1.byte - (cursorAfter done).byte) = bytes middle := by
  intro last
  obtain ⟨passed,left,rfl,outcome⟩ := scan_spec stop cutEnd done rest fuel enough reached
  have middle : ((bytes (done ++ (passed ++ left))).drop (cursorAfter done).byte).take
      ((cursorAfter (done ++ passed)).byte - (cursorAfter done).byte) = bytes passed := by
    simp [cursorAfter]
  rw [units_append,length_append] at outcome
  obtain ⟨result,within,finish⟩ | ⟨pair,others,rfl,above,cut,scanned,rfl,result⟩ := outcome
  · rw [show last = _ from result]
    refine ⟨passed,[],halved_none,?_,middle⟩
    obtain ⟨more,equal⟩ : ∃ more, stop - (units done).length = (units passed).length + more :=
      ⟨stop - (units done).length - (units passed).length,by omega⟩
    rw [equal,(splitUnits_append _ _ _).1]
    cases finish with
    | inl ended => rw [ended,takeUnits_nil]
    | inr there => rw [show more = 0 by omega,takeUnits]
  · rw [show last = _ from result,utf16ScanDecode_encode]
    refine ⟨passed,[highPoint pair],halved_high above,?_,middle⟩
    rw [show stop - (units done).length = (units passed).length + 1 by omega,(splitUnits_append _ _ _).1,takeUnits_cut others above]

/-- What a range is made of: perhaps half a pair, then whole characters, then perhaps half a pair. -/
theorem range_pieces (text : List Point) (kept start stop : Nat) :
    let range := utf16RangeToByteRange (bytes text) kept start stop
    ∃ front middle back, Halved range.prefixSurrogate front ∧ Halved range.suffixSurrogate back ∧
      front ++ (middle ++ back) = takeUnits (stop - start) (dropUnits start text) ∧
      ((bytes text).drop range.byteStart).take (range.byteEnd - range.byteStart) = bytes middle := by
  unfold utf16RangeToByteRange
  split
  · next empty => exact ⟨[],[],[],halved_none,halved_none,by simp [show stop - start = 0 by omega,takeUnits],by simp⟩
  · next nonempty =>
    split
    · next ascii =>
      have small := isAscii_bytes ascii
      have smallRest : ∀ point ∈ text.drop start, point.val < 0x80 := fun point member => small point (mem_of_mem_drop member)
      have smallRange : ∀ point ∈ (text.drop start).take (stop - start), point.val < 0x80 :=
        fun point member => smallRest point (mem_of_mem_take member)
      refine ⟨[],(text.drop start).take (stop - start),[],halved_none,halved_none,?_,?_⟩
      · rw [dropUnits_ascii small,takeUnits_ascii smallRest,nil_append,append_nil]
      rw [bytes_ascii smallRange,bytes_ascii small]
      simp only [length_map,map_take,map_drop]
      by_cases inside : start ≤ text.length
      · rw [Nat.min_eq_left inside]
        by_cases short : stop ≤ text.length
        · rw [Nat.min_eq_left short]
        · rw [Nat.min_eq_right (by omega),take_of_length_le (by simp),take_of_length_le (by simp; omega)]
      · have nothing : (text.map Fin.val).drop start = [] := drop_of_length_le (by simp; omega)
        have atEnd : (text.map Fin.val).drop text.length = [] := drop_of_length_le (by simp)
        rw [show min start text.length = text.length by omega,nothing,atEnd,take_nil,take_nil]
    · obtain ⟨before,after,rfl,from_,reached⟩ := resume_between text kept start
      simp only [from_]
      have enough : after.length ≤ (bytes (before ++ after)).length := by
        have all := length_le_bytes (before ++ after)
        simp only [length_append] at all ⊢
        omega
      obtain ⟨passed,rest,rfl,outcome⟩ := scan_spec start cutStart before after _ enough reached
      rw [← append_assoc] at outcome enough ⊢
      have more : rest.length ≤ (bytes (before ++ passed ++ rest)).length := by
        simp only [length_append] at enough
        omega
      obtain ⟨result,within,finish⟩ | ⟨pair,others,rfl,above,cut,scanned,rfl,result⟩ := outcome
      · obtain ⟨middle,back,behind,whole,slice⟩ := rest_of_range (before ++ passed) rest stop _ more (by omega)
        simp only [result]
        refine ⟨[],middle,back,halved_none,behind,?_,slice⟩
        rw [nil_append,whole]
        obtain ⟨extra,equal⟩ : ∃ extra, start = (units (before ++ passed)).length + extra :=
          ⟨start - (units (before ++ passed)).length,by omega⟩
        rw [equal,(splitUnits_append _ _ _).2]
        cases finish with
        | inl ended => rw [ended,dropUnits_nil,takeUnits_nil,takeUnits_nil]
        | inr there => rw [show extra = 0 by omega,dropUnits,Nat.add_zero]
      · have joined : before ++ passed ++ pair :: others = before ++ passed ++ [pair] ++ others := by simp
        have size : (units (before ++ passed ++ [pair])).length = start + 1 := by
          simp [unitsOf_pair above]
          simp at cut
          omega
        obtain ⟨middle,back,behind,whole,slice⟩ := rest_of_range (before ++ passed ++ [pair]) others stop
          (bytes (before ++ passed ++ pair :: others)).length (by simp only [length_cons] at more; omega) (by omega)
        rw [← joined] at behind slice
        simp only [result,cutStart,cursorAfter_past]
        rw [utf16ScanDecode_encode]
        refine ⟨[lowPoint pair],middle,back,halved_low pair,behind,?_,slice⟩
        rw [whole,← cut,(splitUnits_append _ _ _).2,dropUnits_cut others above]
        obtain ⟨count,equal⟩ : ∃ count, stop - ((units (before ++ passed)).length + 1) = count + 1 :=
          ⟨stop - ((units (before ++ passed)).length + 1) - 1,by omega⟩
        rw [equal,takeUnits_basic,singleton_append]
        · congr 2
          omega
        · rw [lowPoint_val]
          have range := low_range pair
          omega

theorem mkstrUtf16Range_bytes (text : List Point) (kept start stop : Nat) :
    mkstrUtf16Range (bytes text) kept start stop = bytes (takeUnits (stop - start) (dropUnits start text)) := by
  obtain ⟨front,middle,back,first,last,whole,slice⟩ := range_pieces text kept start stop
  rw [mkstrUtf16Range,first.stored,last.stored,slice,← whole,bytes_append,bytes_append,append_assoc]

/-- The scan may start at any kept place, as it does where a checkpoint of the index is used. -/
theorem range_decodes (text : List Point) (kept start stop : Nat) :
    let range := utf16RangeToByteRange (bytes text) kept start stop
    ∃ middle, ((bytes text).drop range.byteStart).take (range.byteEnd - range.byteStart) = bytes middle ∧
      range.prefixSurrogate.toList ++ units middle ++ range.suffixSurrogate.toList = ((units text).take stop).drop start := by
  obtain ⟨front,middle,back,first,last,whole,slice⟩ := range_pieces text kept start stop
  refine ⟨middle,slice,?_⟩
  rw [first.spelt,last.spelt,append_assoc,← units_append,← units_append,whole,units_takeUnits,units_dropUnits,drop_take]

theorem codeUnitAt_go (before after : List Point) (index fuel : Nat) (enough : after.length ≤ fuel)
    (reached : (units before).length ≤ index) :
    utf16CodeUnitAt.go (bytes (before ++ after)) index fuel (cursorAfter before) = (units after)[index - (units before).length]? := by
  induction after generalizing before fuel with
  | nil => cases fuel <;> simp [utf16CodeUnitAt.go,cursorAfter]
  | cons point rest ih =>
    obtain ⟨fuel,rfl⟩ : ∃ less, fuel = less + 1 := ⟨fuel - 1,by simp at enough; omega⟩
    rw [utf16CodeUnitAt.go,if_pos cursorAfter_inside,drop_cursorAfter,bytes_cons,units_cons]
    simp only [cursorAfter_past]
    rw [utf16ScanDecode_encode,show (cursorAfter before).unit = (units before).length from rfl]
    have further (more : (units (before ++ [point])).length ≤ index) :
        utf16CodeUnitAt.go (bytes (before ++ point :: rest)) index fuel (cursorAfter (before ++ [point])) =
          (units rest)[index - (units (before ++ [point])).length]? := by
      have next := ih (before ++ [point]) fuel (by simpa using enough) more
      rwa [append_assoc,singleton_append] at next
    obtain ⟨basic,single⟩ | ⟨above,double⟩ := unitsOf_cases point
    · rw [single]
      split
      · next there => simp [there]
      · next notThere =>
        rw [if_neg (by simp),further (by simp [single]; omega)]
        obtain ⟨count,equal⟩ : ∃ count, index - (units before).length = count + 1 := ⟨index - (units before).length - 1,by omega⟩
        rw [equal,singleton_append,getElem?_cons_succ]
        congr 1
        simp [single]
        omega
    · rw [double]
      split
      · next there => simp [there,high]
      · next notThere =>
        split
        · next second =>
          rw [show index - (units before).length = 1 by omega]
          simp [low]
        · next beyond =>
          simp at beyond
          rw [further (by simp [double]; omega)]
          obtain ⟨count,equal⟩ : ∃ count, index - (units before).length = count + 2 := ⟨index - (units before).length - 2,by omega⟩
          rw [equal]
          simp only [cons_append,getElem?_cons_succ]
          congr 1
          simp [double]
          omega

theorem utf16CodeUnitAt_bytes (text : List Point) (kept index : Nat) : utf16CodeUnitAt (bytes text) kept index = (units text)[index]? := by
  unfold utf16CodeUnitAt
  split
  · next ascii =>
    have small := isAscii_bytes ascii
    rw [bytes_ascii small,units_ascii small]
  · obtain ⟨before,after,rfl,start,reached⟩ := resume_between text kept index
    have enough : after.length ≤ (bytes (before ++ after)).length := by
      have all := length_le_bytes (before ++ after)
      rw [length_append] at all
      omega
    rw [start,codeUnitAt_go before after index _ enough reached,units_append,getElem?_append_right reached]

theorem takeUnits_one (text : List Point) (index : Nat) :
    half (units text)[index]? = bytes (takeUnits 1 (dropUnits index text)) := by
  have unit : (units text)[index]? = (units (takeUnits 1 (dropUnits index text))).head? := by
    rw [units_takeUnits,units_dropUnits,head?_take]
    simp
  rw [unit]
  cases dropUnits index text with
  | nil => simp [half]
  | cons point rest =>
    obtain ⟨basic,single⟩ | ⟨above,double⟩ := unitsOf_cases point
    · rw [takeUnits_basic 0 rest basic]
      simp [takeUnits,single,half,utf16CodeUnitToWtf8_point]
    · rw [takeUnits_cut rest above]
      simp [unitsOf_highPoint above,(halved_high above).stored]

end Ant.Text.Strings
