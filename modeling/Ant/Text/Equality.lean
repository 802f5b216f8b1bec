import Ant.Text.Strings

/-! Strict equality of the strings that literals, concatenations and slices build, against the code
units they are made of. -/
namespace Ant.Text.Equality
open Library.Wtf8 Scan Strings

/-- How a string is built. A range also says which place of its string an earlier scan has kept. -/
inductive Built where
  | literal (text : List Point)
  | concat (left right : Built)
  | slice (source : Built) (kept : Nat) (first last : Option Int)
  | substring (source : Built) (kept : Nat) (first last : Option Int)
  | charAt (source : Built) (kept : Nat) (index : Int)
  deriving Repr

def Built.value : Built → Str
  | .literal text => .flat (bytes text)
  | .concat left right => doStringPlus left.value right.value
  | .slice source kept first last => builtinStringSlice source.value kept first last
  | .substring source kept first last => builtinStringSubstring source.value kept first last
  | .charAt source kept index => builtinStringCharAt source.value kept index

def sliceBounds (length : Nat) (first last : Option Int) : Nat × Nat :=
  let stop := last.elim length (relative length)
  (min (first.elim 0 (relative length)) stop,stop)

def substringBounds (length : Nat) (first last : Option Int) : Nat × Nat :=
  let start := first.elim 0 fun position => min position.toNat length
  let stop := last.elim length fun position => min position.toNat length
  (min start stop,max start stop)

def charBounds (index : Int) : Nat × Nat := if index < 0 then (0,0) else (index.toNat,index.toNat + 1)

def Built.units : Built → List Nat
  | .literal text => Library.Wtf8.units text
  | .concat left right => left.units ++ right.units
  | .slice source _ first last =>
    let bounds := sliceBounds source.units.length first last
    (source.units.drop bounds.1).take (bounds.2 - bounds.1)
  | .substring source _ first last =>
    let bounds := substringBounds source.units.length first last
    (source.units.drop bounds.1).take (bounds.2 - bounds.1)
  | .charAt source _ index => (source.units.drop (charBounds index).1).take ((charBounds index).2 - (charBounds index).1)

def Built.stored : Built → List Point
  | .literal text => text
  | .concat left right => left.stored ++ right.stored
  | .slice source _ first last =>
    let bounds := sliceBounds source.units.length first last
    takeUnits (bounds.2 - bounds.1) (dropUnits bounds.1 source.stored)
  | .substring source _ first last =>
    let bounds := substringBounds source.units.length first last
    takeUnits (bounds.2 - bounds.1) (dropUnits bounds.1 source.stored)
  | .charAt source _ index => takeUnits ((charBounds index).2 - (charBounds index).1) (dropUnits (charBounds index).1 source.stored)

theorem units_stored (built : Built) : Library.Wtf8.units built.stored = built.units := by
  induction built with
  | literal text => rfl
  | concat left right ihLeft ihRight => simp [Built.stored,Built.units,ihLeft,ihRight]
  | slice source kept first last ih => simp [Built.stored,Built.units,units_takeUnits,units_dropUnits,ih]
  | substring source kept first last ih => simp [Built.stored,Built.units,units_takeUnits,units_dropUnits,ih]
  | charAt source kept index ih => simp [Built.stored,Built.units,units_takeUnits,units_dropUnits,ih]

structure Spells (str : Str) (text : List Point) : Prop where
  bytes : vstr str = bytes text
  length : strUtf16Len str = (Library.Wtf8.units text).length

theorem Spells.flat (text : List Point) : Spells (.flat (Library.Wtf8.bytes text)) text :=
  ⟨vstr_flat,flatUtf16Len_bytes⟩

theorem Spells.plus {left right : Str} {first second : List Point} (one : Spells left first) (two : Spells right second) :
    Spells (doStringPlus left right) (first ++ second) := by
  have joined : vstr (doStringPlus left right) = Library.Wtf8.bytes (first ++ second) := by
    rw [vstr_doStringPlus,one.bytes,two.bytes,bytes_append]
  refine ⟨joined,?_⟩
  have text : vstr left ++ vstr right = Library.Wtf8.bytes (first ++ second) := by rw [one.bytes,two.bytes,bytes_append]
  have nothing (more : List Point) (empty : Library.Wtf8.bytes more = []) : more = [] := bytes_injective (empty.trans bytes_nil.symm)
  unfold doStringPlus
  simp only [strLenFast_vstr]
  split
  · next empty =>
    rw [nothing second (two.bytes.symm.trans (List.eq_nil_of_length_eq_zero empty)),List.append_nil,one.length]
  · split
    · next empty =>
      rw [nothing first (one.bytes.symm.trans (List.eq_nil_of_length_eq_zero empty)),List.nil_append,two.length]
    · split
      · rw [strUtf16Len,text,flatUtf16Len_bytes]
      · rw [strUtf16Len]
        split
        · rw [vstr_rope,text,flatUtf16Len_bytes]
        · rw [one.length,two.length,units_append,List.length_append]

theorem Spells.range {str : Str} {text : List Point} (spells : Spells str text) (kept start stop : Nat) :
    Spells (.flat (mkstrUtf16Range (vstr str) kept start stop)) (takeUnits (stop - start) (dropUnits start text)) := by
  rw [spells.bytes,mkstrUtf16Range_bytes]
  exact Spells.flat _

theorem value_spells (built : Built) : Spells built.value built.stored := by
  induction built with
  | literal text => exact Spells.flat text
  | concat left right ihLeft ihRight => exact ihLeft.plus ihRight
  | slice source kept first last ih =>
    have range := ih.range kept (sliceBounds source.units.length first last).1 (sliceBounds source.units.length first last).2
    simp only [Built.value,builtinStringSlice,ih.length,units_stored]
    exact range
  | substring source kept first last ih =>
    have range := ih.range kept (substringBounds source.units.length first last).1 (substringBounds source.units.length first last).2
    simp only [Built.value,builtinStringSubstring,ih.length,units_stored]
    exact range
  | charAt source kept index ih =>
    simp only [Built.value,Built.stored,builtinStringCharAt,charBounds]
    split
    · exact Spells.flat []
    · rw [ih.bytes,utf16CodeUnitAt_bytes,takeUnits_one,Nat.add_sub_cancel_left]
      exact Spells.flat _

/-- Two strings are the same to the runtime when they have the same units and their halves of pairs
were put side by side at the same places. -/
theorem strictEqValues_built (left right : Built) :
    strictEqValues left.value right.value = true ↔ left.units = right.units ∧ seams 0 left.stored = seams 0 right.stored := by
  rw [strictEqValues_iff,(value_spells left).bytes,(value_spells right).bytes,bytes_injective.eq_iff,← units_stored,← units_stored]
  constructor
  · intro equal
    rw [equal]
    exact ⟨rfl,rfl⟩
  · intro same
    exact text_ext _ _ 0 same.1 same.2

theorem strict_equality_is_of_units (left right : Built) :
    (strictEqValues left.value right.value = true ↔ left.units = right.units) ↔
      (left.units = right.units → seams 0 left.stored = seams 0 right.stored) := by
  rw [strictEqValues_built]
  constructor
  · intro agree same
    exact (agree.mpr same).2
  · intro joined
    exact ⟨fun both => both.1,fun same => ⟨same,joined same⟩⟩

def cutAndJoined (text : Built) : Built := .concat (.slice text 0 none (some 1)) (.slice text 0 (some 1) none)

theorem joined_halves_are_not_the_pair :
    let pair := Built.literal [0x1F600]
    (cutAndJoined pair).units = pair.units ∧ strictEqValues (cutAndJoined pair).value pair.value = false := by
  decide

end Ant.Text.Equality
