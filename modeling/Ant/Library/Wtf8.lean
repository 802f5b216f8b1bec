import Mathlib.Data.List.Basic
import Mathlib.Order.Fin.Basic
import Mathlib.Data.List.Lex

/-! Texts in generalized UTF-8 and in UTF-16. A text is a list of code points, surrogates included.
Its bytes spell every code point for itself; its code units spell one above the basic plane as two
halves. Two halves that stand side by side as code points of their own have the same units as the
one code point they make, but other bytes. -/
namespace Ant.Library.Wtf8
open List

abbrev Point := Fin 0x110000

instance (priority := 2000) points_exist : @NeZero Nat Zero.ofOfNat0 0x110000 := ⟨by decide⟩

def encode (point : Point) : List Nat :=
  if point.val < 0x80 then [point.val]
  else if point.val < 0x800 then [0xC0 + point.val / 64,0x80 + point.val % 64]
  else if point.val < 0x10000 then [0xE0 + point.val / 4096,0x80 + point.val / 64 % 64,0x80 + point.val % 64]
  else [0xF0 + point.val / 262144,0x80 + point.val / 4096 % 64,0x80 + point.val / 64 % 64,0x80 + point.val % 64]

def bytes (text : List Point) : List Nat := text.flatMap encode

def high (point : Point) : Nat := 0xD800 + (point.val - 0x10000) / 1024

def low (point : Point) : Nat := 0xDC00 + (point.val - 0x10000) % 1024

def unitsOf (point : Point) : List Nat := if point.val < 0x10000 then [point.val] else [high point,low point]

def units (text : List Point) : List Nat := text.flatMap unitsOf

@[simp] theorem bytes_nil : bytes [] = [] := rfl

@[simp] theorem bytes_cons (point : Point) (text : List Point) : bytes (point :: text) = encode point ++ bytes text := rfl

variable (first second : List Point)

@[simp] theorem bytes_append : bytes (first ++ second) = bytes first ++ bytes second := by
  simp [bytes]

@[simp] theorem units_nil : units [] = [] := rfl

@[simp] theorem units_cons (point : Point) (text : List Point) : units (point :: text) = unitsOf point ++ units text := rfl

@[simp] theorem units_append : units (first ++ second) = units first ++ units second := by
  simp [units]

theorem encode_cases (point : Point) : (point.val < 0x80 ∧ encode point = [point.val]) ∨
    (0x80 ≤ point.val ∧ point.val < 0x800 ∧ encode point = [0xC0 + point.val / 64,0x80 + point.val % 64]) ∨
    (0x800 ≤ point.val ∧ point.val < 0x10000 ∧
      encode point = [0xE0 + point.val / 4096,0x80 + point.val / 64 % 64,0x80 + point.val % 64]) ∨
    (0x10000 ≤ point.val ∧ encode point =
      [0xF0 + point.val / 262144,0x80 + point.val / 4096 % 64,0x80 + point.val / 64 % 64,0x80 + point.val % 64]) := by
  unfold encode
  split
  · next one => exact Or.inl ⟨one,rfl⟩
  · next notOne =>
    split
    · next two => exact Or.inr (Or.inl ⟨by omega,two,rfl⟩)
    · next notTwo =>
      split
      · next three => exact Or.inr (Or.inr (Or.inl ⟨by omega,three,rfl⟩))
      · next notThree => exact Or.inr (Or.inr (Or.inr ⟨by omega,rfl⟩))

theorem unitsOf_cases (point : Point) :
    (point.val < 0x10000 ∧ unitsOf point = [point.val]) ∨ (0x10000 ≤ point.val ∧ unitsOf point = [high point,low point]) := by
  unfold unitsOf
  split
  · next basic => exact Or.inl ⟨basic,rfl⟩
  · next above => exact Or.inr ⟨by omega,rfl⟩

def decodeFirst : List Nat → Option (Point × List Nat)
  | [] => none
  | a :: rest =>
    if a < 0x80 then some (Fin.ofNat _ a,rest)
    else match rest with
    | [] => none
    | b :: rest =>
      if a < 0xE0 then some (Fin.ofNat _ (a % 32 * 64 + b % 64),rest)
      else match rest with
      | [] => none
      | c :: rest =>
        if a < 0xF0 then some (Fin.ofNat _ (a % 16 * 4096 + b % 64 * 64 + c % 64),rest)
        else match rest with
        | [] => none
        | d :: rest => some (Fin.ofNat _ (a % 8 * 262144 + b % 64 * 4096 + c % 64 * 64 + d % 64),rest)

theorem decodeFirst_encode (point : Point) (rest : List Nat) : decodeFirst (encode point ++ rest) = some (point,rest) := by
  obtain ⟨bound,equal⟩ | ⟨lower,bound,equal⟩ | ⟨lower,bound,equal⟩ | ⟨lower,equal⟩ := encode_cases point
  all_goals
    rw [equal]
    simp only [cons_append,decodeFirst]
  · rw [if_pos bound]
    simp
  · rw [if_neg (by omega),if_pos (by omega)]
    have value : (0xC0 + point.val / 64) % 32 * 64 + (0x80 + point.val % 64) % 64 = point.val := by omega
    rw [value]
    simp
  · rw [if_neg (by omega),if_neg (by omega),if_pos (by omega)]
    have value : (0xE0 + point.val / 4096) % 16 * 4096 + (0x80 + point.val / 64 % 64) % 64 * 64 + (0x80 + point.val % 64) % 64 =
        point.val := by omega
    rw [value]
    simp
  · rw [if_neg (by omega),if_neg (by omega)]
    have value : (0xF0 + point.val / 262144) % 8 * 262144 + (0x80 + point.val / 4096 % 64) % 64 * 4096 +
        (0x80 + point.val / 64 % 64) % 64 * 64 + (0x80 + point.val % 64) % 64 = point.val := by omega
    rw [value]
    simp

def decodeFuel : Nat → List Nat → List Point
  | 0,_ => []
  | fuel+1,text => match decodeFirst text with
    | none => []
    | some (point,rest) => point :: decodeFuel fuel rest

def decode (text : List Nat) : List Point := decodeFuel text.length text

theorem encode_length_pos (point : Point) : 0 < (encode point).length := by
  obtain ⟨_,equal⟩ | ⟨_,_,equal⟩ | ⟨_,_,equal⟩ | ⟨_,equal⟩ := encode_cases point <;> simp [equal]

variable {text others pattern : List Point} {point pair : Point}

theorem decodeFuel_bytes (fuel : Nat) (enough : (bytes text).length ≤ fuel) : decodeFuel fuel (bytes text) = text := by
  induction text generalizing fuel with
  | nil => cases fuel <;> simp [decodeFuel,decodeFirst]
  | cons point text ih =>
    have positive := encode_length_pos point
    simp only [bytes_cons,length_append] at enough
    obtain ⟨fuel,rfl⟩ : ∃ less, fuel = less + 1 := ⟨fuel - 1,by omega⟩
    simp only [decodeFuel,bytes_cons,decodeFirst_encode]
    rw [ih fuel (by omega)]

@[simp] theorem decode_bytes (text : List Point) : decode (bytes text) = text := decodeFuel_bytes _ le_rfl

theorem bytes_injective : Function.Injective bytes := by
  intro first second equal
  rw [← decode_bytes first,equal,decode_bytes]

theorem encode_lt {first second : Point} (less : first < second) (one two : List Nat) :
    encode first ++ one < encode second ++ two := by
  have less : first.val < second.val := less
  obtain ⟨boundF,equalF⟩ | ⟨lowerF,boundF,equalF⟩ | ⟨lowerF,boundF,equalF⟩ | ⟨lowerF,equalF⟩ := encode_cases first <;>
  obtain ⟨boundS,equalS⟩ | ⟨lowerS,boundS,equalS⟩ | ⟨lowerS,boundS,equalS⟩ | ⟨lowerS,equalS⟩ := encode_cases second
  all_goals
    rw [equalF,equalS]
    simp only [cons_append,cons_lt_cons_iff]
    omega

theorem append_lt_append (common one two : List Nat) : common ++ one < common ++ two ↔ one < two := by
  induction common with
  | nil => rfl
  | cons byte common ih => simp [ih]

theorem bytes_lt : bytes first < bytes second ↔ first < second := by
  induction first generalizing second with
  | nil =>
    cases second with
    | nil => simp
    | cons point rest =>
      obtain ⟨byte,more,equal⟩ := exists_cons_of_length_pos (encode_length_pos point)
      simp [equal]
  | cons one rest ih =>
    cases second with
    | nil => simp
    | cons two others =>
      simp only [bytes_cons,cons_lt_cons_iff]
      obtain less | equal | greater := lt_trichotomy one two
      · simp only [encode_lt less,true_iff]
        exact Or.inl less
      · subst equal
        simp [append_lt_append,ih]
      · have after := encode_lt greater (bytes others) (bytes rest)
        have notBefore : ¬ one < two := not_lt.mpr greater.le
        simp only [notBefore,greater.ne',false_and,or_false,iff_false]
        exact not_lt.mpr after.le

def isHigh (point : Point) : Bool := 0xD800 ≤ point.val && point.val < 0xDC00

def isLow (point : Point) : Bool := 0xDC00 ≤ point.val && point.val < 0xE000

def startsLow (text : List Point) : Bool := text.head?.any isLow

/-- Where, counted in units, a low half stands by itself behind a high half by itself. -/
def seams (offset : Nat) : List Point → List Nat
  | [] => []
  | point :: rest => (if isHigh point && startsLow rest then [offset + 1] else []) ++ seams (offset + (unitsOf point).length) rest

theorem unitsOf_length_pos (point : Point) : 0 < (unitsOf point).length := by
  obtain ⟨_,equal⟩ | ⟨_,equal⟩ := unitsOf_cases point <;> simp [equal]

theorem units_ne_nil {rest : List Point} : units (point :: rest) ≠ [] := by
  obtain ⟨_,equal⟩ | ⟨_,equal⟩ := unitsOf_cases point <;> simp [equal]

theorem seams_gt (offset : Nat) : ∀ seam ∈ seams offset text, offset < seam := by
  induction text generalizing offset with
  | nil => simp [seams]
  | cons point rest ih =>
    intro seam member
    rw [seams,mem_append] at member
    cases member with
    | inl here =>
      split at here
      · simp only [mem_singleton] at here
        omega
      · simp at here
    | inr later => exact Nat.lt_of_le_of_lt (Nat.le_add_right _ _) (ih _ seam later)

theorem high_range (point : Point) (above : 0x10000 ≤ point.val) : 0xD800 ≤ high point ∧ high point < 0xDC00 := by
  unfold high
  omega

theorem low_range (point : Point) : 0xDC00 ≤ low point ∧ low point < 0xE000 := by
  unfold low
  omega

theorem seam_of_pair {rest : List Point} (basic : point.val < 0x10000) (above : 0x10000 ≤ pair.val)
    (same : units (point :: rest) = units (pair :: others)) : isHigh point && startsLow rest := by
  have single : unitsOf point = [point.val] := if_pos basic
  have double : unitsOf pair = [high pair,low pair] := if_neg (by omega)
  simp only [units_cons,single,double,cons_append,List.cons.injEq] at same
  obtain ⟨head,tail⟩ := same
  have range := high_range pair above
  have lowRange := low_range pair
  cases rest with
  | nil => simp at tail
  | cons next more =>
    obtain ⟨nextBasic,equal⟩ | ⟨nextAbove,equal⟩ := unitsOf_cases next
    · simp only [units_cons,equal,cons_append,nil_append,List.cons.injEq] at tail
      simp [isHigh,startsLow,isLow]
      omega
    · have nextRange := high_range next nextAbove
      simp only [units_cons,equal,cons_append,nil_append,List.cons.injEq] at tail
      omega

theorem seams_of_pair {offset : Nat} (above : 0x10000 ≤ pair.val) : offset + 1 ∉ seams offset (pair :: others) := by
  intro member
  have notHigh : isHigh pair = false := by simp [isHigh]; omega
  have double : unitsOf pair = [high pair,low pair] := if_neg (by omega)
  simp only [seams,notHigh,double] at member
  have later := seams_gt _ _ member
  simp at later

theorem text_ext (offset : Nat) (same : units first = units second) (joined : seams offset first = seams offset second) :
    first = second := by
  induction first generalizing second offset with
  | nil =>
    cases second with
    | nil => rfl
    | cons point rest => exact absurd same.symm units_ne_nil
  | cons point rest ih =>
    cases second with
    | nil => exact absurd same units_ne_nil
    | cons other others =>
      obtain ⟨basic,single⟩ | ⟨above,double⟩ := unitsOf_cases point <;>
      obtain ⟨otherBasic,otherSingle⟩ | ⟨otherAbove,otherDouble⟩ := unitsOf_cases other
      · simp only [units_cons,single,otherSingle,cons_append,List.cons.injEq] at same
        have equal : point = other := Fin.ext same.1
        subst equal
        have tails : seams (offset + (unitsOf point).length) rest = seams (offset + (unitsOf point).length) others := by
          have beyond (text : List Point) : offset + 1 ∉ seams (offset + (unitsOf point).length) text := by
            intro member
            have later := seams_gt _ _ member
            simp [single] at later
          simp only [seams] at joined
          split at joined <;> split at joined
          · simpa using joined
          · have member : offset + 1 ∈ seams (offset + (unitsOf point).length) others := by
              rw [← nil_append (seams _ others),← joined]
              simp
            exact absurd member (beyond others)
          · have member : offset + 1 ∈ seams (offset + (unitsOf point).length) rest := by
              rw [← nil_append (seams _ rest),joined]
              simp
            exact absurd member (beyond rest)
          · simpa using joined
        rw [ih others _ same.2 tails]
      · have member : offset + 1 ∈ seams offset (point :: rest) := by
          simp [seams,seam_of_pair basic otherAbove same]
        rw [joined] at member
        exact absurd member (seams_of_pair otherAbove)
      · have member : offset + 1 ∈ seams offset (other :: others) := by
          simp [seams,seam_of_pair otherBasic above same.symm]
        rw [← joined] at member
        exact absurd member (seams_of_pair above)
      · simp only [units_cons,double,otherDouble,cons_append,List.cons.injEq] at same
        have equal : point = other := by
          apply Fin.ext
          have halves := And.intro same.1 same.2.1
          unfold high low at halves
          omega
        subst equal
        have notHigh : isHigh point = false := by simp [isHigh]; omega
        simp only [seams,notHigh] at joined
        rw [ih others _ same.2.2 joined]

def highPoint (point : Point) : Point := Fin.ofNat _ (high point)

def lowPoint (point : Point) : Point := Fin.ofNat _ (low point)

/-- A text without its first units; a pair that is cut leaves its low half. -/
def dropUnits : Nat → List Point → List Point
  | 0,text => text
  | _+1,[] => []
  | count+1,point :: rest =>
    if point.val < 0x10000 then dropUnits count rest
    else match count with
      | 0 => lowPoint point :: rest
      | count+1 => dropUnits count rest

/-- The first units of a text; a pair that is cut leaves its high half. -/
def takeUnits : Nat → List Point → List Point
  | 0,_ => []
  | _+1,[] => []
  | count+1,point :: rest =>
    if point.val < 0x10000 then point :: takeUnits count rest
    else match count with
      | 0 => [highPoint point]
      | count+1 => point :: takeUnits count rest

@[simp] theorem takeUnits_nil (count : Nat) : takeUnits count [] = [] := by cases count <;> rfl

@[simp] theorem dropUnits_nil (count : Nat) : dropUnits count [] = [] := by cases count <;> rfl

section
variable {point : Point} (count : Nat) (rest : List Point)
include count rest

theorem takeUnits_basic (basic : point.val < 0x10000) :
    takeUnits (count + 1) (point :: rest) = point :: takeUnits count rest := by
  cases count <;> simp only [takeUnits,if_pos basic]

theorem dropUnits_basic (basic : point.val < 0x10000) : dropUnits (count + 1) (point :: rest) = dropUnits count rest := by
  cases count <;> simp only [dropUnits,if_pos basic]

theorem takeUnits_pair (above : 0x10000 ≤ point.val) :
    takeUnits (count + 2) (point :: rest) = point :: takeUnits count rest := by
  simp only [takeUnits,if_neg (show ¬ point.val < 0x10000 by omega)]

theorem dropUnits_pair (above : 0x10000 ≤ point.val) : dropUnits (count + 2) (point :: rest) = dropUnits count rest := by
  simp only [dropUnits,if_neg (show ¬ point.val < 0x10000 by omega)]

end

section
variable {point : Point}

theorem takeUnits_cut (rest : List Point) (above : 0x10000 ≤ point.val) :
    takeUnits 1 (point :: rest) = [highPoint point] := by
  rw [takeUnits,if_neg (by omega)]

theorem dropUnits_cut (rest : List Point) (above : 0x10000 ≤ point.val) :
    dropUnits 1 (point :: rest) = lowPoint point :: rest := by
  rw [dropUnits,if_neg (by omega)]

theorem highPoint_val (above : 0x10000 ≤ point.val) : (highPoint point).val = high point := by
  have range := high_range point above
  simp only [highPoint,Fin.ofNat]
  omega

theorem lowPoint_val (point : Point) : (lowPoint point).val = low point := by
  have range := low_range point
  simp only [lowPoint,Fin.ofNat]
  omega

theorem unitsOf_basic (basic : point.val < 0x10000) : unitsOf point = [point.val] := if_pos basic

theorem unitsOf_pair (above : 0x10000 ≤ point.val) : unitsOf point = [high point,low point] := if_neg (by omega)

theorem unitsOf_highPoint (above : 0x10000 ≤ point.val) : unitsOf (highPoint point) = [high point] := by
  have range := high_range point above
  rw [unitsOf_basic,highPoint_val above]
  rw [highPoint_val above]
  omega

end

theorem unitsOf_lowPoint (point : Point) : unitsOf (lowPoint point) = [low point] := by
  have range := low_range point
  rw [unitsOf_basic,lowPoint_val]
  rw [lowPoint_val]
  omega

theorem units_dropUnits (count : Nat) (text : List Point) : units (dropUnits count text) = (units text).drop count := by
  induction count,text using dropUnits.induct with
  | case1 text => simp [dropUnits]
  | case2 count => simp
  | case3 count point rest basic ih => simp [dropUnits_basic count rest basic,ih,unitsOf_basic basic]
  | case4 point rest above =>
    have above : 0x10000 ≤ point.val := by omega
    simp [dropUnits_cut rest above,unitsOf_lowPoint,unitsOf_pair above]
  | case5 point rest above count ih =>
    have above : 0x10000 ≤ point.val := by omega
    simp [dropUnits_pair count rest above,ih,unitsOf_pair above]

theorem units_takeUnits (count : Nat) (text : List Point) : units (takeUnits count text) = (units text).take count := by
  induction count,text using takeUnits.induct with
  | case1 text => simp [takeUnits]
  | case2 count => simp
  | case3 count point rest basic ih => simp [takeUnits_basic count rest basic,ih,unitsOf_basic basic]
  | case4 point rest above =>
    have above : 0x10000 ≤ point.val := by omega
    simp [takeUnits_cut rest above,unitsOf_highPoint above,unitsOf_pair above]
  | case5 point rest above count ih =>
    have above : 0x10000 ≤ point.val := by omega
    simp [takeUnits_pair count rest above,ih,unitsOf_pair above]

theorem splitUnits_append (rest : List Point) (count : Nat) :
    takeUnits ((units first).length + count) (first ++ rest) = first ++ takeUnits count rest ∧
      dropUnits ((units first).length + count) (first ++ rest) = dropUnits count rest := by
  induction first with
  | nil => simp
  | cons point first ih =>
    obtain ⟨basic,single⟩ | ⟨above,double⟩ := unitsOf_cases point
    · have length : (units (point :: first)).length + count = (units first).length + count + 1 := by simp [single]; omega
      rw [length,cons_append,takeUnits_basic _ _ basic,dropUnits_basic _ _ basic,ih.1]
      exact ⟨rfl,ih.2⟩
    · have length : (units (point :: first)).length + count = (units first).length + count + 2 := by simp [double]; omega
      rw [length,cons_append,takeUnits_pair _ _ above,dropUnits_pair _ _ above,ih.1]
      exact ⟨rfl,ih.2⟩

def IsTrail (byte : Nat) : Prop := 0x80 ≤ byte ∧ byte < 0xC0

theorem encode_shape (point : Point) :
    ∃ lead trail, encode point = lead :: trail ∧ ¬ IsTrail lead ∧ ∀ byte ∈ trail, IsTrail byte := by
  unfold IsTrail
  obtain ⟨_,equal⟩ | ⟨_,_,equal⟩ | ⟨_,_,equal⟩ | ⟨_,equal⟩ := encode_cases point
  all_goals
    rw [equal]
    refine ⟨_,_,rfl,by omega,?_⟩
    simp only [not_mem_nil,mem_cons,or_false,forall_eq,false_implies,implies_true]
  all_goals omega

theorem bytes_prefix (start text : List Point) (behind : List Nat) (equal : bytes text = bytes start ++ behind) :
    ∃ after, text = start ++ after ∧ behind = bytes after := by
  induction start generalizing text with
  | nil => exact ⟨text,rfl,equal.symm⟩
  | cons point start ih =>
    cases text with
    | nil =>
      have positive := encode_length_pos point
      have sizes := congrArg List.length equal
      simp only [bytes_nil,bytes_cons,length_append,length_nil] at sizes
      omega
    | cons other rest =>
      have first := congrArg decodeFirst equal
      rw [bytes_cons,bytes_cons,append_assoc,decodeFirst_encode,decodeFirst_encode,Option.some_inj,Prod.mk.injEq] at first
      obtain ⟨after,rfl,same⟩ := ih rest first.2
      exact ⟨after,by rw [first.1,cons_append],same⟩

theorem bytes_infix (nonempty : pattern ≠ []) {behind : List Nat} (front : List Nat)
    (equal : bytes text = front ++ (bytes pattern ++ behind)) :
    ∃ before after, text = before ++ (pattern ++ after) ∧ front = bytes before ∧ behind = bytes after := by
  induction text generalizing front with
  | nil =>
    obtain ⟨point,pattern,rfl⟩ := exists_cons_of_ne_nil nonempty
    have positive := encode_length_pos point
    have sizes := congrArg List.length equal
    simp only [bytes_nil,bytes_cons,length_append,length_nil] at sizes
    omega
  | cons other rest ih =>
    cases front with
    | nil =>
      obtain ⟨after,same,remains⟩ := bytes_prefix pattern (other :: rest) behind equal
      exact ⟨[],after,same,rfl,remains⟩
    | cons byte front =>
      rw [bytes_cons,append_eq_append_iff] at equal
      obtain ⟨between,whole,remains⟩ | ⟨between,cut,remains⟩ := equal
      · obtain ⟨before,after,rfl,rfl,same⟩ := ih between remains
        exact ⟨other :: before,after,rfl,whole,same⟩
      · cases between with
        | nil =>
          obtain ⟨before,after,rfl,none,same⟩ := ih [] remains.symm
          refine ⟨other :: before,after,rfl,?_,same⟩
          rw [bytes_cons,← none,cut]
          simp
        | cons inner between =>
          -- The pattern would begin inside a code point, with a byte that begins none.
          obtain ⟨point,pattern,rfl⟩ := exists_cons_of_ne_nil nonempty
          obtain ⟨lead,trail,shape,notTrail,_⟩ := encode_shape point
          obtain ⟨otherLead,otherTrail,otherShape,_,trails⟩ := encode_shape other
          rw [bytes_cons,shape] at remains
          simp only [cons_append,List.cons.injEq] at remains
          rw [otherShape,cons_append,List.cons.injEq] at cut
          have member : inner ∈ otherTrail := by
            rw [cut.2]
            simp
          exact absurd (remains.1 ▸ trails inner member) notTrail

theorem bytes_place (nonempty : pattern ≠ []) {place : Nat} (there : bytes pattern <+: (bytes text).drop place) :
    ∃ before after, text = before ++ (pattern ++ after) ∧ place = (bytes before).length := by
  obtain ⟨behind,equal⟩ := there
  have inside : place ≤ (bytes text).length := by
    by_contra outside
    rw [drop_of_length_le (by omega),append_eq_nil_iff] at equal
    exact nonempty (bytes_injective (equal.1.trans bytes_nil.symm))
  have whole : bytes text = (bytes text).take place ++ (bytes pattern ++ behind) := by rw [equal,take_append_drop]
  obtain ⟨before,after,split,front,_⟩ := bytes_infix nonempty _ whole
  refine ⟨before,after,split,?_⟩
  rw [← front,length_take,Nat.min_eq_left inside]

theorem length_unitsOf_le (point : Point) : (unitsOf point).length ≤ (encode point).length := by
  unfold unitsOf
  obtain ⟨_,equal⟩ | ⟨_,_,equal⟩ | ⟨_,_,equal⟩ | ⟨_,equal⟩ := encode_cases point
  all_goals
    rw [equal]
    split <;> simp only [length_cons] <;> omega

theorem length_unitsOf_eq_iff (point : Point) : (encode point).length = (unitsOf point).length ↔ point.val < 0x80 := by
  unfold unitsOf
  obtain ⟨_,equal⟩ | ⟨_,_,equal⟩ | ⟨_,_,equal⟩ | ⟨_,equal⟩ := encode_cases point
  all_goals split <;> simp [equal] <;> omega

theorem length_units_le (text : List Point) : (units text).length ≤ (bytes text).length := by
  induction text with
  | nil => rfl
  | cons point text ih =>
    have one := length_unitsOf_le point
    simp only [units_cons,bytes_cons,length_append]
    omega

theorem length_units_eq_iff (text : List Point) :
    (bytes text).length = (units text).length ↔ ∀ point ∈ text, point.val < 0x80 := by
  induction text with
  | nil => simp
  | cons point text ih =>
    have one := length_unitsOf_le point
    have rest := length_units_le text
    rw [forall_mem_cons,← ih,← length_unitsOf_eq_iff point]
    simp only [units_cons,bytes_cons,length_append]
    omega

theorem bytes_ascii_iff (text : List Point) : (∀ byte ∈ bytes text, byte < 0x80) ↔ ∀ point ∈ text, point.val < 0x80 := by
  induction text with
  | nil => simp
  | cons point text ih =>
    rw [bytes_cons,forall_mem_append,ih,forall_mem_cons]
    refine and_congr_left fun _ => ?_
    obtain ⟨small,equal⟩ | ⟨_,_,equal⟩ | ⟨_,_,equal⟩ | ⟨_,equal⟩ := encode_cases point
    all_goals
      rw [equal]
      simp only [forall_mem_cons]
    · simp [small]
    all_goals omega

/-- A place behind bytes of one-byte code points only is between code points. -/
theorem place_of_ascii {count : Nat} (text : List Point) (within : count ≤ (bytes text).length)
    (ascii : ∀ byte ∈ (bytes text).take count, byte < 0x80) : ∃ before after, text = before ++ after ∧ count = (bytes before).length := by
  induction text generalizing count with
  | nil => exact ⟨[],[],rfl,by simpa using within⟩
  | cons point text ih =>
    cases count with
    | zero => exact ⟨[],point :: text,rfl,rfl⟩
    | succ count =>
      rw [bytes_cons] at within ascii
      obtain ⟨_,equal⟩ | ⟨_,_,equal⟩ | ⟨_,_,equal⟩ | ⟨_,equal⟩ := encode_cases point
      · rw [equal,singleton_append] at within ascii
        rw [take_succ_cons,forall_mem_cons] at ascii
        obtain ⟨before,after,split,place⟩ := ih (Nat.le_of_succ_le_succ within) ascii.2
        exact ⟨point :: before,after,by rw [split,cons_append],by rw [bytes_cons,equal,singleton_append,length_cons,place]⟩
      all_goals
        rw [equal,cons_append,take_succ_cons,forall_mem_cons] at ascii
        omega

theorem prefix_of_length_units_le {first second : List Point} (one : first <+: text) (two : second <+: text)
    (less : (units first).length ≤ (units second).length) : first <+: second := by
  obtain within | ⟨more,rfl⟩ := prefix_or_prefix_of_prefix one two
  · exact within
  · cases more with
    | nil => simp
    | cons point more =>
      have positive := unitsOf_length_pos point
      simp only [units_append,units_cons,length_append] at less
      omega

end Ant.Library.Wtf8
