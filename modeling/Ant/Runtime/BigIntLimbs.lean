import Mathlib.Data.List.DropRight
import Mathlib.Data.Nat.Bitwise
import Mathlib.Tactic.Ring

/-! The limbs of `bigint.c` and what its loops over them compute. The low limb comes first. What the code
keeps in 64 bits is a natural number, with the wrapping written out where it can happen. -/
namespace Ant.Runtime.BigIntLimbs
open List

abbrev Limb := BitVec 32

def value : List Limb → Nat
  | [] => 0
  | limb :: limbs => limb.toNat + 2^32 * value limbs

def normalizeLimbs : List Limb → List Limb
  | [] => []
  | limb :: limbs => limb :: limbs.rdropWhile (· == 0#32)

def cmpFromTop : List Limb → List Limb → Ordering
  | x :: xs,y :: ys => (cmpFromTop xs ys).then (compare x.toNat y.toNat)
  | _,_ => .eq

def cmpAbsLimbs (a b : List Limb) : Ordering :=
  (compare (normalizeLimbs a).length (normalizeLimbs b).length).then (cmpFromTop (normalizeLimbs a) (normalizeLimbs b))

/-- Past its end a number reads as zero. -/
def addLoop : Nat → List Limb → List Limb → Nat → List Limb
  | 0,_,_,carry => if carry = 0 then [] else [BitVec.ofNat 32 carry]
  | count+1,a,b,carry =>
    let sum := (a.headD 0#32).toNat + (b.headD 0#32).toNat + carry
    BitVec.ofNat 32 sum :: addLoop count a.tail b.tail (sum / 2^32)

def addAbsLimbs (a b : List Limb) : List Limb := addLoop (max a.length b.length) a b 0

def subLoop : List Limb → List Limb → Nat → List Limb
  | [],_,_ => []
  | x :: a,b,borrow =>
    let subtrahend := (b.headD 0#32).toNat + borrow
    if x.toNat < subtrahend then BitVec.ofNat 32 (2^32 + x.toNat - subtrahend) :: subLoop a b.tail 1
    else BitVec.ofNat 32 (x.toNat - subtrahend) :: subLoop a b.tail 0

def subAbsLimbs (a b : List Limb) : List Limb := subLoop a b 0

/-! Division. -/

def divSmall (divisor : Nat) : List Limb → List Limb × Nat
  | [] => ([],0)
  | limb :: limbs =>
    let above := divSmall divisor limbs
    let cur := above.2 * 2^32 + limb.toNat
    (BitVec.ofNat 32 (cur / divisor) :: above.1,cur % divisor)

def clz32 (limb : Limb) : Nat := 31 - limb.toNat.log2

def shiftLoop (shift : Nat) : List Limb → Nat → List Limb × Nat
  | [],carry => ([],carry)
  | limb :: limbs,carry =>
    let cur := limb.toNat <<< shift ||| carry
    let above := shiftLoop shift limbs (cur / 2^32)
    (BitVec.ofNat 32 cur :: above.1,above.2)

def shiftUp (shift : Nat) (limbs : List Limb) : List Limb × Nat :=
  if shift = 0 then (limbs,0) else shiftLoop shift limbs 0

def unshiftLoop (shift : Nat) : List Limb → List Limb × Nat
  | [] => ([],0)
  | cur :: limbs =>
    let above := unshiftLoop shift limbs
    (BitVec.ofNat 32 (cur.toNat >>> shift ||| above.2 <<< (32 - shift)) :: above.1,cur.toNat &&& (1 <<< shift - 1))

def shiftDown (shift : Nat) (limbs : List Limb) : List Limb :=
  if shift = 0 then limbs else (unshiftLoop shift limbs).1

/-- The loop that lowers the estimated digit. The remainder loses its upper bits where it is shifted. The
top limb of the divisor is at least half of the base, so that the second turn is the last. -/
def lower (top below next : Nat) : Nat → Nat → Nat → Nat
  | 0,qhat,_ => qhat
  | turns+1,qhat,rhat =>
    if (rhat * 2^32) % 2^64 ||| next < qhat * below then
      if 2^32 ≤ rhat + top then qhat - 1 else lower top below next turns (qhat - 1) (rhat + top)
    else qhat

def estimate (top below : Nat) (numerator next : Nat) : Nat :=
  if 2^32 ≤ numerator / top then lower top below next 2 (2^32 - 1) (numerator - (2^32 - 1) * top)
  else lower top below next 2 (numerator / top) (numerator % top)

/-- The window less the divisor times the digit, and whether this went below zero. -/
def mulSub (qhat : Nat) : List Limb → List Limb → Nat → List Limb × Bool
  | v :: vn,u :: window,k =>
    let p := (qhat * v.toNat + k) % 2^64
    let low := p % 2^32
    let above := mulSub qhat vn window (if u.toNat < low then p / 2^32 + 1 else p / 2^32)
    (BitVec.ofNat 32 (if u.toNat < low then u.toNat + 2^32 - low else u.toNat - low) :: above.1,above.2)
  | [],u :: window,k => (BitVec.ofNat 32 (u.toNat + 2^64 - k) :: window,u.toNat < k)
  | _,[],_ => ([],false)

def addBack : List Limb → List Limb → Nat → List Limb
  | v :: vn,u :: window,carry =>
    let sum := u.toNat + v.toNat + carry
    BitVec.ofNat 32 sum :: addBack vn window (sum / 2^32)
  | [],u :: window,carry => BitVec.ofNat 32 (u.toNat + carry) :: window
  | _,[],_ => []

def limbAt (limbs : List Limb) (place : Nat) : Nat := (limbs.getD place 0#32).toNat

/-- One digit of the quotient, at the window of the dividend from its place on. -/
def divStep (vn window : List Limb) : Limb × List Limb :=
  let count := vn.length
  let qhat := estimate (limbAt vn (count - 1)) (limbAt vn (count - 2))
    (limbAt window count * 2^32 + limbAt window (count - 1)) (limbAt window (count - 2))
  let subtracted := mulSub qhat vn window 0
  if subtracted.2 then (BitVec.ofNat 32 (qhat - 1),addBack vn subtracted.1 0) else (BitVec.ofNat 32 qhat,subtracted.1)

def divLoop (vn : List Limb) : Nat → List Limb → List Limb → List Limb × List Limb
  | 0,un,q => (q,un)
  | place+1,un,q =>
    let out := divStep vn (un.drop place)
    divLoop vn place (un.take place ++ out.2) (out.1 :: q)

/-- The quotient and the remainder. -/
def divmodAbsLimbs (num den : List Limb) : Option (List Limb × List Limb) :=
  if den = [0#32] then none
  else if cmpAbsLimbs num den = .lt then some ([0#32],normalizeLimbs num)
  else if den.length = 1 then
    let out := divSmall (den.headD 0#32).toNat num
    some (normalizeLimbs out.1,[BitVec.ofNat 32 out.2])
  else
    let shift := clz32 (den.getLastD 0#32)
    let shifted := shiftUp shift num
    let out := divLoop (shiftUp shift den).1 (num.length - den.length + 1) (shifted.1 ++ [BitVec.ofNat 32 shifted.2]) []
    some (normalizeLimbs out.1,normalizeLimbs (shiftDown shift (out.2.take den.length)))

theorem lower_turns {top below next qhat rhat : Nat} (more : Nat) (half : 2^31 ≤ top) :
    lower top below next (more + 2) qhat rhat = lower top below next 2 qhat rhat := by
  have ends : 2^32 ≤ rhat + top + top := by omega
  simp only [lower,if_pos ends]

/-! What the limbs stand for. -/

theorem value_append (a b : List Limb) : value (a ++ b) = value a + 2^(32 * a.length) * value b := by
  induction a with
  | nil => simp [value]
  | cons limb a ih =>
    rw [cons_append,value,value,ih,length_cons,Nat.mul_succ,pow_add]
    ring

@[simp] theorem value_singleton (limb : Limb) : value [limb] = limb.toNat := by simp [value]

theorem value_lt (limbs : List Limb) : value limbs < 2^(32 * limbs.length) := by
  induction limbs with
  | nil => simp [value]
  | cons limb limbs ih =>
    have small := limb.isLt
    rw [value,length_cons,Nat.mul_add,pow_add]
    omega

@[simp] theorem value_replicate (count : Nat) : value (replicate count 0#32) = 0 := by
  induction count with
  | zero => rfl
  | succ count ih => simp [replicate_succ,value,ih]

theorem value_headD (limbs : List Limb) : value limbs = (limbs.headD 0#32).toNat + 2^32 * value limbs.tail := by
  cases limbs with
  | nil => simp [value]
  | cons limb limbs => rfl

theorem value_rdropWhile (limbs : List Limb) : value (limbs.rdropWhile (· == 0#32)) = value limbs := by
  induction limbs using reverseRecOn with
  | nil => simp
  | append_singleton limbs limb ih =>
    rw [rdropWhile_concat,value_append]
    split
    · next zero =>
      obtain rfl : limb = 0#32 := by simpa using zero
      simp [ih]
    · rw [value_append]

@[simp] theorem value_normalizeLimbs (limbs : List Limb) : value (normalizeLimbs limbs) = value limbs := by
  cases limbs with
  | nil => rfl
  | cons limb limbs => rw [normalizeLimbs,value,value,value_rdropWhile]

theorem normalizeLimbs_idem (limbs : List Limb) : normalizeLimbs (normalizeLimbs limbs) = normalizeLimbs limbs := by
  cases limbs with
  | nil => rfl
  | cons limb limbs => rw [normalizeLimbs,normalizeLimbs,rdropWhile_idempotent]

theorem normalizeLimbs_ne_nil {limbs : List Limb} (some : limbs ≠ []) : normalizeLimbs limbs ≠ [] := by
  cases limbs with
  | nil => exact absurd rfl some
  | cons limb limbs => simp [normalizeLimbs]

/-- The top limb of a number without leading zeros says how large it is at least. -/
theorem normal_ge {limbs : List Limb} (normal : normalizeLimbs limbs = limbs) (long : 1 < limbs.length) :
    2^(32 * (limbs.length - 1)) ≤ value limbs := by
  cases limbs with
  | nil => simp at long
  | cons limb limbs =>
    have some : limbs ≠ [] := by
      rintro rfl
      simp at long
    have top := rdropWhile_eq_self_iff.mp (List.cons.inj normal).2 some
    have nonzero : (limbs.getLast some).toNat ≠ 0 := by
      intro zero
      exact top (by simpa using BitVec.eq_of_toNat_eq zero)
    have split := dropLast_append_getLast some
    have count : limbs.length = limbs.dropLast.length + 1 := by
      conv_lhs => rw [← split,length_append,length_singleton]
    rw [value,← split,value_append,value_singleton,split,length_cons,Nat.add_sub_cancel,count,Nat.mul_add,pow_add]
    have below := Nat.le_mul_of_pos_right (2^(32 * limbs.dropLast.length)) (Nat.pos_of_ne_zero nonzero)
    omega

theorem normal_length_le {limbs : List Limb} {count : Nat} (normal : normalizeLimbs limbs = limbs) (positive : 0 < count)
    (small : value limbs < 2^(32 * count)) : limbs.length ≤ count := by
  by_contra longer
  have large := normal_ge normal (by omega)
  have power : 2^(32 * count) ≤ 2^(32 * (limbs.length - 1)) := Nat.pow_le_pow_right (by omega) (by omega)
  omega

theorem normal_zero {limbs : List Limb} (normal : normalizeLimbs limbs = limbs) (some : limbs ≠ []) (zero : value limbs = 0) :
    limbs = [0#32] := by
  have short := normal_length_le normal Nat.one_pos (by rw [zero]; exact Nat.two_pow_pos _)
  obtain ⟨limb,rfl⟩ := length_eq_one_iff.mp (Nat.le_antisymm short (length_pos_of_ne_nil some))
  rw [value_singleton] at zero
  rw [show limb = 0#32 from BitVec.eq_of_toNat_eq zero]

/-! Comparison, addition and subtraction. -/

theorem compare_scaled {x y above other : Nat} (small : x < 2^32) (smaller : y < 2^32) :
    (compare above other).then (compare x y) = compare (x + 2^32 * above) (y + 2^32 * other) := by
  rcases lt_trichotomy above other with less | rfl | more
  · rw [compare_lt_iff_lt.mpr less,compare_lt_iff_lt.mpr (show x + 2^32 * above < y + 2^32 * other by omega)]
    rfl
  · have cancelled : compare (x + 2^32 * above) (y + 2^32 * above) = compare x y := by
      rcases lt_trichotomy x y with less | rfl | more
      · rw [compare_lt_iff_lt.mpr less,compare_lt_iff_lt.mpr (by omega)]
      · simp
      · rw [compare_gt_iff_gt.mpr more,compare_gt_iff_gt.mpr (by omega)]
    rw [cancelled,compare_eq_iff_eq.mpr rfl]
    rfl
  · rw [compare_gt_iff_gt.mpr more,compare_gt_iff_gt.mpr (show y + 2^32 * other < x + 2^32 * above by omega)]
    rfl

theorem cmpFromTop_eq {a b : List Limb} (long : a.length = b.length) : cmpFromTop a b = compare (value a) (value b) := by
  induction a generalizing b with
  | nil =>
    obtain rfl : b = [] := eq_nil_of_length_eq_zero long.symm
    rfl
  | cons x a ih =>
    cases b with
    | nil => simp at long
    | cons y b =>
      rw [cmpFromTop,ih (by simpa using long),value,value]
      exact compare_scaled x.isLt y.isLt

theorem longer_gt {a b : List Limb} (normal : normalizeLimbs a = a) (some : b ≠ []) (longer : b.length < a.length) :
    value b < value a := by
  have large := normal_ge normal (by have := length_pos_of_ne_nil some; omega)
  have small := value_lt b
  have power : 2^(32 * b.length) ≤ 2^(32 * (a.length - 1)) := Nat.pow_le_pow_right (by omega) (by omega)
  omega

theorem cmpAbsLimbs_eq {a b : List Limb} (someA : a ≠ []) (someB : b ≠ []) :
    cmpAbsLimbs a b = compare (value a) (value b) := by
  rw [cmpAbsLimbs,← value_normalizeLimbs a,← value_normalizeLimbs b]
  rcases lt_trichotomy (normalizeLimbs a).length (normalizeLimbs b).length with less | same | more
  · rw [compare_lt_iff_lt.mpr less,
      compare_lt_iff_lt.mpr (longer_gt (normalizeLimbs_idem b) (normalizeLimbs_ne_nil someA) less)]
    rfl
  · rw [compare_eq_iff_eq.mpr same,← cmpFromTop_eq same]
    rfl
  · rw [compare_gt_iff_gt.mpr more,
      compare_gt_iff_gt.mpr (longer_gt (normalizeLimbs_idem a) (normalizeLimbs_ne_nil someB) more)]
    rfl

theorem addLoop_value {count carry : Nat} {a b : List Limb} (fitsA : a.length ≤ count) (fitsB : b.length ≤ count)
    (bit : carry < 2^32) : value (addLoop count a b carry) = value a + value b + carry := by
  induction count generalizing a b carry with
  | zero =>
    obtain rfl : a = [] := eq_nil_of_length_eq_zero (by omega)
    obtain rfl : b = [] := eq_nil_of_length_eq_zero (by omega)
    unfold addLoop
    split
    · next zero => simp [value,zero]
    · rw [value_singleton,BitVec.toNat_ofNat,Nat.mod_eq_of_lt bit]
      simp [value]
  | succ count ih =>
    have x := (a.headD 0#32).isLt
    have y := (b.headD 0#32).isLt
    simp only [addLoop,value]
    rw [ih (by rw [length_tail]; omega) (by rw [length_tail]; omega) (by omega),value_headD a,value_headD b,
      BitVec.toNat_ofNat]
    omega

theorem addAbsLimbs_value (a b : List Limb) : value (addAbsLimbs a b) = value a + value b :=
  addLoop_value (le_max_left _ _) (le_max_right _ _) (by norm_num)

theorem subLoop_value {borrow : Nat} {a b : List Limb} (bit : borrow ≤ 1) (less : value b + borrow ≤ value a) :
    value (subLoop a b borrow) + value b + borrow = value a := by
  induction a generalizing b borrow with
  | nil =>
    rw [value] at less
    simp only [subLoop,value]
    omega
  | cons x a ih =>
    have small := x.isLt
    have smaller := (b.headD 0#32).isLt
    rw [value_headD b,value] at less
    simp only [subLoop]
    split
    · have rest := @ih 1 b.tail (by omega) (by omega)
      rw [value_headD b,value,value,BitVec.toNat_ofNat]
      omega
    · have rest := @ih 0 b.tail (by omega) (by omega)
      rw [value_headD b,value,value,BitVec.toNat_ofNat]
      omega

theorem subAbsLimbs_value {a b : List Limb} (less : value b ≤ value a) : value (subAbsLimbs a b) = value a - value b := by
  have whole := @subLoop_value 0 a b (by omega) less
  rw [subAbsLimbs]
  omega

/-! Division by a power of two. -/

theorem divSmall_rest (divisor : Nat) (limbs : List Limb) :
    (divSmall divisor limbs).2 = value limbs % divisor := by
  induction limbs with
  | nil => simp [divSmall,value]
  | cons limb limbs ih =>
    simp only [divSmall,value]
    rw [ih,Nat.add_comm limb.toNat,Nat.add_mod,Nat.add_mod (2^32 * _),Nat.mul_mod,Nat.mod_mod,Nat.mul_comm (2^32),
      Nat.mul_mod (value limbs)]

theorem shiftLoop_value {shift carry : Nat} {limbs : List Limb} (below : carry < 2^shift) :
    value (shiftLoop shift limbs carry).1 + 2^(32 * limbs.length) * (shiftLoop shift limbs carry).2 =
        value limbs * 2^shift + carry ∧
      (shiftLoop shift limbs carry).2 < 2^shift ∧ (shiftLoop shift limbs carry).1.length = limbs.length := by
  induction limbs generalizing carry with
  | nil => simpa [shiftLoop,value] using below
  | cons limb limbs ih =>
    have joined : limb.toNat <<< shift ||| carry = limb.toNat * 2^shift + carry := by
      rw [← Nat.shiftLeft_add_eq_or_of_lt below,Nat.shiftLeft_eq]
    have next : (limb.toNat * 2^shift + carry) / 2^32 < 2^shift := by
      apply Nat.div_lt_of_lt_mul
      calc limb.toNat * 2^shift + carry < limb.toNat * 2^shift + 2^shift := by omega
        _ = (limb.toNat + 1) * 2^shift := by ring
        _ ≤ 2^32 * 2^shift := Nat.mul_le_mul_right _ limb.isLt
    obtain ⟨sum,bound,long⟩ := ih next
    simp only [shiftLoop,joined,value,length_cons]
    refine ⟨?_,bound,by rw [long]⟩
    have parts := Nat.mod_add_div (limb.toNat * 2^shift + carry) (2^32)
    rw [BitVec.toNat_ofNat,Nat.mul_succ,pow_add]
    calc _ = (limb.toNat * 2^shift + carry) % 2^32 + 2^32 * (value (shiftLoop shift limbs _).1 +
          2^(32 * limbs.length) * (shiftLoop shift limbs ((limb.toNat * 2^shift + carry) / 2^32)).2) := by ring
      _ = (limb.toNat * 2^shift + carry) % 2^32 + 2^32 * ((limb.toNat * 2^shift + carry) / 2^32) +
          2^32 * (value limbs * 2^shift) := by rw [sum]; ring
      _ = (limb.toNat + 2^32 * value limbs) * 2^shift + carry := by rw [parts]; ring

theorem unshiftLoop_value {shift : Nat} (small : shift < 32) (limbs : List Limb) :
    value (unshiftLoop shift limbs).1 = value limbs / 2^shift ∧ (unshiftLoop shift limbs).2 = value limbs % 2^shift := by
  have power : 2^32 = 2^shift * 2^(32 - shift) := by rw [← pow_add,Nat.add_sub_cancel' small.le]
  have positive := Nat.two_pow_pos shift
  induction limbs with
  | nil => simp [unshiftLoop,value]
  | cons cur limbs ih =>
    obtain ⟨quotient,rest⟩ := ih
    have below : cur.toNat / 2^shift < 2^(32 - shift) := Nat.div_lt_of_lt_mul (power ▸ cur.isLt)
    have joined : cur.toNat >>> shift ||| (value limbs % 2^shift) <<< (32 - shift) =
        2^(32 - shift) * (value limbs % 2^shift) + cur.toNat / 2^shift := by
      rw [Nat.or_comm,Nat.shiftRight_eq_div_pow,← Nat.shiftLeft_add_eq_or_of_lt below,Nat.shiftLeft_eq,Nat.mul_comm]
    have fits : 2^(32 - shift) * (value limbs % 2^shift) + cur.toNat / 2^shift < 2^32 := by
      calc _ < 2^(32 - shift) * (value limbs % 2^shift) + 2^(32 - shift) := by omega
        _ = 2^(32 - shift) * (value limbs % 2^shift + 1) := by ring
        _ ≤ 2^(32 - shift) * 2^shift := Nat.mul_le_mul_left _ (Nat.mod_lt _ positive)
        _ = 2^32 := by rw [power,Nat.mul_comm]
    have parts := Nat.mod_add_div (value limbs) (2^shift)
    simp only [unshiftLoop,value,quotient,rest,joined,BitVec.toNat_ofNat,Nat.mod_eq_of_lt fits,Nat.one_shiftLeft,
      Nat.and_two_pow_sub_one_eq_mod]
    constructor
    · rw [power,Nat.mul_assoc (2^shift) _ (value limbs),Nat.add_mul_div_left _ _ positive]
      conv_rhs => rw [← parts]
      ring
    · rw [power,Nat.mul_assoc,Nat.add_mul_mod_self_left]

theorem shiftDown_value {shift : Nat} (small : shift < 32) (limbs : List Limb) :
    value (shiftDown shift limbs) = value limbs / 2^shift := by
  unfold shiftDown
  split
  · next zero => simp [zero]
  · exact (unshiftLoop_value small limbs).1

theorem shiftUp_value (shift : Nat) (limbs : List Limb) :
    value (shiftUp shift limbs).1 + 2^(32 * limbs.length) * (shiftUp shift limbs).2 = value limbs * 2^shift ∧
      (shiftUp shift limbs).2 < 2^shift ∧ (shiftUp shift limbs).1.length = limbs.length := by
  unfold shiftUp
  split
  · next zero => simp [zero]
  · exact shiftLoop_value (Nat.two_pow_pos shift)

def halfBase : Limb := BitVec.ofNat 32 (2^31)

theorem mulSub_zeros (qhat : Nat) (vn window front : List Limb) :
    mulSub qhat (replicate front.length 0#32 ++ vn) (front ++ window) 0 =
      (front ++ (mulSub qhat vn window 0).1,(mulSub qhat vn window 0).2) := by
  induction front with
  | nil => rfl
  | cons u front ih =>
    rw [length_cons,replicate_succ,cons_append,cons_append]
    simp [mulSub,ih]

theorem mulSub_half {x y : Limb} {window : List Limb} (half : y.toNat < 2^31) :
    mulSub ((y.toNat * 2^32 + x.toNat) / 2^31) [halfBase] (x :: y :: window) 0 =
      (BitVec.ofNat 32 (x.toNat % 2^31) :: 0#32 :: window,false) := by
  have small := x.isLt
  have top : halfBase.toNat = 2^31 := rfl
  -- the digit is twice the upper limb and the top bit of the lower one
  obtain ⟨bit,rest,le,lt,split⟩ : ∃ bit rest, bit ≤ 1 ∧ rest < 2^31 ∧ x.toNat = bit * 2^31 + rest :=
    ⟨x.toNat / 2^31,x.toNat % 2^31,by omega,by omega,by omega⟩
  have digit : (y.toNat * 2^32 + x.toNat) / 2^31 = 2 * y.toNat + bit := by omega
  have product : ((2 * y.toNat + bit) * 2^31 + 0) % 2^64 = y.toNat * 2^32 + bit * 2^31 := by omega
  have low : (y.toNat * 2^32 + bit * 2^31) % 2^32 = bit * 2^31 := by
    rw [Nat.mul_add_mod',Nat.mod_eq_of_lt (by omega)]
  have high : (y.toNat * 2^32 + bit * 2^31) / 2^32 = y.toNat := by omega
  have kept : ¬ x.toNat < bit * 2^31 := by omega
  have left : x.toNat - bit * 2^31 = x.toNat % 2^31 := by omega
  have gone : BitVec.ofNat 32 (y.toNat + 2^64 - y.toNat) = 0#32 := by
    rw [Nat.add_sub_cancel_left]
    rfl
  simp only [digit,mulSub,top,product,low,high,if_neg kept,left,gone,Nat.lt_irrefl,decide_false]

theorem divStep_half {front window : List Limb} {x y : Limb} (some : front ≠ []) (half : y.toNat < 2^31) :
    (divStep (replicate front.length 0#32 ++ [halfBase]) (front ++ x :: y :: window)).2 =
      front ++ BitVec.ofNat 32 (x.toNat % 2^31) :: 0#32 :: window := by
  have positive := length_pos_of_ne_nil some
  have small := x.isLt
  have top : limbAt (replicate front.length 0#32 ++ [halfBase]) front.length = 2^31 := by simp [limbAt,halfBase]
  have below : limbAt (replicate front.length 0#32 ++ [halfBase]) (front.length - 1) = 0 := by
    rw [limbAt,getD_append _ _ _ _ (by rw [length_replicate]; omega)]
    simp
  have upper : limbAt (front ++ x :: y :: window) (front.length + 1) = y.toNat := by
    rw [limbAt,getD_append_right _ _ _ _ (by omega),Nat.add_sub_cancel_left]
    rfl
  have lower : limbAt (front ++ x :: y :: window) front.length = x.toNat := by
    rw [limbAt,getD_append_right _ _ _ _ le_rfl,Nat.sub_self]
    rfl
  have fits : ¬ 2^32 ≤ (y.toNat * 2^32 + x.toNat) / 2^31 := by omega
  have estimated (next : Nat) : estimate (2^31) 0 (y.toNat * 2^32 + x.toNat) next = (y.toNat * 2^32 + x.toNat) / 2^31 := by
    rw [estimate,if_neg fits,BigIntLimbs.lower,if_neg (by simp)]
  have count : (replicate front.length 0#32 ++ [halfBase]).length = front.length + 1 := by simp
  have before : front.length + 1 - 2 = front.length - 1 := by omega
  simp only [divStep,count,Nat.add_sub_cancel,before,top,below,upper,lower,estimated,mulSub_zeros,mulSub_half half]
  rfl

theorem divLoop_half {count place : Nat} {front window q : List Limb} {x y : Limb} (positive : 0 < count)
    (long : front.length = place + count) (half : y.toNat < 2^31) :
    value ((divLoop (replicate count 0#32 ++ [halfBase]) (place + 1) (front ++ x :: y :: window) q).2.take (count + 1)) =
      value (front ++ [x]) % 2^(32 * count + 31) := by
  induction place generalizing front window q x y with
  | zero =>
    obtain rfl : front.length = count := by omega
    have some : front ≠ [] := ne_nil_of_length_pos positive
    have bound := value_lt front
    have taken (tail : List Limb) (z : Limb) : (front ++ z :: tail).take (front.length + 1) = front ++ [z] :=
      take_length_add_append 1
    simp only [divLoop,drop_zero,take_zero,nil_append,divStep_half some half,taken]
    rw [value_append,value_append,value_singleton,value_singleton,BitVec.toNat_ofNat,pow_add,Nat.mod_mul,
      Nat.add_mul_mod_self_left,Nat.mod_eq_of_lt bound,Nat.add_mul_div_left _ _ (Nat.two_pow_pos _),
      Nat.div_eq_of_lt bound,Nat.zero_add,Nat.mod_eq_of_lt (by omega)]
  | succ place ih =>
    have some : front ≠ [] := ne_nil_of_length_pos (by omega)
    have rest : (front.drop (place + 1)).length = count := by rw [length_drop]; omega
    have inner : front.drop (place + 1) ≠ [] := ne_nil_of_length_pos (by omega)
    have step := @divStep_half (front.drop (place + 1)) window x y inner half
    have dropped : (front ++ x :: y :: window).drop (place + 1) = front.drop (place + 1) ++ x :: y :: window :=
      drop_append_of_le_length (by omega)
    have taken : (front ++ x :: y :: window).take (place + 1) = front.take (place + 1) := take_append_of_le_length (by omega)
    rw [rest] at step
    rw [divLoop,dropped,taken,step,← append_assoc,take_append_drop]
    obtain ⟨before,z,rfl⟩ : ∃ before z, front = before ++ [z] := ⟨_,_,(dropLast_append_getLast some).symm⟩
    rw [length_append,length_singleton] at long
    have power : 2^(32 * (before ++ [z]).length) = 2^(32 * count + 31) * 2^(32 * place + 1) := by
      rw [← pow_add,length_append,length_singleton]
      congr 1
      omega
    rw [append_assoc,singleton_append,ih (by omega) (by rw [BitVec.toNat_ofNat]; omega),value_append (before ++ [z]) [x],power,
      Nat.mul_assoc,Nat.add_mul_mod_self_left]

def powerLimbs (bits : Nat) : List Limb := replicate (bits / 32) 0#32 ++ [BitVec.ofNat 32 (2^(bits % 32))]

theorem powerLimbs_top (bits : Nat) : (BitVec.ofNat 32 (2^(bits % 32))).toNat = 2^(bits % 32) := by
  rw [BitVec.toNat_ofNat,Nat.mod_eq_of_lt]
  exact Nat.pow_lt_pow_right (by omega) (Nat.mod_lt _ (by omega))

theorem value_powerLimbs (bits : Nat) : value (powerLimbs bits) = 2^bits := by
  rw [powerLimbs,value_append,value_replicate,value_singleton,powerLimbs_top,length_replicate,Nat.zero_add,← pow_add,
    Nat.div_add_mod]

theorem normalizeLimbs_powerLimbs (bits : Nat) : normalizeLimbs (powerLimbs bits) = powerLimbs bits := by
  have nonzero : ¬ (BitVec.ofNat 32 (2^(bits % 32)) == 0#32) = true := by
    intro zero
    have same := congrArg BitVec.toNat (eq_of_beq zero)
    rw [powerLimbs_top] at same
    exact absurd same (Nat.two_pow_pos _).ne'
  rw [powerLimbs]
  cases bits / 32 with
  | zero => rfl
  | succ count => rw [replicate_succ,cons_append,normalizeLimbs,rdropWhile_concat,if_neg nonzero]

theorem shiftLoop_zeros (shift count : Nat) (limbs : List Limb) :
    (shiftLoop shift (replicate count 0#32 ++ limbs) 0).1 = replicate count 0#32 ++ (shiftLoop shift limbs 0).1 := by
  induction count with
  | zero => rfl
  | succ count ih => simpa [replicate_succ,shiftLoop] using ih

theorem shiftUp_powerLimbs (bits : Nat) :
    (shiftUp (31 - bits % 32) (powerLimbs bits)).1 = replicate (bits / 32) 0#32 ++ [halfBase] := by
  have moved : 2^(bits % 32) * 2^(31 - bits % 32) = 2^31 := by
    rw [← pow_add]
    congr 1
    omega
  unfold shiftUp
  split
  · next zero =>
    rw [zero,pow_zero,Nat.mul_one] at moved
    rw [powerLimbs,moved,halfBase]
  · simp only [powerLimbs,shiftLoop_zeros,shiftLoop,powerLimbs_top,Nat.or_zero,Nat.shiftLeft_eq,moved,halfBase]

/-- Division by a power of two leaves the remainder, whichever of the ways of the code it goes. -/
theorem divmodAbsLimbs_power {num : List Limb} (some : num ≠ []) (bits : Nat) :
    ∃ quotient rest, divmodAbsLimbs num (powerLimbs bits) = .some (quotient,rest) ∧ value rest = value num % 2^bits := by
  have positive := Nat.two_pow_pos bits
  have power := value_powerLimbs bits
  have count : (powerLimbs bits).length = bits / 32 + 1 := by simp [powerLimbs]
  have nonzero : powerLimbs bits ≠ [0#32] := by
    intro zero
    rw [zero] at power
    simp at power
    omega
  have compared := @cmpAbsLimbs_eq num (powerLimbs bits) some (by simp [powerLimbs])
  rw [power] at compared
  rw [divmodAbsLimbs,if_neg nonzero,compared]
  split
  · next less =>
    refine ⟨_,_,rfl,?_⟩
    rw [value_normalizeLimbs,Nat.mod_eq_of_lt (compare_lt_iff_lt.mp less)]
  · next large =>
    have large : 2^bits ≤ value num := not_lt.mp fun less => large (compare_lt_iff_lt.mpr less)
    split
    · next one =>
      have short : bits / 32 = 0 := by omega
      refine ⟨_,_,rfl,?_⟩
      have divisor : ((powerLimbs bits).headD 0#32).toNat = 2^bits := by
        rw [← power,value_headD (powerLimbs bits)]
        simp [powerLimbs,short,value]
      have fits : value num % 2^bits < 2^32 :=
        Nat.lt_of_lt_of_le (Nat.mod_lt _ positive) (Nat.pow_le_pow_right (by omega) (by omega))
      rw [value_singleton,divSmall_rest,divisor,BitVec.toNat_ofNat,Nat.mod_eq_of_lt fits]
    · next several =>
      refine ⟨_,_,rfl,?_⟩
      have top : clz32 ((powerLimbs bits).getLastD 0#32) = 31 - bits % 32 := by
        rw [powerLimbs,getLastD_concat,clz32,powerLimbs_top,Nat.log2_two_pow]
      obtain ⟨sum,below,long⟩ := shiftUp_value (31 - bits % 32) num
      have longer : bits / 32 + 1 ≤ num.length := by
        have exponent := (Nat.pow_lt_pow_iff_right (by omega)).mp (Nat.lt_of_le_of_lt large (value_lt num))
        omega
      have filled : (shiftUp (31 - bits % 32) num).1 ≠ [] := ne_nil_of_length_pos (by omega)
      obtain ⟨front,x,parts⟩ : ∃ front x, (shiftUp (31 - bits % 32) num).1 = front ++ [x] :=
        ⟨_,_,(dropLast_append_getLast filled).symm⟩
      rw [parts,length_append,length_singleton] at long
      have half : (BitVec.ofNat 32 (shiftUp (31 - bits % 32) num).2).toNat < 2^31 := by
        have powers : 2^(31 - bits % 32) ≤ 2^31 := Nat.pow_le_pow_right (by omega) (by omega)
        rw [BitVec.toNat_ofNat]
        omega
      rw [value_normalizeLimbs,top,shiftDown_value (by omega),shiftUp_powerLimbs,parts,append_assoc,singleton_append,count,
        divLoop_half (by omega) (by omega) half]
      have multiple : 2^(32 * num.length) = 2^(32 * (bits / 32) + 31) * 2^(32 * (num.length - bits / 32) - 31) := by
        rw [← pow_add]
        congr 1
        omega
      have exponent : 2^(32 * (bits / 32) + 31) = 2^bits * 2^(31 - bits % 32) := by
        rw [← pow_add]
        congr 1
        omega
      have same : value (front ++ [x]) % 2^(32 * (bits / 32) + 31) = value num % 2^bits * 2^(31 - bits % 32) := by
        rw [← Nat.mul_mod_mul_right,← exponent,← sum,parts,multiple,Nat.mul_assoc,Nat.add_mul_mod_self_left]
      rw [same,Nat.mul_div_cancel _ (Nat.two_pow_pos _)]

end Ant.Runtime.BigIntLimbs
