import Ant.Text.Equality

/-! The order of strings: that of the relational operators and that of sorting without a comparator,
against the order of code units. -/
namespace Ant.Text.Order
open Library.Wtf8 Scan Strings Equality List

inductive RelOp where
  | lt
  | le
  | gt
  | ge
  deriving DecidableEq,Repr

def RelOp.holds (op : RelOp) (cmp : Int) : Bool :=
  match op with
  | .lt => cmp < 0
  | .le => cmp ≤ 0
  | .gt => 0 < cmp
  | .ge => 0 ≤ cmp

def svStrcmp (left right : Str) : Int :=
  let cmp := memcmp (min (vstr left).length (vstr right).length) (vstr left) (vstr right)
  if cmp = 0 then
    if (vstr left).length < (vstr right).length then -1 else if (vstr right).length < (vstr left).length then 1 else 0
  else if cmp < 0 then -1 else 1

def svOpRelational (op : RelOp) (left right : Str) : Bool := op.holds (svStrcmp left right)

def doStringRelational (op : RelOp) (left right : Str) : Bool :=
  let cmp := memcmp (min (vstr left).length (vstr right).length) (vstr left) (vstr right)
  if cmp = 0 then
    if (vstr left).length = (vstr right).length then op = .le || op = .ge
    else op.holds (if (vstr left).length < (vstr right).length then -1 else 1)
  else op.holds cmp

/-- Strings of the C library end at their first zero byte. -/
def strcmp : List Nat → List Nat → Int
  | [],[] => 0
  | [],b :: _ => if b = 0 then 0 else -1
  | a :: _,[] => if a = 0 then 0 else 1
  | a :: first,b :: second => if a < b then -1 else if b < a then 1 else if a = 0 then 0 else strcmp first second

def sortKey (str : Str) : List Nat := (vstr str).takeWhile (· != 0)

def sortCompare (left right : Str) : Int := strcmp (sortKey left) (sortKey right)

structure Signs (sign : Int) (first second : List Nat) : Prop where
  before : sign < 0 ↔ first < second
  equal : sign = 0 ↔ first = second
  behind : 0 < sign ↔ second < first

def RelOp.Orders (op : RelOp) (first second : List Nat) : Prop :=
  match op with
  | .lt => first < second
  | .le => first < second ∨ first = second
  | .gt => second < first
  | .ge => second < first ∨ first = second

theorem holds_iff_signs (sign : Int) (first second : List Nat) :
    (∀ op : RelOp, op.holds sign = true ↔ op.Orders first second) ↔ Signs sign first second := by
  constructor
  · intro each
    have less := each .lt
    have lessEqual := each .le
    have greater := each .gt
    have greaterEqual := each .ge
    simp only [RelOp.holds,decide_eq_true_eq] at less lessEqual greater greaterEqual
    refine ⟨less,?_,greater⟩
    constructor
    · intro zero
      have notLess : ¬ first < second := fun is => absurd (less.mpr is) (by omega)
      exact (lessEqual.mp (by omega)).resolve_left notLess
    · intro same
      have upper := lessEqual.mpr (Or.inr same)
      have lower := greaterEqual.mpr (Or.inr same)
      omega
  · intro signs op
    cases op <;> simp only [RelOp.holds,RelOp.Orders,decide_eq_true_eq,← signs.before,← signs.equal,← signs.behind] <;> omega

variable {sign : Int} {first second : List Nat} {α β : Type} {point other : Point}

theorem signs_of_ends (before : sign < 0 → first < second) (same : sign = 0 → first = second)
    (behind : 0 < sign → second < first) : Signs sign first second := by
  have cases : sign < 0 ∨ sign = 0 ∨ 0 < sign := by omega
  refine ⟨⟨before,fun less => ?_⟩,⟨same,fun equal => ?_⟩,⟨behind,fun less => ?_⟩⟩
  · obtain is | is | is := cases
    · exact is
    · exact absurd (same is ▸ less) (lt_irrefl _)
    · exact absurd (behind is) (not_lt.mpr less.le)
  · obtain is | is | is := cases
    · exact absurd (equal ▸ before is) (lt_irrefl _)
    · exact is
    · exact absurd (equal ▸ behind is) (lt_irrefl _)
  · obtain is | is | is := cases
    · exact absurd (before is) (not_lt.mpr less.le)
    · exact absurd (same is ▸ less) (lt_irrefl _)
    · exact is

theorem memcmp_signs (first second : List Nat) :
    let cmp := memcmp (min first.length second.length) first second
    (cmp < 0 → first < second) ∧ (0 < cmp → second < first) ∧
      (cmp = 0 → (first.length < second.length → first < second) ∧ (second.length < first.length → second < first) ∧
        (first.length = second.length → first = second)) := by
  induction first generalizing second with
  | nil => cases second <;> simp [memcmp]
  | cons a first ih =>
    cases second with
    | nil => simp [memcmp]
    | cons b second =>
      simp only [length_cons,Nat.add_min_add_right,memcmp,cons_lt_cons_iff]
      obtain ⟨before,behind,ends⟩ := ih second
      obtain less | same | greater := lt_trichotomy a b
      · simp [less]
      · subst same
        simp only [lt_irrefl,false_or,true_and,List.cons.injEq]
        exact ⟨before,behind,fun zero => ⟨fun short => (ends zero).1 (by omega),fun long => (ends zero).2.1 (by omega),
          fun equal => (ends zero).2.2 (by omega)⟩⟩
      · simp [greater,not_lt.mpr greater.le]

theorem svStrcmp_signs (left right : Str) : Signs (svStrcmp left right) (vstr left) (vstr right) := by
  obtain ⟨before,behind,ends⟩ := memcmp_signs (vstr left) (vstr right)
  unfold svStrcmp
  simp only
  split
  · next zero =>
    obtain ⟨short,long,equal⟩ := ends zero
    split
    · next less => exact signs_of_ends (fun _ => short less) (by simp) (by simp)
    · split
      · next greater => exact signs_of_ends (by simp) (by simp) (fun _ => long greater)
      · next notLess notGreater => exact signs_of_ends (by simp) (fun _ => equal (by omega)) (by simp)
  · next nonzero =>
    split
    · next less => exact signs_of_ends (fun _ => before less) (by simp) (by simp)
    · next notLess => exact signs_of_ends (by simp) (by simp) (fun _ => behind (by omega))

theorem doStringRelational_eq (op : RelOp) (left right : Str) : doStringRelational op left right = svOpRelational op left right := by
  unfold doStringRelational svOpRelational svStrcmp
  simp only
  split
  · split
    · next same => cases op <;> simp [RelOp.holds,same]
    · next different =>
      split
      · rfl
      · next notShort => rw [if_pos (by omega)]
  · split
    · next less => cases op <;> simp [RelOp.holds] <;> omega
    · next notLess => cases op <;> simp [RelOp.holds] <;> omega

/-- Where two texts differ first, they do so on the same side of the basic plane, or the code point
of the basic plane comes before the high half of the other one; if it is that half, what follows it
decides. -/
def SameOrder : List Point → List Point → Prop
  | point :: first,other :: second =>
    if point = other then SameOrder first second
    else if point.val < 0x10000 ∧ 0x10000 ≤ other.val then
      point.val < high other ∨ point.val = high other ∧ units first < low other :: units second
    else if other.val < 0x10000 ∧ 0x10000 ≤ point.val then
      other.val < high point ∨ other.val = high point ∧ units second < low point :: units first
    else True
  | _,_ => True

def Unhidden : List Point → List Point → Prop
  | [],[] => True
  | [],other :: _ => other ≠ 0
  | point :: _,[] => point ≠ 0
  | point :: first,other :: second => point = other → if point = 0 then first = second else Unhidden first second

structure Alike {α β : Type} [LT α] [LT β] (first second : List α) (one two : List β) : Prop where
  before : first < second ↔ one < two
  equal : first = second ↔ one = two
  behind : second < first ↔ two < one

theorem alike_of_lt [LinearOrder α] [LinearOrder β] {first second : List α} {one two : List β} (less : first < second)
    (other : one < two) : Alike first second one two :=
  ⟨by simp [less,other],by simp [less.ne,other.ne],by simp [less.asymm,other.asymm]⟩

theorem alike_iff_lt [LinearOrder α] [LinearOrder β] {first second : List α} (one two : List β) (less : first < second) :
    Alike first second one two ↔ one < two :=
  ⟨fun alike => alike.before.mp less,alike_of_lt less⟩

theorem Alike.swap [LT α] [LT β] {first second : List α} {one two : List β} (alike : Alike first second one two) :
    Alike second first two one :=
  ⟨alike.behind,⟨fun same => (alike.equal.mp same.symm).symm,fun same => (alike.equal.mpr same.symm).symm⟩,alike.before⟩

theorem Alike.trans {γ : Type} [LT α] [LT β] [LT γ] {first second : List α} {one two : List β} {left right : List γ}
    (alike : Alike first second one two) (other : Alike one two left right) : Alike first second left right :=
  ⟨alike.before.trans other.before,alike.equal.trans other.equal,alike.behind.trans other.behind⟩

theorem Alike.symm [LT α] [LT β] {first second : List α} {one two : List β} (alike : Alike first second one two) :
    Alike one two first second :=
  ⟨alike.before.symm,alike.equal.symm,alike.behind.symm⟩

theorem Signs.iff_alike (signs : Signs sign first second) (one two : List Nat) :
    Signs sign one two ↔ Alike first second one two :=
  ⟨fun other => ⟨signs.before.symm.trans other.before,signs.equal.symm.trans other.equal,signs.behind.symm.trans other.behind⟩,
    fun alike => ⟨signs.before.trans alike.before,signs.equal.trans alike.equal,signs.behind.trans alike.behind⟩⟩

theorem bytes_alike (first second : List Point) : Alike (bytes first) (bytes second) first second :=
  ⟨bytes_lt first second,bytes_injective.eq_iff,bytes_lt second first⟩

theorem pair_lt (above : 0x10000 ≤ point.val) (otherAbove : 0x10000 ≤ other.val) (less : point < other)
    (first second : List Nat) : high point :: low point :: first < high other :: low other :: second := by
  have less : point.val < other.val := less
  simp only [cons_lt_cons_iff,high,low]
  omega

theorem sameOrder_swap (first second : List Point) (different : point ≠ other) :
    SameOrder (point :: first) (other :: second) ↔ SameOrder (other :: second) (point :: first) := by
  rw [SameOrder,SameOrder,if_neg different,if_neg different.symm]
  by_cases basic : point.val < 0x10000 ∧ 0x10000 ≤ other.val
  · rw [if_pos basic,if_neg (by omega),if_pos basic]
  · by_cases otherBasic : other.val < 0x10000 ∧ 0x10000 ≤ point.val
    · rw [if_neg basic,if_pos otherBasic,if_pos otherBasic]
    · rw [if_neg otherBasic,if_neg otherBasic,if_neg basic]

theorem units_alike_of_lt (first second : List Point) (less : point < other) :
    Alike (point :: first) (other :: second) (units (point :: first)) (units (other :: second)) ↔
      SameOrder (point :: first) (other :: second) := by
  have values : point.val < other.val := less
  rw [alike_iff_lt _ _ (cons_lt_cons_iff.mpr (Or.inl less)),SameOrder,if_neg less.ne,units_cons,units_cons]
  obtain ⟨basic,single⟩ | ⟨above,double⟩ := unitsOf_cases point <;>
  obtain ⟨otherBasic,otherSingle⟩ | ⟨otherAbove,otherDouble⟩ := unitsOf_cases other
  · rw [if_neg (by omega),if_neg (by omega),single,otherSingle]
    simp [cons_lt_cons_iff,values]
  · rw [if_pos ⟨basic,otherAbove⟩,single,otherDouble]
    simp [cons_lt_cons_iff]
  · omega
  · rw [if_neg (by omega),if_neg (by omega),double,otherDouble]
    simpa using pair_lt above otherAbove less (units first) (units second)

theorem alike_same (point : Point) (first second : List Point) :
    Alike (point :: first) (point :: second) (units (point :: first)) (units (point :: second)) ↔
      Alike first second (units first) (units second) := by
  have tails (one two : List Point) : point :: one < point :: two ↔ one < two := by simp
  have unitTails (one two : List Point) : units (point :: one) < units (point :: two) ↔ units one < units two := by
    rw [units_cons,units_cons,append_lt_append]
  have equalTails : units (point :: first) = units (point :: second) ↔ units first = units second := by simp
  constructor
  · rintro ⟨before,equal,behind⟩
    rw [tails,unitTails] at before behind
    rw [equalTails,cons_inj_right] at equal
    exact ⟨before,equal,behind⟩
  · rintro ⟨before,equal,behind⟩
    refine ⟨?_,?_,?_⟩
    · rw [tails,unitTails,before]
    · rw [equalTails,cons_inj_right,equal]
    · rw [tails,unitTails,behind]

theorem nil_alike (point : Point) (text : List Point) : Alike [] (point :: text) (units []) (units (point :: text)) := by
  apply alike_of_lt (nil_lt_cons point text)
  obtain ⟨unit,more,equal⟩ := exists_cons_of_ne_nil units_ne_nil
  rw [equal]
  exact nil_lt_cons unit more

theorem units_alike (first second : List Point) : Alike first second (units first) (units second) ↔ SameOrder first second := by
  induction first generalizing second with
  | nil =>
    cases second with
    | nil => exact iff_of_true ⟨by simp,by simp,by simp⟩ trivial
    | cons other second => exact iff_of_true (nil_alike other second) trivial
  | cons point first ih =>
    cases second with
    | nil => exact iff_of_true (nil_alike point first).swap trivial
    | cons other second =>
      obtain less | same | greater := lt_trichotomy point other
      · exact units_alike_of_lt first second less
      · subst same
        rw [alike_same,ih,SameOrder,if_pos rfl]
      · rw [sameOrder_swap first second greater.ne',← units_alike_of_lt second first greater]
        exact ⟨Alike.swap,Alike.swap⟩

theorem strcmp_signs (first second : List Nat) (zeroFree : ∀ byte ∈ first, byte ≠ 0) (otherFree : ∀ byte ∈ second, byte ≠ 0) :
    Signs (strcmp first second) first second := by
  induction first generalizing second with
  | nil =>
    cases second with
    | nil => exact signs_of_ends (by simp [strcmp]) (by simp) (by simp [strcmp])
    | cons b second =>
      have nonzero : b ≠ 0 := otherFree b mem_cons_self
      exact signs_of_ends (by simp) (by simp [strcmp,nonzero]) (by simp [strcmp,nonzero])
  | cons a first ih =>
    have nonzero : a ≠ 0 := zeroFree a mem_cons_self
    cases second with
    | nil => exact signs_of_ends (by simp [strcmp,nonzero]) (by simp [strcmp,nonzero]) (by simp)
    | cons b second =>
      have tails := ih second (fun byte member => zeroFree byte (mem_cons_of_mem _ member))
        (fun byte member => otherFree byte (mem_cons_of_mem _ member))
      rw [strcmp]
      obtain less | same | greater := lt_trichotomy a b
      · rw [if_pos less]
        exact signs_of_ends (fun _ => cons_lt_cons_iff.mpr (Or.inl less)) (by simp) (by simp)
      · subst same
        rw [if_neg nonzero]
        exact ⟨by simp [tails.before],by simp [tails.equal],by simp [tails.behind]⟩
      · rw [if_neg (not_lt.mpr greater.le),if_pos greater]
        exact signs_of_ends (by simp) (by simp) (fun _ => cons_lt_cons_iff.mpr (Or.inl greater))

def visible (text : List Point) : List Point := text.takeWhile (· != 0)

theorem encode_zeroFree (nonzero : point ≠ 0) : ∀ byte ∈ encode point, byte ≠ 0 := by
  have positive : point.val ≠ 0 := fun zero => nonzero (Fin.ext zero)
  intro byte member
  obtain ⟨_,equal⟩ | ⟨_,_,equal⟩ | ⟨_,_,equal⟩ | ⟨_,equal⟩ := encode_cases point
  all_goals
    rw [equal] at member
    simp at member
    omega

theorem sortKey_bytes (text : List Point) : (bytes text).takeWhile (· != 0) = bytes (visible text) := by
  induction text with
  | nil => rfl
  | cons point rest ih =>
    by_cases zero : point = 0
    · subst zero
      rfl
    · have free := encode_zeroFree zero
      rw [bytes_cons,takeWhile_append_of_pos (by simpa using free),ih]
      simp [visible,zero]

theorem visible_zeroFree (text : List Point) : ∀ byte ∈ bytes (visible text), byte ≠ 0 := by
  intro byte member
  obtain ⟨point,inside,spelled⟩ := mem_flatMap.mp member
  have nonzero := all_eq_true.mp all_takeWhile point inside
  exact encode_zeroFree (by simpa using nonzero) byte spelled

theorem visible_alike_of_lt (first second : List Point) (less : point < other) :
    Alike (visible (point :: first)) (visible (other :: second)) (point :: first) (other :: second) := by
  have nonzero : other ≠ 0 := (lt_of_le_of_lt (Fin.zero_le point) less).ne'
  apply alike_of_lt _ (cons_lt_cons_iff.mpr (Or.inl less))
  by_cases zero : point = 0
  · simp [visible,zero,nonzero]
  · simp [visible,zero,nonzero,cons_lt_cons_iff,less]

theorem visible_alike (first second : List Point) : Alike (visible first) (visible second) first second ↔ Unhidden first second := by
  have ends (point : Point) (text : List Point) : Alike (visible []) (visible (point :: text)) [] (point :: text) ↔ point ≠ 0 := by
    constructor
    · rintro alike zero
      have same := alike.equal.mp (by simp [visible,zero])
      simp at same
    · intro nonzero
      exact alike_of_lt (by simp [visible,nonzero]) (nil_lt_cons point text)
  induction first generalizing second with
  | nil =>
    cases second with
    | nil => exact iff_of_true ⟨by simp,by simp,by simp⟩ trivial
    | cons other second => exact ends other second
  | cons point first ih =>
    cases second with
    | nil => exact ⟨fun alike => (ends point first).mp alike.swap,fun nonzero => ((ends point first).mpr nonzero).swap⟩
    | cons other second =>
      rw [Unhidden]
      obtain less | same | greater := lt_trichotomy point other
      · exact iff_of_true (visible_alike_of_lt first second less) (fun same => absurd same less.ne)
      · subst same
        simp only [forall_true_left]
        by_cases zero : point = 0
        · subst zero
          constructor
          · intro alike
            simpa using alike.equal.mp (by simp [visible])
          · rintro rfl
            exact ⟨by simp,by simp,by simp⟩
        · have seen (text : List Point) : visible (point :: text) = point :: visible text := by simp [visible,zero]
          rw [if_neg zero,seen,seen]
          refine Iff.trans ?_ (ih second)
          constructor
          · rintro ⟨before,equal,behind⟩
            exact ⟨by simpa using before,by simpa using equal,by simpa using behind⟩
          · rintro ⟨before,equal,behind⟩
            exact ⟨by simpa using before,by simpa using equal,by simpa using behind⟩
      · exact iff_of_true (visible_alike_of_lt second first greater).swap (fun same => absurd same greater.ne')

theorem svStrcmp_built (left right : Built) :
    Signs (svStrcmp left.value right.value) left.units right.units ↔ SameOrder left.stored right.stored := by
  have bytesAlike := bytes_alike left.stored right.stored
  have signs := svStrcmp_signs left.value right.value
  rw [(value_spells left).bytes,(value_spells right).bytes] at signs
  rw [signs.iff_alike,← units_alike,← units_stored,← units_stored]
  exact ⟨bytesAlike.symm.trans,bytesAlike.trans⟩

theorem sortCompare_built (left right : Built) (ordered : SameOrder left.stored right.stored) :
    Signs (sortCompare left.value right.value) left.units right.units ↔ Unhidden left.stored right.stored := by
  have unitsAlike := (units_alike left.stored right.stored).mpr ordered
  have bytesAlike := bytes_alike (visible left.stored) (visible right.stored)
  have signs := strcmp_signs _ _ (visible_zeroFree left.stored) (visible_zeroFree right.stored)
  rw [sortCompare,sortKey,sortKey,(value_spells left).bytes,(value_spells right).bytes,sortKey_bytes,sortKey_bytes,
    signs.iff_alike,← visible_alike,← units_stored,← units_stored]
  exact ⟨fun alike => (bytesAlike.symm.trans alike).trans unitsAlike.symm,fun alike => (bytesAlike.trans alike).trans unitsAlike⟩

def Trichotomy (left right : Str) : Prop :=
  (svOpRelational .lt left right = true ∧ strictEqValues left right = false ∧ svOpRelational .lt right left = false) ∨
  (svOpRelational .lt left right = false ∧ strictEqValues left right = true ∧ svOpRelational .lt right left = false) ∨
  (svOpRelational .lt left right = false ∧ strictEqValues left right = false ∧ svOpRelational .lt right left = true)

theorem trichotomy {left right : Str} : Trichotomy left right := by
  have less (one two : Str) : svOpRelational .lt one two = true ↔ vstr one < vstr two := by
    rw [svOpRelational,RelOp.holds,decide_eq_true_eq,(svStrcmp_signs one two).before]
  have same := strictEqValues_iff left right
  rw [Trichotomy]
  simp only [← Bool.not_eq_true,less,same]
  obtain is | is | is := lt_trichotomy (vstr left) (vstr right)
  · exact Or.inl ⟨is,is.ne,is.asymm⟩
  · exact Or.inr (Or.inl ⟨is ▸ lt_irrefl _,is,is ▸ lt_irrefl _⟩)
  · exact Or.inr (Or.inr ⟨is.asymm,is.ne',is⟩)

structure OrderedByUnits (left right : Built) : Prop where
  operators : ∀ op : RelOp, svOpRelational op left.value right.value = true ↔ op.Orders left.units right.units
  stringOperators : ∀ op : RelOp, doStringRelational op left.value right.value = true ↔ op.Orders left.units right.units
  sorting : Signs (sortCompare left.value right.value) left.units right.units
  exactlyOne : Trichotomy left.value right.value

theorem string_order_is_of_units (left right : Built) :
    OrderedByUnits left right ↔ SameOrder left.stored right.stored ∧ Unhidden left.stored right.stored := by
  have operators : (∀ op : RelOp, svOpRelational op left.value right.value = true ↔ op.Orders left.units right.units) ↔
      SameOrder left.stored right.stored := by
    simp only [svOpRelational]
    rw [holds_iff_signs,svStrcmp_built]
  constructor
  · intro ordered
    have same := operators.mp ordered.operators
    exact ⟨same,(sortCompare_built left right same).mp ordered.sorting⟩
  · rintro ⟨same,unhidden⟩
    have each := operators.mpr same
    exact ⟨each,fun op => by rw [doStringRelational_eq]; exact each op,(sortCompare_built left right same).mpr unhidden,
      trichotomy⟩

/-- A character above the basic plane comes after the last ones of that plane, and a zero hides what
stands behind it from sorting. -/
theorem order_is_not_of_units :
    let pair := Built.literal [0x1F600]
    let last := Built.literal [0xFF5E]
    (svOpRelational .lt last.value pair.value = true ∧ pair.units < last.units) ∧
      sortCompare (Built.literal [0x61,0,0x62]).value (Built.literal [0x61,0,0x63]).value = 0 := by
  decide

end Ant.Text.Order
