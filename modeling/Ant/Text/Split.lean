import Ant.Text.Regex

/-! Splitting by a regular expression: the loop that tries every position, and the batch path for ASCII
strings, which searches for the next match. -/
namespace Ant.Text.Split
open Scan Regex List

structure Hit where
  start : Nat
  stop : Nat
  groups : List (Option (Nat × Nat))

/-- The compiled pattern on one string; a group that took no part in a match is `none`. -/
structure Matcher (text : List Nat) where
  sticky : Nat → Option Hit
  bounds : ∀ {place hit}, sticky place = some hit → hit.start = place ∧ place ≤ hit.stop ∧ hit.stop ≤ text.length

abbrev Items := List (Option (List Nat))

def slice (text : List Nat) (start stop : Nat) : List Nat := (text.drop start).take (stop - start)

def captures (text : List Nat) (hit : Hit) : Items := hit.groups.map fun group => group.map fun range => slice text range.1 range.2

def pushAll (limit : Nat) (result : Items) : Items → Items × Bool
  | [] => (result,false)
  | item :: rest => if result.length + 1 = limit then (result ++ [item],true) else pushAll limit (result ++ [item]) rest

def advance (text : List Nat) (unicode : Bool) (place : Nat) : Nat := if unicode then utf8CharLenAt text place else 1

variable {text : List Nat} (matcher : Matcher text) (limit : Nat) {p q : Nat} {result : Items} {hit : Hit}

/-- Without the anchor the engine gives the leftmost match. -/
def Matcher.search (place : Nat) : Option Hit := (range' place (text.length + 1 - place)).findSome? matcher.sticky

variable {matcher limit}

theorem search_bounds (found : matcher.search q = some hit) : q ≤ hit.start ∧ hit.start ≤ hit.stop := by
  obtain ⟨start,member,here⟩ := exists_of_findSome?_eq_some found
  have bounds := matcher.bounds here
  have after := (mem_range'_1.mp member).1
  omega

theorem search_step (inside : q < text.length) : matcher.search q = (matcher.sticky q).or (matcher.search (q + 1)) := by
  unfold Matcher.search
  rw [show text.length + 1 - q = text.length + 1 - (q + 1) + 1 by omega,range'_succ,findSome?_cons]
  cases matcher.sticky q <;> rfl

theorem advance_pos (unicode : Bool) (inside : q < text.length) : 0 < advance text unicode q := by
  unfold advance utf8CharLenAt
  repeat' split
  all_goals omega

theorem advance_ascii (ascii : isAscii text = true) (unicode : Bool) (inside : q < text.length) : advance text unicode q = 1 := by
  have small : text[q] < 0x80 := by simpa using all_eq_true.mp ascii _ (getElem_mem inside)
  have fits : ¬text.length < q + 1 := by omega
  simp [advance,utf8CharLenAt,utf8SequenceLength,getElem?_eq_getElem inside,small,fits]

variable (matcher limit)

def splitLoop (unicode : Bool) (p q : Nat) (result : Items) : Items :=
  if _inside : q < text.length then
    match _found : matcher.sticky q with
    | none => splitLoop unicode p (q + advance text unicode q) result
    | some hit =>
      if min hit.stop text.length = p then splitLoop unicode p (q + advance text unicode q) result
      else
        let pushed := pushAll limit result (some (slice text p q) :: captures text hit)
        if pushed.2 then pushed.1 else splitLoop unicode (min hit.stop text.length) (min hit.stop text.length) pushed.1
  else result ++ [some (text.drop p)]
termination_by 2 * (text.length - q) + if p = q then 0 else 1
decreasing_by
  · have moved := advance_pos unicode _inside
    split <;> split <;> omega
  · have moved := advance_pos unicode _inside
    split <;> split <;> omega
  · have bounds := matcher.bounds _found
    rw [if_pos trivial]
    split <;> omega

def regexpSplitBatchFast (p q : Nat) (result : Items) : Items :=
  if q < text.length then
    match found : matcher.search q with
    | none => result ++ [some (if p = 0 then text else text.drop p)]
    | some hit =>
      if text.length ≤ hit.start then result ++ [some (if p = 0 then text else text.drop p)]
      else if hit.stop = p then regexpSplitBatchFast p (hit.start + 1) result
      else
        let pushed := pushAll limit result (some (slice text p hit.start) :: captures text hit)
        if pushed.2 then pushed.1 else regexpSplitBatchFast hit.stop hit.stop pushed.1
  else result ++ [some (if p = 0 then text else text.drop p)]
termination_by 2 * (text.length - q) + if p = q then 0 else 1
decreasing_by
  all_goals have bounds := search_bounds found
  · split <;> split <;> omega
  · rw [if_pos trivial]
    split <;> omega

/-- `prepared`: the splitter has the built-in `exec` and a plain `lastIndex`. -/
def builtinRegexpSymbolSplit (unicode prepared : Bool) : Items :=
  if limit = 0 then []
  else if text.length = 0 then if (matcher.sticky 0).isNone then [some text] else []
  else if isAscii text && prepared then regexpSplitBatchFast matcher limit 0 0 []
  else splitLoop matcher limit unicode 0 0 []

variable {matcher limit}

theorem fast_eq : regexpSplitBatchFast matcher limit p q result =
    ((matcher.search q).filter (·.start < text.length)).elim (result ++ [some (text.drop p)]) fun hit =>
      if hit.stop = p then regexpSplitBatchFast matcher limit p (hit.start + 1) result
      else
        let pushed := pushAll limit result (some (slice text p hit.start) :: captures text hit)
        if pushed.2 then pushed.1 else regexpSplitBatchFast matcher limit hit.stop hit.stop pushed.1 := by
  have trailing : (if p = 0 then text else text.drop p) = text.drop p := by
    split <;> simp [*]
  rw [regexpSplitBatchFast,trailing]
  cases found : matcher.search q with
  | none => simp
  | some hit =>
    have after := (search_bounds found).1
    simp only [Option.filter_some,decide_eq_true_eq]
    by_cases before : hit.start < text.length
    · rw [if_pos (after.trans_lt before),if_neg before.not_ge,if_pos before,Option.elim_some]
    · rw [if_pos (Nat.le_of_not_lt before),if_neg before,Option.elim_none,ite_self]

theorem fast_here (inside : q < text.length) (found : matcher.sticky q = some hit) :
    regexpSplitBatchFast matcher limit p q result =
      if min hit.stop text.length = p then regexpSplitBatchFast matcher limit p (q + 1) result
      else
        let pushed := pushAll limit result (some (slice text p q) :: captures text hit)
        if pushed.2 then pushed.1
        else regexpSplitBatchFast matcher limit (min hit.stop text.length) (min hit.stop text.length) pushed.1 := by
  obtain ⟨start,-,within⟩ := matcher.bounds found
  rw [fast_eq,search_step inside,found,Option.some_or,Option.filter_some,start,if_pos (decide_eq_true inside),Option.elim_some,
    min_eq_left within,start]

theorem splitLoop_eq_fast (ascii : isAscii text = true) (unicode : Bool) :
    splitLoop matcher limit unicode p q result = regexpSplitBatchFast matcher limit p q result := by
  fun_induction splitLoop matcher limit unicode p q result with
  | case1 p q result inside missed ih =>
    rw [ih,advance_ascii ascii unicode inside,fast_eq,fast_eq,search_step inside,missed,Option.none_or]
  | case2 q result inside hit found ih => rw [ih,advance_ascii ascii unicode inside,fast_here inside found,if_pos rfl]
  | case3 p q result inside hit found moved pushed full => rw [fast_here inside found,if_neg moved,if_pos full]
  | case4 p q result inside hit found moved pushed more ih => rw [ih,fast_here inside found,if_neg moved,if_neg more]
  | case5 p q result outside =>
    rw [regexpSplitBatchFast,if_neg outside]
    split <;> simp [*]

/-- From every place on, the batch path gives the array of the generic loop for an ASCII string, so whether it may be taken
makes no difference. -/
theorem split_fast_eq_generic (matcher : Matcher text) (limit : Nat) (unicode prepared : Bool) :
    (isAscii text = true → ∀ p q result,
      regexpSplitBatchFast matcher limit p q result = splitLoop matcher limit unicode p q result) ∧
    builtinRegexpSymbolSplit matcher limit unicode prepared = builtinRegexpSymbolSplit matcher limit unicode false := by
  refine ⟨fun ascii p q result => (splitLoop_eq_fast ascii unicode).symm,?_⟩
  unfold builtinRegexpSymbolSplit
  by_cases ascii : isAscii text = true
  · rw [splitLoop_eq_fast ascii,ite_self,ite_self]
  · simp [ascii]

end Ant.Text.Split
