import Mathlib.Data.List.Basic
import Mathlib.Data.List.Sort

/-! Bottom-up merge sort: passes over a list that merge neighbouring runs of one width, with the pairs
that the merges compare. -/
namespace Ant.Library.MergePasses
open List

variable {α β : Type} (le : α → α → Bool)

def weave (x : α) (rest : List α → List α) : List α → List α
  | [] => x :: rest []
  | y :: right => if le x y then x :: rest (y :: right) else y :: weave x rest right

/-- Of equal items the left one comes first. -/
def merge : List α → List α → List α
  | [],right => right
  | x :: left,right => weave le x (merge left) right

theorem merge_eq (left right : List α) : merge le left right = left.merge right le := by
  induction left generalizing right with
  | nil => simp [merge]
  | cons x left ihLeft =>
    induction right with
    | nil => simp [merge,weave,ihLeft]
    | cons y right ihRight =>
      rw [merge] at ihRight ⊢
      rw [weave,cons_merge_cons,ihLeft,ihRight]

/-- One pass: the runs of the width are merged two by two, and a run without a partner stays. -/
def pass (width : Nat) : Nat → List α → List α
  | 0,items => items
  | fuel+1,items =>
    if items.length ≤ width then items
    else merge le (items.take width) ((items.drop width).take width) ++ pass width fuel (items.drop (width * 2))

def passes : Nat → Nat → List α → List α
  | 0,_,items => items
  | fuel+1,width,items => if width < items.length then passes fuel (width * 2) (pass le width items.length items) else items

def sort (items : List α) : List α := passes le items.length 1 items

def mergeRuns : List (List α) → List (List α)
  | first :: second :: runs => merge le first second :: mergeRuns runs
  | runs => runs

def rounds : Nat → List (List α) → List (List α)
  | 0,runs => runs
  | count+1,runs => rounds count (mergeRuns le runs)

theorem mergeRuns_cons (first second : List α) (runs : List (List α)) :
    mergeRuns le (first :: second :: runs) = first.merge second le :: mergeRuns le runs := by
  rw [mergeRuns,merge_eq]

variable {runs : List (List α)} {items : List α}

theorem length_of_few (few : ∀ first second rest, runs = first :: second :: rest → False) : runs.length ≤ 1 := by
  cases runs with
  | nil => simp
  | cons run runs =>
    cases runs with
    | nil => simp
    | cons other runs => exact (few run other runs rfl).elim

/-- Two runs at a time, as they are merged. -/
@[elab_as_elim]
theorem twoRuns_induction {motive : List (List α) → Prop}
    (case1 : ∀ first second runs, motive runs → motive (first :: second :: runs))
    (case2 : ∀ runs, (∀ first second rest, runs = first :: second :: rest → False) → motive runs) : ∀ runs, motive runs
  | [] => case2 [] (fun _ _ _ same => by contradiction)
  | [run] => case2 [run] (fun _ _ _ same => by simp at same)
  | first :: second :: runs => case1 first second runs (twoRuns_induction case1 case2 runs)

theorem mergeRuns_few (few : runs.length ≤ 1) : mergeRuns le runs = runs := by
  cases runs with
  | nil => rfl
  | cons run runs =>
    cases runs with
    | nil => rfl
    | cons other runs => simp at few

def Chunks (width : Nat) : List (List α) → Prop
  | [] => True
  | [run] => 0 < run.length ∧ run.length ≤ width
  | run :: runs => run.length = width ∧ Chunks width runs

section
variable {width : Nat} {run : List α} {runs : List (List α)}

theorem Chunks.nonempty (positive : 0 < width) (chunks : Chunks width (run :: runs)) :
    0 < run.length ∧ run.length ≤ width := by
  cases runs with
  | nil => exact chunks
  | cons other runs => exact ⟨chunks.1 ▸ positive,chunks.1.le⟩

theorem Chunks.tail (chunks : Chunks width (run :: runs)) : Chunks width runs := by
  cases runs with
  | nil => trivial
  | cons other runs => exact chunks.2

theorem Chunks.mergeRuns (positive : 0 < width) (chunks : Chunks width runs) : Chunks (width * 2) (mergeRuns le runs) := by
  induction runs using twoRuns_induction with
  | case1 first second runs ih =>
    have full : first.length = width := chunks.1
    have rest : Chunks width (second :: runs) := chunks.2
    have later := ih rest.tail
    have some := rest.nonempty positive
    rw [mergeRuns_cons]
    cases runs with
    | nil =>
      refine ⟨?_,?_⟩ <;> rw [length_merge] <;> omega
    | cons third runs =>
      have secondFull : second.length = width := rest.1
      have whole : (first.merge second le).length = width * 2 := by rw [length_merge]; omega
      cases merged : MergePasses.mergeRuns le (third :: runs) with
      | nil => exact ⟨by omega,by omega⟩
      | cons run others => exact ⟨whole,merged ▸ later⟩
  | case2 runs few =>
    cases runs with
    | nil => trivial
    | cons run runs =>
      cases runs with
      | nil => exact ⟨chunks.1,by have := chunks.2; omega⟩
      | cons other runs => exact absurd rfl (few run other runs)

theorem pass_flatten (positive : 0 < width) {runs : List (List α)} (chunks : Chunks width runs) (fuel : Nat)
    (enough : runs.length ≤ fuel) : pass le width fuel runs.flatten = (mergeRuns le runs).flatten := by
  induction runs using twoRuns_induction generalizing fuel with
  | case1 first second runs ih =>
    obtain ⟨fuel,rfl⟩ : ∃ less, fuel = less + 1 := ⟨fuel - 1,by simp at enough; omega⟩
    have full : first.length = width := chunks.1
    have rest : Chunks width (second :: runs) := chunks.2
    have some := rest.nonempty positive
    have later := ih rest.tail fuel (by simp at enough; omega)
    have long : ¬ (first :: second :: runs).flatten.length ≤ width := by simp; omega
    rw [pass,if_neg long,merge_eq,mergeRuns_cons,flatten_cons,flatten_cons,flatten_cons,← later]
    have left : (first ++ (second ++ runs.flatten)).take width = first := by rw [← full,take_left]
    have behind : (first ++ (second ++ runs.flatten)).drop width = second ++ runs.flatten := by rw [← full,drop_left]
    rw [left,show width * 2 = width + width by omega,← drop_drop,behind]
    cases runs with
    | nil =>
      rw [flatten_nil,append_nil,take_of_length_le some.2,drop_of_length_le some.2]
    | cons third runs =>
      have full : second.length = width := rest.1
      rw [← full,take_left,drop_left]
  | case2 runs few =>
    have short : runs.flatten.length ≤ width := by
      cases runs with
      | nil => simp
      | cons run runs =>
        cases runs with
        | nil => simpa using chunks.2
        | cons other runs => exact absurd rfl (few run other runs)
    rw [mergeRuns_few le (length_of_few few)]
    cases fuel with
    | zero => rfl
    | succ fuel => rw [pass,if_pos short]

theorem Chunks.length_le (positive : 0 < width) (chunks : Chunks width runs) : runs.length ≤ runs.flatten.length := by
  induction runs with
  | nil => simp
  | cons run runs ih =>
    have later := ih chunks.tail
    have some := chunks.nonempty positive
    simp only [flatten_cons,length_append,length_cons]
    omega

theorem rounds_few (count : Nat) {runs : List (List α)} (few : runs.length ≤ 1) : rounds le count runs = runs := by
  induction count with
  | zero => rfl
  | succ count ih => rw [rounds,mergeRuns_few le few,ih]

theorem passes_flatten (fuel : Nat) (positive : 0 < width) (runs : List (List α)) (chunks : Chunks width runs) :
    passes le fuel width runs.flatten = (rounds le fuel runs).flatten := by
  induction fuel generalizing width runs with
  | zero => rfl
  | succ fuel ih =>
    rw [passes]
    split
    · rw [pass_flatten le positive chunks _ (chunks.length_le positive),
        ih (by omega) (mergeRuns le runs) (chunks.mergeRuns le positive),rounds]
    · next short =>
      have few : runs.length ≤ 1 := by
        cases runs with
        | nil => simp
        | cons run runs =>
          cases runs with
          | nil => simp
          | cons other runs =>
            have full : run.length = width := chunks.1
            have some := (Chunks.tail chunks).nonempty positive
            simp at short
            omega
      rw [rounds_few le _ few]

end

theorem chunks_singletons (items : List α) : Chunks 1 (items.map fun item => [item]) := by
  induction items with
  | nil => trivial
  | cons item items ih =>
    cases items with
    | nil => exact ⟨by simp,by simp⟩
    | cons other items => exact ⟨rfl,ih⟩

theorem flatten_singletons (items : List α) : (items.map fun item => [item]).flatten = items := by
  induction items with
  | nil => rfl
  | cons item items ih => simpa using ih

theorem sort_eq_rounds (items : List α) : sort le items = (rounds le items.length (items.map fun item => [item])).flatten := by
  have flat := passes_flatten le items.length Nat.one_pos _ (chunks_singletons items)
  rwa [flatten_singletons] at flat

theorem mergeRuns_length (runs : List (List α)) : (mergeRuns le runs).length ≤ (runs.length + 1) / 2 := by
  induction runs using twoRuns_induction with
  | case1 first second runs ih => simp [mergeRuns_cons]; omega
  | case2 runs few =>
    have short := length_of_few few
    rw [mergeRuns_few le short]
    omega

theorem rounds_length (count : Nat) (runs : List (List α)) (few : runs.length ≤ count + 1) : (rounds le count runs).length ≤ 1 := by
  induction count generalizing runs with
  | zero => exact few
  | succ count ih =>
    apply ih
    have shorter := mergeRuns_length le runs
    omega

theorem mergeRuns_perm (runs : List (List α)) : (mergeRuns le runs).flatten.Perm runs.flatten := by
  induction runs using twoRuns_induction with
  | case1 first second runs ih =>
    simp only [mergeRuns_cons,flatten_cons]
    rw [← append_assoc]
    exact (merge_perm_append le).append ih
  | case2 runs few => rw [mergeRuns_few le (length_of_few few)]

theorem rounds_perm (count : Nat) (runs : List (List α)) : (rounds le count runs).flatten.Perm runs.flatten := by
  induction count generalizing runs with
  | zero => rfl
  | succ count ih => exact (ih (mergeRuns le runs)).trans (mergeRuns_perm le runs)

section Order
variable (before : α → α → Prop)

/-- Runs in order, and from one run to the next what `across` asks for. -/
def Sorted (across : α → α → Prop) (runs : List (List α)) : Prop :=
  (∀ run ∈ runs, run.Pairwise before) ∧ runs.Pairwise fun run other => ∀ x ∈ run, ∀ y ∈ other, across x y

theorem merge_pairwise (transitive : ∀ x y z, before x y → before y z → before x z) (left right : List α)
    (first : left.Pairwise before) (second : right.Pairwise before)
    (decides : ∀ x ∈ left, ∀ y ∈ right, if le x y then before x y else before y x) : (left.merge right le).Pairwise before := by
  induction left generalizing right with
  | nil => simpa using second
  | cons x left ihLeft =>
    induction right with
    | nil => simpa using first
    | cons y right ihRight =>
      rw [cons_merge_cons]
      have firstHead := (pairwise_cons.mp first).1
      have secondHead := (pairwise_cons.mp second).1
      have decided := decides x mem_cons_self y mem_cons_self
      split
      · next takes =>
        rw [if_pos takes] at decided
        refine List.Pairwise.cons ?_ (ihLeft (y :: right) first.tail second
          (fun u member => decides u (mem_cons_of_mem x member)))
        intro z member
        rw [mem_merge,mem_cons] at member
        obtain inLeft | rfl | inRight := member
        · exact firstHead z inLeft
        · exact decided
        · exact transitive x y z decided (secondHead z inRight)
      · next takes =>
        rw [if_neg takes] at decided
        refine List.Pairwise.cons ?_ (ihRight second.tail (fun u member v later => decides u member v (mem_cons_of_mem y later)))
        intro z member
        rw [mem_merge,mem_cons] at member
        obtain (rfl | inLeft) | inRight := member
        · exact decided
        · exact transitive y x z decided (firstHead z inLeft)
        · exact secondHead z inRight

variable (across : α → α → Prop) (transitive : ∀ x y z, before x y → before y z → before x z)
  (decides : ∀ x y, across x y → if le x y then before x y else before y x)
include transitive decides

theorem Sorted.mergeRuns (sorted : Sorted before across runs) : Sorted before across (mergeRuns le runs) := by
  induction runs using twoRuns_induction with
  | case1 first second runs ih =>
    obtain ⟨each,apart⟩ := sorted
    simp only [mem_cons,forall_eq_or_imp] at each
    rw [pairwise_cons,pairwise_cons] at apart
    obtain ⟨fromFirst,fromSecond,rest⟩ := apart
    obtain ⟨eachLater,apartLater⟩ := ih ⟨each.2.2,rest⟩
    have merged : (first.merge second le).Pairwise before := merge_pairwise le before transitive first second each.1 each.2.1
      (fun x inFirst y inSecond => decides x y (fromFirst second mem_cons_self x inFirst y inSecond))
    have members (run : List α) (member : run ∈ MergePasses.mergeRuns le runs) (y : α) (inside : y ∈ run) : ∃ run ∈ runs, y ∈ run := by
      have flat : y ∈ (MergePasses.mergeRuns le runs).flatten := mem_flatten.mpr ⟨run,member,inside⟩
      exact mem_flatten.mp ((mergeRuns_perm le runs).mem_iff.mp flat)
    refine ⟨?_,?_⟩
    · rw [mergeRuns_cons]
      simp only [mem_cons,forall_eq_or_imp]
      exact ⟨merged,eachLater⟩
    · rw [mergeRuns_cons,pairwise_cons]
      refine ⟨?_,apartLater⟩
      intro run member x inMerged y inside
      obtain ⟨old,oldMember,oldInside⟩ := members run member y inside
      rw [mem_merge] at inMerged
      cases inMerged with
      | inl inFirst => exact fromFirst old (mem_cons_of_mem _ oldMember) x inFirst y oldInside
      | inr inSecond => exact fromSecond old oldMember x inSecond y oldInside
  | case2 runs few =>
    rw [mergeRuns_few le (length_of_few few)]
    exact sorted

theorem Sorted.rounds (count : Nat) (sorted : Sorted before across runs) : Sorted before across (rounds le count runs) := by
  induction count generalizing runs with
  | zero => exact sorted
  | succ count ih => exact ih (sorted.mergeRuns le before across transitive decides)

theorem sort_pairwise (placed : items.Pairwise across) : (sort le items).Pairwise before := by
  have start : Sorted before across (items.map fun item => [item]) := by
    refine ⟨by simp,?_⟩
    rw [pairwise_map]
    exact placed.imp fun related x first y second => by
      rw [mem_singleton] at first second
      rwa [first,second]
  have result := start.rounds le before across transitive decides items.length
  have few := rounds_length le items.length (items.map fun item => [item]) (by simp)
  rw [sort_eq_rounds]
  cases runs : rounds le items.length (items.map fun item => [item]) with
  | nil => simp
  | cons run others =>
    cases others with
    | nil => simpa using result.1 run (by simp [runs])
    | cons other others => simp [runs] at few

end Order

theorem sort_perm (items : List α) : (sort le items).Perm items := by
  have result := rounds_perm le items.length (items.map fun item => [item])
  rwa [← sort_eq_rounds,flatten_singletons] at result

section Asks

def weaveAsks (x : α) (rest : List α → List (α × α)) : List α → List (α × α)
  | [] => []
  | y :: right => (x,y) :: (if le x y then rest (y :: right) else weaveAsks x rest right)

def mergeAsks : List α → List α → List (α × α)
  | [],_ => []
  | x :: left,right => weaveAsks le x (mergeAsks left) right

theorem mergeAsks_cons (x y : α) (left right : List α) :
    mergeAsks le (x :: left) (y :: right) = (x,y) :: (if le x y then mergeAsks le left (y :: right) else mergeAsks le (x :: left) right) := rfl

theorem mergeAsks_nil (left : List α) : mergeAsks le left [] = [] := by cases left <;> rfl

def runsAsks : List (List α) → List (α × α)
  | first :: second :: runs => mergeAsks le first second ++ runsAsks runs
  | _ => []

def roundsAsks : Nat → List (List α) → List (α × α)
  | 0,_ => []
  | count+1,runs => runsAsks le runs ++ roundsAsks count (mergeRuns le runs)

def asks (items : List α) : List (α × α) := roundsAsks le items.length (items.map fun item => [item])

def ordered (pair : α × α) : List α := if le pair.1 pair.2 then [pair.1,pair.2] else [pair.2,pair.1]

theorem mergeAsks_ordered (left right : List α) : ∀ pair ∈ mergeAsks le left right, (ordered le pair).Sublist (left.merge right le) := by
  induction left generalizing right with
  | nil => simp [mergeAsks]
  | cons x left ihLeft =>
    induction right with
    | nil => simp [mergeAsks_nil]
    | cons y right ihRight =>
      intro pair member
      rw [mergeAsks_cons,mem_cons] at member
      rw [cons_merge_cons]
      by_cases takes : le x y
      · rw [if_pos takes] at member ⊢
        cases member with
        | inl here =>
          subst here
          rw [ordered,if_pos takes]
          exact (singleton_sublist.mpr (by simp [mem_merge])).cons_cons x
        | inr later => exact (ihLeft (y :: right) pair later).cons x
      · rw [if_neg takes] at member ⊢
        cases member with
        | inl here =>
          subst here
          rw [ordered,if_neg takes]
          exact (singleton_sublist.mpr (by simp [mem_merge])).cons_cons y
        | inr later => exact (ihRight pair later).cons y

theorem left_sublist_merge (left right : List α) : left.Sublist (left.merge right le) ∧ right.Sublist (left.merge right le) := by
  induction left generalizing right with
  | nil => simp
  | cons x left ihLeft =>
    induction right with
    | nil => simp
    | cons y right ihRight =>
      rw [cons_merge_cons]
      split
      · exact ⟨(ihLeft (y :: right)).1.cons_cons x,(ihLeft (y :: right)).2.cons x⟩
      · exact ⟨ihRight.1.cons y,ihRight.2.cons_cons y⟩

theorem mergeRuns_keeps : ∀ run ∈ runs, ∃ merged ∈ mergeRuns le runs, run.Sublist merged := by
  induction runs using twoRuns_induction with
  | case1 first second runs ih =>
    have both := left_sublist_merge le first second
    intro run member
    simp only [mem_cons] at member
    obtain rfl | rfl | later := member
    · exact ⟨_,by simp [mergeRuns_cons],both.1⟩
    · exact ⟨_,by simp [mergeRuns_cons],both.2⟩
    · obtain ⟨merged,inside,kept⟩ := ih run later
      exact ⟨merged,by simp [mergeRuns_cons,inside],kept⟩
  | case2 runs few =>
    intro run member
    rw [mergeRuns_few le (length_of_few few)]
    exact ⟨run,member,List.Sublist.refl run⟩

theorem rounds_keep {count : Nat} (runs : List (List α)) : ∀ run ∈ runs, run.Sublist (rounds le count runs).flatten := by
  induction count generalizing runs with
  | zero => exact fun run member => sublist_flatten_of_mem member
  | succ count ih =>
    intro run member
    obtain ⟨merged,inside,kept⟩ := mergeRuns_keeps le run member
    exact kept.trans (ih (mergeRuns le runs) merged inside)

theorem runsAsks_ordered : ∀ pair ∈ runsAsks le runs, ∃ merged ∈ mergeRuns le runs, (ordered le pair).Sublist merged := by
  induction runs using runsAsks.induct with
  | case1 first second runs ih =>
    intro pair member
    rw [runsAsks,mem_append] at member
    cases member with
    | inl here => exact ⟨_,by simp [mergeRuns_cons],mergeAsks_ordered le first second pair here⟩
    | inr later =>
      obtain ⟨merged,inside,kept⟩ := ih pair later
      exact ⟨merged,by simp [mergeRuns_cons,inside],kept⟩
  | case2 runs few =>
    intro pair member
    unfold runsAsks at member
    split at member
    · exact (few _ _ _ rfl).elim
    · simp at member

theorem asks_ordered : ∀ pair ∈ asks le items, (ordered le pair).Sublist (sort le items) := by
  have each (count : Nat) (runs : List (List α)) : ∀ pair ∈ roundsAsks le count runs, (ordered le pair).Sublist (rounds le count runs).flatten := by
    induction count generalizing runs with
    | zero => simp [roundsAsks]
    | succ count ih =>
      intro pair member
      rw [roundsAsks,mem_append] at member
      cases member with
      | inl here =>
        obtain ⟨merged,inside,kept⟩ := runsAsks_ordered le pair here
        exact kept.trans (rounds_keep le (mergeRuns le runs) merged inside)
      | inr later => exact ih (mergeRuns le runs) pair later
  rw [sort_eq_rounds]
  exact each _ _

variable (other : α → α → Bool)

theorem merge_congr (left right : List α) (agree : ∀ pair ∈ mergeAsks le left right, le pair.1 pair.2 = other pair.1 pair.2) :
    left.merge right le = left.merge right other := by
  induction left generalizing right with
  | nil => simp
  | cons x left ihLeft =>
    induction right with
    | nil => simp
    | cons y right ihRight =>
      rw [mergeAsks_cons] at agree
      simp only [mem_cons,forall_eq_or_imp] at agree
      rw [cons_merge_cons,cons_merge_cons,← agree.1]
      by_cases takes : le x y
      · rw [if_pos takes] at agree ⊢
        rw [if_pos takes,ihLeft (y :: right) agree.2]
      · rw [if_neg takes] at agree ⊢
        rw [if_neg takes,ihRight agree.2]

theorem mergeRuns_congr (runs : List (List α)) (agree : ∀ pair ∈ runsAsks le runs, le pair.1 pair.2 = other pair.1 pair.2) :
    mergeRuns le runs = mergeRuns other runs := by
  induction runs using twoRuns_induction with
  | case1 first second runs ih =>
    simp only [runsAsks,mem_append] at agree
    rw [mergeRuns_cons,mergeRuns_cons,merge_congr le other first second (fun pair member => agree pair (Or.inl member)),
      ih (fun pair member => agree pair (Or.inr member))]
  | case2 runs few => rw [mergeRuns_few le (length_of_few few),mergeRuns_few other (length_of_few few)]

theorem sort_congr (items : List α) (agree : ∀ pair ∈ asks le items, le pair.1 pair.2 = other pair.1 pair.2) :
    sort le items = sort other items := by
  have each (count : Nat) (runs : List (List α)) (agree : ∀ pair ∈ roundsAsks le count runs, le pair.1 pair.2 = other pair.1 pair.2) :
      rounds le count runs = rounds other count runs := by
    induction count generalizing runs with
    | zero => rfl
    | succ count ih =>
      simp only [roundsAsks,mem_append] at agree
      rw [rounds,rounds,ih (mergeRuns le runs) (fun pair member => agree pair (Or.inr member)),
        mergeRuns_congr le other runs (fun pair member => agree pair (Or.inl member))]
  rw [sort_eq_rounds,sort_eq_rounds,each _ _ agree]

end Asks

theorem map_sort (key : α → β) (keyLe : β → β → Bool) (same : ∀ x y, le x y = keyLe (key x) (key y)) (items : List α) :
    (sort le items).map key = sort keyLe (items.map key) := by
  have runs (runs : List (List α)) : (mergeRuns le runs).map (List.map key) = mergeRuns keyLe (runs.map (List.map key)) := by
    induction runs using twoRuns_induction with
    | case1 first second runs ih =>
      simp only [mergeRuns_cons,map_cons]
      rw [ih,map_merge (fun x _ y _ => same x y)]
    | case2 runs few =>
      have short := length_of_few few
      rw [mergeRuns_few le short,mergeRuns_few keyLe (by simpa using short)]
  have all (count : Nat) (start : List (List α)) : (rounds le count start).map (List.map key) = rounds keyLe count (start.map (List.map key)) := by
    induction count generalizing start with
    | zero => rfl
    | succ count ih => rw [rounds,rounds,ih,runs]
  rw [sort_eq_rounds,sort_eq_rounds,map_flatten,all]
  simp [Function.comp_def]

end Ant.Library.MergePasses
