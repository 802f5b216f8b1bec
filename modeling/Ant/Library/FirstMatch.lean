import Mathlib.Data.List.Infix
import Mathlib.Data.List.GetD

/-! The first place of a pattern in a text: what it is, and the search that keeps a table of the
pattern's borders and never goes back in the text. -/
namespace Ant.Library.FirstMatch
open List
variable {α : Type} [DecidableEq α]

def indexOf (pattern : List α) : List α → Option Nat
  | [] => if pattern = [] then some 0 else none
  | letter :: rest => if pattern <+: letter :: rest then some 0 else (indexOf pattern rest).map (· + 1)

variable {place matched : Nat} {pattern read : List α} {table : List Nat}

section
variable {pattern text : List α}

theorem indexOf_eq_some {pattern text : List α} (place : Nat) (found : indexOf pattern text = some place) :
    pattern <+: text.drop place ∧ ∀ earlier < place, ¬ pattern <+: text.drop earlier := by
  induction text generalizing place with
  | nil =>
    simp only [indexOf] at found
    split at found
    · next empty =>
      cases found
      simp [empty]
    · cases found
  | cons letter rest ih =>
    simp only [indexOf] at found
    split at found
    · next here =>
      cases found
      exact ⟨here,fun earlier less => absurd less (by omega)⟩
    · next notHere =>
      obtain ⟨later,inRest,rfl⟩ := Option.map_eq_some_iff.mp found
      obtain ⟨there,first⟩ := ih later inRest
      refine ⟨there,fun earlier less => ?_⟩
      cases earlier with
      | zero => exact notHere
      | succ earlier => exact first earlier (by omega)

theorem indexOf_eq_none (missing : indexOf pattern text = none) (place : Nat) : ¬ pattern <+: text.drop place := by
  induction text generalizing place with
  | nil =>
    simp only [indexOf] at missing
    split at missing
    · cases missing
    · next nonempty => simpa using nonempty
  | cons letter rest ih =>
    simp only [indexOf] at missing
    split at missing
    · cases missing
    · next notHere =>
      have inRest := ih (Option.map_eq_none_iff.mp missing)
      cases place with
      | zero => exact notHere
      | succ place => exact inRest place

theorem indexOf_eq (there : pattern <+: text.drop place) (first : ∀ earlier < place, ¬ pattern <+: text.drop earlier) :
    indexOf pattern text = some place := by
  cases search : indexOf pattern text with
  | none => exact absurd there (indexOf_eq_none search place)
  | some other =>
    obtain ⟨otherThere,otherFirst⟩ := indexOf_eq_some other search
    obtain less | equal | greater := Nat.lt_trichotomy other place
    · exact absurd otherThere (first other less)
    · rw [equal]
    · exact absurd there (otherFirst place greater)

theorem indexOf_eq_none_of (nowhere : ∀ place, ¬ pattern <+: text.drop place) : indexOf pattern text = none := by
  cases search : indexOf pattern text with
  | none => rfl
  | some place => exact absurd (indexOf_eq_some place search).1 (nowhere place)

end

def fallBack (table : List Nat) (pattern : List α) (letter : α) : Nat → Nat → Nat
  | 0,matched => matched
  | fuel+1,matched =>
    if matched ≠ 0 ∧ pattern[matched]? ≠ some letter then fallBack table pattern letter fuel (table.getD (matched - 1) 0) else matched

def advance (table : List Nat) (pattern : List α) (matched : Nat) (letter : α) : Nat :=
  let fitting := fallBack table pattern letter matched matched
  if pattern[fitting]? = some letter then fitting + 1 else fitting

def borders (pattern : List α) : List Nat :=
  ((pattern.drop 1).foldl (fun (table,matched) letter =>
    let next := advance table pattern matched letter
    (table ++ [next],next)) ([0],0)).1

def scan (table : List Nat) (pattern : List α) : List α → Nat → Nat → Option Nat
  | [],_,_ => none
  | letter :: rest,place,matched =>
    let next := advance table pattern matched letter
    if next = pattern.length then some (place + 1 - pattern.length) else scan table pattern rest (place + 1) next

def search (pattern text : List α) : Option Nat := scan (borders pattern) pattern text 0 0

structure Longest (pattern read : List α) (matched : Nat) : Prop where
  within : matched ≤ pattern.length
  ends : pattern.take matched <:+ read
  most : ∀ other ≤ pattern.length, pattern.take other <:+ read → other ≤ matched

omit [DecidableEq α] in
theorem take_succ_suffix_iff (read : List α) (letter : α) {count : Nat} (inside : count < pattern.length) :
    pattern.take (count + 1) <:+ read ++ [letter] ↔ pattern.take count <:+ read ∧ pattern[count]? = some letter := by
  rw [take_succ_eq_append_getElem inside,getElem?_eq_getElem inside]
  constructor
  · rintro ⟨front,equal⟩
    rw [← append_assoc] at equal
    obtain ⟨first,last⟩ := append_inj' equal rfl
    exact ⟨⟨front,first⟩,congrArg some (singleton_inj.mp last)⟩
  · rintro ⟨⟨front,equal⟩,last⟩
    refine ⟨front,?_⟩
    rw [← append_assoc,equal,Option.some.inj last]

def Bordered (pattern : List α) (table : List Nat) : Prop :=
  ∀ place < table.length, Longest pattern ((pattern.drop 1).take place) (table.getD place 0)

omit [DecidableEq α] in
theorem Longest.length_le (longest : Longest pattern read matched) : matched ≤ read.length := by
  have short := longest.ends.length_le
  rw [length_take,Nat.min_eq_left longest.within] at short
  exact short

omit [DecidableEq α] in
theorem border_lt (bordered : Bordered pattern table) (inside : place < table.length) : table.getD place 0 ≤ place := by
  have short := (bordered place inside).length_le
  exact short.trans (length_take_le place _)

theorem fallBack_spec {letter : α} (bordered : Bordered pattern table) {fuel : Nat} (matched : Nat)
    (enough : matched ≤ fuel) (covered : matched ≤ table.length) (short : matched ≤ pattern.length)
    (ends : pattern.take matched <:+ read)
    (most : ∀ other < pattern.length, pattern.take (other + 1) <:+ read ++ [letter] → other ≤ matched) :
    let fitting := fallBack table pattern letter fuel matched
    fitting ≤ matched ∧ pattern.take fitting <:+ read ∧ (fitting = 0 ∨ pattern[fitting]? = some letter) ∧
      ∀ other < pattern.length, pattern.take (other + 1) <:+ read ++ [letter] → other ≤ fitting := by
  induction fuel generalizing matched with
  | zero =>
    have zero : matched = 0 := by omega
    subst zero
    exact ⟨le_rfl,ends,Or.inl rfl,most⟩
  | succ fuel ih =>
    simp only [fallBack]
    split
    · next stuck =>
      have inTable : matched - 1 < table.length := by omega
      have border := bordered (matched - 1) inTable
      have less := border_lt bordered inTable
      have tail : (pattern.drop 1).take (matched - 1) <:+ read := by
        rw [← drop_take]
        exact (drop_suffix 1 _).trans ends
      have next := ih (table.getD (matched - 1) 0) (by omega) (by omega) (by omega) (border.ends.trans tail) ?_
      · exact ⟨by omega,next.2⟩
      · intro other inside fits
        obtain ⟨start,there⟩ := (take_succ_suffix_iff read letter inside).mp fits
        have below : other ≤ matched := most other inside fits
        have different : other ≠ matched := by
          rintro rfl
          exact stuck.2 there
        -- Both starts are ends of the text, so the shorter one ends the longer one's tail.
        apply border.most other inside.le
        apply suffix_of_suffix_length_le start tail
        simp only [length_take,length_drop]
        omega
    · next fits =>
      refine ⟨le_rfl,ends,?_,most⟩
      by_contra neither
      push Not at neither
      exact fits neither

theorem advance_longest (letter : α) (bordered : Bordered pattern table) (covered : matched ≤ table.length)
    (longest : Longest pattern read matched) :
    Longest pattern (read ++ [letter]) (advance table pattern matched letter) := by
  have most : ∀ other < pattern.length, pattern.take (other + 1) <:+ read ++ [letter] → other ≤ matched := by
    intro other inside fits
    exact longest.most other inside.le ((take_succ_suffix_iff read letter inside).mp fits).1
  obtain ⟨below,ends,stopped,upper⟩ :=
    fallBack_spec bordered matched le_rfl covered longest.within longest.ends most
  unfold advance
  simp only
  generalize fallBack table pattern letter matched matched = fitting at *
  split
  · next fits =>
    have inside : fitting < pattern.length := (List.getElem?_eq_some_iff.mp fits).1
    refine ⟨inside,(take_succ_suffix_iff read letter inside).mpr ⟨ends,fits⟩,?_⟩
    intro other within suffix
    cases other with
    | zero => omega
    | succ other => exact Nat.succ_le_succ (upper other within suffix)
  · next stuck =>
    have zero : fitting = 0 := stopped.resolve_right stuck
    subst zero
    refine ⟨Nat.zero_le _,by simp,?_⟩
    intro other within suffix
    cases other with
    | zero => omega
    | succ other =>
      have first : other = 0 := by
        have bound := upper other within suffix
        omega
      subst first
      exact absurd ((take_succ_suffix_iff read letter within).mp suffix).2 stuck

omit [DecidableEq α] in
theorem longest_nil (pattern : List α) : Longest pattern [] 0 := by
  refine ⟨Nat.zero_le _,by simp,?_⟩
  intro other within suffix
  have short := suffix.length_le
  rw [length_take,Nat.min_eq_left within] at short
  exact short

theorem borders_go (pattern read rest : List α) (table : List Nat) (matched : Nat) (split : pattern.drop 1 = read ++ rest)
    (size : table.length = read.length + 1) (bordered : Bordered pattern table) (longest : Longest pattern read matched) :
    let built := (rest.foldl (fun (table,matched) letter =>
      let next := advance table pattern matched letter
      (table ++ [next],next)) (table,matched)).1
    Bordered pattern built ∧ built.length = (pattern.drop 1).length + 1 := by
  induction rest generalizing read table matched with
  | nil =>
    rw [append_nil] at split
    exact ⟨bordered,by rw [split]; exact size⟩
  | cons letter rest ih =>
    have next := advance_longest letter bordered (by have := longest.length_le; omega) longest
    refine ih (read ++ [letter]) _ _ (by simpa using split) (by simp [size]) ?_ next
    intro place inside
    obtain old | new := Nat.lt_or_ge place table.length
    · rw [getD_append _ _ _ _ old]
      exact bordered place old
    · have last : place = read.length + 1 := by
        simp at inside
        omega
      have all : (pattern.drop 1).take place = read ++ [letter] := by
        rw [split,last,take_append]
        simp
      rw [all,getD_append_right _ _ _ _ new,size,last]
      simpa using next

theorem borders_bordered (nonempty : pattern ≠ []) :
    Bordered pattern (borders pattern) ∧ (borders pattern).length = pattern.length := by
  have first : Bordered pattern [0] := by
    intro place inside
    have zero : place = 0 := by
      simp at inside
      exact inside
    subst zero
    simpa using longest_nil pattern
  obtain ⟨bordered,size⟩ := borders_go pattern [] (pattern.drop 1) [0] 0 rfl rfl first (longest_nil pattern)
  refine ⟨bordered,size.trans ?_⟩
  have positive := length_pos_iff.mpr nonempty
  rw [length_drop]
  omega

theorem scan_spec (pattern read rest : List α) (table : List Nat) (matched : Nat) (bordered : Bordered pattern table)
    (size : table.length = pattern.length) (longest : Longest pattern read matched) (short : matched < pattern.length)
    (nothing : ∀ place, place + pattern.length ≤ read.length → ¬ pattern <+: (read ++ rest).drop place) :
    scan table pattern rest read.length matched = indexOf pattern (read ++ rest) := by
  induction rest generalizing read matched with
  | nil =>
    rw [append_nil] at nothing ⊢
    refine (indexOf_eq_none_of fun place there => ?_).symm
    have fits := there.length_le
    rw [length_drop] at fits
    exact nothing place (by omega) there
  | cons letter rest ih =>
    have next := advance_longest letter bordered (by omega) longest
    have joined : read ++ letter :: rest = read ++ [letter] ++ rest := by simp
    rw [joined] at nothing ⊢
    simp only [scan]
    split
    · next whole =>
      rw [whole] at next
      obtain ⟨front,equal⟩ := next.ends
      rw [take_length] at equal
      have sizes := congrArg List.length equal
      simp only [length_append,length_cons,length_nil] at sizes
      have place : read.length + 1 - pattern.length = front.length := by omega
      rw [place]
      refine (indexOf_eq ?_ ?_).symm
      · rw [← equal]
        simp
      · intro earlier less
        exact nothing earlier (by omega)
    · next notWhole =>
      have shorter := ih (read ++ [letter]) (advance table pattern matched letter) next (by have := next.within; omega) ?_
      · simpa using shorter
      · intro place fits
        rw [length_append,length_singleton] at fits
        obtain before | here := Nat.lt_or_ge (place + pattern.length) (read.length + 1)
        · exact nothing place (by omega)
        · -- A place that ends with the new letter would make the whole pattern the longest start.
          rintro ⟨after,equal⟩
          have suffix : pattern <:+ read ++ [letter] := by
            have drop : (read ++ [letter]).drop place = pattern := by
              have taken := congrArg (List.take pattern.length) equal
              rw [take_left,drop_append_of_le_length (by simp; omega),take_append_of_le_length (by simp; omega),
                take_of_length_le (by simp; omega)] at taken
              exact taken.symm
            rw [← drop]
            exact drop_suffix place _
          have whole := next.most pattern.length le_rfl (by rwa [take_length])
          have bound := next.within
          omega

theorem search_eq_indexOf {text : List α} (nonempty : pattern ≠ []) : search pattern text = indexOf pattern text := by
  obtain ⟨bordered,size⟩ := borders_bordered nonempty
  have positive := length_pos_iff.mpr nonempty
  have nothing : ∀ place, place + pattern.length ≤ ([] : List α).length → ¬ pattern <+: ([] ++ text).drop place := by
    intro place fits
    simp at fits
    exact absurd fits.2 nonempty
  exact scan_spec pattern [] text (borders pattern) 0 bordered size (longest_nil pattern) positive nothing

end Ant.Library.FirstMatch
