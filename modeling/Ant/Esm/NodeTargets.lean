import Ant.Esm.PackageMap

/-! The choice of a target as Node's resolution algorithm makes it, and maps for which the loader
makes the same one. -/
namespace Ant.Esm.NodeTargets
open Library.ByteLayout Library.ByteString Library.OrderedMap Library.JsonTree Library.Fallback List
open PackageMap

variable {ρ : Type}

def replaceStars (capture pattern : Bytes) : Bytes :=
  pattern.flatMap fun char => if char = star then capture else [char]

/-- What following a target of the document can come to: a string, a `null` that forbids the request, no condition
that holds, a value that is no target, which an array passes over, or an error that it does not pass over. -/
inductive Outcome where
  | found (target : Target)
  | null
  | undefined
  | invalid
  | abort
  deriving DecidableEq,Repr

def Outcome.under (step : Step) : Outcome → Outcome
  | .found target => .found (target.under step)
  | other => other

def unescape : Bytes → Bytes
  | [] => []
  | char :: high :: low :: after =>
    match char == 37,digit 16 high,digit 16 low with
    | true,some first,some second => UInt8.ofNat (16 * first + second) :: unescape after
    | _,_,_ => char :: unescape (high :: low :: after)
  | char :: rest => char :: unescape rest

/-- No segment is empty, `.`, `..` or `node_modules`, in any case and with escapes. -/
def validPath (text : Bytes) : Bool :=
  (split slash (text.map fun char => if char = 92 then slash else char)).all fun segment =>
    !([[],[dot],[dot,dot],ascii "node_modules"].contains ((unescape segment).map toLower))

def hasScheme (text : Bytes) : Bool :=
  let letter (char : UInt8) : Bool := 97 ≤ toLower char && toLower char ≤ 122
  let scheme := text.takeWhile fun char => letter char || (digit 10 char).isSome || [43,45,46].contains char
  scheme.head?.any letter && (text.drop scheme.length).head? == some 58

/-- Only `imports` may name other packages. -/
def nodeText (search : Search ρ) (capture : Option Bytes) (value : Bytes) : Outcome :=
  if relative value then
    if validPath (value.drop 2) then
      match capture with
      | none => .found ⟨[],value.drop 2,false⟩
      | some capture =>
        if validPath capture then .found ⟨[],replaceStars capture (value.drop 2),false⟩ else .abort
    else .invalid
  else if !search.allowBareSpecifiers || value.take 3 == ascii "../" || value.head? == some slash || hasScheme value then
    .invalid
  else if value = [] then .abort
  else .found ⟨[],(capture.map fun capture => replaceStars capture value).getD value,true⟩

def active (search : Search ρ) (key : Bytes) : Bool := key == default_ || (conditions search).contains key

def isIndex (key : Bytes) : Bool := (parseUnsigned 32 10 key).any fun index => index < 4294967295 && decimal index == key

def indexed (members : Members) : Bool := members.keys.any isIndex

mutual

/-- The outcome for a target: an array gives the first string, and otherwise the last reason not to
give one; an object gives what its first member with an active condition gives. -/
def nodeTarget (search : Search ρ) (capture : Option Bytes) : Value → Outcome
  | .null => .null
  | .scalar => .invalid
  | .text value => nodeText search capture value
  | .array .nil => .null
  | .array (.cons item rest) => nodeItems search capture 0 .undefined (.cons item rest)
  | .object members => if indexed members then .abort else nodeMembers search capture members

def nodeItems (search : Search ρ) (capture : Option Bytes) (position : Nat) (last : Outcome) : Items → Outcome
  | .nil => last
  | .cons item rest =>
    match nodeTarget search capture item with
    | .found target => .found (target.under (.index position))
    | .abort => .abort
    | .undefined => nodeItems search capture (position+1) last rest
    | .null => nodeItems search capture (position+1) .null rest
    | .invalid => nodeItems search capture (position+1) .invalid rest

def nodeMembers (search : Search ρ) (capture : Option Bytes) : Members → Outcome
  | .nil => .undefined
  | .cons key value rest =>
    if active search key then
      match nodeTarget search capture value with
      | .undefined => nodeMembers search capture rest
      | outcome => outcome.under (.key key)
    else nodeMembers search capture rest

end

def Outcome.file (search : Search ρ) : Outcome → Option Target
  | .found target => if leads search target then some target else none
  | _ => none

def picked (search : Search ρ) (members : Members) (request : Bytes) : Option Target :=
  (triedFor search members request).find? (leads search)

section Every
variable (search : Search ρ) (leaf : Value → Bool) (object : Members → Bool)

mutual

/-- Whether all that can be reached through active conditions meets a test, leaf by leaf and object by object. -/
def every : Value → Bool
  | .array (.cons item rest) => every item && everyItem rest
  | .object members => object members && everyMember members
  | other => leaf other

def everyItem : Items → Bool
  | .nil => true
  | .cons item rest => every item && everyItem rest

def everyMember : Members → Bool
  | .nil => true
  | .cons key value rest => (!active search key || every value) && everyMember rest

end

end Every

section Shapes
variable (search : Search ρ) (capture : Bytes) (nodeCapture : Option Bytes)

def noTarget : Value → Bool
  | .text value => (targetOf search capture value).isNone && nodeText search nodeCapture value == .invalid
  | _ => true

/-- Nothing below the value is a target. -/
def vacant : Value → Bool := every search (noTarget search capture nodeCapture) (!indexed ·)

/-- Objects and arrays with nothing in them that an active condition selects. -/
def blank : Value → Bool := every search (fun _ => false) (!indexed ·)

/-- A string that leads to a file, has nothing that Node forbids, and has no star, or one for a pattern's capture. -/
def sound (value : Bytes) : Bool :=
  !value.contains 0 &&
  if relative value then
    validPath (value.drop 2) && nodeCapture.all validPath &&
    (value.count star ≤ if nodeCapture = some capture then 1 else 0) &&
    leads search ⟨[],replaceStar (value.drop 2) capture,false⟩
  else search.allowBareSpecifiers && value.take 3 != ascii "../" && value.head? != some slash && value.head? != some hash &&
    !hasScheme value && value != [] && !value.contains star && leads search ⟨[],value,true⟩

mutual

/-- The search is settled by one string: what comes before it in arrays is no target, and in objects the first member
that is selected comes first in the order of the conditions too. -/
def sure : Value → Bool
  | .text value => sound search capture nodeCapture value
  | .array items => sureItems items
  | .object members => !indexed members && sureMembers members members
  | _ => false

def sureItems : Items → Bool
  | .nil => false
  | .cons item rest => if vacant search capture nodeCapture item then sureItems rest else sure item

def sureMembers (whole : Members) : Members → Bool
  | .nil => false
  | .cons key value rest =>
    if active search key && !blank search value then
      ((conditions search).takeWhile (· ≠ key)).all (fun name =>
        (whole.get name).all (vacant search capture nodeCapture)) && sure value
    else sureMembers whole rest

end

end Shapes

theorem default_mem {search : Search ρ} : default_ ∈ conditions search := by
  unfold conditions
  split
  next => simp
  next => simp

theorem active_iff (search : Search ρ) (key : Bytes) : active search key = true ↔ key ∈ conditions search := by
  simp only [active,Bool.or_eq_true,beq_iff_eq,contains_iff_mem]
  constructor
  · rintro (rfl | listed)
    · exact default_mem
    · exact listed
  · exact Or.inr

@[simp] theorem leads_under (search : Search ρ) (step : Step) (target : Target) :
    leads search (target.under step) = leads search target := rfl

theorem find_under (search : Search ρ) (step : Step) (targets : List Target) :
    (targets.map (Target.under step)).find? (leads search) = (targets.find? (leads search)).map (Target.under step) := by
  rw [find?_map]
  rfl

section Generic
variable {search : Search ρ} {leaf : Value → Bool} {object : Members → Bool}

/-- A property of outcomes that holds of what passes the tests. -/
structure Closed (search : Search ρ) (capture : Option Bytes) (leaf : Value → Bool) (object : Members → Bool)
    (good : Outcome → Prop) : Prop where
  undefined : good .undefined
  under : ∀ step outcome, good outcome → good (outcome.under step)
  indexed : ∀ members, object members = true → indexed members = true → good .abort
  null : leaf .null = true → good .null
  scalar : leaf .scalar = true → good .invalid
  text : ∀ value, leaf (.text value) = true → good (nodeText search capture value)
  empty : leaf (.array .nil) = true → good .null

variable {capture : Option Bytes} {good : Outcome → Prop}

mutual

theorem nodeTarget_every (closed : Closed search capture leaf object good) {value : Value}
    (all : every search leaf object value = true) : good (nodeTarget search capture value) := by
  cases value with
  | null => exact closed.null (by simpa [every] using all)
  | scalar => exact closed.scalar (by simpa [every] using all)
  | text value => exact closed.text value (by simpa [every] using all)
  | array items =>
    cases items with
    | nil => exact closed.empty (by simpa [every] using all)
    | cons item rest => exact nodeItems_every closed closed.undefined (by simpa [every,everyItem] using all)
  | object members =>
    rw [every,Bool.and_eq_true] at all
    rw [nodeTarget]
    split
    next index => exact closed.indexed members all.1 index
    next => exact nodeMembers_every closed all.2

theorem nodeItems_every (closed : Closed search capture leaf object good) {position : Nat} {last : Outcome} {items : Items}
    (before : good last) (all : everyItem search leaf object items = true) :
    good (nodeItems search capture position last items) := by
  cases items with
  | nil => exact before
  | cons item rest =>
    rw [everyItem,Bool.and_eq_true] at all
    have here := nodeTarget_every closed all.1
    rw [nodeItems]
    split
    next target found =>
      rw [found] at here
      exact closed.under (.index position) (.found target) here
    next aborted => exact aborted ▸ here
    next => exact nodeItems_every closed before all.2
    next none_ => exact nodeItems_every closed (none_ ▸ here) all.2
    next wrong => exact nodeItems_every closed (wrong ▸ here) all.2

theorem nodeMembers_every (closed : Closed search capture leaf object good) {members : Members}
    (all : everyMember search leaf object members = true) : good (nodeMembers search capture members) := by
  cases members with
  | nil => exact closed.undefined
  | cons key value rest =>
    rw [everyMember,Bool.and_eq_true] at all
    rw [nodeMembers]
    split
    next selected =>
      have here := nodeTarget_every closed (by simpa [selected] using all.1)
      split
      next => exact nodeMembers_every closed all.2
      next => exact closed.under (.key key) _ here
    next => exact nodeMembers_every closed all.2

end

theorem find_triedMembers {capture : Bytes} {members : Members} {key : Bytes} :
    find key (triedMembers search capture members) = (members.get key).map (tried search capture) := by
  cases members with
  | nil => rfl
  | cons name value rest =>
    rw [triedMembers,Members.get,Members.entries,find,find]
    split
    next => rfl
    next => exact find_triedMembers

variable {wanted : Target → Prop}

mutual

theorem tried_every (capture : Bytes) (under : ∀ step target, wanted target → wanted (target.under step))
    (text : ∀ value, leaf (.text value) = true → ∀ target ∈ targetOf search capture value, wanted target) {value : Value}
    (all : every search leaf object value = true) : ∀ target ∈ tried search capture value, wanted target := by
  cases value with
  | null => simp [tried]
  | scalar => simp [tried]
  | text value =>
    intro target listed
    rw [tried,Option.mem_toList] at listed
    exact text value (by simpa [every] using all) target listed
  | array items =>
    cases items with
    | nil => simp [tried,triedItems]
    | cons item rest => exact triedItems_every capture under text (by simpa [every,everyItem] using all)
  | object members =>
    rw [every,Bool.and_eq_true] at all
    intro target listed
    obtain ⟨condition,named,under_⟩ := mem_flatMap.mp listed
    obtain ⟨inner,inside,rfl⟩ := mem_map.mp under_
    refine under _ inner (triedMembers_every capture under text all.2 ((active_iff search condition).mpr named) inner ?_)
    exact inside

theorem triedItems_every (capture : Bytes) (under : ∀ step target, wanted target → wanted (target.under step))
    (text : ∀ value, leaf (.text value) = true → ∀ target ∈ targetOf search capture value, wanted target) {position : Nat}
    {items : Items} (all : everyItem search leaf object items = true) :
    ∀ target ∈ triedItems search capture position items, wanted target := by
  cases items with
  | nil => simp [triedItems]
  | cons item rest =>
    rw [everyItem,Bool.and_eq_true] at all
    intro target listed
    rcases mem_append.mp listed with here | later
    · obtain ⟨inner,inside,rfl⟩ := mem_map.mp here
      exact under _ inner (tried_every capture under text all.1 inner inside)
    · exact triedItems_every capture under text all.2 target later

theorem triedMembers_every (capture : Bytes) (under : ∀ step target, wanted target → wanted (target.under step))
    (text : ∀ value, leaf (.text value) = true → ∀ target ∈ targetOf search capture value, wanted target) {members : Members}
    (all : everyMember search leaf object members = true) {key : Bytes} (selected : active search key = true) :
    ∀ target ∈ (find key (triedMembers search capture members)).getD [], wanted target := by
  cases members with
  | nil => simp [triedMembers]
  | cons name value rest =>
    rw [everyMember,Bool.and_eq_true] at all
    rw [triedMembers,find]
    split
    next same =>
      subst same
      exact tried_every capture under text (by simpa [selected] using all.1)
    next => exact triedMembers_every capture under text all.2 selected

end

end Generic


section Shapes
variable {search : Search ρ} {capture : Bytes} {nodeCapture : Option Bytes} {value : Value}

theorem vacant_none (nothing : vacant search capture nodeCapture value = true) : tried search capture value = [] ∧
    (nodeTarget search nodeCapture value = .null ∨ nodeTarget search nodeCapture value = .undefined ∨
      nodeTarget search nodeCapture value = .invalid) := by
  constructor
  · have empty : ∀ target ∈ tried search capture value, False := by
      refine tried_every capture (fun _ _ => id) ?_ nothing
      intro text none_ target inside
      simp only [noTarget,Bool.and_eq_true,Option.isNone_iff_eq_none] at none_
      rw [none_.1] at inside
      cases inside
    exact eq_nil_iff_forall_not_mem.mpr empty
  · have closed : Closed search nodeCapture (noTarget search capture nodeCapture) (!indexed ·) (fun outcome => outcome = .null ∨ outcome = .undefined ∨ outcome = .invalid) := by
      refine ⟨by simp,?_,?_,by simp,by simp,?_,by simp⟩
      · rintro step outcome (rfl | rfl | rfl) <;> simp [Outcome.under]
      · intro members free index
        simp [index] at free
      · intro text none_
        simp only [noTarget,Bool.and_eq_true,beq_iff_eq] at none_
        exact Or.inr (Or.inr none_.2)
    exact nodeTarget_every closed nothing

theorem blank_undefined (nothing : blank search value = true) : nodeTarget search nodeCapture value = .undefined := by
  have closed : Closed search nodeCapture (fun _ => false) (!indexed ·) (fun outcome => outcome = .undefined) := by
    refine ⟨rfl,?_,?_,by simp,by simp,by simp,by simp⟩
    · rintro step outcome rfl
      rfl
    · intro members free index
      simp [index] at free
  exact nodeTarget_every closed nothing

end Shapes


section Stars
variable {pattern capture : Bytes}

theorem cutStar_cases (pattern : Bytes) : (cutStar pattern = none ∧ star ∉ pattern) ∨
    ∃ before after, cutStar pattern = some (before,after) ∧ pattern = before ++ star :: after ∧ star ∉ before := by
  induction pattern with
  | nil => exact Or.inl ⟨rfl,by simp⟩
  | cons char rest ih =>
    rw [cutStar]
    split
    next same => exact Or.inr ⟨[],rest,rfl,by rw [same]; rfl,by simp⟩
    next other =>
      have differs := Ne.symm other
      rcases ih with ⟨none_,free⟩ | ⟨before,after,cut,rfl,free⟩
      · exact Or.inl ⟨by rw [none_]; rfl,by simp [differs,free]⟩
      · exact Or.inr ⟨char :: before,after,by rw [cut]; rfl,rfl,by simp [differs,free]⟩

theorem replaceStars_free (free : star ∉ pattern) : replaceStars capture pattern = pattern := by
  induction pattern with
  | nil => rfl
  | cons char rest ih =>
    obtain ⟨other,later⟩ := not_or.mp (mem_cons.not.mp free)
    rw [replaceStars,flatMap_cons,if_neg (Ne.symm other)]
    exact congrArg (char :: ·) (ih later)

theorem replaceStars_once (once : pattern.count star ≤ 1) : replaceStars capture pattern = replaceStar pattern capture := by
  rw [replaceStar]
  rcases cutStar_cases pattern with ⟨none_,free⟩ | ⟨before,after,cut,rfl,free⟩
  · rw [none_]
    exact replaceStars_free free
  · have second : star ∉ after := by
      rw [count_append,count_cons_self] at once
      exact count_eq_zero.mp (by omega)
    rw [cut]
    have parts : replaceStars capture (before ++ star :: after) =
        replaceStars capture before ++ (capture ++ replaceStars capture after) := by
      simp [replaceStars]
    rw [parts,replaceStars_free free,replaceStars_free second,← append_assoc]

end Stars

def pickUnder (search : Search ρ) (capture : Bytes) (members : Members) (condition : Bytes) : Option Target :=
  (((members.get condition).map (tried search capture)).getD []).find? (leads search) |>.map (Target.under (.key condition))

section
variable (search : Search ρ) (capture : Bytes) (members : Members)
include search capture members

theorem pick_object : (tried search capture (.object members)).find? (leads search) =
      (conditions search).findSome? (pickUnder search capture members) := by
  rw [tried,find?_flatMap]
  congr 1
  funext condition
  rw [find_under,find_triedMembers]
  rfl

theorem pickUnder_key {condition key : Bytes} (target : Target)
    (picked : pickUnder search capture members condition = some (target.under (.key key))) : condition = key := by
  obtain ⟨inner,_,same⟩ := Option.map_eq_some_iff.mp picked
  have routes := congrArg (fun target => target.route.head?) same
  simpa [Target.under] using routes

end

section Sure
variable {search : Search ρ} {capture : Bytes} {nodeCapture : Option Bytes}

theorem sound_picks {value : Bytes} (fine : sound search capture nodeCapture value = true) :
    ∃ target, targetOf search capture value = some target ∧ nodeText search nodeCapture value = .found target ∧
      leads search target = true := by
  simp only [sound,Bool.and_eq_true,Bool.not_eq_true',contains_eq_mem,decide_eq_false_iff_not] at fine
  obtain ⟨plain,rest⟩ := fine
  unfold targetOf nodeText
  rw [untilZero_plain plain]
  split at rest
  next dotted =>
    simp only [Bool.and_eq_true,decide_eq_true_eq] at rest
    obtain ⟨⟨⟨valid,capturable⟩,stars⟩,file⟩ := rest
    have filled : value ≠ [] := by
      rintro rfl
      contradiction
    have fewer : (value.drop 2).count star ≤ value.count star := (drop_sublist 2 value).count_le star
    have once : (value.drop 2).count star ≤ 1 := by
      split at stars <;> omega
    refine ⟨_,by simp only [filled,dotted,if_true,if_false],?_,file⟩
    rw [if_pos dotted,if_pos valid,← replaceStars_once once]
    cases nodeCapture with
    | none =>
      have free : star ∉ value.drop 2 := count_eq_zero.mp (by simp at stars; omega)
      rw [replaceStars_free free]
    | some other =>
      have accepted : validPath other = true := capturable
      simp only [accepted,if_true]
      by_cases same : other = capture
      · rw [same]
      · have free : star ∉ value.drop 2 := count_eq_zero.mp (by simp [same] at stars; omega)
        rw [replaceStars_free free,replaceStars_free free]
  next bare =>
    simp only [Bool.and_eq_true,Bool.not_eq_true',bne_iff_ne,decide_eq_false_iff_not] at rest
    obtain ⟨⟨⟨⟨⟨⟨⟨allowed,climbs⟩,noSlash⟩,noHash⟩,scheme⟩,filled⟩,free⟩,file⟩ := rest
    refine ⟨⟨[],value,true⟩,by simp [filled,bare,allowed,noHash],?_,file⟩
    have text : (nodeCapture.map fun capture => replaceStars capture value).getD value = value := by
      cases nodeCapture with
      | none => rfl
      | some other => exact replaceStars_free free
    simp [bare,allowed,climbs,noSlash,scheme,filled,text]

mutual

theorem sure_picks {value : Value} (distinct : value.Distinct) (settled : sure search capture nodeCapture value = true) :
    ∃ target, (tried search capture value).find? (leads search) = some target ∧
      nodeTarget search nodeCapture value = .found target ∧ leads search target = true := by
  cases value with
  | null => simp [sure] at settled
  | scalar => simp [sure] at settled
  | text value =>
    obtain ⟨target,own,other,file⟩ := sound_picks settled
    exact ⟨target,by simp [tried,own,file],other,file⟩
  | array items =>
    cases items with
    | nil => simp [sure,sureItems] at settled
    | cons item rest =>
      rw [tried,nodeTarget]
      exact sureItems_picks distinct settled
  | object members =>
    rw [sure,Bool.and_eq_true,Bool.not_eq_true'] at settled
    rw [nodeTarget,settled.1]
    refine sureMembers_picks ?_ distinct.2 settled.2
    intro key value listed
    exact find_of_mem key value members.entries distinct.1 listed

theorem sureItems_picks {position : Nat} {last : Outcome} {items : Items} (distinct : items.Distinct)
    (settled : sureItems search capture nodeCapture items = true) :
    ∃ target, (triedItems search capture position items).find? (leads search) = some target ∧
      nodeItems search nodeCapture position last items = .found target ∧ leads search target = true := by
  cases items with
  | nil => simp [sureItems] at settled
  | cons item rest =>
    rw [sureItems] at settled
    rw [triedItems,nodeItems]
    split at settled
    next nothing =>
      obtain ⟨none_,outcome⟩ := vacant_none nothing
      rw [none_,map_nil,nil_append]
      rcases outcome with same | same | same
      · rw [same]
        exact sureItems_picks distinct.2 settled
      · rw [same]
        exact sureItems_picks distinct.2 settled
      · rw [same]
        exact sureItems_picks distinct.2 settled
    next =>
      obtain ⟨target,own,other,file⟩ := sure_picks distinct.1 settled
      refine ⟨target.under (.index position),?_,by rw [other],file⟩
      rw [find?_append,find_under,own]
      rfl

theorem sureMembers_picks {whole members : Members}
    (held : ∀ key value, (key,value) ∈ members.entries → whole.get key = some value) (distinct : members.Distinct)
    (settled : sureMembers search capture nodeCapture whole members = true) :
    ∃ target, (tried search capture (.object whole)).find? (leads search) = some target ∧
      nodeMembers search nodeCapture members = .found target ∧ leads search target = true := by
  cases members with
  | nil => simp [sureMembers] at settled
  | cons key value rest =>
    rw [sureMembers] at settled
    rw [nodeMembers]
    have onward := fun settled => sureMembers_picks
      (fun other kept listed => held other kept (by simp [Members.entries,listed])) distinct.2 settled
    split at settled
    next selected =>
      simp only [Bool.and_eq_true,Bool.not_eq_true'] at selected settled
      obtain ⟨target,own,other,file⟩ := sure_picks distinct.1 settled.2
      refine ⟨target.under (.key key),?_,by rw [if_pos selected.1,other]; rfl,file⟩
      rw [pick_object,findSome_eq_some_at (fun condition => pickUnder_key search capture whole target)
        ((active_iff search key).mp selected.1)]
      constructor
      · intro name early
        have nothing := all_eq_true.mp settled.1 name early
        rw [pickUnder]
        cases found : whole.get name with
        | none => rfl
        | some value =>
          rw [found,Option.all_some] at nothing
          simp [vacant_none nothing]
      · rw [pickUnder,held key value (by simp [Members.entries]),Option.map_some,Option.getD_some,own]
        rfl
    next skipped =>
      split
      next selected =>
        have nothing : blank search value = true := by simpa [selected] using skipped
        rw [blank_undefined nothing]
        exact onward settled
      next => exact onward settled

end

end Sure

section Keys
variable {key other request capture : Bytes}

end Keys

section Map
variable {search : Search ρ} {members : Members} {request : Bytes} {entry : Entry}

end Map

def complete : Search Bytes := ⟨none,false,false,some,fun _ => none⟩

def member (key : String) (value : Value) (rest : Members) : Members := .cons (ascii key) value rest

def string (value : String) : Value := .text (ascii value)

def orderly : Members :=
  member "./feature" (.array (.cons .null (.cons (.object (member "require" (string "./a.cjs")
    (member "import" (string "./a.mjs") (member "default" .null .nil)))) .nil)))
    (member "./*" (string "./lib/*.js") .nil)

end Ant.Esm.NodeTargets
