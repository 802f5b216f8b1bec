import Ant.Runtime.Shapes
import Mathlib.Data.List.Induction

/-! What the operations on shapes keep: the counts, the keys of a shape apart from each other, and
the recorded children one key ahead of their parent. -/
namespace Ant.Runtime.ShapeStore
open Library.RefCount Shapes Option

def live (slots : Slots) : List Property := slots.filterMap id

def keysOf (slots : Slots) : List Key := (live slots).map Property.key

theorem live_append {slots more : Slots} : live (slots ++ more) = live slots ++ live more := List.filterMap_append

theorem keysOf_append (slots more : Slots) : keysOf (slots ++ more) = keysOf slots ++ keysOf more := by
  simp [keysOf,live_append]

section
variable (slots : Slots) (key : Key)
include slots key

theorem mem_keysOf : key ∈ keysOf slots ↔ ∃ property, some property ∈ slots ∧ property.key = key := by
  simp [keysOf,live]

theorem lookup_eq_none : lookup slots key = none ↔ key ∉ keysOf slots := by
  rw [lookup,List.findIdx?_eq_none_iff,mem_keysOf]
  constructor
  · rintro absent ⟨property,member,same⟩
    simpa [same] using absent _ member
  · intro absent slot member
    cases slot with
    | none => rfl
    | some property => simpa using fun same => absent ⟨property,member,same⟩

theorem lookup_new (attrs : Attributes) (absent : lookup slots key = none) :
    lookup (slots ++ [some (dataProperty key attrs)]) key = some slots.length := by
  have here : lookup [some (dataProperty key attrs)] key = some 0 := by simp [lookup,dataProperty]
  rw [lookup] at absent here ⊢
  rw [List.findIdx?_append,absent,here]
  simp

theorem lookup_split (slot : Nat) (found : lookup slots key = some slot) :
    ∃ before property behind, slots = before ++ some property :: behind ∧ before.length = slot ∧ property.key = key ∧
      key ∉ keysOf before := by
  induction slots generalizing slot with
  | nil => simp [lookup] at found
  | cons first rest ih =>
    rw [lookup,List.findIdx?_cons] at found
    split at found
    next here =>
      cases first with
      | none => simp at here
      | some property => exact ⟨[],property,rest,rfl,by simpa using found,by simpa using here,by simp [keysOf,live]⟩
    next other =>
      obtain ⟨below,located,same⟩ := map_eq_some_iff.mp found
      obtain ⟨before,property,behind,whole,length,match_,fresh⟩ := ih below located
      refine ⟨first :: before,property,behind,by rw [whole]; rfl,by simp [length,same],match_,?_⟩
      cases first with
      | none => exact fresh
      | some property =>
        have different : property.key ≠ key := by simpa using other
        have split_ : keysOf (some property :: before) = property.key :: keysOf before := rfl
        rw [split_]
        simpa using ⟨Ne.symm different,fresh⟩

end

def changeAt (key : Key) (f : Property → Property) (properties : List Property) : List Property :=
  properties.map fun property => if property.key = key then f property else property

theorem changeAt_fresh {key : Key} (f : Property → Property) {slots : Slots} (fresh : key ∉ keysOf slots) :
    changeAt key f (live slots) = live slots := by
  refine (List.map_congr_left ?_).trans (List.map_id _)
  intro property member
  exact if_neg fun same => fresh (List.mem_map.mpr ⟨property,member,same⟩)

theorem filter_fresh {key : Key} {slots : Slots} (fresh : key ∉ keysOf slots) :
    (live slots).filter (fun property => property.key ≠ key) = live slots := by
  rw [List.filter_eq_self]
  intro property member
  exact decide_eq_true fun same => fresh (List.mem_map.mpr ⟨property,member,same⟩)

theorem modify_at_length {α : Type} (before behind : List α) (entry : α) (f : α → α) :
    (before ++ entry :: behind).modify before.length f = before ++ f entry :: behind := by
  induction before with
  | nil => rfl
  | cons first rest ih => simpa using ih

theorem changeAt_keys (key : Key) (f : Property → Property) (same : ∀ property, (f property).key = property.key)
    (properties : List Property) : (changeAt key f properties).map Property.key = properties.map Property.key := by
  rw [changeAt,List.map_map]
  refine List.map_congr_left fun property _ => ?_
  simp only [Function.comp]
  split
  next => exact same property
  next => rfl

section Found
variable {slots : Slots} {key : Key} {slot : Nat}

section
variable (found : lookup slots key = some slot) (distinct : (keysOf slots).Nodup)
include found distinct

theorem lookup_split_distinct :
    ∃ before property behind, slots = before ++ some property :: behind ∧ before.length = slot ∧ property.key = key ∧
      key ∉ keysOf before ∧ key ∉ keysOf behind := by
  obtain ⟨before,property,behind,whole,length,same,fresh⟩ := lookup_split slots key slot found
  refine ⟨before,property,behind,whole,length,same,fresh,?_⟩
  rw [whole,keysOf_append] at distinct
  have tail : (property.key :: keysOf behind).Nodup := (List.nodup_append.mp distinct).2.1
  rw [← same]
  exact (List.nodup_cons.mp tail).1

theorem live_modify (f : Property → Property) :
    live (slots.modify slot fun entry => entry.map f) = changeAt key f (live slots) := by
  obtain ⟨before,property,behind,rfl,rfl,same,left,right⟩ := lookup_split_distinct found distinct
  have middle (entry : Property) : live (some entry :: behind) = entry :: live behind := rfl
  rw [modify_at_length,live_append,live_append,map_some,middle,middle]
  simp only [changeAt,List.map_append,List.map_cons,if_pos same]
  have leftSame := changeAt_fresh f left
  have rightSame := changeAt_fresh f right
  rw [changeAt] at leftSame rightSame
  rw [leftSame,rightSame]

theorem live_clear : live (slots.set slot none) = (live slots).filter fun property => property.key ≠ key := by
  obtain ⟨before,property,behind,rfl,rfl,same,left,right⟩ := lookup_split_distinct found distinct
  have middle : live (some property :: behind) = property :: live behind := rfl
  rw [List.set_append_right _ _ (Nat.le_refl _),Nat.sub_self,live_append,live_append,middle,List.filter_append,
    filter_fresh left,List.filter_cons_of_neg (by simpa using same),filter_fresh right]
  rfl

end

end Found

theorem live_trimHoles (slots : Slots) : live (trimHoles slots) = live slots := by
  induction slots using List.reverseRecOn with
  | nil => rfl
  | append_singleton before last ih =>
    cases last with
    | none =>
      have dropped : trimHoles (before ++ [none]) = trimHoles before := by simp [trimHoles]
      rw [dropped,ih]
      simp [live]
    | some property =>
      have kept : trimHoles (before ++ [some property]) = before ++ [some property] := by simp [trimHoles]
      rw [kept]

theorem live_compact (slots : Slots) : live (slots.filter Option.isSome) = live slots := by
  induction slots with
  | nil => rfl
  | cons first rest ih =>
    cases first with
    | none => simpa [live] using ih
    | some property => simpa [live] using ih

structure Sound (exact : Bool) (store : Store) (held : List ShapeId) : Prop where
  counted : Counted store.shapes held
  distinct : ∀ id, (keysOf (slotsOf store id)).Nodup
  children : exact = true → ∀ id key child, (key,child) ∈ childrenOf store id →
    slotsOf store child = slotsOf store id ++ [some (dataProperty key.1 key.2)]

variable {exact : Bool}

/-- The same slots, counts and children; guards, parents and the epoch may differ. -/
structure Alike (store other : Store) : Prop where
  counts : other.shapes.map Node.refs = store.shapes.map Node.refs
  links : other.shapes.map Node.links = store.shapes.map Node.links
  slots : other.shapes.map (fun shape => shape.content.slots) = store.shapes.map fun shape => shape.content.slots

theorem slotsOf_eq (store : Store) (id : ShapeId) :
    slotsOf store id = ((store.shapes.map fun shape => shape.content.slots)[id]?).getD [] := by
  rw [List.getElem?_map]
  rfl

theorem childrenOf_eq (store : Store) (id : ShapeId) : childrenOf store id = ((store.shapes.map Node.links)[id]?).getD [] := by
  rw [List.getElem?_map]
  rfl

theorem slotsOf_of_map {store other : Store}
    (same : other.shapes.map (fun shape => shape.content.slots) = store.shapes.map fun shape => shape.content.slots)
    (id : ShapeId) : slotsOf other id = slotsOf store id := by rw [slotsOf_eq,slotsOf_eq,same]

theorem childrenOf_of_map {store other : Store} (same : other.shapes.map Node.links = store.shapes.map Node.links)
    (id : ShapeId) : childrenOf other id = childrenOf store id := by rw [childrenOf_eq,childrenOf_eq,same]

theorem nextEpoch_ne {epoch : Nat} : nextEpoch epoch ≠ epoch := by
  unfold nextEpoch
  split <;> omega

theorem mem_childrenOf {store : Store} {id : ShapeId} {entry : ChildKey × ShapeId} :
    entry ∈ childrenOf store id ↔ ∃ shape, store.shapes[id]? = some shape ∧ entry ∈ shape.links := by
  unfold childrenOf
  cases store.shapes[id]? <;> simp

/-- What keeps the slots and records no new child keeps a sound store sound. -/
theorem Sound.carry {store other : Store} {held kept : List ShapeId} (sound : Sound exact store held)
    (counted : Counted other.shapes kept) (slots : ∀ id, slotsOf other id = slotsOf store id)
    (children : ∀ id entry, entry ∈ childrenOf other id → entry ∈ childrenOf store id) : Sound exact other kept where
  counted := counted
  distinct := fun id => by rw [slots]; exact sound.distinct id
  children := fun holds id key child listed => by
    rw [slots,slots]
    exact sound.children holds id key child (children id _ listed)

namespace Alike

variable {store other third : Store}

theorem refl (store : Store) : Alike store store := ⟨rfl,rfl,rfl⟩

theorem trans (one : Alike store other) (two : Alike other third) : Alike store third :=
  ⟨two.counts.trans one.counts,two.links.trans one.links,two.slots.trans one.slots⟩

theorem slotsOf (alike : Alike store other) (id : ShapeId) : slotsOf other id = slotsOf store id := slotsOf_of_map alike.slots id

theorem childrenOf (alike : Alike store other) (id : ShapeId) : childrenOf other id = childrenOf store id :=
  childrenOf_of_map alike.links id

theorem refs (alike : Alike store other) (id : ShapeId) : refs other.shapes id = refs store.shapes id :=
  refs_eq_of_map alike.counts id

theorem sound (alike : Alike store other) {held : List ShapeId} (sound : Sound exact store held) : Sound exact other held :=
  sound.carry (sound.counted.congr alike.counts alike.links) alike.slotsOf fun id _ listed => alike.childrenOf id ▸ listed

end Alike

section
variable {store : Store} {held : List ShapeId} {key : ChildKey}

theorem alike_changeTable (store : Store) (id : ShapeId) (f : Table → Table) (same : ∀ table, (f table).slots = table.slots) :
    Alike store (changeTable store id f) where
  counts := change_refs store.shapes id f
  links := change_links store.shapes id f
  slots := map_modify store.shapes id _ _ fun shape => same shape.content

theorem alike_bumpEpoch (store : Store) : Alike store (bumpEpoch store) := ⟨rfl,rfl,rfl⟩

theorem alike_guardAbsence {store : Store} {id : ShapeId} : Alike store (guardAbsence store id) :=
  alike_changeTable store id _ fun _ => rfl

theorem alike_invalidate (store : Store) (id : ShapeId) : Alike store (invalidateGuardedAbsence store id) := by
  have cleared : Alike store (changeTable store id fun table => {table with absenceGuard := 0}) :=
    alike_changeTable store id _ fun _ => rfl
  unfold invalidateGuardedAbsence
  split
  next => exact Alike.refl store
  next => exact Alike.refl store
  next =>
    split
    next => exact cleared
    next => exact cleared.trans (alike_bumpEpoch _)

theorem slotsOf_retain (store : Store) (id other : ShapeId) : slotsOf (retain store id) other = slotsOf store other :=
  slotsOf_of_map (map_modify store.shapes id (fun shape => {shape with refs := shape.refs + 1})
    (fun shape => shape.content.slots) fun _ => rfl) other

theorem childrenOf_retain {store : Store} {id other : ShapeId} :
    childrenOf (retain store id) other = childrenOf store other :=
  childrenOf_of_map (map_modify store.shapes id (fun shape => {shape with refs := shape.refs + 1}) Node.links fun _ => rfl) other

theorem slotsOf_release {store : Store} {id : ShapeId} (other : ShapeId) : slotsOf (release store id) other = slotsOf store other := by
  apply slotsOf_of_map
  exact drain_view (fun table : Table => {table with parent := none}) (fun _ => rfl) store.shapes [id]

theorem mem_childrenOf_release {store : Store} {id other : ShapeId} {entry : ChildKey × ShapeId}
    (listed : entry ∈ childrenOf (release store id) other) : entry ∈ childrenOf store other := by
  obtain ⟨after,found,member⟩ := mem_childrenOf.mp listed
  obtain ⟨before,there,kept⟩ := drain_links _ _ store.shapes [id] other after found
  refine mem_childrenOf.mpr ⟨before,there,?_⟩
  rcases kept with same | none_
  · exact same ▸ member
  · simp [none_] at member

theorem Sound.retain (sound : Sound exact store held) (id : ShapeId) (present : 0 < refs store.shapes id) :
    Sound exact (retain store id) (id :: held) :=
  sound.carry (sound.counted.retain id present) (slotsOf_retain store id) fun _ _ listed =>
    childrenOf_retain ▸ listed

theorem Sound.release {id : ShapeId} (sound : Sound exact store (id :: held)) : Sound exact (release store id) held :=
  sound.carry (sound.counted.release _) slotsOf_release fun _ _ => mem_childrenOf_release

theorem Sound.perm {held other : List ShapeId} (sound : Sound exact store held) (same : held.Perm other) :
    Sound exact store other := ⟨sound.counted.perm same,sound.distinct,sound.children⟩

theorem Sound.mono {held other : List ShapeId} (sound : Sound exact store held) (fewer : ∀ id, other.count id ≤ held.count id) :
    Sound exact store other :=
  ⟨sound.counted.mono fewer,sound.distinct,sound.children⟩

theorem mem_linked_of_child {id child : ShapeId} (listed : (key,child) ∈ childrenOf store id) :
    child ∈ linked store.shapes := by
  obtain ⟨shape,found,member⟩ := mem_childrenOf.mp listed
  exact List.mem_flatMap.mpr ⟨shape,List.mem_of_getElem? found,List.mem_map.mpr ⟨(key,child),member,rfl⟩⟩

section
variable {id child : ShapeId} (sound : Sound exact store held)
include sound

theorem Sound.child_refs (listed : (key,child) ∈ childrenOf store id) : 0 < refs store.shapes child := by
  have bound := sound.counted child
  have positive := List.count_pos_iff.mpr (mem_linked_of_child listed)
  omega

theorem Sound.child_lt (listed : (key,child) ∈ childrenOf store id) : child < store.shapes.length := by
  have positive := sound.child_refs listed
  by_contra outside
  have missing : store.shapes[child]? = none := List.getElem?_eq_none (Nat.le_of_not_lt outside)
  simp only [refs,missing,map_none,getD_none] at positive
  omega

theorem Sound.held_lt {id : ShapeId} (member : id ∈ held) : id < store.shapes.length := by
  obtain ⟨shape,found⟩ := sound.counted.exists member
  exact (List.getElem?_eq_some_iff.mp found).1

end

theorem clone_shape (store : Store) (id other : ShapeId) : (clone store id).1.shapes[other]? =
    if other = store.shapes.length then some ⟨1,[],⟨slotsOf store id,none,0⟩⟩ else store.shapes[other]? := by
  rcases Nat.lt_trichotomy other store.shapes.length with inside | same | outside
  · rw [clone,List.getElem?_append_left inside,if_neg (Nat.ne_of_lt inside)]
  · rw [clone,if_pos same,same,List.getElem?_concat_length]
  · rw [clone,if_neg (Nat.ne_of_gt outside),List.getElem?_eq_none (Nat.le_of_lt outside)]
    simpa using Nat.succ_le_of_lt outside

theorem clone_slots (store : Store) (id other : ShapeId) : slotsOf (clone store id).1 other =
      if other = store.shapes.length then slotsOf store id else slotsOf store other := by
  rw [slotsOf,clone_shape]
  split <;> rfl

theorem clone_children (store : Store) (id other : ShapeId) :
    childrenOf (clone store id).1 other = childrenOf store other := by
  rw [childrenOf,clone_shape]
  split
  next same => simp [childrenOf,same]
  next => rfl

theorem Sound.clone (sound : Sound exact store held) (id : ShapeId) :
    Sound exact (clone store id).1 ((clone store id).2 :: held) where
  counted := sound.counted.push _
  distinct := fun other => by
    rw [clone_slots]
    split
    next => exact sound.distinct id
    next => exact sound.distinct other
  children := fun holds other key child listed => by
    rw [clone_children] at listed
    obtain ⟨shape,found,_⟩ := mem_childrenOf.mp listed
    have inside := (List.getElem?_eq_some_iff.mp found).1
    rw [clone_slots,clone_slots,if_neg (Nat.ne_of_lt (sound.child_lt listed)),if_neg (Nat.ne_of_lt inside)]
    exact sound.children holds other key child listed

end

theorem slotsOf_changeSlots {store : Store} {id : ShapeId} (other : ShapeId) (f : Slots → Slots)
    (inside : id < store.shapes.length) :
    slotsOf (changeSlots store id f) other = if other = id then f (slotsOf store id) else slotsOf store other := by
  simp only [changeSlots,changeTable,change,slotsOf]
  by_cases same : id = other
  · subst same
    simp [List.getElem?_eq_getElem inside]
  · simp [same,Ne.symm same]

theorem childrenOf_changeSlots (store : Store) (id other : ShapeId) (f : Slots → Slots) :
    childrenOf (changeSlots store id f) other = childrenOf store other :=
  childrenOf_of_map (change_links store.shapes id fun table => {table with slots := f table.slots}) other

theorem refs_changeSlots (store : Store) (id other : ShapeId) (f : Slots → Slots) :
    refs (changeSlots store id f).shapes other = refs store.shapes other :=
  refs_eq_of_map (change_refs store.shapes id fun table => {table with slots := f table.slots}) other

/-- A shape that its holder may change: nobody else holds it and no child was recorded under it. -/
structure Own (exact : Bool) (store : Store) (held : List ShapeId) (id : ShapeId) : Prop where
  sound : Sound exact store (id :: held)
  alone : refs store.shapes id ≤ 1
  childless : exact = true → childrenOf store id = []

/-- One holder goes from `old` to `new`, whose slots are `f` of the old ones; what the others hold
stays as it was. -/
structure Evolves (exact : Bool) (store : Store) (held : List ShapeId) (old : ShapeId) (after : Store) (new : ShapeId) (f : Slots → Slots) :
    Prop where
  sound : Sound exact after (new :: held)
  slots : slotsOf after new = f (slotsOf store old)
  frame : ∀ id ∈ held, slotsOf after id = slotsOf store id

def KeepsDistinct (f : Slots → Slots) (slots : Slots) : Prop := (keysOf slots).Nodup → (keysOf (f slots)).Nodup

section Steps
variable {store after last : Store} {held : List ShapeId} {id old mid new : ShapeId} {f g : Slots → Slots}

theorem Evolves.trans (one : Evolves exact store held old after mid f) (two : Evolves exact after held mid last new g) :
    Evolves exact store held old last new (g ∘ f) where
  sound := two.sound
  slots := by rw [two.slots,one.slots]; rfl
  frame := fun id member => (two.frame id member).trans (one.frame id member)

theorem Evolves.reached (one : Evolves exact store held old after new f) :
    Evolves exact store held old after new fun _ => slotsOf after new := ⟨one.sound,rfl,one.frame⟩

theorem Evolves.alike (one : Evolves exact store held old after new f) (alike : Alike after last) : Evolves exact store held old last new f where
  sound := alike.sound one.sound
  slots := by rw [alike.slotsOf]; exact one.slots
  frame := fun id member => by rw [alike.slotsOf]; exact one.frame id member

theorem Own.alike (own : Own exact store held id) (alike : Alike store after) : Own exact after held id where
  sound := alike.sound own.sound
  alone := by rw [alike.refs]; exact own.alone
  childless := fun holds => by rw [alike.childrenOf]; exact own.childless holds

theorem Own.change (own : Own exact store held id) (f : Slots → Slots) (apart : KeepsDistinct f (slotsOf store id)) :
    Own exact (changeSlots store id f) held id := by
  have inside : id < store.shapes.length := own.sound.held_lt List.mem_cons_self
  obtain ⟨-,unlinked⟩ := own.sound.counted.alone own.alone
  refine ⟨⟨own.sound.counted.change id fun table => {table with slots := f table.slots},?_,?_⟩,?_,?_⟩
  · intro other
    rw [slotsOf_changeSlots other f inside]
    split
    next => exact apart (own.sound.distinct id)
    next => exact own.sound.distinct other
  · intro holds other key child listed
    rw [childrenOf_changeSlots] at listed
    -- The changed shape has no children and is nobody's child.
    have parent : other ≠ id := by
      intro same
      rw [same,own.childless holds] at listed
      exact List.not_mem_nil listed
    have target : child ≠ id := by
      intro same
      rw [same] at listed
      exact unlinked (mem_linked_of_child listed)
    rw [slotsOf_changeSlots child f inside,slotsOf_changeSlots other f inside,if_neg target,if_neg parent]
    exact own.sound.children holds other key child listed
  · rw [refs_changeSlots]
    exact own.alone
  · intro holds
    rw [childrenOf_changeSlots]
    exact own.childless holds

theorem Own.evolves (own : Own exact store held id) (f : Slots → Slots) (apart : KeepsDistinct f (slotsOf store id)) :
    Evolves exact store held id (changeSlots store id f) id f := by
  have inside : id < store.shapes.length := own.sound.held_lt List.mem_cons_self
  obtain ⟨unheld,-⟩ := own.sound.counted.alone own.alone
  refine ⟨(own.change f apart).sound,?_,?_⟩
  · rw [slotsOf_changeSlots id f inside,if_pos rfl]
  · intro other member
    have different : other ≠ id := fun same => unheld (same ▸ member)
    rw [slotsOf_changeSlots other f inside,if_neg different]

theorem keepsDistinct_modify {slots : Slots} {key : Key} {slot : Nat} (found : lookup slots key = some slot) (f : Property → Property)
    (same : ∀ property, (f property).key = property.key) :
    KeepsDistinct (fun slots => slots.modify slot fun entry => entry.map f) slots := by
  intro distinct
  rw [keysOf,live_modify found distinct f,changeAt_keys key f same]
  exact distinct

theorem keepsDistinct_clear {slots : Slots} {key : Key} {slot : Nat} (found : lookup slots key = some slot) :
    KeepsDistinct (fun slots => trimHoles (slots.set slot none)) slots := by
  intro distinct
  rw [keysOf,live_trimHoles,live_clear found distinct]
  exact distinct.sublist (List.filter_sublist.map Property.key)

theorem keepsDistinct_compact {slots : Slots} : KeepsDistinct (fun slots => slots.filter Option.isSome) slots := by
  intro distinct
  rw [keysOf,live_compact]
  exact distinct

theorem Sound.copy (sound : Sound exact store (id :: held)) :
    Own exact (Shapes.release (Shapes.clone store id).1 id) held (Shapes.clone store id).2 ∧
      Evolves exact store held id (Shapes.release (Shapes.clone store id).1 id) (Shapes.clone store id).2 fun slots => slots := by
  have cloned := sound.clone id
  have swapped : Sound exact (Shapes.clone store id).1 (id :: (Shapes.clone store id).2 :: held) := cloned.perm (List.Perm.swap _ _ _)
  have released := swapped.release
  refine ⟨⟨released,?_,?_⟩,⟨released,?_,?_⟩⟩
  · refine Nat.le_trans (release_refs _) ?_
    simp [Shapes.clone,refs]
  · intro _
    apply List.eq_nil_iff_forall_not_mem.mpr
    intro entry listed
    have before := mem_childrenOf_release listed
    simp [Shapes.clone,childrenOf] at before
  · rw [slotsOf_release,clone_slots]
    exact if_pos rfl
  · intro other member
    have inside := sound.held_lt (List.mem_cons_of_mem id member)
    rw [slotsOf_release,clone_slots,if_neg (Nat.ne_of_lt inside)]

/-- What an unshared shape has to meet before its holder changes it in place. -/
def Settled (store : Store) (id : ShapeId) : Prop := isShared store id = false → childrenOf store id = []

theorem Sound.ensureUnique (sound : Sound exact store (id :: held)) (settled : exact = true → Settled store id) :
    Own exact (Shapes.ensureUnique store id).1 held (Shapes.ensureUnique store id).2 ∧
      Evolves exact store held id (Shapes.ensureUnique store id).1 (Shapes.ensureUnique store id).2 fun slots => slots := by
  unfold Shapes.ensureUnique
  split
  next => exact sound.copy
  next unshared =>
    have single : refs store.shapes id ≤ 1 := by simpa [isShared] using unshared
    exact ⟨⟨sound,single,fun holds => settled holds (by simpa using unshared)⟩,⟨sound,rfl,fun _ _ => rfl⟩⟩

theorem Sound.edit (sound : Sound exact store (id :: held)) (settled : exact = true → Settled store id) (f : Slots → Slots)
    (apart : KeepsDistinct f (slotsOf store id)) :
    Evolves exact store held id (changeSlots (Shapes.ensureUnique store id).1 (Shapes.ensureUnique store id).2 f) (Shapes.ensureUnique store id).2 f := by
  obtain ⟨own,unique⟩ := sound.ensureUnique settled
  have edited := own.evolves f (by rw [unique.slots]; exact apart)
  exact unique.trans edited

theorem keepsDistinct_append {slots : Slots} {key : Key} (attrs : Attributes) (absent : lookup slots key = none) :
    KeepsDistinct (fun slots => slots ++ [some (dataProperty key attrs)]) slots := by
  intro distinct
  rw [keysOf_append]
  have fresh := (lookup_eq_none slots key).mp absent
  have single : keysOf [some (dataProperty key attrs)] = [key] := rfl
  rw [single]
  refine List.nodup_append.mpr ⟨distinct,List.nodup_singleton key,?_⟩
  intro other member last single same
  rw [List.mem_singleton] at single
  exact fresh (single ▸ same ▸ member)

theorem Own.addKey (own : Own exact store held id) (key : Key) (attrs : Attributes) (absent : lookup (slotsOf store id) key = none) :
    Own exact (Shapes.addKey store id key attrs).1 held id ∧
      Evolves exact store held id (Shapes.addKey store id key attrs).1 id fun slots => slots ++ [some (dataProperty key attrs)] := by
  have apart := keepsDistinct_append attrs absent
  have changed := own.change _ apart
  have evolved := own.evolves _ apart
  simp only [Shapes.addKey,absent]
  split
  next => exact ⟨changed.alike (alike_invalidate _ id),evolved.alike (alike_invalidate _ id)⟩
  next => exact ⟨changed,evolved⟩

theorem childrenOf_link {store : Store} {parent other : ShapeId} {key : ChildKey} {child : ShapeId} {entry : ChildKey × ShapeId}
    (listed : entry ∈ childrenOf {store with shapes := link store.shapes parent key child} other) :
    entry ∈ childrenOf store other ∨ other = parent ∧ entry = (key,child) := by
  obtain ⟨after,found,member⟩ := mem_childrenOf.mp listed
  simp only [link,List.getElem?_modify] at found
  obtain ⟨shape,there,rfl⟩ := map_eq_some_iff.mp found
  split at member
  next same =>
    rcases List.mem_append.mp member with old | new
    · exact Or.inl (mem_childrenOf.mpr ⟨shape,there,old⟩)
    · exact Or.inr ⟨same.symm,List.mem_singleton.mp new⟩
  next => exact Or.inl (mem_childrenOf.mpr ⟨shape,there,member⟩)

theorem slotsOf_link (store : Store) (parent other : ShapeId) (key : ChildKey) (child : ShapeId) :
    slotsOf {store with shapes := link store.shapes parent key child} other = slotsOf store other :=
  slotsOf_of_map (map_modify store.shapes parent (fun shape => {shape with links := shape.links ++ [(key,child)]})
    (fun shape => shape.content.slots) fun _ => rfl) other

theorem Sound.link {child : ShapeId} (sound : Sound exact store (child :: held)) (parent : ShapeId) (key : ChildKey)
    (ahead : exact = true → slotsOf store child = slotsOf store parent ++ [some (dataProperty key.1 key.2)]) :
    Sound exact {store with shapes := link store.shapes parent key child} held := by
  refine ⟨sound.counted.link parent key,fun other => by rw [slotsOf_link]; exact sound.distinct other,?_⟩
  intro holds other label target listed
  rw [slotsOf_link,slotsOf_link]
  rcases childrenOf_link listed with old | ⟨rfl,new⟩
  · exact sound.children holds other label target old
  · cases new
    exact ahead holds

theorem Sound.recordChild (sound : Sound exact store held) (parent child : ShapeId) (key : ChildKey) (present : 0 < refs store.shapes child)
    (ahead : exact = true → slotsOf store child = slotsOf store parent ++ [some (dataProperty key.1 key.2)]) :
    Sound exact (Shapes.recordChild store parent key child) held ∧
      ∀ other, slotsOf (Shapes.recordChild store parent key child) other = slotsOf store other := by
  unfold Shapes.recordChild
  split
  next => exact ⟨sound,fun _ => rfl⟩
  next =>
    have linked := (sound.retain child present).link parent key fun holds => by
      rw [slotsOf_retain,slotsOf_retain]
      exact ahead holds
    have marked := alike_changeTable {Shapes.retain store child with
      shapes := Library.RefCount.link (Shapes.retain store child).shapes parent key child} child
      (fun table => {table with parent := some parent}) fun _ => rfl
    exact ⟨marked.sound linked,fun other => (marked.slotsOf other).trans (by rw [slotsOf_link,slotsOf_retain])⟩

def withKey (key : Key) (attrs : Attributes) (slots : Slots) : Slots := slots ++ [some (dataProperty key attrs)]

section
variable {key : Key} {attrs : Attributes} {slot : Nat} (sound : Sound exact store (id :: held))
include sound

theorem Sound.toChild {child : ShapeId} (listed : ((key,attrs),child) ∈ childrenOf store id) :
    Evolves exact store held id (Shapes.release (Shapes.retain (invalidateGuardedAbsence store id) child) id) child
      fun _ => slotsOf store child := by
  have alike := alike_invalidate store id
  have present : 0 < refs (invalidateGuardedAbsence store id).shapes child := by
    rw [alike.refs]
    exact sound.child_refs listed
  have retained := ((alike.sound sound).retain child present).perm (List.Perm.swap _ _ _)
  refine ⟨retained.release,?_,?_⟩
  · rw [slotsOf_release,slotsOf_retain,alike.slotsOf]
  · intro other _
    rw [slotsOf_release,slotsOf_retain,alike.slotsOf]

theorem Sound.toNewChild (attrs : Attributes) (absent : lookup (slotsOf store id) key = none) :
    let copied := (Shapes.clone store id).1
    let shared := (Shapes.clone store id).2
    let added := (Shapes.addKey copied shared key attrs).1
    let recorded := Shapes.release (Shapes.recordChild added id (key,attrs) shared) shared
    let cloned := (Shapes.clone recorded shared).1
    Evolves exact store held id (Shapes.release (invalidateGuardedAbsence cloned id) id) (Shapes.clone recorded shared).2
      (withKey key attrs) := by
  intro copied shared added recorded cloned
  have cloneOwn : Own exact copied (id :: held) shared := by
    refine ⟨sound.clone id,?_,?_⟩
    · simp [copied,shared,Shapes.clone,refs]
    · intro _
      rw [clone_children]
      simp [shared,Shapes.clone,childrenOf]
  have sharedSlots : slotsOf copied shared = slotsOf store id := by
    rw [clone_slots]
    exact if_pos rfl
  have oldSlots (other : ShapeId) (member : other ∈ id :: held) : slotsOf copied other = slotsOf store other := by
    rw [clone_slots,if_neg (Nat.ne_of_lt (sound.held_lt member))]
  obtain ⟨addOwn,addEvolves⟩ := cloneOwn.addKey key attrs (by rw [sharedSlots]; exact absent)
  have addedSlots (other : ShapeId) (member : other ∈ id :: held) : slotsOf added other = slotsOf store other :=
    (addEvolves.frame other member).trans (oldSlots other member)
  have newSlots : slotsOf added shared = withKey key attrs (slotsOf store id) := by
    rw [addEvolves.slots,sharedSlots]
    rfl
  obtain ⟨recordSound,recordSlots⟩ := addOwn.sound.recordChild id shared (key,attrs)
    (addOwn.sound.counted.refs_pos List.mem_cons_self) (fun _ => by rw [newSlots,addedSlots id List.mem_cons_self]; rfl)
  have recordedSlots (other : ShapeId) : slotsOf recorded other = slotsOf added other := by
    rw [slotsOf_release,recordSlots]
  have copySound := recordSound.release.clone shared
  have alike := alike_invalidate cloned id
  refine ⟨((alike.sound copySound).perm (List.Perm.swap _ _ _)).release,?_,?_⟩
  · rw [slotsOf_release,alike.slotsOf,clone_slots]
    refine (if_pos rfl).trans ?_
    rw [recordedSlots,newSlots]
  · intro other member
    have before := List.mem_cons_of_mem id member
    rw [slotsOf_release,alike.slotsOf,clone_slots,if_neg (Nat.ne_of_lt (recordSound.release.held_lt before)),recordedSlots,
      addedSlots other before]

theorem Sound.addTr (key : Key) (attrs : Attributes) (settled : exact = true → Settled store id)
    (absent : lookup (slotsOf store id) key = none) :
    let added := Shapes.addTr store id key attrs
    Evolves exact store held id added.1 added.2.1 (fun _ => slotsOf added.1 added.2.1) ∧
      (exact = true → slotsOf added.1 added.2.1 = withKey key attrs (slotsOf store id)) := by
  intro added
  unfold added Shapes.addTr
  split
  next =>
    simp only
    split
    next child slot found =>
      obtain ⟨child,recorded,there⟩ := bind_eq_some_iff.mp found
      obtain ⟨slot,located,same⟩ := map_eq_some_iff.mp there
      obtain ⟨rfl,rfl⟩ := Prod.mk.inj same
      have listed := Library.OrderedMap.mem_of_find _ _ _ recorded
      have moved := sound.toChild listed
      exact ⟨moved.reached,fun holds => moved.slots.trans (sound.children holds id _ _ listed)⟩
    next =>
      have moved := sound.toNewChild attrs absent
      exact ⟨moved.reached,fun _ => moved.slots⟩
  next apart =>
    simp only [isInTree,Bool.or_eq_true,not_or,Bool.not_eq_true] at apart
    have own : Own exact store held id := ⟨sound,by simpa [isShared] using apart.1,fun holds => settled holds apart.1⟩
    obtain ⟨-,evolved⟩ := own.addKey key attrs absent
    exact ⟨evolved.reached,fun _ => evolved.slots⟩

theorem Sound.setAttrs (settled : exact = true → Settled store id) (attrs : Attributes) (found : lookup (slotsOf store id) key = some slot) :
    Evolves exact store held id (Shapes.setAttrs (Shapes.ensureUnique store id).1 (Shapes.ensureUnique store id).2 key attrs)
      (Shapes.ensureUnique store id).2 fun slots => withAttrs attrs slots slot := by
  have same : slotsOf (Shapes.ensureUnique store id).1 (Shapes.ensureUnique store id).2 = slotsOf store id :=
    (sound.ensureUnique settled).2.slots
  simp only [Shapes.setAttrs,same,found]
  exact (sound.edit settled _ (keepsDistinct_modify found (fun property => {property with attrs := attrs}) fun _ => rfl)).alike
    (alike_bumpEpoch _)

theorem Sound.changeProp (settled : exact = true → Settled store id) (f : Property → Property)
    (same : ∀ property, (f property).key = property.key) (found : lookup (slotsOf store id) key = some slot) :
    Evolves exact store held id (bumpEpoch (Shapes.changeProp (Shapes.ensureUnique store id).1 (Shapes.ensureUnique store id).2 slot f))
      (Shapes.ensureUnique store id).2 fun slots => slots.modify slot fun entry => entry.map f :=
  (sound.edit settled _ (keepsDistinct_modify found f same)).alike (alike_bumpEpoch _)

end

section
variable {slots : Slots} {key : Key} {slot : Nat}

theorem propAt_of_lookup (found : lookup slots key = some slot) :
    ∃ property, propAt slots slot = some property ∧ property.key = key := by
  obtain ⟨before,property,behind,rfl,rfl,same,-⟩ := lookup_split slots key slot found
  exact ⟨property,by simp [propAt],same⟩

theorem lookup_of_propAt {property : Property} (distinct : (keysOf slots).Nodup) (there : propAt slots slot = some property)
    (same : property.key = key) : lookup slots key = some slot := by
  have entry : slots[slot]? = some (some property) := join_eq_some_iff.mp there
  obtain ⟨inside,here⟩ := List.getElem?_eq_some_iff.mp entry
  have whole : slots = slots.take slot ++ some property :: slots.drop (slot + 1) := by
    rw [← here,List.getElem_cons_drop,List.take_append_drop]
  have fresh : key ∉ keysOf (slots.take slot) := by
    rw [whole,keysOf_append] at distinct
    intro member
    have later : key ∈ keysOf (some property :: slots.drop (slot + 1)) := by
      rw [← same]
      exact List.mem_cons_self
    exact (List.nodup_append.mp distinct).2.2 _ member _ later rfl
  have absent := (lookup_eq_none _ _).mpr fresh
  have first : lookup (some property :: slots.drop (slot + 1)) key = some 0 := by simp [lookup,List.findIdx?_cons,same]
  rw [whole]
  rw [lookup] at absent first ⊢
  rw [List.findIdx?_append,absent,first]
  simp [Nat.le_of_lt inside]

theorem Sound.removeSlot (sound : Sound exact store (id :: held)) (settled : exact = true → Settled store id)
    (found : lookup (slotsOf store id) key = some slot) :
    let unique := Shapes.ensureUnique store id
    Evolves exact store held id (Shapes.removeSlot unique.1 unique.2 slot) unique.2 (fun slots => trimHoles (slots.set slot none)) ∧
      Evolves exact store held id (compact (Shapes.removeSlot unique.1 unique.2 slot) unique.2) unique.2
        fun slots => (trimHoles (slots.set slot none)).filter Option.isSome := by
  intro unique
  obtain ⟨own,evolved⟩ := sound.ensureUnique settled
  have apart : KeepsDistinct (fun slots => trimHoles (slots.set slot none)) (slotsOf unique.1 unique.2) := by
    rw [evolved.slots]
    exact keepsDistinct_clear found
  have there : (propAt (slotsOf unique.1 unique.2) slot).isNone = false := by
    obtain ⟨property,here,-⟩ := propAt_of_lookup found
    rw [evolved.slots,here]
    rfl
  have removed : Shapes.removeSlot unique.1 unique.2 slot =
      bumpEpoch (changeSlots unique.1 unique.2 fun slots => trimHoles (slots.set slot none)) := by
    rw [Shapes.removeSlot,there]
    rfl
  have first := (own.evolves _ apart).alike (alike_bumpEpoch _)
  have ownAfter := (own.change _ apart).alike (alike_bumpEpoch _)
  rw [← removed] at first ownAfter
  exact ⟨evolved.trans first,(evolved.trans first).trans (ownAfter.evolves _ keepsDistinct_compact)⟩

end

theorem Sound.same (sound : Sound exact store (id :: held)) (alike : Alike store after) :
    Evolves exact store held id after id fun slots => slots :=
  ⟨alike.sound sound,alike.slotsOf id,fun other _ => alike.slotsOf other⟩

theorem Sound.moveTo (sound : Sound exact store (id :: held)) (present : 0 < refs store.shapes new) :
    Evolves exact store held id (Shapes.release (Shapes.retain store new) id) new fun _ => slotsOf store new := by
  have retained := (sound.retain new present).perm (List.Perm.swap _ _ _)
  refine ⟨retained.release,?_,?_⟩
  · rw [slotsOf_release,slotsOf_retain]
  · intro other _
    rw [slotsOf_release,slotsOf_retain]

theorem Sound.unlink {parent child : ShapeId} (sound : Sound exact store held) (listed : (key,child) ∈ childrenOf store parent) :
    Sound exact {store with shapes := unlink store.shapes parent fun entry => entry.1 ≠ key} (child :: held) ∧
      ∀ other, slotsOf {store with shapes := unlink store.shapes parent fun entry => entry.1 ≠ key} other = slotsOf store other := by
  have slots (other : ShapeId) :
      slotsOf {store with shapes := Library.RefCount.unlink store.shapes parent fun entry => entry.1 ≠ key} other = slotsOf store other :=
    slotsOf_of_map (map_modify store.shapes parent (fun shape => {shape with links := shape.links.filter _})
      (fun shape => shape.content.slots) fun _ => rfl) other
  obtain ⟨shape,there,member⟩ := mem_childrenOf.mp listed
  refine ⟨sound.carry (sound.counted.unlink parent (fun entry => entry.1 ≠ key) shape there (key,child) member (by simp)) slots ?_,
    slots⟩
  intro other entry listed
  obtain ⟨after,found,member⟩ := mem_childrenOf.mp listed
  simp only [Library.RefCount.unlink,List.getElem?_modify] at found
  obtain ⟨shape,there,rfl⟩ := map_eq_some_iff.mp found
  refine mem_childrenOf.mpr ⟨shape,there,?_⟩
  split at member
  next => exact List.mem_of_mem_filter member
  next => exact member

theorem Sound.pruneChild (sound : Sound exact store held) (parent : ShapeId) (key : ChildKey) :
    Sound exact (Shapes.pruneChild store parent key) held ∧
      ∀ other, slotsOf (Shapes.pruneChild store parent key) other = slotsOf store other := by
  unfold Shapes.pruneChild
  split
  next => exact ⟨sound,fun _ => rfl⟩
  next child found =>
    split
    next =>
      obtain ⟨unlinked,slots⟩ := sound.unlink (Library.OrderedMap.mem_of_find _ _ _ found)
      have orphan := alike_changeTable {store with shapes := Library.RefCount.unlink store.shapes parent fun entry => entry.1 ≠ key}
        child (fun table => {table with parent := none}) fun _ => rfl
      exact ⟨(orphan.sound unlinked).release,fun other => by rw [slotsOf_release]; exact (orphan.slotsOf other).trans (slots other)⟩
    next => exact ⟨sound,fun _ => rfl⟩

end Steps

end Ant.Runtime.ShapeStore
