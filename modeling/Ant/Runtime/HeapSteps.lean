import Ant.Runtime.Objects

/-! What each operation does to the properties of every object, and that it keeps the shapes counted.
A group of results is stated for holders `ext` beside those of the heap: their shapes stay as they
are, whatever the objects do. -/
namespace Ant.Runtime.HeapSteps
open Library.RefCount Shapes ShapeStore Objects List Option

structure View where
  properties : List Property
  proto : Option Nat
  exotic : Bool
  identity : Nat
  deriving DecidableEq,Repr

def viewOf (heap : Heap) (object : Object) : View := ⟨live (slotsAt heap object),object.proto,object.exotic,object.identity⟩

def viewAt (heap : Heap) (id : Nat) : Option View := heap.objects[id]?.map (viewOf heap)

def Way (store : Store) (site : PutSite) : Prop :=
  ∀ old new, site.fromShape = some old → site.toShape = some new →
    lookup (slotsOf store old) (.string site.name) = none →
      slotsOf store new = withKey (.string site.name) Attributes.all (slotsOf store old)

/-- The counts are right and keys apart; if `exact`, recorded children and ways are one key ahead as well. -/
structure Inv (exact : Bool) (heap : Heap) (ext : List ShapeId) : Prop where
  sound : Sound exact heap.store (holders heap ++ ext)
  ways : exact = true → ∀ site ∈ heap.sites, Way heap.store site
  empty : ∀ id ∈ roots, slotsOf heap.store id = []

/-- The heap after an operation: still counted, with the shapes of `ext` as they were and the view
of every object given by `change`. -/
structure Leads (exact : Bool) (heap after : Heap) (ext : List ShapeId) (change : Nat → Option View → Option View) : Prop where
  inv : Inv exact after ext
  frame : ∀ id ∈ ext, slotsOf after.store id = slotsOf heap.store id
  grows : heap.objects.length ≤ after.objects.length
  views : exact = true → ∀ id, viewAt after id = change id (viewAt heap id)

def unchanged (_ : Nat) (view : Option View) : Option View := view

def changed (target : Nat) (f : View → View) (id : Nat) (view : Option View) : Option View := if id = target then view.map f else view

def others (heap : Heap) (id : Nat) (ext : List ShapeId) : List ShapeId :=
  (heap.objects.eraseIdx id).map Object.shape ++ (caches heap ++ ext)

section Steps
variable {exact : Bool} {heap after last : Heap} {ext : List ShapeId} {f g : Nat → Option View → Option View}

theorem Leads.refl (inv : Inv exact heap ext) : Leads exact heap heap ext unchanged := ⟨inv,fun _ _ => rfl,Nat.le_refl _,fun _ _ => rfl⟩

theorem Leads.trans (one : Leads exact heap after ext f) (two : Leads exact after last ext g) :
    Leads exact heap last ext fun id view => g id (f id view) where
  inv := two.inv
  frame := fun id member => (two.frame id member).trans (one.frame id member)
  grows := one.grows.trans two.grows
  views := fun holds id => by rw [two.views holds,one.views holds]

theorem Leads.congr (leads : Leads exact heap after ext f) 
    (same : exact = true → ∀ id, f id (viewAt heap id) = g id (viewAt heap id)) :
    Leads exact heap after ext g := ⟨leads.inv,leads.frame,leads.grows,fun holds id => (leads.views holds id).trans (same holds id)⟩

theorem Way.congr {store other : Store} {site : PutSite} (way : Way store site)
    (same : ∀ id ∈ site.holds, slotsOf other id = slotsOf store id) : Way other site := by
  intro old new source target
  have oldSame := same old (by simp [PutSite.holds,source])
  have newSame := same new (by simp [PutSite.holds,target])
  rw [oldSame,newSame]
  exact way old new source target

theorem holders_perm {id : Nat} {object : Object} (found : heap.objects[id]? = some object) (ext : List ShapeId) :
    (holders heap ++ ext).Perm (object.shape :: others heap id ext) := by
  obtain ⟨inside,here⟩ := List.getElem?_eq_some_iff.mp found
  have objects := ((getElem_cons_eraseIdx_perm inside).symm.map Object.shape).append_right (caches heap ++ ext)
  rw [here] at objects
  rw [holders,append_assoc]
  exact objects

theorem mem_others {id other : Nat} {object : Object} (found : heap.objects[other]? = some object) (different : other ≠ id) :
    object.shape ∈ others heap id ext := by
  obtain ⟨inside,here⟩ := List.getElem?_eq_some_iff.mp found
  refine mem_append_left _ (mem_map.mpr ⟨object,?_,rfl⟩)
  exact mem_eraseIdx_iff_getElem.mpr ⟨other,inside,different,here⟩

theorem holds_mem_caches {site : PutSite} (member : site ∈ heap.sites) {id : ShapeId} (held : id ∈ site.holds) : id ∈ caches heap :=
  mem_append_left _ (mem_flatMap.mpr ⟨site,member,held⟩)

theorem root_mem_caches {heap : Heap} {id : ShapeId} (member : id ∈ roots) : id ∈ caches heap :=
  mem_append_right _ (mem_append_right _ (mem_append_right _ member))

theorem Inv.object {id : Nat} {object : Object} (inv : Inv exact heap ext) (found : heap.objects[id]? = some object) :
    Sound exact heap.store (object.shape :: others heap id ext) := inv.sound.perm (holders_perm found ext)

theorem Inv.reshape {id : Nat} {object : Object} {store : Store} {edit : Slots → Slots} (inv : Inv exact heap ext) (new : Object)
    (found : heap.objects[id]? = some object) (evolves : Evolves exact heap.store (others heap id ext) object.shape store new.shape edit) :
    Leads exact heap (reshape heap id store new) ext
      (changed id fun _ => ⟨live (edit (slotsAt heap object)),new.proto,new.exotic,new.identity⟩) := by
  have inside : id < heap.objects.length := (List.getElem?_eq_some_iff.mp found).1
  have placed : (Objects.reshape heap id store new).objects[id]? = some new := by simp [Objects.reshape,inside]
  have rest : others (Objects.reshape heap id store new) id ext = others heap id ext := by
    simp [others,Objects.reshape,caches,eraseIdx_set_eq]
  refine ⟨⟨?_,?_,?_⟩,?_,by simp [Objects.reshape],?_⟩
  · refine Sound.perm ?_ (holders_perm placed ext).symm
    rw [rest]
    exact evolves.sound
  · intro holds site member
    refine (inv.ways holds site member).congr fun shape held => evolves.frame shape ?_
    exact mem_append_right _ (mem_append_left _ (holds_mem_caches member held))
  · intro root member
    refine (evolves.frame root ?_).trans (inv.empty root member)
    exact mem_append_right _ (mem_append_left _ (root_mem_caches member))
  · intro shape member
    exact evolves.frame shape (mem_append_right _ (mem_append_right _ member))
  · intro _ other
    by_cases same : other = id
    · subst same
      have slots : slotsAt (Objects.reshape heap other store new) new = edit (slotsAt heap object) := evolves.slots
      simp only [viewAt,placed,found,changed,if_true,map_some,viewOf,slots]
    · have kept : (Objects.reshape heap id store new).objects[other]? = heap.objects[other]? := by
        simp [Objects.reshape,Ne.symm same]
      simp only [viewAt,kept,changed,if_neg same]
      cases there : heap.objects[other]? with
      | none => rfl
      | some entry =>
        have slots : slotsAt (Objects.reshape heap id store new) entry = slotsAt heap entry :=
          evolves.frame entry.shape (mem_others there same)
        simp only [map_some,viewOf,slots]

theorem Inv.recount (inv : Inv exact heap ext) (objects : after.objects = heap.objects)
    (slots : ∀ id, slotsOf after.store id = slotsOf heap.store id) (sound : Sound exact after.store (holders after ++ ext))
    (ways : exact = true → ∀ site ∈ after.sites, Way heap.store site) :
    Leads exact heap after ext unchanged where
  inv := ⟨sound,fun holds site member => (ways holds site member).congr fun id _ => slots id,
    fun id member => (slots id).trans (inv.empty id member)⟩
  frame := fun id _ => slots id
  grows := by rw [objects]
  views := fun _ id => by
    have view (object : Object) : viewOf after object = viewOf heap object := by simp only [viewOf,slotsAt,slots]
    simp only [viewAt,objects]
    cases heap.objects[id]? with
    | none => rfl
    | some object => exact congrArg some (view object)

section
variable {id : Nat} {object : Object} {change : View → View}

theorem Inv.alike (inv : Inv exact heap ext) (store : Store) (alike : Alike heap.store store) (prototypeEpoch : Nat) :
    Leads exact heap
      {heap with
        store := store
        prototypeEpoch := prototypeEpoch} ext unchanged :=
  inv.recount rfl alike.slotsOf (alike.sound inv.sound) inv.ways

theorem Inv.prototypeWrite (inv : Inv exact heap ext) (key : Key) : Leads exact heap (prototypeWrite heap key) ext unchanged := by
  unfold Objects.prototypeWrite
  split
  next =>
    split
    next => exact inv.alike _ (alike_bumpEpoch heap.store) _
    next => exact inv.alike _ (Alike.refl heap.store) _
  next => exact Leads.refl inv

theorem Leads.seen (found : heap.objects[id]? = some object) {change other : View → View}
    (leads : Leads exact heap after ext (changed id change)) (same : exact = true → change (viewOf heap object) = other (viewOf heap object)) :
    Leads exact heap after ext (changed id other) := by
  refine leads.congr fun holds asked => ?_
  unfold changed
  split
  next here => simp [here,viewAt,found,same holds]
  next => rfl

theorem Leads.unseen (found : heap.objects[id]? = some object) (leads : Leads exact heap after ext (changed id change))
    (same : change (viewOf heap object) = viewOf heap object) : Leads exact heap after ext unchanged := by
  refine (leads.seen found fun _ => same.trans (id_eq (viewOf heap object)).symm).congr fun _ asked => ?_
  unfold changed unchanged
  split
  next => exact map_id_apply
  next => rfl

theorem Inv.still (inv : Inv exact heap ext) (found : heap.objects[id]? = some object)
    (same : change (viewOf heap object) = viewOf heap object) : Leads exact heap heap ext (changed id change) := by
  refine (Leads.refl inv).congr fun _ asked => ?_
  unfold changed unchanged
  split
  next here => simp [here,viewAt,found,same]
  next => rfl

theorem Inv.missing (inv : Inv exact heap ext) (missing : heap.objects[id]? = none) (change : View → View) :
    Leads exact heap heap ext (changed id change) := by
  refine (Leads.refl inv).congr fun _ other => ?_
  unfold changed unchanged
  split
  next here => simp [here,viewAt,missing]
  next => rfl

end

theorem Leads.then (one : Leads exact heap after ext f) (two : Leads exact after last ext unchanged) : Leads exact heap last ext f := one.trans two

section
variable (inv : Inv exact heap ext) (limit : Nat)
include inv limit

theorem Inv.root_refs : 0 < refs heap.store.shapes (min limit 4) := by
  refine inv.sound.counted.refs_pos (mem_append_left _ (mem_append_right _ (root_mem_caches ?_)))
  exact mem_range.mpr (by omega)

theorem Inv.root_empty : slotsOf heap.store (min limit 4) = [] :=
  inv.empty _ (mem_range.mpr (by omega))

theorem Inv.create (proto : Option Nat) (exotic array : Bool) : Leads exact heap (create heap limit proto exotic array) ext
      fun id view => if id = heap.objects.length then some ⟨[],proto,exotic,0⟩ else view := by
  have retained := inv.sound.retain _ (inv.root_refs limit)
  refine ⟨⟨?_,?_,?_⟩,fun id _ => slotsOf_retain _ _ id,by simp [Objects.create],?_⟩
  · refine retained.perm ?_
    have moved : ((min limit 4) :: (heap.objects.map Object.shape ++ (caches heap ++ ext))).Perm
        (heap.objects.map Object.shape ++ (min limit 4) :: (caches heap ++ ext)) := perm_middle.symm
    simpa [holders,Objects.create,fresh,caches,append_assoc] using moved
  · intro holds site member
    exact (inv.ways holds site member).congr fun id _ => slotsOf_retain _ _ id
  · intro id member
    exact (slotsOf_retain _ _ id).trans (inv.empty id member)
  · intro _ id
    have view (object : Object) : viewOf (Objects.create heap limit proto exotic array) object = viewOf heap object := by
      simp only [viewOf,slotsAt,Objects.create,slotsOf_retain]
    split
    next here =>
      have made : viewOf heap (fresh limit proto exotic array) = ⟨[],proto,exotic,0⟩ := by
        simp [viewOf,slotsAt,fresh,inv.root_empty limit,live]
      simp only [viewAt,Objects.create,here,getElem?_concat_length,map_some]
      rw [← made]
      exact congrArg some (view _)
    next other =>
      have kept : (heap.objects ++ [fresh limit proto exotic array])[id]? = heap.objects[id]? := by
        rcases Nat.lt_or_gt_of_ne other with below | above
        · exact getElem?_append_left below
        · rw [getElem?_eq_none (Nat.le_of_lt above),getElem?_eq_none (by simpa using Nat.succ_le_of_lt above)]
      simp only [viewAt]
      rw [show (Objects.create heap limit proto exotic array).objects = heap.objects ++ [fresh limit proto exotic array] from rfl,kept]
      cases heap.objects[id]? with
      | none => rfl
      | some object => exact congrArg some (view object)

end

theorem Inv.recycle (inv : Inv exact heap ext) (id limit : Nat) (proto : Option Nat) (exotic array : Bool) :
    Leads exact heap (recycle heap id limit proto exotic array) ext
      (if heap.objects.any fun other => other.proto == some id then unchanged else changed id fun _ => ⟨[],proto,exotic,0⟩) := by
  unfold Objects.recycle
  split
  next missing =>
    split
    next => exact Leads.refl inv
    next => exact inv.missing missing _
  next object found =>
    split
    next => exact Leads.refl inv
    next =>
      have moved := inv.reshape (fresh limit proto exotic array) found ((inv.object found).moveTo (inv.root_refs limit))
      have empty : slotsOf heap.store (fresh limit proto exotic array).shape = [] := inv.root_empty limit
      rw [empty] at moved
      exact moved

def View.edit (f : List Property → List Property) (view : View) : View := {view with properties := f view.properties}

def define (key : Key) (attrs : Attributes) (properties : List Property) : List Property :=
  if key ∈ properties.map Property.key then changeAt key (fun property => {property with attrs := attrs}) properties
  else properties ++ [dataProperty key attrs]

def ensure (key : Key) (properties : List Property) : List Property :=
  if key ∈ properties.map Property.key then properties else properties ++ [dataProperty key Attributes.all]

theorem mem_keys_of_lookup {slots : Slots} {key : Key} {slot : Nat} (found : lookup slots key = some slot) :
    key ∈ (live slots).map Property.key := by
  by_contra fresh
  rw [(lookup_eq_none slots key).mpr fresh] at found
  contradiction

theorem live_withKey (key : Key) (attrs : Attributes) (slots : Slots) :
    live (withKey key attrs slots) = live slots ++ [dataProperty key attrs] := live_append

def SettledAt (heap : Heap) (id : Nat) : Prop := ∀ object ∈ heap.objects[id]?, Settled heap.store object.shape

instance (store : Store) (id : ShapeId) : Decidable (Settled store id) :=
  inferInstanceAs (Decidable (isShared store id = false → childrenOf store id = []))

instance (heap : Heap) (id : Nat) : Decidable (SettledAt heap id) :=
  inferInstanceAs (Decidable (∀ object ∈ heap.objects[id]?, Settled heap.store object.shape))

theorem Inv.mkprop (inv : Inv exact heap ext) (id : Nat) (key : Key) (attrs : Attributes) (value : Value)
    (settled : exact = true → SettledAt heap id) :
    Leads exact heap (mkprop heap id key attrs value) ext (changed id (View.edit (define key attrs))) := by
  unfold Objects.mkprop
  split
  next missing => exact inv.missing missing _
  next object found =>
    have sound := inv.object found
    split
    next slot there =>
      have evolves := sound.setAttrs (fun holds => settled holds object found) attrs there
      have reshaped := inv.reshape
        {object with
          shape := (ensureUnique heap.store object.shape).2
          values := write object.values slot value} found evolves
      refine (reshaped.seen found fun _ => ?_).then (reshaped.inv.prototypeWrite key)
      have listed := mem_keys_of_lookup there
      have edited : live (withAttrs attrs (slotsAt heap object) slot) = define key attrs (live (slotsAt heap object)) := by
        rw [define,if_pos listed]
        exact live_modify there (sound.distinct _) _
      rw [edited]
      rfl
    next absent =>
      obtain ⟨evolves,ahead⟩ := sound.addTr key attrs (fun holds => settled holds object found) absent
      have reshaped := inv.reshape
        {object with
          shape := (addTr heap.store object.shape key attrs).2.1
          values := write (fit object.values
            (slotsOf (addTr heap.store object.shape key attrs).1 (addTr heap.store object.shape key attrs).2.1).length)
            (addTr heap.store object.shape key attrs).2.2 value} found evolves
      refine (reshaped.seen found fun holds => ?_).then (reshaped.inv.prototypeWrite key)
      have edited : live (withKey key attrs (slotsAt heap object)) = define key attrs (live (slotsAt heap object)) := by
        have unlisted : key ∉ (live (slotsAt heap object)).map Property.key := (lookup_eq_none _ _).mp absent
        rw [define,if_neg unlisted,live_withKey]
      rw [ahead holds,← slotsAt,edited]
      rfl

theorem Inv.touch {id : Nat} {object : Object} (inv : Inv exact heap ext) (new : Object) (found : heap.objects[id]? = some object)
    (shape : new.shape = object.shape) {store : Store} (alike : Alike heap.store store) :
    Leads exact heap (Objects.reshape heap id store new) ext
      (changed id fun view => ⟨view.properties,new.proto,new.exotic,new.identity⟩) := by
  have reshaped := inv.reshape new found (by rw [shape]; exact (inv.object found).same alike)
  exact reshaped.seen found fun _ => rfl

theorem Inv.hidden {id : Nat} {object : Object} (inv : Inv exact heap ext) (new : Object) (found : heap.objects[id]? = some object)
    (shape : new.shape = object.shape) (proto : new.proto = object.proto) (exotic : new.exotic = object.exotic)
    (identity : new.identity = object.identity) : Leads exact heap (Objects.reshape heap id heap.store new) ext unchanged := by
  have touched := inv.touch new found shape (Alike.refl heap.store)
  exact touched.unseen found (by simp only [viewOf,proto,exotic,identity])

theorem Inv.ensureSlot (inv : Inv exact heap ext) (id : Nat) (key : Key) (settled : exact = true → SettledAt heap id) :
    Leads exact heap (ensureSlot heap id key) ext (changed id (View.edit (ensure key))) := by
  unfold Objects.ensureSlot
  split
  next missing => exact inv.missing missing _
  next object found =>
    split
    next slot there =>
      have kept : ensure key (live (slotsAt heap object)) = live (slotsAt heap object) := if_pos (mem_keys_of_lookup there)
      exact inv.still found (by simp only [View.edit,viewOf,kept])
    next absent =>
      obtain ⟨evolves,ahead⟩ :=
        (inv.object found).addTr key Attributes.all (fun holds => settled holds object found) absent
      have reshaped := inv.reshape
        {object with
          shape := (addTr heap.store object.shape key Attributes.all).2.1
          values := fit object.values
            (slotsOf (addTr heap.store object.shape key Attributes.all).1 (addTr heap.store object.shape key Attributes.all).2.1).length}
        found evolves
      refine reshaped.seen found fun holds => ?_
      have unlisted : key ∉ (live (slotsAt heap object)).map Property.key := (lookup_eq_none _ _).mp absent
      have edited : live (withKey key Attributes.all (slotsAt heap object)) = ensure key (live (slotsAt heap object)) := by
        rw [ensure,if_neg unlisted,live_withKey]
      rw [ahead holds,← slotsAt,edited]
      rfl

theorem Inv.applyDescriptor (inv : Inv exact heap ext) (id : Nat) (key : Key) (attrs : Attributes) (getter setter : Option (Option Value))
    (settled : exact = true → SettledAt heap id) : Leads exact heap (applyDescriptor heap id key attrs getter setter) ext
      (changed id (View.edit (changeAt key (Property.describe attrs getter setter)))) := by
  unfold Objects.applyDescriptor
  split
  next missing => exact inv.missing missing _
  next object found =>
    have sound := inv.object found
    split
    next absent =>
      have kept := changeAt_fresh (Property.describe attrs getter setter) ((lookup_eq_none _ _).mp absent)
      exact inv.still found (by simp only [View.edit,viewOf,kept])
    next slot there =>
      have evolves := sound.changeProp (fun holds => settled holds object found) (Property.describe attrs getter setter) (fun _ => rfl) there
      have reshaped := inv.reshape {object with shape := (ensureUnique heap.store object.shape).2} found evolves
      refine reshaped.seen found fun _ => ?_
      rw [live_modify there (sound.distinct _) _]
      rfl

theorem Inv.describe (inv : Inv exact heap ext) (id : Nat) (key : Key) (attrs : Attributes) (getter setter : Option (Option Value))
    (settled : exact = true → SettledAt heap id)
    (settledAfter : exact = true → SettledAt (Objects.ensureSlot heap id key) id) :
    Leads exact heap (describe heap id key attrs getter setter) ext
      (changed id (View.edit fun properties => changeAt key (Property.describe attrs getter setter) (ensure key properties))) := by
  have slot := inv.ensureSlot id key settled
  have described := slot.inv.applyDescriptor id key attrs getter setter settledAfter
  refine (slot.trans described).congr fun _ other => ?_
  unfold changed
  split
  next =>
    rw [Option.map_map]
    rfl
  next => rfl

theorem Inv.assign (inv : Inv exact heap ext) (id : Nat) (key : Key) (value : Value) : Leads exact heap (assign heap id key value) ext unchanged := by
  unfold Objects.assign
  split
  next => exact Leads.refl inv
  next object found =>
    split
    next => exact Leads.refl inv
    next slot there =>
      split
      next =>
        have written := inv.hidden {object with values := object.values.set slot value} found rfl rfl rfl rfl
        exact written.then (written.inv.prototypeWrite key)
      next => exact Leads.refl inv

def deletable (heap : Heap) (id : Nat) (key : Key) : Bool :=
  heap.objects[id]?.any fun object =>
    !object.frozen && !object.sealed &&
      (lookup (slotsAt heap object) key).any fun slot => (propAt (slotsAt heap object) slot).any fun property => property.attrs.configurable

def without (key : Key) (properties : List Property) : List Property := properties.filter fun property => property.key ≠ key

theorem Inv.delete (inv : Inv exact heap ext) (id : Nat) (key : Key) 
    (settled : exact = true → deletable heap id key = true → SettledAt heap id) :
    Leads exact heap (delete heap id key) ext
      (if deletable heap id key then changed id (View.edit (without key)) else unchanged) := by
  unfold Objects.delete
  split
  next missing => simpa [deletable,missing] using Leads.refl inv
  next object found =>
    have sound := inv.object found
    split
    next absent => simpa [deletable,found,absent] using Leads.refl inv
    next slot there =>
      split
      next refused =>
        have kept : deletable heap id key = false := by
          simp only [Bool.or_eq_true,Bool.not_eq_true'] at refused
          simp only [deletable,found,there,any_some]
          rcases refused with (frozen | sealed) | fixed
          · simp [frozen]
          · simp [sealed]
          · simp [fixed]
        rw [kept]
        exact Leads.refl inv
      next allowed =>
        have removable : deletable heap id key = true := by
          simp only [Bool.or_eq_true,Bool.not_eq_true',not_or,Bool.not_eq_true,Bool.not_eq_false] at allowed
          simp [deletable,found,there,allowed]
        rw [removable,if_pos rfl]
        obtain ⟨removed,compacted⟩ := sound.removeSlot (fun holds => settled holds removable object found) there
        have gone : live (trimHoles ((slotsAt heap object).set slot none)) = without key (live (slotsAt heap object)) := by
          rw [live_trimHoles,live_clear there (sound.distinct _)]
          rfl
        simp only
        split
        next =>
          refine (inv.reshape {object with shape := (ensureUnique heap.store object.shape).2} found removed).seen found fun _ => ?_
          rw [gone]
          rfl
        next =>
          split
          next =>
            refine (inv.reshape _ found compacted).seen found fun _ => ?_
            rw [live_compact,gone]
            rfl
          next =>
            refine (inv.reshape _ found removed).seen found fun _ => ?_
            rw [gone]
            rfl

section
variable (inv : Inv exact heap ext) (id : Nat)
include inv id

theorem Inv.setProto (proto : Option Nat) :
    Leads exact heap (setProto heap id proto) ext (changed id fun view => {view with proto := proto}) := by
  unfold Objects.setProto
  split
  next missing => exact inv.missing missing _
  next object found =>
    have touched := inv.touch {object with proto := proto} found rfl (alike_bumpEpoch heap.store)
    exact touched.seen found fun _ => rfl

theorem Inv.initProto (proto : Option Nat) :
    Leads exact heap (initProto heap id proto) ext (changed id fun view => {view with proto := proto}) := by
  unfold Objects.initProto
  split
  next missing => exact inv.missing missing _
  next object found =>
    have touched := inv.touch {object with proto := proto} found rfl (Alike.refl heap.store)
    exact touched.seen found fun _ => rfl

theorem Inv.restrict (frozen sealed : Bool) : Leads exact heap (restrict heap id frozen sealed) ext unchanged := by
  unfold Objects.restrict
  split
  next => exact Leads.refl inv
  next object found => exact inv.hidden _ found rfl rfl rfl rfl

theorem Inv.wrap (primitive : Primitive) : Leads exact heap (wrap heap id primitive) ext unchanged := by
  unfold Objects.wrap
  split
  next => exact Leads.refl inv
  next object found => exact inv.hidden _ found rfl rfl rfl rfl

end

def nextIdentity (heap : Heap) : Nat := if (heap.identities + 1) % 2^32 = 0 then 1 else (heap.identities + 1) % 2^32

def numbered (identity : Nat) (view : View) : View := if view.identity = 0 then {view with identity := identity} else view

theorem Inv.identify (inv : Inv exact heap ext) (id : Nat) :
    Leads exact heap (identify heap id) ext (changed id (numbered (nextIdentity heap))) := by
  unfold Objects.identify
  split
  next missing => exact inv.missing missing _
  next object found =>
    split
    next known =>
      exact inv.still found (if_neg known)
    next unknown =>
      have alike : Alike heap.store (if (heap.identities + 1) % 2^32 = 0 then bumpEpoch heap.store else heap.store) := by
        split
        next => exact alike_bumpEpoch heap.store
        next => exact Alike.refl heap.store
      have touched := inv.touch {object with identity := nextIdentity heap} found rfl alike
      have counted : Leads exact heap
          {Objects.reshape heap id (if (heap.identities + 1) % 2^32 = 0 then bumpEpoch heap.store else heap.store)
            {object with identity := nextIdentity heap} with identities := nextIdentity heap} ext _ :=
        ⟨⟨touched.inv.sound,touched.inv.ways,touched.inv.empty⟩,touched.frame,touched.grows,touched.views⟩
      have zero : object.identity = 0 := by simpa using unknown
      exact counted.seen found fun _ => by simp [viewOf,numbered,zero]

end Steps

end Ant.Runtime.HeapSteps
