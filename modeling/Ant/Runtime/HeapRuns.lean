import Ant.Runtime.HeapSteps

/-! The operations at sites and literals, the effect of every operation on every object, and runs. -/
namespace Ant.Runtime.HeapSteps
open Library.RefCount Shapes ShapeStore Objects List

variable {store : Store} {id index slot : Nat} {object : Object} {key asked : Key} {properties : List Property}
  {heap : Heap} {ext : List ShapeId} {exact : Bool}

section Steps
variable {heap after last : Heap} {ext : List ShapeId} {f g : Nat → Option View → Option View}

theorem swapRef_slots (store : Store) (old : Option ShapeId) (new id : ShapeId) :
    slotsOf (swapRef store old new) id = slotsOf store id := by
  unfold swapRef
  split
  next => rfl
  next =>
    split
    next => exact slotsOf_retain _ _ _
    next => rw [slotsOf_release,slotsOf_retain]

theorem swapRef_sound {old : Option ShapeId} {new : ShapeId} {held : List ShapeId}
    (sound : Sound exact store (old.toList ++ held)) (present : 0 < refs store.shapes new) :
    Sound exact (swapRef store old new) (new :: held) := by
  unfold swapRef
  split
  next same =>
    rw [same] at sound
    exact sound
  next =>
    split
    next => exact sound.retain new present
    next old _ => exact ((sound.retain new present).perm (List.Perm.swap _ _ _)).release

theorem count_holders (heap : Heap) (ext : List ShapeId) (id : ShapeId) : (holders heap ++ ext).count id =
      (heap.objects.map Object.shape).count id + (heap.sites.flatMap PutSite.holds).count id + (heap.pending.map Pending.old).count id +
        heap.held.count id + roots.count id + ext.count id := by
  simp only [holders,caches,count_append]
  omega

theorem Inv.shape_refs (inv : Inv exact heap ext) (found : heap.objects[id]? = some object) :
    0 < refs heap.store.shapes object.shape := (inv.object found).counted.refs_pos mem_cons_self

def blank (name : Nat) : PutSite := ⟨name,none,0,0,none,none,0,0⟩

def siteRest (heap : Heap) (index : Nat) (ext : List ShapeId) : List ShapeId :=
  holders {heap with sites := heap.sites.set index (blank 0)} ++ ext

theorem count_siteRest {site : PutSite} (found : heap.sites[index]? = some site) (new : PutSite) (id : ShapeId) :
    (new.holds ++ siteRest heap index ext).count id = (holders {heap with sites := heap.sites.set index new} ++ ext).count id := by
  have emptied := count_flatMap_set PutSite.holds index (blank 0) found id
  have replaced := count_flatMap_set PutSite.holds index new found id
  rw [show (blank 0).holds.count id = 0 from rfl] at emptied
  rw [count_append,siteRest,count_holders,count_holders]
  dsimp only
  omega

theorem Inv.site {site : PutSite} (inv : Inv exact heap ext) (found : heap.sites[index]? = some site) :
    Sound exact heap.store (site.holds ++ siteRest heap index ext) := by
  refine inv.sound.mono fun id => ?_
  obtain ⟨inside,here⟩ := List.getElem?_eq_some_iff.mp found
  have same : heap.sites.set index site = heap.sites := by rw [← here]; exact set_getElem_self inside
  refine Nat.le_of_eq ((count_siteRest found site id).trans ?_)
  rw [same]

theorem Inv.resite {site : PutSite} (inv : Inv exact heap ext) (found : heap.sites[index]? = some site) {new : PutSite}
    (slots : ∀ id, slotsOf store id = slotsOf heap.store id) (way : exact = true → Way heap.store new)
    (sound : Sound exact store (new.holds ++ siteRest heap index ext)) :
    Leads exact heap (setSite {heap with store := store} index new) ext unchanged := by
  refine inv.recount rfl slots ?_ ?_
  · exact sound.mono fun id => Nat.le_of_eq (count_siteRest found new id).symm
  · intro holds other member
    rcases mem_or_eq_of_mem_set member with old | rfl
    · exact inv.ways holds other old
    · exact way holds

theorem mem_siteRest (found : heap.objects[id]? = some object) : object.shape ∈ siteRest heap index ext :=
  mem_append_left _ (mem_append_left _ (mem_map_of_mem (mem_of_getElem? found)))

section
variable {site : PutSite} (inv : Inv exact heap ext) (found : heap.sites[index]? = some site)
  (there : heap.objects[id]? = some object)
include inv found there

theorem Inv.fillCached (slot : Nat) : Leads exact heap (fillCached heap index site object.shape slot) ext unchanged := by
  refine inv.resite found (swapRef_slots _ _ _) (fun holds => inv.ways holds site (mem_of_getElem? found)) ?_
  have held := inv.site found
  rw [PutSite.holds,append_assoc] at held
  exact swapRef_sound held (inv.shape_refs there)

theorem Inv.fillAdd {old : ShapeId} (kept : 0 < refs heap.store.shapes old)
    (ahead : exact = true → lookup (slotsOf heap.store old) (.string site.name) = none →
      slotsAt heap object = withKey (.string site.name) Attributes.all (slotsOf heap.store old)) :
    Leads exact heap (fillAdd heap index site old object.shape slot) ext unchanged := by
  refine inv.resite found (fun id => by rw [swapRef_slots,swapRef_slots]) ?_ ?_
  · rintro holds source target from_ to_
    obtain rfl : old = source := Option.some.inj from_
    obtain rfl : object.shape = target := Option.some.inj to_
    exact ahead holds
  · have held : Sound exact heap.store
        (site.fromShape.toList ++ (site.toShape.toList ++ (site.cached.toList ++ siteRest heap index ext))) := by
      refine (inv.site found).mono fun id => ?_
      simp only [PutSite.holds,count_append]
      omega
    have first := swapRef_sound held kept
    have moved : Sound exact (swapRef heap.store site.fromShape old)
        (site.toShape.toList ++ (old :: (site.cached.toList ++ siteRest heap index ext))) := by
      refine first.mono fun id => ?_
      simp only [count_append,count_cons]
      omega
    have shape : object.shape ∈ old :: (site.toShape.toList ++ (site.cached.toList ++ siteRest heap index ext)) :=
      mem_cons_of_mem _ (mem_append_right _ (mem_append_right _ (mem_siteRest there)))
    refine (swapRef_sound moved (first.counted.refs_pos shape)).mono fun id => ?_
    simp only [PutSite.holds,Option.toList_some,count_append,count_cons,count_nil]
    omega

end

section
variable {id : Nat} {object : Object}

theorem Inv.putSlot (inv : Inv exact heap ext) (site : PutSite) (found : heap.objects[id]? = some object) (slot : Nat)
    (value : Value) : Leads exact heap (putSlot heap site id object slot value) ext unchanged := by
  have written := inv.hidden {object with values := object.values.set slot value} found rfl rfl rfl rfl
  exact written.then (written.inv.prototypeWrite _)

theorem prototypeWrite_rest (heap : Heap) (key : Key) :
    (prototypeWrite heap key).objects = heap.objects ∧ (prototypeWrite heap key).sites = heap.sites ∧
      (prototypeWrite heap key).pending = heap.pending := by
  unfold prototypeWrite
  split
  next =>
    split
    next => exact ⟨rfl,rfl,rfl⟩
    next => exact ⟨rfl,rfl,rfl⟩
  next => exact ⟨rfl,rfl,rfl⟩

theorem reshape_at (found : heap.objects[id]? = some object) (store : Store) (new : Object) :
    (Objects.reshape heap id store new).objects[id]? = some new := by
  have inside : id < heap.objects.length := (List.getElem?_eq_some_iff.mp found).1
  simp [Objects.reshape,inside]

theorem Inv.putAdd {id : Nat} {site : PutSite} {toShape : ShapeId} (inv : Inv exact heap ext)
    (found : heap.sites[index]? = some site) (there : heap.objects[id]? = some object)
    (source : site.fromShape = some object.shape) (target : site.toShape = some toShape)
    (absent : lookup (slotsAt heap object) (.string site.name) = none) (value : Value) :
    Leads exact heap (putAdd heap index site id object toShape value) ext
      (changed id (View.edit fun properties => properties ++ [dataProperty (.string site.name) Attributes.all])) := by
  have member := mem_of_getElem? found
  have present : 0 < refs heap.store.shapes toShape := by
    refine inv.sound.counted.refs_pos (mem_append_left _ (mem_append_right _ (holds_mem_caches member ?_)))
    simp [PutSite.holds,target]
  have moved := inv.reshape
    {object with
      shape := toShape
      values := write object.values site.slot value} there ((inv.object there).moveTo present)
  have written := moved.inv.prototypeWrite (.string site.name)
  have placed := reshape_at there (release (retain heap.store toShape) object.shape)
    {object with
      shape := toShape
      values := write object.values site.slot value}
  obtain ⟨objects,sites,-⟩ := prototypeWrite_rest (Objects.reshape heap id (release (retain heap.store toShape) object.shape)
    {object with
      shape := toShape
      values := write object.values site.slot value}) (.string site.name)
  rw [← objects] at placed
  have sitePlaced : (Objects.reshape heap id (release (retain heap.store toShape) object.shape)
    {object with
      shape := toShape
      values := write object.values site.slot value}).sites[index]? = some site := found
  rw [← sites] at sitePlaced
  have filled := written.inv.fillCached sitePlaced placed site.slot
  refine ((moved.seen there fun holds => ?_).then written).then filled
  rw [inv.ways holds site member object.shape toShape source target absent,live_withKey]
  rfl

end

def addsByWay (heap : Heap) (index id : Nat) : Option Nat :=
  match heap.sites[index]?,heap.objects[id]? with
  | some site,some object => if !hitsSlot heap site object && hitsAdd heap site object then some site.name else none
  | _,_ => none

def addName (id : Nat) (name : Option Nat) : Nat → Option View → Option View :=
  match name with
  | none => unchanged
  | some name => changed id (View.edit fun properties => properties ++ [dataProperty (.string name) Attributes.all])

theorem hitsAdd_shapes {site : PutSite} (hit : hitsAdd heap site object = true) :
    site.fromShape = some object.shape ∧ lookup (slotsAt heap object) (.string site.name) = none ∧
      ∃ toShape, site.toShape = some toShape := by
  simp only [hitsAdd,Bool.and_eq_true,beq_iff_eq] at hit
  obtain ⟨⟨⟨_,source⟩,target⟩,absent⟩ := hit
  exact ⟨source,Option.isNone_iff_eq_none.mp absent,Option.isSome_iff_exists.mp target⟩

theorem Inv.wait (inv : Inv exact heap ext) (found : heap.objects[id]? = some object) :
    Leads exact heap
      {heap with
        store := retain heap.store object.shape
        pending := ⟨index,id,object.shape⟩ :: heap.pending} ext unchanged := by
  refine inv.recount rfl (fun id => slotsOf_retain _ _ id) ?_ inv.ways
  refine (inv.sound.retain _ (inv.shape_refs found)).mono fun id => ?_
  rw [count_cons,count_holders,count_holders]
  simp only [map_cons,count_cons]
  omega

theorem Inv.put (inv : Inv exact heap ext) (index id : Nat) (value : Value) :
    Leads exact heap (put heap index id value) ext (addName id (addsByWay heap index id)) := by
  unfold Objects.put addsByWay
  cases found : heap.sites[index]? with
  | none => exact Leads.refl inv
  | some site =>
    cases there : heap.objects[id]? with
    | none => exact Leads.refl inv
    | some object =>
      dsimp only
      split
      next hit =>
        simp only [hit,Bool.not_true,Bool.false_and,Bool.false_eq_true,if_false]
        exact inv.putSlot site there site.index value
      next miss =>
        have missed : hitsSlot heap site object = false := by simpa using miss
        split
        next add =>
          obtain ⟨source,absent,toShape,target⟩ := hitsAdd_shapes add
          simp only [missed,add,Bool.not_false,Bool.and_self,if_true,target,Option.getD_some]
          exact inv.putAdd found there source target absent value
        next noAdd =>
          have added : hitsAdd heap site object = false := by simpa using noAdd
          simp only [missed,added,Bool.and_false,Bool.false_eq_true,if_false]
          split
          next slot _ =>
            have written := inv.putSlot site there slot value
            have placed := reshape_at there heap.store {object with values := object.values.set slot value}
            obtain ⟨objects,sites,-⟩ :=
              prototypeWrite_rest (Objects.reshape heap id heap.store {object with values := object.values.set slot value}) (.string site.name)
            rw [← objects] at placed
            have sitePlaced : (Objects.putSlot heap site id object slot value).sites[index]? = some site := by
              rw [Objects.putSlot,sites]
              exact found
            exact written.then (written.inv.fillCached sitePlaced placed slot)
          next => exact inv.wait there

/-- The assignment that returns leaves a way from the shape its object had. -/
def LeavesWay (heap : Heap) (task : Pending) (site : PutSite) : Prop :=
  ∃ object ∈ heap.objects[task.object]?, ∃ slot ∈ fillSlot heap site object, recordsWay heap site object task.old slot = true

/-- An object that lacked the name has got it and nothing else since. -/
def Grown (heap : Heap) (task : Pending) (name : Nat) : Prop :=
  lookup (slotsOf heap.store task.old) (.string name) = none → ∀ object ∈ heap.objects[task.object]?,
    slotsAt heap object = withKey (.string name) Attributes.all (slotsOf heap.store task.old)

section
variable (inv : Inv exact heap ext)
include inv

theorem Inv.fill (task : Pending) (waiting : task ∈ heap.pending)
    (grown : exact = true → ∀ site ∈ heap.sites[task.site]?, LeavesWay heap task site → Grown heap task site.name) :
    Leads exact heap (fill heap task) ext unchanged ∧ (fill heap task).pending = heap.pending := by
  unfold Objects.fill
  split
  next site object found there =>
    split
    next => exact ⟨Leads.refl inv,rfl⟩
    next slot located =>
      have cached := inv.fillCached found there slot
      simp only
      split
      next records =>
        have slots (id : ShapeId) : slotsOf (Objects.fillCached heap task.site site object.shape slot).store id = slotsOf heap.store id :=
          swapRef_slots _ _ _ _
        have inside : task.site < heap.sites.length := (List.getElem?_eq_some_iff.mp found).1
        have object_ : (Objects.fillCached heap task.site site object.shape slot).objects[task.object]? = some object := there
        refine ⟨cached.then (cached.inv.fillAdd (by simp [Objects.fillCached,setSite,inside]) object_ ?_ ?_),rfl⟩
        · refine cached.inv.sound.counted.refs_pos (mem_append_left _ (mem_append_right _ (mem_append_right _ ?_)))
          exact mem_append_left _ (mem_map_of_mem waiting)
        · intro holds absent
          have same : slotsAt (Objects.fillCached heap task.site site object.shape slot) object = slotsAt heap object := slots _
          rw [slots] at absent
          rw [same,slots]
          exact grown holds site found ⟨object,there,slot,located,records⟩ absent object there
      next => exact ⟨cached,rfl⟩
  next => exact ⟨Leads.refl inv,rfl⟩

theorem Inv.finish (good : Bool) (grown : exact = true → good = true → ∀ task ∈ heap.pending.head?,
    ∀ site ∈ heap.sites[task.site]?, LeavesWay heap task site → Grown heap task site.name) :
    Leads exact heap (finish heap good) ext unchanged := by
  unfold Objects.finish
  split
  next => exact Leads.refl inv
  next task rest waiting =>
    have filled : Leads exact heap (if good then Objects.fill heap task else heap) ext unchanged ∧
        (if good then Objects.fill heap task else heap).pending = heap.pending := by
      split
      next well => exact inv.fill task (by simp [waiting]) fun holds => grown holds well task (by simp [waiting])
      next => exact ⟨Leads.refl inv,rfl⟩
    obtain ⟨leads,pending⟩ := filled
    refine leads.then (leads.inv.recount rfl (fun id => slotsOf_release id) ?_ leads.inv.ways)
    refine Sound.release (leads.inv.sound.mono fun id => ?_)
    rw [count_cons,count_holders,count_holders,pending,waiting]
    simp only [map_cons,count_cons]
    omega

theorem Inv.newSite (name : Nat) : Leads exact heap {heap with sites := heap.sites ++ [blank name]} ext unchanged := by
  refine inv.recount rfl (fun _ => rfl) ?_ ?_
  · refine inv.sound.mono fun id => ?_
    rw [count_holders,count_holders]
    simp [PutSite.holds,blank]
  · intro holds site member
    rcases mem_append.mp member with old | new
    · exact inv.ways holds site old
    · rw [mem_singleton] at new
      subst new
      intro old new source
      contradiction

theorem Inv.hold (shape : ShapeId) : Leads exact heap (hold heap shape) ext unchanged := by
  unfold Objects.hold
  split
  next member =>
    refine inv.recount rfl (fun id => slotsOf_retain _ _ id) ?_ inv.ways
    refine (inv.sound.retain shape (inv.sound.counted.refs_pos (mem_append_left _ member))).mono fun id => ?_
    rw [count_cons,count_holders,count_holders]
    simp only [count_cons]
    omega
  next => exact Leads.refl inv

theorem Inv.drop (shape : ShapeId) : Leads exact heap (drop heap shape) ext unchanged := by
  unfold Objects.drop
  split
  next member =>
    refine inv.recount rfl (fun id => slotsOf_release id) ?_ inv.ways
    refine Sound.release (inv.sound.mono fun id => ?_)
    have split_ := (perm_cons_erase member).count_eq id
    rw [count_cons] at split_
    rw [count_cons,count_holders,count_holders]
    dsimp only
    omega
  next => exact Leads.refl inv

theorem Inv.apart {shape : ShapeId} (member : shape ∈ heap.held) :
    Sound exact heap.store (shape :: (holders {heap with held := heap.held.erase shape} ++ ext)) := by
  refine inv.sound.mono fun id => ?_
  have split_ := (perm_cons_erase member).count_eq id
  rw [count_cons] at split_
  rw [count_cons,count_holders,count_holders]
  dsimp only
  omega

theorem Inv.build (shape : ShapeId) (name : Nat) (settled : exact = true → shape ∈ heap.held → Settled heap.store shape) :
    Leads exact heap (build heap shape name) ext unchanged := by
  unfold Objects.build
  split
  next ready =>
    obtain ⟨member,absent⟩ := ready
    obtain ⟨evolves,-⟩ := (inv.apart member).addTr (.string name) Attributes.all (fun holds => settled holds member) absent
    have keptObject (object : Object) (there : object ∈ heap.objects) :
        slotsOf (addTr heap.store shape (.string name) Attributes.all).1 object.shape = slotsOf heap.store object.shape :=
      evolves.frame _ (mem_append_left _ (mem_append_left _ (mem_map_of_mem there)))
    refine ⟨⟨?_,?_,?_⟩,?_,Nat.le_refl _,?_⟩
    · refine evolves.sound.mono fun id => ?_
      rw [count_cons,count_holders,count_holders]
      simp only [count_cons]
      omega
    · intro holds site there
      refine (inv.ways holds site there).congr fun id held => evolves.frame id ?_
      exact mem_append_left _ (mem_append_right _ (mem_append_left _ (mem_flatMap.mpr ⟨site,there,held⟩)))
    · intro root there
      refine (evolves.frame root (mem_append_left _ (mem_append_right _ ?_))).trans (inv.empty root there)
      exact root_mem_caches there
    · exact fun id there => evolves.frame id (mem_append_right _ there)
    · intro _ id
      simp only [viewAt,unchanged]
      cases found : heap.objects[id]? with
      | none => rfl
      | some object => simp only [Option.map_some,viewOf,slotsAt,keptObject object (mem_of_getElem? found)]
  next => exact Leads.refl inv

end

def adopts (heap : Heap) (id : Nat) (shape : ShapeId) : Bool :=
  heap.objects[id]?.any fun object => decide (shape ∈ heap.held ∧ slotsAt heap object = [])

theorem Inv.adopt (inv : Inv exact heap ext) (id : Nat) (shape : ShapeId) : Leads exact heap (adopt heap id shape) ext
      (if adopts heap id shape then changed id (View.edit fun _ => live (slotsOf heap.store shape)) else unchanged) := by
  unfold Objects.adopt
  split
  next missing => simpa [adopts,missing] using Leads.refl inv
  next object found =>
    split
    next ready =>
      have taken : adopts heap id shape = true := by simp [adopts,found,ready]
      rw [taken,if_pos rfl]
      have present : 0 < refs heap.store.shapes shape := by
        refine inv.sound.counted.refs_pos (mem_append_left _ (mem_append_right _ ?_))
        exact mem_append_right _ (mem_append_right _ (mem_append_left _ ready.1))
      exact (inv.reshape
        {object with
          shape := shape
          values := fit object.values (slotsOf heap.store shape).length} found
        ((inv.object found).moveTo present)).seen found fun _ => rfl
    next refused =>
      have kept : adopts heap id shape = false := by simpa [adopts,found] using refused
      rw [kept]
      exact Leads.refl inv

theorem Inv.guardObject (inv : Inv exact heap ext) (id : Nat) : Leads exact heap (guardObject heap id) ext unchanged := by
  unfold Objects.guardObject
  split
  next => exact Leads.refl inv
  next object _ => exact inv.alike _ alike_guardAbsence heap.prototypeEpoch

theorem Inv.prune (inv : Inv exact heap ext) (parent : ShapeId) (key : ChildKey) :
    Leads exact heap {heap with store := pruneChild heap.store parent key} ext unchanged := by
  obtain ⟨sound,slots⟩ := inv.sound.pruneChild parent key
  exact inv.recount rfl slots sound inv.ways

end Steps

def given (heap : Heap) : Op → Nat → Option View → Option View
  | .create _ proto exotic _ => fun id view => if id = heap.objects.length then some ⟨[],proto,exotic,0⟩ else view
  | .recycle id _ proto exotic _ =>
    if heap.objects.any fun other => other.proto == some id then unchanged else changed id fun _ => ⟨[],proto,exotic,0⟩
  | .mkprop id key attrs _ => changed id (View.edit (define key attrs))
  | .describe id key attrs getter setter =>
    changed id (View.edit fun properties => changeAt key (Property.describe attrs getter setter) (ensure key properties))
  | .delete id key => if deletable heap id key then changed id (View.edit (without key)) else unchanged
  | .setProto id proto => changed id fun view => {view with proto := proto}
  | .initProto id proto => changed id fun view => {view with proto := proto}
  | .identify id => changed id (numbered (nextIdentity heap))
  | .put index id _ => addName id (addsByWay heap index id)
  | .adopt id shape => if adopts heap id shape then changed id (View.edit fun _ => live (slotsOf heap.store shape)) else unchanged
  | .assign _ _ _ => unchanged
  | .restrict _ _ _ => unchanged
  | .wrap _ _ => unchanged
  | .newSite _ => unchanged
  | .finish _ => unchanged
  | .hold _ => unchanged
  | .drop _ => unchanged
  | .build _ _ => unchanged
  | .guardObject _ => unchanged
  | .prune _ _ => unchanged
  | .collect => unchanged

/-- What an operation needs for the objects to come out as they should. A shape that is changed in place has no recorded
children. -/
def Ready (heap : Heap) : Op → Prop
  | .mkprop id _ _ _ => SettledAt heap id
  | .describe id key _ _ _ => SettledAt heap id ∧ SettledAt (ensureSlot heap id key) id
  | .delete id key => deletable heap id key = true → SettledAt heap id
  | .build shape _ => shape ∈ heap.held → Settled heap.store shape
  | .finish good => good = true → ∀ task ∈ heap.pending.head?, ∀ site ∈ heap.sites[task.site]?,
      LeavesWay heap task site → Grown heap task site.name
  | _ => True

theorem Inv.step (inv : Inv exact heap ext) (op : Op) (ready : exact = true → Ready heap op) :
    Leads exact heap (step heap op) ext (given heap op) := by
  cases op with
  | create limit proto exotic array => exact inv.create limit proto exotic array
  | recycle id limit proto exotic array => exact inv.recycle id limit proto exotic array
  | mkprop id key attrs value => exact inv.mkprop id key attrs value ready
  | describe id key attrs getter setter =>
    exact inv.describe id key attrs getter setter (fun holds => (ready holds).1) fun holds => (ready holds).2
  | assign id key value => exact inv.assign id key value
  | delete id key => exact inv.delete id key ready
  | setProto id proto => exact inv.setProto id proto
  | initProto id proto => exact inv.initProto id proto
  | restrict id frozen sealed => exact inv.restrict id frozen sealed
  | wrap id primitive => exact inv.wrap id primitive
  | identify id => exact inv.identify id
  | newSite name => exact inv.newSite name
  | put site id value => exact inv.put site id value
  | finish good => exact inv.finish good ready
  | hold shape => exact inv.hold shape
  | drop shape => exact inv.drop shape
  | build shape name => exact inv.build shape name ready
  | adopt id shape => exact inv.adopt id shape
  | guardObject id => exact inv.guardObject id
  | prune parent key => exact inv.prune parent key
  | collect => exact inv.alike _ (alike_bumpEpoch heap.store) heap.prototypeEpoch

theorem start_inv : Inv exact start [] := by
  have refs_start (id : ShapeId) : refs start.store.shapes id = if id < 5 then 1 else 0 := by
    simp only [refs,start,getElem?_replicate]
    split <;> rfl
  have shapes (id : ShapeId) : slotsOf start.store id = [] ∧ childrenOf start.store id = [] := by
    simp only [slotsOf,childrenOf,start,getElem?_replicate]
    split <;> exact ⟨rfl,rfl⟩
  refine ⟨⟨?_,?_,?_⟩,?_,?_⟩
  · intro id
    have once : (List.range 5).count id ≤ 1 := nodup_iff_count_le_one.mp nodup_range id
    have never : ¬id < 5 → (List.range 5).count id = 0 := fun outside => count_eq_zero.mpr (by simpa using outside)
    have links : (linked start.store.shapes).count id = 0 := rfl
    have whole : holders start ++ [] = List.range 5 := rfl
    rw [whole,refs_start]
    split
    next => omega
    next outside =>
      have none_ := never outside
      omega
  · intro id
    rw [(shapes id).1]
    exact nodup_nil
  · intro _ id key child listed
    rw [(shapes id).2] at listed
    exact absurd listed not_mem_nil
  · intro _ site member
    exact absurd member not_mem_nil
  · exact fun id _ => (shapes id).1

end Ant.Runtime.HeapSteps
