import Ant.Runtime.HeapRuns

/-! Under the condition that no shape is changed in place while children are recorded under it, an
object gets exactly the keys it is given; without it a deleted key can come back. -/
namespace Ant.Runtime.Transitions
open Library.RefCount Shapes ShapeStore Objects HeapSteps

theorem prototypeWrite_slots (heap : Heap) (key : Key) (id : ShapeId) :
    slotsOf (prototypeWrite heap key).store id = slotsOf heap.store id := by
  unfold prototypeWrite
  split
  next =>
    split
    next => exact (alike_bumpEpoch heap.store).slotsOf id
    next => rfl
  next => rfl

theorem put_pending (heap : Heap) (index id : Nat) (value : Value) : (put heap index id value).pending = heap.pending ∨
    ∃ object, heap.objects[id]? = some object ∧ put heap index id value =
      {heap with
        store := retain heap.store object.shape
        pending := ⟨index,id,object.shape⟩ :: heap.pending} := by
  unfold put
  split
  next site object _ there =>
    split
    next => exact Or.inl (prototypeWrite_rest _ _).2.2
    next =>
      split
      next => exact Or.inl (prototypeWrite_rest _ _).2.2
      next =>
        split
        next => exact Or.inl (prototypeWrite_rest _ _).2.2
        next => exact Or.inr ⟨object,there,rfl⟩
  next => exact Or.inl rfl

theorem mkprop_pending (heap : Heap) (id : Nat) {key : Key} {attrs : Attributes} {value : Value} :
    (mkprop heap id key attrs value).pending = heap.pending := by
  unfold mkprop
  split
  next => rfl
  next =>
    split
    next => exact (prototypeWrite_rest _ _).2.2
    next => exact (prototypeWrite_rest _ _).2.2

/-- What returns has done nothing but define its name: it is the assignment that took the slow way two
operations ago. -/
def Direct (before : List Op) (task : Pending) (name : Nat) : Prop :=
  ∃ earlier assigned defined, before = earlier ++ [.put task.site task.object assigned,
      .mkprop task.object (.string name) Attributes.all defined] ∧
    (run start before).pending = task :: (run start earlier).pending

/-- The condition on an operation that comes after others: a shape that is changed in place has no recorded children,
and an assignment that leaves a way for objects without the name was direct. -/
def Meets (before : List Op) : Op → Prop
  | .finish good => good = true → ∀ task ∈ (run start before).pending.head?, ∀ site ∈ (run start before).sites[task.site]?,
      LeavesWay (run start before) task site →
        lookup (slotsOf (run start before).store task.old) (.string site.name) = none → Direct before task site.name
  | op => Ready (run start before) op

def Orderly (before : List Op) : List Op → Prop
  | [] => True
  | op :: rest => Meets before op ∧ Orderly (before ++ [op]) rest

theorem run_snoc (heap : Heap) (before : List Op) (op : Op) : run heap (before ++ [op]) = step (run heap before) op := by
  rw [run,List.foldl_append]
  rfl

section
variable {heap : Heap} {ext : List ShapeId} {before : List Op} {op : Op}

theorem mkprop_grown {id : Nat} {object : Object} {key : Key} {attrs : Attributes} {value : Value} {old : ShapeId}
    (inv : Inv true heap ext) (settled : SettledAt heap id) (found : heap.objects[id]? = some object)
    (shape : object.shape = old) (waiting : old ∈ heap.pending.map Pending.old)
    (absent : lookup (slotsOf (mkprop heap id key attrs value).store old) key = none) :
    ∀ later ∈ (mkprop heap id key attrs value).objects[id]?, slotsAt (mkprop heap id key attrs value) later =
      withKey key attrs (slotsOf (mkprop heap id key attrs value).store old) := by
  have sound := inv.object found
  have held : old ∈ others heap id ext :=
    List.mem_append_right _ (List.mem_append_left _ (List.mem_append_right _ (List.mem_append_left _ waiting)))
  unfold mkprop at absent ⊢
  simp only [found] at absent ⊢
  split at absent
  next slot there =>
    have evolves := sound.setAttrs (fun _ => settled object found) attrs there
    rw [prototypeWrite_slots,Objects.reshape,evolves.frame old held,← shape] at absent
    exact absurd (there.symm.trans absent) (by simp)
  next missing =>
    obtain ⟨evolves,ahead⟩ := sound.addTr key attrs (fun _ => settled object found) missing
    intro later member
    rw [(prototypeWrite_rest _ _).1,reshape_at found] at member
    cases member
    rw [slotsAt,prototypeWrite_slots,prototypeWrite_slots]
    have kept := evolves.frame old held
    rw [← shape] at kept ⊢
    exact (ahead rfl).trans (congrArg (withKey key attrs) kept.symm)

theorem Direct.grown {task : Pending} {name : Nat} (inv : Inv true (run start before) []) (meets : Meets before op)
    (direct : Direct (before ++ [op]) task name) : Grown (run start (before ++ [op])) task name := by
  obtain ⟨earlier,assigned,defined,split_,pending⟩ := direct
  obtain ⟨rfl,rfl⟩ : before = earlier ++ [.put task.site task.object assigned] ∧
      op = .mkprop task.object (.string name) Attributes.all defined := by
    have last := List.append_inj' (split_.trans (List.append_cons _ _ _)) rfl
    exact ⟨last.1,List.singleton_injective last.2⟩
  intro absent
  rw [run_snoc] at absent pending ⊢
  rw [run_snoc] at inv absent pending ⊢
  have settled : SettledAt (run start (earlier ++ [.put task.site task.object assigned])) task.object := meets
  rw [run_snoc] at settled
  have waits : (put (run start earlier) task.site task.object assigned).pending = task :: (run start earlier).pending := by
    rw [← pending]
    exact (mkprop_pending _ _).symm
  rcases put_pending (run start earlier) task.site task.object assigned with same | ⟨object,found,moved⟩
  · rw [same] at waits
    exact absurd (congrArg List.length waits) (by simp)
  · have head : task.old = object.shape := by
      rw [moved] at waits
      exact congrArg Pending.old (List.cons.inj waits).1.symm
    have there : (put (run start earlier) task.site task.object assigned).objects[task.object]? = some object := by
      rw [moved]
      exact found
    refine mkprop_grown inv settled there head.symm ?_ absent
    show task.old ∈ (put _ _ _ _).pending.map Pending.old
    rw [waits]
    exact List.mem_cons_self

theorem orderly_step (inv : Inv true (run start before) [])
    (grown : ∀ task name, Direct before task name → Grown (run start before) task name) (meets : Meets before op) :
    Leads true (run start before) (run start (before ++ [op])) [] (given (run start before) op) := by
  rw [run_snoc]
  refine inv.step op fun _ => ?_
  cases op with
  | finish good =>
    intro well task head site found leaves absent
    exact grown task site.name (meets well task head site found leaves absent) absent
  | _ => exact meets

theorem orderly_inv (ops : List Op) (inv : Inv true (run start before) [])
    (grown : ∀ task name, Direct before task name → Grown (run start before) task name) (orderly : Orderly before ops) :
    Inv true (run start (before ++ ops)) [] ∧
      ∀ task name, Direct (before ++ ops) task name → Grown (run start (before ++ ops)) task name := by
  induction ops generalizing before with
  | nil =>
    rw [List.append_nil]
    exact ⟨inv,grown⟩
  | cons op rest ih =>
    rw [List.append_cons]
    exact ih (orderly_step inv grown orderly.1).inv (fun task name direct => direct.grown inv orderly.1) orderly.2

theorem build_exact {shape : ShapeId} {name : Nat} (inv : Inv true heap ext) (member : shape ∈ heap.held)
    (settled : Settled heap.store shape) (absent : lookup (slotsOf heap.store shape) (.string name) = none) :
    ∃ new, (build heap shape name).held = new :: heap.held.erase shape ∧
      slotsOf (build heap shape name).store new = withKey (.string name) Attributes.all (slotsOf heap.store shape) ∧
      ∀ other ∈ heap.held.erase shape, slotsOf (build heap shape name).store other = slotsOf heap.store other := by
  obtain ⟨evolves,ahead⟩ := (inv.apart member).addTr (.string name) Attributes.all (fun _ => settled) absent
  rw [build,if_pos ⟨member,absent⟩]
  refine ⟨_,rfl,ahead rfl,fun other there => evolves.frame other ?_⟩
  exact List.mem_append_left _ (List.mem_append_right _ (List.mem_append_right _ (List.mem_append_right _
    (List.mem_append_left _ there))))

end

/-- In every run that meets the condition, a key that is added to an object or to the shape of a literal comes after the
properties that were there, and no operation gives an object anything else than it is meant to. -/
theorem additions_are_exact (ops : List Op) (orderly : Orderly [] ops) :
    (∀ id key attrs value view, SettledAt (run start ops) id → viewAt (run start ops) id = some view →
      key ∉ view.properties.map Property.key → viewAt (step (run start ops) (.mkprop id key attrs value)) id =
          some {view with properties := view.properties ++ [dataProperty key attrs]}) ∧
    (∀ shape ∈ (run start ops).held, ∀ name, Settled (run start ops).store shape →
      lookup (slotsOf (run start ops).store shape) (.string name) = none →
      ∃ new, (step (run start ops) (.build shape name)).held = new :: (run start ops).held.erase shape ∧
        live (slotsOf (step (run start ops) (.build shape name)).store new) =
          live (slotsOf (run start ops).store shape) ++ [dataProperty (.string name) Attributes.all] ∧
        ∀ other ∈ (run start ops).held.erase shape,
          slotsOf (step (run start ops) (.build shape name)).store other = slotsOf (run start ops).store other) ∧
    ∀ op, Meets ops op → ∀ id, viewAt (run start (ops ++ [op])) id = given (run start ops) op id (viewAt (run start ops) id) := by
  have none_ : ∀ task name, Direct [] task name → Grown (run start []) task name := by
    rintro task name ⟨earlier,_,_,split_,-⟩
    simp at split_
  obtain ⟨inv,grown⟩ := orderly_inv ops start_inv none_ orderly
  rw [List.nil_append] at inv grown
  refine ⟨?_,?_,fun op meets => (orderly_step inv grown meets).views rfl⟩
  · intro id key attrs value view settled seen fresh
    have leads := inv.step (.mkprop id key attrs value) fun _ => settled
    rw [leads.views rfl,seen]
    simp only [given,changed,if_true,Option.map_some,View.edit,define,if_neg fresh]
  · intro shape member name settled absent
    obtain ⟨new,held,slots,others⟩ := build_exact inv member settled absent
    exact ⟨new,held,(congrArg live slots).trans (live_withKey _ _ _),others⟩

theorem run_inv (ops : List Op) : Inv false (run start ops) [] := by
  induction ops using List.reverseRecOn with
  | nil => exact start_inv
  | append_singleton before op ih =>
    rw [run_snoc]
    exact (ih.step op (by simp)).inv

/-- Whatever still names a shape keeps it from being freed, and no shape has a key twice. -/
theorem shapes_in_use_are_kept (ops : List Op) : (∀ id ∈ holders (run start ops), 0 < refs (run start ops).store.shapes id) ∧
    ∀ id, (keysOf (slotsOf (run start ops).store id)).Nodup := by
  have sound := (run_inv ops).sound
  exact ⟨fun id member => sound.counted.refs_pos (by simpa using member),sound.distinct⟩

def slowly (site id name : Nat) (value : Value) : List Op :=
  [.put site id value,.mkprop id (.string name) Attributes.all value,.finish true]

def sharing : List Op :=
  [.newSite 10,.newSite 12,.create 0 none false false,.create 0 none false false] ++ slowly 0 0 10 (.primitive 1) ++
    [.put 0 1 (.primitive 1),.mkprop 0 (.string 12) Attributes.all (.primitive 2)]

theorem additions_are_exact_when_shared : Orderly [] sharing ∧
    (viewAt (step (run start sharing) (.mkprop 1 (.string 11) Attributes.all (.primitive 3))) 1).map View.properties =
      some [dataProperty (.string 10) Attributes.all,dataProperty (.string 11) Attributes.all] := by
  have orderly : Orderly [] sharing := by
    refine ⟨trivial,trivial,trivial,trivial,trivial,?_,?_,trivial,?_,trivial⟩
    · show SettledAt _ _
      decide +kernel
    · intro _ task waiting site found _ _
      have one : ((run start (sharing.take 6)).pending,(run start (sharing.take 6)).sites[0]?.map PutSite.name) =
          ([⟨0,0,0⟩],some 10) := by decide +kernel
      obtain ⟨first,named⟩ := Prod.mk.inj one
      obtain rfl : task = ⟨0,0,0⟩ := by
        have head : (run start (sharing.take 6)).pending.head? = some task := waiting
        rw [first] at head
        exact (Option.some.inj head).symm
      have ten : site.name = 10 := by
        have here : (run start (sharing.take 6)).sites[0]? = some site := found
        rw [here] at named
        exact Option.some.inj named
      rw [ten]
      exact ⟨sharing.take 4,.primitive 1,.primitive 1,rfl,by decide +kernel⟩
    · show SettledAt _ _
      decide +kernel
  refine ⟨orderly,?_⟩
  rw [(additions_are_exact sharing orderly).1 1 (.string 11) Attributes.all (.primitive 3)
    ⟨[dataProperty (.string 10) Attributes.all],none,false,0⟩ (by decide +kernel) (by decide +kernel) (by decide +kernel)]
  rfl

/-- The site goes on to an object of another shape; then the object that kept the shared shape alone
loses its property, in place, and is assigned the name that the other one went on to. -/
def forsaken : List Op :=
  sharing ++ [.create 0 none false false,.mkprop 2 (.string 11) Attributes.all (.primitive 1)] ++ slowly 0 2 10 (.primitive 1) ++
    [.delete 1 (.string 10),.put 1 1 (.primitive 4)]

/-- The object has no property left when it is given one name, and comes out with the deleted one too. -/
theorem deleted_key_comes_back : (viewAt (run start forsaken) 1).map View.properties = some [] ∧
      (viewAt (step (run start forsaken) (.mkprop 1 (.string 12) Attributes.all (.primitive 4))) 1).map View.properties =
        some [dataProperty (.string 10) Attributes.all,dataProperty (.string 12) Attributes.all] := by
  decide +kernel

end Ant.Runtime.Transitions
