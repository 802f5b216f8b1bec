import Ant.Runtime.StructuredClone

/-! The run of the cloner over a graph: what it makes is an isomorphic graph of its own, where the graph
has nothing that the cloner copies in another way than the standard. -/
namespace Ant.Runtime.CloneGraphs
open Library.GraphCopy StructuredClone List

variable {α : Type} {fuel id : Nat} {clone : Store Node → Value → Result} {copy : Value} {values : List Value}

section Run
variable (objectKey : Nat → Bytes) (graph : Graph)

abbrev GraphGrows (before after : Store Node) (pairs : List (Nat × Nat)) : Prop :=
  Grows graph.heap (Same objectKey) Node.owns (Reached graph.heap graph.root) none before after pairs

def Enters (store : Store Node) (id : Nat) (result : Result) : Prop :=
  ∃ after copy pairs, result = .ok (after,.ref copy) ∧ GraphGrows objectKey graph store after pairs ∧ find after id = some copy

abbrev GraphCopies (fuel : Nat) (clone : Store Node → Value → Result) (value : Value) : Prop :=
  Copies graph.heap (Same objectKey) Node.owns (Reached graph.heap graph.root) Related
    (fun store => unseen graph.heap store ≤ fuel) clone value

variable {objectKey graph} {store : Store Node} {id : Nat} {node : Node}

section
variable (read : graph.heap[id]? = some node) (here : Reached graph.heap graph.root id) (missing : find store id = none)
include read here missing

theorem enters_leaf (copy : Body) (proto : node.proto = protoOf copy) (same : ∀ R, SameBody objectKey R node.body copy) :
    Enters objectKey graph store id (cloneLeaf store id copy) := by
  have alike (R : Nat → Nat → Prop) : Same objectKey R node (made copy) := ⟨proto.symm,same R⟩
  refine ⟨_,_,_,rfl,Grows.close same_mono read missing here (.refl _ _) ?_ (alike _),?_⟩
  · simp [allocate]
  · rw [find_remember,if_pos rfl]

theorem enters_view {buffer : Nat} {bytes : Bytes} {view : Nat → Body}
    (readBuffer : graph.heap[buffer]? = some (made (.arrayBuffer bytes false false))) (owner : node.owns = some buffer)
    (ownerCopy : ∀ new, (view new).owns = some new) (proto : ∀ new, node.proto = protoOf (view new))
    (same : ∀ R new, R buffer new → SameBody objectKey R node.body (view new)) :
    Enters objectKey graph store id (cloneView store id bytes view) := by
  refine ⟨_,_,_,rfl,Grows.owned read readBuffer missing here owner (ownerCopy _)
    (fun R related => ⟨(proto _).symm,same R _ related⟩) ?_,?_⟩
  · intro R
    exact ⟨rfl,.arrayBuffer bytes false false⟩
  · rw [find_remember,if_pos rfl]

theorem enters_into (stands : Over graph.heap store) (fit : unseen graph.heap store ≤ fuel + 1) {start : Body}
    {value : α → Value} {push : α → Value → Body → Body} {parts : List α}
    (each : ∀ part ∈ parts, GraphCopies objectKey graph fuel clone (value part)) (proto : node.proto = protoOf start)
    (finish : ∀ R values, List.Forall₂ (fun part result => Related R (value part) result) parts values →
      SameBody objectKey R node.body ((parts.zip values).foldl (fun body entry => push entry.1 entry.2 body) start)) :
    Enters objectKey graph store id (cloneInto clone store id start value push parts) := by
  have inside : id < graph.heap.length := (List.getElem?_eq_some_iff.mp read).1
  have opened : Over graph.heap (remember (allocate store (made start)) id store.heap.length) :=
    stands.trans (prefix_append _ _)
  have fitting : unseen graph.heap (remember (allocate store (made start)) id store.heap.length) ≤ fuel := by
    have fewer := unseen_remember graph.heap store (made start) id store.heap.length inside missing
    omega
  obtain ⟨after,values,pairs,run,grown,related,content⟩ := fill_copies same_mono related_mono clone value (inBody push)
    store.heap.length stands.length_le
    (fun _ before after _ grows fits => Nat.le_trans (unseen_le _ before after grows.remembered) fits) parts each
    _ (by simp [allocate]) opened fitting
  have filled : after.heap[store.heap.length]? =
      some ⟨protoOf start,(parts.zip values).foldl (fun body entry => push entry.1 entry.2 body) start⟩ := by
    rw [content,← inBody_fold]
    simp [allocate,made]
  refine ⟨after,store.heap.length,_,?_,
    Grows.close same_mono read missing here grown filled ⟨proto.symm,finish _ values related⟩,?_⟩
  · rw [cloneInto,run]
    rfl
  · exact grown.remembered _ _ (by rw [find_remember,if_pos rfl])

end

section
variable {R : Nat → Nat → Prop}

theorem forall₂_zip {β γ : Type} {P : α → β → Prop} {Q : α → γ → Prop} {make : α → β → γ} {xs : List α} {ys : List β}
    (each : List.Forall₂ P xs ys) (related : ∀ x ∈ xs, ∀ y, P x y → Q x (make x y)) :
    List.Forall₂ Q xs ((xs.zip ys).map fun entry => make entry.1 entry.2) := by
  induction each with
  | nil => exact .nil
  | @cons x y xs ys here _ ih =>
    refine .cons (related x (mem_cons_self ..) y here) (ih fun other member => related other (mem_cons_of_mem _ member))

theorem related_immediate {value : Value} (immediate : ∀ id, value ≠ .ref id) (related : Related R value copy) :
    copy = value := by
  cases value with
  | ref id => exact absurd rfl (immediate id)
  | primitive key => cases copy <;> simp_all [Related]
  | symbol key => cases copy <;> simp_all [Related]

theorem finish_array {items : List (Option Value)} {named : List Property}
    (plain : (Body.array items named).Plain graph.heap)
    (each : List.Forall₂ (fun item result => Related R (item.getD undefined) result) items values) :
    SameBody objectKey R (.array items named) ((items.zip values).foldl (fun body entry => pushItem entry.1 entry.2 body) (.array [] [])) := by
  obtain ⟨full,unnamed⟩ := plain
  rw [pushItem_fold values each.length_eq]
  refine .array ?_ (by rw [Members,unnamed]; exact .nil)
  induction each with
  | nil => exact .nil
  | @cons item value items values related _ ih =>
    obtain ⟨content,present⟩ := Option.isSome_iff_exists.mp (full item (mem_cons_self ..))
    subst present
    exact .cons (.some related) (ih fun other member => full other (mem_cons_of_mem _ member))

theorem finish_object {brand : Option Nat} {properties : List Property}
    (plain : (Body.object brand properties).Plain graph.heap) (distinct : (properties.map Property.name).Nodup)
    (each : List.Forall₂ (fun property result => Related R property.slot result) properties values) :
    SameBody objectKey R (.object brand properties)
      ((properties.zip values).foldl (fun body entry => pushProperty entry.1 entry.2 body) (.object none [])) := by
  obtain ⟨unbranded,ordinary⟩ := plain
  rw [unbranded,pushProperty_fold values none [] (fun property member => (ordinary property member).2.2) each.length_eq
    (by simpa using distinct)]
  refine .object ?_
  have visible : properties.filter Property.enumerable = properties :=
    filter_eq_self.mpr fun property member => (ordinary property member).1
  rw [Members,visible]
  refine forall₂_zip each ?_
  intro property member value related
  rw [(ordinary property member).2.1] at related
  exact ⟨rfl,rfl,value,rfl,related⟩

theorem finish_map {entries : List MapEntry} (plain : (Body.map entries).Plain graph.heap)
    (each : List.Forall₂ (fun entry result => Related R entry.value result) entries values) : SameBody objectKey R (.map entries)
      ((entries.zip values).foldl (fun body entry => pushMapEntry entry.1 entry.2 body) (.map [])) := by
  rw [pushMapEntry_fold]
  refine .map (forall₂_zip each ?_)
  intro entry member value related
  obtain ⟨immediate,block⟩ := plain entry member
  have kept : Related R entry.keyVal entry.keyVal := by
    cases key : entry.keyVal with
    | primitive key => rfl
    | symbol key => rfl
    | ref id => exact absurd key (immediate id)
  exact ⟨kept,related,fun found => block.trans found⟩

theorem finish_set {entries : List SetEntry} (plain : (Body.set entries).Plain graph.heap)
    (each : List.Forall₂ (fun entry result => Related R entry.value result) entries values) : SameBody objectKey R (.set entries)
      ((entries.zip values).foldl (fun body entry => pushSetEntry entry.1 entry.2 body) (.set [])) := by
  rw [pushSetEntry_fold]
  refine .set (forall₂_zip each ?_)
  intro entry member value related
  obtain ⟨immediate,block⟩ := plain entry member
  refine ⟨related,fun found => ?_⟩
  rw [related_immediate immediate related]
  exact block.trans found

end

theorem map_cString {text : Option Bytes} (terminated : ∀ bytes, text = some bytes → 0 ∉ bytes) : text.map cString = text := by
  cases text with
  | none => rfl
  | some bytes => rw [Option.map_some,cString_terminated (terminated bytes rfl)]

theorem copied_children {body : Body} (plain : body.Plain graph.heap) {other : Nat} (member : .ref other ∈ body.copied) :
    .ref other ∈ body.children := by
  cases body with
  | array items named =>
    obtain ⟨item,listed,content⟩ := mem_map.mp member
    obtain ⟨value,present⟩ := Option.isSome_iff_exists.mp (plain.1 item listed)
    subst present
    refine mem_append_left _ (mem_filterMap.mpr ⟨some value,listed,?_⟩)
    simpa using content
  | object brand properties =>
    obtain ⟨property,listed,content⟩ := mem_map.mp member
    obtain ⟨visible,read,_⟩ := plain.2 property listed
    exact mem_map.mpr ⟨property,mem_filter.mpr ⟨listed,visible⟩,read ▸ content⟩
  | map entries =>
    obtain ⟨entry,listed,content⟩ := mem_map.mp member
    exact mem_flatMap.mpr ⟨entry,listed,by simp [content]⟩
  | set entries => exact member
  | _ => exact absurd member (by simp [Body.copied])

theorem scCloneBody_enters (accepted : Accepted graph) (faithful : Faithful graph) (read : graph.heap[id]? = some node)
    (here : Reached graph.heap graph.root id) (missing : find store id = none) (stands : Over graph.heap store)
    (fit : unseen graph.heap store ≤ fuel + 1) (each : ∀ value ∈ node.body.copied, GraphCopies objectKey graph fuel clone value) :
    Enters objectKey graph store id (scCloneBody clone store id node.body) := by
  obtain ⟨proto,plain⟩ := faithful.plain id node here read
  have known (other : Nat) (content : Node) (found : graph.heap[other]? = some content) : store.heap[other]? = some content := by
    have inside := (List.getElem?_eq_some_iff.mp found).1
    rw [prefix_iff_getElem?.mp stands other inside,← found,getElem?_eq_getElem inside]
  obtain ⟨was,body⟩ := node
  cases body with
  | array items named =>
    exact enters_into read here missing stands fit
      (fun item member => each _ (mem_map_of_mem member)) proto fun R values => finish_array plain
  | object brand properties =>
    exact enters_into read here missing stands fit
      (fun property member => each _ (mem_map_of_mem member)) proto fun R values =>
        finish_object plain (graph.distinct id was brand properties here read)
  | map entries =>
    exact enters_into read here missing stands fit
      (fun entry member => each _ (mem_map_of_mem member)) proto fun R values => finish_map plain
  | set entries =>
    exact enters_into read here missing stands fit
      (fun entry member => each _ (mem_map_of_mem member)) proto fun R values => finish_set plain
  | arrayBuffer bytes detached shared =>
    obtain ⟨rfl,rfl⟩ := plain
    exact enters_leaf read here missing _ proto fun R => .arrayBuffer bytes false false
  | typedArray type buffer byteOffset length byteLength =>
    obtain ⟨bytes,found,rfl,rfl⟩ := plain
    have all : (bytes.drop 0).take bytes.length = bytes := by simp
    simp only [scCloneBody,scCloneTypedArray,known buffer _ found,made,all]
    refine enters_view read here missing found rfl (fun _ => rfl) ?_ fun R new related => .typedArray _ _ _ _ related
    exact fun _ => proto
  | dataView buffer byteOffset byteLength =>
    obtain ⟨bytes,found⟩ := plain
    simp only [scCloneBody,scCloneDataView,known buffer _ found,made]
    refine enters_view read here missing found rfl (fun _ => rfl) ?_ fun R new related => .dataView _ _ related
    exact fun _ => proto
  | error message name stack type =>
    simp only [scCloneBody,map_cString fun bytes same => plain bytes (.inl same),
      map_cString fun bytes same => plain bytes (.inr (.inl same)),map_cString fun bytes same => plain bytes (.inr (.inr same))]
    exact enters_leaf read here missing _ proto fun R => .error message name stack type
  | date time => exact enters_leaf read here missing _ proto fun R => .date time
  | blob data type file => exact enters_leaf read here missing _ proto fun R => .blob data type file
  | uncloneable => exact absurd rfl (accepted.nodes id _ here read).1

theorem scCloneRec_copies (accepted : Accepted graph) (faithful : Faithful graph) (value : Value)
    (cloneable : value.cloneable = true) (here : ∀ id, value = .ref id → Reached graph.heap graph.root id) :
    GraphCopies objectKey graph fuel (scCloneRec fuel) value := by
  induction fuel generalizing value with
  | zero =>
    intro store stands fit
    cases value with
    | primitive key => exact ⟨store,.primitive key,[],rfl,.refl _ store,rfl⟩
    | symbol key => exact absurd cloneable (by simp [Value.cloneable])
    | ref id =>
      cases found : find store id with
      | some copy =>
        refine ⟨store,.ref copy,[],?_,.refl _ store,found⟩
        simp [scCloneRec,scCloneWith,found]
      | none =>
        obtain ⟨node,read⟩ := graph.closed id (here id rfl)
        have fewer := unseen_remember graph.heap store node id 0 (List.getElem?_eq_some_iff.mp read).1 found
        omega
  | succ fuel ih =>
    intro store stands fit
    cases value with
    | primitive key => exact ⟨store,.primitive key,[],rfl,.refl _ store,rfl⟩
    | symbol key => exact absurd cloneable (by simp [Value.cloneable])
    | ref id =>
      cases found : find store id with
      | some copy =>
        refine ⟨store,.ref copy,[],?_,.refl _ store,found⟩
        simp [scCloneRec,scCloneWith,found]
      | none =>
        obtain ⟨node,read⟩ := graph.closed id (here id rfl)
        have inside := (List.getElem?_eq_some_iff.mp read).1
        have stored : store.heap[id]? = some node := by
          rw [prefix_iff_getElem?.mp stands id inside,← read,getElem?_eq_getElem inside]
        have plain := faithful.plain id node (here id rfl) read
        obtain ⟨after,copy,pairs,run,grown,copied⟩ := scCloneBody_enters accepted faithful read (here id rfl) found stands fit
          fun part member => ih part ((accepted.nodes id node (here id rfl) read).2 part member) fun other same =>
            .child id other node (here id rfl) read (copied_children plain.2 (same ▸ member))
        refine ⟨after,.ref copy,pairs,?_,grown,copied⟩
        simp only [scCloneRec,scCloneWith,found,stored]
        exact run

end Run

/-! The graph of the clone. -/

section
variable {heap later : List Node} {root : Value} {graph : Graph}

theorem reached_before (stands : heap <+: later) (closed : ∀ id, Reached heap root id → ∃ node, heap[id]? = some node)
    (reached : Reached later root id) : Reached heap root id := by
  induction reached with
  | root id same => exact .root id same
  | child parent id node above read member ih =>
    obtain ⟨content,found⟩ := closed parent ih
    have inside := (List.getElem?_eq_some_iff.mp found).1
    have stored := prefix_iff_getElem?.mp stands parent inside
    rw [read,← getElem?_eq_getElem inside] at stored
    exact .child parent id node ih stored.symm member

theorem inGraph_before {later : List Node} (stands : graph.heap <+: later) (member : InGraph later graph.root id) :
    InGraph graph.heap graph.root id ∧ id < graph.heap.length := by
  rcases member with reached | ⟨view,node,reached,read,owned⟩
  · have here := reached_before stands graph.closed reached
    obtain ⟨node,found⟩ := graph.closed id here
    exact ⟨.inl here,(List.getElem?_eq_some_iff.mp found).1⟩
  · have here := reached_before stands graph.closed reached
    obtain ⟨content,found⟩ := graph.closed view here
    have inside := (List.getElem?_eq_some_iff.mp found).1
    have stored := prefix_iff_getElem?.mp stands view inside
    rw [read,← getElem?_eq_getElem inside] at stored
    obtain ⟨_,_,_,_,buffer⟩ := graph.buffers view node id here stored.symm owned
    exact ⟨.inr ⟨view,node,here,stored.symm,owned⟩,(List.getElem?_eq_some_iff.mp buffer).1⟩

theorem inGraph_frame (kept : ∀ id, InGraph heap root id → later[id]? = heap[id]?) (member : InGraph heap root id) :
    InGraph later root id := by
  have go (id : Nat) (reached : Reached heap root id) : Reached later root id := by
    induction reached with
    | root id same => exact .root id same
    | child parent id node above read member ih => exact .child parent id node ih ((kept parent (.inl above)).trans read) member
  rcases member with reached | ⟨view,node,reached,read,owned⟩
  · exact .inl (go id reached)
  · exact .inr ⟨view,node,go view reached,(kept view (.inl reached)).trans read,owned⟩

theorem independent_of_disjoint {heap : List Node} {changing other : Value}
    (disjoint : ∀ id, InGraph heap changing id → ¬ InGraph heap other id)
    (inside : ∀ id, InGraph heap other id → id < heap.length) : Independent heap changing other := by
  intro later changes
  have kept (id : Nat) (member : InGraph heap other id) : later[id]? = heap[id]? := by
    by_contra changed
    rcases changes id changed with shared | outside
    · exact disjoint id shared member
    · exact absurd (inside id member) (by omega)
  intro id member
  exact ⟨inGraph_frame kept member,kept id member⟩

theorem isomorphism_of_pairs {objectKey : Nat → Bytes} (faithful : Faithful graph) {after : Store Node}
    {pairs : List (Nat × Nat)} (grown : GraphGrows objectKey graph ⟨graph.heap,[]⟩ after pairs)
    (related : Related (fun id copy => find after id = some copy) graph.root copy) :
    Isomorphism objectKey graph.heap graph.root after.heap copy fun id copied => (id,copied) ∈ pairs := by
  have recorded (id copied : Nat) (found : find after id = some copied) : (id,copied) ∈ pairs := by
    rcases grown.recorded id copied found with early | member
    · exact absurd early (by simp [find])
    · exact member
  have roots := related_mono _ (fun id copied => (id,copied) ∈ pairs) _ _ recorded related
  have same (id copied : Nat) (member : (id,copied) ∈ pairs) : ∃ node clone, graph.heap[id]? = some node ∧
      after.heap[copied]? = some clone ∧ Same objectKey (fun id copied => (id,copied) ∈ pairs) node clone := by
    obtain ⟨node,clone,read,made,relation⟩ := grown.done _ member
    refine ⟨node,clone,read,made,same_mono _ _ node clone ?_ relation⟩
    rintro one two (early | listed)
    · exact absurd early (by simp [find])
    · exact listed
  have reachedTotal (id : Nat) (reached : Reached graph.heap graph.root id) : ∃ copied, (id,copied) ∈ pairs := by
    induction reached with
    | root id equal =>
      rw [equal] at roots
      cases copy with
      | ref copied => exact ⟨copied,roots⟩
      | primitive key => exact absurd roots (by simp [Related])
      | symbol key => exact absurd roots (by simp [Related])
    | child parent id node above read member ih =>
      obtain ⟨copied,listed⟩ := ih
      obtain ⟨content,clone,found,made,relation⟩ := same parent copied listed
      rw [read] at found
      obtain ⟨value,_,pair⟩ := forall₂_left relation.children (Option.some.inj found ▸ member)
      cases value with
      | ref copied => exact ⟨copied,pair⟩
      | primitive key => exact absurd pair (by simp [Related])
      | symbol key => exact absurd pair (by simp [Related])
  have reachedOnto (copied : Nat) (reached : Reached after.heap copy copied) : ∃ id, (id,copied) ∈ pairs := by
    induction reached with
    | root copied equal =>
      rw [equal] at roots
      cases root : graph.root with
      | ref id => exact ⟨id,by simpa [root,Related] using roots⟩
      | primitive key => exact absurd roots (by simp [root,Related])
      | symbol key => exact absurd roots (by simp [root,Related])
    | child parent copied node above read member ih =>
      obtain ⟨id,listed⟩ := ih
      obtain ⟨content,clone,found,made,relation⟩ := same id parent listed
      rw [read] at made
      obtain ⟨value,_,pair⟩ := forall₂_left relation.children.flip (Option.some.inj made ▸ member)
      cases value with
      | ref other => exact ⟨other,pair⟩
      | primitive key => exact absurd pair (by simp)
      | symbol key => exact absurd pair (by simp)
  refine ⟨roots,?_,?_,?_,?_,same⟩
  · rintro id (reached | ⟨view,node,reached,read,owned⟩)
    · exact reachedTotal id reached
    · obtain ⟨copied,listed⟩ := reachedTotal view reached
      obtain ⟨content,clone,found,made,relation⟩ := same view copied listed
      rw [read] at found
      have owns := relation.owns
      rw [← Option.some.inj found,owned] at owns
      generalize clone.owns = part at owns
      cases owns with
      | some pair => exact ⟨_,pair⟩
  · rintro copied (reached | ⟨view,node,reached,read,owned⟩)
    · exact reachedOnto copied reached
    · obtain ⟨id,listed⟩ := reachedOnto view reached
      obtain ⟨content,clone,found,made,relation⟩ := same id view listed
      rw [read] at made
      have owns := relation.owns
      rw [← Option.some.inj made,owned] at owns
      generalize content.owns = part at owns
      cases owns with
      | some pair => exact ⟨_,pair⟩
  · intro id one two first second
    -- a pair is remembered, or it is the buffer of a view that is; a buffer has one view and is not remembered
    rcases grown.origin _ first with ⟨found,here⟩ | ⟨owner,_,found,here,node,clone,read,made,owned,copied⟩
    · rcases grown.origin _ second with ⟨other,_⟩ | ⟨owner,_,_,there,node,clone,read,_,owned,_⟩
      · exact Option.some.inj (found.symm.trans other)
      · exact absurd here (faithful.alone owner.1 node id there read owned).1
    · rcases grown.origin _ second with ⟨_,there⟩ | ⟨another,_,other,there,content,twin,readOther,madeOther,ownedOther,copiedOther⟩
      · exact absurd there (faithful.alone owner.1 node id here read owned).1
      · have equal := (faithful.alone owner.1 node id here read owned).2 another.1 content there readOther ownedOther
        rw [equal] at other
        have copies : another.2 = owner.2 := Option.some.inj (other.symm.trans found)
        rw [copies,made] at madeOther
        rw [← Option.some.inj madeOther,copied] at copiedOther
        exact Option.some.inj copiedOther
  · intro one two copied first second
    have pair := inj_on_of_nodup_map grown.distinct first second rfl
    exact congrArg Prod.fst pair

end

/-- A faithful graph is cloned into an isomorphic one, which shares no object with it and in which no
later change of the other graph shows. -/
theorem structured_clone_is_isomorphic_and_separate (objectKey : Nat → Bytes) (graph : Graph) (accepted : Accepted graph)
    (faithful : Faithful graph) :
    ∃ after copy, jsStructuredClone graph.heap graph.root = .ok (after,copy) ∧ graph.heap <+: after.heap ∧
      Isomorphic objectKey graph.heap graph.root after.heap copy ∧ Separate after.heap graph.root copy := by
  have fits : unseen graph.heap (⟨graph.heap,[]⟩ : Store Node) ≤ graph.heap.length := by
    have bound := Finset.card_filter_le (Finset.range graph.heap.length)
      fun id => find (⟨graph.heap,[]⟩ : Store Node) id = none
    simpa [unseen] using bound
  have copies : GraphCopies objectKey graph graph.heap.length (scCloneRec graph.heap.length) graph.root :=
    scCloneRec_copies accepted faithful _ accepted.root fun id same => .root id same
  obtain ⟨after,copy,pairs,run,grown,related⟩ := copies ⟨graph.heap,[]⟩ (prefix_refl _) fits
  have stands : graph.heap <+: after.heap := grown.over (by simp) (prefix_refl _)
  have isomorphism := isomorphism_of_pairs faithful grown related
  have fresh (copied : Nat) (member : InGraph after.heap copy copied) : graph.heap.length ≤ copied ∧ copied < after.heap.length := by
    obtain ⟨id,listed⟩ := isomorphism.onto copied member
    exact grown.range _ listed
  have disjoint (id : Nat) (old : InGraph after.heap graph.root id) : ¬ InGraph after.heap copy id := by
    intro new
    have := (inGraph_before stands old).2
    have := (fresh id new).1
    omega
  refine ⟨after,copy,run,stands,⟨_,isomorphism⟩,disjoint,?_,?_⟩
  · exact independent_of_disjoint disjoint fun id member => (fresh id member).2
  · refine independent_of_disjoint (fun id new old => disjoint id old new) fun id member => ?_
    exact Nat.lt_of_lt_of_le (inGraph_before stands member).2 stands.length_le

def sampleHeap : List Node :=
  [made (.array [some (.ref 1),some (.ref 1),some (.ref 0),some (.ref 2),some (.ref 3)] []),
    ⟨.null,.object none [⟨[0x61],true,.data (.ref 0)⟩]⟩,
    made (.map [⟨[1,0x6B],[0],.primitive [1,0x6B],.ref 1⟩]),
    made (.typedArray 1 4 0 2 2),
    made (.arrayBuffer [5,6] false false)]

theorem sample_reached (reached : Reached sampleHeap (.ref 0) id) : id = 0 ∨ id = 1 ∨ id = 2 ∨ id = 3 := by
  induction reached with
  | root id same => exact .inl (Value.ref.inj same).symm
  | child parent id node above read member ih =>
    rcases ih with rfl | rfl | rfl | rfl <;> cases read <;> simp [Node.children,Body.children,made,Property.read] at member <;> omega

def sampleGraph : Graph where
  heap := sampleHeap
  root := .ref 0
  closed := by
    intro id reached
    rcases sample_reached reached with rfl | rfl | rfl | rfl <;> exact ⟨_,rfl⟩
  buffers := by
    intro id node buffer reached read owned
    rcases sample_reached reached with rfl | rfl | rfl | rfl <;> cases read <;> cases owned
    exact ⟨_,_,_,_,rfl⟩
  distinct := by
    intro id proto brand properties reached read
    rcases sample_reached reached with rfl | rfl | rfl | rfl <;> cases read
    simp

theorem sample_accepted : Accepted sampleGraph where
  root := rfl
  nodes := by
    intro id node reached read
    rcases sample_reached reached with rfl | rfl | rfl | rfl <;> cases read <;> simp [Body.copied,made,Value.cloneable,Property.slot]

theorem sample_faithful : Faithful sampleGraph where
  plain := by
    intro id node reached read
    rcases sample_reached reached with rfl | rfl | rfl | rfl <;> cases read
    · simp [Node.Plain,Body.Plain,made]
    · simp [Node.Plain,Body.Plain,protoOf,Property.slot,Property.read]
    · simp [Node.Plain,Body.Plain,made,strdup,cString]
    · exact ⟨rfl,[5,6],rfl,rfl,rfl⟩
  alone := by
    intro view node buffer reached read owned
    rcases sample_reached reached with rfl | rfl | rfl | rfl <;> cases read <;> cases owned
    refine ⟨fun direct => ?_,?_⟩
    · have := sample_reached direct
      omega
    · intro other another there found same
      rcases sample_reached there with rfl | rfl | rfl | rfl <;> cases found <;> cases same
      rfl

theorem sample_clone_is_isomorphic_and_separate :
    ∃ after copy, jsStructuredClone sampleGraph.heap sampleGraph.root = .ok (after,copy) ∧ sampleGraph.heap <+: after.heap ∧
      Isomorphic (fun id => [0,id]) sampleGraph.heap sampleGraph.root after.heap copy ∧
      Separate after.heap sampleGraph.root copy :=
  structured_clone_is_isomorphic_and_separate (fun id => [0,id]) sampleGraph sample_accepted sample_faithful

def sharedBuffer : List Node :=
  [.array [some (.ref 1),some (.ref 2)] [],.typedArray 1 3 0 2 2,.typedArray 1 3 0 2 2,.arrayBuffer [5,6] false false].map made

def sharedBufferCloned : List Node :=
  sharedBuffer ++ [.array [some (.ref 6),some (.ref 8)] [],.arrayBuffer [5,6] false false,.typedArray 1 5 0 2 2,
    .arrayBuffer [5,6] false false,.typedArray 1 7 0 2 2].map made

theorem sharedBuffer_not_isomorphic (objectKey : Nat → Bytes) :
    ¬ Isomorphic objectKey sharedBuffer (.ref 0) sharedBufferCloned (.ref 4) := by
  rintro ⟨R,isomorphism⟩
  obtain ⟨node,clone,read,made,same⟩ := isomorphism.same 0 4 isomorphism.roots
  cases read
  cases made
  have children := same.children
  obtain ⟨first,second⟩ : R 1 6 ∧ R 2 8 := by simpa [Node.children,Body.children,made,Related] using children
  have buffer (view copy new : Nat) (related : R view copy) (owned : (sharedBuffer[view]?).bind Node.owns = some 3)
      (ownedCopy : (sharedBufferCloned[copy]?).bind Node.owns = some new) : R 3 new := by
    obtain ⟨node,clone,read,made,same⟩ := isomorphism.same view copy related
    have owns := same.owns
    rw [read,Option.bind_some] at owned
    rw [made,Option.bind_some] at ownedCopy
    rw [owned,ownedCopy] at owns
    cases owns with
    | some pair => exact pair
  have equal := isomorphism.functional 3 5 7 (buffer 1 6 5 first rfl rfl) (buffer 2 8 7 second rfl rfl)
  exact absurd equal (by decide)

def objectKeyed : List Node := [made (.map [⟨[0,9,9],[0],.ref 1,undefined⟩]),⟨.null,.object none []⟩]

def one : Value := .primitive [10,0,0,0,0,0,0,0xF0,0x3F]

def numberKeyed : List Node := [made (.map [⟨[10,0,0,0,0,0,0,0xF0,0x3F],[0],one,undefined⟩])]

theorem numberKeyed_not_isomorphic (objectKey : Nat → Bytes) :
    ¬ Isomorphic objectKey numberKeyed (.ref 0) (numberKeyed ++ [made (.map [⟨[10],[0],one,undefined⟩])]) (.ref 1) := by
  rintro ⟨R,isomorphism⟩
  obtain ⟨node,clone,read,found,same⟩ := isomorphism.same 0 1 isomorphism.roots
  cases read
  cases found
  cases same.body with
  | map each =>
    cases each with
    | cons related _ => exact absurd (related.2.2 rfl) (by simp [filed,one])

def ordinaryObject : List Node := [⟨.builtin .object,.object none [⟨[0x61],true,.data one⟩]⟩]

def sharedMemory : List Node := [⟨.builtin .sharedArrayBuffer,.arrayBuffer [5,6] false true⟩]

theorem not_isomorphic_of_proto {heap later : List Node} {id copied : Nat} {node clone : Node} (objectKey : Nat → Bytes)
    (read : heap[id]? = some node) (found : later[copied]? = some clone) (apart : clone.proto ≠ node.proto) :
    ¬ Isomorphic objectKey heap (.ref id) later (.ref copied) := by
  rintro ⟨R,isomorphism⟩
  obtain ⟨_,_,readHere,foundHere,same⟩ := isomorphism.same id copied isomorphism.roots
  rw [read] at readHere
  rw [found] at foundHere
  cases readHere
  cases foundHere
  exact apart same.proto

/-- Views of one buffer do not share it after cloning, an object as a key is shared with the clone, the
clone does not find a number under which its entry was filed, an ordinary object comes out without a
prototype, and shared memory as a buffer that is not shared. -/
theorem shared_buffers_and_collection_keys_fail : (∃ after, jsStructuredClone sharedBuffer (.ref 0) = .ok (after,.ref 4) ∧
      ∀ objectKey, ¬ Isomorphic objectKey sharedBuffer (.ref 0) after.heap (.ref 4)) ∧
    (∃ after, jsStructuredClone objectKeyed (.ref 0) = .ok (after,.ref 2) ∧ ¬ Separate after.heap (.ref 0) (.ref 2)) ∧
    (∃ after, jsStructuredClone numberKeyed (.ref 0) = .ok (after,.ref 1) ∧
      ∀ objectKey, ¬ Isomorphic objectKey numberKeyed (.ref 0) after.heap (.ref 1)) ∧
    (∃ after, jsStructuredClone ordinaryObject (.ref 0) = .ok (after,.ref 1) ∧
      ∀ objectKey, ¬ Isomorphic objectKey ordinaryObject (.ref 0) after.heap (.ref 1)) ∧
    (∃ after, jsStructuredClone sharedMemory (.ref 0) = .ok (after,.ref 1) ∧
      ∀ objectKey, ¬ Isomorphic objectKey sharedMemory (.ref 0) after.heap (.ref 1)) := by
  refine ⟨⟨_,rfl,sharedBuffer_not_isomorphic⟩,⟨_,rfl,?_⟩,⟨_,rfl,numberKeyed_not_isomorphic⟩,⟨_,rfl,?_⟩,⟨_,rfl,?_⟩⟩
  · intro separate
    refine separate.disjoint 1 (.inl (.child 0 1 _ (.root 0 rfl) rfl ?_)) (.inl (.child 2 1 _ (.root 2 rfl) rfl ?_))
    · simp [Node.children,Body.children,made]
    · simp [Node.children,Body.children,inBody,made,pushMapEntry,MapEntry.clone]
  · exact fun objectKey => not_isomorphic_of_proto objectKey rfl rfl (by decide)
  · exact fun objectKey => not_isomorphic_of_proto objectKey rfl rfl (by decide)

end Ant.Runtime.CloneGraphs
