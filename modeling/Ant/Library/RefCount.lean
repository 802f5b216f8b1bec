import Mathlib.Data.List.Basic
import Mathlib.Algebra.BigOperators.Group.List.Basic
import Mathlib.Algebra.Ring.Nat

/-! Reference counts over nodes with labelled links. `Counted` says that no node is held more
often than its count tells; giving up a reference may free a node, which gives up the
references of its links in turn. -/
namespace Ant.Library.RefCount
open List Option

variable {κ α β : Type}

structure Node (κ α : Type) where
  refs : Nat
  links : List (κ × Nat)
  content : α
  deriving DecidableEq,Repr

def Node.targets (node : Node κ α) : List Nat := node.links.map Prod.snd

abbrev Nodes (κ α : Type) := List (Node κ α)

def refs (nodes : Nodes κ α) (id : Nat) : Nat := (nodes[id]?.map Node.refs).getD 0

def linked (nodes : Nodes κ α) : List Nat := nodes.flatMap Node.targets

/-- No node is held, by `held` and by links, more often than its count says. -/
def Counted (nodes : Nodes κ α) (held : List Nat) : Prop :=
  ∀ id, held.count id + (linked nodes).count id ≤ refs nodes id

def retain (nodes : Nodes κ α) (id : Nat) : Nodes κ α := nodes.modify id fun node => {node with refs := node.refs + 1}

def change (nodes : Nodes κ α) (id : Nat) (f : α → α) : Nodes κ α :=
  nodes.modify id fun node => {node with content := f node.content}

def link (nodes : Nodes κ α) (id : Nat) (label : κ) (target : Nat) : Nodes κ α :=
  nodes.modify id fun node => {node with links := node.links ++ [(label,target)]}

/-- References given up one after the other; `orphan` marks the targets of a freed node. -/
def drain (orphan : α → α) : Nat → Nodes κ α → List Nat → Nodes κ α
  | 0,nodes,_ => nodes
  | _+1,nodes,[] => nodes
  | fuel+1,nodes,id :: pending =>
    match nodes[id]? with
    | none => drain orphan fuel nodes pending
    | some node =>
      match node.refs with
      | 0 => drain orphan fuel nodes pending
      | 1 =>
        drain orphan fuel
          (node.targets.foldl (fun nodes target => change nodes target orphan) (nodes.set id ⟨0,[],node.content⟩))
          (node.targets ++ pending)
      | left+2 => drain orphan fuel (nodes.set id {node with refs := left + 1}) pending

def release (orphan : α → α) (nodes : Nodes κ α) (id : Nat) : Nodes κ α :=
  drain orphan ((nodes.map Node.refs).sum + 1) nodes [id]

variable {id fuel : Nat} {old : Node κ α} {other targets : List Nat} {others nodes : Nodes κ α} {view : α → β}

section
variable {nodes : Nodes κ α} {held : List Nat} {γ δ : Type}

theorem refs_of_getElem {nodes : Nodes κ α} {node : Node κ α} (found : nodes[id]? = some node) :
    refs nodes id = node.refs := by simp [refs,found]

theorem refs_set {nodes : Nodes κ α} (other : Nat) (new : Node κ α) (found : nodes[id]? = some old) :
    refs (nodes.set id new) other = if other = id then new.refs else refs nodes other := by
  have inside : id < nodes.length := (List.getElem?_eq_some_iff.mp found).1
  unfold refs
  by_cases same : id = other
  · subst same
    simp [inside]
  · simp [same,Ne.symm same]

theorem count_flatMap_set {γ : Type} {items : List γ} (f : γ → List Nat) (index : Nat) {old : γ} (new : γ)
    (found : items[index]? = some old) (target : Nat) :
    ((items.set index new).flatMap f).count target + (f old).count target = (items.flatMap f).count target + (f new).count target := by
  induction items generalizing index with
  | nil => simp at found
  | cons first rest ih =>
    cases index with
    | zero =>
      have same : first = old := by simpa using found
      subst same
      simp only [set_cons_zero,flatMap_cons,count_append]
      omega
    | succ index =>
      have below := ih index (by simpa using found)
      simp only [set_cons_succ,flatMap_cons,count_append] at below ⊢
      omega

theorem count_linked_set {nodes : Nodes κ α} (new : Node κ α) (found : nodes[id]? = some old) (target : Nat) :
    (linked (nodes.set id new)).count target + old.targets.count target =
      (linked nodes).count target + new.targets.count target := count_flatMap_set Node.targets id new found target

theorem Counted.refs_pos (counted : Counted nodes held) (member : id ∈ held) : 0 < refs nodes id := by
  have positive : 0 < held.count id := count_pos_iff.mpr member
  have bound := counted id
  omega

theorem Counted.exists (counted : Counted nodes held) (member : id ∈ held) : ∃ node, nodes[id]? = some node := by
  have positive := counted.refs_pos member
  unfold refs at positive
  cases found : nodes[id]? with
  | none => simp [found] at positive
  | some node => exact ⟨node,rfl⟩

theorem Counted.perm {held : List Nat} (counted : Counted nodes held) (same : held.Perm other) :
    Counted nodes other := fun id => by
  rw [← same.count_eq id]
  exact counted id

theorem Counted.mono {held : List Nat} (counted : Counted nodes held) (fewer : ∀ id, other.count id ≤ held.count id) :
    Counted nodes other := fun id => by
  have bound := counted id
  have less := fewer id
  omega

theorem Counted.subset (counted : Counted nodes (id :: held)) :
    Counted nodes held := fun other => by
  have bound := counted other
  have more : held.count other ≤ (id :: held).count other := count_le_count_cons
  omega

theorem Counted.alone (counted : Counted nodes (id :: held)) (single : refs nodes id ≤ 1) :
    id ∉ held ∧ id ∉ linked nodes := by
  have bound := counted id
  rw [count_cons_self] at bound
  constructor
  · intro member
    have positive := count_pos_iff.mpr member
    omega
  · intro member
    have positive := count_pos_iff.mpr member
    omega

theorem Counted.retain (counted : Counted nodes held) (id : Nat) (present : 0 < refs nodes id) :
    Counted (retain nodes id) (id :: held) := by
  obtain ⟨node,found⟩ : ∃ node, nodes[id]? = some node := by
    unfold refs at present
    cases found : nodes[id]? with
    | none => simp [found] at present
    | some node => exact ⟨node,rfl⟩
  have shape : RefCount.retain nodes id = nodes.set id {node with refs := node.refs + 1} := by
    rw [RefCount.retain,modify_eq_set_getElem?,found]
    rfl
  intro other
  have bound := counted other
  have links := count_linked_set {node with refs := node.refs + 1} found other
  have targets : Node.targets {node with refs := node.refs + 1} = node.targets := rfl
  rw [targets] at links
  rw [shape,refs_set other _ found,count_cons]
  by_cases same : other = id
  · subst same
    rw [refs_of_getElem found] at bound
    simp only [if_true,BEq.rfl]
    omega
  · have different : (id == other) = false := by simpa using Ne.symm same
    rw [if_neg same,different]
    simp only [Bool.false_eq_true,if_false]
    omega

theorem map_modify (items : List γ) (index : Nat) (f : γ → γ) (view : γ → δ) (same : ∀ item, view (f item) = view item) :
    (items.modify index f).map view = items.map view := by
  induction items generalizing index with
  | nil => cases index <;> rfl
  | cons first rest ih =>
    cases index with
    | zero => simp [same]
    | succ index => simp [ih]

theorem getElem_map (items : List γ) (index : Nat) (view : γ → δ) : (items.map view)[index]? = items[index]?.map view :=
  getElem?_map

theorem refs_eq_of_map {nodes : Nodes κ α} (same : nodes.map Node.refs = others.map Node.refs) (id : Nat) :
    refs nodes id = refs others id := by
  unfold refs
  rw [← getElem_map,← getElem_map,same]

theorem linked_eq_of_map {nodes : Nodes κ α} (same : nodes.map Node.links = others.map Node.links) :
    linked nodes = linked others := by
  have whole (nodes : Nodes κ α) : linked nodes = (nodes.map Node.links).flatMap fun links => links.map Prod.snd := by
    rw [flatMap_map]
    rfl
  rw [whole,whole,same]

theorem Counted.congr {nodes : Nodes κ α} (counted : Counted nodes held)
    (counts : others.map Node.refs = nodes.map Node.refs) (links : others.map Node.links = nodes.map Node.links) :
    Counted others held := fun id => by
  rw [refs_eq_of_map counts,linked_eq_of_map links]
  exact counted id

theorem change_refs (nodes : Nodes κ α) (id : Nat) (f : α → α) : (change nodes id f).map Node.refs = nodes.map Node.refs :=
  map_modify nodes id _ _ fun _ => rfl

theorem change_links (nodes : Nodes κ α) (id : Nat) (f : α → α) :
    (change nodes id f).map Node.links = nodes.map Node.links :=
  map_modify nodes id _ _ fun _ => rfl

theorem Counted.change (counted : Counted nodes held) (id : Nat) (f : α → α) :
    Counted (change nodes id f) held := counted.congr (change_refs nodes id f) (change_links nodes id f)

theorem changes_map (read : Node κ α → γ) {orphan : α → α}
    (same : ∀ node, read {node with content := orphan node.content} = read node) (nodes : Nodes κ α) :
    (targets.foldl (fun nodes target => change nodes target orphan) nodes).map read = nodes.map read := by
  induction targets generalizing nodes with
  | nil => rfl
  | cons target rest ih =>
    rw [foldl_cons,ih]
    exact map_modify nodes target _ _ same

theorem Counted.push (counted : Counted nodes held) (content : α) :
    Counted (nodes ++ [⟨1,[],content⟩]) (nodes.length :: held) := by
  intro id
  have bound := counted id
  have links : linked (nodes ++ [(⟨1,[],content⟩ : Node κ α)]) = linked nodes := by simp [linked,Node.targets]
  rw [links,count_cons]
  unfold refs at bound ⊢
  by_cases new : nodes.length = id
  · subst new
    simp only [getElem?_length,map_none,getD_none] at bound
    rw [getElem?_append_right (Nat.le_refl _),Nat.sub_self]
    simp only [BEq.rfl,if_true,getElem?_cons_zero,map_some,getD_some]
    omega
  · have other : (nodes.length == id) = false := by simpa using new
    rw [other]
    by_cases inside : id < nodes.length
    · rw [getElem?_append_left inside]
      simpa using bound
    · have outside : nodes[id]? = none := getElem?_eq_none (by omega)
      rw [outside] at bound
      simp only [map_none,getD_none] at bound
      simp only [Bool.false_eq_true,if_false]
      omega

theorem Counted.link {target : Nat} (counted : Counted nodes (target :: held)) (id : Nat) (label : κ) :
    Counted (link nodes id label target) held := by
  cases found : nodes[id]? with
  | none =>
    have same : RefCount.link nodes id label target = nodes := by
      rw [RefCount.link,modify_eq_set_getElem?,found]
      rfl
    rw [same]
    exact counted.subset
  | some node =>
    have shape : RefCount.link nodes id label target = nodes.set id {node with links := node.links ++ [(label,target)]} := by
      rw [RefCount.link,modify_eq_set_getElem?,found]
      rfl
    have counts : (RefCount.link nodes id label target).map Node.refs = nodes.map Node.refs :=
      map_modify nodes id _ _ fun _ => rfl
    intro other
    have bound := counted other
    have links := count_linked_set {node with links := node.links ++ [(label,target)]} found other
    have targets : Node.targets {node with links := node.links ++ [(label,target)]} = node.targets ++ [target] := by
      simp [Node.targets]
    rw [targets,count_append,count_singleton] at links
    rw [count_cons] at bound
    rw [refs_eq_of_map counts,shape]
    omega

theorem Counted.drain (orphan : α → α) (fuel : Nat) (nodes : Nodes κ α) (pending held : List Nat)
    (counted : Counted nodes (pending ++ held)) : Counted (drain orphan fuel nodes pending) held := by
  induction fuel generalizing nodes pending with
  | zero =>
    intro id
    have bound := counted id
    rw [count_append] at bound
    rw [RefCount.drain]
    omega
  | succ fuel ih =>
    cases pending with
    | nil => exact counted
    | cons id pending =>
      rw [RefCount.drain]
      split
      next => exact ih nodes pending counted.subset
      next node found =>
        split
        next => exact ih nodes pending counted.subset
        next single =>
          have freed : Counted (nodes.set id ⟨0,[],node.content⟩) (node.targets ++ pending ++ held) := ?_
          · exact ih _ _ (freed.congr (changes_map _ (fun _ => rfl) _) (changes_map _ (fun _ => rfl) _))
          intro other
          have bound := counted other
          have links := count_linked_set ⟨0,[],node.content⟩ found other
          rw [show (⟨0,[],node.content⟩ : Node κ α).targets.count other = 0 from rfl] at links
          rw [refs_set other _ found,append_assoc,count_append]
          rw [cons_append,count_cons] at bound
          by_cases same : other = id
          · subst same
            rw [refs_of_getElem found,single] at bound
            simp only [BEq.rfl,if_true] at bound ⊢
            omega
          · have different : (id == other) = false := by simpa using Ne.symm same
            rw [different] at bound
            rw [if_neg same]
            simp only [Bool.false_eq_true,if_false] at bound
            omega
        next left several =>
          refine ih _ _ ?_
          intro other
          have bound := counted other
          have links := count_linked_set {node with refs := left + 1} found other
          rw [show Node.targets {node with refs := left + 1} = node.targets from rfl] at links
          rw [refs_set other _ found]
          rw [cons_append,count_cons] at bound
          by_cases same : other = id
          · subst same
            rw [refs_of_getElem found,several] at bound
            simp only [BEq.rfl,if_true] at bound ⊢
            omega
          · have different : (id == other) = false := by simpa using Ne.symm same
            rw [different] at bound
            rw [if_neg same]
            simp only [Bool.false_eq_true,if_false] at bound
            omega

theorem Counted.release (orphan : α → α) (counted : Counted nodes (id :: held)) :
    Counted (release orphan nodes id) held := Counted.drain orphan _ nodes [id] held counted

end

section
variable (orphan : α → α)
include orphan

theorem drain_view (same : ∀ content, view (orphan content) = view content) (nodes : Nodes κ α) (pending : List Nat) :
    (drain orphan fuel nodes pending).map (fun node => view node.content) = nodes.map fun node => view node.content := by
  have set_same (nodes : Nodes κ α) (id : Nat) (node new : Node κ α) (found : nodes[id]? = some node)
      (content : new.content = node.content) :
      (nodes.set id new).map (fun node => view node.content) = nodes.map fun node => view node.content := by
    rw [map_set,content]
    apply ext_getElem?
    intro other
    rw [getElem?_set]
    split
    next equal =>
      subst equal
      rw [getElem?_map,found,length_map,if_pos (List.getElem?_eq_some_iff.mp found).1]
      rfl
    next => rfl
  induction fuel generalizing nodes pending with
  | zero => rfl
  | succ fuel ih =>
    cases pending with
    | nil => rfl
    | cons id pending =>
      rw [drain]
      split
      next => exact ih nodes pending
      next node found =>
        split
        next => exact ih nodes pending
        next => rw [ih,changes_map _ fun node => same node.content,set_same nodes id node ⟨0,[],node.content⟩ found rfl]
        next left _ => rw [ih,set_same nodes id node {node with refs := left + 1} found rfl]

theorem drain_links (fuel : Nat) (nodes : Nodes κ α) (pending : List Nat) (id : Nat) (after : Node κ α)
    (found : (drain orphan fuel nodes pending)[id]? = some after) :
    ∃ before, nodes[id]? = some before ∧ (after.links = before.links ∨ after.links = []) := by
  induction fuel generalizing nodes pending with
  | zero => exact ⟨after,found,Or.inl rfl⟩
  | succ fuel ih =>
    cases pending with
    | nil => exact ⟨after,found,Or.inl rfl⟩
    | cons first pending =>
      rw [drain] at found
      split at found
      next => exact ih nodes pending found
      next node there =>
        have setCase (new before : Node κ α) (others : Nodes κ α)
            (links : others.map Node.links = (nodes.set first new).map Node.links)
            (fewer : new.links = node.links ∨ new.links = []) (here : others[id]? = some before)
            (kept : after.links = before.links ∨ after.links = []) :
            ∃ before, nodes[id]? = some before ∧ (after.links = before.links ∨ after.links = []) := by
          have same : (nodes.set first new)[id]?.map Node.links = some before.links := by
            rw [← getElem_map,← links,getElem_map,here]
            rfl
          rw [getElem?_set] at same
          split at same
          next equal =>
            subst equal
            refine ⟨node,there,?_⟩
            rw [if_pos (List.getElem?_eq_some_iff.mp there).1] at same
            have own : new.links = before.links := by simpa using same
            rcases kept with kept | none_
            · rw [kept,← own]
              exact fewer
            · exact Or.inr none_
          next =>
            obtain ⟨old,stored,equal⟩ := map_eq_some_iff.mp same
            exact ⟨old,stored,by rwa [equal]⟩
        split at found
        next => exact ih nodes pending found
        next =>
          obtain ⟨before,here,kept⟩ := ih _ _ found
          exact setCase _ before _ (changes_map _ (fun _ => rfl) _) (Or.inr rfl) here kept
        next left _ =>
          obtain ⟨before,here,kept⟩ := ih _ _ found
          exact setCase {node with refs := left + 1} before _ rfl (Or.inl rfl) here kept

theorem drain_refs (nodes : Nodes κ α) (pending : List Nat) (id : Nat) :
    refs (drain orphan fuel nodes pending) id ≤ refs nodes id := by
  have set_le (nodes : Nodes κ α) (first : Nat) (old new : Node κ α) (found : nodes[first]? = some old)
      (fewer : new.refs ≤ old.refs) : refs (nodes.set first new) id ≤ refs nodes id := by
    rw [refs_set id new found]
    split
    next same => rw [same,refs_of_getElem found]; exact fewer
    next => exact Nat.le_refl _
  induction fuel generalizing nodes pending with
  | zero => exact Nat.le_refl _
  | succ fuel ih =>
    cases pending with
    | nil => exact Nat.le_refl _
    | cons first pending =>
      rw [drain]
      split
      next => exact ih nodes pending
      next node found =>
        split
        next => exact ih nodes pending
        next =>
          refine Nat.le_trans (ih _ _) ?_
          rw [refs_eq_of_map (changes_map _ (fun _ => rfl) _)]
          exact set_le nodes first node ⟨0,[],node.content⟩ found (Nat.zero_le _)
        next left several =>
          exact Nat.le_trans (ih _ _) (set_le nodes first node {node with refs := left + 1} found (by simp only [several]; omega))

theorem release_refs {given : Nat} :
    refs (release orphan nodes given) id ≤ refs nodes id := drain_refs orphan nodes [given] id

end

def unlink (nodes : Nodes κ α) (id : Nat) (keep : κ × Nat → Bool) : Nodes κ α :=
  nodes.modify id fun node => {node with links := node.links.filter keep}

theorem Counted.unlink {held : List Nat} (counted : Counted nodes held) (id : Nat) (keep : κ × Nat → Bool) (node : Node κ α)
    (found : nodes[id]? = some node) (entry : κ × Nat) (listed : entry ∈ node.links) (gone : keep entry = false) :
    Counted (unlink nodes id keep) (entry.2 :: held) := by
  have shape : RefCount.unlink nodes id keep = nodes.set id {node with links := node.links.filter keep} := by
    rw [RefCount.unlink,modify_eq_set_getElem?,found]
    rfl
  have counts : (RefCount.unlink nodes id keep).map Node.refs = nodes.map Node.refs := map_modify nodes id _ _ fun _ => rfl
  obtain ⟨before,behind,whole⟩ := append_of_mem listed
  intro other
  have bound := counted other
  have links := count_linked_set {node with links := node.links.filter keep} found other
  have fewer : ((before ++ behind).filter keep |>.map Prod.snd).count other ≤ ((before ++ behind).map Prod.snd).count other :=
    (filter_sublist.map Prod.snd).count_le other
  have dropped : node.links.filter keep = (before ++ behind).filter keep := by
    rw [whole,filter_append,filter_cons_of_neg (by simp [gone]),filter_append]
  have removed : Node.targets {node with links := node.links.filter keep} = ((before ++ behind).filter keep).map Prod.snd := by
    rw [Node.targets,dropped]
  have all : node.targets.count other = ((before ++ behind).map Prod.snd).count other + if entry.2 == other then 1 else 0 := by
    rw [Node.targets,whole]
    simp only [map_append,map_cons,count_append,count_cons]
    omega
  rw [removed,all] at links
  rw [refs_eq_of_map counts,shape,count_cons]
  omega

end Ant.Library.RefCount
