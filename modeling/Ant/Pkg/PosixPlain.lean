import Ant.Pkg.Posix

/-! The directory calls on paths that meet no link on their way: what they change, and that
they succeed. -/
namespace Ant.Pkg.PosixPlain
open Library.ByteLayout Library.ByteString Library.Effect Library.PathTree Library.LinkedTree Posix List

def namesOf (path : Bytes) : List Bytes := (split slash path).filter fun part => decide (part ≠ [] ∧ part ≠ [dot])

structure Grown (before after : Disk) : Prop where
  nodes : ∀ place, get after.volume place = get before.volume place ∨
    (get before.volume place = none ∧ get after.volume place = some .dir)
  contents : after.contents = before.contents
  nextFile : after.nextFile = before.nextFile

section
variable {place : Location} {disk after : Disk}

theorem Grown.refl (disk : Disk) : Grown disk disk := ⟨fun _ => Or.inl rfl,rfl,rfl⟩

theorem Grown.trans {first second third : Disk} (one : Grown first second) (two : Grown second third) :
    Grown first third := by
  refine ⟨?_,two.contents.trans one.contents,two.nextFile.trans one.nextFile⟩
  intro place
  have early := one.nodes place
  have late := two.nodes place
  grind

theorem Grown.keeps {before after : Disk} (grown : Grown before after) {node : Node (Leaf Bytes Nat)}
    (present : get before.volume place = some node) : get after.volume place = some node := by
  rcases grown.nodes place with same | ⟨absent,_⟩
  · rw [same,present]
  · rw [absent] at present
    contradiction

end

section Names
variable {root : Location} {disk : Disk}

section
variable {names : List Bytes} (name : Bytes) (dir : get disk.volume (root ++ names) = some .dir)
include names name dir

end

section
variable {path : Bytes} {names : List Bytes} {name : Bytes}

end

end Names

end Ant.Pkg.PosixPlain
