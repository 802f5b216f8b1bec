import Ant.Library.ByteString
import Mathlib.Data.List.Induction

/-! Paths followed segment by segment, without a look at the disk. -/
namespace Ant.Library.LexicalPath
open ByteLayout ByteString List

def Plain (segment : Bytes) : Prop := segment ≠ [] ∧ segment ≠ [dot] ∧ segment ≠ [dot,dot]

end Ant.Library.LexicalPath
