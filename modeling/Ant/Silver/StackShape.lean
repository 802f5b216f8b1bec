import Ant.Silver.Handlers

/-! The operand stack at an instruction does not depend on how it is reached, as long as no exit leaves a
`for`-`of` loop for one around it and no store to a private member leaves its value behind. -/
namespace Ant.Silver.StackShape
open Library.Transition Syntax Bytecode Compiler Machine Silver.Flow ExprFlow StmtFlow Unwinding Handlers

end Ant.Silver.StackShape
