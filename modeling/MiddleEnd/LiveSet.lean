import MiddleEnd.Operand.Arena
import Std.Data.ExtTreeSet

/-! Finite sets of operands. Two of them are equal when they have the same members, and they are
listed in ascending order. -/

namespace MiddleEnd

abbrev LiveSet := Std.ExtTreeSet OperandId

end MiddleEnd
