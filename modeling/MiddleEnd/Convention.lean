import MiddleEnd.Register

/-! Calling conventions: what an allocator has to know of a target. -/

namespace MiddleEnd

structure Convention where
  name : String
  /-- The registers to hand out, in the order they are tried. -/
  registers : List Register
  /-- Where the arguments of a call travel, by position. -/
  args : List Register
  /-- Where a call leaves its result. -/
  result : Register
  /-- What a call may overwrite. -/
  callerSaved : List Register
  /-- What a division overwrites. -/
  divisionClobbers : List Register

end MiddleEnd
