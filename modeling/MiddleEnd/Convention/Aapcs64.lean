import MiddleEnd.Convention

/-! The procedure call standard of AArch64. Registers 16 to 18 (scratch and platform), the frame
pointer and the link register are never handed out. -/

namespace MiddleEnd.Convention.Aapcs64

/-- The general register of a number. -/
def x (n : Nat) : Register := ⟨n.toUInt8, s!"x{n}"⟩

/-- A division writes nothing but its destination. -/
def convention : Convention where
  name := "aarch64-aapcs64"
  registers := (List.range' 0 16 ++ List.range' 19 10).map x
  args := (List.range 8).map x
  result := x 0
  callerSaved := (List.range 16).map x
  divisionClobbers := []

end MiddleEnd.Convention.Aapcs64
