import MiddleEnd.Convention

/-! The System V convention of x86-64. The stack and frame pointers are never handed out. -/

namespace MiddleEnd.Convention.SysV

def rax : Register := ⟨0, "rax"⟩
def rcx : Register := ⟨1, "rcx"⟩
def rdx : Register := ⟨2, "rdx"⟩
def rbx : Register := ⟨3, "rbx"⟩
def rsi : Register := ⟨6, "rsi"⟩
def rdi : Register := ⟨7, "rdi"⟩
def r8 : Register := ⟨8, "r8"⟩
def r9 : Register := ⟨9, "r9"⟩
def r10 : Register := ⟨10, "r10"⟩
def r11 : Register := ⟨11, "r11"⟩
def r12 : Register := ⟨12, "r12"⟩
def r13 : Register := ⟨13, "r13"⟩
def r14 : Register := ⟨14, "r14"⟩
def r15 : Register := ⟨15, "r15"⟩

/-- A division takes its dividend in `rdx` and `rax`, and leaves quotient and remainder there. -/
def convention : Convention where
  name := "x86_64-sysv"
  registers := [rax, rcx, rdx, rsi, rdi, r8, r9, r10, r11, rbx, r12, r13, r14, r15]
  args := [rdi, rsi, rdx, rcx, r8, r9]
  result := rax
  callerSaved := [rax, rcx, rdx, rsi, rdi, r8, r9, r10, r11]
  divisionClobbers := [rax, rdx]

end MiddleEnd.Convention.SysV
