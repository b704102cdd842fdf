import LimeOS.Framework.Cpu

/-!
# `system_wrapper.S`
-/

namespace LimeOS

/-- The addresses of the functions behind the system calls. -/
structure SyscallAddrs where
  halt : Word
  execute : Word
  read : Word
  write : Word
  open_ : Word
  close : Word
  getargs : Word
  vidmap : Word
  setHandler : Word
  sigreturn : Word

/-- `syscall_jumptable`. -/
def syscallJumptable (a : SyscallAddrs) : List Word :=
  [0x0, a.halt, a.execute, a.read, a.write, a.open_, a.close, a.getargs, a.vidmap, a.setHandler, a.sigreturn]

/-- The registers and the flags, and the arguments above them. -/
def sysHandlerPushes : List Instr :=
  [.pushl .ebp, .pushl .edi, .pushl .esi, .pushl .edx, .pushl .ecx, .pushl .ebx, .pushfl,
    .pushl .edx, .pushl .ecx, .pushl .ebx]

/-- The label `restore`. -/
abbrev RESTORE : Nat := 16

def sysHandlerRestore : List Instr :=
  [.popl .ebx, .popl .ecx, .popl .edx, .popfl, .popl .ebx, .popl .ecx, .popl .edi, .popl .esi, .popl .edi, .popl .ebp]

/-- The label `error_eax`. -/
abbrev ERROR_EAX : Nat := 27

/-- `sys_handler`. -/
def sysHandler (a : SyscallAddrs) : Code where
  instrs :=
    sysHandlerPushes ++
    [.cmpl 1 .eax, .jl ERROR_EAX, .cmpl 10 .eax, .jg ERROR_EAX, .movlTable .eax, .call .eax] ++
    sysHandlerRestore ++
    [.iret, .movl (-1) .eax, .jmp RESTORE]
  table := syscallJumptable a

end LimeOS
