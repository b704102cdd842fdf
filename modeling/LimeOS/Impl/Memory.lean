import LimeOS.Framework.ByteCpu

/-!
# `lib.c`: `memset` and `memcpy`, the instructions

The two are one piece of code around the bytes they move and the string
instruction they repeat. The labels are the places of the instructions.
-/

namespace LimeOS

/-- Bytes until the destination is aligned, double words, and the bytes that are left. -/
def wordwise (move : List ByteInstr) (rep : ByteInstr) : List ByteInstr :=
  let top := 0
  let aligned := 6 + move.length
  let bottom := 13 + move.length
  let done := 17 + 2 * move.length
  [.testl .ecx .ecx, .jz done, .testlImm 0x3 .edi, .jz aligned] ++ move ++ [.subl 1 .ecx, .jmp top] ++
    [.movwFromDs .edx, .movwToEs .edx, .movl .ecx .edx, .shrl 2 .ecx, .andl 0x3 .edx, .cld, rep] ++
    [.testl .edx .edx, .jz done] ++ move ++ [.subl 1 .edx, .jmp bottom]

/-- The instructions of `memset`. -/
def memsetCode : List ByteInstr := wordwise [.movbTo .eax .edi, .addl 1 .edi] .repStosl

/-- `memset`'s operands in their registers: `c &= 0xFF`, and its byte four times in `eax`. -/
def memsetEntry (cpu : ByteCpu) (s c n : Word) : ByteCpu :=
  let c := c &&& 0xFF
  ((cpu.set .eax (c <<< 24 ||| c <<< 16 ||| c <<< 8 ||| c)).set .edi s).set .ecx n

/-- The instructions of `memcpy`. -/
def memcpyCode : List ByteInstr :=
  wordwise [.movbFrom .esi .eax, .movbTo .eax .edi, .addl 1 .edi, .addl 1 .esi] .repMovsl

/-- `memcpy`'s operands in their registers. -/
def memcpyEntry (cpu : ByteCpu) (dest src n : Word) : ByteCpu :=
  ((cpu.set .esi src).set .edi dest).set .ecx n

end LimeOS
