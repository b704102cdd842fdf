import LimeOS.Framework.Mem

/-!
# Commands

A command is the name of a program, the bytes before its first space, and an
argument string: what follows the spaces after the name.
-/

namespace LimeOS

def commandName (command : List Byte) : List Byte := command.takeWhile (· ≠ 0x20#8)

def commandArgs (command : List Byte) : List Byte :=
  (command.dropWhile (· ≠ 0x20#8)).dropWhile (· = 0x20#8)

end LimeOS
