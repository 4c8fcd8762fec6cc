import Quadcode.Text.Natural

/-!
# Registers

The registers of the target machine and what each is used for. Code is generated for a stack-based
calling convention: arguments are pushed, results come back in a fixed register.
-/

namespace Quadcode.X86

inductive Reg where
  | rax | rbx | rcx | rdx | rsi | rdi | rbp | rsp
  | r8 | r9 | r10 | r11 | r12 | r13 | r14 | r15
  deriving DecidableEq, Repr, Inhabited

namespace Reg

def all : List Reg :=
  [.rax, .rbx, .rcx, .rdx, .rsi, .rdi, .rbp, .rsp,
   .r8, .r9, .r10, .r11, .r12, .r13, .r14, .r15]

def text : Reg → String
  | .rax => "rax" | .rbx => "rbx" | .rcx => "rcx" | .rdx => "rdx"
  | .rsi => "rsi" | .rdi => "rdi" | .rbp => "rbp" | .rsp => "rsp"
  | .r8 => "r8" | .r9 => "r9" | .r10 => "r10" | .r11 => "r11"
  | .r12 => "r12" | .r13 => "r13" | .r14 => "r14" | .r15 => "r15"

/-- The low 32 bits. -/
def dword : Reg → String
  | .rax => "eax" | .rbx => "ebx" | .rcx => "ecx" | .rdx => "edx"
  | .rsi => "esi" | .rdi => "edi" | .rbp => "ebp" | .rsp => "esp"
  | .r8 => "r8d" | .r9 => "r9d" | .r10 => "r10d" | .r11 => "r11d"
  | .r12 => "r12d" | .r13 => "r13d" | .r14 => "r14d" | .r15 => "r15d"

/-- The low byte. -/
def byte : Reg → String
  | .rax => "al" | .rbx => "bl" | .rcx => "cl" | .rdx => "dl"
  | .rsi => "sil" | .rdi => "dil" | .rbp => "bpl" | .rsp => "spl"
  | .r8 => "r8b" | .r9 => "r9b" | .r10 => "r10b" | .r11 => "r11b"
  | .r12 => "r12b" | .r13 => "r13b" | .r14 => "r14b" | .r15 => "r15b"

def ofText? (s : String) : Option Reg := all.find? (·.text == s)

end Reg

/-- A floating-point register. The number is a byte, though code is generated for the first sixteen
alone. -/
structure Xmm where
  number : Fin 256
  deriving DecidableEq, Repr, Inhabited

namespace Xmm

/-- The sixteen registers that code is generated for. -/
def base : List Xmm := (List.range 16).map fun n => ⟨Fin.ofNat 256 n⟩

def text (x : Xmm) : String := "xmm" ++ toString x.number.val

def ofText? (s : String) : Option Xmm :=
  match s.toList with
  | 'x' :: 'm' :: 'm' :: number =>
    (Text.natural? 256 number).map fun n => ⟨Fin.ofNat 256 n⟩
  | _ => none

end Xmm

/-- Registers for variables, in the order they are tried. -/
def allocatable : List Reg := [.rbx, .rcx, .rsi, .rdi, .r8, .r9, .r12, .r13, .r14, .r15]

/-- Registers for floating-point variables, in the order they are tried. -/
def allocatableFloats : List Xmm := (List.range 13).map fun i => ⟨Fin.ofNat 256 (i + 1)⟩

/-- Registers that a routine leaves as it found them, in the order they are saved. -/
def calleeSaved : List Reg := [.rbx, .r12, .r13, .r14, .r15]

def Reg.isCalleeSaved (r : Reg) : Bool := calleeSaved.contains r

/-- Where a result comes back. -/
def result : Reg := .rax
def floatResult : Xmm := ⟨0⟩

/-- Registers that hold something only within the code of one quadruple. -/
def scratch : Reg := .r10
def scratch2 : Reg := .r11
def floatScratch : Xmm := ⟨14⟩
def floatScratch2 : Xmm := ⟨15⟩

/-- Bytes of a stack slot. -/
def slotBytes : Nat := 8

/-- What the stack pointer is a multiple of at every call. -/
def stackAlignment : Nat := 16

/-- Where the first argument lies above the frame pointer, behind the saved frame pointer and the
return address. -/
def argumentBase : Nat := 16

/-- Routines of the run-time library. -/
def printInt : String := "__print_int"
def printFloat : String := "__print_float"
def printString : String := "__print_string"
def printLine : String := "__print_line"
def readInt : String := "__read_int"

end Quadcode.X86
