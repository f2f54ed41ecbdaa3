import ObjectLayout.Quantity

/-! The machine and platform that records are laid out for. An unknown architecture counts as 64-bit
and an unknown system as one that follows the Itanium C++ ABI. -/
namespace ObjectLayout

inductive Arch where
  | x86
  | x86_64
  | arm
  | aarch64
  deriving DecidableEq, Repr

namespace Arch

def name : Arch → String
  | .x86 => "x86"
  | .x86_64 => "x86_64"
  | .arm => "arm"
  | .aarch64 => "aarch64"

def all : List Arch := [.x86, .x86_64, .arm, .aarch64]

def ofName? (text : String) : Option Arch := all.find? (·.name == text)

def is64Bit : Arch → Bool
  | .x86_64 | .aarch64 => true
  | .x86 | .arm => false

end Arch

inductive Os where
  | windows
  | mac
  | linux
  | freeBsd
  deriving DecidableEq, Repr

namespace Os

def name : Os → String
  | .windows => "windows"
  | .mac => "macos"
  | .linux => "linux"
  | .freeBsd => "freebsd"

def all : List Os := [.windows, .mac, .linux, .freeBsd]

def ofName? (text : String) : Option Os := all.find? (·.name == text)

end Os

inductive Abi where
  | itanium
  | microsoft
  deriving DecidableEq, Repr

namespace Abi

def name : Abi → String
  | .itanium => "itanium"
  | .microsoft => "microsoft"

def ofName? (text : String) : Option Abi := [itanium, microsoft].find? (·.name == text)

end Abi

/-- When a derived class may put its own data into the tail padding of a base. -/
inductive TailPadding where
  | always
  | unlessPod03
  | unlessPod11
  deriving DecidableEq, Repr

/-- How a target packs bit-fields: whether the declared type aligns the record, whether a zero-width
bit-field aligns what follows it, and the boundary in bits to which it does so where declared types
do not count (zero for the boundary of the type). -/
structure BitFieldRules where
  typeAlignment : Bool := true
  zeroLengthAlignment : Bool := false
  zeroLengthBoundary : Bits := 0
  deriving DecidableEq, Repr

structure Target where
  arch : Option Arch := none
  os : Option Os := none
  /-- Overrides the ABI that the system implies. -/
  forcedAbi : Option Abi := none
  /-- Overrides the rules that the architecture implies. -/
  forcedBitFieldRules : Option BitFieldRules := none
  deriving DecidableEq, Repr

namespace Target

def is64Bit (target : Target) : Bool := target.arch.all Arch.is64Bit

def isX86_64 (target : Target) : Bool := target.arch == some .x86_64

def isWindows (target : Target) : Bool := target.os == some .windows

def isMac (target : Target) : Bool := target.os == some .mac

def pointerWidth (target : Target) : Bytes := if target.is64Bit then 8 else 4

def abi (target : Target) : Abi :=
  target.forcedAbi.getD (if target.isWindows then .microsoft else .itanium)

def tailPadding (target : Target) : TailPadding :=
  match target.abi with
  | .microsoft => .always
  | .itanium =>
    if target.isMac && target.arch == some .aarch64 then .unlessPod11 else .unlessPod03

def bitFieldRules (target : Target) : BitFieldRules :=
  match target.forcedBitFieldRules, target.arch with
  | some rules, _ => rules
  | none, some .arm | none, some .aarch64 => { zeroLengthAlignment := true }
  | none, _ => {}

/-- Architecture, then system. -/
def label (target : Target) : String :=
  (target.arch.elim "unknown" Arch.name) ++ " " ++ (target.os.elim "unknown" Os.name)

end Target

end ObjectLayout
