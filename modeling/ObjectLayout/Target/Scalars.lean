import ObjectLayout.Scalar
import ObjectLayout.Target
import ObjectLayout.TypeLayout

/-! Sizes and alignments of scalar types on a target. -/
namespace ObjectLayout.Target

/-- The System V ABI for i386 aligns 8-byte scalars to 4 bytes. -/
def halvesWideAlignment (target : Target) : Bool := target.arch == some .x86 && !target.isWindows

def pointerLayout (target : Target) : TypeLayout := .natural target.pointerWidth

def charLayout (_target : Target) : TypeLayout := .natural 1

def intLayout (_target : Target) : TypeLayout := .natural 4

def longLayout (target : Target) : TypeLayout :=
  .natural (if target.isWindows || !target.is64Bit then 4 else 8)

/-- `long long` and `double`. -/
def eightByteLayout (target : Target) : TypeLayout :=
  if target.halvesWideAlignment then .aligned 8 4 else .natural 8

def longDoubleLayout (target : Target) : TypeLayout :=
  if target.isWindows then .natural 8 else
  match target.arch, target.isMac with
  | some .x86, true => .natural 16
  | some .x86, false => .aligned 12 4
  | some .x86_64, _ | none, _ => .natural 16
  | some .aarch64, true => .natural 8
  | some .aarch64, false => .natural 16
  | some .arm, _ => .natural 8

def integerLayout (target : Target) : IntegerRank → TypeLayout
  | .char => target.charLayout
  | .short => .natural 2
  | .int => target.intLayout
  | .long => target.longLayout
  | .longLong => target.eightByteLayout

def floatLayout (target : Target) : FloatFormat → TypeLayout
  | .half => .natural 2
  | .single => .natural 4
  | .double => target.eightByteLayout
  | .longDouble => target.longDoubleLayout

def scalarLayout (target : Target) : Scalar → TypeLayout
  | .void => .aligned 0 1
  | .bool => .natural 1
  | .plainChar => target.charLayout
  | .wideChar => .natural (if target.isWindows then 2 else 4)
  | .char16 => .natural 2
  | .char32 => .natural 4
  | .integer rank _ => target.integerLayout rank
  | .int128 _ => .natural 16
  | .float format => target.floatLayout format
  | .nullPointer => target.pointerLayout

end ObjectLayout.Target
