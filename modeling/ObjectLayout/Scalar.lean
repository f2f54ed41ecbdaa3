/-! Scalar types whose layout is a fact of the target: integers by rank and sign, floating-point
formats, and the character types. -/
namespace ObjectLayout

/-- The standard integer ranks, smallest first. -/
inductive IntegerRank where
  | char
  | short
  | int
  | long
  | longLong
  deriving DecidableEq, Repr

namespace IntegerRank

def all : List IntegerRank := [.char, .short, .int, .long, .longLong]

def spelling : IntegerRank → String
  | .char => "char"
  | .short => "short"
  | .int => "int"
  | .long => "long"
  | .longLong => "long long"

def next? : IntegerRank → Option IntegerRank
  | .char => some .short
  | .short => some .int
  | .int => some .long
  | .long => some .longLong
  | .longLong => none

/-- How many ranks are smaller. -/
def order : IntegerRank → Nat
  | .char => 0
  | .short => 1
  | .int => 2
  | .long => 3
  | .longLong => 4

end IntegerRank

inductive FloatFormat where
  | half
  | single
  | double
  | longDouble
  deriving DecidableEq, Repr

def FloatFormat.spelling : FloatFormat → String
  | .half => "__fp16"
  | .single => "float"
  | .double => "double"
  | .longDouble => "long double"

inductive Sign where
  | signed
  | unsigned
  deriving DecidableEq, Repr

inductive Scalar where
  | void
  | bool
  /-- The `char` whose sign is up to the target. -/
  | plainChar
  | wideChar
  | char16
  | char32
  | integer (rank : IntegerRank) (sign : Sign)
  | int128 (sign : Sign)
  | float (format : FloatFormat)
  | nullPointer
  deriving DecidableEq, Repr

namespace Scalar

def spelling : Scalar → String
  | .void => "void"
  | .bool => "bool"
  | .plainChar => "char"
  | .wideChar => "wchar_t"
  | .char16 => "char16_t"
  | .char32 => "char32_t"
  | .integer .char .signed => "signed char"
  | .integer rank .signed => rank.spelling
  | .integer rank .unsigned => "unsigned " ++ rank.spelling
  | .int128 .signed => "__int128"
  | .int128 .unsigned => "unsigned __int128"
  | .float format => format.spelling
  | .nullPointer => "std::nullptr_t"

def all : List Scalar :=
  [.void, .bool, .plainChar, .wideChar, .char16, .char32, .nullPointer,
    .int128 .signed, .int128 .unsigned]
  ++ IntegerRank.all.flatMap (fun rank => [.integer rank .signed, .integer rank .unsigned])
  ++ [.float .half, .float .single, .float .double, .float .longDouble]

def ofSpelling? (text : String) : Option Scalar := all.find? (·.spelling == text)

/-- The rank of a standard integer type; plain `char` and the other character types have none. -/
def rank? : Scalar → Option IntegerRank
  | .integer rank _ => some rank
  | _ => none

def isVoid : Scalar → Bool
  | .void => true
  | _ => false

def isInt128 : Scalar → Bool
  | .int128 _ => true
  | _ => false

def isFloat : Scalar → Bool
  | .float _ => true
  | _ => false

end Scalar

end ObjectLayout
