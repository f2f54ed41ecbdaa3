import ObjectLayout.Decl.Tree

/-! Types as messages and dumps spell them. -/
namespace ObjectLayout

mutual

def Ty.spelling (tree : Tree) : Ty → String
  | .scalar _ s => s.spelling
  | .pointer _ pointee => pointee.spelling tree ++ " *"
  | .blockPointer _ pointee => pointee.spelling tree ++ " (^)"
  | .lvalueReference _ referee => referee.spelling tree ++ " &"
  | .rvalueReference _ referee => referee.spelling tree ++ " &&"
  | .memberPointer _ pointee owner => pointee.spelling tree ++ " " ++ owner.spelling tree ++ "::*"
  | .array _ element count => element.spelling tree ++ " [" ++ toString count ++ "]"
  | .incompleteArray _ element => element.spelling tree ++ " []"
  | .variableArray _ element => element.spelling tree ++ " [*]"
  | .dependentArray _ element => element.spelling tree ++ " [N]"
  | .vector _ element count =>
    element.spelling tree ++ " __attribute__((ext_vector_type(" ++ toString count ++ ")))"
  | .complex _ element => "_Complex " ++ element.spelling tree
  | .record _ r => (tree.record r).spelling
  | .enumeration _ _ name _ | .openEnumeration _ _ name => "enum " ++ name.getD "(anonymous)"
  | .typedef _ _ name _ _ => name
  | .elaborated _ inner => inner.spelling tree
  | .function _ result params variadic =>
    result.spelling tree ++ " (" ++ ", ".intercalate (Ty.spellings tree params)
      ++ (if variadic then ", ..." else "") ++ ")"
  | .templateParam _ name => name
  | .unresolved _ => "<error type>"

def Ty.spellings (tree : Tree) : List Ty → List String
  | [] => []
  | type :: rest => type.spelling tree :: Ty.spellings tree rest

end

end ObjectLayout
