import SymbolicAlgebra.Expr.Basic

/-!
# Kernel/Flatten — operand lists without nesting

Sequences are spliced into the operands they stand among, and so are nested applications of an
associative operator.
-/

namespace SymbolicAlgebra.Expr

/-- Whether the operands of `f` are spliced into the list around it. -/
def isSpliced (associative : Option String) (f : String) : Bool :=
  f == "Sequence" || associative == some f

mutual

/-- The operands that an expression contributes to a list. -/
def leaves (associative : Option String) : Expr → List Expr
  | application f ops d c =>
      if isSpliced associative f then flatten associative ops else [application f ops d c]
  | e => [e]

/-- Splices sequences and nested applications of an associative operator, at every depth. -/
def flatten (associative : Option String) : List Expr → List Expr
  | [] => []
  | e :: rest => leaves associative e ++ flatten associative rest

end

/-- Splices sequences. -/
def flattenSequence (ops : List Expr) : List Expr := flatten none ops

end SymbolicAlgebra.Expr
