import SymbolicAlgebra.Proofs.Construction

/-!
# Proofs/Stability — what building expressions leaves as it is

A property of kernels that survives what is added to the pool and to the journal, names that are met and
types that are narrowed is stable (`Stable`).  It goes along with any expressions, so every construction
leaves it as it is, also one that fails: `Stable.box`, `Stable.canonicalize` and the lemmas before them.
-/

namespace SymbolicAlgebra.Kernel

variable {J : Kernel → Prop}

/-- A property of kernels that building leaves as it is. -/
structure Stable (J : Kernel → Prop) : Prop where
  noted : ∀ {k} journal, J k → J { k with journal }
  pooled : ∀ {k} pool, J k → J { k with pool }
  narrowed : ∀ {k i d type}, J k → k.table.get? i = some d → d.accepts type = true →
    J { k with table := k.table.modify i fun _ => d.narrow type }
  met : ∀ {k name d}, J k → k.table.contains name = false → Definition.IsMet name d →
    J { k with table := k.table.register name d }

namespace Stable

variable (hJ : Stable J)

include hJ

/-- The construction of any expressions. -/
def construction : Construction where
  Holds := J
  Built _ := True
  Stands _ := True
  Meets _ := True
  Mode _ _ := True
  stands _ := trivial
  built _ _ := trivial
  number _ := trivial
  error _ := trivial
  wildcard _ := trivial
  symbol _ _ := trivial
  heldSymbol _ _ := trivial
  application _ _ _ := trivial
  lazyApplication _ _ _ _ := trivial
  heldApplication _ _ _ := trivial
  operand _ _ _ _ := trivial
  heldOperand _ _ _ := trivial
  mode _ _ := trivial
  sequence := trivial
  negate := trivial
  pooling hk _ := hJ.pooled _ hk
  pooled _ _ _ _ := trivial
  noted := hJ.noted
  narrowed hk _ hd :=
    have h := DefinitionTable.narrowable?_eq_some.1 hd
    hJ.narrowed hk h.2.1 h.2.2.2
  met hk hname _ _ hd := hJ.met hk hname hd

theorem log (level : Level) (source : Source) (message : String) :
    Maintains J (Kernel.log level source message) := hJ.construction.log level source message

/-! ## Inferring and checks -/

theorem infer (e : Expr) (type : TypeName) : Maintains J (Kernel.infer e type) :=
  hJ.construction.infer trivial type

theorem checkNumeric (ops : List Expr) (count : Option Nat) (a : Option String) :
    Maintains J (Kernel.checkNumeric ops count a) :=
  hJ.construction.maintains_checkNumeric (fun _ _ => trivial) count a

theorem checkSignature (ops : List Expr) (s : Signature) (held threadable : Bool) :
    Maintains J (Kernel.checkSignature ops s held threadable) :=
  hJ.construction.maintains_checkSignature (fun _ _ => trivial) s held threadable

/-! ## Building -/

theorem intern (e : Expr) : Maintains J (Kernel.intern e) := fun _ hk =>
  (hJ.construction.intern hk trivial).forget

theorem makeNumber (v : Number) : Maintains J (Kernel.makeNumber v) := hJ.intern _

theorem apply (f : String) (ops : List Expr) : Maintains J (Kernel.apply f ops) :=
  Maintains.getTable.bind fun _ => hJ.intern _

theorem makeSymbol (n : String) : Maintains J (Kernel.makeSymbol n) := fun _ hk =>
  (hJ.construction.makeSymbol hk trivial).forget

theorem holdSymbol (n : String) : Maintains J (Kernel.holdSymbol n) := fun _ hk =>
  (hJ.construction.holdSymbol hk trivial).forget

theorem boxNumber (r : Raw) : Maintains J (Kernel.boxNumber r) := fun _ hk =>
  (hJ.construction.boxNumber hk r).forget

/-- **Building a shape leaves what is stable as it is**, also where the shape cannot be built. -/
theorem box (r : Raw) : Maintains J (Kernel.box r) := fun _ hk =>
  (hJ.construction.box hk fun _ _ => trivial).forget

theorem hold (r : Raw) : Maintains J (Kernel.hold r) := fun _ hk =>
  (hJ.construction.hold hk fun _ _ => trivial).forget

/-- **Bringing an expression into canonical form leaves what is stable as it is.** -/
theorem canonicalize (e : Expr) : Maintains J (Kernel.canonicalize e) := fun _ hk =>
  (hJ.construction.canonicalize (fun _ => trivial) hk trivial).forget

theorem canonicalizeAll (es : List Expr) : Maintains J (Kernel.canonicalizeAll es) := fun _ hk =>
  (hJ.construction.canonicalizeAll (fun _ => trivial) hk fun _ _ => trivial).forget

theorem buildFrom (f : String) (ops : List Expr) : Maintains J (Kernel.buildFrom f ops) := fun _ hk =>
  (hJ.construction.buildFrom (fun _ => trivial) hk f fun _ _ => trivial).forget

theorem rebuild (f : String) (ops : List Expr) (canonical : Bool) :
    Maintains J (Kernel.rebuild f ops canonical) := fun _ hk =>
  (hJ.construction.rebuild (fun _ => trivial) hk f (fun _ _ => trivial) canonical).forget

theorem parse (text : String) (canonical : Bool) : Maintains J (Kernel.parse text canonical) := by
  refine (Maintains.ofExcept _).bind fun o => ?_
  split
  · exact .pure _
  · cases canonical
    · exact (hJ.hold _).some
    · exact (hJ.box _).some

/-! ## Checks of single operands -/

theorem checkType (e : Option Expr) (type : Option TypeName) :
    Maintains J (Kernel.checkType e type) := by
  unfold Kernel.checkType
  split
  · exact .pure _
  · exact .pure _
  · exact (hJ.canonicalize _).bind fun _ => Maintains.getTable.bind fun _ => .pure _

theorem checkEach (ops : List Expr) (types : List TypeName) :
    Maintains J (Kernel.checkEach ops types) := by
  induction types generalizing ops with
  | nil =>
      unfold Kernel.checkEach
      exact .pure _
  | cons type types ih =>
      cases ops with
      | nil => exact (hJ.checkType _ _).bind fun _ => (ih []).bind fun _ => .pure _
      | cons e ops => exact (hJ.checkType _ _).bind fun _ => (ih ops).bind fun _ => .pure _

theorem checkTypes (ops : List Expr) (types : List TypeName) :
    Maintains J (Kernel.checkTypes ops types) :=
  Maintains.getTable.bind fun _ => .ite (.pure _) (hJ.checkEach ops types)

theorem checkPure (e : Option Expr) : Maintains J (Kernel.checkPure e) := by
  unfold Kernel.checkPure
  split
  · exact .pure _
  · exact (hJ.canonicalize _).bind fun _ => Maintains.getTable.bind fun _ => .pure _

end Stable

end SymbolicAlgebra.Kernel
