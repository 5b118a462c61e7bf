import SymbolicAlgebra.Proofs.Construction

/-!
# Proofs/Marking — what the mark of canonical form says of operands

An application in canonical form has canonical operands, unless its operator holds them back.  The
expressions of which this is true, at every depth, are well marked (`Expr.isWellMarked`); what is
built of well-marked expressions is well marked, and in canonical form where that is asked for
(`marking`).  It takes a kernel whose pool is well marked, and such it stays (`WellMarked`).
-/

namespace SymbolicAlgebra

namespace Expr

mutual

/-- Whether every application in canonical form has canonical operands, where `lazy` tells the
operators that may have others. -/
def isWellMarked (lazy : String → Bool) : Expr → Bool
  | .application f ops _ c => (!c || lazy f || ops.all isCanonical) && areWellMarked lazy ops
  | _ => true

def areWellMarked (lazy : String → Bool) : List Expr → Bool
  | [] => true
  | e :: rest => isWellMarked lazy e && areWellMarked lazy rest

end

variable {lazy : String → Bool}

theorem areWellMarked_iff {es : List Expr} :
    areWellMarked lazy es = true ↔ ∀ e ∈ es, e.isWellMarked lazy = true := by
  induction es with
  | nil => simp [areWellMarked]
  | cons e rest ih => simp [areWellMarked, ih]

theorem isWellMarked_application {f : String} {ops : List Expr} {d : Option Nat} {c : Bool} :
    (application f ops d c).isWellMarked lazy = true ↔
      (c = true → lazy f = false → ∀ e ∈ ops, e.isCanonical = true) ∧
        ∀ e ∈ ops, e.isWellMarked lazy = true := by
  rw [isWellMarked, Bool.and_eq_true, areWellMarked_iff]
  cases c <;> cases lazy f <;> simp

/-- In canonical form and well marked. -/
structure IsSound (lazy : String → Bool) (e : Expr) : Prop where
  canonical : e.isCanonical = true
  marked : e.isWellMarked lazy = true

theorem isSound_number (v : Number) : IsSound lazy (.number v) := ⟨rfl, rfl⟩

theorem isSound_symbol (n : String) (d : Option Nat) : IsSound lazy (.symbol n d true) := ⟨rfl, rfl⟩

theorem isSound_of_isError {e : Expr} (h : e.isError = true) : IsSound lazy e := by
  cases e with
  | error a b x => exact ⟨rfl, rfl⟩
  | _ => cases h

theorem isSound_application (f : String) {ops : List Expr} (d : Option Nat)
    (hops : ∀ e ∈ ops, IsSound lazy e) : IsSound lazy (.application f ops d true) :=
  ⟨rfl, isWellMarked_application.2
    ⟨fun _ _ e he => (hops e he).canonical, fun e he => (hops e he).marked⟩⟩

/-- Operands of an operator that does not hold them back. -/
theorem IsSound.operand {f : String} {ops : List Expr} {d : Option Nat} {c : Bool}
    (h : IsSound lazy (.application f ops d c)) (hf : lazy f = false) :
    ∀ e ∈ ops, IsSound lazy e := fun e he =>
  have hops := isWellMarked_application.1 h.marked
  ⟨hops.1 h.canonical hf e he, hops.2 e he⟩

end Expr

namespace Kernel

open SymbolicAlgebra.Expr SymbolicAlgebra.DefinitionTable

/-- A kernel in which the operators that `lazy` tells hold their operands back, and everything that
is pooled is in canonical form and well marked. -/
structure WellMarked (lazy : String → Bool) (k : Kernel) : Prop where
  table : ∀ f, k.table.holdsOperands f = lazy f
  pool : ∀ x ∈ k.pool, IsSound lazy x

/-- Sequences and negations, whose operands are taken out when something is built, do not hold them
back. -/
structure Releases (lazy : String → Bool) : Prop where
  sequence : lazy "Sequence" = false
  negate : lazy "Negate" = false

/-- A kernel in which nothing was built is well marked. -/
theorem wellMarked_of_isEmpty {k : Kernel} (h : k.pool.isEmpty = true) :
    WellMarked k.table.holdsOperands k where
  table := fun _ => rfl
  pool := by
    rw [List.isEmpty_iff] at h
    rw [h]
    simp

namespace WellMarked

variable {lazy : String → Bool} {k : Kernel}

theorem of_table {k' : Kernel} (hk : WellMarked lazy k) (hpool : k'.pool = k.pool)
    (htable : ∀ f, k'.table.holdsOperands f = k.table.holdsOperands f) : WellMarked lazy k' where
  table := fun f => (htable f).trans (hk.table f)
  pool := by rw [hpool]; exact hk.pool

/-- A name is met. -/
theorem register {name : String} {d : Definition} (hk : WellMarked lazy k)
    (h : k.table.contains name = false) (hd : Definition.IsMet name d) :
    WellMarked lazy { k with table := k.table.register name d } := by
  have hmet : holdsBack (some d) = holdsBack none := by cases hd <;> rfl
  exact hk.of_table rfl (read_find?_register h hmet)

/-- A registration is narrowed. -/
theorem narrow {i : Nat} {d : Definition} (hk : WellMarked lazy k) (hd : k.table.get? i = some d)
    (type : TypeName) :
    WellMarked lazy { k with table := k.table.modify i fun _ => d.narrow type } := by
  have hnarrow : holdsBack (some (d.narrow type)) = holdsBack (some d) := by cases d <;> rfl
  exact hk.of_table rfl (read_find?_narrow hd hnarrow)

end WellMarked

variable {lazy : String → Bool} {k : Kernel}

theorem maintains_log (level : Level) (source : Source) (message : String) :
    Maintains (WellMarked lazy) (log level source message) :=
  fun _ hk => ⟨hk.of_table rfl fun _ => rfl, trivial⟩

/-- **What is built of well-marked expressions is well marked, and in canonical form where that is
asked for.** -/
def marking (hl : Releases lazy) : Construction where
  Holds := WellMarked lazy
  Built := IsSound lazy
  Stands e := e.isWellMarked lazy = true
  Meets _ := True
  Mode f b := b = lazy f
  stands he := he.marked
  built he hc := ⟨hc, he⟩
  number := isSound_number
  error := isSound_of_isError
  wildcard {n} _ := isSound_symbol n none
  symbol _ _ := isSound_symbol _ _
  heldSymbol _ _ := rfl
  application _ _ hops := isSound_application _ _ hops
  lazyApplication _ _ hlazy hops :=
    ⟨rfl, isWellMarked_application.2 ⟨fun _ h => Bool.noConfusion (hlazy.trans h), hops⟩⟩
  heldApplication _ _ hops := isWellMarked_application.2 ⟨fun h => Bool.noConfusion h, hops⟩
  operand hf h := h.operand hf.symm
  heldOperand h := (isWellMarked_application.1 h).2
  mode hk f := hk.table f
  sequence := hl.sequence.symm
  negate := hl.negate.symm
  pooling hk he := ⟨hk.table, List.forall_mem_cons.2 ⟨he, hk.pool⟩⟩
  pooled hk _ hx _ := hk.pool _ hx
  noted _ hk := hk.of_table rfl fun _ => rfl
  narrowed hk _ hd := hk.narrow (narrowable?_eq_some.1 hd).2.1 _
  met hk hname _ _ hd := hk.register hname hd

theorem upholds_box (hl : Releases lazy) (hk : WellMarked lazy k) (r : Raw) :
    Upholds (WellMarked lazy) (box r) k fun e _ => IsSound lazy e :=
  (marking hl).box hk fun _ _ => trivial

theorem upholds_canonicalize (hl : Releases lazy) {e : Expr} (hk : WellMarked lazy k)
    (he : e.isWellMarked lazy = true) :
    Upholds (WellMarked lazy) (canonicalize e) k fun r _ => IsSound lazy r :=
  (marking hl).canonicalize (fun _ => trivial) hk he

/-- An application that is built anew keeps its form. -/
theorem upholds_rebuild (hl : Releases lazy) (hk : WellMarked lazy k) (f : String) {ops : List Expr}
    (hops : ∀ e ∈ ops, e.isWellMarked lazy = true) (c : Bool) :
    Upholds (WellMarked lazy) (rebuild f ops c) k fun r _ =>
      r.isWellMarked lazy = true ∧ (c = true → r.isCanonical = true) :=
  ((marking hl).rebuild (fun _ => trivial) hk f hops c).mono fun _ _ _ h =>
    ⟨h.1, fun hc => (h.2 hc).canonical⟩

end Kernel

end SymbolicAlgebra
