import SymbolicAlgebra.Proofs.Lasting

/-!
# Proofs/Calls — runs of an engine

A run of an engine is a list of calls of its interface, one after the other; a call that fails leaves
the kernel as far as it came, and the next one goes on from there (`Kernel.after`).  What every call
leaves as it is (`Permanent`), every run leaves as it is.
-/

namespace SymbolicAlgebra

/-- A call of the interface of an engine, other than closing it. -/
inductive Call
  | declare (name : String) (declaration : Kernel.Declaration)
  -- building
  | box (shape : Raw)
  | hold (shape : Raw)
  | parse (text : String) (canonical : Bool)
  | number (shape : Raw)
  | literal (value : Number)
  | symbol (name : String)
  | heldSymbol (name : String)
  | function (operator : String) (operands : List Expr) (canonical : Bool)
  | canonicalize (e : Expr)
  | infer (e : Expr) (type : TypeName)
  -- arithmetic
  | add (operands : List Expr)
  | mul (operands : List Expr)
  | neg (e : Expr)
  | inv (e : Expr)
  | sub (a b : Expr)
  | div (a b : Expr)
  | pow (base exponent : Expr)
  | split (term : Expr)
  | radians (angle : Expr)
  | angle (angle : Expr)
  | piTerm (angle : Expr)
  | imaginaryFactor (e : Expr)
  -- values and comparison
  | constant (name : String)
  | evaluate (e : Expr) (numeric : Bool)
  | sign (e : Expr)
  | compare (a b : Expr)
  | isTrue (e : Expr)
  -- expansion
  | expand (e : Expr)
  | expandAll (e : Expr)
  | tryExpand (e : Expr)
  | tryExpandAll (e : Expr)
  | expandNumerator (e : Expr)
  | expandDenominator (e : Expr)
  | expandMultinomial (e : Expr)
  | expandPower (base : Expr) (exponent : Int)
  | distribute (operator : String) (operands : List Expr)
  | distributePair (a b : Expr)
  -- rules
  | rules (specs : List RuleSpec)
  | rulesOfText (files : Directory) (text : String)
  | rulesOfJson (text : String)
  | rulesOfFile (files : Directory) (path : Path)
  | matching (rules : List Rule) (e : Expr)
  | substitute (bindings : Bindings) (e : Expr)
  | applyRule (rule : Rule) (e : Expr)
  | applyFirst (rules : List Rule) (e : Expr)
  | replace (rules : List Rule) (bound : Option Int) (e : Expr)
  | replaceAll (rules : List Rule) (bound : Option Int) (e : Expr)
  -- checks
  | checkArity (operands : List Expr) (count : Nat)
  | checkNumeric (operands : List Expr) (count : Option Nat) (associative : Option String)
  | checkSignature (operands : List Expr) (signature : Signature) (held threadable : Bool)
  | checkType (e : Option Expr) (type : Option TypeName)
  | checkTypes (operands : List Expr) (types : List TypeName)
  | checkPure (e : Option Expr)
  -- settings
  | setPrecision (value : Raw)
  | setUnit (value : Raw)
  | setStrict (strict : Bool)

/-- Whether a call declares something or changes a setting. -/
def Call.isConfiguring : Call → Bool
  | .declare _ _ | .setPrecision _ | .setUnit _ | .setStrict _ => true
  | _ => false

namespace Kernel

/-- What a call does; what it gives is of no concern to the kernel. -/
def perform : Call → Action Unit
  | .declare name declaration => declare name declaration
  | .box r => do let _ ← box r
  | .hold r => do let _ ← hold r
  | .parse text canonical => do let _ ← parse text canonical
  | .number r => do let _ ← boxNumber r
  | .literal v => do let _ ← makeNumber v
  | .symbol name => do let _ ← makeSymbol name
  | .heldSymbol name => do let _ ← holdSymbol name
  | .function f ops canonical => do let _ ← rebuild f ops canonical
  | .canonicalize e => do let _ ← canonicalize e
  | .infer e type => do let _ ← infer e type
  | .add ops => do let _ ← addOf ops
  | .mul ops => do let _ ← mulOf ops
  | .neg e => do let _ ← negOf e
  | .inv e => do let _ ← invOf e
  | .sub a b => do let _ ← subOf a b
  | .div a b => do let _ ← divOf a b
  | .pow b e => do let _ ← powOf b e
  | .split e => do let _ ← splitCoefficient e
  | .radians e => do let _ ← toRadians e
  | .angle e => do let _ ← canonicalAngle e
  | .piTerm e => do let _ ← piTerm e
  | .imaginaryFactor e => do let _ ← imaginaryFactor e
  | .constant name => do let _ ← constant name
  | .evaluate e numeric => do let _ ← evaluate e numeric
  | .sign e => do let _ ← signOf e
  | .compare a b => do let _ ← compare? a b
  | .isTrue e => do let _ ← isTrue e
  | .expand e => do let _ ← expand e
  | .expandAll e => do let _ ← expandAll e
  | .tryExpand e => do let _ ← expand? e
  | .tryExpandAll e => do let _ ← expandAll? e
  | .expandNumerator e => do let _ ← expandNumerator? e
  | .expandDenominator e => do let _ ← expandDenominator? e
  | .expandMultinomial e => do let _ ← expandMultinomial? e
  | .expandPower b n => do let _ ← expandPower? b n
  | .distribute f ops => do let _ ← distribute? f ops
  | .distributePair a b => do let _ ← distribute2 a b
  | .rules specs => do let _ ← compileSpecs specs
  | .rulesOfText d text => do let _ ← rulesOfText d text
  | .rulesOfJson text => do let _ ← rulesOfJson text
  | .rulesOfFile d path => do let _ ← rulesOfFile d path
  | .matching rules e => do let _ ← matching rules e
  | .substitute b e => do let _ ← substitute b e
  | .applyRule r e => do let _ ← applyRule r e
  | .applyFirst rules e => do let _ ← applyFirst rules e
  | .replace rules bound e => do let _ ← replace rules bound e
  | .replaceAll rules bound e => do let _ ← replaceAll rules bound e
  | .checkArity ops count => do let _ ← checkArity ops count
  | .checkNumeric ops count a => do let _ ← checkNumeric ops count a
  | .checkSignature ops s held threadable => do let _ ← checkSignature ops s held threadable
  | .checkType e type => do let _ ← checkType e type
  | .checkTypes ops types => do let _ ← checkTypes ops types
  | .checkPure e => do let _ ← checkPure e
  | .setPrecision value => setPrecision value
  | .setUnit value => setUnit value
  | .setStrict strict => setStrict strict

/-- The kernel after a run. -/
def after (k : Kernel) (run : List Call) : Kernel :=
  run.foldl (fun k c => ((perform c).run.run k).2) k

theorem after_nil (k : Kernel) : k.after [] = k := rfl

variable {J : Kernel → Prop}

/-- **A call that declares nothing and sets nothing leaves what is lasting as it is.** -/
theorem Lasting.perform (hJ : Lasting J) {c : Call} (hc : c.isConfiguring = false) :
    Maintains J (Kernel.perform c) := by
  cases c with
  | box r => exact (hJ.box r).discard
  | hold r => exact (hJ.hold r).discard
  | parse text canonical => exact (hJ.parse text canonical).discard
  | number r => exact (hJ.boxNumber r).discard
  | literal v => exact (hJ.makeNumber v).discard
  | symbol name => exact (hJ.makeSymbol name).discard
  | heldSymbol name => exact (hJ.holdSymbol name).discard
  | function f ops canonical => exact (hJ.rebuild f ops canonical).discard
  | canonicalize e => exact (hJ.canonicalize e).discard
  | infer e type => exact (hJ.infer e type).discard
  | add ops => exact (hJ.addOf ops).discard
  | mul ops => exact (hJ.mulOf ops).discard
  | neg e => exact (hJ.negOf e).discard
  | inv e => exact (hJ.invOf e).discard
  | sub a b => exact (hJ.subOf a b).discard
  | div a b => exact (hJ.divOf a b).discard
  | pow b e => exact (hJ.powOf b e).discard
  | split e => exact (hJ.splitCoefficient e).discard
  | radians e => exact (hJ.toRadians e).discard
  | angle e => exact (hJ.canonicalAngle e).discard
  | piTerm e => exact (hJ.piTerm e).discard
  | imaginaryFactor e => exact (hJ.imaginaryFactor e).discard
  | constant name => exact (hJ.constant name).discard
  | evaluate e numeric => exact (hJ.evaluate e numeric).discard
  | sign e => exact (Lasting.signOf e).discard
  | compare a b => exact (hJ.compare? a b).discard
  | isTrue e => exact (hJ.isTrue e).discard
  | expand e => exact (hJ.expand e).discard
  | expandAll e => exact (hJ.expandAll e).discard
  | tryExpand e => exact (hJ.expand? e).discard
  | tryExpandAll e => exact (hJ.expandAll? e).discard
  | expandNumerator e => exact (hJ.expandNumerator? e).discard
  | expandDenominator e => exact (hJ.expandDenominator? e).discard
  | expandMultinomial e => exact (hJ.expandMultinomial? e).discard
  | expandPower b n => exact (hJ.expandPower? b n).discard
  | distribute f ops => exact (hJ.distribute? f ops).discard
  | distributePair a b => exact hJ.distribute2.discard
  | rules specs => exact (hJ.compileSpecs specs).discard
  | rulesOfText d text => exact (hJ.rulesOfText d text).discard
  | rulesOfJson text => exact (hJ.rulesOfJson text).discard
  | rulesOfFile d path => exact (hJ.rulesOfFile d path).discard
  | matching rules e => exact (Lasting.matching rules e).discard
  | substitute b e => exact (hJ.substitute b e).discard
  | applyRule r e => exact (hJ.applyRule r e).discard
  | applyFirst rules e => exact (hJ.applyFirst rules e).discard
  | replace rules bound e => exact (hJ.replace rules bound e).discard
  | replaceAll rules bound e => exact (hJ.replaceAll rules bound e).discard
  | checkArity ops count => exact (Maintains.isStrict.bind fun _ => .pure _).discard
  | checkNumeric ops count a => exact (hJ.checkNumeric ops count a).discard
  | checkSignature ops s held threadable => exact (hJ.checkSignature ops s held threadable).discard
  | checkType e type => exact (hJ.checkType e type).discard
  | checkTypes ops types => exact (hJ.checkTypes ops types).discard
  | checkPure e => exact (hJ.checkPure e).discard
  | declare _ _ => cases hc
  | setPrecision _ => cases hc
  | setUnit _ => cases hc
  | setStrict _ => cases hc

/-- What declaring a name comes to: either nothing is changed, or a definition is registered for a name that
is new, or was met without a type. -/
inductive Declares (name : String) (declaration : Declaration) (k : Kernel) :
    Except Fault Unit × Kernel → Prop
  | refused (f : Fault) : Declares name declaration k (.error f, k)
  | registered {d : Definition} (record : LogRecord) (hd : definitionOf name declaration = .ok d)
      (hold : ∀ old, k.table.find? name = some old →
        old.isInferred = true ∧ old.isUnresolved = true) :
      Declares name declaration k (.ok (), { k with
        table := k.table.register name d
        constants := k.constants.filter fun p => p.1 != name
        pool := if (k.table.find? name).isSome then [] else k.pool
        journal := record :: k.journal })

/-- **Declaring a name** is refused, or registers a definition of it. -/
theorem declares (name : String) (declaration : Declaration) (k : Kernel) :
    Declares name declaration k ((declare name declaration).run.run k) := by
  unfold declare
  rw [run_bind]
  -- the table is read, and then the kernel is as before
  change Declares name declaration k
    ((ofExcept (definitionOf name declaration) >>= (_ : Definition → Action Unit)).run.run k)
  rw [run_bind]
  cases hd : definitionOf name declaration with
  | error f => exact .refused f
  | ok d =>
      change Declares name declaration k ((_ : Action Unit).run.run k)
      simp only
      split
      next old hold =>
        split
        next => exact .refused _
        next h =>
          refine .registered _ hd fun x hx => ?_
          rw [hold] at hx
          cases hx
          simpa using h
      next hnone => exact .registered _ hd fun old hold => (hnone old hold).elim

/-- What setting the precision comes to: a wrong value is refused, and another precision empties the cache
of values. -/
inductive SetsPrecision (value : Raw) (k : Kernel) : Except Fault Unit × Kernel → Prop
  | refused (text : String) : SetsPrecision value k (.error (.precision text), k)
  | kept (h : ∀ n : Nat, value = .int n → n = k.settings.precision) :
      SetsPrecision value k (.ok (), k)
  | changed (precision : Nat) (record : LogRecord) (h : ∀ n : Nat, value = .int n → n = precision) :
      SetsPrecision value k (.ok (), { k with
        settings := { k.settings with precision }
        constants := []
        journal := record :: k.journal })

/-- **Setting the precision** is one of these. -/
theorem setsPrecision (value : Raw) (k : Kernel) :
    SetsPrecision value k ((setPrecision value).run.run k) := by
  unfold setPrecision
  simp only
  split
  next n hn =>
    have hvalue : ∀ m : Nat, value = .int m → m = n.toNat := by
      rintro m rfl
      cases hn
      rfl
    split
    next => exact .refused _
    next =>
      rw [run_bind]
      change SetsPrecision value k ((_ : Action Unit).run.run k)
      split
      next => exact .changed n.toNat _ hvalue
      next hsame =>
        obtain hsame := not_not.1 hsame
        rw [hsame]
        exact .kept (hsame ▸ hvalue)
  next => exact .refused _

/-- What setting the unit of angles comes to. -/
inductive SetsUnit (k : Kernel) : Except Fault Unit × Kernel → Prop
  | refused (text : String) : SetsUnit k (.error (.angularUnit text), k)
  | changed (unit : AngularUnit) :
      SetsUnit k (.ok (), { k with settings := { k.settings with unit } })

/-- **Setting the unit of angles** is one of these. -/
theorem setsUnit (value : Raw) (k : Kernel) : SetsUnit k ((setUnit value).run.run k) := by
  unfold setUnit
  split
  · split
    · exact .changed _
    · exact .refused _
  · exact .refused _

/-- A property of kernels that every call leaves as it is: it survives building, caching, declaring
what is new or was met without a type, and other settings. -/
structure Permanent (J : Kernel → Prop) : Prop extends Lasting J where
  declared : ∀ {k name} d, J k →
    (∀ old, k.table.find? name = some old → old.isInferred = true ∧ old.isUnresolved = true) →
    J { k with table := k.table.register name d }
  configured : ∀ {k} settings, J k → J { k with settings }
  forgotten : ∀ {k} constants, constants.Sublist k.constants → J k → J { k with constants }

namespace Permanent

variable (hJ : Permanent J)

include hJ

theorem declare (name : String) (declaration : Declaration) :
    Maintains J (Kernel.declare name declaration) := by
  intro k hk
  have h := declares name declaration k
  unfold Upholds
  generalize (Kernel.declare name declaration).run.run k = r at h ⊢
  cases h with
  | refused f => exact hk
  | @registered d record _ hold =>
      exact ⟨hJ.pooled _ (hJ.forgotten _ List.filter_sublist
        (hJ.declared d (hJ.noted (record :: k.journal) hk) hold)), trivial⟩

theorem setPrecision (value : Raw) : Maintains J (Kernel.setPrecision value) := by
  intro k hk
  have h := setsPrecision value k
  unfold Upholds
  generalize (Kernel.setPrecision value).run.run k = r at h ⊢
  cases h with
  | refused text => exact hk
  | kept => exact ⟨hk, trivial⟩
  | changed precision record =>
      exact ⟨hJ.configured _ (hJ.forgotten _ (List.nil_sublist _) (hJ.noted (record :: k.journal) hk)),
        trivial⟩

theorem setUnit (value : Raw) : Maintains J (Kernel.setUnit value) := by
  intro k hk
  have h := setsUnit value k
  unfold Upholds
  generalize (Kernel.setUnit value).run.run k = r at h ⊢
  cases h with
  | refused text => exact hk
  | changed unit => exact ⟨hJ.configured _ hk, trivial⟩

theorem setStrict (strict : Bool) : Maintains J (Kernel.setStrict strict) :=
  fun _ hk => ⟨hJ.configured _ hk, trivial⟩

/-- **Every call leaves what is permanent as it is.** -/
theorem perform (c : Call) : Maintains J (Kernel.perform c) := by
  cases hc : c.isConfiguring with
  | false => exact hJ.toLasting.perform hc
  | true =>
      cases c with
      | declare name declaration => exact hJ.declare name declaration
      | setPrecision value => exact hJ.setPrecision value
      | setUnit value => exact hJ.setUnit value
      | setStrict strict => exact hJ.setStrict strict
      | _ => cases hc

/-- **Every run leaves what is permanent as it is.** -/
theorem after {k : Kernel} (hk : J k) (run : List Call) : J (k.after run) := by
  induction run generalizing k with
  | nil => exact hk
  | cons c rest ih => exact ih (hJ.perform c k hk).kernel

end Permanent

end Kernel

end SymbolicAlgebra
