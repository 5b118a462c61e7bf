import SymbolicAlgebra.Proofs.Inclusion
import SymbolicAlgebra.Proofs.Mildness

/-!
# Proofs/Loading — how reading moderate rules fails

A line that is no rule is skipped, so a moderate line never fails (`Kernel.reads_ruleOfLine`).  A description
has nothing that skips it: reading a moderate directory fails for descriptions that are malformed and for
files that are not there (`Kernel.reads_rulesOfFile_moderate`).  Rules that are read put moderate expressions
in.
-/

namespace SymbolicAlgebra

/-! ## Moderate rules -/

/-- Whether the numbers of a side are moderate, given as a text, a shape or an expression. -/
def Side.isModerate : Side → Bool
  | raw (.name text) => Sexpr.isModerate text
  | raw r => r.isModerate
  | expr e => e.isModerate
  | guard _ => true

/-- Whether the numbers of a rule on a line are moderate. -/
def RuleLine.isModerate (line : RuleLine) : Bool :=
  Sexpr.isModerate line.lhs && Sexpr.isModerate line.rhs && line.condition.all Sexpr.isModerate

/-- Whether the numbers of what a line writes are moderate; a line that is no rule has none. -/
def RuleLine.isModerateText (line : String) : Bool :=
  match parse line with
  | .ok (some parts) => parts.isModerate
  | _ => true

/-- A line that is no rule is of a wrong value. -/
theorem RuleLine.fault_of_parse {line : String} {f : Fault} (h : parse line = .error f) :
    f.kind = .value := by
  unfold parse at h
  split at h
  next => cases h
  next => cases h
  next =>
    simp only at h
    split at h
    next =>
      cases h
      rfl
    next =>
      -- with a condition and without one
      split at h <;> simp only at h <;> split at h <;> cases h <;> rfl

/-- Whether the numbers of a description are moderate. -/
def RuleSpec.isModerate : RuleSpec → Bool
  | rule r => r.isModerate
  | sides _ items => items.all Side.isModerate
  | fields entries =>
      ["match", "replace", "condition"].all fun key => (entries.lookup key).all Side.isModerate
  | other _ => true

/-- The descriptions that JSON text lists. -/
def RuleSpec.ofJson (text : String) : Except Fault (List RuleSpec) := do
  match ← Json.parse text with
  | .map keys items => listOf (((keys.zip items).lookup "rules").getD (.list []))
  | r => listOf r

/-- Whether the numbers of a file are moderate, which lists descriptions or has rules on its lines. -/
def RuleSpec.isModerateText (json : Bool) (text : String) : Bool :=
  if json then
    match ofJson text with
    | .ok specs => specs.all isModerate
    | .error _ => true
  else (Text.splitOnChar '\n' text).all RuleLine.isModerateText

/-- All files have moderate numbers only. -/
def Directory.IsModerate (d : Directory) : Prop :=
  ∀ path text, d.read path = .ok text →
    RuleSpec.isModerateText (path.hasExtension "json") text = true

namespace Kernel

variable {E : Fault → Prop} {k : Kernel}

/-- The action ends with a moderate rule in a strict kernel, or with a fault in `E`. -/
def Compiles (E : Fault → Prop) (x : Action Rule) (k : Kernel) : Prop :=
  Yields E x k fun r k' => IsStrict k' ∧ r.isModerate = true

/-! ## Making rules -/

section Compiling

variable (hE : Excuses E)

include hE

theorem builds_compileSide (hk : IsStrict k) {s : Side} (hs : s.isModerate = true) :
    Builds E (compileSide s) k := by
  unfold compileSide
  split
  next => exact builds_pure hk hs
  next text =>
    refine Yields.bind (yields_readText hE hs) ?_
    rintro (_ | r) k' ⟨rfl, hr⟩
    · exact Yields.throw (hE _ rfl)
    · exact builds_box hE hk ((Raw.isModerate_rename _ r).trans (hr r rfl))
  next r hname =>
    refine builds_hold hE hk ((Raw.isModerate_rename _ r).trans ?_)
    unfold Side.isModerate at hs
    split at hs
    next heq => cases heq; exact absurd rfl (hname _)
    next heq => cases heq; exact hs
    all_goals cases ‹Side.raw _ = _›
  next => exact Yields.throw (hE _ rfl)

theorem yields_compileCondition (hk : IsStrict k) {s : Side} (hs : s.isModerate = true) :
    Yields E (compileCondition s) k fun _ k' => IsStrict k' := by
  have hside : ∀ {s : Side} {β : Type} {f : Expr → β}, s.isModerate = true →
      Yields E (do return f (← compileSide s)) k fun _ k' => IsStrict k' := fun hs =>
    Yields.bind (builds_compileSide hE hk hs) fun _ _ he => Yields.pure he.1
  unfold compileCondition
  split
  next => exact Yields.pure hk
  next => exact Yields.pure hk
  next => exact hside hs
  next => exact hside hs
  next => exact Yields.pure hk
  next => exact Yields.throw (hE _ rfl)

theorem compiles_compileRule (hk : IsStrict k) {lhs rhs condition : Side}
    (hlhs : lhs.isModerate = true) (hrhs : rhs.isModerate = true)
    (hcondition : condition.isModerate = true) (name description : Raw) :
    Compiles E (compileRule lhs rhs condition name description) k :=
  Yields.bind (yields_compileCondition hE hk hcondition) fun _ _ hk₁ =>
    Yields.bind (builds_compileSide hE hk₁ hlhs) fun _ _ hl =>
      Yields.bind (builds_compileSide hE hl.1 hrhs) fun _ _ hr => Yields.pure hr

theorem compiles_compileLine (hk : IsStrict k) {line : RuleLine} (h : line.isModerate = true) :
    Compiles E (compileLine line) k := by
  rw [RuleLine.isModerate, Bool.and_eq_true, Bool.and_eq_true] at h
  have hcondition : (Side.raw (RuleLine.rawOf line.condition)).isModerate = true := by
    obtain ⟨-, h⟩ := h
    cases hc : line.condition with
    | none => rfl
    | some text => rwa [hc] at h
  have hlhs : (Side.raw (.name line.lhs)).isModerate = true := h.1.1
  have hrhs : (Side.raw (.name line.rhs)).isModerate = true := h.1.2
  exact compiles_compileRule hE hk hlhs hrhs hcondition _ _

theorem compiles_compileSpec (hk : IsStrict k) {spec : RuleSpec} (hspec : spec.isModerate = true) :
    Compiles E (compileSpec spec) k := by
  unfold compileSpec
  split
  next => exact Yields.pure ⟨hk, hspec⟩
  next entries =>
    have hpart : ∀ key ∈ ["match", "replace", "condition"], ∀ s, entries.lookup key = some s →
        s.isModerate = true := fun key hkey s hs => by
      have := List.all_eq_true.1 hspec key hkey
      rwa [hs] at this
    simp only
    split
    next lhs rhs hlhs hrhs =>
      refine compiles_compileRule hE hk (hpart _ (by simp) lhs hlhs) (hpart _ (by simp) rhs hrhs) ?_ _ _
      cases hcondition : entries.lookup "condition" with
      | none => rfl
      | some s => exact hpart _ (by simp) s hcondition
    next => exact Yields.throw (hE _ rfl)
  next lhs rhs =>
    have hs := List.all_eq_true.1 hspec
    exact compiles_compileRule hE hk (hs lhs (by simp)) (hs rhs (by simp)) rfl _ _
  next lhs rhs condition =>
    have hs := List.all_eq_true.1 hspec
    exact compiles_compileRule hE hk (hs lhs (by simp)) (hs rhs (by simp)) (hs condition (by simp)) _ _
  next => exact Yields.throw (hE _ rfl)

/-! ## Reading rules -/

theorem reads_compileSpecs {specs : List RuleSpec} (h : ∀ spec ∈ specs, spec.isModerate = true) :
    ReadsRules E IsStrict (·.isModerate = true) (compileSpecs specs) := by
  induction specs with
  | nil => exact fun k hk => Yields.pure ⟨hk, by simp⟩
  | cons spec rest ih =>
      rw [List.forall_mem_cons] at h
      intro k hk
      exact Yields.bind (compiles_compileSpec hE hk h.1) fun r k₁ hr =>
        Yields.bind (ih h.2 k₁ hr.1) fun _ _ hrs =>
          Yields.pure ⟨hrs.1, List.forall_mem_cons.2 ⟨hr.2, hrs.2⟩⟩

/-- **Descriptions in JSON** fail for what is malformed in them. -/
theorem reads_rulesOfJson {text : String} (h : RuleSpec.isModerateText true text = true) :
    ReadsRules E IsStrict (·.isModerate = true) (rulesOfJson text) := by
  have hspecs : ∀ {r : Raw}, (∀ specs, RuleSpec.listOf r = .ok specs → RuleSpec.ofJson text = .ok specs) →
      ∀ k, IsStrict k → Yields E (do compileSpecs (← ofExcept (RuleSpec.listOf r))) k
        fun rs k' => IsStrict k' ∧ ∀ r ∈ rs, r.isModerate = true := fun {r} hr k hk => by
    refine Yields.bind (P := fun specs k' => IsStrict k' ∧ ∀ spec ∈ specs, spec.isModerate = true)
      (yields_ofExcept (fun f hf => hE f ?_) fun specs hlist => ⟨hk, ?_⟩) fun specs k₁ hspecs =>
        reads_compileSpecs hE hspecs.2 k₁ hspecs.1
    · unfold RuleSpec.listOf at hf
      split at hf <;> cases hf
      rfl
    · rw [RuleSpec.isModerateText, if_pos rfl, hr specs hlist] at h
      exact List.all_eq_true.1 h
  intro k hk
  unfold rulesOfJson
  refine Yields.bind (P := fun data k' => IsStrict k' ∧ Json.parse text = .ok data)
    (yields_ofExcept (fun f hf => hE f ?_) fun data hdata => ⟨hk, hdata⟩) ?_
  · unfold Json.parse at hf
    split at hf <;> cases hf
    rfl
  · rintro data k₁ ⟨hk₁, hdata⟩
    refine hspecs (fun specs hlist => ?_) k₁ hk₁
    rw [RuleSpec.ofJson, hdata]
    simp only [bind, Except.bind]
    split <;> simpa using hlist

end Compiling

/-- **A moderate line never fails**: what is malformed is skipped. -/
theorem reads_ruleOfLine {line : String} (h : RuleLine.isModerateText line = true) (number : Nat) :
    ReadsRules E IsStrict (·.isModerate = true) (ruleOfLine number line) := by
  intro k hk
  refine Yields.tryCatch (E := (·.isInputFault = true)) ?_
    (((Maintains.ofExcept _).bind fun o => ?_ : Maintains IsStrict _) k hk) fun f k₁ hf hk₁ => ?_
  · refine Yields.bind (P := fun o k' => IsStrict k' ∧ RuleLine.parse line = .ok o)
      (yields_ofExcept (fun f hf => ?_) fun o ho => ⟨hk, ho⟩) ?_
    · rw [Fault.isInputFault, RuleLine.fault_of_parse hf]
      rfl
    · rintro (_ | parts) k₁ ⟨hk₁, ho⟩
      · exact Yields.pure ⟨hk₁, by simp⟩
      · rw [RuleLine.isModerateText, ho] at h
        exact Yields.bind (compiles_compileLine (fun _ hf => hf) hk₁ h) fun r _ hr =>
          Yields.pure ⟨hr.1, by simpa using hr.2⟩
  · cases o with
    | none => exact .pure _
    | some parts => exact (lasting_strict.compileRule _ _ _ _ _).bind fun _ => .pure _
  · rw [if_pos hf]
    exact Yields.bind (P := fun _ k' => IsStrict k') hk₁ fun _ _ hk₂ => Yields.pure ⟨hk₂, by simp⟩

/-! ## Reading files -/

/-- What fails when a moderate directory is read: malformed descriptions, and files that cannot be read. -/
abbrev Misreads (E : Fault → Prop) : Prop := Excuses E ∧ ∀ f, f.kind.isFile = true → E f

section Files

variable {d : Directory} (hd : d.IsModerate)

/-- A path that leads to no file cannot be read. -/
theorem isFile_of_read {path : Path} {f : Fault} (h : d.read path = .error f) :
    f.kind.isFile = true := by
  unfold Directory.read at h
  split at h <;> cases h <;> rfl

include hd

theorem readable_of_isModerate (hE : Misreads E) : Readable d E IsStrict (·.isModerate = true) where
  circular _ := hE.1 _ rfl
  absent _ := hE.2 _ rfl
  fault h := hE.2 _ (isFile_of_read h)
  line {path text line} htext hjson hline _ number := by
    have h := hd path text htext
    rw [hjson, RuleSpec.isModerateText, if_neg Bool.false_ne_true] at h
    exact reads_ruleOfLine (List.all_eq_true.1 h line hline) number
  json {path text} htext hjson := by
    have h := hd path text htext
    rw [hjson] at h
    exact reads_rulesOfJson hE.1 h

/-- **Files of a moderate directory** fail for descriptions and paths, never for their lines, and not for
including one another too deeply. -/
theorem reads_rulesOfFile_moderate (hE : Misreads E) (path : Path) :
    ReadsRules E IsStrict (·.isModerate = true) (rulesOfFile d path) :=
  reads_rulesOfFile (readable_of_isModerate hd hE) path

/-- **A moderate text** fails only for what it includes. -/
theorem reads_rulesOfText_moderate {text : String}
    (htext : RuleSpec.isModerateText false text = true)
    (hE : (∃ line ∈ Text.splitOnChar '\n' text, (includedPath? line).isSome = true) → Misreads E) :
    ReadsRules E IsStrict (·.isModerate = true) (rulesOfText d text) := by
  rw [RuleSpec.isModerateText, if_neg Bool.false_ne_true] at htext
  exact reads_rulesOfText (fun line hline _ number =>
    reads_ruleOfLine (List.all_eq_true.1 htext line hline) number)
    fun line hline hsome => readable_of_isModerate hd (hE ⟨line, hline, hsome⟩)

end Files

end Kernel

end SymbolicAlgebra
