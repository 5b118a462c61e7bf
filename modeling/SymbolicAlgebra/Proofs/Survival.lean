import SymbolicAlgebra.Proofs.Loading
import SymbolicAlgebra.Proofs.Refusal
import SymbolicAlgebra.Session.Basic

/-!
# Proofs/Survival — which lines are answered

Most lines have nothing to fail: their faults are those of malformed input, and the handlers around them
make these answers (`Session.answers_excuse`).  What is left is told by `Session.Task.Succeeds`.  A text may be
rewritten without end, and an expansion may fail for more than its input; a list of descriptions may be none,
which is not excused where files are loaded; and neither what a line of rules includes nor a comparison has a
handler at all.  A dialogue in which none of these happens survives every line (`Session.dialogue_survives`);
a comparison with an empty list is a line that ends one (`Session.dialogue_breaks`).
-/

namespace SymbolicAlgebra.Session

open Kernel

variable {d : Directory} {s s' : Session} {k k' : Kernel} {source : String}

/-! ## What a line asks for -/

/-- What a line asks for. -/
inductive Task
  /-- Nothing, or something that cannot fail. -/
  | simple
  /-- Switching the checks. -/
  | checks
  | load (argument : String)
  | expand (mode : ExpansionMode) (text : String)
  | compare (text : String)
  | rules (text : String)
  | evaluate (text : String)
  deriving DecidableEq

namespace Task

/-- What a command asks for, by its name. -/
def ofName (name argument : String) : Task :=
  match name with
  | "load" => load argument
  | "strict" => checks
  | "expand" => expand .root argument
  | "expand-all" => expand .everywhere argument
  | "compare" => compare argument
  | _ => simple

/-- What a command asks for, given without its colon. -/
def ofCommand (line : String) : Task :=
  match Text.firstWord line with
  | none => simple
  | some (word, rest) => ofName (Text.lower word) (Text.strip rest)

/-- What a line asks for. -/
def ofLine (source : String) : Task :=
  let line := Text.strip source
  match line.toList with
  | [] | '#' :: _ | ';' :: _ => simple
  | ':' :: rest => ofCommand (String.ofList rest)
  | _ => if Text.contains "=>" line then rules line else evaluate line

/-- Whether the numbers in what is asked for are moderate. -/
def isModerate : Task → Bool
  | expand _ text | compare text | evaluate text => Sexpr.isModerate text
  | rules text => RuleSpec.isModerateText false text
  | _ => true

end Task

/-- Applies the rules, if there are any. -/
def rewrite (s : Session) (e : Expr) : Action Expr :=
  if s.rules.isEmpty then pure e else Kernel.replaceAll s.rules none e

/-- Builds the expression of a text and applies the rules. -/
def rewritten (s : Session) (text : String) : Action (Option Expr) := do
  match ← Kernel.parse text true with
  | none => return none
  | some e => return some (← s.rewrite e)

/-- Expands an expression, if the dialogue is in a mode that does. -/
def expanded (s : Session) (e : Expr) : Action Expr :=
  match s.expansion with
  | none => pure e
  | some mode => expandWith mode e

/-- The comparison of two shapes. -/
def compared (a b : Raw) : Action (Option Int) := do
  let a ← Kernel.box a
  let b ← Kernel.box b
  Kernel.compare? a b

/-- **What a task can fail for** does not happen: a list of descriptions that is none, an expansion or a
comparison without a result, an included file that cannot be read, rewriting without end. -/
def Task.Succeeds (d : Directory) (s : Session) (k : Kernel) : Task → Prop
  | simple | checks => True
  | load argument => Yields (·.kind ≠ .type) (rulesOfFile d (Path.ofText argument)) k fun _ _ => True
  | expand mode text => ∀ e k', (Kernel.parse text true).run.run k = (.ok (some e), k') →
      Yields (·.isInputFault = true) (expandWith mode e) k' fun _ _ => True
  | compare text => ∀ a b, Sexpr.parseAll text = .ok [a, b] →
      Yields Never (compared a b) k fun _ _ => True
  | rules text => (∃ line ∈ Text.splitOnChar '\n' text, (includedPath? line).isSome = true) →
      Yields Never (rulesOfText d text) k fun _ _ => True
  | evaluate text => (s.rules ≠ [] → Yields (· ≠ .unbounded) (s.rewritten text) k fun _ _ => True) ∧
      ∀ e k', (s.rewritten text).run.run k = (.ok (some e), k') →
        Yields (·.isInputFault = true) (s.expanded e) k' fun _ _ => True

theorem Task.succeeds_simple : Task.simple.Succeeds d s k := trivial

/-- Without rules and without a mode of expansion there is nothing to fail. -/
theorem Task.succeeds_evaluate (hrules : s.rules = []) (hexpansion : s.expansion = none)
    (text : String) : (Task.evaluate text).Succeeds d s k := by
  refine ⟨fun h => (h hrules).elim, fun e k' _ => ?_⟩
  rw [expanded, hexpansion]
  exact Yields.pure trivial

/-- Lines that include no file have nothing to fail. -/
theorem Task.succeeds_rules {text : String}
    (h : (Text.splitOnChar '\n' text).all (fun line => (includedPath? line).isNone) = true) :
    (Task.rules text).Succeeds d s k := by
  rintro ⟨line, hline, hsome⟩
  have hnone := List.all_eq_true.1 h line hline
  rw [Option.isNone_iff_eq_none] at hnone
  rw [hnone] at hsome
  cases hsome

/-- An evaluation rewrites and expands. -/
theorem evaluate_eq (text : String) : s.evaluate text = (do
    match ← s.rewritten text with
    | none => return none
    | some e => return some (← s.expanded e).text) := by
  unfold evaluate rewritten
  rw [bind_assoc]
  congr 1
  funext o
  cases o with
  | none => rfl
  | some e =>
      simp only [rewrite, expanded, bind_assoc, pure_bind]
      cases s.rules.isEmpty <;> cases s.expansion <;> rfl

/-! ## Answers -/

/-- The kernel checks operands, and the rules put moderate expressions in. -/
structure Steady (s : Session) (k : Kernel) : Prop where
  strict : IsStrict k
  rules : ∀ r ∈ s.rules, r.isModerate = true

/-- The action ends with an answer, from which the dialogue goes on. -/
abbrev Answers (x : Action Answer) (k : Kernel) : Prop := Yields Never x k fun q k' => Steady q.2 k'

/-- **Faults that are excused are answers.** -/
theorem answers_excuse {caught : Fault → Bool} {lead : String} {a : Action Answer}
    {Q : Answer → Kernel → Prop} (hs : Steady s k)
    (ha : Yields (caught · = true) a k fun q k' => Steady q.2 k') (hkernel : Upholds IsStrict a k Q) :
    Answers (excuse caught lead s a) k :=
  Yields.tryCatch ha hkernel fun f k' hf hk' => by
    rw [if_pos hf]
    exact Yields.pure ⟨hk', hs.rules⟩

theorem answers_say (hs : Steady s k) (text : String) : Answers (return s.say text) k := Yields.pure hs

/-! ### What expanding and rewriting leave as it is -/

section Lasting

variable {J : Kernel → Prop} (hJ : Lasting J)

include hJ

theorem maintains_expandWith (mode : ExpansionMode) (e : Expr) : Maintains J (expandWith mode e) := by
  cases mode with
  | root => exact hJ.expand e
  | everywhere => exact hJ.expandAll e

theorem maintains_rewritten (text : String) : Maintains J (s.rewritten text) := by
  refine (hJ.parse text true).bind fun o => ?_
  split
  · exact .pure _
  · exact (Maintains.ite (.pure _) (hJ.replaceAll _ _ _)).bind fun _ => .pure _

theorem maintains_expanded (e : Expr) : Maintains J (s.expanded e) := by
  unfold expanded
  split
  · exact .pure _
  · exact maintains_expandWith hJ _ e

theorem maintains_evaluate (text : String) : Maintains J (s.evaluate text) := by
  rw [evaluate_eq]
  refine (maintains_rewritten hJ text).bind fun o => ?_
  split
  · exact .pure _
  · exact (maintains_expanded hJ _).bind fun _ => .pure _

end Lasting

section Tasks

variable (hs : Steady s k)

include hs

theorem answers_load (hd : d.IsModerate) {argument : String}
    (h : (Task.load argument).Succeeds d s k) : Answers (s.loadCommand d argument) k := by
  unfold loadCommand
  split
  next => exact answers_say hs _
  next =>
    have hmisreads : Misreads fun f => f.isInputFault = true ∨ f.kind.isFile = true :=
      ⟨fun _ hf => .inl hf, fun _ hf => .inr hf⟩
    have hread := (reads_rulesOfFile_moderate hd hmisreads (Path.ofText argument) k hs.strict).both h
    refine answers_excuse hs ?_ ((((lasting_strict.rulesOfFile d _).bind fun _ => .pure _).bind
      fun _ => .pure _ : Maintains IsStrict _) k hs.strict)
    refine Yields.bind (P := fun q k' => Steady q.2 k') ?_ fun q k₁ hq => Yields.pure hq
    refine Yields.bind (hread.imp (fun f hf => ?_) fun _ _ h => h.1) fun rs k₁ hrs =>
      Yields.pure ⟨hrs.1, List.forall_mem_append.2 ⟨hs.rules, hrs.2⟩⟩
    -- a wrong kind of thing is not excused here
    simp only [Fault.isInputFault, Bool.or_eq_true, beq_iff_eq] at hf
    simp only [Fault.isLoadFault, Bool.or_eq_true]
    tauto

theorem answers_expand (name : String) {mode : ExpansionMode} {text : String}
    (htext : Sexpr.isModerate text = true) (h : (Task.expand mode text).Succeeds d s k) :
    Answers (s.expandCommand name mode text) k := by
  unfold expandCommand
  split
  next => exact answers_say hs _
  next =>
    have hkernel : Maintains IsStrict (do
        match ← Kernel.parse text true with
        | none => throw (.notAnExpression Raw.null.describe)
        | some e => return s.say (← expandWith mode e).text) := by
      refine (lasting_strict.parse text true).bind fun o => ?_
      split
      · exact .throw _
      · exact (maintains_expandWith lasting_strict mode _).bind fun _ => .pure _
    refine answers_excuse hs ?_ (hkernel k hs.strict)
    have hparse := buildsOption_parse (E := (·.isInputFault = true)) (fun _ hf => hf) hs.strict htext
    refine Yields.bind (hparse.and (yields_run _)) ?_
    rintro (_ | e) k₁ ⟨ho, hrun⟩
    · exact Yields.throw rfl
    · have hexpand := (h e k₁ hrun).and (maintains_expandWith lasting_strict mode e k₁ ho.1).yields
      exact Yields.bind hexpand fun _ _ h => Yields.pure ⟨h.2.1, hs.rules⟩

theorem answers_compare {text : String}
    (htext : Sexpr.isModerate text = true) (h : (Task.compare text).Succeeds d s k) :
    Answers (s.compareCommand text) k := by
  unfold compareCommand
  split
  next f hf =>
    refine answers_excuse hs (Yields.throw ?_) (Upholds.throw (P := fun _ _ => True) hs.strict)
    rw [Sexpr.fault_of_parseAll htext hf]
    rfl
  next a b hab =>
    have hkernel : Maintains IsStrict (compared a b) := (lasting_strict.box a).bind fun _ =>
      (lasting_strict.box b).bind fun _ => lasting_strict.compare? _ _
    have hcompared := (h a b hab).and (hkernel k hs.strict).yields
    have hbind : ∀ answer : Option Int → Action Answer, (do
        let a ← Kernel.box a
        let b ← Kernel.box b
        answer (← Kernel.compare? a b)) = compared a b >>= answer := fun _ => by
      simp only [compared, bind_assoc]
    rw [hbind]
    refine Yields.bind hcompared fun o k₁ ho => ?_
    split <;> exact Yields.pure ⟨ho.2.1, hs.rules⟩
  next => exact answers_say hs _

theorem answers_rules (hd : d.IsModerate) {text : String}
    (htext : RuleSpec.isModerateText false text = true) (h : (Task.rules text).Succeeds d s k) :
    Answers (s.addRules d text) k := by
  have hread : Yields Never (rulesOfText d text) k fun rs k' =>
      IsStrict k' ∧ ∀ r ∈ rs, r.isModerate = true := by
    by_cases hinclude : ∃ line ∈ Text.splitOnChar '\n' text, (includedPath? line).isSome = true
    · have hread := reads_rulesOfText_moderate (E := Anyhow) hd htext
        fun _ => ⟨fun _ _ => trivial, fun _ _ => trivial⟩
      exact ((h hinclude).and (hread k hs.strict)).mono fun _ _ h => h.2
    · exact reads_rulesOfText_moderate hd htext (fun h => absurd h hinclude) k hs.strict
  unfold addRules
  refine Yields.bind hread fun rs k₁ hrs => ?_
  split
  next => exact Yields.pure ⟨hrs.1, hs.rules⟩
  next => exact Yields.pure ⟨hrs.1, List.forall_mem_append.2 ⟨hs.rules, hrs.2⟩⟩

/-- **A moderate text is rewritten**, or its fault is one of malformed input, or there is no end to it. -/
theorem buildsOption_rewritten {E : Fault → Prop} (hE : Excuses E)
    (hend : s.rules ≠ [] → E .unbounded) {text : String} (htext : Sexpr.isModerate text = true) :
    BuildsOption E (s.rewritten text) k := by
  unfold rewritten
  refine Yields.bind (buildsOption_parse hE hs.strict htext) ?_
  rintro (_ | e) k₁ ho
  · exact buildsOption_none ho.1
  · refine Builds.some (x := s.rewrite e) ?_
    unfold rewrite
    split
    next => exact builds_pure ho.1 (ho.2 e rfl)
    next hrules =>
      rw [List.isEmpty_iff] at hrules
      exact builds_replaceAll hE hs.rules (hend hrules) ho.1 none (ho.2 e rfl)

theorem answers_evaluate {text : String}
    (htext : Sexpr.isModerate text = true) (h : (Task.evaluate text).Succeeds d s k) :
    Answers (excuse Fault.isInputFault "Error: " s do
      return ((← s.evaluate text).filter (· != ""), s)) k := by
  have hrewritten : BuildsOption (·.isInputFault = true) (s.rewritten text) k := by
    have hends : Yields (fun f => f = .unbounded → s.rules = []) (s.rewritten text) k
        fun _ _ => True := by
      by_cases hrules : s.rules = []
      · exact (anyhow _).imp (fun _ _ _ => hrules) fun _ _ h => h
      · exact (h.1 hrules).imp (fun _ hf heq => absurd heq hf) fun _ _ h => h
    have hbuilds := buildsOption_rewritten hs (E := fun f => f.isInputFault = true ∨
      f = .unbounded ∧ s.rules ≠ []) (fun _ hf => .inl hf) (fun hrules => .inr ⟨rfl, hrules⟩) htext
    refine (hbuilds.both hends).imp (fun f hf => ?_) fun _ _ h => h.1
    exact hf.1.resolve_right fun ⟨heq, hrules⟩ => hrules (hf.2 heq)
  refine answers_excuse hs ?_ ?_ (Q := fun _ _ => True)
  · rw [evaluate_eq]
    refine Yields.bind (P := fun _ k' => IsStrict k') ?_ fun _ _ hk' => Yields.pure ⟨hk', hs.rules⟩
    refine Yields.bind (hrewritten.and (yields_run _)) ?_
    rintro (_ | e) k₁ ⟨ho, hrun⟩
    · exact Yields.pure ho.1
    · have hexpanded := (h.2 e k₁ hrun).and (maintains_expanded lasting_strict e k₁ ho.1).yields
      exact Yields.bind hexpanded fun _ _ h => Yields.pure h.2.1
  · exact (maintains_evaluate lasting_strict text).bind (fun _ => .pure _) k hs.strict

end Tasks

-- For given texts these would be evaluated wherever they are met.
attribute [irreducible] Task.Succeeds

/-! ## Lines -/

/-- The action ends with an answer, from which the dialogue goes on unless the checks are switched. -/
@[irreducible]
def AnswersTo (task : Task) (x : Action Answer) (k : Kernel) : Prop :=
  Yields Never x k fun q k' =>
    (task ≠ .checks → IsStrict k') ∧ ∀ r ∈ q.2.rules, r.isModerate = true

theorem Answers.to {x : Action Answer} (h : Answers x k) (task : Task) : AnswersTo task x k := by
  unfold AnswersTo
  exact h.mono fun _ _ hs => ⟨fun _ => hs.strict, hs.rules⟩

/-- **What a line asks for, and how it is answered**: lines are told apart by how they begin. -/
theorem process_cases {motive : Task → Action Answer → Prop}
    (nothing : motive .simple (return (none, s)))
    (command : ∀ line, motive (.ofCommand line) (s.command d line))
    (rules : ∀ text, motive (.rules text) (s.addRules d text))
    (expression : ∀ text, motive (.evaluate text)
      (excuse Fault.isInputFault "Error: " s do
        return ((← s.evaluate text).filter (· != ""), s))) :
    motive (Task.ofLine source) (s.process d source) := by
  unfold Task.ofLine process
  simp only
  generalize Text.strip source = line
  generalize line.toList = cs
  split
  next => exact nothing
  next => exact nothing
  next => exact nothing
  next rest => exact command _
  next =>
    cases Text.contains "=>" line
    · simpa only [Bool.false_eq_true, if_false] using expression line
    · simpa only [if_true] using rules line

/-- A line that is no remark and no command holds rules or an expression. -/
theorem process_of_first {c : Char} {rest : List Char} (h : Text.stripChars source.toList = c :: rest)
    (hcolon : c ≠ ':') (hhash : c ≠ '#') (hsemicolon : c ≠ ';') :
    s.process d source =
      if Text.contains "=>" (Text.strip source) then s.addRules d (Text.strip source)
      else
        excuse Fault.isInputFault "Error: " s do
          return ((← s.evaluate (Text.strip source)).filter (· != ""), s) := by
  have hlist : (Text.strip source).toList = c :: rest := by rw [Text.strip, h, String.toList_ofList]
  rw [process]
  split
  next heq => rw [hlist] at heq; cases heq
  next heq => rw [hlist] at heq; exact absurd (List.cons.inj heq).1 hhash
  next heq => rw [hlist] at heq; exact absurd (List.cons.inj heq).1 hsemicolon
  next heq => rw [hlist] at heq; exact absurd (List.cons.inj heq).1 hcolon
  next => rfl

theorem steady_cleared (hs : Steady s k) : Steady { s with rules := [] } k :=
  ⟨hs.strict, fun _ hr => by cases hr⟩

theorem answersTo_pure {q : Answer} (hq : Steady q.2 k) (task : Task) :
    AnswersTo task (pure q) k := Answers.to (x := pure q) hq task

section Lines

variable (hd : d.IsModerate) (hs : Steady s k)

/-- A precision is set, or it is a wrong value. -/
theorem yields_setPrecision (hk : IsStrict k) (value : Raw) :
    Yields (·.kind.isValue = true) (Kernel.setPrecision value) k fun _ k' => IsStrict k' := by
  have h := setsPrecision value k
  unfold Yields
  generalize (Kernel.setPrecision value).run.run k = r at h ⊢
  cases h with
  | refused text => exact rfl
  | _ => exact hk

theorem maintains_setPrecision (value : Raw) : Maintains IsStrict (Kernel.setPrecision value) := by
  intro k hk
  have h := setsPrecision value k
  unfold Upholds
  generalize (Kernel.setPrecision value).run.run k = r at h ⊢
  cases h with
  | refused text => exact hk
  | _ => exact ⟨hk, trivial⟩

theorem yields_setUnit (hk : IsStrict k) (value : Raw) :
    Yields (·.kind.isValue = true) (Kernel.setUnit value) k fun _ k' => IsStrict k' := by
  have h := setsUnit value k
  unfold Yields
  generalize (Kernel.setUnit value).run.run k = r at h ⊢
  cases h with
  | refused text => exact rfl
  | changed unit => exact hk

theorem maintains_setUnit (value : Raw) : Maintains IsStrict (Kernel.setUnit value) := by
  intro k hk
  have h := setsUnit value k
  unfold Upholds
  generalize (Kernel.setUnit value).run.run k = r at h ⊢
  cases h with
  | refused text => exact hk
  | changed unit => exact ⟨hk, trivial⟩

include hs

theorem answers_precision (argument : String) : Answers (s.precisionCommand argument) k := by
  unfold precisionCommand
  split
  next => exact hs
  next =>
    have hkernel : Maintains IsStrict (do
        Kernel.setPrecision (← Kernel.ofExcept (precisionOf argument))
        return s.say ("Precision set to: " ++ intText (← Kernel.getPrecision))) :=
      (Maintains.ofExcept _).bind fun _ => (maintains_setPrecision _).bind fun _ =>
        Maintains.getPrecision.bind fun _ => .pure _
    refine answers_excuse hs ?_ (hkernel k hs.strict)
    refine Yields.bind (P := fun _ k' => k' = k) (yields_ofExcept (fun f hf => ?_) fun _ _ => rfl) ?_
    · unfold precisionOf at hf
      split at hf
      next => cases hf
      next =>
        split at hf <;> cases hf
        rfl
    · rintro value _ rfl
      exact Yields.bind (yields_setPrecision hs.strict value) fun _ _ hk' => ⟨hk', hs.rules⟩

theorem answers_angle (argument : String) : Answers (s.angleCommand argument) k := by
  unfold angleCommand
  split
  next => exact hs
  next =>
    have hkernel : Maintains IsStrict (do
        Kernel.setUnit (.name argument)
        return s.say ("Angular unit set to: " ++ argument)) :=
      (maintains_setUnit _).bind fun _ => .pure _
    refine answers_excuse hs ?_ (hkernel k hs.strict)
    exact Yields.bind (yields_setUnit hs.strict _) fun _ _ hk' => ⟨hk', hs.rules⟩

theorem answersTo_strict (argument : String) : AnswersTo .checks (s.strictCommand argument) k := by
  unfold AnswersTo strictCommand
  simp only
  split
  next => exact ⟨fun h => absurd rfl h, hs.rules⟩
  next =>
    split
    next => exact ⟨fun h => absurd rfl h, hs.rules⟩
    next => exact ⟨fun h => absurd rfl h, hs.rules⟩

include hd

/-- **A command is answered if its task succeeds.** -/
theorem answersTo_command {line : String} (hline : (Task.ofCommand line).isModerate = true)
    (h : (Task.ofCommand line).Succeeds d s k) :
    AnswersTo (Task.ofCommand line) (s.command d line) k := by
  unfold command
  unfold Task.ofCommand at hline h ⊢
  revert hline h
  rcases Text.firstWord line with _ | ⟨word, rest⟩
  · exact fun _ _ => (answers_say hs _).to _
  · intro hline h
    simp only at hline h ⊢
    split
    next => exact (answers_say hs _).to _
    next => exact answersTo_pure (q := (none, { s with running := false })) ⟨hs.strict, hs.rules⟩ _
    next => exact answersTo_pure (q := (none, { s with running := false })) ⟨hs.strict, hs.rules⟩ _
    next => exact answersTo_pure (q := (none, { s with running := false })) ⟨hs.strict, hs.rules⟩ _
    next hname =>
      simp only [hname, Task.ofName] at h
      exact (answers_load hs hd h).to _
    next => exact answersTo_pure (q := s.rulesCommand) hs _
    next => exact answersTo_pure (q := ({ s with rules := [] } : Session).say _) (steady_cleared hs) _
    next hname =>
      simp only [hname, Task.ofName]
      exact answersTo_strict hs _
    next => exact (answers_precision hs _).to _
    next => exact (answers_angle hs _).to _
    next hname =>
      simp only [hname, Task.ofName] at hline h
      exact (answers_expand hs _ hline h).to _
    next hname =>
      simp only [hname, Task.ofName] at hline h
      exact (answers_expand hs _ hline h).to _
    next hname =>
      simp only [hname, Task.ofName] at hline h
      exact (answers_compare hs hline h).to _
    next => exact (answers_say hs _).to _

/-- **A line is answered if its task succeeds.** -/
theorem answersTo_process (hsource : (Task.ofLine source).isModerate = true)
    (h : (Task.ofLine source).Succeeds d s k) :
    AnswersTo (Task.ofLine source) (s.process d source) k := by
  revert hsource h
  refine process_cases (motive := fun task x => task.isModerate = true → task.Succeeds d s k →
    AnswersTo task x k) ?_ ?_ ?_ ?_
  · exact fun _ _ => answersTo_pure (q := (none, s)) hs _
  · exact fun line hline h => answersTo_command hd hs hline h
  · exact fun text htext h => (answers_rules hs hd htext h).to _
  · exact fun text htext h => (answers_evaluate hs htext h).to _

end Lines

/-! ## Dialogues -/

/-- Answers lines one after the other. -/
def answerAll (d : Directory) : List String → Session → Action (List (Option String) × Session)
  | [], s => return ([], s)
  | line :: rest, s => do
      let (answer, s) ← s.process d line
      let (others, s) ← answerAll d rest s
      return (answer :: others, s)

/-- When a line is answered, the checks are on and its task succeeds. -/
def Proceeds (d : Directory) : List String → Session → Kernel → Prop
  | [], _, _ => True
  | line :: rest, s, k => IsStrict k ∧ (Task.ofLine line).Succeeds d s k ∧
      ∀ a s' k', (s.process d line).run.run k = (.ok (a, s'), k') → Proceeds d rest s' k'

/-- A dialogue proceeds behind a line that does not switch the checks. -/
theorem proceeds_cons {line : String} {rest : List String} (hd : d.IsModerate) (hs : Steady s k)
    (hline : (Task.ofLine line).isModerate = true) (hchecks : Task.ofLine line ≠ .checks)
    (h : (Task.ofLine line).Succeeds d s k) (hrest : ∀ s' k', Steady s' k' → Proceeds d rest s' k') :
    Proceeds d (line :: rest) s k := by
  refine ⟨hs.strict, h, fun a s' k' hrun => hrest s' k' ?_⟩
  have hanswered := answersTo_process hd hs hline h
  unfold AnswersTo at hanswered
  obtain ⟨hstrict, hrules⟩ := hanswered.of_run hrun
  exact ⟨hstrict hchecks, hrules⟩

/-- **A dialogue survives every line.**  Each line of a dialogue over a kernel that checks is answered, by a
message or by nothing, unless its task fails; simple lines and lines of rules that include no file have no
task to fail. -/
theorem dialogue_survives {lines : List String} (hd : d.IsModerate)
    (hrules : ∀ r ∈ s.rules, r.isModerate = true)
    (hlines : ∀ line ∈ lines, (Task.ofLine line).isModerate = true) (h : Proceeds d lines s k) :
    ∃ answers s' k', (answerAll d lines s).run.run k = (.ok (answers, s'), k') ∧
      answers.length = lines.length := by
  suffices hyields : Yields Never (answerAll d lines s) k fun q _ => q.1.length = lines.length by
    obtain ⟨⟨answers, s'⟩, k', hrun, hlength⟩ := hyields.exists_run
    exact ⟨answers, s', k', hrun, hlength⟩
  induction lines generalizing s k with
  | nil => exact Yields.pure rfl
  | cons line rest ih =>
      obtain ⟨hstrict, hsucceeds, hrest⟩ := h
      rw [List.forall_mem_cons] at hlines
      have hanswered := answersTo_process hd ⟨hstrict, hrules⟩ hlines.1 hsucceeds
      unfold answerAll
      generalize s.process d line = x at hrest hanswered ⊢
      unfold AnswersTo at hanswered
      refine Yields.bind (hanswered.and (yields_run _)) ?_
      rintro ⟨answer, s₁⟩ k₁ ⟨⟨-, hrules₁⟩, hrun⟩
      refine Yields.bind (ih hrules₁ hlines.2 (hrest answer s₁ k₁ hrun)) fun q _ hq => ?_
      exact Yields.pure (by simpa using hq)

/-- An expression, a rule and a command in a fresh dialogue over the standard definitions. -/
theorem dialogue_survives_standard :
    ∃ answers s' k', (answerAll {} ["(Add 1 2)", "@twice: (F _x) => (Add _x _x)", ":rules"] {}).run.run
      standard = (.ok (answers, s'), k') ∧ answers.length = 3 := by
  have hd : Directory.IsModerate {} := fun path text h => by
    have := Directory.mem_places_of_read h
    simp [Directory.places] at this
  have hs : Steady {} standard := ⟨standard_isStrict, by simp⟩
  refine dialogue_survives hd hs.rules (by decide +kernel) ?_
  refine proceeds_cons hd hs (by decide +kernel) (by decide +kernel) ?_ fun s₁ k₁ hs₁ => ?_
  · rw [show Task.ofLine "(Add 1 2)" = .evaluate "(Add 1 2)" by decide +kernel]
    exact Task.succeeds_evaluate rfl rfl _
  refine proceeds_cons hd hs₁ (by decide +kernel) (by decide +kernel) ?_ fun s₂ k₂ hs₂ => ?_
  · rw [show Task.ofLine "@twice: (F _x) => (Add _x _x)" = .rules "@twice: (F _x) => (Add _x _x)" by
      decide +kernel]
    exact Task.succeeds_rules (by decide +kernel)
  refine proceeds_cons hd hs₂ (by decide +kernel) (by decide +kernel) ?_ fun _ _ _ => trivial
  rw [show Task.ofLine ":rules" = .simple by decide +kernel]
  exact Task.succeeds_simple

/-! ### A line that is not answered -/

theorem process_compareEmpty :
    s.process d ":compare 1 ()" = s.compareCommand "1 ()" := by
  have hstrip : Text.strip ":compare 1 ()" = ":compare 1 ()" := by decide +kernel
  have hlist : ":compare 1 ()".toList = ':' :: "compare 1 ()".toList := by decide +kernel
  have hword : Text.firstWord "compare 1 ()" = some ("compare", "1 ()") := by decide +kernel
  have hlower : Text.lower "compare" = "compare" := by decide +kernel
  have hargument : Text.strip "1 ()" = "1 ()" := by decide +kernel
  simp only [process, command, hstrip, hlist, String.ofList_toList, hword, hlower, hargument]

/-- An empty list is read, but nothing is built of it, and the fault escapes. -/
theorem yields_compareEmpty :
    Yields (· = .operatorExpected "[]") (s.process d ":compare 1 ()") k fun _ _ => False := by
  have hread : Sexpr.parseAll "1 ()" = .ok [.int 1, .list []] := by cbv
  have hone : box (.int 1) = boxNumber (.int 1) := by
    unfold box
    rfl
  have hempty : box (.list []) = throw (.operatorExpected "[]") := by
    unfold box
    rfl
  rw [process_compareEmpty]
  unfold compareCommand
  simp only [hread]
  rw [hone, hempty]
  exact Yields.bind (boxNumber_int 1 k) fun _ k' _ => Yields.bind (P := fun _ _ => False) rfl
    fun _ _ h => h.elim

/-- In a fresh dialogue over the standard definitions, the comparison of a number with an empty list escapes. -/
theorem dialogue_breaks :
    ∃ k', (({} : Session).process {} ":compare 1 ()").run.run standard =
      (.error (.operatorExpected "[]"), k') := by
  obtain ⟨_, _, _, h⟩ | ⟨f, k', hrun, rfl⟩ := (yields_compareEmpty (s := {}) (d := {})
    (k := standard)).ok_or_fault
  · exact h.elim
  · exact ⟨k', hrun⟩

end SymbolicAlgebra.Session
