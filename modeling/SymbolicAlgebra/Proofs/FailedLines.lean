import SymbolicAlgebra.Proofs.InclusionOnce
import SymbolicAlgebra.Proofs.Survival

/-!
# Proofs/FailedLines — a line that fails changes no setting

Reading, building, rewriting and loading leave the settings of a kernel as they are (`lasting_settings`), and
where a setting is changed, nothing can fail any more.  So an action leaves the settings as they were where it
fails (`Spares`), and an answer that tells of a failure goes on with the rules, the mode of expansion and the
settings from before the line (`Session.failed_line_changes_nothing`).
-/

namespace SymbolicAlgebra

namespace Kernel

variable {α β : Type} {settings : Settings} {k : Kernel}

theorem lasting_settings (settings : Settings) : Lasting (·.settings = settings) where
  noted _ h := h
  pooled _ h := h
  narrowed h _ _ := h
  met h _ _ := h
  cached _ _ _ h := h

/-- The action leaves the settings as they were where it fails, and a result satisfies `P`. -/
def Spares (settings : Settings) (x : Action α) (k : Kernel) (P : α → Kernel → Prop) : Prop :=
  match x.run.run k with
  | (.ok a, k') => P a k'
  | (.error _, k') => k'.settings = settings

namespace Spares

variable {x : Action α} {f : α → Action β} {P : α → Kernel → Prop} {Q : β → Kernel → Prop}

theorem pure {a : α} (h : P a k) : Spares settings (Pure.pure a) k P := h

theorem throw {e : Fault} (hk : k.settings = settings) :
    Spares settings (MonadExcept.throw e : Action α) k P := hk

theorem bind (hx : Spares settings x k P) (hf : ∀ a k', P a k' → Spares settings (f a) k' Q) :
    Spares settings (x >>= f) k Q := by
  unfold Spares at hx ⊢
  rw [run_bind]
  rcases hr : x.run.run k with ⟨e | a, k'⟩
  · rw [hr] at hx
    exact hx
  · rw [hr] at hx
    exact hf a k' hx

/-- A handler starts from the settings as they were. -/
theorem tryCatch {h : Fault → Action α} (hx : Spares settings x k P)
    (hh : ∀ e k', k'.settings = settings → Spares settings (h e) k' P) :
    Spares settings (MonadExcept.tryCatch x h) k P := by
  unfold Spares at hx ⊢
  rw [run_tryCatch]
  rcases hr : x.run.run k with ⟨e | a, k'⟩
  · rw [hr] at hx
    exact hh e k' hx
  · rw [hr] at hx
    exact hx

theorem of_maintains (hx : Maintains (·.settings = settings) x) (hk : k.settings = settings) :
    Spares settings x k fun _ k' => k'.settings = settings := by
  have h := hx k hk
  unfold Upholds at h
  unfold Spares
  rcases hr : x.run.run k with ⟨e | a, k'⟩
  · rw [hr] at h
    exact h
  · rw [hr] at h
    exact h.1

/-- What does not fail spares everything. -/
theorem of_yields (hx : Yields Never x k P) : Spares settings x k P := by
  unfold Yields at hx
  unfold Spares
  rcases hr : x.run.run k with ⟨e | a, k'⟩
  · rw [hr] at hx
    exact hx.elim
  · rw [hr] at hx
    exact hx

theorem setPrecision (hk : k.settings = settings) (value : Raw) :
    Spares settings (Kernel.setPrecision value) k fun _ _ => True := by
  have h := setsPrecision value k
  unfold Spares
  generalize (Kernel.setPrecision value).run.run k = r at h ⊢
  cases h with
  | refused text => exact hk
  | _ => exact trivial

theorem setUnit (hk : k.settings = settings) (value : Raw) :
    Spares settings (Kernel.setUnit value) k fun _ _ => True := by
  have h := setsUnit value k
  unfold Spares
  generalize (Kernel.setUnit value).run.run k = r at h ⊢
  cases h with
  | refused text => exact hk
  | changed unit => exact trivial

end Spares

-- A line would be run wherever it is met.
attribute [irreducible] Spares

end Kernel

namespace Session

open Kernel

variable {d : Directory} {s s' : Session} {settings : Settings} {k k' : Kernel} {source : String}

/-! ## Answers -/

/-- An answer that tells of a failure goes on with the state and the settings from before. -/
def Unharmed (s : Session) (settings : Settings) (q : Answer) (k : Kernel) : Prop :=
  ∀ text ∈ q.1, text.startsWith "Error" = true → q.2 = s ∧ k.settings = settings

/-- However the action fails, by a fault or by an answer that tells of one, the settings are as they were. -/
abbrev FailsSafely (s : Session) (settings : Settings) (x : Action Answer) (k : Kernel) : Prop :=
  Spares settings x k (Unharmed s settings)

theorem failsSafely_pure (hk : k.settings = settings) (answer : Option String) :
    FailsSafely s settings (return (answer, s)) k := Spares.pure fun _ _ _ => ⟨rfl, hk⟩

theorem failsSafely_say (hk : k.settings = settings) (text : String) :
    FailsSafely s settings (return s.say text) k := failsSafely_pure hk _

theorem failsSafely_silent (s' : Session) : FailsSafely s settings (return (none, s')) k :=
  Spares.pure fun _ h => nomatch h

/-- What is announced otherwise may go on with anything. -/
theorem failsSafely_announce {text : String} (htext : text.toList.head? ≠ some 'E') (s' : Session) :
    FailsSafely s settings (return (some text, s')) k := by
  refine Spares.pure ?_
  rintro _ ⟨⟩ herror
  rw [String.startsWith_string_iff] at herror
  obtain ⟨rest, hrest⟩ := herror
  exact absurd (by rw [← hrest]; rfl) htext

theorem FailsSafely.excuse {a : Action Answer} (ha : FailsSafely s settings a k)
    (caught : Fault → Bool) (lead : String) : FailsSafely s settings (s.excuse caught lead a) k :=
  Spares.tryCatch ha fun f k' hk' => by
    split
    next => exact failsSafely_say hk' _
    next => exact Spares.throw hk'

/-! ## Commands and lines -/

section Lines

variable (hk : k.settings = settings)

include hk

theorem failsSafely_load (argument : String) :
    FailsSafely s settings (s.loadCommand d argument) k := by
  unfold loadCommand
  split
  next => exact failsSafely_say hk _
  next =>
    have hload : Maintains (·.settings = settings) (s.load d (Path.ofText argument)) :=
      ((lasting_settings settings).rulesOfFile d _).bind fun _ => .pure _
    exact FailsSafely.excuse ((Spares.of_maintains hload hk).bind fun _ _ _ =>
      failsSafely_announce (by simp) _) _ _

omit hk in
theorem failsSafely_strict (argument : String) :
    FailsSafely s settings (s.strictCommand argument) k := by
  have hset : ∀ strict k₁, FailsSafely s settings (do
      Kernel.setStrict strict
      return s.say ("Strict validation " ++ if strict then "enabled" else "disabled")) k₁ :=
    fun strict k₁ => Spares.bind (P := fun _ _ => True) (.of_yields trivial) fun _ _ _ =>
      failsSafely_announce (by simp) s
  unfold strictCommand
  simp only
  split
  next => exact hset true k
  next =>
    split
    next => exact hset false k
    next =>
      exact Spares.bind (P := fun _ _ => True) (.of_yields trivial) fun strict k₁ _ => hset (!strict) k₁

theorem failsSafely_precision (argument : String) :
    FailsSafely s settings (s.precisionCommand argument) k := by
  unfold precisionCommand
  split
  next => exact (Spares.of_maintains .getPrecision hk).bind fun _ _ hk₁ => failsSafely_say hk₁ _
  next =>
    refine FailsSafely.excuse ((Spares.of_maintains (.ofExcept _) hk).bind fun value k₁ hk₁ => ?_) _ _
    refine (Spares.setPrecision hk₁ value).bind fun _ k₂ _ => ?_
    exact Spares.bind (P := fun _ _ => True) (.of_yields trivial) fun _ _ _ =>
      failsSafely_announce (by simp) s

theorem failsSafely_angle (argument : String) :
    FailsSafely s settings (s.angleCommand argument) k := by
  unfold angleCommand
  split
  next =>
    exact Spares.bind (P := fun _ k' => k'.settings = settings) (.of_yields hk) fun _ _ hk₁ =>
      failsSafely_say hk₁ _
  next =>
    exact FailsSafely.excuse ((Spares.setUnit hk _).bind fun _ _ _ =>
      failsSafely_announce (by simp) s) _ _

theorem failsSafely_expand (name : String) (mode : ExpansionMode) (argument : String) :
    FailsSafely s settings (s.expandCommand name mode argument) k := by
  unfold expandCommand
  split
  next => exact failsSafely_say hk _
  next =>
    have hJ := lasting_settings settings
    refine FailsSafely.excuse ((Spares.of_maintains (hJ.parse argument true) hk).bind fun o k₁ hk₁ => ?_) _ _
    split
    next => exact Spares.throw hk₁
    next e =>
      exact (Spares.of_maintains (maintains_expandWith hJ mode e) hk₁).bind fun _ _ hk₂ =>
        failsSafely_say hk₂ _

theorem failsSafely_compare (argument : String) :
    FailsSafely s settings (s.compareCommand argument) k := by
  have hJ := lasting_settings settings
  unfold compareCommand
  split
  next => exact FailsSafely.excuse (Spares.throw hk) _ _
  next a b _ =>
    refine (Spares.of_maintains (hJ.box a) hk).bind fun e k₁ hk₁ => ?_
    refine (Spares.of_maintains (hJ.box b) hk₁).bind fun e' k₂ hk₂ => ?_
    refine (Spares.of_maintains (hJ.compare? e e') hk₂).bind fun o k₃ hk₃ => ?_
    split <;> exact failsSafely_say hk₃ _
  next => exact failsSafely_say hk _

theorem failsSafely_command (line : String) : FailsSafely s settings (s.command d line) k := by
  have hcleared : "Cleared all rules".toList.head? ≠ some 'E' := by simp
  unfold command
  split
  next => exact failsSafely_say hk _
  next =>
    simp only
    split
    next => exact failsSafely_say hk _
    next => exact failsSafely_silent _
    next => exact failsSafely_silent _
    next => exact failsSafely_silent _
    next => exact failsSafely_load hk _
    next => exact failsSafely_say hk _
    next => exact failsSafely_announce hcleared _
    next => exact failsSafely_strict _
    next => exact failsSafely_precision hk _
    next => exact failsSafely_angle hk _
    next => exact failsSafely_expand hk _ _ _
    next => exact failsSafely_expand hk _ _ _
    next => exact failsSafely_compare hk _
    next => exact failsSafely_say hk _

theorem failsSafely_rules (text : String) : FailsSafely s settings (s.addRules d text) k := by
  have hread := (lasting_settings settings).rulesOfText d text
  unfold addRules
  refine (Spares.of_maintains hread hk).bind fun found k₁ hk₁ => ?_
  split
  next => exact failsSafely_say hk₁ _
  next => exact failsSafely_announce (by simp) _

theorem failsSafely_expression (text : String) : FailsSafely s settings
    (s.excuse Fault.isInputFault "Error: " do
      return ((← s.evaluate text).filter (· != ""), s)) k :=
  FailsSafely.excuse ((Spares.of_maintains (maintains_evaluate (lasting_settings settings) text) hk).bind
    fun _ _ hk' => failsSafely_pure hk' _) _ _

theorem failsSafely_process : FailsSafely s settings (s.process d source) k :=
  process_cases (motive := fun _ x => FailsSafely s settings x k) (failsSafely_silent s)
    (failsSafely_command hk) (failsSafely_rules hk) (failsSafely_expression hk)

end Lines

/-- **A failed line changes nothing.**  A line that is answered by a message of an error goes on with the
rules, the mode of expansion and the settings of the kernel from before the line. -/
theorem failed_line_changes_nothing {text : String}
    (hrun : (s.process d source).run.run k = (.ok (some text, s'), k'))
    (herror : text.startsWith "Error" = true) : s' = s ∧ k'.settings = k.settings := by
  have h : FailsSafely s k.settings (s.process d source) k := failsSafely_process rfl
  unfold FailsSafely Spares at h
  rw [hrun] at h
  exact h text rfl herror

/-- A file with a rule that includes another one, in which a rule stands before an inclusion that leads back. -/
def nestedFiles : Directory := .ofFiles [("outer.rules", "(Add x 0) => x\n:include inner.rules\n"),
  ("inner.rules", "(Multiply x 1) => x\n:include inner.rules\n")]

theorem run_rulesOfFile_nested : ∃ k, (rulesOfFile nestedFiles (Path.ofText "outer.rules")).run.run standard =
    (.error (.circularInclude "inner.rules"), k) := by
  have hrefused : refused? ((rulesOfFile nestedFiles (Path.ofText "outer.rules")).run.run standard).1 =
      some "inner.rules" := by
    rw [Kernel.standard_eq]
    decide +kernel
  rcases hrun : (rulesOfFile nestedFiles (Path.ofText "outer.rules")).run.run standard with ⟨x, k⟩
  rw [hrun] at hrefused
  obtain rfl := eq_of_refused? hrefused
  exact ⟨k, rfl⟩

theorem process_loadNested :
    s.process d ":load outer.rules" = s.loadCommand d "outer.rules" := by
  have hstrip : Text.strip ":load outer.rules" = ":load outer.rules" := by decide +kernel
  have hlist : ":load outer.rules".toList = ':' :: "load outer.rules".toList := by decide +kernel
  have hword : Text.firstWord "load outer.rules" = some ("load", "outer.rules") := by decide +kernel
  have hlower : Text.lower "load" = "load" := by decide +kernel
  have hargument : Text.strip "outer.rules" = "outer.rules" := by decide +kernel
  simp only [process, command, hstrip, hlist, String.ofList_toList, hword, hlower, hargument]

/-- Two rules are read before an inclusion fails, and neither is kept. -/
theorem failed_line_changes_nothing_nested : ∃ text s' k',
    (({} : Session).process nestedFiles ":load outer.rules").run.run standard = (.ok (some text, s'), k') ∧
      text.startsWith "Error" = true ∧ s' = {} ∧ k'.settings = standard.settings := by
  obtain ⟨k, hread⟩ := run_rulesOfFile_nested
  have hrun : (({} : Session).process nestedFiles ":load outer.rules").run.run standard =
      (.ok (({} : Session).say ("Error loading " ++ "outer.rules" ++ ": " ++
        (Fault.circularInclude "inner.rules").message)), k) := by
    rw [process_loadNested, loadCommand, if_neg (by decide), excuse, run_tryCatch, load, bind_assoc, run_bind,
      hread]
    rfl
  have herror : ("Error loading " ++ "outer.rules" ++ ": " ++
      (Fault.circularInclude "inner.rules").message).startsWith "Error" = true := by
    decide +kernel
  exact ⟨_, _, k, hrun, herror, failed_line_changes_nothing hrun herror⟩

/-- A fault that escapes a line leaves the settings of the kernel as they were, too. -/
theorem escaped_fault_changes_no_setting {f : Fault}
    (hrun : (s.process d source).run.run k = (.error f, k')) : k'.settings = k.settings := by
  have h : FailsSafely s k.settings (s.process d source) k := failsSafely_process rfl
  unfold FailsSafely Spares at h
  rwa [hrun] at h

end Session

end SymbolicAlgebra
