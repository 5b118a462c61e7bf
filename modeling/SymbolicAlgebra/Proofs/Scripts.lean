import SymbolicAlgebra.CommandLine.Console
import SymbolicAlgebra.Proofs.Survival
import SymbolicAlgebra.Proofs.TextCuts
import SymbolicAlgebra.Proofs.Writing

/-!
# Proofs/Scripts — how scripts end

A script is answered line by line, and ends at the first answer that begins like one of a failure
(`Program.run_runLines_of_passes`, `Program.exists_passes`).  The answer to an expression is the text of its
result, and a result is taken for a failure just if it is a symbol whose name begins so
(`Expr.isComplaint_text`): numbers begin with figures, and all else with a parenthesis.  So the exit code of a
script of expressions tells whether they all have results, but for such symbols (`Program.script_ends`).
-/

namespace SymbolicAlgebra

/-! ## Answers that tell of a failure -/

/-- Whether an answer begins like one that tells of a failure. -/
def isComplaint (text : String) : Bool := text.startsWith "Error" || text.startsWith "Unknown"

/-- Whether the text of an expression begins like an answer that tells of a failure. -/
def Expr.isTakenForFailure : Expr → Bool
  | .symbol n _ _ => isComplaint n
  | _ => false

theorem first_of_isComplaint {text : String} (h : isComplaint text = true) :
    ∃ c ∈ text.toList.head?, c = 'E' ∨ c = 'U' := by
  rw [isComplaint, Bool.or_eq_true, String.startsWith_string_iff, String.startsWith_string_iff] at h
  rcases h with ⟨rest, h⟩ | ⟨rest, h⟩ <;> rw [← h]
  · exact ⟨'E', rfl, .inl rfl⟩
  · exact ⟨'U', rfl, .inr rfl⟩

theorem isComplaint_eq_false {text : String} {c : Char} {rest : List Char} (h : text.toList = c :: rest)
    (hE : c ≠ 'E') (hU : c ≠ 'U') : isComplaint text = false := by
  by_contra hcomplaint
  obtain ⟨d, hd, hfirst⟩ := first_of_isComplaint (Bool.not_eq_false _ ▸ hcomplaint)
  rw [h] at hd
  cases hd
  exact hfirst.elim hE hU

theorem isComplaint_empty : isComplaint "" = false := by decide

theorem bne_of_isComplaint {text : String} (h : isComplaint text = true) : (text != "") = true :=
  bne_iff_ne.2 fun heq => Bool.false_ne_true (isComplaint_empty.symm.trans (heq ▸ h))

theorem isComplaint_error (message : String) : isComplaint ("Error: " ++ message) = true := by
  rw [isComplaint, Bool.or_eq_true, String.startsWith_string_iff]
  exact .inl ⟨": ".toList ++ message.toList, by simp⟩

theorem isComplaint_list (rs : List Raw) : isComplaint (Raw.list rs).text = false :=
  isComplaint_eq_false (Raw.text_list rs) (by decide) (by decide)

theorem isComplaint_figures {text : String} (h : Text.IsFigures text.toList) : isComplaint text = false := by
  obtain ⟨c, rest, htext, hc⟩ := h.head
  refine isComplaint_eq_false htext ?_ ?_ <;> rintro rfl <;> revert hc <;> decide

theorem isComplaint_scalar (x : Scalar) : isComplaint (Expr.scalarRaw x).text = false := by
  cases x with
  | exact q =>
      rw [Expr.scalarRaw]
      split
      next => exact isComplaint_figures (Text.isFigures_intText _)
      next => exact isComplaint_list _
  | big d p => exact isComplaint_figures (Decimal.isFigures_decimalText _)
  | machine x => exact isComplaint_figures (Double.isFigures_doubleText x)

/-- **A result is taken for a failure just if it is a symbol with such a name.** -/
theorem Expr.isComplaint_text (e : Expr) : isComplaint e.text = e.isTakenForFailure := by
  cases e with
  | symbol n d c => rfl
  | number v =>
      cases v with
      | real x => exact isComplaint_scalar x
      | complex x y => exact isComplaint_list _
  | application f ops d c => exact isComplaint_list _
  | error code details e =>
      unfold text toRaw
      exact isComplaint_list _

namespace Session

open Kernel Text

variable {d : Directory} {s : Session} {k k' : Kernel} {line text : String}

/-! ## Lines of expressions -/

/-- Whether a line has no answer: a blank line or a comment. -/
def isRemark (line : String) : Bool := (stripChars line.toList).head?.all fun c => c == '#' || c == ';'

/-- A line that is taken for an expression: no remark, no command and no rule. -/
structure IsExpression (line : String) : Prop where
  first : ∃ c rest, stripChars line.toList = c :: rest ∧ c ≠ ':' ∧ c ≠ '#' ∧ c ≠ ';'
  noArrow : Text.contains "=>" line = false

/-- The result of an expression: it is built, the rules are applied, and it is expanded if the dialogue is in a
mode that does. -/
def result (s : Session) (text : String) : Action (Option Expr) := do
  match ← s.rewritten text with
  | none => return none
  | some e => return some (← s.expanded e)

theorem maintains_result (text : String) : Maintains IsStrict (s.result text) := by
  refine (maintains_rewritten lasting_strict text).bind fun o => ?_
  split
  · exact .pure _
  · exact (maintains_expanded lasting_strict _).bind fun _ => .pure _

theorem evaluate_eq_result (text : String) : s.evaluate text = do return (← s.result text).map Expr.text := by
  rw [evaluate_eq, result, bind_assoc]
  congr 1
  funext o
  cases o <;> simp

/-- An expression that cannot be built has no result, for the same fault. -/
theorem run_result_of_parse {f : Fault} (h : (Kernel.parse text true).run.run k = (.error f, k')) :
    (s.result text).run.run k = (.error f, k') := by
  rw [result, run_bind, rewritten, run_bind, h]

/-- What keeps a moderate text from being built in a strict kernel is malformed input. -/
theorem isInputFault_of_parse (hk : IsStrict k) (htext : Sexpr.isModerate text = true) {f : Fault}
    (h : (Kernel.parse text true).run.run k = (.error f, k')) : f.isInputFault = true := by
  have hbuilds := buildsOption_parse (E := (·.isInputFault = true)) (fun _ hf => hf) hk htext
  exact hbuilds.of_fault h

theorem run_process_of_isRemark (h : isRemark line = true) :
    (s.process d line).run.run k = (.ok (none, s), k) := by
  unfold isRemark at h
  rw [process, Text.strip, String.toList_ofList]
  split
  next => rfl
  next => rfl
  next => rfl
  next heq => simp [heq] at h
  next c hnil hhash hsemicolon _ =>
    exfalso
    cases hstrip : stripChars line.toList with
    | nil => exact hnil hstrip
    | cons c rest =>
        simp only [hstrip, List.head?_cons, Option.all_some, Bool.or_eq_true, beq_iff_eq] at h
        rcases h with rfl | rfl
        · exact hhash _ hstrip
        · exact hsemicolon _ hstrip

theorem process_of_isExpression (h : IsExpression line) : s.process d line =
    excuse Fault.isInputFault "Error: " s do
      return (((← s.result (Text.strip line)).map Expr.text).filter (· != ""), s) := by
  obtain ⟨c, rest, hstrip, hcolon, hhash, hsemicolon⟩ := h.first
  have hnoArrow : Text.contains "=>" (Text.strip line) = false :=
    (contains_strip (by simp) not_isBlank_arrow line).trans h.noArrow
  rw [process_of_first hstrip hcolon hhash hsemicolon, hnoArrow, if_neg Bool.false_ne_true, evaluate_eq_result,
    bind_assoc]
  rfl

theorem run_process_of_result (h : IsExpression line) {o : Option Expr}
    (hrun : (s.result (Text.strip line)).run.run k = (.ok o, k')) :
    (s.process d line).run.run k = (.ok ((o.map Expr.text).filter (· != ""), s), k') := by
  rw [process_of_isExpression h, excuse, run_tryCatch, run_bind, hrun]
  rfl

theorem run_process_of_fault (h : IsExpression line) {f : Fault}
    (hrun : (s.result (Text.strip line)).run.run k = (.error f, k')) :
    (s.process d line).run.run k =
      (if f.isInputFault then .ok (some ("Error: " ++ f.message), s) else .error f, k') := by
  rw [process_of_isExpression h, excuse, run_tryCatch, run_bind, hrun]
  simp only
  split <;> rfl

end Session

namespace CommandLine

open Kernel Session

/-! ## What is written -/

/-- A text that is printed. -/
def Output.printed? : Output → Option String
  | .out text => some text
  | .err _ => none

/-- The kernel in which a line is answered: what was noticed before is not noticed again. -/
def listening (k : Kernel) : Kernel := { k with journal := [] }

namespace Console

/-- What was printed, in order. -/
def printed (c : Console) : List String := c.written.reverse.filterMap Output.printed?

/-- The console after an action that left a kernel: what was noticed is written to the error channel. -/
def heard (c : Console) (k : Kernel) : Console :=
  { c with
    kernel := k
    written := (k.journal.filterMap (Program.recordLine? c.verbose)).map (fun l => .err (l ++ "\n")) ++ c.written }

/-- The console after a line that is answered, and the texts that are printed for it. -/
def answered (c : Console) (s : Session) (k : Kernel) (texts : List String) : Console :=
  { c.heard k with
    session := s
    written := (texts.map fun t => .out (t ++ "\n")).reverse ++ (c.heard k).written }

theorem printed_heard (c : Console) (k : Kernel) : (c.heard k).printed = c.printed := by
  have herr : ∀ lines : List String,
      (lines.map fun l => Output.err (l ++ "\n")).reverse.filterMap Output.printed? = [] := fun lines => by
    simp [List.filterMap_eq_nil_iff, Output.printed?]
  simp [printed, heard, herr]

theorem printed_answered (c : Console) (s : Session) (k : Kernel) (texts : List String) :
    (c.answered s k texts).printed = c.printed ++ texts.map (· ++ "\n") := by
  have hout : (texts.map fun t => Output.out (t ++ "\n")).filterMap Output.printed? = texts.map (· ++ "\n") := by
    rw [List.filterMap_map, ← List.filterMap_eq_map]
    rfl
  rw [← printed_heard c k]
  simp only [printed, answered, List.reverse_append, List.reverse_reverse, List.filterMap_append, hout]

theorem printed_complaint (c : Console) (line : String) :
    ({ c with written := .err line :: c.written } : Console).printed = c.printed := by
  simp [printed, Output.printed?]

/-- The console after lines that are answered, and the texts that are printed for them. -/
structure Follows (c : Console) (s : Session) (k : Kernel) (texts : List String) (c' : Console) : Prop where
  session : c'.session = s
  kernel : c'.kernel = k
  directory : c'.directory = c.directory
  printed : c'.printed = c.printed ++ texts.map (· ++ "\n")

theorem follows_answered (c : Console) (s : Session) (k : Kernel) (texts : List String) :
    c.Follows s k texts (c.answered s k texts) := ⟨rfl, rfl, rfl, c.printed_answered s k texts⟩

theorem Follows.trans {c c₁ c₂ : Console} {s s' : Session} {k k' : Kernel} {texts texts' : List String}
    (h : c.Follows s k texts c₁) (h' : c₁.Follows s' k' texts' c₂) : c.Follows s' k' (texts ++ texts') c₂ :=
  ⟨h'.session, h'.kernel, h'.directory.trans h.directory, by
    rw [h'.printed, h.printed, List.map_append, List.append_assoc]⟩

end Console

namespace Program

variable {α β : Type} {c : Console}

/-- A run of two parts of the program in a row, read off the run of the first. -/
theorem run_bind (x : Program α) (f : α → Program β) (c : Console) :
    (x >>= f).run.run c =
      match x.run.run c with
      | (.ok a, c') => (f a).run.run c'
      | (.error e, c') => (.error e, c') := by
  simp only [bind, ExceptT.bind, ExceptT.mk, ExceptT.run, StateT.run, StateT.bind]
  rcases x c with ⟨_ | _, c'⟩ <;> rfl

theorem run_get (c : Console) : (get : Program Console).run.run c = (.ok c, c) := rfl

theorem run_modify (f : Console → Console) (c : Console) : (modify f : Program PUnit).run.run c = (.ok ⟨⟩, f c) := rfl

theorem run_pure (a : α) (c : Console) : (pure a : Program α).run.run c = (.ok a, c) := rfl

theorem run_throw (e : Ending) (c : Console) : (throw e : Program α).run.run c = (.error e, c) := rfl

theorem run_report (rs : List LogRecord) (c : Console) : (report rs).run.run c =
    (.ok (), { c with
      written := (rs.filterMap (recordLine? c.verbose)).map (fun l => .err (l ++ "\n")) ++ c.written }) := by
  induction rs with
  | nil => rfl
  | cons r rest ih =>
      simp only [report, run_bind, ih, run_get, List.filterMap_cons]
      cases recordLine? c.verbose r <;> rfl

theorem run_perform {a : Action α} {o : Except Fault α} {k : Kernel} (h : a.run.run (listening c.kernel) = (o, k)) :
    (perform a).run.run c = (.ok o, c.heard k) := by
  have hrun : (a.run { c.kernel with journal := [] }).run = (o, k) := h
  simp only [perform, run_bind, run_get, hrun, run_modify, run_report, run_pure]
  rfl

theorem run_process {line : String} {answer : Option String} {s : Session} {k : Kernel}
    (h : (c.session.process c.directory line).run.run (listening c.kernel) = (.ok (answer, s), k)) :
    (process line).run.run c = (.ok (given answer), { c.heard k with session := s }) := by
  simp only [process, performOrFail, run_bind, run_get, run_perform h, run_pure, run_modify]

theorem run_process_fault {line : String} {f : Fault} {k : Kernel}
    (h : (c.session.process c.directory line).run.run (listening c.kernel) = (.error f, k)) :
    (process line).run.run c = (.error (.failed f), c.heard k) := by
  simp only [process, performOrFail, run_bind, run_get, run_perform h, run_throw]

/-! ## One line of a script -/

/-- The texts that are printed for the answer to a line. -/
def shown (line : String) (answer : Option String) : List String :=
  if isQuiet line then [] else (given answer).toList

theorem mem_of_given {answer : Option String} {text : String} (h : given answer = some text) : text ∈ answer :=
  Option.eq_some_of_filter_eq_some h

theorem run_print (text : String) (c : Console) :
    (print text).run.run c = (.ok (), { c with written := .out (text ++ "\n") :: c.written }) := rfl

/-- **A line whose answer is no complaint** is left behind. -/
theorem run_runLines_answer {line : String} {answer : Option String} {s : Session} {k : Kernel}
    (h : (c.session.process c.directory line).run.run (listening c.kernel) = (.ok (answer, s), k))
    (hanswer : ∀ text ∈ answer, isComplaint text = false) (path : Path) (number : Nat) (rest : List String) :
    (runLines path number (line :: rest)).run.run c =
      (runLines path (number + 1) rest).run.run (c.answered s k (shown line answer)) := by
  cases hgiven : given answer with
  | none =>
      have hshown : shown line answer = [] := by simp [shown, hgiven]
      simp only [runLines, run_bind, run_process h, hgiven, hshown]
      rfl
  | some text =>
      have hcomplaint : (text.startsWith "Error" || text.startsWith "Unknown") = false :=
        hanswer text (mem_of_given hgiven)
      cases hquiet : isQuiet line with
      | true =>
          have hshown : shown line answer = [] := by simp [shown, hquiet]
          simp only [runLines, run_bind, run_process h, hgiven, hcomplaint, hquiet, hshown, Bool.false_eq_true,
            Bool.not_true, if_false]
          rfl
      | false =>
          have hshown : shown line answer = [text] := by simp [shown, hquiet, hgiven]
          simp only [runLines, run_bind, run_process h, hgiven, hcomplaint, hquiet, hshown, Bool.false_eq_true,
            Bool.not_false, if_false, if_true, run_print]
          rfl

/-- **An answer that is a complaint** is written to the error channel, and ends the script. -/
theorem run_runLines_complaint {line text : String} {s : Session} {k : Kernel}
    (h : (c.session.process c.directory line).run.run (listening c.kernel) = (.ok (some text, s), k))
    (htext : isComplaint text = true) (path : Path) (number : Nat) (rest : List String) :
    (runLines path number (line :: rest)).run.run c = (.error (.exit 1), { c.answered s k [] with
      written := .err (path.text ++ ":" ++ intText number ++ ": " ++ text ++ "\n") ::
        (c.answered s k []).written }) := by
  have hgiven : given (some text) = some text := by
    rw [given, Option.filter_some, bne_of_isComplaint htext, if_pos rfl]
  have hcomplaint : (text.startsWith "Error" || text.startsWith "Unknown") = true := htext
  simp only [runLines, run_bind, run_process h, hgiven, hcomplaint, if_true, run_throw]
  rfl

/-- **A fault ends the script.** -/
theorem run_runLines_fault {line : String} {f : Fault} {k : Kernel}
    (h : (c.session.process c.directory line).run.run (listening c.kernel) = (.error f, k))
    (path : Path) (number : Nat) (rest : List String) :
    (runLines path number (line :: rest)).run.run c = (.error (.failed f), c.heard k) := by
  rw [runLines, run_bind, run_process_fault h]

/-! ## Lines that pass -/

/-- Lines that are answered in a dialogue, none by a complaint, and the texts that are printed for them. -/
inductive Passes (d : Directory) : Session → Kernel → List String → List String → Session → Kernel → Prop
  | nil {s : Session} {k : Kernel} : Passes d s k [] [] s k
  | cons {s s₁ s₂ : Session} {k k₁ k₂ : Kernel} {line : String} {answer : Option String} {rest texts : List String} :
      (s.process d line).run.run (listening k) = (.ok (answer, s₁), k₁) →
      (∀ text ∈ answer, isComplaint text = false) →
      Passes d s₁ k₁ rest texts s₂ k₂ →
      Passes d s k (line :: rest) (shown line answer ++ texts) s₂ k₂

variable {d : Directory} {s s' : Session} {k k' : Kernel} {lines texts : List String}

/-- **Lines that pass are left behind**, and what is printed for them is written. -/
theorem run_runLines_of_passes (h : Passes d s k lines texts s' k') (hs : c.session = s) (hk : c.kernel = k)
    (hd : c.directory = d) (path : Path) (rest : List String) :
    ∃ c', c.Follows s' k' texts c' ∧ ∀ number, (runLines path number (lines ++ rest)).run.run c =
      (runLines path (number + lines.length) rest).run.run c' := by
  induction h generalizing c with
  | nil => exact ⟨c, ⟨hs, hk, rfl, by simp⟩, fun number => rfl⟩
  | @cons _ s₁ _ _ k₁ _ line answer lines texts hrun hanswer _ ih =>
      subst hs hk hd
      have hfirst := c.follows_answered s₁ k₁ (shown line answer)
      obtain ⟨c', hfollows, hrest⟩ := ih hfirst.session hfirst.kernel hfirst.directory
      refine ⟨c', hfirst.trans hfollows, fun number => ?_⟩
      rw [List.cons_append, run_runLines_answer hrun hanswer, hrest, List.length_cons, Nat.add_assoc,
        Nat.add_comm 1]

/-- **Only lines that pass are run to their end.** -/
theorem exists_passes {c' : Console} {path : Path} {number : Nat}
    (h : (runLines path number lines).run.run c = (.ok (), c')) :
    ∃ texts s k, Passes c.directory c.session c.kernel lines texts s k := by
  induction lines generalizing c number with
  | nil => exact ⟨[], _, _, .nil⟩
  | cons line rest ih =>
      rcases hrun : (c.session.process c.directory line).run.run (listening c.kernel) with ⟨f | ⟨answer, s⟩, k⟩
      · rw [run_runLines_fault hrun] at h
        cases h
      · by_cases hanswer : ∀ text ∈ answer, isComplaint text = false
        · rw [run_runLines_answer hrun hanswer] at h
          obtain ⟨texts, s', k', hpasses⟩ := ih h
          exact ⟨_, s', k', .cons hrun hanswer hpasses⟩
        · obtain ⟨text, rfl, hcomplaint⟩ : ∃ text, answer = some text ∧ isComplaint text = true := by
            simpa using hanswer
          rw [run_runLines_complaint hrun hcomplaint] at h
          cases h

/-! ## Scripts of expressions -/

/-- The texts of expressions, as they are printed: an empty one is not. -/
def textsOf (es : List Expr) : List String := (es.map Expr.text).filter (· != "")

/-- Lines that are remarks, or expressions that have results, and these results. -/
inductive Evaluates (s : Session) : Kernel → List String → List Expr → Kernel → Prop
  | nil {k : Kernel} : Evaluates s k [] [] k
  | remark {k k' : Kernel} {line : String} {rest : List String} {es : List Expr} :
      isRemark line = true → Evaluates s (listening k) rest es k' → Evaluates s k (line :: rest) es k'
  | expression {k k₁ k' : Kernel} {line : String} {rest : List String} {o : Option Expr} {es : List Expr} :
      IsExpression line → (s.result (Text.strip line)).run.run (listening k) = (.ok o, k₁) →
      Evaluates s k₁ rest es k' → Evaluates s k (line :: rest) (o.toList ++ es) k'

theorem isQuiet_of_isExpression {line : String} (h : IsExpression line) : isQuiet line = false := by
  obtain ⟨c, rest, hstrip, hcolon, -, -⟩ := h.first
  have hcommand : (Text.strip line).startsWith ":" = false := by
    rw [String.startsWith_string_eq_false_iff, Text.strip, String.toList_ofList, hstrip]
    simpa using Ne.symm hcolon
  simp [isQuiet, hcommand, h.noArrow]

theorem shown_of_isExpression {line : String} (h : IsExpression line) (o : Option Expr) :
    shown line ((o.map Expr.text).filter (· != "")) = textsOf o.toList := by
  rw [shown, isQuiet_of_isExpression h, if_neg Bool.false_ne_true, given, textsOf]
  cases o with
  | none => rfl
  | some e => by_cases he : e.text = "" <;> simp [he]

/-- The answer to an expression is a complaint just if its result is taken for a failure. -/
theorem answer_isComplaint_iff (o : Option Expr) :
    (∀ text ∈ (o.map Expr.text).filter (· != ""), isComplaint text = false) ↔
      ∀ e ∈ o.toList, e.isTakenForFailure = false := by
  cases o with
  | none => simp
  | some e =>
      by_cases he : e.text = ""
      · simp [he, ← e.isComplaint_text, isComplaint_empty]
      · simp [he, ← e.isComplaint_text]

/-- **Expressions pass unless a result is taken for a failure.** -/
theorem Evaluates.passes {es : List Expr} (h : Evaluates s k lines es k')
    (hes : ∀ e ∈ es, e.isTakenForFailure = false) : Passes d s k lines (textsOf es) s k' := by
  induction h with
  | nil => exact .nil
  | @remark _ _ line _ _ hline _ ih =>
      have hshown : shown line none = [] := by simp [shown, given]
      simpa [hshown] using Passes.cons (run_process_of_isRemark hline) (by simp) (ih hes)
  | @expression _ _ _ line _ o es hline hrun _ ih =>
      rw [List.forall_mem_append] at hes
      have htexts : textsOf (o.toList ++ es) = textsOf o.toList ++ textsOf es := by simp [textsOf]
      rw [htexts, ← shown_of_isExpression hline]
      exact .cons (run_process_of_result hline hrun) ((answer_isComplaint_iff o).2 hes.1) (ih hes.2)

theorem Evaluates.isStrict {es : List Expr} (h : Evaluates s k lines es k') (hk : IsStrict k) : IsStrict k' := by
  induction h with
  | nil => exact hk
  | remark _ _ ih => exact ih hk
  | @expression k _ _ _ _ _ _ _ hrun _ ih =>
      have hkept := (maintains_result _ (listening k) hk).yields.of_run hrun
      exact ih hkept.1

/-- **Expressions that pass have results**, none of which is taken for a failure. -/
theorem Passes.evaluates (h : Passes d s k lines texts s' k')
    (hlines : ∀ line ∈ lines, isRemark line = true ∨ IsExpression line) :
    ∃ es, Evaluates s k lines es k' ∧ ∀ e ∈ es, e.isTakenForFailure = false := by
  induction h with
  | nil => exact ⟨[], .nil, by simp⟩
  | @cons s _ _ k _ _ line answer _ _ hprocess hanswer _ ih =>
      rw [List.forall_mem_cons] at hlines
      obtain ⟨es, hevaluates, hes⟩ := ih hlines.2
      rcases hlines.1 with hline | hline
      · rw [run_process_of_isRemark hline] at hprocess
        cases hprocess
        exact ⟨es, .remark hline hevaluates, hes⟩
      · rcases hrun : (s.result (Text.strip line)).run.run (listening k) with ⟨f | o, k₁⟩
        · rw [run_process_of_fault hline hrun] at hprocess
          split at hprocess
          next =>
            cases hprocess
            exact absurd (isComplaint_error f.message) (by rw [hanswer _ rfl]; exact Bool.false_ne_true)
          next => cases hprocess
        · rw [run_process_of_result hline hrun] at hprocess
          cases hprocess
          exact ⟨o.toList ++ es, .expression hline hrun hevaluates,
            List.forall_mem_append.2 ⟨(answer_isComplaint_iff o).1 hanswer, hes⟩⟩

/-! ## How scripts end -/

/-- The run of a script ends so, and the texts are printed. -/
def Ends (path : Path) (c : Console) (r : Except Ending Unit) (texts : List String) : Prop :=
  ∃ c', (runScript path).run.run c = (r, c') ∧ c'.printed = c.printed ++ texts.map (· ++ "\n")

/-- The texts are printed, then the script ends with exit code 1 and a message about a line. -/
def Complains (path : Path) (c : Console) (texts : List String) (number : Nat) (message : String) : Prop :=
  ∃ c', (runScript path).run.run c = (.error (.exit 1), c') ∧ c'.printed = c.printed ++ texts.map (· ++ "\n") ∧
    c'.written.head? = some (.err (path.text ++ ":" ++ intText number ++ ": " ++ message ++ "\n"))

section

variable {path : Path} {text : String} (hread : c.directory.read path = .ok text)

include hread

theorem run_runScript : (runScript path).run.run c = (runLines path 1 (Text.lines text)).run.run c := by
  simp only [runScript, run_bind, run_get, hread]

theorem ends_of_passes (h : Passes c.directory c.session c.kernel (Text.lines text) texts s k) :
    Ends path c (.ok ()) texts := by
  obtain ⟨c', hfollows, hrun⟩ := run_runLines_of_passes h rfl rfl rfl path []
  refine ⟨c', ?_, hfollows.printed⟩
  rw [run_runScript hread, ← List.append_nil (Text.lines text), hrun]
  rfl

section

variable {before after : List String} {line : String} (hlines : Text.lines text = before ++ line :: after)
  (h : Passes c.directory c.session c.kernel before texts s k)

include hlines h

/-- A script comes to the line behind lines that pass. -/
theorem exists_run_at : ∃ c', c.Follows s k texts c' ∧
    (runScript path).run.run c = (runLines path (before.length + 1) (line :: after)).run.run c' := by
  obtain ⟨c', hfollows, hrun⟩ := run_runLines_of_passes h rfl rfl rfl path (line :: after)
  exact ⟨c', hfollows, by rw [run_runScript hread, hlines, hrun, Nat.add_comm]⟩

theorem complains_of_answer {message : String}
    (hrun : (s.process c.directory line).run.run (listening k) = (.ok (some message, s'), k'))
    (hmessage : isComplaint message = true) : Complains path c texts (before.length + 1) message := by
  obtain ⟨c', ⟨rfl, rfl, hdirectory, hprinted⟩, hscript⟩ := exists_run_at hread hlines h
  rw [← hdirectory] at hrun
  refine ⟨_, hscript.trans (run_runLines_complaint hrun hmessage path _ after), ?_, rfl⟩
  rw [Console.printed_complaint, Console.printed_answered, hprinted, List.map_nil, List.append_nil]

/-- An expression that cannot be built, for malformed input, is complained of. -/
theorem complains_of_parse (hline : IsExpression line) {f : Fault}
    (hparse : (Kernel.parse (Text.strip line) true).run.run (listening k) = (.error f, k'))
    (hf : f.isInputFault = true) : Complains path c texts (before.length + 1) ("Error: " ++ f.message) := by
  have hprocess := run_process_of_fault (d := c.directory) hline (run_result_of_parse (s := s) hparse)
  rw [hf, if_pos rfl] at hprocess
  exact complains_of_answer hread hlines h hprocess (isComplaint_error f.message)

theorem ends_of_fault {f : Fault}
    (hrun : (s.process c.directory line).run.run (listening k) = (.error f, k')) :
    Ends path c (.error (.failed f)) texts := by
  obtain ⟨c', ⟨rfl, rfl, hdirectory, hprinted⟩, hscript⟩ := exists_run_at hread hlines h
  rw [← hdirectory] at hrun
  exact ⟨_, hscript.trans (run_runLines_fault hrun path _ after), (c'.printed_heard k').trans hprinted⟩

end

/-- **How scripts end.**  A script of expressions ends with exit code 0 if all have results, which are printed in
order, and only then; but a result that is taken for a failure ends it with exit code 1, and is not printed.  In a
strict kernel, for numbers of moderate size, it ends with exit code 1 at the first expression that cannot be built.
Behind any lines that pass, an expression that cannot be built ends it with exit code 1 if the fault is one of
malformed input, and by the fault else. -/
theorem script_ends :
    (∀ es k, Evaluates c.session c.kernel (Text.lines text) es k → (∀ e ∈ es, e.isTakenForFailure = false) →
      Ends path c (.ok ()) (textsOf es)) ∧
    ((∀ line ∈ Text.lines text, isRemark line = true ∨ IsExpression line) → ∀ texts, Ends path c (.ok ()) texts →
      ∃ es k, Evaluates c.session c.kernel (Text.lines text) es k ∧ ∀ e ∈ es, e.isTakenForFailure = false) ∧
    (IsStrict c.kernel → ∀ before line after es k f k', Text.lines text = before ++ line :: after →
      Evaluates c.session c.kernel before es k → (∀ e ∈ es, e.isTakenForFailure = false) → IsExpression line →
      Sexpr.isModerate (Text.strip line) = true →
      (Kernel.parse (Text.strip line) true).run.run (listening k) = (.error f, k') →
        Complains path c (textsOf es) (before.length + 1) ("Error: " ++ f.message)) ∧
    ∀ before line after texts s k, Text.lines text = before ++ line :: after →
      Passes c.directory c.session c.kernel before texts s k → IsExpression line →
        (∀ e k', (s.result (Text.strip line)).run.run (listening k) = (.ok (some e), k') →
          e.isTakenForFailure = true → Complains path c texts (before.length + 1) e.text) ∧
        ∀ f k', (Kernel.parse (Text.strip line) true).run.run (listening k) = (.error f, k') →
          (f.isInputFault = true → Complains path c texts (before.length + 1) ("Error: " ++ f.message)) ∧
          (f.isInputFault = false → Ends path c (.error (.failed f)) texts) := by
  refine ⟨fun es k h hes => ends_of_passes hread (h.passes hes), fun hlines texts ⟨c', hrun, _⟩ => ?_, ?_, ?_⟩
  · rw [run_runScript hread] at hrun
    obtain ⟨texts, s, k, hpasses⟩ := exists_passes hrun
    obtain ⟨es, hevaluates⟩ := hpasses.evaluates hlines
    exact ⟨es, k, hevaluates⟩
  · intro hstrict before line after es k f k' hlines hevaluates hes hline htext hparse
    have hk : IsStrict (listening k) := hevaluates.isStrict hstrict
    have hf := isInputFault_of_parse hk htext hparse
    exact complains_of_parse hread hlines (hevaluates.passes hes) hline hparse hf
  · intro before line after texts s k hlines hpasses hline
    refine ⟨fun e k' hrun he => ?_, fun f k' hparse => ⟨complains_of_parse hread hlines hpasses hline hparse, ?_⟩⟩
    · have hcomplaint : isComplaint e.text = true := e.isComplaint_text.trans he
      have hprocess := run_process_of_result (d := c.directory) hline hrun
      rw [Option.map_some, Option.filter_some, if_pos (bne_of_isComplaint hcomplaint)] at hprocess
      exact complains_of_answer hread hlines hpasses hprocess hcomplaint
    · intro hf
      have hprocess := run_process_of_fault (d := c.directory) hline (run_result_of_parse (s := s) hparse)
      rw [hf, if_neg Bool.false_ne_true] at hprocess
      exact ends_of_fault hread hlines hpasses hprocess

end

/-- A script that lies in the working directory, to be run over the standard definitions. -/
def standing (script : String) : Console :=
  { kernel := standard, directory := Directory.ofFiles [("s.sk", script)] }

-- Only the fields are taken: the standard definitions are not to be evaluated.
theorem kernel_standing (script : String) : (standing script).kernel = standard := by dsimp only [standing]

theorem session_standing (script : String) : (standing script).session = {} := by dsimp only [standing]

theorem directory_standing (script : String) :
    (standing script).directory = Directory.ofFiles [("s.sk", script)] := by dsimp only [standing]

/-- A script whose second expression is not closed. -/
theorem script_ends_unclosed :
    Complains ⟨"", ["s.sk"]⟩ (standing "# sums\n(Add 1 2)\n(Add x\n(Add 3 4)\n") ["(Add 1 2)"] 3
      "Error: Unbalanced parentheses: missing ')'" := by
  have hread : (standing "# sums\n(Add 1 2)\n(Add x\n(Add 3 4)\n").directory.read ⟨"", ["s.sk"]⟩ =
      .ok "# sums\n(Add 1 2)\n(Add x\n(Add 3 4)\n" := by
    rw [directory_standing]
    cbv
  have hlines : Text.lines "# sums\n(Add 1 2)\n(Add x\n(Add 3 4)\n" =
      ["# sums", "(Add 1 2)"] ++ "(Add x" :: ["(Add 3 4)"] := by decide
  have hsum : IsExpression "(Add 1 2)" := ⟨⟨'(', "Add 1 2)".toList, by decide⟩, by decide⟩
  have hunclosed : IsExpression "(Add x" := ⟨⟨'(', "Add x".toList, by decide⟩, by decide⟩
  obtain ⟨o, k, hrun, ho⟩ := run_of_any (x := ({} : Session).result (Text.strip "(Add 1 2)"))
    (k := listening (listening standard)) (p := fun o => o.any fun e => e.text == "(Add 1 2)" && !e.isTakenForFailure)
    (by rw [Kernel.standard_eq]; decide +kernel)
  obtain ⟨e, rfl, he⟩ := (Option.any_eq_true _ _).1 ho
  simp only [Bool.and_eq_true, beq_iff_eq, Bool.not_eq_true'] at he
  have hevaluates : Evaluates {} standard ["# sums", "(Add 1 2)"] ((some e).toList ++ []) k :=
    .remark (by decide) (.expression hsum hrun .nil)
  rw [← session_standing "# sums\n(Add 1 2)\n(Add x\n(Add 3 4)\n",
    ← kernel_standing "# sums\n(Add 1 2)\n(Add x\n(Add 3 4)\n"] at hevaluates
  have hparse : Sexpr.parse (Text.strip "(Add x") = .error .missingClose := by
    rw [show Text.strip "(Add x" = "(Add x" by decide]
    cbv
  have hfault : (Kernel.parse (Text.strip "(Add x") true).run.run (listening k) =
      (.error .missingClose, listening k) := by
    rw [Kernel.parse, hparse]
    rfl
  have hstrict : IsStrict (standing "# sums\n(Add 1 2)\n(Add x\n(Add 3 4)\n").kernel := by
    rw [kernel_standing]
    exact standard_isStrict
  have hends := (script_ends hread).2.2.1 hstrict _ _ _ _ _ _ _ hlines hevaluates (List.forall_mem_singleton.2 he.2)
    hunclosed (by decide) hfault
  have htexts : textsOf [e] = ["(Add 1 2)"] := by simp [textsOf, he.1]
  rw [← htexts]
  exact hends

/-- **A symbol is taken for a failure** if its name begins like the message of one: its line has a result, which is
not printed, and the exit code is 1. -/
theorem symbol_is_taken_for_failure :
    (∃ e k, Evaluates {} standard (Text.lines "Error\n") [e] k ∧ e.text = "Error") ∧
      Complains ⟨"", ["s.sk"]⟩ (standing "Error\n") [] 1 "Error" := by
  have hread : (standing "Error\n").directory.read ⟨"", ["s.sk"]⟩ = .ok "Error\n" := by
    rw [directory_standing]
    cbv
  have hlines : Text.lines "Error\n" = [] ++ "Error" :: [] := by decide
  have hline : IsExpression "Error" := ⟨⟨'E', "rror".toList, by decide⟩, by decide⟩
  obtain ⟨o, k, hrun, ho⟩ := run_of_any (x := ({} : Session).result (Text.strip "Error")) (k := listening standard)
    (p := fun o => o.any fun e => e.text == "Error") (by rw [Kernel.standard_eq]; decide +kernel)
  obtain ⟨e, rfl, he⟩ := (Option.any_eq_true _ _).1 ho
  have he : e.text = "Error" := eq_of_beq he
  have hevaluates : Evaluates {} standard ["Error"] ((some e).toList ++ []) k := .expression hline hrun .nil
  constructor
  · rw [hlines]
    exact ⟨e, k, hevaluates, he⟩
  · have hprocess := run_process_of_result (d := (standing "Error\n").directory) hline hrun
    rw [Option.map_some, he, ← session_standing "Error\n", ← kernel_standing "Error\n"] at hprocess
    exact complains_of_answer hread hlines .nil hprocess (by decide +kernel)

end Program

end CommandLine

end SymbolicAlgebra
