import SymbolicAlgebra.Proofs.InclusionChains
import SymbolicAlgebra.Proofs.Loading
import SymbolicAlgebra.Proofs.Standard

/-!
# Proofs/InclusionOnce — each file is included once

Reading a file of rules comes to reading the lines of rules that are there when each line that includes is
replaced by the lines of the file it includes (`Kernel.Splices`), as long as chains of inclusions lead to each
place once.  Otherwise the lines in front of the inclusion that comes to a place for the second time are read,
and the inclusion is refused as circular (`Kernel.Stops`).
-/

namespace SymbolicAlgebra.Kernel

open Directory

/-! ## Lines of rules -/

/-- The rules on numbered lines. -/
def compileLines (lines : List (Nat × String)) : Action (List Rule) := do
  return (← lines.mapM fun q => ruleOfLine q.1 q.2).flatten

theorem compileLines_cons (q : Nat × String) (lines : List (Nat × String)) :
    compileLines (q :: lines) = do
      let found ← ruleOfLine q.1 q.2
      return found ++ (← compileLines lines) := by
  simp [compileLines]

theorem compileLines_append (lines lines' : List (Nat × String)) :
    compileLines (lines ++ lines') = do
      let found ← compileLines lines
      return found ++ (← compileLines lines') := by
  simp [compileLines]

/-- The lines of rules among lines, with those of the files that are included in place of the lines that include
them.  Each line goes with its number in its file. -/
inductive Splices (d : Directory) : Path → Nat → List String → List (Nat × String) → Prop
  | nil {base number} : Splices d base number [] []
  | rule {base number line rest out} : inclusion? base line = none →
      Splices d base (number + 1) rest out → Splices d base number (line :: rest) ((number, line) :: out)
  | inclusion {base number line rest path lines inner out} : inclusion? base line = some path →
      d.linesOf? path = some lines → Splices d path.parent 1 lines inner →
      Splices d base (number + 1) rest out → Splices d base number (line :: rest) (inner ++ out)

/-- The lines of rules in front of one of the lines that include, with those of the files that are included in
front of it. -/
inductive Stops (d : Directory) : Path → Nat → List String → List (Nat × String) → Prop
  | here {base number line rest path} : inclusion? base line = some path →
      Stops d base number (line :: rest) []
  | rule {base number line rest before} : inclusion? base line = none →
      Stops d base (number + 1) rest before → Stops d base number (line :: rest) ((number, line) :: before)
  | inside {base number line rest path lines before} : inclusion? base line = some path →
      d.linesOf? path = some lines → Stops d path.parent 1 lines before →
      Stops d base number (line :: rest) before
  | behind {base number line rest path lines inner before} : inclusion? base line = some path →
      d.linesOf? path = some lines → Splices d path.parent 1 lines inner →
      Stops d base (number + 1) rest before → Stops d base number (line :: rest) (inner ++ before)

/-! ## Reading with inclusions -/

variable {d : Directory} {base path start : Path} {number depth : Nat} {line : String}
  {lines rest : List String} {seen : List Path}

/-- What reading with inclusions comes to.  Either the chains lead to each place once, all lines are read and the
places are noted, or they do not, and an inclusion is refused behind some of the lines. -/
inductive Outcome (d : Directory) (depth : Nat) (chains : List Nat → Option Path)
    (whole part : List (Nat × String) → Prop) (seen : List Path) (x : Action (List Rule × List Path)) : Prop
  | read {lines seen'} (once : Once chains seen) (whole : whole lines)
      (places : ∀ r, r ∈ seen' ↔ r ∈ seen ∨ Reached chains r) (room : Room d depth seen')
      (run : x = do return (← compileLines lines, seen'))
  | stopped {before} (shown : String) (twice : ¬Once chains seen) (part : part before)
      (run : x = do
        let _ ← compileLines before
        throw (.circularInclude shown))

/-- What reading lines comes to. -/
abbrev LinesOutcome (d : Directory) (depth : Nat) (base : Path) (number : Nat) (lines : List String)
    (seen : List Path) (x : Action (List Rule × List Path)) : Prop :=
  Outcome d depth (d.viaLines base lines) (Splices d base number lines) (Stops d base number lines) seen x

section Lines

variable {load : Path → List Path → Action (List Rule × List Path)}

/-- A line of rules is read, then the others. -/
theorem rulesOfLines_rule (h : inclusion? base line = none) :
    rulesOfLines d (some base) load number seen (line :: rest) = do
      let found ← ruleOfLine number line
      let others ← rulesOfLines d (some base) load (number + 1) seen rest
      return (found ++ others.1, others.2) := by
  have hnone : includedPath? line = none := Option.map_eq_none_iff.1 h
  conv_lhs => rw [rulesOfLines]
  simp [hnone]

/-- A file is included if it was not included before, then the other lines are read. -/
theorem rulesOfLines_inclusion (h : inclusion? base line = some path) :
    rulesOfLines d (some base) load number seen (line :: rest) =
      if seen.contains path.resolve then throw (.circularInclude path.text)
      else if !d.holds path then throw (.includeNotFound path.text)
      else do
        let found ← load path (path.resolve :: seen)
        let others ← rulesOfLines d (some base) load (number + 1) found.2 rest
        return (found.1 ++ others.1, others.2) := by
  obtain ⟨written, hwritten, rfl⟩ := Option.map_eq_some_iff.1 h
  conv_lhs => rw [rulesOfLines]
  simp only [hwritten, Option.map_some, Option.getD_some]
  split
  · rfl
  · split
    · rfl
    · rfl

/-- What follows a line of rules is read as before. -/
theorem Outcome.rule {x : Action (List Rule × List Path)} (h : inclusion? base line = none)
    (hrest : LinesOutcome d depth base (number + 1) rest seen x) :
    LinesOutcome d depth base number (line :: rest) seen do
      let found ← ruleOfLine number line
      let others ← x
      return (found ++ others.1, others.2) := by
  cases hrest with
  | read once whole places room run =>
      refine .read ((once_rule h).2 once) (.rule h whole) (fun r => ?_) room ?_
      · rw [places, Directory.reached_cons, viaLine_of_none h, or_iff_right reached_none]
      · rw [run, compileLines_cons]
        simp
  | stopped shown twice part run =>
      refine .stopped shown (fun honce => twice ((once_rule h).1 honce)) (.rule h part) ?_
      rw [run, compileLines_cons]
      simp

/-- What follows an inclusion is read with the places noted that the included file leads to. -/
theorem Outcome.inclusion {x : Action (List Rule × List Path)} {y : List Path → Action (List Rule × List Path)}
    (h : inclusion? base line = some path) (hlines : d.linesOf? path = some lines)
    (hnew : path.resolve ∉ seen)
    (hfile : LinesOutcome d depth path.parent 1 lines (path.resolve :: seen) x)
    (hrest : ∀ seen', Room d depth seen' → LinesOutcome d depth base (number + 1) rest seen' (y seen')) :
    LinesOutcome d depth base number (line :: rest) seen do
      let found ← x
      let others ← y found.2
      return (found.1 ++ others.1, others.2) := by
  have hline : d.viaLine base line = d.via path := viaLine_of_some h
  -- the inclusion is refused in the file, behind it, or not at all
  cases hfile with
  | stopped shown twice part run =>
      refine .stopped shown (fun honce => twice ?_) (.inside h hlines part) ?_
      · exact ((once_via hlines).1 (hline ▸ honce.first)).2
      · rw [run]
        simp
  | @read inner seen₁ once whole places room run =>
      have honce : Once (d.viaLine base line) seen := hline ▸ (once_via hlines).2 ⟨hnew, once⟩
      have hseen : ∀ r, r ∈ seen₁ ↔ r ∈ seen ∨ Reached (d.viaLine base line) r := fun r => by
        rw [places, List.mem_cons, hline, reached_via hlines]
        tauto
      cases hrest seen₁ room with
      | stopped shown twice part run' =>
          refine .stopped shown (fun h => twice ((once_cons hseen).1 h).2) (.behind h hlines whole part) ?_
          rw [run, compileLines_append]
          simp [run']
      | read once' whole' places' room' run' =>
          refine .read ((once_cons hseen).2 ⟨honce, once'⟩) (.inclusion h hlines whole whole') (fun r => ?_) room' ?_
          · rw [places', hseen, Directory.reached_cons, or_assoc]
          · rw [run, compileLines_append]
            simp [run']

/-- An inclusion of a place that was included before is refused. -/
theorem Outcome.again (h : inclusion? base line = some path) (hseen : path.resolve ∈ seen) :
    LinesOutcome d depth base number (line :: rest) seen (throw (.circularInclude path.text)) := by
  refine .stopped path.text (fun honce => ?_) (.here h) rfl
  refine honce.first.unseen [] ?_ hseen
  rw [viaLine_of_some h, via_nil]

/-- **Lines are read one after the other**, as far as no place is included again. -/
theorem outcome_rulesOfLines
    (hload : ∀ path lines seen, d.IsComplete path → d.linesOf? path = some lines → path.resolve ∉ seen →
      Room d depth seen → LinesOutcome d depth path.parent 1 lines (path.resolve :: seen)
        (load path (path.resolve :: seen)))
    (hcomplete : ∀ line ∈ lines, ∀ path, inclusion? base line = some path → d.IsComplete path)
    (hroom : Room d depth seen) (number : Nat) :
    LinesOutcome d depth base number lines seen (rulesOfLines d (some base) load number seen lines) := by
  induction lines generalizing seen number with
  | nil => exact .read once_nil .nil (fun r => by simp [Reached, viaLines_nil]) hroom rfl
  | cons line rest ih =>
      rw [List.forall_mem_cons] at hcomplete
      cases hpath : inclusion? base line with
      | none =>
          rw [rulesOfLines_rule hpath]
          exact .rule hpath (ih hcomplete.2 hroom (number + 1))
      | some path =>
          rw [rulesOfLines_inclusion hpath]
          by_cases hseen : path.resolve ∈ seen
          · rw [if_pos (List.contains_iff_mem.2 hseen)]
            exact .again hpath hseen
          · have hfile := hcomplete.1 path hpath
            obtain ⟨lines, hlines⟩ := Option.isSome_iff_exists.1 (hfile [] path rfl)
            rw [if_neg (by simpa using hseen), if_neg (by simp [holds_of_linesOf? hlines])]
            exact .inclusion hpath hlines hseen (hload path lines seen hfile hlines hseen hroom) fun seen' hroom' =>
              ih hcomplete.2 hroom' (number + 1)

end Lines

/-! ## Files -/

theorem Outcome.succ {chains : List Nat → Option Path} {whole part : List (Nat × String) → Prop}
    {x : Action (List Rule × List Path)} (h : Outcome d depth chains whole part seen x) :
    Outcome d (depth + 1) chains whole part seen x := by
  cases h with
  | read once whole places room run => exact .read once whole places room.succ run
  | stopped shown twice part run => exact .stopped shown twice part run

/-- A file of rules is read by its lines. -/
theorem rulesOfFileWithin_of_linesOf? (h : d.linesOf? path = some lines) :
    rulesOfFileWithin d (depth + 1) path seen =
      rulesOfLines d (some path.parent) (rulesOfFileWithin d depth) 1 seen lines := by
  obtain ⟨text, hread, hjson, rfl⟩ := exists_read_of_linesOf? h
  rw [rulesOfFileWithin, hread, hjson]
  rfl

/-- **A file is read with all that it includes**, as far as no place is included again. -/
theorem outcome_rulesOfFileWithin (hpath : d.IsComplete path) (hlines : d.linesOf? path = some lines)
    (hroom : Room d depth seen) :
    LinesOutcome d depth path.parent 1 lines seen (rulesOfFileWithin d (depth + 1) path seen) := by
  -- each inclusion uses up a place and a step of the depth, so the depth does not run out first
  induction depth generalizing path lines seen with
  | zero => exact absurd hroom.pos (Nat.lt_irrefl 0)
  | succ depth ih =>
      rw [rulesOfFileWithin_of_linesOf? hlines]
      refine outcome_rulesOfLines (fun q inner seen hq hinner hnew hroom => ?_) (hpath.inclusion hlines) hroom 1
      obtain ⟨text, hread, -⟩ := exists_read_of_linesOf? hinner
      exact (ih hq hinner (hroom.cons (d.mem_places_of_read hread) hnew)).succ

/-- The lines of rules of a file, with those of the files it includes in place. -/
def SplicesFile (d : Directory) (start : Path) (out : List (Nat × String)) : Prop :=
  ∃ lines, d.linesOf? start = some lines ∧ Splices d start.parent 1 lines out

/-- The lines of rules of a file in front of one of the inclusions. -/
def StopsFile (d : Directory) (start : Path) (before : List (Nat × String)) : Prop :=
  ∃ lines, d.linesOf? start = some lines ∧ Stops d start.parent 1 lines before

/-- Reading a file comes to reading all its lines, or to refusing an inclusion behind some of them. -/
theorem rulesOfFile_cases (hd : d.IsConsistent) (hstart : d.IsComplete start) :
    (¬d.Cyclic start ∧ ¬d.Shares start ∧
      ∃ lines, SplicesFile d start lines ∧ rulesOfFile d start = compileLines lines) ∨
    ((d.Cyclic start ∨ d.Shares start) ∧ ∃ before shown, StopsFile d start before ∧ rulesOfFile d start = do
      let _ ← compileLines before
      throw (.circularInclude shown)) := by
  obtain ⟨lines, hlines⟩ := Option.isSome_iff_exists.1 (hstart [] start rfl)
  have honce := once_iff hd hstart hlines
  have hroom : Room d (d.size + 1) [] := ⟨.nil, by simp⟩
  have hrun : rulesOfFile d start = (Prod.fst <$> rulesOfFileWithin d (d.size + 1 + 1) start []) := rfl
  cases outcome_rulesOfFileWithin hstart hlines hroom with
  | read once whole places room run =>
      refine .inl ⟨(honce.1 once).1, (honce.1 once).2, _, ⟨lines, hlines, whole⟩, ?_⟩
      rw [hrun, run]
      simp
  | stopped shown twice part run =>
      refine .inr ⟨?_, _, shown, ⟨lines, hlines, part⟩, ?_⟩
      · rw [honce, not_and_or, not_not, not_not] at twice
        exact twice
      · rw [hrun, run]
        simp

/-! ## Faults of lines -/

/-- A line fails for faults only that are not of the input. -/
theorem yields_ruleOfLine (number : Nat) (line : String) (k : Kernel) :
    Yields (·.isInputFault = false) (ruleOfLine number line) k fun _ _ => True := by
  have hany : ∀ x : Action (List Rule), Upholds (fun _ => True) x k fun _ _ => True := fun x => by
    unfold Upholds
    split <;> simp
  refine (anyhow _).tryCatch (hany _) fun f k' _ _ => ?_
  split
  next => exact Yields.bind (P := fun _ _ => True) trivial fun _ _ _ => Yields.pure trivial
  next hf => exact Yields.throw (by simpa using hf)

/-- Lines fail for faults only that are not of the input. -/
theorem yields_compileLines (lines : List (Nat × String)) (k : Kernel) :
    Yields (·.isInputFault = false) (compileLines lines) k fun _ _ => True :=
  (Yields.mapM (I := fun _ => True) (Q := fun _ _ => True) trivial fun q _ k _ =>
    (yields_ruleOfLine q.1 q.2 k).mono fun _ _ _ => ⟨trivial, trivial⟩).bind fun _ _ _ => Yields.pure trivial

/-- Lines of moderate rules do not fail in a strict kernel. -/
theorem yields_compileLines_moderate {lines : List (Nat × String)} {k : Kernel} (hk : IsStrict k)
    (hlines : ∀ q ∈ lines, RuleLine.isModerateText q.2 = true) :
    Yields Never (compileLines lines) k fun _ _ => True :=
  (Yields.mapM (I := IsStrict) (Q := fun _ _ => True) hk fun q hq k hk =>
    (reads_ruleOfLine (hlines q hq) q.1 k hk).mono fun _ _ h => ⟨h.1, trivial⟩).bind
      fun _ _ _ => Yields.pure trivial

section Moderate

variable (hd : d.IsModerate)

include hd

theorem isModerateText_of_linesOf? (h : d.linesOf? path = some lines) :
    ∀ line ∈ lines, RuleLine.isModerateText line = true := by
  obtain ⟨text, hread, hjson, rfl⟩ := exists_read_of_linesOf? h
  have htext := hd path text hread
  rw [hjson, RuleSpec.isModerateText, if_neg Bool.false_ne_true] at htext
  exact List.all_eq_true.1 htext

theorem Splices.isModerate {out : List (Nat × String)} (h : Splices d base number lines out)
    (hlines : ∀ line ∈ lines, RuleLine.isModerateText line = true) :
    ∀ q ∈ out, RuleLine.isModerateText q.2 = true := by
  induction h with
  | nil => simp
  | rule _ _ ih =>
      rw [List.forall_mem_cons] at hlines ⊢
      exact ⟨hlines.1, ih hlines.2⟩
  | inclusion _ hinner _ _ ih₁ ih₂ =>
      rw [List.forall_mem_cons] at hlines
      exact List.forall_mem_append.2 ⟨ih₁ (isModerateText_of_linesOf? hd hinner), ih₂ hlines.2⟩

theorem Stops.isModerate {before : List (Nat × String)} (h : Stops d base number lines before)
    (hlines : ∀ line ∈ lines, RuleLine.isModerateText line = true) :
    ∀ q ∈ before, RuleLine.isModerateText q.2 = true := by
  induction h with
  | here => simp
  | rule _ _ ih =>
      rw [List.forall_mem_cons] at hlines ⊢
      exact ⟨hlines.1, ih hlines.2⟩
  | inside _ hinner _ ih => exact ih (isModerateText_of_linesOf? hd hinner)
  | behind _ hinner hwhole _ ih =>
      rw [List.forall_mem_cons] at hlines
      exact List.forall_mem_append.2
        ⟨hwhole.isModerate hd (isModerateText_of_linesOf? hd hinner), ih hlines.2⟩

end Moderate

/-! ## Circular inclusions -/

/-- **Inclusions are refused as circular** if they are cyclic or share a file, and only then; what stands in front
of the refused inclusion is read.  Otherwise the rules of a file are those of its lines, with the lines of each
included file in place.  In a strict kernel, for files of moderate numbers, the refusal and the rules are what
reading the file gives. -/
theorem rulesOfFile_inclusions (hd : d.IsConsistent) (hstart : d.IsComplete start) :
    (d.Cyclic start ∨ d.Shares start → ∃ before shown, StopsFile d start before ∧ rulesOfFile d start = do
      let _ ← compileLines before
      throw (.circularInclude shown)) ∧
    (¬d.Cyclic start → ¬d.Shares start →
      ∃ lines, SplicesFile d start lines ∧ rulesOfFile d start = compileLines lines) ∧
    (∀ k k' shown, (rulesOfFile d start).run.run k = (.error (.circularInclude shown), k') →
      d.Cyclic start ∨ d.Shares start) ∧
    (d.IsModerate → ∀ k, IsStrict k →
      (d.Cyclic start ∨ d.Shares start →
        ∃ shown k', (rulesOfFile d start).run.run k = (.error (.circularInclude shown), k')) ∧
      (¬d.Cyclic start → ¬d.Shares start → ∃ rules k', (rulesOfFile d start).run.run k = (.ok rules, k'))) := by
  rcases rulesOfFile_cases hd hstart with
    ⟨hcyclic, hshares, lines, hlines, hrun⟩ | ⟨htwice, before, shown, hbefore, hrun⟩
  · have hnot : ¬(d.Cyclic start ∨ d.Shares start) := not_or.2 ⟨hcyclic, hshares⟩
    refine ⟨fun h => absurd h hnot, fun _ _ => ⟨lines, hlines, hrun⟩, fun k k' shown hfault => ?_,
      fun hmoderate k hk => ⟨fun h => absurd h hnot, fun _ _ => ?_⟩⟩
    · rw [hrun] at hfault
      cases (yields_compileLines lines k).of_fault hfault
    · obtain ⟨texts, htexts, hsplices⟩ := hlines
      have hall := hsplices.isModerate hmoderate (isModerateText_of_linesOf? hmoderate htexts)
      obtain ⟨rules, k', hok, -⟩ := (yields_compileLines_moderate hk hall).exists_run
      exact ⟨rules, k', hrun ▸ hok⟩
  · refine ⟨fun _ => ⟨before, shown, hbefore, hrun⟩, fun hcyclic hshares => ?_, fun _ _ _ _ => htwice,
      fun hmoderate k hk => ⟨fun _ => ?_, fun hcyclic hshares => ?_⟩⟩
    · exact absurd htwice (not_or.2 ⟨hcyclic, hshares⟩)
    · obtain ⟨texts, htexts, hstops⟩ := hbefore
      have hall := hstops.isModerate hmoderate (isModerateText_of_linesOf? hmoderate htexts)
      obtain ⟨rules, k', hok, -⟩ := (yields_compileLines_moderate hk hall).exists_run
      refine ⟨shown, k', ?_⟩
      rw [hrun, run_bind, hok]
      rfl
    · exact absurd htwice (not_or.2 ⟨hcyclic, hshares⟩)

/-! ## A file that is included once or twice -/

/-- A file with a rule, one that includes it, and one that includes it twice. -/
def ruleFiles : Directory := .ofFiles [("base.rules", "(Add x 0) => x\n"),
  ("once.rules", ":include base.rules\n(Multiply x 1) => x\n"),
  ("twice.rules", ":include base.rules\n:include base.rules\n")]

theorem isConsistent_ruleFiles : ruleFiles.IsConsistent :=
  IsTree.isConsistent ⟨rfl, by decide⟩

theorem includeAt?_base (n : Nat) : ruleFiles.includeAt? ⟨"", ["base.rules"]⟩ n = none := by
  have hlines : ruleFiles.linesOf? ⟨"", ["base.rules"]⟩ = some ["(Add x 0) => x", ""] := by decide
  rw [includeAt?, hlines, Option.bind_some, inclusionAt?]
  obtain _ | _ | n := n
  · decide
  · decide
  · rfl

theorem linesOf?_once : ruleFiles.linesOf? ⟨"", ["once.rules"]⟩ =
    some [":include base.rules", "(Multiply x 1) => x", ""] := by decide

theorem linesOf?_twice : ruleFiles.linesOf? ⟨"", ["twice.rules"]⟩ =
    some [":include base.rules", ":include base.rules", ""] := by decide

/-- A file that includes another one once is read with its lines. -/
theorem rulesOfFile_inclusions_once : ∃ lines, SplicesFile ruleFiles ⟨"", ["once.rules"]⟩ lines ∧
    rulesOfFile ruleFiles ⟨"", ["once.rules"]⟩ = compileLines lines := by
  have hone : ∀ line ∈ [":include base.rules", "(Multiply x 1) => x", ""], ∀ q,
      inclusion? ⟨"", []⟩ line = some q → q = ⟨"", ["base.rules"]⟩ := by decide
  have hunique : ∀ n, ruleFiles.includeAt? ⟨"", ["once.rules"]⟩ n = some ⟨"", ["base.rules"]⟩ → n = 0 := by
    intro n hn
    rw [includeAt?, linesOf?_once, Option.bind_some, inclusionAt?] at hn
    obtain _ | _ | _ | n := n
    · rfl
    all_goals cases hn
  have hcomplete := isComplete_of_one linesOf?_once hone includeAt?_base (by decide)
  exact (rulesOfFile_inclusions isConsistent_ruleFiles hcomplete).2.1
    (not_cyclic_of_one linesOf?_once hone includeAt?_base (by decide))
    (not_shares_of_one linesOf?_once hone includeAt?_base hunique)

/-- The path that was refused as a circular inclusion. -/
def refused? : Except Fault (List Rule) → Option String
  | .error (.circularInclude path) => some path
  | _ => none

theorem eq_of_refused? {x : Except Fault (List Rule)} {path : String} (h : refused? x = some path) :
    x = .error (.circularInclude path) := by
  unfold refused? at h
  split at h
  · cases h
    rfl
  · cases h

/-- **A shared file is refused as circular**: a file that includes another one twice. -/
theorem shared_inclusion_is_refused : ruleFiles.IsComplete ⟨"", ["twice.rules"]⟩ ∧
    ¬ruleFiles.Cyclic ⟨"", ["twice.rules"]⟩ ∧
    (∃ lines, SplicesFile ruleFiles ⟨"", ["twice.rules"]⟩ lines) ∧
    ∃ k, (rulesOfFile ruleFiles ⟨"", ["twice.rules"]⟩).run.run standard =
      (.error (.circularInclude "base.rules"), k) := by
  have hone : ∀ line ∈ [":include base.rules", ":include base.rules", ""], ∀ q,
      inclusion? ⟨"", []⟩ line = some q → q = ⟨"", ["base.rules"]⟩ := by decide
  have hbase : ruleFiles.linesOf? ⟨"", ["base.rules"]⟩ = some ["(Add x 0) => x", ""] := by decide
  have hline : inclusion? ⟨"", []⟩ ":include base.rules" = some ⟨"", ["base.rules"]⟩ := by decide
  have hrule : inclusion? ⟨"", []⟩ "(Add x 0) => x" = none := by decide
  have hblank : inclusion? ⟨"", []⟩ "" = none := by decide
  have hinner : Splices ruleFiles ⟨"", []⟩ 1 ["(Add x 0) => x", ""] [(1, "(Add x 0) => x"), (2, "")] :=
    .rule hrule (.rule hblank .nil)
  refine ⟨isComplete_of_one linesOf?_twice hone includeAt?_base (by decide),
    not_cyclic_of_one linesOf?_twice hone includeAt?_base (by decide),
    ⟨_, _, linesOf?_twice, .inclusion hline hbase hinner (.inclusion hline hbase hinner (.rule hblank .nil))⟩, ?_⟩
  have hrefused : refused? ((rulesOfFile ruleFiles ⟨"", ["twice.rules"]⟩).run.run standard).1 =
      some "base.rules" := by
    rw [standard_eq]
    decide +kernel
  rcases hrun : (rulesOfFile ruleFiles ⟨"", ["twice.rules"]⟩).run.run standard with ⟨x, k⟩
  rw [hrun] at hrefused
  obtain rfl : x = .error (.circularInclude "base.rules") := eq_of_refused? hrefused
  exact ⟨k, rfl⟩

end SymbolicAlgebra.Kernel
