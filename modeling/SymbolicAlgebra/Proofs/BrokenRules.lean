import SymbolicAlgebra.Proofs.Balance
import SymbolicAlgebra.Proofs.RuleText
import SymbolicAlgebra.Proofs.Survival

/-!
# Proofs/BrokenRules — rules that are broken across lines

A dialogue goes on with a line until no parenthesis is open, but rules are read line by line.  A rule that is
broken in front of it or behind it is read as on one line; one that is broken inside parentheses never is: each
side of a rule closes what it opens (`Sexpr.openDepth_of_parse`), so a rule with sides leaves no more parentheses
open than its description does (`RuleLine.level_of_parse`), and neither piece is a rule (`Kernel.reads_nothing`).
-/

namespace SymbolicAlgebra

/-! ## Open parentheses -/

namespace Sexpr

open Text

theorem depthFrom_eq_count {s : List Char} (h : ';' ∉ s) (depth : Int) :
    depthFrom false depth s = depth + (s.count '(' - s.count ')' : Int) := by
  induction s generalizing depth with
  | nil => simp [depthFrom]
  | cons c s ih =>
      rw [List.mem_cons, not_or] at h
      have hc : (c == ';') = false := beq_false_of_ne (Ne.symm h.1)
      simp only [depthFrom, Bool.false_eq_true, ↓reduceIte, hc, ih h.2, List.count_cons, beq_iff_eq]
      split
      next hopening =>
        subst hopening
        simp
        omega
      split
      next hclosing =>
        subst hclosing
        simp
        omega
      next => simp

/-- **Without comments, the parentheses left open are the opening ones less the closing ones.** -/
theorem openDepth_eq_count {s : String} (h : ';' ∉ s.toList) :
    openDepth s = (s.toList.count '(' : Int) - s.toList.count ')' := by
  rw [openDepth, depthFrom_eq_count h, zero_add]

/-- Reading one expression closes what is open, and what it opens. -/
theorem height_of_readOne {stack : List (List Raw)} {tokens rest : List Token} {r : Raw}
    (h : readOne stack tokens = .ok (r, rest)) :
    ∃ used, tokens = used ++ rest ∧ stack.length + height used = 0 := by
  fun_induction readOne stack tokens with
  | case1 => cases h
  | case2 stack tokens ih =>
      obtain ⟨used, rfl, hused⟩ := ih h
      refine ⟨.opening :: used, rfl, ?_⟩
      simp only [List.length_cons, height_cons, Token.rise] at hused ⊢
      omega
  | case3 => cases h
  | case4 items tokens =>
      cases h
      exact ⟨[.closing], rfl, rfl⟩
  | case5 items outer stack tokens ih =>
      obtain ⟨used, rfl, hused⟩ := ih h
      refine ⟨.closing :: used, rfl, ?_⟩
      simp only [List.length_cons, height_cons, Token.rise] at hused ⊢
      omega
  | case6 s tokens =>
      cases ha : atom s with
      | error f =>
          rw [ha] at h
          cases h
      | ok x =>
          rw [ha] at h
          cases h
          exact ⟨[.atom s], rfl, rfl⟩
  | case7 items stack s tokens ih =>
      cases ha : atom s with
      | error f =>
          rw [ha] at h
          cases h
      | ok x =>
          rw [ha] at h
          obtain ⟨used, rfl, hused⟩ := ih x h
          exact ⟨.atom s :: used, rfl, by simpa [Token.rise] using hused⟩

/-- **An expression closes what it opens.** -/
theorem openDepth_of_parse {s : String} {r : Raw} (h : parse s = .ok (some r)) : openDepth s = 0 := by
  have hdepth : openDepth s = height (tokenize s) := by
    rw [openDepth, depthFrom_eq false [] _ 0, zero_add]
    rfl
  unfold parse at h
  split at h
  next => cases h
  next =>
    cases hread : readOne [] (tokenize s) with
    | error f =>
        rw [hread] at h
        cases h
    | ok p =>
        obtain ⟨x, rest⟩ := p
        obtain ⟨used, hused, hheight⟩ := height_of_readOne hread
        cases rest with
        | nil =>
            rw [hdepth, hused, List.append_nil]
            simpa using hheight
        | cons t rest =>
            rw [hread] at h
            cases h

end Sexpr

namespace RuleLine

open Text

/-! ## What the parts of a line leave open -/

theorem eq_of_cutWhen {depth : Int} {seen s before after : List Char}
    (h : cutWhen depth seen s = some (before, after)) :
    seen.reverse ++ s = before ++ ("when".toList ++ after) := by
  fun_induction cutWhen depth seen s with
  | case1 => cases h
  | case2 _ _ _ ih => simpa using ih h
  | case3 _ _ _ ih => simpa using ih h
  | case4 depth seen c rest _ _ _ hword =>
      simp only [Option.some.injEq, Prod.mk.injEq] at h
      simp only [Bool.and_eq_true] at hword
      rw [← h.1, ← h.2, ← List.prefix_iff_eq_append.1 (List.isPrefixOf_iff_prefix.1 hword.1.1.2)]
      rfl
  | case5 _ _ _ _ _ _ _ _ ih => simpa using ih h

theorem eq_of_takeDescription {s text rest : List Char} (h : takeDescription s = some (text, rest)) :
    ∃ blanks, (∀ c ∈ blanks, isBlank c = true) ∧ s = blanks ++ '"' :: (text ++ '"' :: rest) := by
  unfold takeDescription at h
  split at h
  next c rest₀ rest₁ hdrop =>
    simp only at h
    split at h
    next =>
      split at h
      next rest₂ hquote =>
        cases h
        have hblanks := List.takeWhile_append_dropWhile (p := isBlank) (l := c :: rest₀)
        have hwhole := List.prefix_iff_eq_append.1 (List.takeWhile_prefix (p := (· != '"')) (l := rest₁))
        rw [dropBlanks] at hdrop
        refine ⟨(c :: rest₀).takeWhile isBlank, fun c hc => List.mem_takeWhile_imp hc, ?_⟩
        rw [← hquote, hwhole, ← hdrop, hblanks]
      next => cases h
    next => cases h
  next => cases h

/-- A character that lines are not cut at, and that is not dropped where they are. -/
def isInert (c : Char) : Bool := !isNameChar c && !isBlank c && !"@\":=>".toList.contains c

section Counting

variable {c : Char} (hc : isInert c = true)

include hc

theorem isBlank_of_isInert : isBlank c = false := by
  simp only [isInert, Bool.and_eq_true, Bool.not_eq_true'] at hc
  exact hc.1.2

theorem count_eq_zero_of_names {s : List Char} (h : ∀ d ∈ s, isNameChar d = true) : s.count c = 0 := by
  simp only [isInert, Bool.and_eq_true, Bool.not_eq_true'] at hc
  exact List.count_eq_zero.2 fun hmem => Bool.false_ne_true (hc.1.1.symm.trans (h c hmem))

theorem count_eq_zero_of_blanks {s : List Char} (h : ∀ d ∈ s, isBlank d = true) : s.count c = 0 :=
  List.count_eq_zero.2 fun hmem => Bool.false_ne_true ((isBlank_of_isInert hc).symm.trans (h c hmem))

theorem count_eq_zero_of_marks {s : List Char} (h : ∀ d ∈ s, d ∈ "@\":=>".toList) : s.count c = 0 := by
  simp only [isInert, Bool.and_eq_true, Bool.not_eq_true', List.contains_eq_mem, decide_eq_false_iff_not] at hc
  exact List.count_eq_zero.2 fun hmem => hc.2 (h c hmem)

theorem count_cons_mark {d : Char} (h : d ∈ "@\":=>".toList) (s : List Char) : (d :: s).count c = s.count c := by
  rw [← List.singleton_append, List.count_append, count_eq_zero_of_marks hc (by simpa using h), zero_add]

theorem count_of_afterColon {s body : List Char} (hfeed : '\n' ∉ s) (h : afterColon s = some body) :
    s.count c = body.count c := by
  unfold afterColon at h
  split at h
  next rest =>
    simp only at h
    split at h
    next => cases h
    next =>
      cases h
      have hline : ∀ d ∈ dropBlanks rest, (d != '\n') = true := fun d hd => bne_iff_ne.2 fun heq =>
        hfeed (List.mem_cons_of_mem _ (heq ▸ mem_of_mem_dropBlanks hd))
      rw [List.takeWhile_eq_self_iff.2 hline, count_dropBlanks (isBlank_of_isInert hc),
        count_cons_mark hc (by decide)]
  next => cases h

theorem count_of_takeHeader {s name body : List Char} {description : Option (List Char)} (hfeed : '\n' ∉ s)
    (h : takeHeader s = some (name, description, body)) :
    s.count c = description.elim 0 (List.count c) + body.count c := by
  unfold takeHeader at h
  split at h
  next rest =>
    simp only at h
    split at h
    next => cases h
    next =>
      have hwhole := List.prefix_iff_eq_append.1 (List.takeWhile_prefix (p := isNameChar) (l := rest))
      have hname : (rest.takeWhile isNameChar).count c = 0 :=
        count_eq_zero_of_names hc fun d hd => List.mem_takeWhile_imp hd
      generalize rest.drop (rest.takeWhile isNameChar).length = behind at h hwhole
      have hfeed : '\n' ∉ behind := fun hmem =>
        hfeed (List.mem_cons_of_mem _ (hwhole ▸ List.mem_append_right _ hmem))
      rw [count_cons_mark hc (by decide), ← hwhole, List.count_append, hname, zero_add]
      split at h
      next text rest₁ htext =>
        obtain ⟨body', hbody, h⟩ := Option.map_eq_some_iff.1 h
        cases h
        obtain ⟨blanks, hblanks, rfl⟩ := eq_of_takeDescription htext
        rw [List.count_append, count_eq_zero_of_blanks hc hblanks, count_cons_mark hc (by decide),
          List.count_append, count_cons_mark hc (by decide),
          count_of_afterColon hc (fun hmem => hfeed (by simp [hmem])) hbody, zero_add]
        rfl
      next =>
        obtain ⟨body', hbody, h⟩ := Option.map_eq_some_iff.1 h
        cases h
        rw [count_of_afterColon hc hfeed hbody]
        simp
  next => cases h

theorem count_splitHeader {s : List Char} (hfeed : '\n' ∉ s) :
    s.count c = (splitHeader s).2.1.elim 0 (List.count c) + (splitHeader s).2.2.count c := by
  unfold splitHeader
  split
  next h => exact count_of_takeHeader hc hfeed h
  next => simp

theorem count_splitCondition (s : List Char) :
    s.count c = (splitCondition s).1.count c + (splitCondition s).2.elim 0 (List.count c) := by
  unfold splitCondition
  split
  next before after h =>
    have hword : "when".toList.count c = 0 := count_eq_zero_of_names hc (List.all_eq_true.1 (by decide))
    have hcount := congrArg (List.count c) (eq_of_cutWhen h)
    rw [List.reverse_nil, List.nil_append, List.count_append, List.count_append, hword, zero_add] at hcount
    simpa [count_stripChars (isBlank_of_isInert hc)] using hcount
  next => simp

/-- **An inert character of a line is in one of its parts**, as often as it is in the line. -/
theorem count_of_parse {source : String} {parts : RuleLine} (hfeed : '\n' ∉ source.toList)
    (h : parse source = .ok (some parts)) :
    source.toList.count c = (parts.description.elim 0 fun t => t.toList.count c) + parts.lhs.toList.count c +
      parts.rhs.toList.count c + parts.condition.elim 0 fun t => t.toList.count c := by
  have helim : ∀ o : Option (List Char),
      ((o.map String.ofList).elim 0 fun t => t.toList.count c) = o.elim 0 (List.count c) := by
    rintro (_ | _) <;> simp
  have hblank := isBlank_of_isInert hc
  have hcount := count_stripChars hblank source.toList
  have hfeed : '\n' ∉ stripChars source.toList := mt mem_of_mem_stripChars hfeed
  cases hstrip : stripChars source.toList with
  | nil =>
      rw [parse, hstrip] at h
      cases h
  | cons d chars =>
      by_cases hd : d = '#'
      · subst hd
        rw [parse, hstrip] at h
        cases h
      · rw [hstrip] at hcount hfeed
        have hheader := count_splitHeader hc hfeed
        rw [parse_eq hstrip hd] at h
        split at h
        next => cases h
        next lhs rest hcut =>
          split at h
          next => cases h
          next =>
            cases h
            have hsides := congrArg (List.count c) (eq_of_cutFirst hcut)
            have hrest := count_splitCondition hc (stripChars rest)
            have harrow : "=>".toList.count c = 0 := count_eq_zero_of_marks hc (by simp)
            simp only [List.count_append, harrow, count_stripChars hblank] at hsides hrest
            simp only [helim, String.toList_ofList, count_stripChars hblank]
            omega

end Counting

/-- **A line closes what it opens if its parts do.** -/
theorem openDepth_of_parts {line : String} {parts : RuleLine} (hfree : ';' ∉ line.toList)
    (hfeed : '\n' ∉ line.toList) (h : parse line = .ok (some parts))
    (hdescription : ∀ t ∈ parts.description, Sexpr.openDepth t = 0) (hlhs : Sexpr.openDepth parts.lhs = 0)
    (hrhs : Sexpr.openDepth parts.rhs = 0) (hcondition : ∀ t ∈ parts.condition, Sexpr.openDepth t = 0) :
    Sexpr.openDepth line = 0 := by
  have hopening := count_of_parse (by decide +kernel : isInert '(' = true) hfeed h
  have hclosing := count_of_parse (by decide +kernel : isInert ')' = true) hfeed h
  have hcomment := count_of_parse (by decide +kernel : isInert ';' = true) hfeed h
  rw [List.count_eq_zero.2 hfree] at hcomment
  -- no part holds a semicolon, so the parentheses of each are those that are counted
  have hpart : ∀ {t : String}, t.toList.count ';' = 0 → Sexpr.openDepth t = 0 →
      t.toList.count '(' = t.toList.count ')' := fun hzero hdepth => by
    rw [Sexpr.openDepth_eq_count (List.count_eq_zero.1 hzero)] at hdepth
    omega
  have hoption : ∀ {o : Option String}, (o.elim 0 fun t => t.toList.count ';') = 0 →
      (∀ t ∈ o, Sexpr.openDepth t = 0) →
        (o.elim 0 fun t => t.toList.count '(') = o.elim 0 fun t => t.toList.count ')' := by
    rintro (_ | t) hzero hdepth
    · rfl
    · exact hpart hzero (hdepth t rfl)
  have hd := hoption (by omega) hdescription
  have hl := hpart (by omega) hlhs
  have hr := hpart (by omega) hrhs
  have hc := hoption (by omega) hcondition
  rw [Sexpr.openDepth_eq_count hfree]
  omega

end RuleLine

namespace Kernel

open Text

variable {k : Kernel}

/-! ## Pieces of rules -/

/-- A side that is given as a text closes what it opens, if an expression is made of it. -/
theorem yields_compileSide (text : String) :
    Yields Anyhow (compileSide (.raw (.name text))) k fun _ _ => Sexpr.openDepth text = 0 := by
  unfold compileSide
  refine Yields.bind (P := fun o _ => Sexpr.parse text = .ok o) (yields_ofExcept (fun _ _ => trivial) fun _ h => h) ?_
  rintro (_ | r) k' h
  · exact Yields.throw trivial
  · exact (anyhow _).mono fun _ _ _ => Sexpr.openDepth_of_parse h

/-- All parts of a rule on a line close what they open, if a rule is made of it. -/
theorem yields_compileLine (line : RuleLine) : Yields Anyhow (compileLine line) k fun _ _ =>
    Sexpr.openDepth line.lhs = 0 ∧ Sexpr.openDepth line.rhs = 0 ∧ ∀ t ∈ line.condition, Sexpr.openDepth t = 0 := by
  have hcondition : Yields Anyhow (compileCondition (.raw (RuleLine.rawOf line.condition))) k fun _ _ =>
      ∀ t ∈ line.condition, Sexpr.openDepth t = 0 := by
    cases line.condition with
    | none => exact (anyhow _).mono fun _ _ _ _ h => by cases h
    | some t =>
        exact Yields.bind (yields_compileSide t) fun _ _ ht => Yields.pure fun _ hmem => by cases hmem; exact ht
  exact Yields.bind hcondition fun _ _ hc => Yields.bind (yields_compileSide line.lhs) fun _ _ hl =>
    Yields.bind (yields_compileSide line.rhs) fun _ _ hr => Yields.pure ⟨hl, hr, hc⟩

/-- **A line that leaves parentheses open is no rule**, apart from those that its description does. -/
theorem reads_nothing {line : String} (hfree : ';' ∉ line.toList) (hfeed : '\n' ∉ line.toList)
    (hopen : Sexpr.openDepth line ≠ 0) (hdescription : ∀ parts, RuleLine.parse line = .ok (some parts) →
      ∀ t ∈ parts.description, Sexpr.openDepth t = 0) (number : Nat) :
    Yields Anyhow (ruleOfLine number line) k fun rs _ => rs = [] := by
  have hany : ∀ x : Action (List Rule), Upholds (fun _ => True) x k fun _ _ => True := fun x => by
    unfold Upholds
    rcases x.run.run k with ⟨_ | _, _⟩ <;> simp
  unfold ruleOfLine
  refine Yields.tryCatch (E := Anyhow) ?_ (hany _) fun f k' _ _ => ?_
  · refine Yields.bind (P := fun o _ => RuleLine.parse line = .ok o)
      (yields_ofExcept (fun _ _ => trivial) fun _ h => h) ?_
    rintro (_ | parts) k' hparse
    · exact Yields.pure rfl
    · exact Yields.bind (yields_compileLine parts) fun _ _ ⟨hl, hr, hc⟩ =>
        absurd (RuleLine.openDepth_of_parts hfree hfeed hparse (hdescription parts hparse) hl hr hc) hopen
  · split
    next => exact Yields.bind (anyhow _) fun _ _ _ => Yields.pure rfl
    next => exact Yields.throw trivial

end Kernel

namespace Kernel

open Text

variable {d : Directory} {a b : String}

/-! ## The lines of a text -/

theorem parse_congr (h : stripChars a.toList = stripChars b.toList) : RuleLine.parse a = RuleLine.parse b := by
  rw [RuleLine.parse, RuleLine.parse, h]

theorem ruleOfLine_congr (h : stripChars a.toList = stripChars b.toList) (number : Nat) :
    ruleOfLine number a = ruleOfLine number b := by
  rw [ruleOfLine, ruleOfLine, parse_congr h]

theorem includedPath?_congr (h : stripChars a.toList = stripChars b.toList) :
    includedPath? a = includedPath? b := by
  rw [includedPath?, includedPath?, h]

/-- Only a line that starts with a colon includes a file. -/
theorem includedPath?_eq_none (h : (stripChars a.toList).head? ≠ some ':') : includedPath? a = none := by
  rw [includedPath?]
  split
  next hprefix =>
    obtain ⟨rest, hrest⟩ := List.isPrefixOf_iff_prefix.1 hprefix
    rw [← hrest] at h
    exact absurd rfl h
  next => rfl

theorem not_feed {s : List Char} (h : '\n' ∉ s) : ∀ c ∈ s, (c == '\n') = false := fun _ hc =>
  beq_false_of_ne fun heq => h (heq ▸ hc)

/-- The rule of a text of one line. -/
theorem rulesOfText_line (ha : '\n' ∉ a.toList) (hinclude : includedPath? a = none) :
    rulesOfText d a = ruleOfLine 1 a := by
  have hlines : splitOnChar '\n' a = [a] := by
    rw [splitOnChar, splitChars_of_forall (not_feed ha)]
    simp
  simp [rulesOfText, hlines, rulesOfLines, hinclude]

/-- The rules of a text of two lines are those of the lines. -/
theorem rulesOfText_lines {text : String} (htext : text.toList = a.toList ++ '\n' :: b.toList)
    (ha : '\n' ∉ a.toList) (hb : '\n' ∉ b.toList)
    (hincludea : includedPath? a = none) (hincludeb : includedPath? b = none) :
    rulesOfText d text = do
      let rs ← ruleOfLine 1 a
      let rs' ← ruleOfLine 2 b
      return rs ++ rs' := by
  have hlines : splitOnChar '\n' text = [a, b] := by
    rw [splitOnChar, htext, splitChars_append (not_feed ha) rfl, splitChars_of_forall (not_feed hb)]
    simp
  simp [rulesOfText, hlines, rulesOfLines, hincludea, hincludeb]

end Kernel

namespace Session

open Kernel Text

variable {d : Directory} {s : Session} {source l₁ l₂ : String}

/-! ## Lines of rules -/

/-- A text that a dialogue takes for rules. -/
structure IsRuleText (source : String) : Prop where
  first : ∃ c rest, stripChars source.toList = c :: rest ∧ c ≠ ':' ∧ c ≠ '#' ∧ c ≠ ';'
  arrow : Text.contains "=>" source = true

/-- The answer to a line of rules, and the dialogue with what was found. -/
def takeRules (s : Session) (found : List Rule) : Answer :=
  if found.isEmpty then s.say "Error: failed to parse rule"
  else ({ s with rules := s.rules ++ found } : Session).say ("Added " ++ intText found.length ++ " rule(s)")

theorem addRules_eq (text : String) : s.addRules d text = do return s.takeRules (← rulesOfText d text) := by
  rw [addRules]
  congr 1
  funext found
  rw [takeRules]
  split <;> rfl

theorem process_congr {a b : String} (h : stripChars a.toList = stripChars b.toList) :
    s.process d a = s.process d b := by
  rw [process, process, Text.strip, Text.strip, h]

theorem process_of_isRuleText (h : IsRuleText source) : s.process d source = s.addRules d (Text.strip source) := by
  obtain ⟨c, rest, hstrip, hcolon, hhash, hsemicolon⟩ := h.first
  have harrow : Text.contains "=>" (Text.strip source) = true :=
    (contains_strip (by simp) not_isBlank_arrow source).trans h.arrow
  rw [process_of_first hstrip hcolon hhash hsemicolon, harrow, if_pos rfl]

theorem process_line (h : IsRuleText source) (hfeed : '\n' ∉ source.toList) :
    s.process d source = do return s.takeRules (← ruleOfLine 1 source) := by
  obtain ⟨c, rest, hstrip, hcolon, -, -⟩ := h.first
  have hagain : stripChars (Text.strip source).toList = stripChars source.toList := by
    rw [Text.strip, String.toList_ofList, stripChars_of_isTrim (isTrim_stripChars _)]
  have hinclude : includedPath? (Text.strip source) = none :=
    includedPath?_eq_none (by rw [hagain, hstrip]; simpa using hcolon)
  have hfeed : '\n' ∉ (Text.strip source).toList := by
    rw [Text.strip, String.toList_ofList]
    exact mt mem_of_mem_stripChars hfeed
  rw [process_of_isRuleText h, addRules_eq, rulesOfText_line hfeed hinclude, ruleOfLine_congr hagain]

/-- A rule that is broken in two lines, where parentheses are open; its description has as many opening as closing
ones, and the second line is no other one. -/
structure IsBroken (l₁ l₂ : String) : Prop where
  free : ';' ∉ l₁.toList ∧ ';' ∉ l₂.toList
  lines : '\n' ∉ l₁.toList ∧ '\n' ∉ l₂.toList
  balanced : Sexpr.openDepth (l₁ ++ " " ++ l₂) = 0
  inside : Sexpr.openDepth l₁ ≠ 0
  description : ∀ line ∈ [l₁, l₂], ∀ parts, RuleLine.parse line = .ok (some parts) →
    ∀ t ∈ parts.description, Sexpr.openDepth t = 0
  noInclusion : includedPath? l₂ = none

theorem IsBroken.openDepth_right (h : IsBroken l₁ l₂) : Sexpr.openDepth l₂ ≠ 0 := by
  have hbalanced := h.balanced
  have hinside := h.inside
  have hwhole : ';' ∉ (l₁ ++ " " ++ l₂).toList := by simp [h.free.1, h.free.2]
  rw [Sexpr.openDepth_eq_count hwhole] at hbalanced
  rw [Sexpr.openDepth_eq_count h.free.1] at hinside
  rw [Sexpr.openDepth_eq_count h.free.2]
  simp at hbalanced
  omega

/-- A text in which parentheses are open is not blank. -/
theorem stripChars_ne_nil {l : String} (hfree : ';' ∉ l.toList) (h : Sexpr.openDepth l ≠ 0) :
    stripChars l.toList ≠ [] := by
  rw [Sexpr.openDepth_eq_count hfree] at h
  intro hnil
  have hopening := count_stripChars (by decide : isBlank '(' = false) l.toList
  have hclosing := count_stripChars (by decide : isBlank ')' = false) l.toList
  rw [hnil] at hopening hclosing
  simp at hopening hclosing
  omega

/-- **A broken rule is read line by line.** -/
theorem process_broken (hrule : IsRuleText (l₁ ++ " " ++ l₂)) (h : IsBroken l₁ l₂) :
    s.process d (l₁ ++ "\n" ++ l₂) = do
      let rs ← ruleOfLine 1 l₁
      let rs' ← ruleOfLine 2 l₂
      return s.takeRules (rs ++ rs') := by
  have hspace : (l₁ ++ " " ++ l₂).toList = l₁.toList ++ ' ' :: l₂.toList := by simp
  have hbreak : (l₁ ++ "\n" ++ l₂).toList = l₁.toList ++ '\n' :: l₂.toList := by simp
  obtain ⟨l, r, hl, hr, hlmem, hrmem, hhead, hjoin⟩ := exists_stripChars_join
    (stripChars_ne_nil h.free.1 h.inside) (stripChars_ne_nil h.free.2 h.openDepth_right)
  obtain ⟨c, rest, hstrip, hcolon, hhash, hsemicolon⟩ := hrule.first
  rw [hspace, hjoin] at hstrip
  have hfirst : l.head? = some c := by
    have hne : l ≠ [] := fun hnil => stripChars_ne_nil h.free.1 h.inside (by rw [← hl, hnil]; rfl)
    have hwhole := congrArg List.head? hstrip
    rwa [List.head?_append, Option.or_eq_left_of_isSome (by simpa using hne)] at hwhole
  have hbroken : IsRuleText (l₁ ++ "\n" ++ l₂) :=
    { first := by
        obtain ⟨l', rfl⟩ : ∃ l', l = c :: l' := ⟨l.tail, (List.cons_head?_tail hfirst).symm⟩
        exact ⟨c, _, by rw [hbreak, hjoin]; rfl, hcolon, hhash, hsemicolon⟩
      arrow := (contains_join (by simp) not_isBlank_arrow (by decide) (by decide) hbreak hspace).trans hrule.arrow }
  have hleft : stripChars (String.ofList l).toList = stripChars l₁.toList := by rw [String.toList_ofList, hl]
  have hright : stripChars (String.ofList r).toList = stripChars l₂.toList := by rw [String.toList_ofList, hr]
  have hlines : (Text.strip (l₁ ++ "\n" ++ l₂)).toList =
      (String.ofList l).toList ++ '\n' :: (String.ofList r).toList := by
    rw [Text.strip, hbreak, hjoin]
    simp
  have hincluder : includedPath? (String.ofList r) = none := (includedPath?_congr hright).trans h.noInclusion
  have hincludel : includedPath? (String.ofList l) = none := includedPath?_eq_none <| by
    rw [hleft, ← hhead, hfirst]
    simpa using hcolon
  have hrules := rulesOfText_lines (d := d) hlines
    (by rw [String.toList_ofList]; exact fun hmem => h.lines.1 (hlmem _ hmem))
    (by rw [String.toList_ofList]; exact fun hmem => h.lines.2 (hrmem _ hmem)) hincludel hincluder
  rw [process_of_isRuleText hbroken, addRules_eq, hrules, ruleOfLine_congr hleft, ruleOfLine_congr hright]
  simp

theorem takeRules_eq_iff {found : List Rule} :
    s.takeRules found = s.say "Error: failed to parse rule" ↔ found = [] := by
  cases found with
  | nil => simp [takeRules]
  | cons r rest =>
      refine iff_of_false (fun h => ?_) (List.cons_ne_nil r rest)
      have htext := congrArg String.toList (Option.some.inj (congrArg Prod.fst h))
      simp at htext

/-- **Rules that are broken across lines.**  A line end in front of a rule or behind it is as good as a blank.  Where
parentheses are open it is not: the pieces are never rules, so they are refused, whatever the rule is on one line.  In
a strict kernel, for numbers of moderate size, they are answered, just so as the rule on one line if that is
refused too. -/
theorem process_broken_rule (hrule : IsRuleText (l₁ ++ " " ++ l₂)) :
    ((∀ c ∈ l₁.toList, isBlank c = true) ∨ (∀ c ∈ l₂.toList, isBlank c = true) →
      s.process d (l₁ ++ "\n" ++ l₂) = s.process d (l₁ ++ " " ++ l₂)) ∧
    (IsBroken l₁ l₂ → ∀ k,
      (∀ answer k', (s.process d (l₁ ++ "\n" ++ l₂)).run.run k = (.ok answer, k') →
        answer = s.say "Error: failed to parse rule") ∧
      (IsStrict k → RuleLine.isModerateText l₁ = true → RuleLine.isModerateText l₂ = true →
        ((s.process d (l₁ ++ "\n" ++ l₂)).run.run k).1 = .ok (s.say "Error: failed to parse rule")) ∧
      (((s.process d (l₁ ++ " " ++ l₂)).run.run k).1 = .ok (s.say "Error: failed to parse rule") ↔
        ((ruleOfLine 1 (l₁ ++ " " ++ l₂)).run.run k).1 = .ok [])) := by
  have hspace : (l₁ ++ " " ++ l₂).toList = l₁.toList ++ ' ' :: l₂.toList := by simp
  have hbreak : (l₁ ++ "\n" ++ l₂).toList = l₁.toList ++ '\n' :: l₂.toList := by simp
  constructor
  · intro hblank
    refine process_congr ?_
    rw [hbreak, hspace]
    rcases hblank with hblank | hblank
    · rw [stripChars_join_of_blank_left hblank (by decide), stripChars_join_of_blank_left hblank (by decide)]
    · rw [stripChars_join_of_blank_right hblank (by decide), stripChars_join_of_blank_right hblank (by decide)]
  · intro h k
    have hrefused : Yields Anyhow (s.process d (l₁ ++ "\n" ++ l₂)) k fun answer _ =>
        answer = s.say "Error: failed to parse rule" := by
      rw [process_broken hrule h]
      have hleft := h.description l₁ (by simp)
      have hright := h.description l₂ (by simp)
      refine Yields.bind (reads_nothing h.free.1 h.lines.1 h.inside hleft 1) fun rs _ hrs => ?_
      refine Yields.bind (reads_nothing h.free.2 h.lines.2 h.openDepth_right hright 2) fun rs' _ hrs' => ?_
      exact Yields.pure (takeRules_eq_iff.2 (by rw [hrs, hrs', List.append_nil]))
    refine ⟨fun answer k' hrun => hrefused.of_run hrun, fun hk hl hr => ?_, ?_⟩
    · have hends : Yields Never (s.process d (l₁ ++ "\n" ++ l₂)) k fun _ _ => True := by
        rw [process_broken hrule h]
        exact Yields.bind (reads_ruleOfLine hl 1 k hk) fun _ k₁ hrs =>
          Yields.bind (reads_ruleOfLine hr 2 k₁ hrs.1) fun _ _ _ => Yields.pure trivial
      generalize s.process d (l₁ ++ "\n" ++ l₂) = x at hends hrefused ⊢
      obtain ⟨answer, k', hrun, hanswer⟩ := (hends.and hrefused).exists_run
      rw [hrun, hanswer.2]
    · have hfeed : '\n' ∉ (l₁ ++ " " ++ l₂).toList := by simp [h.lines.1, h.lines.2]
      rw [process_line hrule hfeed, run_bind]
      rcases (ruleOfLine 1 (l₁ ++ " " ++ l₂)).run.run k with ⟨f | found, k'⟩
      · simp
      · constructor
        · intro heq
          rw [takeRules_eq_iff.1 (Except.ok.inj heq)]
        · intro heq
          rw [Except.ok.inj heq]
          rfl

/-- Descriptions that are read, looked at one by one. -/
theorem description_of_all {line : String}
    (h : (RuleLine.parse line).toOption.all
      (·.all fun parts => parts.description.all fun t => Sexpr.openDepth t == 0) = true) :
    ∀ parts, RuleLine.parse line = .ok (some parts) → ∀ t ∈ parts.description, Sexpr.openDepth t = 0 := by
  intro parts hparse t ht
  have hall := forall_of_all h (some parts) hparse
  rw [Option.all_some, ht, Option.all_some] at hall
  exact eq_of_beq hall

/-- A rule with parentheses in its description that is broken in front of the last operand. -/
theorem process_broken_rule_double :
    ((({} : Session).process {} ("@double \"(x)\": (F x) => (Add x" ++ "\n" ++ "x) when (Equal x x)")).run.run
      standard).1 = .ok (some "Error: failed to parse rule", {}) := by
  have hrule : IsRuleText ("@double \"(x)\": (F x) => (Add x" ++ " " ++ "x) when (Equal x x)") :=
    { first := ⟨'@', "double \"(x)\": (F x) => (Add x x) when (Equal x x)".toList, by decide, by decide,
        by decide, by decide⟩
      arrow := by decide }
  have hbroken : IsBroken "@double \"(x)\": (F x) => (Add x" "x) when (Equal x x)" :=
    { free := by decide
      lines := by decide
      balanced := by decide
      inside := by decide
      description := List.forall_mem_cons.2 ⟨description_of_all (by decide +kernel),
        List.forall_mem_singleton.2 (description_of_all (by decide))⟩
      noInclusion := by decide }
  exact ((process_broken_rule hrule).2 hbroken standard).2.1 standard_isStrict (by decide +kernel) (by decide +kernel)

/-- **A rule that is broken inside parentheses is refused**, and added where it is on one line. -/
theorem broken_rule_is_refused : IsRuleText ("(Add x" ++ " " ++ "0) => x") ∧ IsBroken "(Add x" "0) => x" ∧
    (∃ text s k, (({} : Session).process {} ("(Add x" ++ "\n" ++ "0) => x")).run.run standard =
      (.ok (text, s), k) ∧ text = some "Error: failed to parse rule" ∧ s.rules.length = 0) ∧
    ∃ text s k, (({} : Session).process {} ("(Add x" ++ " " ++ "0) => x")).run.run standard =
      (.ok (text, s), k) ∧ text = some "Added 1 rule(s)" ∧ s.rules.length = 1 := by
  have hrule : IsRuleText ("(Add x" ++ " " ++ "0) => x") :=
    { first := ⟨'(', "Add x 0) => x".toList, by decide, by decide, by decide, by decide⟩
      arrow := by decide }
  have hbroken : IsBroken "(Add x" "0) => x" :=
    { free := by decide
      lines := by decide
      balanced := by decide
      inside := by decide
      description := List.forall_mem_cons.2 ⟨description_of_all (by decide),
        List.forall_mem_singleton.2 (description_of_all (by decide))⟩
      noInclusion := by decide }
  obtain ⟨⟨text, s⟩, k, hrefused, htext⟩ := run_of_any
    (x := ({} : Session).process {} ("(Add x" ++ "\n" ++ "0) => x")) (k := standard)
    (p := fun a => a.1 == some "Error: failed to parse rule" && a.2.rules.length == 0)
    (by rw [Kernel.standard_eq]; decide +kernel)
  obtain ⟨⟨text', s'⟩, k', hadded, htext'⟩ := run_of_any
    (x := ({} : Session).process {} ("(Add x" ++ " " ++ "0) => x")) (k := standard)
    (p := fun a => a.1 == some "Added 1 rule(s)" && a.2.rules.length == 1)
    (by rw [Kernel.standard_eq]; decide +kernel)
  exact ⟨hrule, hbroken, ⟨text, s, k, hrefused, by simpa using htext⟩, text', s', k', hadded, by simpa using htext'⟩

end Session

end SymbolicAlgebra
