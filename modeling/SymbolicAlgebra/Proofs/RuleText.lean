import SymbolicAlgebra.Proofs.TextCuts
import SymbolicAlgebra.Proofs.Writing
import SymbolicAlgebra.Rewriting.Line

/-!
# Proofs/RuleText — rules are read back from their lines

    @name "description": (pattern) => (replacement) when condition

A line is cut three times: behind the colon of its header, at the first `=>`, and at the first word `when` that
stands outside parentheses.  The sides are applications, so all their names stand inside parentheses, and the
cuts are found where the line was put together: no `=>` comes about between two names (`Text.cutFirst_across`),
and what is inside parentheses is passed over (`RuleLine.Passes`).  All three cuts look at characters only, so a
name that holds a parenthesis, a `=>` or a line feed itself can move them (`Rule.isPlain_not_isReadBack`).
-/

namespace SymbolicAlgebra

namespace RuleLine

open Text

variable {s : List Char}

/-! ## The sign between the sides -/

theorem carriesOver_arrow : CarriesOver fun s => cutFirst "=>".toList s = none where
  figures h := cutFirst_eq_none fun hmem => absurd (h _ hmem) (by decide)
  spaced hs ht := cutFirst_across_eq_none (by simp) (by decide) hs ht
  enclosed hs := cutFirst_across_eq_none (by simp) (by decide) (s := []) rfl <|
    cutFirst_across_eq_none (by simp) (by decide) hs rfl

/-! ## Line feeds -/

theorem carriesOver_feedless : CarriesOver fun s => '\n' ∉ s where
  figures h hmem := absurd (h _ hmem) (by decide)
  spaced hs ht := by simp [hs, ht]
  enclosed hs := by simp [hs]

/-! ## The word `when` -/

/-- Inside parentheses the word `when` is not looked for in `s`, and the parentheses of `s` match. -/
def Passes (s : List Char) : Prop :=
  ∀ depth : Int, 0 < depth → ∀ seen rest,
    cutWhen depth seen (s ++ rest) = cutWhen depth (s.reverse ++ seen) rest

theorem passes_of_forall {s : List Char} (h : ∀ c ∈ s, c ≠ '(' ∧ c ≠ ')') : Passes s := by
  intro depth hdepth
  induction s with
  | nil => exact fun _ _ => rfl
  | cons c s ih =>
      rw [List.forall_mem_cons] at h
      intro seen rest
      have hzero : (depth == 0) = false := by simpa using hdepth.ne'
      rw [List.cons_append, cutWhen.eq_4 _ _ _ _ h.1.1 h.1.2]
      simp [hzero, ih h.2]

theorem Passes.append {s t : List Char} (hs : Passes s) (ht : Passes t) : Passes (s ++ t) := by
  intro depth hdepth seen rest
  rw [List.append_assoc, hs depth hdepth, ht depth hdepth, List.reverse_append, List.append_assoc]

theorem carriesOver_passes : CarriesOver Passes where
  figures h := passes_of_forall fun c hc =>
    ⟨fun hp => absurd (h c hc) (hp ▸ by decide), fun hp => absurd (h c hc) (hp ▸ by decide)⟩
  spaced hs ht := hs.append ((passes_of_forall (s := [' ']) (by simp)).append ht)
  enclosed hs depth hdepth seen rest := by
    simp [cutWhen, hs (depth + 1) (by omega)]

/-- What stands in parentheses is passed over. -/
theorem cutWhen_enclosed {s : List Char} (hs : Passes s) (seen rest : List Char) :
    cutWhen 0 seen ('(' :: (s ++ [')']) ++ rest) = cutWhen 0 (('(' :: (s ++ [')'])).reverse ++ seen) rest := by
  simp [cutWhen, hs 1 one_pos]

theorem cutWhen_when (seen t : List Char) :
    cutWhen 0 seen (" when ".toList ++ t) = some (seen.reverse ++ [' '], ' ' :: t) := by
  have hblank : isBlank ' ' = true := by decide
  simp [cutWhen, hblank]

/-! ## Headers -/

/-- A header as it is written. -/
def headerChars : Option String → Option String → List Char
  | none, _ => []
  | some n, none => ("@" ++ n ++ ": ").toList
  | some n, some t => ("@" ++ n ++ " \"" ++ t ++ "\": ").toList

/-- A condition as it is written. -/
def conditionChars : Option String → List Char
  | none => []
  | some t => (" when " ++ t).toList

theorem takeWhile_stop {p : Char → Bool} {c : Char} (hs : ∀ d ∈ s, p d = true) (hc : p c = false)
    (rest : List Char) : (s ++ c :: rest).takeWhile p = s := by
  rw [List.takeWhile_append_of_pos hs, List.takeWhile_cons_of_neg (by simp [hc]), List.append_nil]

theorem afterColon_line {c : Char} {body : List Char} (hblank : isBlank c = false)
    (hfeed : '\n' ∉ c :: body) : afterColon (':' :: ' ' :: c :: body) = some (c :: body) := by
  have hspace : isBlank ' ' = true := by decide
  have hline : (c :: body).takeWhile (· != '\n') = c :: body :=
    List.takeWhile_eq_self_iff.2 fun d hd => bne_iff_ne.2 fun h => hfeed (h ▸ hd)
  have hdrop : dropBlanks (' ' :: c :: body) = c :: body := by
    simp [dropBlanks, hspace, hblank]
  rw [afterColon, hdrop, hline]
  rfl

/-- **A header is found again**, in front of a body that is a line without leading blanks. -/
theorem takeHeader_headerChars {n : String} {description : Option String} {c : Char} {body : List Char}
    (hname : n ≠ "" ∧ ∀ d ∈ n.toList, isNameChar d = true)
    (hdescription : ∀ t ∈ description, t ≠ "" ∧ '"' ∉ t.toList)
    (hblank : isBlank c = false) (hfeed : '\n' ∉ c :: body) :
    takeHeader (headerChars (some n) description ++ c :: body) =
      some (n.toList, description.map String.toList, c :: body) := by
  have hbody := afterColon_line hblank hfeed
  have hne : n.toList.isEmpty = false := by simpa using hname.1
  cases description with
  | none =>
      have htake := takeWhile_stop hname.2 (by decide +kernel : isNameChar ':' = false) (' ' :: c :: body)
      have hline : headerChars (some n) none ++ c :: body = '@' :: (n.toList ++ ':' :: ' ' :: c :: body) := by
        simp [headerChars]
      have hplain : takeDescription (':' :: ' ' :: c :: body) = none := by
        simp [takeDescription, dropBlanks, (by decide : isBlank ':' = false)]
      rw [hline, takeHeader]
      simp [htake, hne, hplain, hbody]
  | some t =>
      have ht := hdescription t rfl
      have htake := takeWhile_stop hname.2 (by decide +kernel : isNameChar ' ' = false)
        ('"' :: (t.toList ++ '"' :: ':' :: ' ' :: c :: body))
      have hline : headerChars (some n) (some t) ++ c :: body =
          '@' :: (n.toList ++ ' ' :: '"' :: (t.toList ++ '"' :: ':' :: ' ' :: c :: body)) := by
        simp [headerChars]
      have hquoted : takeDescription (' ' :: '"' :: (t.toList ++ '"' :: ':' :: ' ' :: c :: body)) =
          some (t.toList, ':' :: ' ' :: c :: body) := by
        have htext : (t.toList ++ '"' :: ':' :: ' ' :: c :: body).takeWhile (· != '"') = t.toList :=
          takeWhile_stop (p := (· != '"')) (fun d hd => bne_iff_ne.2 fun h => ht.2 (h ▸ hd)) rfl _
        have hspace : isBlank ' ' = true := by decide
        have hmark : isBlank '"' = false := by decide
        simp [takeDescription, dropBlanks, hspace, hmark, htext, ht.1]
      rw [hline, takeHeader]
      simp [htake, hne, hquoted, hbody]

/-! ## Lines -/

theorem isTrim_enclosed : IsTrim ('(' :: (s ++ [')'])) where
  first c hc := by
    cases hc
    decide
  last c hc := by
    rw [← List.cons_append, List.getLast?_concat] at hc
    cases hc
    decide

/-- What stands behind the sign between the sides. -/
theorem isTrim_tail {condition : Option String} (h : ∀ t ∈ condition, t ≠ "" ∧ IsTrim t.toList) :
    IsTrim ('(' :: (s ++ [')']) ++ conditionChars condition) := by
  cases condition with
  | none =>
      rw [conditionChars, List.append_nil]
      exact isTrim_enclosed
  | some t =>
      obtain ⟨hne, htrim⟩ := h t rfl
      rw [conditionChars, String.toList_append]
      exact isTrim_enclosed.append htrim (by simp) (by simpa using hne) _

theorem exists_first (name description : Option String) (rest : List Char) :
    ∃ c chars, headerChars name description ++ '(' :: rest = c :: chars ∧ (c = '@' ∨ c = '(') := by
  cases name with
  | none => exact ⟨'(', rest, rfl, .inr rfl⟩
  | some n => cases description <;> exact ⟨'@', _, by simp [headerChars]; rfl, .inl rfl⟩

/-- A line has blanks at its end only if what stands behind the left side has. -/
theorem isTrim_line {name description : Option String} {rest : List Char} (hne : rest ≠ [])
    (hlast : ∀ c, rest.getLast? = some c → isBlank c = false) :
    IsTrim (headerChars name description ++ '(' :: (s ++ rest)) where
  first c hc := by
    obtain ⟨d, chars, hline, hd⟩ := exists_first name description (s ++ rest)
    rw [hline] at hc
    cases hc
    rcases hd with rfl | rfl <;> decide
  last c hc := hlast c <| by
    rwa [← List.cons_append, ← List.append_assoc, List.getLast?_append_of_ne_nil _ hne] at hc

/-- The word `when` is found behind the right side. -/
theorem cutWhen_tail (hs : Passes s) (condition : Option String) :
    cutWhen 0 [] ('(' :: (s ++ [')']) ++ conditionChars condition) =
      condition.map fun t => ('(' :: (s ++ [')']) ++ [' '], ' ' :: t.toList) := by
  rw [cutWhen_enclosed hs]
  cases condition with
  | none => rfl
  | some t =>
      rw [conditionChars, String.toList_append, cutWhen_when]
      simp

/-- The parts of a header, if there is one, and what stands behind it. -/
def splitHeader (chars : List Char) : Option (List Char) × Option (List Char) × List Char :=
  match takeHeader chars with
  | some (name, description, body) => (some name, description, body)
  | none => (none, none, chars)

/-- The right side, and the condition behind it, if there is one. -/
def splitCondition (rest : List Char) : List Char × Option (List Char) :=
  match cutWhen 0 [] rest with
  | some (rhs, condition) => (stripChars rhs, some (stripChars condition))
  | none => (rest, none)

/-- A line that is neither blank nor a comment is cut three times. -/
theorem parse_eq {source : String} {c : Char} {chars : List Char} (hstrip : stripChars source.toList = c :: chars)
    (hc : c ≠ '#') : parse source =
      match cutFirst "=>".toList (splitHeader (c :: chars)).2.2 with
      | none => .error (.notARule (String.ofList (splitHeader (c :: chars)).2.2))
      | some (lhs, rest) =>
          if (stripChars lhs).isEmpty || (splitCondition (stripChars rest)).1.isEmpty then
            .error (.missingSide (String.ofList (splitHeader (c :: chars)).2.2))
          else
            .ok (some
              { name := (splitHeader (c :: chars)).1.map String.ofList
                description := (splitHeader (c :: chars)).2.1.map String.ofList
                lhs := String.ofList (stripChars lhs)
                rhs := String.ofList (splitCondition (stripChars rest)).1
                condition := (splitCondition (stripChars rest)).2.map String.ofList }) := by
  rw [parse, hstrip]
  split
  next h => cases h
  next h => exact absurd (List.cons.inj h).1 hc
  next => rfl

/-- The parts of a line, from where it is cut. -/
theorem parse_of_cuts {source : String} {c : Char} {chars body lhs rest rhs : List Char}
    {name description condition : Option (List Char)}
    (hstrip : stripChars source.toList = c :: chars) (hc : c ≠ '#')
    (hheader : splitHeader (c :: chars) = (name, description, body))
    (hcut : cutFirst "=>".toList body = some (lhs, rest))
    (hcondition : splitCondition (stripChars rest) = (rhs, condition))
    (hlhs : stripChars lhs ≠ []) (hrhs : rhs ≠ []) :
    parse source = .ok (some
      { name := name.map String.ofList, description := description.map String.ofList,
        lhs := String.ofList (stripChars lhs), rhs := String.ofList rhs,
        condition := condition.map String.ofList }) := by
  rw [parse_eq hstrip hc, hheader]
  simp only [hcut, hcondition]
  simp [hlhs, hrhs]

theorem splitHeader_headerChars {name description : Option String} {c : Char} (body : List Char)
    (hname : ∀ n ∈ name, n ≠ "" ∧ ∀ d ∈ n.toList, isNameChar d = true)
    (hdescription : ∀ t ∈ description, name.isSome = true ∧ t ≠ "" ∧ '"' ∉ t.toList)
    (hblank : isBlank c = false) (hmark : c ≠ '@') (hfeed : name.isSome = true → '\n' ∉ c :: body) :
    splitHeader (headerChars name description ++ c :: body) =
      (name.map String.toList, description.map String.toList, c :: body) := by
  cases name with
  | none =>
      have hplain : takeHeader (c :: body) = none := takeHeader.eq_2 _ fun _ h => hmark (List.cons.inj h).1
      cases description with
      | none => simp [splitHeader, headerChars, hplain]
      | some t => cases (hdescription t rfl).1
  | some n =>
      rw [splitHeader, takeHeader_headerChars (hname n rfl) (fun t ht => (hdescription t ht).2) hblank (hfeed rfl)]
      rfl

theorem splitCondition_conditionChars {condition : Option String} (hs : Passes s)
    (h : ∀ t ∈ condition, IsTrim t.toList) :
    splitCondition ('(' :: (s ++ [')']) ++ conditionChars condition) =
      ('(' :: (s ++ [')']), condition.map String.toList) := by
  rw [splitCondition, cutWhen_tail hs]
  cases condition with
  | none => simp [conditionChars]
  | some t =>
      simp only [Option.map_some, stripChars_append_space isTrim_enclosed, stripChars_space_cons (h t rfl)]

/-- **What is written on a line is read from it**, if the three cuts are where the parts meet. -/
theorem parse_written {source : String} {name description condition : Option String} {left right : List Char}
    (hsource : source.toList = headerChars name description ++ ('(' :: (left ++ [')']) ++
      ' ' :: ("=>".toList ++ ' ' :: ('(' :: (right ++ [')']) ++ conditionChars condition))))
    (hname : ∀ n ∈ name, n ≠ "" ∧ ∀ c ∈ n.toList, isNameChar c = true)
    (hdescription : ∀ t ∈ description, name.isSome = true ∧ t ≠ "" ∧ '"' ∉ t.toList)
    (hleft : cutFirst "=>".toList ('(' :: (left ++ [')'])) = none) (hright : Passes right)
    (hcondition : ∀ t ∈ condition, t ≠ "" ∧ IsTrim t.toList)
    (hfeed : name.isSome = true → '\n' ∉ left ∧ '\n' ∉ right ∧ ∀ t ∈ condition, '\n' ∉ t.toList) :
    parse source = .ok (some
      { name, description, lhs := String.ofList ('(' :: (left ++ [')'])),
        rhs := String.ofList ('(' :: (right ++ [')'])), condition }) := by
  have htail := isTrim_tail (s := right) hcondition
  have hsplit := splitCondition_conditionChars hright fun t ht => (hcondition t ht).2
  have hne : '(' :: (right ++ [')']) ++ conditionChars condition ≠ [] := List.cons_ne_nil _ _
  have hfeeds : name.isSome = true → '\n' ∉ conditionChars condition := by
    intro hname
    cases condition with
    | none => simp [conditionChars]
    | some t => simpa [conditionChars] using (hfeed hname).2.2 t rfl
  have hheader := splitHeader_headerChars (c := '(') (left ++ [')'] ++ ' ' :: ("=>".toList ++ ' ' ::
      ('(' :: (right ++ [')']) ++ conditionChars condition))) hname hdescription (by decide) (by decide)
    fun h => by simp [hfeed h, hfeeds h]
  generalize '(' :: (right ++ [')']) ++ conditionChars condition = rest at *
  have hcut := cutFirst_across (c := ' ') (by simp) (by decide) hleft ("=>".toList ++ ' ' :: rest)
  rw [cutFirst_self (by simp), Option.map_some] at hcut
  have hlast : ∀ c, (')' :: ' ' :: ("=>".toList ++ ' ' :: rest)).getLast? = some c → isBlank c = false := by
    intro c hc
    rw [show ')' :: ' ' :: ("=>".toList ++ ' ' :: rest) = ") => ".toList ++ rest from rfl,
      List.getLast?_append_of_ne_nil _ hne] at hc
    exact htail.last c hc
  have hstrip : stripChars source.toList = source.toList := by
    have hwhole : source.toList =
        headerChars name description ++ '(' :: (left ++ ')' :: ' ' :: ("=>".toList ++ ' ' :: rest)) := by
      rw [hsource]
      simp
    exact stripChars_of_isTrim (hwhole ▸ isTrim_line (List.cons_ne_nil _ _) hlast)
  obtain ⟨c, chars, hchars, hc⟩ := exists_first name description
    (left ++ [')'] ++ ' ' :: ("=>".toList ++ ' ' :: rest))
  have hlhs : stripChars ('(' :: (left ++ [')']) ++ [' ']) = '(' :: (left ++ [')']) :=
    stripChars_append_space isTrim_enclosed
  have hrest : stripChars (' ' :: rest) = rest := stripChars_space_cons htail
  rw [List.cons_append, hchars] at hsource
  rw [hchars] at hheader
  have hparse := parse_of_cuts (hstrip.trans hsource) (by rcases hc with rfl | rfl <;> decide) hheader hcut
    (hrest.symm ▸ hsplit) (by rw [hlhs]; exact List.cons_ne_nil _ _) (List.cons_ne_nil _ _)
  rw [hlhs] at hparse
  simpa [Function.comp_def] using hparse

end RuleLine

/-! ## Rules -/

namespace Rule

open RuleLine Text

variable {r : Rule} {name description : Option String}

/-- A rule of applications whose name, description and condition, if it has any, stand in a line without being
taken for something else. -/
structure IsPlain (r : Rule) (name description : Option String) : Prop where
  name_eq : r.name = rawOf name
  name_word : ∀ n ∈ name, n ≠ "" ∧ ∀ c ∈ n.toList, isNameChar c = true
  description_eq : r.description = rawOf description
  description_quoted : ∀ t ∈ description, name.isSome = true ∧ t ≠ "" ∧ '"' ∉ t.toList
  lhs : r.lhs.isApplication = true
  rhs : r.rhs.isApplication = true
  condition : ∀ t ∈ r.conditionText, t ≠ "" ∧ IsTrim t.toList ∧ '\n' ∉ t.toList
  guard : r.conditionText = none → r.guard = none

/-- No name in a rule holds what the line is cut at. -/
structure HasPlainNames (r : Rule) (name : Option String) : Prop where
  arrow : ∀ n ∈ r.lhs.toRaw.names, Text.contains "=>" n = false
  parentheses : ∀ n ∈ r.rhs.toRaw.names, ∀ c ∈ n.toList, c ≠ '(' ∧ c ≠ ')'
  -- without a header, a line feed is a blank like others
  feeds : name.isSome = true → ∀ n ∈ r.lhs.toRaw.names ++ r.rhs.toRaw.names, '\n' ∉ n.toList

/-- The line of a rule is read as its name, its description, the texts of its sides and its condition. -/
def IsReadBack (r : Rule) (name description : Option String) : Prop :=
  RuleLine.parse r.line = .ok (some
    { name, description, lhs := r.lhs.text, rhs := r.rhs.text, condition := r.conditionText })

theorem line_toList (h : r.IsPlain name description) :
    r.line.toList = headerChars name description ++
      (r.lhs.text.toList ++ (" => ".toList ++ (r.rhs.text.toList ++ conditionChars r.conditionText))) := by
  have hhead : (if r.name.truthy && r.description.truthy then
        "@" ++ r.name.display ++ " \"" ++ r.description.display ++ "\": "
      else if r.name.truthy then "@" ++ r.name.display ++ ": "
      else "").toList = headerChars name description := by
    rw [h.name_eq, h.description_eq]
    cases name with
    | none => rfl
    | some n =>
        have hn := (h.name_word n rfl).1
        cases description with
        | none => simp [rawOf, Raw.truthy, Raw.display, headerChars, hn]
        | some t => simp [rawOf, Raw.truthy, Raw.display, headerChars, hn, (h.description_quoted t rfl).2.1]
  simp only [line, String.toList_append, hhead, List.append_assoc]
  cases ht : r.conditionText with
  | none => simp [h.guard ht, conditionChars]
  | some t => simp [(h.condition t ht).1, conditionChars]

/-- **A rule of plain names is read back from its line.** -/
theorem isReadBack (h : r.IsPlain name description) (hnames : r.HasPlainNames name) :
    r.IsReadBack name description := by
  have harrow : ∀ n ∈ r.lhs.toRaw.names, cutFirst "=>".toList n.toList = none := fun n hn =>
    Option.isNone_iff_eq_none.1 (Option.isSome_eq_false_iff.1 (hnames.arrow n hn))
  obtain ⟨left, hleft, -⟩ := carriesOver_arrow.application h.lhs harrow
  obtain ⟨right, hright, hpasses⟩ := carriesOver_passes.application h.rhs fun n hn =>
    passes_of_forall (hnames.parentheses n hn)
  have hsource : r.line.toList = headerChars name description ++ ('(' :: (left ++ [')']) ++
      ' ' :: ("=>".toList ++ ' ' :: ('(' :: (right ++ [')']) ++ conditionChars r.conditionText))) := by
    rw [line_toList h, hleft, hright]
    rfl
  have hparse := parse_written hsource h.name_word h.description_quoted
    (hleft ▸ carriesOver_arrow.expr r.lhs harrow) hpasses
    (fun t ht => ⟨(h.condition t ht).1, (h.condition t ht).2.1⟩) fun hname => by
      have hfeeds := List.forall_mem_append.1 (hnames.feeds hname)
      have hl := carriesOver_feedless.expr _ hfeeds.1
      have hr := carriesOver_feedless.expr _ hfeeds.2
      rw [hleft] at hl
      rw [hright] at hr
      exact ⟨by simpa using hl, by simpa using hr, fun t ht => (h.condition t ht).2.2⟩
  rwa [← hleft, ← hright, String.ofList_toList, String.ofList_toList] at hparse

/-- A rule whose names, description and condition hold the words that lines are cut at, but where no cut is. -/
def crowded : Rule where
  lhs := .application "when" [.symbol "@_x" none true, .symbol "#" none true] none true
  rhs := .application "G" [.symbol "when" none true, .symbol "a=>b" none true] none true
  name := .name "when-1"
  description := .name "(x => y when: #"
  conditionText := some "(Equal when @_x) when => \" :"

theorem isReadBack_crowded :
    crowded.IsPlain (some "when-1") (some "(x => y when: #") ∧ crowded.HasPlainNames (some "when-1") ∧
      crowded.IsReadBack (some "when-1") (some "(x => y when: #") := by
  have hplain : crowded.IsPlain (some "when-1") (some "(x => y when: #") :=
    { name_eq := rfl
      name_word := by
        rintro n ⟨⟩
        exact ⟨by decide, List.all_eq_true.1 (by decide +kernel)⟩
      description_eq := rfl
      description_quoted := by
        rintro t ⟨⟩
        exact ⟨rfl, by decide, by decide⟩
      lhs := rfl
      rhs := rfl
      condition := by
        rintro t ⟨⟩
        exact ⟨by decide, ⟨by rintro c ⟨⟩; decide, by rintro c ⟨⟩; decide⟩, by decide⟩
      guard := fun h => by cases h }
  have hleft : crowded.lhs.toRaw.names = ["when", "@_x", "#"] := rfl
  have hright : crowded.rhs.toRaw.names = ["G", "when", "a=>b"] := rfl
  have hnames : crowded.HasPlainNames (some "when-1") :=
    { arrow := by decide
      parentheses := by simp [hright]
      feeds := by simp [hleft, hright] }
  exact ⟨hplain, hnames, isReadBack hplain hnames⟩

/-- A plain rule of plain operators and symbols on the left that is not read back. -/
structure IsLost (r : Rule) (name : Option String) : Prop where
  isPlain : r.IsPlain name none
  arrow : ∀ n, r.lhs.mentions n = true → Text.contains "=>" n = false
  lost : ¬ r.IsReadBack name none

theorem not_isReadBack {l : RuleLine} (h : RuleLine.parse r.line = .ok (some l))
    (hne : l.rhs ≠ r.rhs.text) : ¬ r.IsReadBack name description := by
  intro hr
  rw [IsReadBack, h, Except.ok.injEq, Option.some.injEq] at hr
  exact hne (congrArg RuleLine.rhs hr)

/-- A parenthesis in a name can end the replacement before a word `when` in it. -/
def unpaired : Rule where
  lhs := .application "F" [.symbol "_x" none true] none true
  rhs := .application "G" [.symbol ") when y" none true] none true

/-- A line feed in a name ends the line behind a header. -/
def unfinished : Rule where
  lhs := .application "F" [.symbol "_x" none true] none true
  rhs := .application "G" [.symbol "a\nb" none true] none true
  name := .name "n"

/-- The code of an error can hold the sign between the sides. -/
def misdirected : Rule where
  lhs := .application "F" [.error "a=>b" [] none] none true
  rhs := .application "G" [.symbol "_x" none true] none true

theorem unpaired_isLost : unpaired.IsLost none where
  isPlain := ⟨rfl, by simp, rfl, by simp, rfl, rfl, by simp [unpaired], fun _ => rfl⟩
  arrow n hn := by
    have hmentioned : "F" = n ∨ "_x" = n := by simpa [unpaired, Expr.mentions, Expr.anyMentions] using hn
    rcases hmentioned with rfl | rfl <;> decide
  lost := not_isReadBack
    (l := { lhs := "(F _x)", rhs := "(G )", condition := some "y)" }) rfl (by decide)

set_option maxRecDepth 2000 in
theorem unfinished_isLost : unfinished.IsLost (some "n") where
  isPlain := by
    refine ⟨rfl, ?_, rfl, by simp, rfl, rfl, by simp [unfinished], fun _ => rfl⟩
    rintro n ⟨⟩
    exact ⟨by decide, List.all_eq_true.1 (by decide +kernel)⟩
  arrow n hn := by
    have hmentioned : "F" = n ∨ "_x" = n := by simpa [unfinished, Expr.mentions, Expr.anyMentions] using hn
    rcases hmentioned with rfl | rfl <;> decide
  lost := not_isReadBack (l := { name := some "n", lhs := "(F _x)", rhs := "(G a" }) rfl (by decide)

theorem misdirected_isLost : misdirected.IsLost none where
  isPlain := ⟨rfl, by simp, rfl, by simp, rfl, rfl, by simp [misdirected], fun _ => rfl⟩
  arrow n hn := by
    have hmentioned : "F" = n := by simpa [misdirected, Expr.mentions, Expr.anyMentions] using hn
    rcases hmentioned with rfl
    decide
  lost := not_isReadBack (l := { lhs := "(F (Error a", rhs := "b)) => (G _x)" }) rfl (by decide)

theorem isPlain_not_isReadBack :
    unpaired.IsLost none ∧ unfinished.IsLost (some "n") ∧ misdirected.IsLost none :=
  ⟨unpaired_isLost, unfinished_isLost, misdirected_isLost⟩

end Rule

end SymbolicAlgebra
