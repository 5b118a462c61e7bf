import Mathlib.Data.List.Perm.Basic
import SymbolicAlgebra.Definition.Record

/-!
# Proofs/Records — records of fields describe symbols and functions

A record whose flags and signature are of their kinds describes a symbol or a function, or it is refused as a
definition, whatever its other fields hold.  There is one gap: a record without function markers is taken for
a function by its first field that is not one of symbols, and the fields behind it are not looked at, so a
field that functions do not take is met as a wrong argument (`Record.isOverlooked`).

The order of the fields decides which fault is reported, and nothing else: a record describes the same
definition in any order of its fields (`Definition.toOption_ofRecord_perm`).
-/

namespace SymbolicAlgebra

namespace Record

variable {r r' : Record}

/-- Whether function definitions take a field. -/
def isTaken (field : String) : Bool := functionFields.contains field || field == "inferred"

/-- Whether a record has a field that marks it as a function. -/
def isMarked (r : Record) : Bool := functionMarkers.any r.has

/-- Whether a record without function markers is taken for a function, but has a field that functions do not
take. -/
def isOverlooked (r : Record) : Bool :=
  !r.isMarked && (Definition.decisiveField? r).any functionFields.contains && r.any fun p => !isTaken p.1

/-- The fields that are read as data of a kind of their own hold data of that kind, or nothing. -/
structure IsDocumented (r : Record) : Prop where
  flags : r.get "flags" = .null ∨ ∃ entries, r.get "flags" = .flags entries
  signature : r.get "signature" = .null ∨ (∃ text, r.get "signature" = .raw (.name text)) ∨
    ∃ s, r.get "signature" = .signature s

end Record

namespace Definition

open Record

variable {α β : Type} {name : String} {r r' : Record}

/-! ## Faults of definitions -/

/-- The outcome is a result, or a fault of a definition. -/
def IsClassified (x : Except Fault α) : Prop := ∀ f, x = .error f → ∃ g, f = .definition g

theorem isClassified_ok (a : α) : IsClassified (Except.ok a) := fun _ h => by cases h

theorem isClassified_error (g : DefinitionFault) :
    IsClassified (Except.error (.definition g) : Except Fault α) := fun _ h => by
  cases h
  exact ⟨g, rfl⟩

theorem IsClassified.bind {x : Except Fault α} {f : α → Except Fault β} (hx : IsClassified x)
    (hf : ∀ a, IsClassified (f a)) : IsClassified (x >>= f) := by
  cases x with
  | ok a => exact hf a
  | error e =>
      obtain ⟨g, rfl⟩ := hx e rfl
      exact isClassified_error g

theorem isClassified_flagsOf {d : Datum} (h : d = .null ∨ ∃ entries, d = .flags entries) :
    IsClassified (flagsOf d) := by
  rcases h with rfl | ⟨entries, rfl⟩
  · exact isClassified_ok _
  · unfold flagsOf
    simp only
    split
    · exact isClassified_ok _
    · exact isClassified_error _

theorem isClassified_ofSymbolRecord (h : r.get "flags" = .null ∨ ∃ entries, r.get "flags" = .flags entries) :
    IsClassified (ofSymbolRecord name r) := by
  unfold ofSymbolRecord
  simp only
  split
  · exact (isClassified_flagsOf h).bind fun _ => isClassified_ok _
  · split
    · exact (isClassified_flagsOf h).bind fun _ => isClassified_ok _
    · exact isClassified_error _
  · exact isClassified_error _

theorem isClassified_callbackOf (field : String) : IsClassified (callbackOf r field) := by
  unfold callbackOf
  split
  · exact isClassified_ok _
  · split
    · exact isClassified_ok _
    · exact isClassified_error _

theorem isClassified_signatureOf {inferred : Bool} {d : Datum}
    (h : d = .null ∨ (∃ text, d = .raw (.name text)) ∨ ∃ s, d = .signature s) :
    IsClassified (signatureOf name inferred d) := by
  rcases h with rfl | ⟨text, rfl⟩ | ⟨s, rfl⟩
  · exact isClassified_ok _
  · unfold signatureOf
    simp only
    split
    · exact isClassified_ok _
    · exact isClassified_error _
  · exact isClassified_ok _

/-- **A function record fails for a field that functions do not take**, or as a definition. -/
theorem ofFunctionRecord_cases
    (h : r.get "signature" = .null ∨ (∃ text, r.get "signature" = .raw (.name text)) ∨
      ∃ s, r.get "signature" = .signature s) :
    (r.any (fun p => !isTaken p.1) = true ∧ ofFunctionRecord name r = .error .wrongArguments) ∨
      r.any (fun p => !isTaken p.1) = false ∧ IsClassified (ofFunctionRecord name r) := by
  unfold ofFunctionRecord
  simp only
  split
  next htaken => exact .inl ⟨htaken, rfl⟩
  next htaken =>
    refine .inr ⟨Bool.eq_false_iff.2 htaken, ?_⟩
    refine (isClassified_callbackOf "type").bind fun type => ?_
    refine (isClassified_callbackOf "sgn").bind fun sign => ?_
    refine (isClassified_callbackOf "evaluate").bind fun evaluate => ?_
    refine (isClassified_callbackOf "canonical").bind fun canonical => ?_
    split
    · exact (isClassified_signatureOf h).bind fun _ => isClassified_ok _
    · exact isClassified_error _

theorem isTaken_of_contains {field : String} (h : functionFields.contains field = true) :
    isTaken field = true := by rw [isTaken, h, Bool.true_or]

/-- A record with function markers is classified. -/
theorem isClassified_of_isMarked (h : r.IsDocumented) (hmarked : r.isMarked = true) :
    IsClassified (ofRecord name r) := by
  unfold isMarked at hmarked
  unfold ofRecord
  simp only [hmarked, ↓reduceIte]
  -- a constant, a field of symbols beside one of functions, an unknown field
  split
  next => exact isClassified_error _
  next =>
    split
    next =>
      split
      · exact isClassified_error _
      · split <;> exact isClassified_error _
    next =>
      split
      next => exact isClassified_error _
      next hnone =>
        refine IsClassified.bind ?_ fun _ => isClassified_ok _
        refine (ofFunctionRecord_cases h.signature).elim (fun hwrong => ?_) And.right
        obtain ⟨p, hp, htaken⟩ := List.any_eq_true.1 hwrong.1
        have hfield : functionFields.contains p.1 = true := by simpa using List.find?_eq_none.1 hnone p hp
        rw [isTaken_of_contains hfield] at htaken
        cases htaken

/-- A record without function markers describes what its first field says that is not one of symbols. -/
theorem ofRecord_of_not_isMarked (hmarked : r.isMarked = false) :
    ofRecord name r = match decisiveField? r with
      | none => do return .symbol (← ofSymbolRecord name r)
      | some k =>
          if functionFields.contains k then do return .function (← ofFunctionRecord name r)
          else .error (.definition (.unknownField k name)) := by
  unfold isMarked at hmarked
  unfold ofRecord
  simp only [hmarked, Bool.false_eq_true, ↓reduceIte]
  rfl

theorem isOverlooked_of_decisive {k : String} (hmarked : r.isMarked = false)
    (hfield : decisiveField? r = some k) :
    r.isOverlooked = (functionFields.contains k && r.any fun p => !isTaken p.1) := by
  rw [isOverlooked, hmarked, hfield, Option.any_some, Bool.not_false, Bool.true_and]

/-- **A record is classified**, unless a field of it is overlooked. -/
theorem ofRecord_cases (h : r.IsDocumented) :
    (r.isOverlooked = true ∧ ofRecord name r = .error .wrongArguments) ∨
      r.isOverlooked = false ∧ IsClassified (ofRecord name r) := by
  cases hmarked : r.isMarked with
  | true => exact .inr ⟨by simp [isOverlooked, hmarked], isClassified_of_isMarked h hmarked⟩
  | false =>
      rw [ofRecord_of_not_isMarked hmarked]
      cases hfield : decisiveField? r with
      | none =>
          refine .inr ⟨by simp [isOverlooked, hfield], ?_⟩
          exact (isClassified_ofSymbolRecord h.flags).bind fun _ => isClassified_ok _
      | some k =>
          rw [isOverlooked_of_decisive hmarked hfield]
          simp only
          split
          next hfunction =>
            rw [hfunction, Bool.true_and]
            refine (ofFunctionRecord_cases h.signature).imp (fun hwrong => ⟨hwrong.1, ?_⟩) fun hright =>
              ⟨hright.1, hright.2.bind fun _ => isClassified_ok _⟩
            rw [hwrong.2]
            rfl
          next hunknown =>
            rw [Bool.not_eq_true] at hunknown
            exact .inr ⟨by rw [hunknown, Bool.false_and], isClassified_error _⟩

/-! ## What a record describes -/

theorem toOption_bind {x : Except Fault α} {f : α → β} :
    (do return f (← x) : Except Fault β).toOption = x.toOption.map f := by
  cases x <;> rfl

/-- **A record with function markers describes a function**, if it has no other fields than functions. -/
theorem toOption_ofRecord_of_isMarked (hmarked : r.isMarked = true) :
    (ofRecord name r).toOption =
      if r.has "constant" || (r.has "value" || r.has "flags") ||
          r.any fun p => !functionFields.contains p.1 then none
      else (ofFunctionRecord name r).toOption.map .function := by
  unfold isMarked at hmarked
  unfold ofRecord
  simp only [hmarked, ↓reduceIte]
  cases hconstant : r.has "constant" with
  | true => rfl
  | false =>
      cases hmixed : r.has "value" || r.has "flags" with
      | true =>
          simp only [Bool.false_eq_true, ↓reduceIte, Bool.true_or, Bool.or_true]
          split
          · rfl
          · split <;> rfl
      | false =>
          simp only [Bool.false_eq_true, ↓reduceIte, Bool.false_or]
          cases hfind : r.find? fun p => !functionFields.contains p.1 with
          | some p =>
              have hnot := List.find?_some (p := fun p : String × Datum => !functionFields.contains p.1) hfind
              have hany : (r.any fun p => !functionFields.contains p.1) = true :=
                List.any_eq_true.2 ⟨p, List.mem_of_find?_eq_some hfind, hnot⟩
              rw [if_pos hany]
              rfl
          | none =>
              have hany : ¬(r.any fun p => !functionFields.contains p.1) = true := by
                simpa using hfind
              rw [if_neg hany]
              exact toOption_bind

/-- A field that is neither one of symbols nor one of functions is taken by neither. -/
theorem isTaken_eq_false {field : String} (hsymbol : symbolFields.contains field = false)
    (hfunction : functionFields.contains field = false) : isTaken field = false := by
  have hinferred : field ≠ "inferred" := by
    rintro rfl
    cases hsymbol
  rw [isTaken, hfunction, Bool.false_or, beq_eq_false_iff_ne]
  exact hinferred

/-- **A record without function markers describes a symbol** if it has fields of symbols only, and a function
if functions take all its fields. -/
theorem toOption_ofRecord_of_not_isMarked (hmarked : r.isMarked = false) :
    (ofRecord name r).toOption =
      if r.any fun p => !symbolFields.contains p.1 then
        if r.any fun p => !isTaken p.1 then none
        else (ofFunctionRecord name r).toOption.map .function
      else (ofSymbolRecord name r).toOption.map .symbol := by
  rw [ofRecord_of_not_isMarked hmarked]
  unfold decisiveField?
  cases hfind : r.find? fun p => !symbolFields.contains p.1 with
  | none =>
      have hany : ¬(r.any fun p => !symbolFields.contains p.1) = true := by simpa using hfind
      rw [if_neg hany]
      exact toOption_bind
  | some p =>
      have hmem := List.mem_of_find?_eq_some hfind
      have hsymbol := List.find?_some hfind
      rw [if_pos (List.any_eq_true.2 ⟨p, hmem, hsymbol⟩)]
      simp only [Option.map_some]
      split
      next hfunction =>
        rw [toOption_bind]
        split
        next hany =>
          have hwrong : ofFunctionRecord name r = .error .wrongArguments := by
            unfold isTaken at hany
            unfold ofFunctionRecord
            simp only [hany, ↓reduceIte]
            rfl
          rw [hwrong]
          rfl
        next => rfl
      next hfunction =>
        have htaken := isTaken_eq_false (by simpa using hsymbol) (Bool.eq_false_iff.2 hfunction)
        rw [if_pos (List.any_eq_true.2 ⟨p, hmem, by rw [htaken]; rfl⟩)]
        rfl

end Definition

/-! ## The order of the fields -/

namespace Record

variable {r r' : Record} {field : String}

theorem lookup_eq_some_iff {d : Datum} (hdistinct : (r.map Prod.fst).Nodup) :
    r.lookup field = some d ↔ (field, d) ∈ r := by
  induction r with
  | nil => simp
  | cons p rest ih =>
      obtain ⟨k, d'⟩ := p
      rw [List.map_cons, List.nodup_cons] at hdistinct
      rw [List.lookup_cons, List.mem_cons, Prod.mk.injEq]
      by_cases hfield : field = k
      · subst hfield
        have habsent : (field, d) ∉ rest := fun hmem => hdistinct.1 (List.mem_map.2 ⟨_, hmem, rfl⟩)
        simp [habsent, eq_comm]
      · simp [hfield, beq_eq_false_iff_ne.2 hfield, ih hdistinct.2]

/-- **Fields are found in any order**, if there is one of each name. -/
theorem lookup_perm (hdistinct : (r.map Prod.fst).Nodup) (hperm : r.Perm r') (field : String) :
    r'.lookup field = r.lookup field := by
  have hdistinct' : (r'.map Prod.fst).Nodup := (hperm.map Prod.fst).nodup_iff.1 hdistinct
  refine Option.ext fun d => ?_
  rw [lookup_eq_some_iff hdistinct', lookup_eq_some_iff hdistinct, hperm.mem_iff]

end Record

namespace Definition

open Record

variable {name : String} {r r' : Record}

section Order

variable (hdistinct : (r.map Prod.fst).Nodup) (hperm : r.Perm r')

include hdistinct hperm

theorem getD_perm (field : String) (d : Datum) : r'.getD field d = r.getD field d := by
  rw [getD, getD, lookup_perm hdistinct hperm]

theorem get_perm (field : String) : r'.get field = r.get field := getD_perm hdistinct hperm field .null

theorem ofSymbolRecord_perm : ofSymbolRecord name r' = ofSymbolRecord name r := by
  unfold ofSymbolRecord
  rw [get_perm hdistinct hperm, get_perm hdistinct hperm, get_perm hdistinct hperm,
    get_perm hdistinct hperm, get_perm hdistinct hperm, getD_perm hdistinct hperm]

theorem ofFunctionRecord_perm : ofFunctionRecord name r' = ofFunctionRecord name r := by
  have hany : (List.any r' fun p => !(functionFields.contains p.1 || p.1 == "inferred")) =
      List.any r fun p => !(functionFields.contains p.1 || p.1 == "inferred") := hperm.symm.any_eq
  unfold ofFunctionRecord callbackOf
  simp only [get_perm hdistinct hperm, getD_perm hdistinct hperm, hany]

end Order

/-- **A record describes the same definition in any order of its fields**, or none in any order. -/
theorem toOption_ofRecord_perm (hdistinct : (r.map Prod.fst).Nodup) (hperm : r.Perm r') :
    (ofRecord name r').toOption = (ofRecord name r).toOption := by
  have hany : ∀ p : String × Datum → Bool, List.any r' p = List.any r p := fun p => hperm.symm.any_eq
  have hhas : ∀ field, r'.has field = r.has field := fun field => hany _
  have hmarked : r'.isMarked = r.isMarked := congrArg functionMarkers.any (funext hhas)
  cases h : r.isMarked with
  | true =>
      rw [toOption_ofRecord_of_isMarked h, toOption_ofRecord_of_isMarked (hmarked.trans h), hhas, hhas, hhas,
        hany, ofFunctionRecord_perm hdistinct hperm]
  | false =>
      rw [toOption_ofRecord_of_not_isMarked h, toOption_ofRecord_of_not_isMarked (hmarked.trans h), hany, hany,
        ofFunctionRecord_perm hdistinct hperm, ofSymbolRecord_perm hdistinct hperm]

/-- **Records are classified.**  A record whose flags and signature are of their kinds describes a definition
or is refused with a fault of definitions, unless it has a field that is overlooked: then it is refused with a
wrong argument.  Any reordering of its fields describes the same definition, or none if it describes none. -/
theorem ofRecord_classified (h : r.IsDocumented) :
    (r.isOverlooked = false → (∃ d, ofRecord name r = .ok d) ∨
      ∃ f, ofRecord name r = .error (.definition f)) ∧
    (r.isOverlooked = true → ofRecord name r = .error .wrongArguments) ∧
    ((r.map Prod.fst).Nodup → ∀ r', r.Perm r' →
      (ofRecord name r').toOption = (ofRecord name r).toOption) := by
  refine ⟨fun hseen => ?_, fun hmissed => ?_, fun hdistinct r' => toOption_ofRecord_perm hdistinct⟩
  · have hclassified : IsClassified (ofRecord name r) :=
      (ofRecord_cases h).elim (fun hmissed => Bool.noConfusion (hseen.symm.trans hmissed.1)) And.right
    cases hrun : ofRecord name r with
    | ok d => exact .inl ⟨d, rfl⟩
    | error f =>
        obtain ⟨g, rfl⟩ := hclassified f hrun
        exact .inr ⟨g, rfl⟩
  · exact (ofRecord_cases h).elim And.right fun hseen => Bool.noConfusion (hseen.1.symm.trans hmissed)

/-- A symbol with a value and flags is classified, and a function with a signature in any order of its
fields. -/
theorem ofRecord_classified_symbol_function :
    ((∃ d, ofRecord "q" [("value", .raw (.int 3)), ("flags", .flags [("odd", some true)])] = .ok d) ∨
      ∃ f, ofRecord "q" [("value", .raw (.int 3)), ("flags", .flags [("odd", some true)])] =
        .error (.definition f)) ∧
    (ofRecord "f" [("lazy", .ofBool true), ("signature", .raw (.name "(real) -> real"))]).toOption =
      (ofRecord "f" [("signature", .raw (.name "(real) -> real")), ("lazy", .ofBool true)]).toOption :=
  ⟨(ofRecord_classified ⟨.inr ⟨_, rfl⟩, .inl rfl⟩).1 (by decide),
    (ofRecord_classified ⟨.inl rfl, .inr (.inl ⟨_, rfl⟩)⟩).2.2 (by decide) _ (.swap ..)⟩

/-- **A field is overlooked**: an unknown field, or the value of a symbol, is met as a wrong argument behind a
field that only functions have, and refused as a definition, or read, in front of it. -/
theorem overlooked_field_is_wrongArgument :
    ofRecord "f" [("lazy", .ofBool true), ("foo", .raw (.int 3))] = .error .wrongArguments ∧
    ofRecord "f" [("foo", .raw (.int 3)), ("lazy", .ofBool true)] =
      .error (.definition (.unknownField "foo" "f")) ∧
    ofRecord "f" [("lazy", .ofBool true), ("value", .raw (.int 3))] = .error .wrongArguments ∧
    IsDocumented [("lazy", .ofBool true), ("foo", .raw (.int 3))] ∧
    IsDocumented [("lazy", .ofBool true), ("value", .raw (.int 3))] :=
  ⟨rfl, rfl, rfl, ⟨.inl rfl, .inl rfl⟩, ⟨.inl rfl, .inl rfl⟩⟩

end Definition

end SymbolicAlgebra
