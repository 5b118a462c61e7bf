import SymbolicAlgebra.Proofs.TextPieces
import SymbolicAlgebra.Types.Signature

/-!
# Proofs/SignatureText — signatures are read back from their texts

A signature whose types all belong to the lattice is read back from its text (`Signature.parse_text`): the
names of these types are words of small letters, so nothing in them is taken for a blank, a mark or an end.

What is read has such types, but for one slip: a rest parameter may be read without a name, as in `(...)`.
It is not written, so the signature that is read back has none; every other signature that was read is read
back as itself (`Signature.text_readBack`).
-/

namespace SymbolicAlgebra

/-! ## Names of types -/

namespace TypeName

variable {t : TypeName}

/-- A word of small letters. -/
def IsWord (s : List Char) : Prop := s ≠ [] ∧ ∀ c ∈ s, c.isLower = true

/-- **The types of the lattice have words for names**, and their names stand for them. -/
theorem isWord_name (h : t.isKnown = true) : IsWord t.name.toList := by
  cases t with
  | other n => cases h
  | _ => exact ⟨by decide, List.all_eq_true.1 (by decide)⟩

theorem ofName_name (h : t.isKnown = true) : ofName t.name = t := by
  cases t with
  | other n => cases h
  | _ => decide

/-- A small letter is not blank, and no other character than a small letter. -/
theorem not_isBlank_of_isLower {c : Char} (h : c.isLower = true) : Text.isBlank c = false := by
  have hbounds : (decide (97 ≤ c.val) && decide (c.val ≤ 122)) = true := h
  have hrange : 97 ≤ c.val ∧ c.val ≤ 122 := by simpa using hbounds
  have hc : 97 ≤ c.toNat ∧ c.toNat ≤ 122 :=
    ⟨UInt32.le_iff_toNat_le.1 hrange.1, UInt32.le_iff_toNat_le.1 hrange.2⟩
  exact Text.not_isBlank_of_range (by omega) (by omega)

theorem IsWord.not_mem {s : List Char} (h : IsWord s) {c : Char} (hc : c.isLower = false) : c ∉ s :=
  fun hmem => Bool.false_ne_true (hc.symm.trans (h.2 c hmem))

theorem IsWord.isTrim {s : List Char} (h : IsWord s) : Text.IsTrim s where
  first c hc := not_isBlank_of_isLower (h.2 c (List.mem_of_head? hc))
  last c hc := not_isBlank_of_isLower (h.2 c (List.mem_of_getLast? hc))

end TypeName

/-! ## Parameters -/

namespace Signature

open Text

/-- A parameter as it is written, by its kind. -/
def requiredText (t : TypeName) : List Char := t.name.toList

def optionalText (t : TypeName) : List Char := t.name.toList ++ ['?']

def restText (t : TypeName) : List Char := ['.', '.', '.'] ++ t.name.toList

section Parameters

variable {text : String} {required optional types : List TypeName} {rest : Option TypeName}
  {t : TypeName}

theorem ofName_stripChars (h : t.isKnown = true) :
    TypeName.ofName (String.ofList (stripChars t.name.toList)) = t := by
  rw [stripChars_of_isTrim (TypeName.isWord_name h).isTrim, String.ofList_toList, TypeName.ofName_name h]

/-- The name of a type does not start with dots. -/
theorem not_dots_prefix (h : t.isKnown = true) (s : List Char) :
    ¬['.', '.', '.'] <+: t.name.toList ++ s := by
  intro hdots
  have hword := TypeName.isWord_name h
  obtain ⟨c, name, hname⟩ := List.exists_cons_of_ne_nil hword.1
  rw [hname, List.cons_append, List.cons_prefix_cons] at hdots
  exact hword.not_mem (c := '.') (by decide) (by rw [hname, ← hdots.1]; simp)

theorem read_required (h : t.isKnown = true) :
    Parameters.read text { required } (requiredText t) = .ok { required := required ++ [t] } := by
  have hdots := not_dots_prefix h []
  rw [List.append_nil] at hdots
  have hlast : t.name.toList.getLast? ≠ some '?' := fun hlast =>
    (TypeName.isWord_name h).not_mem (by decide) (List.mem_of_getLast? hlast)
  simp [Parameters.read, requiredText, hdots, hlast, ofName_stripChars h]

theorem read_optional (h : t.isKnown = true) :
    Parameters.read text { required, optional } (optionalText t) =
      .ok { required, optional := optional ++ [t] } := by
  simp [Parameters.read, optionalText, not_dots_prefix h, ofName_stripChars h]

theorem read_rest (h : t.isKnown = true) :
    Parameters.read text { required, optional } (restText t) =
      .ok { required, optional, rest := some t } := by
  simp [Parameters.read, restText, ofName_stripChars h]

/-- Parameters of one kind are read one after the other. -/
theorem foldlM_read {write : TypeName → List Char} (add : List TypeName → Parameters)
    (h : ∀ t ∈ types, ∀ before, Parameters.read text (add before) (write t) = .ok (add (before ++ [t])))
    (before : List TypeName) :
    (types.map write).foldlM (Parameters.read text) (add before) = .ok (add (before ++ types)) := by
  induction types generalizing before with
  | nil =>
      rw [List.append_nil]
      rfl
  | cons t types ih =>
      rw [List.forall_mem_cons] at h
      have hnext := ih h.2 (before ++ [t])
      rw [List.append_assoc, List.singleton_append] at hnext
      rw [List.map_cons, List.foldlM_cons, h.1]
      exact hnext

/-- The parameters of a signature as they are written. -/
def written (required optional : List TypeName) (rest : Option TypeName) : List (List Char) :=
  required.map requiredText ++ (optional.map optionalText ++ rest.toList.map restText)

/-- **Written parameters are read back.** -/
theorem foldlM_written (hrequired : ∀ t ∈ required, t.isKnown = true)
    (hoptional : ∀ t ∈ optional, t.isKnown = true) (hrest : ∀ t, rest = some t → t.isKnown = true) :
    (written required optional rest).foldlM (Parameters.read text) {} =
      .ok { required, optional, rest } := by
  have h₁ : (required.map requiredText).foldlM (Parameters.read text) {} = .ok { required } :=
    foldlM_read (fun ts => { required := ts }) (fun t ht _ => read_required (hrequired t ht)) []
  have h₂ : (optional.map optionalText).foldlM (Parameters.read text) { required } =
      .ok { required, optional } :=
    foldlM_read (fun ts => { required, optional := ts })
      (fun t ht _ => read_optional (hoptional t ht)) []
  have h₃ : (rest.toList.map restText).foldlM (Parameters.read text) { required, optional } =
      .ok { required, optional, rest } := by
    cases rest with
    | none => rfl
    | some t =>
        rw [Option.toList_some, List.map_singleton, List.foldlM_cons, read_rest (hrest t rfl)]
        rfl
  rw [written, List.foldlM_append, h₁]
  exact (List.foldlM_append ..).trans (by rw [h₂]; exact h₃)

theorem mem_written {s : List Char} (h : s ∈ written required optional rest) :
    (∃ t ∈ required, s = requiredText t) ∨ (∃ t ∈ optional, s = optionalText t) ∨
      ∃ t, rest = some t ∧ s = restText t := by
  simpa [written, eq_comm] using h

/-- A written parameter is not empty, has no blanks at its ends, and no comma in it. -/
theorem isPiece_written (hrequired : ∀ t ∈ required, t.isKnown = true)
    (hoptional : ∀ t ∈ optional, t.isKnown = true) (hrest : ∀ t, rest = some t → t.isKnown = true) :
    ∀ s ∈ written required optional rest, (s ≠ [] ∧ IsTrim s) ∧ ',' ∉ s := by
  have hname : ∀ {t : TypeName}, t.isKnown = true →
      t.name.toList ≠ [] ∧ IsTrim t.name.toList ∧ ',' ∉ t.name.toList := fun h =>
    have hword := TypeName.isWord_name h
    ⟨hword.1, hword.isTrim, hword.not_mem (by decide)⟩
  intro s hs
  rcases mem_written hs with ⟨t, ht, rfl⟩ | ⟨t, ht, rfl⟩ | ⟨t, ht, rfl⟩
  · obtain ⟨hne, htrim, hcomma⟩ := hname (hrequired t ht)
    exact ⟨⟨hne, htrim⟩, hcomma⟩
  · obtain ⟨hne, htrim, hcomma⟩ := hname (hoptional t ht)
    exact ⟨⟨by simp [optionalText], htrim.append (isTrim_of_all rfl) hne (by simp) []⟩,
      by simp [optionalText, hcomma]⟩
  · obtain ⟨hne, htrim, hcomma⟩ := hname (hrest t ht)
    have hdots : IsTrim ['.', '.', '.'] := isTrim_of_all rfl
    exact ⟨⟨by simp [restText], hdots.append htrim (by simp) hne []⟩, by simp [restText, hcomma]⟩

end Parameters

/-! ## Signatures -/

/-- All types of a signature belong to the lattice, and its result type is one of them. -/
structure IsKnown (s : Signature) (result : TypeName) : Prop where
  required : ∀ t ∈ s.required, t.isKnown = true
  optional : ∀ t ∈ s.optional, t.isKnown = true
  rest : ∀ t, s.rest = some t → t.isKnown = true
  fixed : s.result = .fixed result
  result : result.isKnown = true

variable {s : Signature} {result : TypeName}

/-- The parameters of a signature, joined. -/
def body (s : Signature) : List Char := [',', ' '].intercalate (written s.required s.optional s.rest)

theorem text_toList (h : s.IsKnown result) :
    s.text.toList = ('(' :: (s.body ++ [')', ' '])) ++ (['-'] ++ '>' :: ' ' :: result.name.toList) := by
  have hrest : s.rest.toList.filter (· != .other "") = s.rest.toList := by
    refine List.filter_eq_self.2 fun t ht => ?_
    rw [bne_iff_ne]
    rintro rfl
    cases h.rest _ (by simpa using ht)
  have hjoined : (s.required.map (·.name) ++ s.optional.map (·.name ++ "?") ++
      s.rest.toList.map ("..." ++ ·.name)).map String.toList = written s.required s.optional s.rest := by
    simp only [written, List.map_append, List.map_map, List.append_assoc, Function.comp_def,
      String.toList_append]
    rfl
  simp only [text, hrest, resultText, h.fixed, ResultRule.fixed?, Option.getD_some, String.toList_append,
    String.toList_intercalate, hjoined, body]
  simp

/-- A text of a signature, cut into its parameter list and its result type. -/
def halves (source : String) : List Char × String :=
  match cutLast "->".toList (stripChars source.toList) with
  | some (before, after) => (stripChars before, String.ofList (stripChars after))
  | none => (stripChars source.toList, "any")

/-- The pieces of a parameter list. -/
def pieces (params : List Char) : List (List Char) :=
  let body := stripChars (params.drop 1).dropLast
  if body.isEmpty then [] else (splitChars (· == ',') body).map stripChars

/-- What is read from a text that is cut in two. -/
theorem parse_eq (source : String) :
    parse source =
      if (halves source).1.head? != some '(' || (halves source).1.getLast? != some ')' then
        .error (.malformed (strip source))
      else if !(TypeName.ofName (halves source).2).isKnown then .error (.unknownResult (halves source).2)
      else
        (pieces (halves source).1).foldlM (Parameters.read (strip source)) {} >>= fun ps =>
          make ps.required ps.optional ps.rest (.fixed (TypeName.ofName (halves source).2)) := by
  have hpieces : ∀ params : List Char, ∀ text : String,
      (if (stripChars (params.drop 1).dropLast).isEmpty then [] else
        splitChars (· == ',') (stripChars (params.drop 1).dropLast)).foldlM
          (fun ps p => Parameters.read text ps (stripChars p)) {} =
        (pieces params).foldlM (Parameters.read text) {} := by
    intro params text
    unfold pieces
    simp only
    split
    · rfl
    · rw [List.foldlM_map]
  unfold parse halves
  simp only [hpieces]
  cases cutLast "->".toList (stripChars source.toList) with
  | none => simp only; split_ifs <;> rfl
  | some halves => simp only; split_ifs <;> rfl

section Known

variable (h : s.IsKnown result)

include h

theorem isTrim_body : (s.body = [] ↔ written s.required s.optional s.rest = []) ∧ IsTrim s.body :=
  isTrim_intercalate fun p hp => (isPiece_written h.required h.optional h.rest p hp).1

/-- The text of a signature is cut behind its parameters. -/
theorem halves_text : halves s.text = ('(' :: (s.body ++ [')']), result.name) := by
  have hname := TypeName.isWord_name h.result
  have hopen : IsTrim ['('] := isTrim_of_all rfl
  have hclose : IsTrim [')'] := isTrim_of_all rfl
  have hblank : ∀ c ∈ [' '], isBlank c = true := List.all_eq_true.1 rfl
  have htext : IsTrim s.text.toList := by
    rw [text_toList h]
    simpa using hopen.append hname.isTrim (by simp) hname.1 (s.body ++ [')', ' ', '-', '>', ' '])
  have hresult : '>' ∉ ' ' :: result.name.toList := by simpa using hname.not_mem (c := '>') (by decide)
  have hbefore : stripChars ('(' :: (s.body ++ [')', ' '])) = '(' :: (s.body ++ [')']) := by
    simpa using stripChars_framed (l := []) (r := [' ']) (by simp)
      (hopen.append hclose (by simp) (by simp) s.body) hblank
  have hafter : stripChars (' ' :: result.name.toList) = result.name.toList := by
    simpa using stripChars_framed (l := [' ']) (r := []) hblank hname.isTrim (by simp)
  rw [halves, stripChars_of_isTrim htext, text_toList h, show "->".toList = ['-'] ++ ['>'] from rfl,
    cutLast_append hresult]
  simp only [hbefore, hafter, String.ofList_toList]

theorem pieces_body : pieces ('(' :: (s.body ++ [')'])) = written s.required s.optional s.rest := by
  obtain ⟨hempty, htrim⟩ := isTrim_body h
  have hwritten := isPiece_written h.required h.optional h.rest
  simp only [pieces, List.drop_one, List.tail_cons, List.dropLast_concat, stripChars_of_isTrim htrim]
  split
  next hnil => exact (hempty.1 (List.isEmpty_iff.1 hnil)).symm
  next hne =>
    refine stripChars_splitChars_intercalate (l := []) (by decide) (fun hnil => hne ?_) (by simp)
      fun p hp => ⟨(hwritten p hp).1.2, (hwritten p hp).2⟩
    exact List.isEmpty_iff.2 (hempty.2 hnil)

theorem make_of_isKnown : make s.required s.optional s.rest (.fixed result) = .ok s := by
  have hknown : ∀ t ∈ s.required ++ s.optional ++ s.rest.toList.filter (· != .other ""),
      ¬(!t.isKnown) = true := by
    intro t ht
    rw [List.mem_append, List.mem_append, List.mem_filter, Option.mem_toList] at ht
    rcases ht with (ht | ht) | ⟨ht, -⟩
    · simp [h.required t ht]
    · simp [h.optional t ht]
    · simp [h.rest t ht]
  rw [make, List.find?_eq_none.2 hknown, ← h.fixed]

/-- **A signature of known types is read back from its text.** -/
theorem parse_text : parse s.text = .ok s := by
  have hlast : ('(' :: (s.body ++ [')'])).getLast? = some ')' := by
    rw [← List.cons_append, List.getLast?_concat]
  rw [parse_eq, halves_text h, if_neg (by simp [hlast]), TypeName.ofName_name h.result,
    if_neg (by simp [h.result]), pieces_body h, foldlM_written h.required h.optional h.rest]
  exact make_of_isKnown h

end Known

/-! ## What is read -/

/-- What is put together has parameters of the lattice, but for a rest parameter without a name. -/
theorem isKnown_of_make {required optional : List TypeName} {rest : Option TypeName} {rule : ResultRule}
    (h : make required optional rest rule = .ok s) :
    s = ⟨required, optional, rest, rule⟩ ∧ (∀ t ∈ required ++ optional, t.isKnown = true) ∧
      ∀ t, rest = some t → t = .other "" ∨ t.isKnown = true := by
  unfold make at h
  simp only at h
  split at h
  next => cases h
  next hnone =>
    cases h
    have hknown := List.find?_eq_none.1 hnone
    refine ⟨rfl, fun t ht => by simpa using hknown t (List.mem_append_left _ ht), fun t ht => ?_⟩
    refine or_iff_not_imp_left.2 fun hname => ?_
    have hmem : t ∈ rest.toList.filter (· != .other "") :=
      List.mem_filter.2 ⟨Option.mem_toList.2 ht, bne_iff_ne.2 hname⟩
    simpa using hknown t (List.mem_append_right _ hmem)

/-- **Every type of a signature that is read belongs to the lattice**, unless it is a rest parameter
without a name. -/
theorem isKnown_of_parse {source : String} (h : parse source = .ok s) :
    (∀ t ∈ s.required ++ s.optional, t.isKnown = true) ∧
      (∀ t, s.rest = some t → t = .other "" ∨ t.isKnown = true) ∧
      ∃ result, s.result = .fixed result ∧ result.isKnown = true := by
  rw [parse_eq] at h
  split_ifs at h with hmalformed hresult
  cases hread : (pieces (halves source).1).foldlM (Parameters.read (strip source)) {} with
  | error f =>
      rw [hread] at h
      cases h
  | ok ps =>
      rw [hread] at h
      obtain ⟨rfl, hparams, hrest⟩ := isKnown_of_make h
      exact ⟨hparams, hrest, _, rfl, by simpa using hresult⟩

/-- A rest parameter without a name is not written. -/
theorem text_of_nameless (h : s.rest = some (.other "")) : s.text = { s with rest := none }.text := by
  simp [text, resultText, h]

/-- **Texts of signatures that were read.**  If a text is read as a signature, its required and optional
parameters and its result have types of the lattice.  The rest parameter, if there is one, has such a type
too, and the signature is read back from its text, just if the rest parameter is not one without a name;
that one is lost when the signature is written. -/
theorem text_readBack {source : String} (h : parse source = .ok s) :
    (∀ t ∈ s.required ++ s.optional, t.isKnown = true) ∧
      (∃ result, s.result = .fixed result ∧ result.isKnown = true) ∧
      ((∀ t, s.rest = some t → t.isKnown = true) ↔ s.rest ≠ some (.other "")) ∧
      (parse s.text = .ok s ↔ s.rest ≠ some (.other "")) ∧
      (s.rest = some (.other "") → parse s.text = .ok { s with rest := none }) := by
  obtain ⟨hparams, hrest, result, hfixed, hresult⟩ := isKnown_of_parse h
  rw [List.forall_mem_append] at hparams
  have hlost : s.rest = some (.other "") → parse s.text = .ok { s with rest := none } := fun hname => by
    rw [text_of_nameless hname]
    exact parse_text ⟨hparams.1, hparams.2, by simp, hfixed, hresult⟩
  have hnamed : (∀ t, s.rest = some t → t.isKnown = true) ↔ s.rest ≠ some (.other "") := by
    refine ⟨fun hknown hname => Bool.noConfusion (hknown _ hname), fun hname t ht => ?_⟩
    exact (hrest t ht).resolve_left fun heq => hname (heq ▸ ht)
  refine ⟨List.forall_mem_append.2 hparams, ⟨result, hfixed, hresult⟩, hnamed, ⟨fun hback hname => ?_,
    fun hname => parse_text ⟨hparams.1, hparams.2, hnamed.2 hname, hfixed, hresult⟩⟩, hlost⟩
  have hdiffer := (hlost hname).symm.trans hback
  rw [Except.ok.injEq, mk.injEq] at hdiffer
  rw [hname] at hdiffer
  cases hdiffer.2.2.1

/-- A signature with a parameter of each kind is read back. -/
theorem text_readBack_full : ∃ s, parse "(real, real?, ...real) -> real" = .ok s ∧ parse s.text = .ok s := by
  have hrun : parse "(real, real?, ...real) -> real" = .ok ⟨[.real], [.real], some .real, .fixed .real⟩ := by
    rfl
  exact ⟨_, hrun, (text_readBack hrun).2.2.2.1.2 (by decide)⟩

/-- **A rest parameter without a name** is read, but not written. -/
theorem nameless_rest_is_lost : ∃ s, parse "(...)" = .ok s ∧ s.rest = some (.other "") ∧
    TypeName.isKnown (.other "") = false ∧ s.text = "() -> any" ∧ parse s.text ≠ .ok s := by
  refine ⟨⟨[], [], some (.other ""), .fixed .any⟩, rfl, rfl, rfl, rfl, ?_⟩
  rw [show parse (text ⟨[], [], some (.other ""), .fixed .any⟩) = .ok ⟨[], [], none, .fixed .any⟩ from rfl]
  simp

end Signature

end SymbolicAlgebra
