import SymbolicAlgebra.Proofs.Overflow
import SymbolicAlgebra.Proofs.Reading

/-!
# Proofs/Printing — shapes that are printed and read back

A decimal is printed with so many digits that it cannot be read as a double, and with a point, so that it
cannot be read as an integer.  Either way of writing it is a *spelling*: digits around a point, and maybe
an exponent (`Decimal.Spells`).  What is spelled is read back digit by digit (`atom_spelled`).

So a shape of integers, decimals, names and lists is read back from its text, with zeros appended to
its decimals (`reading_printed`).
-/

namespace SymbolicAlgebra

/-! ## Digits -/

namespace Text

theorem ne_of_isDigit {c d : Char} (hc : c.isDigit = true) (hd : d.isDigit = false) : c ≠ d := by
  rintro rfl
  rw [hc] at hd
  cases hd

/-- Zeros in front do not count. -/
theorem natOfDigits_zeros (k : ℕ) (s : List Char) :
    natOfDigits (List.replicate k '0' ++ s) = natOfDigits s := by
  induction k with
  | zero => rfl
  | succ k ih => exact ih

theorem natOfDigits_dropZeros (s : List Char) : natOfDigits (s.dropWhile (· == '0')) = natOfDigits s := by
  induction s with
  | nil => rfl
  | cons c s ih =>
      by_cases hc : c = '0'
      · subst hc
        exact ih
      · rw [List.dropWhile_cons_of_neg (by simpa using hc)]

/-- A number is below the power of ten that its digits reach. -/
theorem natOfDigits_lt {s : List Char} (hs : ∀ c ∈ s, c.isDigit = true) :
    natOfDigits s < 10 ^ s.length := by
  have hfold : ∀ n, s.foldl (fun n c => 10 * n + (digitValue? c).getD 0) n < (n + 1) * 10 ^ s.length := by
    induction s with
    | nil => simp
    | cons c s ih =>
        rw [List.forall_mem_cons] at hs
        intro n
        have hc : (digitValue? c).getD 0 < 10 := by
          have hc := hs.1
          simp only [Char.isDigit, Bool.and_eq_true, decide_eq_true_eq, ge_iff_le,
            UInt32.le_iff_toNat_le] at hc
          have hc : c.toNat ≤ 57 := hc.2
          rw [digitValue?_of_isDigit hs.1, Option.getD_some]
          omega
        calc (c :: s).foldl _ n
            < (10 * n + (digitValue? c).getD 0 + 1) * 10 ^ s.length := ih hs.2 _
          _ ≤ (10 * n + 10) * 10 ^ s.length := Nat.mul_le_mul_right _ (by omega)
          _ = (n + 1) * 10 ^ (c :: s).length := by rw [List.length_cons, pow_succ]; ring
  simpa [natOfDigits] using hfold 0

theorem isDigit_digitChars {n : ℕ} : ∀ c ∈ Decimal.digitChars n, c.isDigit = true :=
  fun _ => isDigit_of_mem_digitChars

theorem length_digitChars {n k : ℕ} (h : 10 ^ k ≤ n) : k < (Decimal.digitChars n).length := by
  have hlt := natOfDigits_lt (isDigit_digitChars (n := n))
  rw [natOfDigits_digitChars] at hlt
  exact (Nat.pow_lt_pow_iff_right (by decide)).1 (h.trans_lt hlt)

end Text

open Text

/-! ## Spellings -/

namespace Decimal

/-- Digits around a point, and an exponent if there is one. -/
structure Spelling where
  whole : List Char
  fraction : List Char
  power : Option Int

namespace Spelling

/-- The exponent part of a spelling. -/
def powerChars (p : Spelling) : List Char :=
  match p.power with
  | none => []
  | some x => 'E' :: (signedText x).toList

/-- A spelling as it is written. -/
def chars (p : Spelling) : List Char := p.whole ++ '.' :: (p.fraction ++ p.powerChars)

end Spelling

/-- A spelling of `c · 10 ^ e`. -/
structure Spells (p : Spelling) (c : ℕ) (e : ℤ) : Prop where
  whole : p.whole ≠ []
  digits : ∀ d ∈ p.whole ++ p.fraction, d.isDigit = true
  coefficient : natOfDigits (p.whole ++ p.fraction) = c
  exponent : p.power.getD 0 - p.fraction.length = e

/-- The sign in front of a spelling. -/
def signChars (negative : Bool) : List Char := if negative then ['-'] else []

theorem signedText_toList (x : ℤ) :
    (signedText x).toList = (if x < 0 then '-' else '+') :: digitChars x.natAbs := by
  unfold signedText
  split <;> simp

/-- Scientific notation is a spelling, where there are two digits. -/
theorem scientific_spells {c : ℕ} (hc : 10 ≤ c) (e : ℤ) :
    ∃ p, (scientific (digitChars c) (e + (digitChars c).length - 1)).toList = p.chars ∧ Spells p c e := by
  have hlength := length_digitChars (k := 1) hc
  match hd : digitChars c with
  | [] | [_] =>
      rw [hd] at hlength
      simp at hlength
  | d :: d' :: rest =>
      have hdigits : d :: (d' :: rest) = digitChars c := hd.symm
      refine ⟨⟨[d], d' :: rest, some (e + (d :: d' :: rest).length - 1)⟩, ?_, by simp, ?_, ?_, ?_⟩
      · simp [scientific, Spelling.chars, Spelling.powerChars]
      · rw [List.singleton_append, hdigits]
        exact isDigit_digitChars
      · rw [List.singleton_append, hdigits, natOfDigits_digitChars]
      · simp only [List.length_cons, Option.getD_some]
        omega

/-- Positional notation is a spelling, where there are places behind the point. -/
theorem positional_spells (c : ℕ) {places : ℕ} (hplaces : places ≠ 0) :
    ∃ p, (positional (digitChars c) places).toList = p.chars ∧ Spells p c (-places) := by
  rw [positional, if_neg hplaces, String.toList_ofList]
  generalize hpadded : List.replicate (places + 1 - (digitChars c).length) '0' ++ digitChars c = padded
  have hlength : places < padded.length := by
    rw [← hpadded, List.length_append, List.length_replicate]
    omega
  refine ⟨⟨padded.take (padded.length - places), padded.drop (padded.length - places), none⟩,
    by simp [Spelling.chars, Spelling.powerChars], ?_, ?_, ?_, ?_⟩
  · rw [ne_eq, List.take_eq_nil_iff]
    rintro (h | h)
    · omega
    · rw [h] at hlength
      exact absurd hlength (by simp)
  · rw [List.take_append_drop, ← hpadded]
    intro d hd
    rcases List.mem_append.1 hd with hd | hd
    · rw [List.eq_of_mem_replicate hd]
      rfl
    · exact isDigit_digitChars d hd
  · rw [List.take_append_drop, ← hpadded, natOfDigits_zeros, natOfDigits_digitChars]
  · simp only [Option.getD_none, List.length_drop, zero_sub, neg_inj, Nat.cast_inj]
    omega

/-- **A decimal with two digits is written as a spelling**, unless its exponent is zero. -/
theorem toText_spells (negative : Bool) {c : ℕ} (hc : 10 ≤ c) {e : ℤ} (he : e ≠ 0) :
    ∃ p, (toText (.finite negative c e)).toList = signChars negative ++ p.chars ∧ Spells p c e := by
  have hsign : ∀ body : String, ((if negative then "-" else "") ++ body).toList =
      signChars negative ++ body.toList := by cases negative <;> simp [signChars]
  simp only [toText, hsign]
  split
  next h =>
    obtain ⟨p, hp, hspells⟩ := positional_spells c (show (-e).toNat ≠ 0 by omega)
    rw [show -(((-e).toNat : ℕ) : ℤ) = e by omega] at hspells
    exact ⟨p, by rw [hp], hspells⟩
  next =>
    obtain ⟨p, hp, hspells⟩ := scientific_spells hc e
    exact ⟨p, by rw [hp], hspells⟩

/-- **Scientific notation of a decimal with two digits** is a spelling. -/
theorem toScientific_spells (negative : Bool) {c : ℕ} (hc : 10 ≤ c) (e : ℤ) :
    ∃ p, (toScientific (.finite negative c e)).toList = signChars negative ++ p.chars ∧ Spells p c e := by
  obtain ⟨p, hp, hspells⟩ := scientific_spells hc e
  refine ⟨p, ?_, hspells⟩
  rw [← hp]
  cases negative <;> simp [toScientific, signChars]

/-! ## Numerals -/

/-- Characters that are read as `c · 10 ^ e`, and not as an integer: a digit first, and then digits, points,
signs and exponents. -/
structure IsNumeral (body : List Char) (c : ℕ) (e : ℤ) : Prop where
  head : ∃ d rest, body = d :: rest ∧ d.isDigit = true
  mem : ∀ d ∈ body, d.isDigit = true ∨ d ∈ ['.', 'e', 'E', '-', '+']
  broken : ∃ d ∈ body, isDigit d = false
  read : readUnsigned? body = some (c, e)

namespace IsNumeral

variable {body : List Char} {c : ℕ} {e : ℤ} (h : IsNumeral body c e)

include h

theorem takeSign_signed (negative : Bool) : takeSign (signChars negative ++ body) = (negative, body) := by
  obtain ⟨d, rest, rfl, hd⟩ := h.head
  cases negative with
  | true => rfl
  | false => exact takeSign.eq_3 _ (fun _ heq => by cases heq; cases hd) fun _ heq => by cases heq; cases hd

variable {token : String} {negative : Bool} (htoken : token.toList = signChars negative ++ body)

include htoken

/-- A numeral can stand inside an atom, with its sign. -/
theorem isAtomChar_signed : ∀ d ∈ token.toList, Sexpr.isAtomChar d = true := by
  intro d hd
  rw [htoken, List.mem_append] at hd
  rcases hd with hd | hd
  · cases negative
    · cases hd
    · obtain rfl : d = '-' := by simpa [signChars] using hd
      decide
  · rcases h.mem d hd with hd | hd
    · exact Sexpr.isAtomChar_of_digit (.inr hd)
    · simp only [List.mem_cons, List.not_mem_nil, or_false] at hd
      rcases hd with rfl | rfl | rfl | rfl | rfl <;> decide

theorem isAtom : Sexpr.isAtom token = true := by
  obtain ⟨d, rest, hbody, -⟩ := h.head
  rw [Sexpr.isAtom, Bool.and_eq_true, Bool.not_eq_true', List.isEmpty_eq_false_iff]
  exact ⟨by simp [htoken, hbody], List.all_eq_true.2 (h.isAtomChar_signed htoken)⟩

/-- Readers of numbers find the sign and the numeral. -/
theorem takeSign_stripped :
    takeSign ((stripChars token.toList).filter (· != '_')) = (negative, body) := by
  have hblank : ∀ d ∈ token.toList, isBlank d = false := fun d hd =>
    Sexpr.not_isBlank_of_isAtomChar (h.isAtomChar_signed htoken d hd)
  have hunderscore : token.toList.filter (· != '_') = token.toList := by
    refine List.filter_eq_self.2 fun d hd => bne_iff_ne.2 ?_
    rintro rfl
    rw [htoken, List.mem_append] at hd
    rcases hd with hd | hd
    · cases negative <;> simp [signChars] at hd
    · exact absurd (h.mem _ hd) (by decide)
  rw [stripChars_of_forall hblank, hunderscore, htoken, h.takeSign_signed]

omit htoken

/-- A numeral is no name of a special number: those start with letters. -/
theorem lower_ne (name : List Char) (hname : name.head?.all (fun x => !x.isDigit) = true) (hne : name ≠ []) :
    (body.map Char.toLower == name) = false ∧ name.isPrefixOf (body.map Char.toLower) = false := by
  obtain ⟨d, rest, rfl, hd⟩ := h.head
  have hlower : d.toLower = d := by
    have hd := hd
    simp only [Char.isDigit, Bool.and_eq_true, decide_eq_true_eq, ge_iff_le,
      UInt32.le_iff_toNat_le] at hd
    rw [Char.toLower, dif_neg]
    rintro ⟨hA, -⟩
    have hA : 65 ≤ d.val.toNat := hA
    have hd : d.val.toNat ≤ 57 := hd.2
    omega
  match name, hne with
  | x :: name, _ =>
      have hx : x.isDigit = false := by simpa using hname
      have hdx : (d == x) = false := beq_eq_false_iff_ne.2 (ne_of_isDigit hd hx)
      rw [List.map_cons, hlower]
      exact ⟨congrArg (· && _) hdx, congrArg (· && _) (Bool.beq_comm.trans hdx)⟩

include htoken

/-- **A numeral is read as its decimal**, with its sign in front. -/
theorem ofText?_eq (hc : c ≠ 0) (hmin : minReadExponent ≤ e)
    (hmax : e + digitCount c - 1 ≤ maxReadExponent) : ofText? token = some (.finite negative c e) := by
  have hinf := (h.lower_ne "inf".toList rfl (by decide)).1
  have hinfinity := (h.lower_ne "infinity".toList rfl (by decide)).1
  have hnan := (h.lower_ne "nan".toList rfl (by decide)).2
  rw [ofText?, h.takeSign_stripped htoken]
  simp only [hinf, hinfinity, hnan, h.read, Bool.or_self, Bool.false_eq_true, if_neg hc,
    if_neg (not_lt.2 hmin), if_neg (not_lt.2 hmax), ↓reduceIte]

/-- **A numeral is read as its nearest double**, with its sign in front. -/
theorem double_ofText?_eq : Double.ofText? token = some (Double.ofDecimal (.finite negative c e)) := by
  have hinf := (h.lower_ne "inf".toList rfl (by decide)).1
  have hinfinity := (h.lower_ne "infinity".toList rfl (by decide)).1
  have hnan := (h.lower_ne "nan".toList rfl (by decide)).1
  rw [Double.ofText?, h.takeSign_stripped htoken]
  simp only [hinf, hinfinity, hnan, h.read, Bool.or_self, Bool.false_eq_true, ↓reduceIte, Option.map_some]

/-- A numeral has the form of a number, but not of a special one or of an integer. -/
theorem forms : Sexpr.specialNumber? token = none ∧ Sexpr.isIntegerForm token.toList = false ∧
    Sexpr.isNumberForm token.toList = true := by
  have hbody : Sexpr.dropFinalNewline token.toList = token.toList :=
    Sexpr.dropFinalNewline_of_forall fun d hd =>
      Sexpr.not_isBlank_of_isAtomChar (h.isAtomChar_signed htoken d hd)
  have hsign : takeSign token.toList = (negative, body) := htoken ▸ h.takeSign_signed negative
  refine ⟨?_, ?_, by simp [Sexpr.isNumberForm, hbody, hsign, h.read]⟩
  · obtain ⟨d, rest, hhead, hd⟩ := h.head
    have hdigit : token.toList.any (·.isDigit) = true :=
      List.any_eq_true.2 ⟨d, by simp [htoken, hhead], hd⟩
    unfold Sexpr.specialNumber?
    split
    iterate 4 exact absurd hdigit (by decide)
    rfl
  · simp only [Sexpr.isIntegerForm, hbody, hsign, Bool.and_eq_false_imp]
    exact fun _ => List.all_eq_false.2 (by simpa using h.broken)

/-- **A numeral with more digits than a double carries is read as a decimal.** -/
theorem atom_decimal (hdigits : machinePrecision < Sexpr.significantDigits token) (hc : c ≠ 0)
    (hmin : minReadExponent ≤ e) (hmax : e + digitCount c - 1 ≤ maxReadExponent) :
    Sexpr.atom token = .ok (.decimal (.finite negative c e)) := by
  obtain ⟨hspecial, hinteger, hnumber⟩ := h.forms htoken
  simp only [Sexpr.atom, hspecial, hinteger, hnumber, Bool.false_eq_true, ↓reduceIte, hdigits,
    h.ofText?_eq htoken hc hmin hmax]

/-- **Any other numeral is read as a double.** -/
theorem atom_double (hdigits : Sexpr.significantDigits token ≤ machinePrecision) :
    Sexpr.atom token = .ok (.double (Double.ofDecimal (.finite negative c e))) := by
  obtain ⟨hspecial, hinteger, hnumber⟩ := h.forms htoken
  simp only [Sexpr.atom, hspecial, hinteger, hnumber, Bool.false_eq_true, ↓reduceIte,
    if_neg (not_lt.2 hdigits), h.double_ofText?_eq htoken, Option.getD_some]

end IsNumeral

/-! ## Reading a spelling -/

/-- The exponent of a spelling is read back. -/
theorem Spelling.readExponent?_powerChars (p : Spelling) : readExponent? p.powerChars = some (p.power.getD 0) := by
  unfold Spelling.powerChars
  cases p.power with
  | none => rfl
  | some x =>
      have hempty : (digitChars x.natAbs).isEmpty = false :=
        List.isEmpty_eq_false_iff.2 (digitChars_ne_nil _)
      have hall : (digitChars x.natAbs).all isDigit = true :=
        List.all_eq_true.2 fun d hd => isDigit_of_isDigit (isDigit_digitChars d hd)
      simp only [signedText_toList, readExponent?, Option.getD_some]
      by_cases hx : x < 0
      · simp only [hx, ↓reduceIte, takeSign, hempty, hall, natOfDigits_digitChars, beq_self_eq_true,
          Bool.or_true, Bool.not_true, Bool.or_self, Bool.false_eq_true, Option.some.injEq]
        omega
      · simp only [hx, ↓reduceIte, takeSign, hempty, hall, natOfDigits_digitChars, beq_self_eq_true,
          Bool.or_true, Bool.not_true, Bool.or_self, Bool.false_eq_true, Option.some.injEq]
        omega

namespace Spells

variable {p : Spelling} {c : ℕ} {e : ℤ} (h : Spells p c e)

include h

theorem whole_isDigit : ∀ d ∈ p.whole, d.isDigit = true := fun d hd =>
  h.digits d (List.mem_append_left _ hd)

theorem fraction_isDigit : ∀ d ∈ p.fraction, d.isDigit = true := fun d hd =>
  h.digits d (List.mem_append_right _ hd)

/-- A spelling starts with a digit. -/
theorem exists_head : ∃ d rest, p.chars = d :: rest ∧ d.isDigit = true := by
  obtain ⟨d, rest, hd⟩ := List.exists_cons_of_ne_nil h.whole
  refine ⟨d, rest ++ '.' :: (p.fraction ++ p.powerChars), by rw [Spelling.chars, hd]; rfl, ?_⟩
  exact h.whole_isDigit d (hd ▸ List.mem_cons_self)

/-- The characters of a spelling. -/
theorem mem_chars {d : Char} (hd : d ∈ p.chars) :
    d.isDigit = true ∨ d = '.' ∨ d = 'E' ∨ d = '-' ∨ d = '+' := by
  rw [Spelling.chars, List.mem_append, List.mem_cons, List.mem_append] at hd
  rcases hd with hd | rfl | hd | hd
  · exact .inl (h.whole_isDigit d hd)
  · exact .inr (.inl rfl)
  · exact .inl (h.fraction_isDigit d hd)
  · unfold Spelling.powerChars at hd
    split at hd
    next => cases hd
    next x _ =>
      rw [signedText_toList, List.mem_cons, List.mem_cons] at hd
      rcases hd with rfl | rfl | hd
      · simp
      · split <;> simp
      · exact .inl (isDigit_digitChars d hd)

theorem takeMantissa_chars : takeMantissa p.chars = (p.whole, p.fraction, p.powerChars) := by
  have hpower : p.powerChars.takeWhile isDigit = [] ∧ p.powerChars.dropWhile isDigit = p.powerChars := by
    unfold Spelling.powerChars
    split
    · exact ⟨rfl, rfl⟩
    · exact ⟨List.takeWhile_cons_of_neg (by decide), List.dropWhile_cons_of_neg (by decide)⟩
  have hwhole : ∀ d ∈ p.whole, isDigit d = true := fun d hd =>
    isDigit_of_isDigit (h.whole_isDigit d hd)
  have hfraction : ∀ d ∈ p.fraction, isDigit d = true := fun d hd =>
    isDigit_of_isDigit (h.fraction_isDigit d hd)
  have hpoint : isDigit '.' = false := by decide
  rw [takeMantissa, Spelling.chars, List.takeWhile_append_of_pos hwhole,
    List.dropWhile_append_of_pos hwhole, List.takeWhile_cons_of_neg (by simp [hpoint]),
    List.dropWhile_cons_of_neg (by simp [hpoint])]
  simp only [List.append_nil, List.takeWhile_append_of_pos hfraction,
    List.dropWhile_append_of_pos hfraction, hpower.1, hpower.2]

/-- **A spelling is read digit by digit.** -/
theorem readUnsigned?_chars : readUnsigned? p.chars = some (c, e) := by
  have hempty : (p.whole.isEmpty && p.fraction.isEmpty) = false := by
    rw [List.isEmpty_eq_false_iff.2 h.whole, Bool.false_and]
  simp only [readUnsigned?, h.takeMantissa_chars, hempty, Bool.false_eq_true, ↓reduceIte,
    p.readExponent?_powerChars, Option.map_some, h.coefficient, h.exponent]

/-- **A spelling is a numeral.** -/
theorem isNumeral : IsNumeral p.chars c e where
  head := h.exists_head
  mem _ hd := by
    simpa using (h.mem_chars hd).imp_right fun hd => by tauto
  broken := ⟨'.', by simp [Spelling.chars], by decide⟩
  read := h.readUnsigned?_chars

/-- **A spelling has the digits of its coefficient**, and not one less. -/
theorem lt_significantDigits {token : String} {negative : Bool} {k : ℕ}
    (htoken : token.toList = signChars negative ++ p.chars) (hc : 10 ^ k ≤ c) :
    k < Sexpr.significantDigits token := by
  have hnot : ∀ {x d : Char}, x.isDigit = true → d.isDigit = false → (x == d) = false :=
    fun hx hd => beq_eq_false_iff_ne.2 (ne_of_isDigit hx hd)
  have hunsigned : token.toList.dropWhile (fun d => d == '+' || d == '-') = p.chars := by
    obtain ⟨d, rest, hchars, hd⟩ := h.exists_head
    have hrest : p.chars.dropWhile (fun d => d == '+' || d == '-') = p.chars := by
      rw [hchars, List.dropWhile_cons_of_neg]
      simp [hnot hd (d := '+') rfl, hnot hd (d := '-') rfl]
    rw [htoken]
    cases negative <;> simpa [signChars] using hrest
  have hmantissa : p.chars.takeWhile (fun d => d != 'e' && d != 'E') =
      p.whole ++ '.' :: p.fraction := by
    have hdigits : ∀ d ∈ p.whole ++ '.' :: p.fraction, (d != 'e' && d != 'E') = true := by
      intro d hd
      rw [List.mem_append, List.mem_cons] at hd
      rcases hd with hd | rfl | hd
      · simp [bne, hnot (h.whole_isDigit d hd) (d := 'e') rfl, hnot (h.whole_isDigit d hd) (d := 'E') rfl]
      · decide
      · simp [bne, hnot (h.fraction_isDigit d hd) (d := 'e') rfl,
          hnot (h.fraction_isDigit d hd) (d := 'E') rfl]
    have hpower : p.powerChars.takeWhile (fun d => d != 'e' && d != 'E') = [] := by
      unfold Spelling.powerChars
      split
      · rfl
      · exact List.takeWhile_cons_of_neg (by decide)
    rw [Spelling.chars, ← List.cons_append, ← List.append_assoc,
      List.takeWhile_append_of_pos hdigits, hpower, List.append_nil]
  have hfilter : (p.whole ++ '.' :: p.fraction).filter (· != '.') = p.whole ++ p.fraction := by
    rw [List.filter_append, List.filter_cons_of_neg (by decide), ← List.filter_append]
    exact List.filter_eq_self.2 fun d hd => bne_iff_ne.2 (ne_of_isDigit (h.digits d hd) rfl)
  simp only [Sexpr.significantDigits, hunsigned, hmantissa, hfilter]
  refine (Nat.pow_lt_pow_iff_right (a := 10) (by decide)).1 (hc.trans_lt ?_)
  calc c = natOfDigits ((p.whole ++ p.fraction).dropWhile (· == '0')) := by
        rw [natOfDigits_dropZeros, h.coefficient]
    _ < _ := natOfDigits_lt fun d hd => h.digits d ((List.dropWhile_sublist _).mem hd)

/-- **A spelling is an atom that is read as its decimal**, if it has more digits than a double. -/
theorem atom_signed {token : String} {negative : Bool}
    (htoken : token.toList = signChars negative ++ p.chars) (hc : 10 ^ machinePrecision ≤ c)
    (hmin : minReadExponent ≤ e) (hmax : e + digitCount c - 1 ≤ maxReadExponent) :
    Sexpr.isAtom token = true ∧ Sexpr.atom token = .ok (.decimal (.finite negative c e)) := by
  have hc' : c ≠ 0 := (lt_of_lt_of_le (Nat.pow_pos (by decide)) hc).ne'
  exact ⟨h.isNumeral.isAtom htoken,
    h.isNumeral.atom_decimal htoken (h.lt_significantDigits htoken hc) hc' hmin hmax⟩

end Spells

/-! ## Decimals filled up -/

theorem digitCount_eq {n k : ℕ} (hle : 10 ^ k ≤ n) (hlt : n < 10 ^ (k + 1)) : digitCount n = k + 1 := by
  have hn : n ≠ 0 := (lt_of_lt_of_le (Nat.pow_pos (by decide)) hle).ne'
  obtain ⟨hle', hlt'⟩ := digitCount_bounds hn
  have h₁ := (Nat.pow_lt_pow_iff_right (a := 10) (by decide)).1 (hle.trans_lt hlt')
  have h₂ := (Nat.pow_lt_pow_iff_right (a := 10) (by decide)).1 (hle'.trans_lt hlt)
  omega

theorem digitCount_pos {n : ℕ} (hn : n ≠ 0) : 0 < digitCount n := by
  refine Nat.pos_of_ne_zero fun h => ?_
  have hlt := (digitCount_bounds hn).2
  rw [h, pow_zero] at hlt
  omega

/-- Zeros at the end are digits. -/
theorem digitCount_mul_pow {n : ℕ} (hn : n ≠ 0) (k : ℕ) : digitCount (n * 10 ^ k) = digitCount n + k := by
  obtain ⟨hle, hlt⟩ := digitCount_bounds hn
  obtain ⟨m, hm⟩ := Nat.exists_eq_succ_of_ne_zero (digitCount_pos hn).ne'
  rw [hm, Nat.succ_sub_one] at hle
  rw [hm] at hlt
  rw [digitCount_eq (k := m + k), hm]
  · omega
  · rw [pow_add]
    exact Nat.mul_le_mul_right _ hle
  · rw [show m + k + 1 = (m + 1) + k by omega, pow_add]
    exact Nat.mul_lt_mul_of_pos_right hlt (Nat.pow_pos (by decide))

/-- **A decimal filled up has the same value.** -/
theorem equal_pad {d : Decimal} (h : d.isFinite = true) (n : ℕ) : d.equal (d.pad n) = true := by
  cases d with
  | finite s c e =>
      have hsame := (same_iff (.finite s c e) (pad (.finite s c e) n)).2 ?_
      · simpa [isNaN] using hsame
      by_cases hc : c = 0
      · simp [trace, pad, hc]
      · have hscale := (eq_mul_pow_iff (c := c * 10 ^ (n - digitCount c)) (d := c)
          (e := e - ((n - digitCount c : ℕ) : ℤ)) (f := e) (by omega)).1 (by simp [Nat.pow_eq])
        simp only [pad, trace, sizeTrace, Nat.pow_eq, digitCount_mul_pow hc, hscale, mul_eq_zero, hc,
          pow_eq_zero_iff', OfNat.ofNat_ne_zero, false_and, or_self, ↓reduceIte, Option.some.injEq,
          Sum.inr.injEq, Prod.mk.injEq, and_true, true_and]
        omega
  | infinite _ => cases h
  | nan _ _ => cases h

/-- Whether a decimal is a number other than zero that is written and read without loss: filled up,
it is within the exponents that can be read. -/
def isPrintable (d : Decimal) : Bool :=
  match d.pad (machinePrecision + 1) with
  | .finite _ c e =>
      c != 0 && decide (minReadExponent ≤ e) && decide (e + digitCount c - 1 ≤ maxReadExponent)
  | _ => false

theorem isFinite_of_isPrintable {d : Decimal} (h : d.isPrintable = true) : d.isFinite = true := by
  cases d with
  | finite _ _ _ => rfl
  | infinite _ => cases h
  | nan _ _ => cases h

/-- Filled up, a decimal that is not zero has more digits than a double. -/
theorem pow_le_fill {c : ℕ} (hc : c ≠ 0) (n : ℕ) : 10 ^ n ≤ c * 10 ^ (n + 1 - digitCount c) := by
  have hle := (digitCount_bounds hc).1
  have hpos := digitCount_pos hc
  calc 10 ^ n ≤ 10 ^ (digitCount c - 1 + (n + 1 - digitCount c)) :=
        Nat.pow_le_pow_right (by decide) (by omega)
    _ = 10 ^ (digitCount c - 1) * 10 ^ (n + 1 - digitCount c) := pow_add ..
    _ ≤ c * 10 ^ (n + 1 - digitCount c) := Nat.mul_le_mul_right _ hle

/-- **The text of a decimal is an atom that is read as the decimal filled up.** -/
theorem atom_decimalText {d : Decimal} (h : d.isPrintable = true) :
    Sexpr.isAtom (Raw.decimalText d) = true ∧
      Sexpr.atom (Raw.decimalText d) = .ok (.decimal (d.pad (machinePrecision + 1))) := by
  cases d with
  | finite s c e =>
      simp only [isPrintable, pad, Bool.and_eq_true, bne_iff_ne, decide_eq_true_eq, Nat.pow_eq] at h
      simp only [Raw.decimalText, pad, Nat.pow_eq]
      have hc : c ≠ 0 := fun hc => h.1.1 (by simp [hc])
      have hfill := pow_le_fill hc machinePrecision
      have hten : 10 ≤ c * 10 ^ (machinePrecision + 1 - digitCount c) := le_trans (by decide) hfill
      split
      next =>
        obtain ⟨p, hp, hspells⟩ := toScientific_spells s hten _
        exact hspells.atom_signed hp hfill h.1.2 h.2
      next he =>
        obtain ⟨p, hp, hspells⟩ := toText_spells s hten he
        exact hspells.atom_signed hp hfill h.1.2 h.2
  | infinite _ => cases h
  | nan _ _ => cases h

end Decimal

/-! ## Names -/

namespace Sexpr

/-- Whether a text is an atom that neither names a special number nor has the form of a number. -/
def isSymbol (n : String) : Bool :=
  isAtom n && (specialNumber? n).isNone && !isIntegerForm n.toList && !isNumberForm n.toList

/-- **Such an atom is read as a name.** -/
theorem atom_symbol {n : String} (h : isSymbol n = true) : atom n = .ok (.name n) := by
  simp only [isSymbol, Bool.and_eq_true, Bool.not_eq_true', Option.isNone_iff_eq_none] at h
  obtain ⟨⟨⟨-, hspecial⟩, hinteger⟩, hnumber⟩ := h
  simp [atom, hspecial, hinteger, hnumber]

end Sexpr

/-! ## Shapes -/

namespace Raw

mutual

/-- Whether a shape is made of integers, decimals, names and lists that have a text of their own. -/
def isPrintable : Raw → Bool
  | int _ => true
  | decimal d => d.isPrintable
  | name n => Sexpr.isSymbol n
  | list items => allPrintable items
  | _ => false

def allPrintable : List Raw → Bool
  | [] => true
  | r :: rest => isPrintable r && allPrintable rest

end

mutual

/-- Whether two shapes are the same, apart from the digits of equal decimals. -/
def agrees : Raw → Raw → Bool
  | int m, int n => m == n
  | decimal d, decimal d' => d.equal d'
  | name m, name n => m == n
  | list rs, list xs => allAgree rs xs
  | _, _ => false

def allAgree : List Raw → List Raw → Bool
  | [], [] => true
  | r :: rs, x :: xs => agrees r x && allAgree rs xs
  | _, _ => false

end

mutual

/-- A printable shape is read as a shape that agrees with it. -/
theorem exists_readsAs : ∀ {r : Raw}, r.isPrintable = true → ∃ x, r.ReadsAs x ∧ r.agrees x = true
  | int n, _ => ⟨int n, readsAs_int n, by simp [agrees]⟩
  | decimal d, h => by
      rw [isPrintable] at h
      obtain ⟨hatom, hread⟩ := Decimal.atom_decimalText h
      exact ⟨_, .atom rfl hatom hread, Decimal.equal_pad (Decimal.isFinite_of_isPrintable h) _⟩
  | name n, h => by
      rw [isPrintable] at h
      have hatom : Sexpr.isAtom n = true := by
        simp only [Sexpr.isSymbol, Bool.and_eq_true] at h
        exact h.1.1.1
      exact ⟨name n, .atom rfl hatom (Sexpr.atom_symbol h), by simp [agrees]⟩
  | list items, h => by
      rw [isPrintable] at h
      obtain ⟨xs, hxs, hagree⟩ := exists_allReadAs h
      exact ⟨list xs, .list hxs, by rwa [agrees]⟩

theorem exists_allReadAs : ∀ {rs : List Raw}, allPrintable rs = true →
    ∃ xs, AllReadAs rs xs ∧ allAgree rs xs = true
  | [], _ => ⟨[], .nil, rfl⟩
  | r :: rs, h => by
      rw [allPrintable, Bool.and_eq_true] at h
      obtain ⟨x, hx, hrx⟩ := exists_readsAs h.1
      obtain ⟨xs, hxs, hagree⟩ := exists_allReadAs h.2
      exact ⟨x :: xs, .cons hx hxs, by rw [allAgree, hrx, hagree]; rfl⟩

end

end Raw

/-- **What is printed is read back**: integers, decimals that are neither zero nor special, names that
are single tokens, and lists of these, empty and nested ones too.  A decimal is read as an equal decimal,
and all else as itself. -/
theorem Sexpr.reading_printed {r : Raw} (h : r.isPrintable = true) :
    ∃ x, parse r.text = .ok (some x) ∧ r.agrees x = true := by
  obtain ⟨x, hx, hagree⟩ := Raw.exists_readsAs h
  exact ⟨x, hx.parse_text, hagree⟩

/-- `(f () 12 (x -15E-1))` is written `(f () 12 (x -1.500000000000000))`. -/
theorem Sexpr.reading_printed_nested :
    ∃ x, parse (Raw.text (.list [.name "f", .list [], .int 12,
        .list [.name "x", .decimal (.finite true 15 (-1))]])) = .ok (some x) ∧
      Raw.agrees (.list [.name "f", .list [], .int 12,
        .list [.name "x", .decimal (.finite true 15 (-1))]]) x = true :=
  Sexpr.reading_printed (by decide +kernel)

end SymbolicAlgebra
