import SymbolicAlgebra.Proofs.NumberText
import SymbolicAlgebra.Proofs.Representation
import SymbolicAlgebra.Proofs.TextPieces

/-!
# Proofs/Reading — shapes that are read back from their texts

A shape whose parts are written as atoms is cut into its tokens (`Raw.ReadsAs.tokenizeFrom_text`), and
these are read as a shape of the same form, in which each part is what its atom is read as
(`Raw.ReadsAs.parse_text`).  A readable shape is made of names, integers, not-a-numbers and lists: it is read
as itself (`Raw.readsAs_self`).

What is read from a text is written with atoms and lists (`Sexpr.isWritten_of_parse`), and readable if the
numbers of the text are integers (`Sexpr.isReadable_of_parse`).
-/

namespace SymbolicAlgebra

/-- There is one double that is not a number. -/
theorem Double.eq_notANumber {x : Float} (h : isNaN x = true) : x = notANumber :=
  eq_of_same (beq_of_isNaN (by rw [show x.isNaN = true from h]; rfl)) (by rw [h]; rfl)

/-! ## Integers -/

namespace Text

theorem digitValue?_of_isDigit {c : Char} (h : c.isDigit = true) :
    digitValue? c = some (c.toNat - 48) := by
  have hc : 48 ≤ c.toNat ∧ c.toNat < 48 + 10 := by
    simp only [Char.isDigit, Bool.and_eq_true, decide_eq_true_eq, ge_iff_le, UInt32.le_iff_toNat_le] at h
    exact ⟨h.1, Nat.lt_succ_of_le h.2⟩
  rw [digitValue?, zeroDigits, List.find?_cons_of_pos (by simpa using hc)]
  rfl

theorem isDigit_of_isDigit {c : Char} (h : c.isDigit = true) : isDigit c = true := by
  rw [isDigit, digitValue?_of_isDigit h]
  rfl

/-- **Digits are read back.** -/
theorem natOfDigits_digitChars (n : ℕ) : natOfDigits (Decimal.digitChars n) = n := by
  have hread : natOfDigits (Decimal.digitChars n) = Nat.ofDigitChars 10 (Decimal.digitChars n) 0 := by
    refine List.foldl_ext _ _ _ fun m c hc => ?_
    rw [digitValue?_of_isDigit (isDigit_of_mem_digitChars hc)]
    rfl
  rw [hread, Decimal.digitChars, Nat.ofDigitChars_ten_toDigits]

theorem isGroupedDigits_of_forall : ∀ {s : List Char}, s ≠ [] → (∀ c ∈ s, isDigit c = true) →
    isGroupedDigits s = true
  | [c], _, h => h c (by simp)
  | c :: d :: rest, _, h => by
      have hrest := isGroupedDigits_of_forall (s := d :: rest) (by simp) fun x hx => h x (by simp [hx])
      have hd : d ≠ '_' := by
        rintro rfl
        exact absurd (h '_' (by simp)) (by decide)
      rw [isGroupedDigits.eq_4 _ _ (by simp) (by simp [hd]), h c (by simp), hrest]
      rfl

/-- A digit or a minus is neither blank nor anything else that ends an atom. -/
theorem not_isBlank_of_digit {c : Char} (h : c = '-' ∨ c.isDigit = true) : isBlank c = false := by
  rcases h with rfl | h
  · decide
  · have hc : 48 ≤ c.toNat ∧ c.toNat < 58 := by
      simp only [Char.isDigit, Bool.and_eq_true, decide_eq_true_eq, ge_iff_le,
        UInt32.le_iff_toNat_le] at h
      exact ⟨h.1, Nat.lt_succ_of_le h.2⟩
    exact not_isBlank_of_range (by omega) (by omega)

theorem digitChars_ne_nil (n : ℕ) : Decimal.digitChars n ≠ [] := Nat.toDigits_ne_nil

/-- The sign of a text of an integer, and its digits. -/
theorem takeSign_intText (n : Int) :
    takeSign (intText n).toList = (decide (n < 0), Decimal.digitChars n.natAbs) := by
  rw [intText_toList]
  by_cases hn : n < 0
  · rw [if_pos hn, decide_eq_true hn]
    rfl
  · rw [if_neg hn, List.nil_append, decide_eq_false hn]
    cases hd : Decimal.digitChars n.natAbs with
    | nil => exact absurd hd (digitChars_ne_nil _)
    | cons c rest =>
        have hc := isDigit_of_mem_digitChars (n := n.natAbs) (c := c) (by rw [hd]; simp)
        exact takeSign.eq_3 _ (fun _ h => by cases h; cases hc) fun _ h => by cases h; cases hc

theorem readInt?_intText (n : Int) : readInt? (intText n) = some n := by
  have hdigits : ∀ c ∈ Decimal.digitChars n.natAbs, isDigit c = true := fun c hc =>
    isDigit_of_isDigit (isDigit_of_mem_digitChars hc)
  have hgroup : (Decimal.digitChars n.natAbs).filter (· != '_') = Decimal.digitChars n.natAbs := by
    refine List.filter_eq_self.2 fun c hc => ?_
    have hc := isDigit_of_mem_digitChars hc
    rw [bne_iff_ne]
    rintro rfl
    cases hc
  rw [readInt?, stripChars_of_forall fun c hc => not_isBlank_of_digit (mem_intText hc), takeSign_intText]
  simp only [isGroupedDigits_of_forall (digitChars_ne_nil _) hdigits, ↓reduceIte, hgroup,
    natOfDigits_digitChars, Option.some.injEq, decide_eq_true_eq]
  split <;> omega

end Text

namespace Sexpr

theorem dropFinalNewline_of_forall {s : List Char} (h : ∀ c ∈ s, Text.isBlank c = false) :
    dropFinalNewline s = s := by
  rw [dropFinalNewline, if_neg]
  intro hlast
  have := h '\n' (List.mem_of_getLast? (beq_iff_eq.1 hlast))
  revert this
  decide

/-- **A text of an integer is read as the integer.** -/
theorem atom_intText (n : Int) : atom (intText n) = .ok (.int n) := by
  have hletter : ∀ {s : String}, intText n = s → (s.toList.any fun c => c != '-' && !c.isDigit) = false := by
    rintro _ rfl
    rw [List.any_eq_false]
    intro c hc
    rcases mem_intText hc with rfl | hc <;> simp [*]
  have hspecial : specialNumber? (intText n) = none := by
    unfold specialNumber?
    split
    iterate 4
      next h => exact absurd (hletter h) (by decide)
    next => rfl
  have hform : isIntegerForm (intText n).toList = true := by
    rw [isIntegerForm, dropFinalNewline_of_forall fun c hc => Text.not_isBlank_of_digit (mem_intText hc),
      Text.takeSign_intText]
    simp only [Bool.and_eq_true, Bool.not_eq_true', List.isEmpty_eq_false_iff]
    exact ⟨Text.digitChars_ne_nil _, List.all_eq_true.2 fun c hc =>
      Text.isDigit_of_isDigit (isDigit_of_mem_digitChars hc)⟩
  rw [atom, hspecial]
  simp only [hform, ↓reduceIte, Text.readInt?_intText, Option.getD_some]

/-! ## Tokens -/

/-- Whether a character can stand inside an atom. -/
def isAtomChar (c : Char) : Bool := c != ';' && c != '(' && c != ')' && !Text.isBlank c

theorem isAtomChar_of_digit {c : Char} (h : c = '-' ∨ c.isDigit = true) : isAtomChar c = true := by
  have hne : ∀ d : Char, (d = '-' ∨ d.isDigit = true) = False → (c != d) = true := fun d hd => by
    rw [bne_iff_ne]
    rintro rfl
    exact hd ▸ h
  rw [isAtomChar, Text.not_isBlank_of_digit h, hne ';' (by decide), hne '(' (by decide),
    hne ')' (by decide)]
  rfl

theorem not_isBlank_of_isAtomChar {c : Char} (h : isAtomChar c = true) : Text.isBlank c = false := by
  simpa using (Bool.and_eq_true_iff.1 h).2

/-- Whether a text is an atom. -/
def isAtom (s : String) : Bool := !s.toList.isEmpty && s.toList.all isAtomChar

/-- Whether a text is an atom that is read as a name. -/
def isName (n : String) : Bool :=
  isAtom n &&
    match atom n with
    | .ok (.name _) => true
    | _ => false

/-- An atom that is read as a name is read as the name that it is. -/
theorem name_of_atom {s n : String} (h : atom s = .ok (.name n)) : n = s := by
  unfold atom at h
  simp only at h
  split at h
  next => cases h
  next =>
    split at h
    next => cases h
    next =>
      split at h
      next =>
        split at h
        next => split at h <;> cases h
        next => cases h
      next =>
        cases h
        rfl

theorem atom_of_isName {n : String} (h : isName n = true) : atom n = .ok (.name n) := by
  rw [isName, Bool.and_eq_true] at h
  obtain ⟨-, h⟩ := h
  split at h
  next m hm => rw [hm, name_of_atom hm]
  next => cases h

/-- What ends the atom before it. -/
def Ends (rest : List Char) : Prop :=
  ∀ acc, tokenizeFrom false acc rest = flushAtom acc ++ tokenizeFrom false [] rest

theorem ends_nil : Ends [] := fun acc => by
  rw [tokenizeFrom, tokenizeFrom]
  exact (List.append_nil _).symm

theorem ends_blank (rest : List Char) : Ends (' ' :: rest) := fun _ => rfl

theorem ends_closing (rest : List Char) : Ends (')' :: rest) := fun _ => rfl

theorem tokenizeFrom_blank (rest : List Char) :
    tokenizeFrom false [] (' ' :: rest) = tokenizeFrom false [] rest := rfl

theorem tokenizeFrom_atomChars {cs : List Char} (h : cs.all isAtomChar = true) (acc rest : List Char) :
    tokenizeFrom false acc (cs ++ rest) = tokenizeFrom false (cs.reverse ++ acc) rest := by
  induction cs generalizing acc with
  | nil => rfl
  | cons c cs ih =>
      rw [List.all_cons, Bool.and_eq_true] at h
      have hc := h.1
      simp only [isAtomChar, bne, Bool.and_eq_true, Bool.not_eq_true'] at hc
      rw [List.cons_append, tokenizeFrom]
      simp only [Bool.false_eq_true, ↓reduceIte, hc.1.1.1, hc.1.1.2, hc.1.2, hc.2]
      rw [ih h.2, List.reverse_cons, List.append_assoc, List.singleton_append]

/-- **An atom is a token**, where it ends. -/
theorem tokenizeFrom_atom {s : String} (h : isAtom s = true) {rest : List Char} (hrest : Ends rest) :
    tokenizeFrom false [] (s.toList ++ rest) = .atom s :: tokenizeFrom false [] rest := by
  rw [isAtom, Bool.and_eq_true, Bool.not_eq_true', List.isEmpty_eq_false_iff] at h
  rw [tokenizeFrom_atomChars h.2, List.append_nil, hrest, flushAtom, if_neg (by simpa using h.1),
    List.reverse_reverse, String.ofList_toList]
  rfl

/-- Every atom that a text is cut into is one. -/
theorem isAtom_of_mem_tokenizeFrom {comment : Bool} {acc cs : List Char} {s : String}
    (hacc : acc.all isAtomChar = true) (h : .atom s ∈ tokenizeFrom comment acc cs) : isAtom s = true := by
  have hflush : ∀ {acc : List Char}, acc.all isAtomChar = true → .atom s ∈ flushAtom acc →
      isAtom s = true := fun {acc} hacc h => by
    rw [flushAtom] at h
    split at h
    next => cases h
    next hne =>
      obtain rfl : s = String.ofList acc.reverse := by simpa using h
      simpa [isAtom, hacc] using hne
  induction cs generalizing comment acc with
  | nil => exact hflush hacc h
  | cons c cs ih =>
      rw [tokenizeFrom] at h
      split at h
      next => exact ih hacc h
      split at h
      next => exact ih hacc h
      split at h
      next =>
        rcases List.mem_append.1 h with h | h
        · exact hflush hacc h
        · exact ih rfl (by simpa using h)
      split at h
      next =>
        rcases List.mem_append.1 h with h | h
        · exact hflush hacc h
        · exact ih rfl (by simpa using h)
      split at h
      next =>
        rcases List.mem_append.1 h with h | h
        · exact hflush hacc h
        · exact ih rfl h
      next h₁ h₂ h₃ h₄ h₅ =>
        have hcons : (c :: acc).all isAtomChar = true := by
          rw [List.all_cons, hacc, isAtomChar]
          simp only [bne, Bool.and_true, Bool.and_eq_true, Bool.not_eq_true']
          exact ⟨⟨⟨Bool.eq_false_iff.2 h₂, Bool.eq_false_iff.2 h₃⟩, Bool.eq_false_iff.2 h₄⟩,
            Bool.eq_false_iff.2 h₅⟩
        exact ih hcons h

end Sexpr

/-! ## Shapes and their tokens -/

namespace Raw

/-- Whether a shape is a list. -/
def isList : Raw → Bool
  | list _ => true
  | _ => false

mutual

/-- The tokens of a shape. -/
def tokens : Raw → List Sexpr.Token
  | list items => .opening :: (tokensAll items ++ [.closing])
  | r => [.atom r.text]

def tokensAll : List Raw → List Sexpr.Token
  | [] => []
  | r :: rest => tokens r ++ tokensAll rest

end

theorem tokens_of_isList {r : Raw} (h : r.isList = false) : r.tokens = [.atom r.text] := by
  cases r with
  | list items => cases h
  | _ => rfl

theorem tokens_ne_nil (r : Raw) : r.tokens ≠ [] := by cases r <;> simp [tokens]

/-- What stands between the parentheses of a list. -/
def itemsText (items : List Raw) : List Char :=
  [' '].intercalate ((textAll items).map String.toList)

theorem text_list (items : List Raw) : (list items).text.toList = '(' :: (itemsText items ++ [')']) := by
  simp [text, itemsText]

theorem itemsText_cons (r s : Raw) (rest : List Raw) :
    itemsText (r :: s :: rest) = r.text.toList ++ ' ' :: itemsText (s :: rest) := by
  simp [itemsText, textAll, List.intercalate_cons_cons]

mutual

/-- Each part that is no list is written as an atom that is read as its counterpart. -/
inductive ReadsAs : Raw → Raw → Prop
  | atom {r x : Raw} (hr : r.isList = false) (hatom : Sexpr.isAtom r.text = true)
      (hread : Sexpr.atom r.text = .ok x) : ReadsAs r x
  | list {rs xs : List Raw} (h : AllReadAs rs xs) : ReadsAs (.list rs) (.list xs)

inductive AllReadAs : List Raw → List Raw → Prop
  | nil : AllReadAs [] []
  | cons {r x : Raw} {rs xs : List Raw} (h : ReadsAs r x) (hrest : AllReadAs rs xs) :
      AllReadAs (r :: rs) (x :: xs)

end

mutual

/-- **The text of a shape is cut into its tokens.** -/
theorem ReadsAs.tokenizeFrom_text : ∀ {r x : Raw}, r.ReadsAs x → ∀ {rest : List Char}, Sexpr.Ends rest →
    Sexpr.tokenizeFrom false [] (r.text.toList ++ rest) =
      r.tokens ++ Sexpr.tokenizeFrom false [] rest
  | r, _, .atom hr hatom _, rest, hrest => by
      rw [tokens_of_isList hr]
      exact Sexpr.tokenizeFrom_atom hatom hrest
  | .list items, _, .list h, rest, hrest => by
      have hitems := AllReadAs.tokenizeFrom_itemsText h (Sexpr.ends_closing rest)
      rw [text_list, tokens]
      simp only [List.cons_append, List.append_assoc]
      exact congrArg (List.cons Sexpr.Token.opening) hitems

theorem AllReadAs.tokenizeFrom_itemsText : ∀ {items xs : List Raw}, AllReadAs items xs →
    ∀ {rest : List Char}, Sexpr.Ends rest →
    Sexpr.tokenizeFrom false [] (itemsText items ++ rest) =
      tokensAll items ++ Sexpr.tokenizeFrom false [] rest
  | [], _, .nil, rest, _ => rfl
  | [r], _, .cons h .nil, rest, hrest => by
      rw [tokensAll, tokensAll, List.append_nil, ← ReadsAs.tokenizeFrom_text h hrest]
      simp [itemsText, textAll]
  | r :: s :: items, _, .cons h (.cons hs hitems), rest, hrest => by
      rw [itemsText_cons, List.append_assoc, List.cons_append,
        ReadsAs.tokenizeFrom_text h (Sexpr.ends_blank _), Sexpr.tokenizeFrom_blank,
        AllReadAs.tokenizeFrom_itemsText (.cons hs hitems) hrest]
      simp only [tokensAll, List.append_assoc]

end

end Raw

namespace Sexpr

open Raw

/-- What reading goes on with after an item: it is the result, or one more item of the list that is
open. -/
def close (r : Raw) (rest : List Token) : List (List Raw) → Except Fault (Raw × List Token)
  | [] => .ok (r, rest)
  | items :: stack => readOne ((r :: items) :: stack) rest

theorem readOne_atom {s : String} {r : Raw} (h : atom s = .ok r) (stack : List (List Raw))
    (rest : List Token) : readOne stack (.atom s :: rest) = close r rest stack := by
  cases stack with
  | nil =>
      rw [readOne, h]
      rfl
  | cons items stack =>
      rw [readOne, h]
      rfl

theorem readOne_closing (items : List Raw) (stack : List (List Raw)) (rest : List Token) :
    readOne (items :: stack) (.closing :: rest) = close (.list items.reverse) rest stack := by
  cases stack <;> rfl

mutual

/-- **Tokens of a shape are read as its counterpart.** -/
theorem readOne_tokens : ∀ {r x : Raw}, r.ReadsAs x → ∀ (stack : List (List Raw)) (rest : List Token),
    readOne stack (r.tokens ++ rest) = close x rest stack
  | r, _, .atom hr _ hread, stack, rest => by
      rw [tokens_of_isList hr]
      exact readOne_atom hread stack rest
  | .list items, _, .list h, stack, rest => by
      rw [tokens, List.cons_append, List.append_assoc, readOne, readOne_tokensAll h, List.append_nil,
        List.singleton_append, readOne_closing, List.reverse_reverse]

theorem readOne_tokensAll : ∀ {rs xs : List Raw}, AllReadAs rs xs → ∀ (items : List Raw)
    (stack : List (List Raw)) (rest : List Token),
    readOne (items :: stack) (tokensAll rs ++ rest) = readOne ((xs.reverse ++ items) :: stack) rest
  | [], _, .nil, items, stack, rest => rfl
  | r :: rs, _, .cons h hrest, items, stack, rest => by
      rw [tokensAll, List.append_assoc, readOne_tokens h, close, readOne_tokensAll hrest,
        List.reverse_cons, List.append_assoc, List.singleton_append]

end

end Sexpr

/-- **The text of a shape is read as its counterpart.** -/
theorem Raw.ReadsAs.parse_text {r x : Raw} (h : r.ReadsAs x) : Sexpr.parse r.text = .ok (some x) := by
  have htokens : Sexpr.tokenize r.text = r.tokens := by
    have htext := h.tokenizeFrom_text Sexpr.ends_nil
    rw [List.append_nil] at htext
    rw [Sexpr.tokenize, htext]
    exact List.append_nil _
  have hread := Sexpr.readOne_tokens h [] []
  rw [List.append_nil] at hread
  rw [Sexpr.parse, htokens]
  split
  next hnil => exact absurd hnil (tokens_ne_nil r)
  next =>
    rw [hread]
    rfl

/-! ## Readable shapes -/

namespace Raw

mutual

/-- Whether a shape is made of names, integers, not-a-numbers and lists. -/
def isReadable : Raw → Bool
  | name n => Sexpr.isName n
  | int _ => true
  | double x => Double.isNaN x
  | list items => allReadable items
  | _ => false

def allReadable : List Raw → Bool
  | [] => true
  | r :: rest => isReadable r && allReadable rest

end

theorem allReadable_iff {rs : List Raw} : allReadable rs = true ↔ ∀ r ∈ rs, r.isReadable = true := by
  induction rs with
  | nil => simp [allReadable]
  | cons r rest ih => simp [allReadable, ih]

mutual

/-- Whether a shape is made of what atoms are read as. -/
def isWritten : Raw → Bool
  | name _ | int _ | double _ | decimal _ => true
  | list items => allWritten items
  | _ => false

def allWritten : List Raw → Bool
  | [] => true
  | r :: rest => isWritten r && allWritten rest

end

theorem allWritten_iff {rs : List Raw} : allWritten rs = true ↔ ∀ r ∈ rs, r.isWritten = true := by
  induction rs with
  | nil => simp [allWritten]
  | cons r rest ih => simp [allWritten, ih]

mutual

theorem isWritten_of_isReadable : ∀ {r : Raw}, r.isReadable = true → r.isWritten = true
  | name _, _ | int _, _ | double _, _ => rfl
  | list items, h => allWritten_of_allReadable (show allReadable items = true from h)

theorem allWritten_of_allReadable : ∀ {rs : List Raw}, allReadable rs = true → allWritten rs = true
  | [], _ => rfl
  | r :: rest, h => by
      rw [allReadable, Bool.and_eq_true] at h
      rw [allWritten, isWritten_of_isReadable h.1, allWritten_of_allReadable h.2]
      rfl

end

theorem isAtom_intText (n : Int) : Sexpr.isAtom (intText n) = true := by
  have hne : (intText n).toList ≠ [] := by
    rw [intText_toList]
    exact fun h => Text.digitChars_ne_nil _ (List.append_eq_nil_iff.1 h).2
  rw [Sexpr.isAtom, Bool.and_eq_true, Bool.not_eq_true', List.isEmpty_eq_false_iff]
  exact ⟨hne, List.all_eq_true.2 fun c hc => Sexpr.isAtomChar_of_digit (mem_intText hc)⟩

theorem readsAs_int (n : Int) : (int n).ReadsAs (int n) :=
  .atom rfl (isAtom_intText n) (Sexpr.atom_intText n)

theorem readsAs_name {n : String} (h : Sexpr.isName n = true) : (name n).ReadsAs (name n) :=
  .atom rfl (Bool.and_eq_true_iff.1 h).1 (Sexpr.atom_of_isName h)

mutual

/-- **A readable shape is read as itself.** -/
theorem readsAs_self : ∀ {r : Raw}, r.isReadable = true → r.ReadsAs r
  | name _, h => readsAs_name h
  | int n, _ => readsAs_int n
  | double x, h => by
      obtain rfl := Double.eq_notANumber h
      have htext : (double Double.notANumber).text = "NaN" := by
        rw [isReadable] at h
        simp [text, doubleText, h]
      exact .atom rfl (htext ▸ by decide) (htext ▸ rfl)
  | list items, h => .list (allReadAs_self h)

theorem allReadAs_self : ∀ {rs : List Raw}, allReadable rs = true → AllReadAs rs rs
  | [], _ => .nil
  | r :: rs, h => by
      rw [allReadable, Bool.and_eq_true] at h
      exact .cons (readsAs_self h.1) (allReadAs_self h.2)

end

end Raw

namespace Sexpr

open Raw

/-! ## What is read -/

/-- What holds of what atoms are read as, and of lists of what it holds of, holds of what is read. -/
theorem readOne_induction {P : Raw → Prop} {stack : List (List Raw)} {tokens rest : List Token}
    {r : Raw} (hatom : ∀ s, .atom s ∈ tokens → ∀ r, atom s = .ok r → P r)
    (hlist : ∀ items, (∀ r ∈ items, P r) → P (.list items))
    (hstack : ∀ items ∈ stack, ∀ r ∈ items, P r) (h : readOne stack tokens = .ok (r, rest)) : P r := by
  have hreverse : ∀ {items : List Raw}, (∀ r ∈ items, P r) → P (.list items.reverse) :=
    fun hitems => hlist _ (by simpa using hitems)
  fun_induction readOne stack tokens with
  | case1 => cases h
  | case2 stack rest ih => exact ih (fun s hs => hatom s (by simp [hs])) (by simpa using hstack) h
  | case3 => cases h
  | case4 items rest =>
      cases h
      exact hreverse (hstack items (by simp))
  | case5 items outer stack rest ih =>
      rw [List.forall_mem_cons, List.forall_mem_cons] at hstack
      refine ih (fun s hs => hatom s (by simp [hs])) ?_ h
      exact List.forall_mem_cons.2
        ⟨List.forall_mem_cons.2 ⟨hreverse hstack.1, hstack.2.1⟩, hstack.2.2⟩
  | case6 s rest =>
      cases ha : atom s with
      | error e =>
          rw [ha] at h
          cases h
      | ok x =>
          rw [ha] at h
          cases h
          exact hatom s (by simp) _ ha
  | case7 items stack s rest ih =>
      cases ha : atom s with
      | error e =>
          rw [ha] at h
          cases h
      | ok x =>
          rw [ha] at h
          rw [List.forall_mem_cons] at hstack
          refine ih x (fun s hs => hatom s (by simp [hs])) ?_ h
          exact List.forall_mem_cons.2
            ⟨List.forall_mem_cons.2 ⟨hatom s (by simp) x ha, hstack.1⟩, hstack.2⟩

theorem parse_induction {P : Raw → Prop} {s : String} {r : Raw}
    (hatom : ∀ a, .atom a ∈ tokenize s → ∀ r, atom a = .ok r → P r)
    (hlist : ∀ items, (∀ r ∈ items, P r) → P (.list items)) (h : parse s = .ok (some r)) : P r := by
  unfold parse at h
  split at h
  next => cases h
  next =>
    cases hread : readOne [] (tokenize s) with
    | error e =>
        rw [hread] at h
        cases h
    | ok p =>
        obtain ⟨x, rest⟩ := p
        rw [hread] at h
        have hx := readOne_induction hatom hlist (by simp) hread
        cases hrest : rest.isEmpty with
        | true =>
            simp only [bind, Except.bind, hrest, ↓reduceIte] at h
            cases h
            exact hx
        | false =>
            simp only [bind, Except.bind, hrest] at h
            cases h

/-- **What is read is written with atoms and lists.** -/
theorem isWritten_of_parse {s : String} {r : Raw} (h : parse s = .ok (some r)) : r.isWritten = true := by
  refine parse_induction (fun a _ r hr => ?_) (fun items h => allWritten_iff.2 h) h
  unfold atom at hr
  simp only at hr
  repeat' split at hr
  all_goals cases hr
  all_goals rfl

/-- Whether the atoms of a text are integers and names. -/
def hasIntegersOnly (s : String) : Bool :=
  (tokenize s).all fun token =>
    match token with
    | .atom s =>
        match atom s with
        | .ok (.int _) | .ok (.name _) => true
        | _ => false
    | _ => true

/-- **What is read from a text whose numbers are integers is readable.** -/
theorem isReadable_of_parse {s : String} {r : Raw} (hs : hasIntegersOnly s = true)
    (h : parse s = .ok (some r)) : r.isReadable = true := by
  refine parse_induction (fun a ha r hr => ?_) (fun items h => allReadable_iff.2 h) h
  have hkind := List.all_eq_true.1 hs _ ha
  simp only [hr] at hkind
  have hatom := isAtom_of_mem_tokenizeFrom (show [].all isAtomChar = true from rfl) ha
  cases r with
  | int n => rfl
  | name n =>
      obtain rfl := name_of_atom hr
      simp [isReadable, isName, hatom, hr]
  | _ => cases hkind

end Sexpr

end SymbolicAlgebra
