import Mathlib.Data.List.TakeWhile
import SymbolicAlgebra.Text.Blank
import SymbolicAlgebra.Text.Lines

/-!
# Proofs/TextPieces — texts are stripped, cut and split

A text without blanks at its ends is left as it is when it is stripped (`Text.stripChars_of_isTrim`), and found
again between blanks (`Text.stripChars_framed`).  Pieces that are joined by a separator are found again when the
text is split at it (`Text.stripChars_splitChars_intercalate`), and what stands on the two sides of a mark is found
again when the text is cut there (`Text.cutFirst_append`, `Text.cutLast_append`).
-/

namespace SymbolicAlgebra

namespace Text

variable {s l r : List Char}

/-! ## Blanks at the ends -/

/-- The visible characters up to the tilde are not blank. -/
theorem not_isBlank_of_range {c : Char} (hlow : 33 ≤ c.toNat) (hhigh : c.toNat < 127) : isBlank c = false := by
  simp only [isBlank, inRanges, blankRanges, List.any_cons, List.any_nil, Bool.or_false,
    Bool.or_eq_false_iff, Bool.and_eq_false_imp, decide_eq_true_eq, decide_eq_false_iff_not]
  omega

/-- No blanks at either end. -/
structure IsTrim (s : List Char) : Prop where
  first : ∀ c, s.head? = some c → isBlank c = false
  last : ∀ c, s.getLast? = some c → isBlank c = false

theorem isTrim_of_forall (h : ∀ c ∈ s, isBlank c = false) : IsTrim s where
  first c hc := h c (List.mem_of_mem_head? hc)
  last c hc := h c (List.mem_of_getLast? hc)

theorem isTrim_of_all (h : s.all (!isBlank ·) = true) : IsTrim s := isTrim_of_forall (by simpa using h)

theorem dropBlanks_of_first (h : ∀ c, s.head? = some c → isBlank c = false) : dropBlanks s = s := by
  cases s with
  | nil => rfl
  | cons c rest => rw [dropBlanks, List.dropWhile_cons_of_neg (by simp [h c rfl])]

/-- **Blanks around a text are stripped**, and nothing else is. -/
theorem stripChars_framed (hl : ∀ c ∈ l, isBlank c = true) (hs : IsTrim s)
    (hr : ∀ c ∈ r, isBlank c = true) : stripChars (l ++ (s ++ r)) = s := by
  have hleft : dropBlanks (l ++ (s ++ r)) = dropBlanks (s ++ r) := List.dropWhile_append_of_pos hl
  rw [stripChars, hleft]
  by_cases hempty : s = []
  · subst hempty
    have hblank : dropBlanks ([] ++ r) = [] := List.dropWhile_eq_nil_iff.2 hr
    rw [hblank]
    rfl
  · have hfirst : dropBlanks (s ++ r) = s ++ r := dropBlanks_of_first fun c hc =>
      hs.first c (by rwa [List.head?_append, Option.or_eq_left_of_isSome (by simpa using hempty)] at hc)
    have hright : dropBlanks (r.reverse ++ s.reverse) = dropBlanks s.reverse :=
      List.dropWhile_append_of_pos fun c hc => hr c (List.mem_reverse.1 hc)
    have hlast : dropBlanks s.reverse = s.reverse := dropBlanks_of_first fun c hc =>
      hs.last c (by rwa [List.head?_reverse] at hc)
    rw [hfirst, List.reverse_append, hright, hlast, List.reverse_reverse]

theorem stripChars_of_isTrim (hs : IsTrim s) : stripChars s = s := by
  simpa using stripChars_framed (l := []) (r := []) (by simp) hs (by simp)

theorem stripChars_of_forall (h : ∀ c ∈ s, isBlank c = false) : stripChars s = s :=
  stripChars_of_isTrim (isTrim_of_forall h)

/-- Texts that are joined keep their ends. -/
theorem IsTrim.append (hl : IsTrim l) (hr : IsTrim r) (hlne : l ≠ []) (hrne : r ≠ []) (s : List Char) :
    IsTrim (l ++ (s ++ r)) where
  first c hc := hl.first c <| by
    rwa [List.head?_append, Option.or_eq_left_of_isSome (by simpa using hlne)] at hc
  last c hc := hr.last c <| by
    rwa [List.getLast?_append, List.getLast?_append, Option.or_eq_left_of_isSome (by simp [hrne]),
      Option.or_eq_left_of_isSome (by simpa using hrne)] at hc

/-- Pieces that are joined are empty only if there are none, and keep their ends. -/
theorem isTrim_intercalate {sep : List Char} : ∀ {pieces : List (List Char)},
    (∀ s ∈ pieces, s ≠ [] ∧ IsTrim s) →
      (sep.intercalate pieces = [] ↔ pieces = []) ∧ IsTrim (sep.intercalate pieces)
  | [], _ => ⟨by simp, ⟨by simp, by simp⟩⟩
  | [s], h => by
      rw [List.intercalate_singleton]
      exact ⟨by simp [(h s (by simp)).1], (h s (by simp)).2⟩
  | s :: t :: rest, h => by
      rw [List.forall_mem_cons] at h
      obtain ⟨hempty, htrim⟩ : (sep.intercalate (t :: rest) = [] ↔ t :: rest = []) ∧
          IsTrim (sep.intercalate (t :: rest)) := isTrim_intercalate h.2
      have hne : sep.intercalate (t :: rest) ≠ [] := fun hnil => List.cons_ne_nil _ _ (hempty.1 hnil)
      rw [List.intercalate_cons_cons, List.append_assoc]
      exact ⟨by simp [h.1.1], h.1.2.append htrim h.1.1 hne sep⟩

/-! ## Marks and separators -/

/-- A mark is found where its first character occurs for the first time. -/
theorem cutFirst_append {m : Char} {mark : List Char} (hs : m ∉ s) (t : List Char) :
    cutFirst (m :: mark) (s ++ (m :: mark ++ t)) = some (s, t) := by
  induction s with
  | nil => simp [cutFirst]
  | cons c rest ih =>
      rw [List.mem_cons, not_or] at hs
      have hmark : (m :: mark).isPrefixOf (c :: (rest ++ (m :: mark ++ t))) = false := by
        simp [List.isPrefixOf, hs.1]
      rw [List.cons_append, cutFirst, hmark, if_neg Bool.false_ne_true, ih hs.2]
      rfl

/-- A mark is found where its last character occurs for the last time. -/
theorem cutLast_append {m : Char} {mark : List Char} (hs : m ∉ s) (t : List Char) :
    cutLast (mark ++ [m]) (t ++ (mark ++ m :: s)) = some (t, s) := by
  have hcut : cutFirst (m :: mark.reverse) (s.reverse ++ (m :: mark.reverse ++ t.reverse)) =
      some (s.reverse, t.reverse) := cutFirst_append (by simpa using hs) _
  have hreverse : (t ++ (mark ++ m :: s)).reverse = s.reverse ++ (m :: mark.reverse ++ t.reverse) := by
    simp
  rw [cutLast, hreverse, List.reverse_append, List.reverse_singleton, List.singleton_append, hcut]
  simp

section Pieces

variable {p : Char → Bool}

theorem splitChars_of_forall (hs : ∀ c ∈ s, p c = false) : splitChars p s = [s] := by
  induction s with
  | nil => rfl
  | cons c rest ih =>
      rw [List.forall_mem_cons] at hs
      rw [splitChars, hs.1, ih hs.2]
      rfl

theorem splitChars_append {c : Char} (hs : ∀ c ∈ s, p c = false) (hc : p c = true) (t : List Char) :
    splitChars p (s ++ c :: t) = s :: splitChars p t := by
  induction s with
  | nil =>
      rw [List.nil_append, splitChars, hc]
      rfl
  | cons d rest ih =>
      rw [List.forall_mem_cons] at hs
      rw [List.cons_append, splitChars, hs.1, ih hs.2]
      rfl

/-- **Pieces are found again** that are joined by a separator and a blank; all but the first one start with
the blank, so `l` stands for what blanks come before the first one. -/
theorem stripChars_splitChars_intercalate {sep : Char} (hblank : sep ≠ ' ') :
    ∀ {pieces : List (List Char)} {l : List Char}, pieces ≠ [] → (∀ c ∈ l, c = ' ') →
      (∀ s ∈ pieces, IsTrim s ∧ sep ∉ s) →
      (splitChars (· == sep) (l ++ [sep, ' '].intercalate pieces)).map stripChars = pieces
  | [], _, hne, _, _ => absurd rfl hne
  | s :: rest, l, _, hl, h => by
      rw [List.forall_mem_cons] at h
      obtain ⟨⟨htrim, hsep⟩, hrest⟩ := h
      have hpiece : ∀ c ∈ l ++ s, (c == sep) = false := by
        intro c hc
        rw [beq_eq_false_iff_ne]
        rintro rfl
        rcases List.mem_append.1 hc with hc | hc
        · exact hblank (hl _ hc)
        · exact hsep hc
      have hstrip : stripChars (l ++ s) = s := by
        simpa using stripChars_framed (r := []) (fun c hc => hl c hc ▸ rfl) htrim (by simp)
      cases rest with
      | nil =>
          rw [List.intercalate_singleton, splitChars_of_forall hpiece, List.map_singleton, hstrip]
      | cons t rest =>
          have hnext := stripChars_splitChars_intercalate hblank (l := [' ']) (List.cons_ne_nil t rest)
            (by simp) hrest
          have hjoined : l ++ [sep, ' '].intercalate (s :: t :: rest) =
              (l ++ s) ++ sep :: ([' '] ++ [sep, ' '].intercalate (t :: rest)) := by
            simp [List.intercalate_cons_cons]
          rw [hjoined, splitChars_append hpiece (by simp), List.map_cons, hstrip, hnext]

end Pieces

end Text

end SymbolicAlgebra
