import Mathlib.Tactic.Common
import SymbolicAlgebra.Proofs.TextPieces

/-!
# Proofs/TextCuts — where texts are cut

A text is what is left of it when it is stripped, between blanks (`Text.exists_framed`), so two texts that are joined
by a blank are stripped at their outer ends only (`Text.exists_stripChars_join`).  A mark does not reach across a
character that it does not hold: it is found in front of such a character or looked for anew behind it
(`Text.cutFirst_across`).  So stripping a text, or joining two texts by another blank, does not change which marks
are found (`Text.contains_strip`, `Text.contains_join`).
-/

namespace SymbolicAlgebra.Text

variable {mark s t l r : List Char} {c : Char}

/-! ## Blanks at the ends -/

theorem mem_of_mem_dropBlanks (h : c ∈ dropBlanks s) : c ∈ s := (List.dropWhile_suffix _).subset h

theorem mem_of_mem_stripChars (h : c ∈ stripChars s) : c ∈ s := by
  have hback := mem_of_mem_dropBlanks (List.mem_reverse.1 h)
  exact mem_of_mem_dropBlanks (List.mem_reverse.1 hback)

theorem count_dropBlanks (hc : isBlank c = false) (s : List Char) : (dropBlanks s).count c = s.count c := by
  have hblanks : (s.takeWhile isBlank).count c = 0 := List.count_eq_zero.2 fun hmem =>
    Bool.false_ne_true (hc.symm.trans (List.mem_takeWhile_imp hmem))
  have hwhole := congrArg (List.count c) (List.takeWhile_append_dropWhile (p := isBlank) (l := s))
  rw [List.count_append, hblanks, Nat.zero_add] at hwhole
  exact hwhole

theorem count_stripChars (hc : isBlank c = false) (s : List Char) : (stripChars s).count c = s.count c := by
  rw [stripChars, List.count_reverse, count_dropBlanks hc, List.count_reverse, count_dropBlanks hc]

theorem first_of_dropBlanks (h : (dropBlanks s).head? = some c) : isBlank c = false := by
  have hfirst := List.head?_dropWhile_not isBlank s
  rw [show s.dropWhile isBlank = dropBlanks s from rfl, h] at hfirst
  exact hfirst

theorem exists_front (s : List Char) : ∃ l, (∀ c ∈ l, isBlank c = true) ∧ s = l ++ dropBlanks s :=
  ⟨s.takeWhile isBlank, fun _ hc => List.mem_takeWhile_imp hc, List.takeWhile_append_dropWhile.symm⟩

theorem exists_back (s : List Char) : ∃ r, (∀ c ∈ r, isBlank c = true) ∧ dropBlanks s = stripChars s ++ r := by
  obtain ⟨l, hl, hback⟩ := exists_front (dropBlanks s).reverse
  refine ⟨l.reverse, fun c hc => hl c (List.mem_reverse.1 hc), ?_⟩
  rw [stripChars, ← List.reverse_append, ← hback, List.reverse_reverse]

/-- A text is what is left when it is stripped, between blanks. -/
theorem exists_framed (s : List Char) : ∃ l r, (∀ c ∈ l, isBlank c = true) ∧ (∀ c ∈ r, isBlank c = true) ∧
    s = l ++ (stripChars s ++ r) := by
  obtain ⟨l, hl, hfront⟩ := exists_front s
  obtain ⟨r, hr, hback⟩ := exists_back s
  exact ⟨l, r, hl, hr, hback ▸ hfront⟩

theorem isTrim_stripChars (s : List Char) : IsTrim (stripChars s) where
  first c hc := by
    obtain ⟨r, -, hback⟩ := exists_back s
    refine first_of_dropBlanks (s := s) ?_
    rw [hback, List.head?_append, hc]
    rfl
  last c hc := by
    rw [stripChars, List.getLast?_reverse] at hc
    exact first_of_dropBlanks hc

theorem stripChars_space_cons (hs : IsTrim s) : stripChars (' ' :: s) = s := by
  have hframed := stripChars_framed (l := [' ']) (r := []) (List.forall_mem_singleton.2 (by decide)) hs (by simp)
  rwa [List.append_nil] at hframed

theorem stripChars_append_space (hs : IsTrim s) : stripChars (s ++ [' ']) = s :=
  stripChars_framed (l := []) (by simp) hs (List.forall_mem_singleton.2 (by decide))

/-! ## Joined texts -/

/-- A blank text in front of a blank is stripped. -/
theorem stripChars_join_of_blank_left (hl : ∀ d ∈ l, isBlank d = true) (hc : isBlank c = true) (r : List Char) :
    stripChars (l ++ c :: r) = stripChars r := by
  obtain ⟨b, e, hb, he, hr⟩ := exists_framed r
  have hfront : ∀ d ∈ l ++ c :: b, isBlank d = true :=
    List.forall_mem_append.2 ⟨hl, List.forall_mem_cons.2 ⟨hc, hb⟩⟩
  have hwhole : l ++ c :: r = (l ++ c :: b) ++ (stripChars r ++ e) := by
    conv_lhs => rw [hr]
    simp
  rw [hwhole, stripChars_framed hfront (isTrim_stripChars r) he]

/-- A blank text behind a blank is stripped. -/
theorem stripChars_join_of_blank_right (hr : ∀ d ∈ r, isBlank d = true) (hc : isBlank c = true) (l : List Char) :
    stripChars (l ++ c :: r) = stripChars l := by
  obtain ⟨b, e, hb, he, hl⟩ := exists_framed l
  have hend : ∀ d ∈ e ++ c :: r, isBlank d = true :=
    List.forall_mem_append.2 ⟨he, List.forall_mem_cons.2 ⟨hc, hr⟩⟩
  have hwhole : l ++ c :: r = b ++ (stripChars l ++ (e ++ c :: r)) := by
    conv_lhs => rw [hl]
    simp
  rw [hwhole, stripChars_framed hb (isTrim_stripChars l) hend]

/-- **Two texts that are not blank** are stripped at their outer ends when they are joined. -/
theorem exists_stripChars_join (hl : stripChars l ≠ []) (hr : stripChars r ≠ []) :
    ∃ l' r', stripChars l' = stripChars l ∧ stripChars r' = stripChars r ∧ (∀ d ∈ l', d ∈ l) ∧
      (∀ d ∈ r', d ∈ r) ∧ l'.head? = (stripChars l).head? ∧ ∀ c, stripChars (l ++ c :: r) = l' ++ c :: r' := by
  obtain ⟨b, e, hb, he, hl'⟩ := exists_framed l
  obtain ⟨b', e', hb', he', hr'⟩ := exists_framed r
  refine ⟨stripChars l ++ e, b' ++ stripChars r, ?_, ?_, fun d hd => ?_, fun d hd => ?_, ?_, fun c => ?_⟩
  · exact stripChars_framed (l := []) (by simp) (isTrim_stripChars l) he
  · simpa using stripChars_framed (r := []) hb' (isTrim_stripChars r) (by simp)
  · rw [hl']
    exact List.mem_append_right _ hd
  · rw [hr', ← List.append_assoc]
    exact List.mem_append_left _ hd
  · rw [List.head?_append, Option.or_eq_left_of_isSome (by simpa using hl)]
  · have htrim := (isTrim_stripChars l).append (isTrim_stripChars r) hl hr (e ++ c :: b')
    have hwhole : l ++ c :: r = b ++ ((stripChars l ++ (e ++ c :: b' ++ stripChars r)) ++ e') := by
      conv_lhs => rw [hl', hr']
      simp
    rw [hwhole, stripChars_framed hb htrim he']
    simp

/-! ## Marks -/

/-- A mark does not reach across a character that it does not hold. -/
theorem isPrefixOf_append_cons (hc : c ∉ mark) : mark.isPrefixOf (s ++ c :: t) = mark.isPrefixOf s := by
  induction mark generalizing s with
  | nil => simp
  | cons m mark ih =>
      rw [List.mem_cons, not_or] at hc
      cases s with
      | nil => simp [List.isPrefixOf, Ne.symm hc.1]
      | cons d s => simp [List.isPrefixOf, ih hc.2]

/-- Behind a text without the mark, and a character that the mark does not hold, the mark is looked for anew. -/
theorem cutFirst_across (hmark : mark ≠ []) (hc : c ∉ mark) (hs : cutFirst mark s = none) (t : List Char) :
    cutFirst mark (s ++ c :: t) = (cutFirst mark t).map fun (before, after) => (s ++ c :: before, after) := by
  induction s with
  | nil =>
      have hprefix : mark.isPrefixOf (c :: t) = false := by
        cases mark with
        | nil => exact absurd rfl hmark
        | cons m mark => exact isPrefixOf_append_cons (s := []) hc
      simp [cutFirst, hprefix]
  | cons d s ih =>
      have hprefix : mark.isPrefixOf (d :: s) = false := by
        by_contra h
        simp [cutFirst, Bool.not_eq_false _ ▸ h] at hs
      rw [cutFirst, hprefix, if_neg Bool.false_ne_true, Option.map_eq_none_iff] at hs
      have hprefix' : mark.isPrefixOf (d :: (s ++ c :: t)) = false :=
        (isPrefixOf_append_cons (s := d :: s) hc).trans hprefix
      rw [List.cons_append, cutFirst, hprefix', if_neg Bool.false_ne_true, ih hs, Option.map_map]
      rfl

theorem cutFirst_across_eq_none (hmark : mark ≠ []) (hc : c ∉ mark) (hs : cutFirst mark s = none)
    (ht : cutFirst mark t = none) : cutFirst mark (s ++ c :: t) = none := by
  rw [cutFirst_across hmark hc hs, ht]
  rfl

theorem cutFirst_self (hmark : mark ≠ []) (t : List Char) : cutFirst mark (mark ++ t) = some ([], t) := by
  cases mark with
  | nil => exact absurd rfl hmark
  | cons m mark => simp [cutFirst]

theorem cutFirst_eq_none {m : Char} (h : m ∉ s) : cutFirst (m :: mark) s = none := by
  induction s with
  | nil => rfl
  | cons d s ih =>
      rw [List.mem_cons, not_or] at h
      simp [cutFirst, List.isPrefixOf, h.1, ih h.2]

theorem eq_of_cutFirst {mark s before after : List Char} (h : cutFirst mark s = some (before, after)) :
    s = before ++ (mark ++ after) := by
  induction s generalizing before with
  | nil =>
      rw [cutFirst] at h
      split at h
      next hmark =>
        cases h
        simp [List.isEmpty_iff.1 hmark]
      next => cases h
  | cons c s ih =>
      rw [cutFirst] at h
      split at h
      next hprefix =>
        cases h
        exact (List.prefix_iff_eq_append.1 (List.isPrefixOf_iff_prefix.1 hprefix)).symm
      next =>
        obtain ⟨⟨before, after⟩, hcut, h⟩ := Option.map_eq_some_iff.1 h
        cases h
        rw [ih hcut]
        rfl

theorem isSome_cutFirst_append (h : (cutFirst mark s).isSome = true) (t : List Char) :
    (cutFirst mark (s ++ t)).isSome = true := by
  induction s with
  | nil =>
      have hmark : mark = [] := by
        by_contra hne
        simp [cutFirst, hne] at h
      subst hmark
      cases t <;> simp [cutFirst]
  | cons c s ih =>
      rw [cutFirst] at h
      rw [List.cons_append, cutFirst]
      split
      next => rfl
      next hprefix =>
        have hshort : ¬mark.isPrefixOf (c :: s) = true := fun hp => hprefix <| by
          rw [List.isPrefixOf_iff_prefix] at hp ⊢
          exact hp.trans (List.prefix_append (c :: s) t)
        rw [if_neg hshort, Option.isSome_map] at h
        rw [Option.isSome_map, ih h]

/-- A mark that does not hold a character stands in front of it or behind it. -/
theorem isSome_cutFirst_across (hmark : mark ≠ []) (hc : c ∉ mark) :
    (cutFirst mark (s ++ c :: t)).isSome = ((cutFirst mark s).isSome || (cutFirst mark t).isSome) := by
  cases hs : cutFirst mark s with
  | none => simp [cutFirst_across hmark hc hs]
  | some p => simpa using isSome_cutFirst_append (by rw [hs]; rfl) (c :: t)

section Blanks

variable (hmark : mark ≠ []) (hblank : ∀ c ∈ mark, isBlank c = false)

include hmark hblank

theorem isSome_cutFirst_blanks_append {l : List Char} (hl : ∀ c ∈ l, isBlank c = true) :
    (cutFirst mark (l ++ t)).isSome = (cutFirst mark t).isSome := by
  induction l with
  | nil => rfl
  | cons c l ih =>
      rw [List.forall_mem_cons] at hl
      have hc : c ∉ mark := fun hmem => Bool.false_ne_true ((hblank c hmem).symm.trans hl.1)
      have hacross := isSome_cutFirst_across (s := []) (t := l ++ t) hmark hc
      rwa [ih hl.2, show cutFirst mark [] = none by simp [cutFirst, hmark]] at hacross

theorem isSome_cutFirst_append_blanks {r : List Char} (hr : ∀ c ∈ r, isBlank c = true) :
    (cutFirst mark (t ++ r)).isSome = (cutFirst mark t).isSome := by
  cases r with
  | nil => rw [List.append_nil]
  | cons c r =>
      rw [List.forall_mem_cons] at hr
      have hc : c ∉ mark := fun hmem => Bool.false_ne_true ((hblank c hmem).symm.trans hr.1)
      have hrest : (cutFirst mark r).isSome = false := by
        rw [← List.append_nil r, isSome_cutFirst_blanks_append hmark hblank hr.2]
        simp [cutFirst, hmark]
      rw [isSome_cutFirst_across hmark hc, hrest, Bool.or_false]

/-- A mark that holds no blank stands between the blanks at the ends of a text. -/
theorem isSome_cutFirst_stripChars (s : List Char) :
    (cutFirst mark (stripChars s)).isSome = (cutFirst mark s).isSome := by
  obtain ⟨l, r, hl, hr, hs⟩ := exists_framed s
  conv_rhs => rw [hs]
  rw [isSome_cutFirst_blanks_append hmark hblank hl, isSome_cutFirst_append_blanks hmark hblank hr]

end Blanks

theorem not_isBlank_arrow : ∀ c ∈ "=>".toList, isBlank c = false := by
  intro c hc
  obtain rfl | rfl : c = '=' ∨ c = '>' := by simpa using hc
  all_goals decide

theorem contains_strip {mark : String} (hmark : mark.toList ≠ []) (hblank : ∀ c ∈ mark.toList, isBlank c = false)
    (s : String) : Text.contains mark (strip s) = Text.contains mark s := by
  rw [Text.contains, Text.contains, strip, String.toList_ofList, isSome_cutFirst_stripChars hmark hblank]

/-- A blank between two texts is as good as another for what they contain. -/
theorem contains_join {mark : String} (hmark : mark.toList ≠ []) (hblank : ∀ c ∈ mark.toList, isBlank c = false)
    {l r a b : String} {c d : Char} (hc : isBlank c = true) (hd : isBlank d = true)
    (ha : a.toList = l.toList ++ c :: r.toList) (hb : b.toList = l.toList ++ d :: r.toList) :
    Text.contains mark a = Text.contains mark b := by
  have hnot : ∀ {e}, isBlank e = true → e ∉ mark.toList := fun he hmem =>
    Bool.false_ne_true ((hblank _ hmem).symm.trans he)
  rw [Text.contains, Text.contains, ha, hb, isSome_cutFirst_across hmark (hnot hc),
    isSome_cutFirst_across hmark (hnot hd)]

end SymbolicAlgebra.Text
