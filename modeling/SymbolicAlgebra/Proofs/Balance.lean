import Mathlib
import SymbolicAlgebra.Sexpr.Reader

/-!
# Proofs/Balance — the reader takes just the balanced texts

An opening parenthesis goes up by one, a closing one down; the *height* of tokens is where they end.
`Stays h tokens` says that tokens read from the height `h` on never go below the ground.  Reading one
expression goes on until the ground is reached (`readOne_outcome`), so a text is read just if it stays
above the ground and ends there, and a parenthesis is missing just if it ends higher up
(`reading_balanced`).

The count of open parentheses scans the characters on its own, without cutting them into atoms; it
still is the height of the tokens (`depthFrom_eq`).
-/

namespace SymbolicAlgebra.Sexpr

/-! ## Height -/

/-- How many parentheses a token opens. -/
def Token.rise : Token → Int
  | opening => 1
  | closing => -1
  | atom _ => 0

/-- How many parentheses tokens leave open. -/
def height (tokens : List Token) : Int := (tokens.map Token.rise).sum

@[simp] theorem height_nil : height [] = 0 := rfl

@[simp] theorem height_cons (t : Token) (tokens : List Token) :
    height (t :: tokens) = t.rise + height tokens := by
  simp [height]

@[simp] theorem height_append (xs ys : List Token) : height (xs ++ ys) = height xs + height ys := by
  simp [height]

/-- The height is the number of opening parentheses less that of closing ones. -/
theorem height_eq (tokens : List Token) :
    height tokens = (tokens.count .opening : Int) - tokens.count .closing := by
  induction tokens with
  | nil => rfl
  | cons t rest ih =>
      rw [height_cons, ih]
      cases t <;> simp [Token.rise] <;> omega

@[simp] theorem height_flushAtom (acc : List Char) : height (flushAtom acc) = 0 := by
  unfold flushAtom
  split <;> simp [Token.rise]

/-- **The count of open parentheses is the height of the tokens.** -/
theorem depthFrom_eq (comment : Bool) (acc cs : List Char) (depth : Int) :
    depthFrom comment depth cs = depth + height (tokenizeFrom comment acc cs) := by
  induction cs generalizing comment acc depth with
  | nil => simp [depthFrom, tokenizeFrom]
  | cons c rest ih =>
      rw [depthFrom, tokenizeFrom]
      -- the two scans make the same case distinction, but for blanks, which end atoms only
      split
      next => exact ih _ _ _
      split
      next => exact ih _ _ _
      split
      next =>
        rw [ih false [] _, height_append, height_flushAtom, height_cons, Token.rise]
        omega
      split
      next =>
        rw [ih false [] _, height_append, height_flushAtom, height_cons, Token.rise]
        omega
      split
      next => rw [ih false [] _, height_append, height_flushAtom, zero_add]
      next => exact ih _ _ _

/-! ## Tokens that stay above the ground -/

/-- Tokens that never go below the ground, read from a height on. -/
def Stays (h : Int) (tokens : List Token) : Prop := ∀ p, p <+: tokens → 0 ≤ h + height p

variable {h : Int} {t : Token} {xs ys tokens : List Token}

theorem stays_nil : Stays h [] ↔ 0 ≤ h := by simp [Stays, List.prefix_nil]

theorem stays_cons : Stays h (t :: xs) ↔ 0 ≤ h ∧ Stays (h + t.rise) xs := by
  constructor
  · intro hs
    refine ⟨by simpa using hs [] (List.nil_prefix), fun p hp => ?_⟩
    have := hs (t :: p) (List.cons_prefix_cons.2 ⟨rfl, hp⟩)
    rw [height_cons] at this
    omega
  · rintro ⟨hh, hs⟩ p hp
    rcases List.prefix_cons_iff.1 hp with rfl | ⟨q, rfl, hq⟩
    · simpa using hh
    · have := hs q hq
      rw [height_cons]
      omega

theorem stays_append : Stays h (xs ++ ys) ↔ Stays h xs ∧ Stays (h + height xs) ys := by
  induction xs generalizing h with
  | nil =>
      have hground : Stays h ys → 0 ≤ h := fun hs => by simpa using hs [] List.nil_prefix
      simpa [stays_nil] using hground
  | cons t xs ih =>
      rw [List.cons_append, stays_cons, stays_cons, ih, height_cons, and_assoc, add_assoc]

/-- No prefix closes more than it opens. -/
theorem stays_iff : Stays 0 tokens ↔
    ∀ p, p <+: tokens → p.count .closing ≤ p.count .opening := by
  refine forall₂_congr fun p _ => ?_
  rw [height_eq]
  omega

/-! ## Reading -/

/-- Where the reading of one expression may stop: back on the ground, at the end of the tokens before
that, or in front of a parenthesis that closes nothing. -/
def Stops (stack : List (List Raw)) (tokens : List Token) :
    Except Fault (Raw × List Token) → Prop
  | .ok (_, rest) =>
      ∃ used, tokens = used ++ rest ∧ Stays stack.length used ∧ stack.length + height used = 0
  | .error f =>
      (f = .missingClose ∧ Stays stack.length tokens ∧
          (stack = [] ∧ tokens = [] ∨ 0 < stack.length + height tokens)) ∨
        f = .unexpectedClose ∧ stack = [] ∧ ∃ rest, tokens = .closing :: rest

/-- A token that leaves lists open is read on from. -/
theorem Stops.cons {stack stack' : List (List Raw)} {x : Except Fault (Raw × List Token)}
    (hlength : (stack'.length : Int) = stack.length + t.rise) (hopen : stack' ≠ [])
    (hs : Stops stack' tokens x) : Stops stack (t :: tokens) x := by
  have hpositive : 0 < stack'.length := List.length_pos_iff.2 hopen
  match x, hs with
  | .ok (_, rest), ⟨used, hused, hstays, hend⟩ =>
      refine ⟨t :: used, by rw [hused, List.cons_append], ?_, ?_⟩
      · exact stays_cons.2 ⟨by omega, hlength ▸ hstays⟩
      · rw [height_cons]
        omega
  | .error f, .inl ⟨hf, hstays, hend⟩ =>
      refine .inl ⟨hf, stays_cons.2 ⟨by omega, hlength ▸ hstays⟩, .inr ?_⟩
      have := hend.resolve_left fun hnil => hopen hnil.1
      rw [height_cons]
      omega
  | .error f, .inr ⟨_, hnil, _⟩ => exact absurd hnil hopen

/-- **Reading one expression** goes on until the ground is reached. -/
theorem readOne_outcome (stack : List (List Raw)) {tokens : List Token}
    (hatoms : ∀ s, .atom s ∈ tokens → ∃ r, atom s = .ok r) :
    Stops stack tokens (readOne stack tokens) := by
  fun_induction readOne stack tokens with
  | case1 stack =>
      refine .inl ⟨rfl, stays_nil.2 (by omega), ?_⟩
      cases stack with
      | nil => exact .inl ⟨rfl, rfl⟩
      | cons _ _ => exact .inr (by simp)
  | case2 stack rest ih =>
      exact Stops.cons (by simp [Token.rise]) (by simp) (ih fun s hs => hatoms s (by simp [hs]))
  | case3 rest => exact .inr ⟨rfl, rfl, rest, rfl⟩
  | case4 items rest =>
      exact ⟨[.closing], rfl, stays_cons.2 ⟨by simp, stays_nil.2 (by simp [Token.rise])⟩,
        by simp [Token.rise]⟩
  | case5 items outer stack rest ih =>
      refine Stops.cons ?_ (by simp) (ih fun s hs => hatoms s (by simp [hs]))
      simp [Token.rise]
  | case6 s rest =>
      obtain ⟨r, hr⟩ := hatoms s (by simp)
      rw [hr]
      exact ⟨[.atom s], rfl, stays_cons.2 ⟨by simp, stays_nil.2 (by simp [Token.rise])⟩,
        by simp [Token.rise]⟩
  | case7 items stack s rest ih =>
      obtain ⟨r, hr⟩ := hatoms s (by simp)
      rw [hr]
      exact Stops.cons (by simp [Token.rise]) (by simp) (ih r fun s hs => hatoms s (by simp [hs]))

/-- What reading all expressions says of the tokens. -/
def Tells (tokens : List Token) : Except Fault (List Raw) → Prop
  | .ok _ => Stays 0 tokens ∧ height tokens = 0
  | .error f => f = .missingClose ∧ Stays 0 tokens ∧ 0 < height tokens ∨
      f = .unexpectedClose ∧ ¬Stays 0 tokens

/-- **Reading all expressions** tells whether the tokens are balanced, and what is wrong otherwise. -/
theorem readAll_outcome {tokens : List Token}
    (hatoms : ∀ s, .atom s ∈ tokens → ∃ r, atom s = .ok r) : Tells tokens (readAll tokens) := by
  fun_induction readAll tokens with
  | case1 => exact ⟨stays_nil.2 le_rfl, rfl⟩
  | case2 tokens hne f hread =>
      have hstops := readOne_outcome [] hatoms
      rw [hread] at hstops
      rcases hstops with ⟨rfl, hstays, hend⟩ | ⟨rfl, -, rest, rfl⟩
      · exact .inl ⟨rfl, hstays, by simpa using hend.resolve_left fun hnil => hne hnil.2⟩
      · refine .inr ⟨rfl, fun hstays => ?_⟩
        simpa [Token.rise] using (stays_cons.1 hstays).2 [] List.nil_prefix
  | case3 tokens hne r rest hread ih =>
      have hstops := readOne_outcome [] hatoms
      rw [hread] at hstops
      obtain ⟨used, rfl, hstays, hend⟩ := hstops
      have hground : height used = 0 := by simpa using hend
      have hrest : Stays 0 (used ++ rest) ↔ Stays 0 rest := by
        rw [stays_append, hground, add_zero]
        exact and_iff_right hstays
      have htells := ih fun s hs => hatoms s (by simp [hs])
      cases hall : readAll rest with
      | ok rs =>
          rw [hall] at htells
          exact ⟨hrest.2 htells.1, by rw [height_append, hground, htells.2]; rfl⟩
      | error f =>
          rw [hall] at htells
          refine htells.imp (fun ⟨hf, hs, hh⟩ => ⟨hf, hrest.2 hs, ?_⟩) fun ⟨hf, hs⟩ => ⟨hf, mt hrest.1 hs⟩
          rw [height_append, hground, zero_add]
          exact hh

/-- **The reader takes just the balanced texts**: those with no more closing than opening parentheses up
to any point, and as many in all.  If only the total is wrong, a parenthesis is missing.  The count of open
parentheses tells which it is. -/
theorem reading_balanced (text : String) :
    openDepth text = ((tokenize text).count .opening : Int) - (tokenize text).count .closing ∧
      ((∀ s, .atom s ∈ tokenize text → ∃ r, atom s = .ok r) →
        ((∃ rs, parseAll text = .ok rs) ↔
          (∀ p, p <+: tokenize text → p.count .closing ≤ p.count .opening) ∧
            (tokenize text).count .opening = (tokenize text).count .closing) ∧
        ((∀ p, p <+: tokenize text → p.count .closing ≤ p.count .opening) →
          (parseAll text = .error .missingClose ↔ 0 < openDepth text))) := by
  have hdepth : openDepth text = height (tokenize text) := by
    rw [openDepth, depthFrom_eq false [] _ 0, zero_add]
    rfl
  refine ⟨hdepth.trans (height_eq _), fun hatoms => ?_⟩
  have htells := readAll_outcome hatoms
  have hequal : (tokenize text).count .opening = (tokenize text).count .closing ↔
      height (tokenize text) = 0 := by
    rw [height_eq]
    omega
  rw [← stays_iff, hequal, hdepth, parseAll]
  cases hread : readAll (tokenize text) with
  | ok rs =>
      rw [hread] at htells
      refine ⟨⟨fun _ => htells, fun _ => ⟨rs, rfl⟩⟩, fun _ => ⟨nofun, fun hh => ?_⟩⟩
      rw [htells.2] at hh
      cases hh
  | error f =>
      rw [hread] at htells
      rcases htells with ⟨rfl, hstays, hh⟩ | ⟨rfl, hstays⟩
      · exact ⟨⟨nofun, fun hs => absurd hs.2 hh.ne'⟩, fun _ => ⟨fun _ => hh, fun _ => rfl⟩⟩
      · exact ⟨⟨nofun, fun hs => absurd hs.1 hstays⟩, fun hs => absurd hs hstays⟩

/-- A text with a comment, in which the last parenthesis is missing. -/
theorem reading_balanced_commentedSum :
    (∀ s, .atom s ∈ tokenize "(Add x ; first (\n (Sin y)" → ∃ r, atom s = .ok r) ∧
      parseAll "(Add x ; first (\n (Sin y)" = .error .missingClose := by
  have htokens : tokenize "(Add x ; first (\n (Sin y)" =
      [.opening, .atom "Add", .atom "x", .opening, .atom "Sin", .atom "y", .closing] := by
    decide +kernel
  have hatoms : ∀ s, .atom s ∈ tokenize "(Add x ; first (\n (Sin y)" → ∃ r, atom s = .ok r := by
    rw [htokens]
    intro s hs
    have hs : s = "Add" ∨ s = "x" ∨ s = "Sin" ∨ s = "y" := by simpa using hs
    rcases hs with rfl | rfl | rfl | rfl <;> exact ⟨_, rfl⟩
  refine ⟨hatoms, (((reading_balanced _).2 hatoms).2 ?_).2 (by decide +kernel)⟩
  rw [htokens]
  exact stays_iff.1 (by simp [stays_cons, stays_nil, Token.rise])

end SymbolicAlgebra.Sexpr
