import SymbolicAlgebra.Proofs.Inclusion

/-!
# Proofs/InclusionChains — chains of inclusions

A file is reached from another one by a chain of inclusions, the places of the lines that include
(`Directory.via`).  The inclusions of a file are cyclic if a chain leads from a file it reaches back to the
same place (`Directory.Cyclic`), and they share a file if two chains lead to one place, neither of them on the
way of the other (`Directory.Shares`).  Without either of them, and only then, no place is reached twice
(`Directory.once_iff`).
-/

namespace SymbolicAlgebra

open Kernel (includedPath?)

namespace Path

/-- The place above a place is the place of the path above, if the last step is not one back. -/
theorem resolve_parent {p : Path} (h : p.parts.getLast? ≠ some "..") : p.parent.resolve = p.resolve.parent := by
  obtain ⟨root, parts⟩ := p
  rcases List.eq_nil_or_concat parts with rfl | ⟨front, last, rfl⟩
  · rfl
  · rw [List.concat_eq_append] at h ⊢
    have hlast : last ≠ ".." := by simpa using h
    simp [parent, resolve, Directory.step_of_ne hlast]

/-- A path taken from a directory leads to a place that the place of the directory determines. -/
theorem resolve_join {p p' : Path} (h : p.resolve = p'.resolve) (q : Path) :
    (p.join q).resolve = (p'.join q).resolve := by
  unfold join
  split
  · simp only [resolve, Path.mk.injEq, List.reverse_inj] at h ⊢
    rw [List.foldl_append, List.foldl_append, h.1]
    rw [h.1] at h
    exact ⟨rfl, congrArg (List.foldl _ · q.parts) h.2⟩
  · rfl

end Path

namespace Directory

variable {d : Directory} {base path start p q : Path} {line : String} {lines rest : List String}
  {chain : List Nat} {seen seen' : List Path}

/-! ## Lines and what they include -/

/-- The lines of a file of rules. -/
def linesOf? (d : Directory) (p : Path) : Option (List String) :=
  if p.hasExtension "json" then none else (d.read p).toOption.map (Text.splitOnChar '\n')

/-- The path that a line of a file includes, taken from the directory of the file. -/
def inclusion? (base : Path) (line : String) : Option Path :=
  (includedPath? line).map fun text => base.join (Path.ofText text)

/-- The path that one of the lines includes. -/
def inclusionAt? (base : Path) (lines : List String) (n : Nat) : Option Path :=
  lines[n]?.bind (inclusion? base)

/-- The path that one of the lines of a file includes. -/
def includeAt? (d : Directory) (p : Path) (n : Nat) : Option Path :=
  (d.linesOf? p).bind (inclusionAt? p.parent · n)

/-- The path that a chain of inclusions leads to. -/
def via (d : Directory) (p : Path) (chain : List Nat) : Option Path := chain.foldlM d.includeAt? p

/-- The path that a chain of inclusions leads to which starts at one of the lines. -/
def viaLines (d : Directory) (base : Path) (lines : List String) : List Nat → Option Path
  | [] => none
  | n :: chain => (inclusionAt? base lines n).bind (d.via · chain)

@[simp] theorem via_nil : d.via p [] = some p := rfl

theorem via_cons (n : Nat) (chain : List Nat) :
    d.via p (n :: chain) = (d.includeAt? p n).bind (d.via · chain) := List.foldlM_cons

theorem via_append (chain chain' : List Nat) :
    d.via p (chain ++ chain') = (d.via p chain).bind (d.via · chain') := List.foldlM_append

/-- A chain that goes anywhere starts at one of the lines of the file. -/
theorem via_eq_viaLines (h : d.linesOf? p = some lines) (n : Nat) (chain : List Nat) :
    d.via p (n :: chain) = d.viaLines p.parent lines (n :: chain) := by
  rw [via_cons, includeAt?, h]
  rfl

/-- The chains that start at the lines of a file are those that go anywhere. -/
theorem viaLines_eq_some_iff (h : d.linesOf? p = some lines) :
    d.viaLines p.parent lines chain = some q ↔ chain ≠ [] ∧ d.via p chain = some q := by
  obtain _ | ⟨n, c⟩ := chain
  · simp [viaLines]
  · rw [via_eq_viaLines h]
    simp

/-- The path that a chain of inclusions leads to which starts at a line. -/
def viaLine (d : Directory) (base : Path) (line : String) (chain : List Nat) : Option Path :=
  (inclusion? base line).bind (d.via · chain)

/-- A chain starts at the first line or at another one. -/
theorem viaLines_cons_eq_some {q : Path} (h : d.viaLines base (line :: rest) chain = some q) :
    (∃ c, chain = 0 :: c ∧ d.viaLine base line c = some q) ∨
      ∃ n c, chain = (n + 1) :: c ∧ d.viaLines base rest (n :: c) = some q := by
  obtain _ | ⟨_ | n, c⟩ := chain
  · cases h
  · exact .inl ⟨c, rfl, h⟩
  · exact .inr ⟨n, c, rfl, h⟩

/-! ## Places that are reached once -/

/-- Chains lead to a place. -/
def Reached (chains : List Nat → Option Path) (place : Path) : Prop :=
  ∃ c q, chains c = some q ∧ q.resolve = place

/-- Chains lead to places that were not seen before, and no two of them to one place. -/
structure Once (chains : List Nat → Option Path) (seen : List Path) : Prop where
  unseen : ∀ c {q}, chains c = some q → q.resolve ∉ seen
  apart : ∀ c c' {q q'}, chains c = some q → chains c' = some q' → q.resolve = q'.resolve → c = c'

theorem viaLines_nil : d.viaLines base [] = fun _ => none := by
  funext c
  cases c <;> rfl

theorem once_nil : Once (d.viaLines base []) seen := by
  rw [viaLines_nil]
  exact ⟨fun _ _ h => (by cases h), fun _ _ _ _ h => (by cases h)⟩

/-- Lines lead to the places that the first one leads to, and the others. -/
theorem reached_cons {r : Path} : Reached (d.viaLines base (line :: rest)) r ↔
    Reached (d.viaLine base line) r ∨ Reached (d.viaLines base rest) r := by
  constructor
  · rintro ⟨c, q, hc, rfl⟩
    obtain ⟨c, rfl, hat⟩ | ⟨n, c, rfl, hat⟩ := viaLines_cons_eq_some hc
    · exact .inl ⟨c, q, hat, rfl⟩
    · exact .inr ⟨n :: c, q, hat, rfl⟩
  · rintro (⟨c, q, hc, rfl⟩ | ⟨_ | ⟨n, c⟩, q, hc, rfl⟩)
    · exact ⟨0 :: c, q, hc, rfl⟩
    · cases hc
    · exact ⟨(n + 1) :: c, q, hc, rfl⟩

/-- A file leads to its place, and to the places that its lines lead to. -/
theorem reached_via (h : d.linesOf? p = some lines) {r : Path} :
    Reached (d.via p) r ↔ r = p.resolve ∨ Reached (d.viaLines p.parent lines) r := by
  constructor
  · rintro ⟨c, q, hc, rfl⟩
    by_cases hne : c = []
    · subst hne
      cases hc
      exact .inl rfl
    · exact .inr ⟨c, q, (viaLines_eq_some_iff h).2 ⟨hne, hc⟩, rfl⟩
  · rintro (rfl | ⟨c, q, hc, rfl⟩)
    · exact ⟨[], p, rfl, rfl⟩
    · exact ⟨c, q, ((viaLines_eq_some_iff h).1 hc).2, rfl⟩

theorem Once.first (h : Once (d.viaLines base (line :: rest)) seen) : Once (d.viaLine base line) seen where
  unseen c _ hc := h.unseen (0 :: c) hc
  apart c c' _ _ hc hc' hsame := (List.cons.inj (h.apart (0 :: c) (0 :: c') hc hc' hsame)).2

/-- **Lines lead to each place once** if the first line does, and the others lead to other places. -/
theorem once_cons (hseen : ∀ r, r ∈ seen' ↔ r ∈ seen ∨ Reached (d.viaLine base line) r) :
    Once (d.viaLines base (line :: rest)) seen ↔
      Once (d.viaLine base line) seen ∧ Once (d.viaLines base rest) seen' := by
  constructor
  · intro h
    refine ⟨h.first, fun c q hc hmem => ?_, fun c c' q q' hc hc' hsame => ?_⟩
    · obtain _ | ⟨n, c⟩ := c
      · cases hc
      rcases (hseen _).1 hmem with hmem | ⟨c', q', hc', hsame⟩
      · exact h.unseen ((n + 1) :: c) hc hmem
      · cases h.apart (0 :: c') ((n + 1) :: c) hc' hc hsame
    · obtain _ | ⟨n, c⟩ := c
      · cases hc
      obtain _ | ⟨n', c'⟩ := c'
      · cases hc'
      simpa using h.apart ((n + 1) :: c) ((n' + 1) :: c') hc hc' hsame
  · rintro ⟨hline, hrest⟩
    have hother : ∀ {c c' q q'}, d.viaLine base line c = some q → d.viaLines base rest c' = some q' →
        q.resolve ≠ q'.resolve := fun hc hc' hsame =>
      hrest.unseen _ hc' ((hseen _).2 (.inr ⟨_, _, hc, hsame⟩))
    refine ⟨fun c q hc hmem => ?_, fun c c' q q' hc hc' hsame => ?_⟩
    · obtain ⟨c, rfl, hat⟩ | ⟨n, c, rfl, hat⟩ := viaLines_cons_eq_some hc
      · exact hline.unseen _ hat hmem
      · exact hrest.unseen _ hat ((hseen _).2 (.inl hmem))
    · -- two chains that start at the first line, at the first and another one, or at other ones
      obtain ⟨c, rfl, hat⟩ | ⟨n, c, rfl, hat⟩ := viaLines_cons_eq_some hc <;>
        obtain ⟨c', rfl, hat'⟩ | ⟨n', c', rfl, hat'⟩ := viaLines_cons_eq_some hc'
      · rw [hline.apart _ _ hat hat' hsame]
      · exact absurd hsame (hother hat hat')
      · exact absurd hsame.symm (hother hat' hat)
      · simpa using hrest.apart _ _ hat hat' hsame

/-- A line that includes nothing leads nowhere. -/
theorem viaLine_of_none (h : inclusion? base line = none) : d.viaLine base line = fun _ => none := by
  funext c
  rw [viaLine, h, Option.bind_none]

/-- A line leads where the file leads that it includes. -/
theorem viaLine_of_some (h : inclusion? base line = some path) : d.viaLine base line = d.via path := by
  funext c
  rw [viaLine, h, Option.bind_some]

theorem reached_none {r : Path} : ¬Reached (fun _ => none) r := by
  rintro ⟨_, _, h, -⟩
  cases h

theorem once_rule (h : inclusion? base line = none) :
    Once (d.viaLines base (line :: rest)) seen ↔ Once (d.viaLines base rest) seen := by
  have hseen : ∀ r, r ∈ seen ↔ r ∈ seen ∨ Reached (d.viaLine base line) r := fun r => by
    rw [viaLine_of_none h, or_iff_left reached_none]
  rw [once_cons hseen, viaLine_of_none h]
  exact and_iff_right ⟨fun _ _ hc => (by cases hc), fun _ _ _ _ hc => (by cases hc)⟩

/-- **A file leads to each place once** if its place was not seen, and its lines lead to others. -/
theorem once_via (h : d.linesOf? p = some lines) :
    Once (d.via p) seen ↔ p.resolve ∉ seen ∧ Once (d.viaLines p.parent lines) (p.resolve :: seen) := by
  have hnil : d.via p [] = some p := rfl
  constructor
  · intro honce
    refine ⟨honce.unseen [] hnil, fun c q hc hmem => ?_, fun c c' q q' hc hc' hsame => ?_⟩
    · obtain ⟨hne, hc⟩ := (viaLines_eq_some_iff h).1 hc
      rcases List.mem_cons.1 hmem with hsame | hmem
      · exact hne (honce.apart _ _ hc hnil hsame)
      · exact honce.unseen _ hc hmem
    · exact honce.apart _ _ ((viaLines_eq_some_iff h).1 hc).2 ((viaLines_eq_some_iff h).1 hc').2 hsame
  · rintro ⟨hnew, honce⟩
    have hlines : ∀ {c q}, c ≠ [] → d.via p c = some q → d.viaLines p.parent lines c = some q :=
      fun hne hc => (viaLines_eq_some_iff h).2 ⟨hne, hc⟩
    have hother : ∀ {c q}, c ≠ [] → d.via p c = some q → q.resolve ≠ p.resolve := fun hne hc hsame =>
      honce.unseen _ (hlines hne hc) (List.mem_cons.2 (.inl hsame))
    refine ⟨fun c q hc hmem => ?_, fun c c' q q' hc hc' hsame => ?_⟩
    · by_cases hne : c = []
      · subst hne
        cases hc
        exact hnew hmem
      · exact honce.unseen _ (hlines hne hc) (List.mem_cons_of_mem _ hmem)
    · by_cases hne : c = [] <;> by_cases hne' : c' = []
      · rw [hne, hne']
      · subst hne
        cases hc
        exact absurd hsame.symm (hother hne' hc')
      · subst hne'
        cases hc'
        exact absurd hsame (hother hne hc)
      · exact honce.apart _ _ (hlines hne hc) (hlines hne' hc') hsame

/-! ## Cyclic and shared inclusions -/

/-- Chains of inclusions lead to files of rules only. -/
def IsComplete (d : Directory) (start : Path) : Prop :=
  ∀ c q, d.via start c = some q → (d.linesOf? q).isSome = true

/-- A chain leads from a file that is reached back to its place. -/
def Cyclic (d : Directory) (start : Path) : Prop :=
  ∃ c q c' q', d.via start c = some q ∧ c' ≠ [] ∧ d.via q c' = some q' ∧ q'.resolve = q.resolve

/-- Two chains lead to one place, neither of which goes on where the other ends. -/
def Shares (d : Directory) (start : Path) : Prop :=
  ∃ c q c' q', d.via start c = some q ∧ d.via start c' = some q' ∧ ¬c <+: c' ∧ ¬c' <+: c ∧
    q.resolve = q'.resolve

/-- Paths to one place lead to one text in one directory. -/
structure IsConsistent (d : Directory) : Prop where
  text : ∀ {p p' t t'}, d.read p = .ok t → d.read p' = .ok t' → p.resolve = p'.resolve → t = t'
  parent : ∀ {p p' t t'}, d.read p = .ok t → d.read p' = .ok t' → p.resolve = p'.resolve →
    p.parent.resolve = p'.parent.resolve

theorem IsComplete.via (h : d.IsComplete start) (hp : d.via start chain = some p) : d.IsComplete p :=
  fun c q hq => h (chain ++ c) q (by rw [via_append, hp, Option.bind_some, hq])

/-- What the lines of a file include is complete as well. -/
theorem IsComplete.inclusion (h : d.IsComplete p) (hlines : d.linesOf? p = some lines) :
    ∀ line ∈ lines, ∀ q, inclusion? p.parent line = some q → d.IsComplete q := by
  intro line hline q hq
  obtain ⟨n, hn, rfl⟩ := List.getElem_of_mem hline
  refine h.via (?_ : d.via p [n] = some q)
  rw [via_eq_viaLines hlines, viaLines, inclusionAt?, List.getElem?_eq_getElem hn, Option.bind_some, hq]
  rfl

/-- Lines are those of a text, which lists no descriptions. -/
theorem exists_read_of_linesOf? (h : d.linesOf? p = some lines) :
    ∃ text, d.read p = .ok text ∧ p.hasExtension "json" = false ∧ lines = Text.splitOnChar '\n' text := by
  unfold linesOf? at h
  split at h
  · cases h
  next hjson =>
    cases hread : d.read p with
    | error f =>
        rw [hread] at h
        cases h
    | ok text =>
        rw [hread] at h
        cases h
        exact ⟨text, rfl, Bool.eq_false_iff.2 hjson, rfl⟩

/-- A file of rules is there. -/
theorem holds_of_linesOf? (h : d.linesOf? p = some lines) : d.holds p = true := by
  obtain ⟨text, hread, -⟩ := exists_read_of_linesOf? h
  unfold read at hread
  unfold holds
  split at hread
  · rfl
  all_goals cases hread

section Consistent

variable (hd : d.IsConsistent)

include hd

/-- Files at one place include the same places. -/
theorem includeAt?_congr {n : Nat} {r : Path} (hsame : p.resolve = q.resolve)
    (hq : (d.linesOf? q).isSome = true) (hr : d.includeAt? p n = some r) :
    ∃ r', d.includeAt? q n = some r' ∧ r.resolve = r'.resolve := by
  obtain ⟨lines, hlines, hat⟩ := Option.bind_eq_some_iff.1 hr
  obtain ⟨lines', hlines'⟩ := Option.isSome_iff_exists.1 hq
  obtain ⟨text, htext, -, rfl⟩ := exists_read_of_linesOf? hlines
  obtain ⟨text', htext', -, rfl⟩ := exists_read_of_linesOf? hlines'
  obtain ⟨line, hline, hfound⟩ := Option.bind_eq_some_iff.1 hat
  obtain ⟨written, hwritten, rfl⟩ := Option.map_eq_some_iff.1 hfound
  obtain rfl := hd.text htext htext' hsame
  refine ⟨q.parent.join (Path.ofText written), ?_, Path.resolve_join (hd.parent htext htext' hsame) _⟩
  rw [includeAt?, hlines', Option.bind_some, inclusionAt?, hline, Option.bind_some, inclusion?, hwritten]
  rfl

/-- **Chains lead from one place to the same places**, whatever path leads to it. -/
theorem via_congr (hp : d.IsComplete p) (hq : d.IsComplete q) (hsame : p.resolve = q.resolve) {r : Path}
    (hr : d.via p chain = some r) : ∃ r', d.via q chain = some r' ∧ r.resolve = r'.resolve := by
  induction chain generalizing p q with
  | nil =>
      cases hr
      exact ⟨q, rfl, hsame⟩
  | cons n chain ih =>
      rw [via_cons] at hr
      obtain ⟨r₁, hr₁, hr⟩ := Option.bind_eq_some_iff.1 hr
      obtain ⟨r₂, hr₂, hnext⟩ := includeAt?_congr hd hsame (hq [] q rfl) hr₁
      have hone : ∀ {p r}, d.includeAt? p n = some r → d.via p [n] = some r := fun h => by
        rw [via_cons, h]
        rfl
      obtain ⟨r', hr', hend⟩ := ih (hp.via (hone hr₁)) (hq.via (hone hr₂)) hnext hr
      exact ⟨r', by rw [via_cons, hr₂, Option.bind_some, hr'], hend⟩

/-- Files that lead to each place once have no cycle. -/
theorem Once.not_cyclic (hstart : d.IsComplete start) (hlines : d.linesOf? start = some lines)
    (h : Once (d.viaLines start.parent lines) []) : ¬d.Cyclic start := by
  rintro ⟨c, q, c', q', hq, hne, hq', hback⟩
  by_cases hc : c = []
  · -- the cycle leads through the file itself, whose place counts when it is reached from it only
    subst hc
    cases hq
    obtain ⟨q₂, hq₂, htwice⟩ := via_congr hd hstart (hstart.via hq') hback.symm hq'
    have hagain : d.via start (c' ++ c') = some q₂ := by rw [via_append, hq', Option.bind_some, hq₂]
    have heq := h.apart c' (c' ++ c') ((viaLines_eq_some_iff hlines).2 ⟨hne, hq'⟩)
      ((viaLines_eq_some_iff hlines).2 ⟨by simp [hne], hagain⟩) htwice
    exact hne (by simpa using heq)
  · have hagain : d.via start (c ++ c') = some q' := by rw [via_append, hq, Option.bind_some, hq']
    have heq := h.apart c (c ++ c') ((viaLines_eq_some_iff hlines).2 ⟨hc, hq⟩)
      ((viaLines_eq_some_iff hlines).2 ⟨by simp [hc], hagain⟩) hback.symm
    exact hne (by simpa using heq)

end Consistent

/-- Files that lead to each place once share no file. -/
theorem Once.not_shares (hlines : d.linesOf? start = some lines)
    (h : Once (d.viaLines start.parent lines) []) : ¬d.Shares start := by
  rintro ⟨c, q, c', q', hq, hq', hnot, hnot', hsame⟩
  have hc : c ≠ [] := fun hc => hnot (hc ▸ List.nil_prefix)
  have hc' : c' ≠ [] := fun hc' => hnot' (hc' ▸ List.nil_prefix)
  have heq := h.apart c c' ((viaLines_eq_some_iff hlines).2 ⟨hc, hq⟩)
    ((viaLines_eq_some_iff hlines).2 ⟨hc', hq'⟩) hsame
  exact hnot (heq ▸ List.prefix_rfl)

/-- A chain that goes on to the place where it was is a cycle. -/
theorem eq_of_not_cyclic {c c' : List Nat} {q q' : Path} (hcyclic : ¬d.Cyclic start)
    (hc : d.via start c = some q) (hc' : d.via start c' = some q') (hsame : q.resolve = q'.resolve)
    (hcut : c <+: c') : c = c' := by
  obtain ⟨t, rfl⟩ := hcut
  rw [via_append, hc, Option.bind_some] at hc'
  by_contra hne
  exact hcyclic ⟨c, q, t, q', hc, fun ht => hne (by rw [ht, List.append_nil]), hc', hsame.symm⟩

/-- **No place is reached twice** just if the inclusions are neither cyclic nor share a file. -/
theorem once_iff (hd : d.IsConsistent) (hstart : d.IsComplete start) (hlines : d.linesOf? start = some lines) :
    Once (d.viaLines start.parent lines) [] ↔ ¬d.Cyclic start ∧ ¬d.Shares start := by
  refine ⟨fun h => ⟨h.not_cyclic hd hstart hlines, h.not_shares hlines⟩, fun ⟨hcyclic, hshares⟩ => ?_⟩
  refine ⟨fun _ _ _ => List.not_mem_nil, fun c c' q q' hc hc' hsame => ?_⟩
  have hq := ((viaLines_eq_some_iff hlines).1 hc).2
  have hq' := ((viaLines_eq_some_iff hlines).1 hc').2
  by_contra hne
  refine hshares ⟨c, q, c', q', hq, hq', fun h => hne ?_, fun h => hne ?_, hsame⟩
  · exact eq_of_not_cyclic hcyclic hq hq' hsame h
  · exact (eq_of_not_cyclic hcyclic hq' hq hsame.symm h).symm

/-! ## Files that include one -/

section One

variable {included : Path} (hlines : d.linesOf? start = some lines)
  (hone : ∀ line ∈ lines, ∀ q, inclusion? start.parent line = some q → q = included)
  (hnone : ∀ n, d.includeAt? included n = none)

include hlines hone hnone

/-- A file whose lines include one file, which includes none, leads to that one only. -/
theorem via_of_one {chain : List Nat} {q : Path} (h : d.via start chain = some q) :
    (chain = [] ∧ q = start) ∨ q = included ∧ ∃ n, chain = [n] ∧ d.includeAt? start n = some included := by
  obtain _ | ⟨n, chain⟩ := chain
  · cases h
    exact .inl ⟨rfl, rfl⟩
  · rw [via_cons] at h
    obtain ⟨r, hr, h⟩ := Option.bind_eq_some_iff.1 h
    have hincluded : r = included := by
      rw [includeAt?, hlines, Option.bind_some, inclusionAt?] at hr
      obtain ⟨line, hline, hr⟩ := Option.bind_eq_some_iff.1 hr
      exact hone line (List.mem_of_getElem? hline) r hr
    subst hincluded
    obtain _ | ⟨m, chain⟩ := chain
    · cases h
      exact .inr ⟨rfl, n, rfl, hr⟩
    · rw [via_cons, hnone] at h
      cases h

theorem isComplete_of_one (hincluded : (d.linesOf? included).isSome = true) : d.IsComplete start :=
  fun c q hq => by
    rcases via_of_one hlines hone hnone hq with ⟨-, rfl⟩ | ⟨rfl, -⟩
    · rw [hlines]
      rfl
    · exact hincluded

theorem not_cyclic_of_one (hne : included.resolve ≠ start.resolve) : ¬d.Cyclic start := by
  rintro ⟨c, q, c', q', hq, hc', hq', hback⟩
  rcases via_of_one hlines hone hnone hq with ⟨-, rfl⟩ | ⟨rfl, -⟩
  · rcases via_of_one hlines hone hnone hq' with ⟨rfl, -⟩ | ⟨rfl, -⟩
    · exact hc' rfl
    · exact hne hback
  · obtain _ | ⟨m, c'⟩ := c'
    · exact hc' rfl
    · rw [via_cons, hnone] at hq'
      cases hq'

theorem not_shares_of_one (hunique : ∀ n, d.includeAt? start n = some included → n = 0) : ¬d.Shares start := by
  rintro ⟨c, q, c', q', hq, hq', hnot, hnot', -⟩
  rcases via_of_one hlines hone hnone hq with ⟨rfl, -⟩ | ⟨-, n, rfl, hn⟩
  · exact hnot List.nil_prefix
  rcases via_of_one hlines hone hnone hq' with ⟨rfl, -⟩ | ⟨-, n', rfl, hn'⟩
  · exact hnot' List.nil_prefix
  · rw [hunique n hn, hunique n' hn'] at hnot
    exact hnot List.prefix_rfl

end One

/-! ## Trees of files -/

/-- There is nothing but the files below the working directory, and none of them is a directory as well. -/
structure IsTree (d : Directory) : Prop where
  inside : d.outside = []
  leaves : ∀ f ∈ d.files, ∀ g ∈ d.files, f.1 <+: g.1 → f.1 = g.1

namespace IsTree

variable {text : String} (h : d.IsTree)

include h

/-- What lies above a place is no file, if the place is a directory. -/
theorem entryAt_dropLast {place : List String} (hplace : d.entryAt place = .directory)
    (hne : place ≠ []) : d.entryAt place.dropLast ≠ .file text := by
  intro habove
  have hbelow : ∃ g ∈ d.files, place <+: g.1 := by
    unfold entryAt at hplace
    split at hplace
    · cases hplace
    · split at hplace
      next hany =>
        rw [Bool.or_eq_true, List.isEmpty_iff, List.any_eq_true] at hany
        obtain ⟨g, hg, hunder⟩ := hany.resolve_left hne
        exact ⟨g, hg, List.isPrefixOf_iff_prefix.1 hunder⟩
      next => cases hplace
  obtain ⟨g, hg, hunder⟩ := hbelow
  have heq := h.leaves _ (mem_of_entryAt habove) g hg ((List.dropLast_prefix place).trans hunder)
  have hshort := hunder.length_le
  have hlong : 0 < place.length := List.length_pos_of_ne_nil hne
  rw [← heq, List.length_dropLast] at hshort
  omega

/-- The last step to a file is not one back. -/
theorem getLast?_ne_of_follow : ∀ {parts place : List String},
    d.follow (some place) parts = .file text → parts.getLast? ≠ some ".."
  | [], _, _ => by simp
  | [part], place, hfollow => by
      rintro hpart
      obtain rfl : part = ".." := by simpa using hpart
      rw [follow] at hfollow
      split at hfollow
      next hplace =>
        simp only [bne_self_eq_false, Bool.false_eq_true, ↓reduceIte] at hfollow
        split at hfollow
        · cases hfollow
        next hne => exact h.entryAt_dropLast hplace (by simpa using hne) hfollow
      next => cases hfollow
      next hfile => exact (hfile _ hfollow).elim
  | part :: next :: rest, place, hfollow => by
      rw [follow] at hfollow
      rw [List.getLast?_cons_cons]
      split at hfollow
      next =>
        split at hfollow
        · exact getLast?_ne_of_follow hfollow
        · split at hfollow
          · exact absurd hfollow (follow_none_ne_file _)
          · exact getLast?_ne_of_follow hfollow
      next => cases hfollow
      next hfile => exact (hfile _ hfollow).elim

/-- A path that is read leads to a file at its place, with a name at its end. -/
theorem of_read {p : Path} (hread : d.read p = .ok text) :
    p.parts.getLast? ≠ some ".." ∧
      ∃ t, d.entryAt p.resolve.parts = .file t ∧ text = String.ofList (Text.normalizeNewlines t.toList) := by
  unfold read at hread
  split at hread
  next t hentry =>
    cases hread
    unfold entry at hentry
    rw [h.inside, List.lookup_nil] at hentry
    simp only at hentry
    split at hentry
    next hroot =>
      obtain hroot : p.root = "" := by simpa using hroot
      refine ⟨h.getLast?_ne_of_follow hentry, t, ?_, rfl⟩
      have hplace := entryAt_of_follow (by simp) hentry
      simpa [Path.resolve, hroot] using hplace
    next => exact absurd hentry (follow_none_ne_file _)
  all_goals cases hread

/-- **Trees of files are consistent.** -/
theorem isConsistent : d.IsConsistent where
  text {p p' t t'} hp hp' hsame := by
    obtain ⟨-, s, hs, rfl⟩ := h.of_read hp
    obtain ⟨-, s', hs', rfl⟩ := h.of_read hp'
    rw [hsame, hs'] at hs
    cases hs
    rfl
  parent {p p' t t'} hp hp' hsame := by
    rw [Path.resolve_parent (h.of_read hp).1, Path.resolve_parent (h.of_read hp').1, hsame]

end IsTree

end Directory

end SymbolicAlgebra
