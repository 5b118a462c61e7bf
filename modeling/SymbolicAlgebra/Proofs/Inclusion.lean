import Mathlib.Data.List.Perm.Subperm
import SymbolicAlgebra.Proofs.Action
import SymbolicAlgebra.Rewriting.RuleFile

/-!
# Proofs/Inclusion — how deep inclusions go

A path that leads to a file comes, with its steps carried out, from a list of as many places as there are
files (`Directory.mem_places`).  A file is included once, so that the places included so far are some of
these, each once: the bound on the depth of inclusions is never met.  What each line and each list of
descriptions gives is therefore what reading a file gives (`Kernel.reads_rulesOfFile`), and there is no
fault but theirs, those of reading, and those of including.
-/

namespace SymbolicAlgebra

/-! ## Where files are -/

namespace Directory

variable {d : Directory} {text : String}

/-- The places of the files. -/
def places (d : Directory) : List Path :=
  d.files.map (fun q => ⟨"", q.1⟩) ++ d.outside.map fun q => q.1.resolve

theorem length_places (d : Directory) : d.places.length = d.size := by
  rw [places, List.length_append, List.length_map, List.length_map, size]

theorem mem_of_lookup {α β : Type} [BEq α] [LawfulBEq α] {l : List (α × β)} {a : α} {b : β}
    (h : l.lookup a = some b) : (a, b) ∈ l := by
  obtain ⟨l₁, l₂, rfl, -⟩ := List.lookup_eq_some_iff.1 h
  simp

theorem mem_of_entryAt {place : List String} (h : d.entryAt place = .file text) :
    (place, text) ∈ d.files := by
  unfold entryAt at h
  split at h
  next found hfound =>
    cases h
    exact mem_of_lookup hfound
  next => split at h <;> cases h

/-- Above the working directory there are no files. -/
theorem follow_none_ne_file : ∀ parts : List String, d.follow none parts ≠ .file text
  | [], h => by cases h
  | part :: rest, h => by
      rw [follow] at h
      split at h
      · exact follow_none_ne_file rest h
      · cases h

theorem step_of_ne {rooted : Bool} {place : List String} {part : String} (h : part ≠ "..") :
    Path.step rooted place part = part :: place := if_pos (by simpa using h)

/-- A step back undoes the last step. -/
theorem step_back {place : List String} {last : String} (h : last ≠ "..") :
    Path.step false (last :: place) ".." = place := by
  simp [Path.step, h]

/-- Following a path to a file carries its steps out. -/
theorem entryAt_of_follow : ∀ {parts place : List String}, ".." ∉ place →
    d.follow (some place) parts = .file text →
    d.entryAt (parts.foldl (Path.step false) place.reverse).reverse = .file text
  | [], place, _, h => by
      rw [List.foldl_nil, List.reverse_reverse]
      exact h
  | part :: rest, place, hplace, h => by
      rw [follow] at h
      rw [List.foldl_cons]
      split at h
      next =>
        split at h
        next hpart =>
          rw [bne_iff_ne] at hpart
          rw [step_of_ne hpart, ← List.reverse_concat']
          exact entryAt_of_follow (by simp [hplace, hpart.symm]) h
        next hpart =>
          obtain rfl : part = ".." := by simpa using hpart
          split at h
          next => exact absurd h (follow_none_ne_file rest)
          next hempty =>
            obtain ⟨front, last, rfl⟩ :=
              (List.eq_nil_or_concat place).resolve_left (by simpa using hempty)
            rw [List.concat_eq_append] at hplace h ⊢
            have hlast : last ≠ ".." := fun heq => hplace (by simp [heq])
            rw [List.dropLast_concat] at h
            rw [List.reverse_append, List.reverse_singleton, List.singleton_append, step_back hlast]
            exact entryAt_of_follow (fun hmem => hplace (by simp [hmem])) h
      next => cases h
      next hfile => exact (hfile _ h).elim

/-- **A path that leads to a file comes from one of the places.** -/
theorem mem_places {p : Path} (h : d.entry p = .file text) : p.resolve ∈ d.places := by
  unfold entry at h
  rw [places, List.mem_append]
  split at h
  next found hfound =>
    cases h
    exact .inr (List.mem_map_of_mem (mem_of_lookup hfound))
  next =>
    split at h
    next hroot =>
      obtain hroot : p.root = "" := by simpa using hroot
      refine .inl (List.mem_map.2 ⟨_, mem_of_entryAt (entryAt_of_follow (by simp) h), ?_⟩)
      simp [Path.resolve, hroot]
    next => exact absurd h (follow_none_ne_file _)

theorem mem_places_of_read {p : Path} (h : d.read p = .ok text) : p.resolve ∈ d.places := by
  unfold read at h
  split at h
  next found hfound => exact mem_places hfound
  all_goals cases h

end Directory

namespace Kernel

variable {d : Directory} {seen : List Path} {depth : Nat}

/-! ## How deep inclusions go -/

/-- Places of files, none of them twice. -/
structure Included (d : Directory) (seen : List Path) : Prop where
  nodup : seen.Nodup
  places : ∀ p ∈ seen, p ∈ d.places

namespace Included

theorem nil : Included d [] := ⟨.nil, by simp⟩

theorem length_le (h : Included d seen) : seen.length ≤ d.size := by
  rw [← d.length_places]
  exact (h.nodup.subperm h.places).length_le

theorem cons (h : Included d seen) {p : Path} (hp : p ∈ d.places) (hnew : p ∉ seen) :
    Included d (p :: seen) :=
  ⟨List.nodup_cons.2 ⟨hnew, h.nodup⟩, List.forall_mem_cons.2 ⟨hp, h.places⟩⟩

end Included

/-- There is room for as many inclusions as there may be. -/
structure Room (d : Directory) (depth : Nat) (seen : List Path) : Prop where
  included : Included d seen
  deep : d.size < depth + seen.length

theorem Room.pos (h : Room d depth seen) : 0 < depth := by
  have := h.included.length_le
  have := h.deep
  omega

theorem Room.succ (h : Room d depth seen) : Room d (depth + 1) seen :=
  ⟨h.included, Nat.lt_of_lt_of_le h.deep (by omega)⟩

/-- An inclusion uses up a place and one step of the depth. -/
theorem Room.cons (h : Room d (depth + 1) seen) {p : Path} (hp : p ∈ d.places) (hnew : p ∉ seen) :
    Room d depth (p :: seen) := by
  refine ⟨h.included.cons hp hnew, ?_⟩
  have := h.deep
  rw [List.length_cons]
  omega

/-! ## What files give -/

variable {E : Fault → Prop} {J : Kernel → Prop} {R : Rule → Prop} {k : Kernel}

/-- Reading gives rules that satisfy `R` and keeps the kernel in `J`, or fails with a fault in `E`. -/
def ReadsRules (E : Fault → Prop) (J : Kernel → Prop) (R : Rule → Prop) (x : Action (List Rule)) : Prop :=
  ∀ k, J k → Yields E x k fun rs k' => J k' ∧ ∀ r ∈ rs, R r

/-- The files of a directory, read by their lines or as lists of descriptions. -/
structure Readable (d : Directory) (E : Fault → Prop) (J : Kernel → Prop) (R : Rule → Prop) : Prop where
  circular : ∀ shown, E (.circularInclude shown)
  absent : ∀ shown, E (.includeNotFound shown)
  fault : ∀ {path f}, d.read path = .error f → E f
  line : ∀ {path text line}, d.read path = .ok text → path.hasExtension "json" = false →
    line ∈ Text.splitOnChar '\n' text → includedPath? line = none →
      ∀ number, ReadsRules E J R (ruleOfLine number line)
  json : ∀ {path text}, d.read path = .ok text → path.hasExtension "json" = true →
    ReadsRules E J R (rulesOfJson text)

/-- Reading with inclusions gives rules that satisfy `R` and leaves room, or fails with a fault in `E`. -/
def Includes (d : Directory) (E : Fault → Prop) (J : Kernel → Prop) (R : Rule → Prop) (depth : Nat)
    (x : Action (List Rule × List Path)) (k : Kernel) : Prop :=
  Yields E x k fun q k' => J k' ∧ (∀ r ∈ q.1, R r) ∧ Room d depth q.2

/-- **Lines are read one after the other**, with what they include. -/
theorem includes_rulesOfLines {base : Option Path}
    {load : Path → List Path → Action (List Rule × List Path)} {lines : List String}
    (hlines : ∀ line ∈ lines, includedPath? line = none → ∀ number, ReadsRules E J R (ruleOfLine number line))
    (hload : ∀ line ∈ lines, (includedPath? line).isSome = true →
      (∀ shown, E (.circularInclude shown)) ∧ (∀ shown, E (.includeNotFound shown)) ∧
        ∀ path seen k, J k → path.resolve ∉ seen → Room d depth seen →
          Includes d E J R depth (load path (path.resolve :: seen)) k)
    (hk : J k) (hroom : Room d depth seen) (number : Nat) :
    Includes d E J R depth (rulesOfLines d base load number seen lines) k := by
  induction lines generalizing k seen number with
  | nil => exact Yields.pure ⟨hk, by simp, hroom⟩
  | cons line rest ih =>
      rw [List.forall_mem_cons] at hlines hload
      have hrest : ∀ (q : List Rule × List Path) k', J k' → (∀ r ∈ q.1, R r) → Room d depth q.2 →
          Includes d E J R depth (do
            let others ← rulesOfLines d base load (number + 1) q.2 rest
            return (q.1 ++ others.1, others.2)) k' := fun q k' hk' hq hroom' =>
        Yields.bind (ih hlines.2 hload.2 hk' hroom' _) fun others k₁ h =>
          Yields.pure ⟨h.1, List.forall_mem_append.2 ⟨hq, h.2.1⟩, h.2.2⟩
      unfold rulesOfLines
      simp only
      split
      next hnone =>
        refine Yields.bind (hlines.1 hnone number k hk) fun found k₁ h => ?_
        exact hrest (found, seen) k₁ h.1 h.2 hroom
      next written hsome =>
        obtain ⟨hcircular, habsent, hfile⟩ := hload.1 (by rw [hsome]; rfl)
        generalize ((base.map (·.join (Path.ofText written))).getD (Path.ofText written)) = path
        split
        next => exact Yields.throw (hcircular _)
        next hnew =>
          split
          next => exact Yields.throw (habsent _)
          next =>
            refine Yields.bind (hfile path seen k hk (by simpa using hnew) hroom) fun q k₁ h => ?_
            exact hrest q k₁ h.1 h.2.1 h.2.2

section Files

variable (h : Readable d E J R)

include h

/-- A file is read if the files it includes are. -/
theorem includes_file {path : Path} (hk : J k)
    (hroom : ∀ text, d.read path = .ok text → Room d depth seen)
    (hnext : ∀ path seen k, J k → path.resolve ∉ seen → Room d depth seen →
      Includes d E J R depth (rulesOfFileWithin d depth path (path.resolve :: seen)) k) :
    Includes d E J R depth (rulesOfFileWithin d (depth + 1) path seen) k := by
  unfold rulesOfFileWithin
  refine Yields.bind (P := fun text k' => d.read path = .ok text ∧ J k')
    (yields_ofExcept (fun _ => h.fault) fun text htext => ⟨htext, hk⟩) ?_
  rintro text k' ⟨htext, hk'⟩
  split
  next hjson =>
    exact Yields.bind (h.json htext hjson k' hk') fun rs k₁ hrs =>
      Yields.pure ⟨hrs.1, hrs.2, hroom text htext⟩
  next hjson =>
    rw [Bool.not_eq_true] at hjson
    exact includes_rulesOfLines (fun line hline => h.line htext hjson hline)
      (fun line _ _ => ⟨h.circular, h.absent, hnext⟩) hk' (hroom text htext) 1

/-- **A file is read with all that it includes**: the depth is never used up. -/
theorem includes_rulesOfFileWithin {path : Path} (hk : J k)
    (hroom : ∀ text, d.read path = .ok text → Room d depth seen) :
    Includes d E J R depth (rulesOfFileWithin d (depth + 1) path seen) k := by
  induction depth generalizing path seen k with
  | zero =>
      refine includes_file h hk hroom fun _ _ _ _ _ hroom' => ?_
      exact absurd hroom'.pos (Nat.lt_irrefl 0)
  | succ n ih =>
      refine includes_file h hk hroom fun path' seen' k' hk' hnew hroom' => ?_
      exact (ih hk' fun _ htext => hroom'.cons (d.mem_places_of_read htext) hnew).mono
        fun _ _ hq => ⟨hq.1, hq.2.1, hq.2.2.succ⟩

/-- **What the lines and the descriptions of files give, reading a file gives.** -/
theorem reads_rulesOfFile (path : Path) : ReadsRules E J R (rulesOfFile d path) := fun k hk =>
  have hroom : Room d (d.size + 1) [] := ⟨.nil, by simp⟩
  Yields.bind (includes_rulesOfFileWithin h hk fun _ _ => hroom) fun _ _ hq =>
    Yields.pure ⟨hq.1, hq.2.1⟩

end Files

/-- **What its lines give, reading a text gives**, with the files that it includes. -/
theorem reads_rulesOfText {text : String}
    (hlines : ∀ line ∈ Text.splitOnChar '\n' text, includedPath? line = none →
      ∀ number, ReadsRules E J R (ruleOfLine number line))
    (hfiles : ∀ line ∈ Text.splitOnChar '\n' text, (includedPath? line).isSome = true →
      Readable d E J R) : ReadsRules E J R (rulesOfText d text) := by
  intro k hk
  have hroom : Room d (inclusionDepth d) [] := ⟨.nil, by simp [inclusionDepth]⟩
  refine Yields.bind (includes_rulesOfLines hlines (fun line hline hsome => ?_) hk hroom 1)
    fun _ _ hq => Yields.pure ⟨hq.1, hq.2.1⟩
  have h := hfiles line hline hsome
  refine ⟨h.circular, h.absent, fun path seen k hk hnew hroom' => ?_⟩
  exact (includes_rulesOfFileWithin h hk fun _ htext =>
    hroom'.cons (d.mem_places_of_read htext) hnew).mono fun _ _ hq => ⟨hq.1, hq.2.1, hq.2.2.succ⟩

end Kernel

end SymbolicAlgebra
