import SymbolicAlgebra.Proofs.Inclusion

/-!
# Proofs/InclusionEnd — reading rules has an end

Files include one another as they like, themselves among them.  `Kernel.followFile` reads a file with every
inclusion followed as far as it goes, by a recursion that nothing bounds; what has no end is `none`.  Each
inclusion notes a place, the starting file does not, and no place is noted twice.  So reading ends after at most
one more file in a row than there are files, and ends as `Kernel.rulesOfFile` says (`Kernel.loading_ends`).
-/

namespace SymbolicAlgebra.Kernel

/-! ## Computations that may have no end -/

/-- A computation in a kernel that may have no end. -/
abbrev OpenAction := ExceptT Fault (StateT Kernel Option)

/-- An action, which has an end. -/
def OpenAction.of {α : Type} (x : Action α) : OpenAction α := ExceptT.mk fun k => some (x.run.run k)

/-- A run of two computations in a row, read off the run of the first. -/
theorem OpenAction.run_bind {α β : Type} (y : OpenAction α) (g : α → OpenAction β) (k : Kernel) :
    (y >>= g).run.run k = (y.run.run k).bind fun r =>
      match r with
      | (.ok a, k') => (g a).run.run k'
      | (.error e, k') => some (.error e, k') := by
  simp only [Bind.bind, ExceptT.bind, ExceptT.mk, ExceptT.run, StateT.run, StateT.bind]
  rcases y k with _ | ⟨_ | _, _⟩ <;> rfl

section

variable {α β : Type} {k : Kernel}

/-- The computation has an end in the kernel, and ends as the action does. -/
def EndsLike (y : OpenAction α) (x : Action α) (k : Kernel) : Prop := y.run.run k = some (x.run.run k)

namespace EndsLike

theorem of (x : Action α) : EndsLike (.of x) x k := rfl

theorem pure (a : α) : EndsLike (Pure.pure a) (Pure.pure a) k := rfl

/-- **Two computations in a row end** if the second one does after whatever the first one gave. -/
theorem bind {y : OpenAction α} {g : α → OpenAction β} {x : Action α} {f : α → Action β} (hx : EndsLike y x k)
    (hf : ∀ a k', x.run.run k = (.ok a, k') → EndsLike (g a) (f a) k') : EndsLike (y >>= g) (x >>= f) k := by
  unfold EndsLike at hx ⊢
  rw [OpenAction.run_bind, hx, Option.bind_some, run_bind]
  rcases hr : x.run.run k with ⟨e | a, k'⟩
  · rfl
  · exact hf a k' hr

end EndsLike

end

/-- The first computation has no end, or ends as the second one does. -/
def Below {α : Type} (y z : OpenAction α) : Prop := ∀ k, y.run.run k = none ∨ y.run.run k = z.run.run k

namespace Below

variable {α β : Type} {y z : OpenAction α} {g h : α → OpenAction β}

theorem refl (y : OpenAction α) : Below y y := fun _ => .inr rfl

theorem bind (hy : Below y z) (hg : ∀ a, Below (g a) (h a)) : Below (y >>= g) (z >>= h) := fun k => by
  rw [OpenAction.run_bind, OpenAction.run_bind]
  rcases hy k with hnone | heq
  · exact .inl (by rw [hnone]; rfl)
  · rw [heq]
    rcases z.run.run k with _ | ⟨_ | a, k'⟩
    · exact .inl rfl
    · exact .inr rfl
    · exact hg a k'

section

variable {R : Option (Except Fault α × Kernel) → Option (Except Fault α × Kernel) → Prop}

/-- What is below in an order of outcomes in which only `none` is. -/
theorem of_order (hyz : ∀ k, R (y.run.run k) (z.run.run k)) (hR : ∀ {o o'}, R o o' → o = none ∨ o = o') :
    Below y z := fun k => hR (hyz k)

/-- What is below is so in every order of outcomes that starts with `none`. -/
theorem order (hyz : Below y z) (bot : ∀ o, R none o) (refl : ∀ o, R o o) (k : Kernel) :
    R (y.run.run k) (z.run.run k) := by
  rcases hyz k with hnone | heq
  · exact hnone ▸ bot _
  · exact heq ▸ refl _

end

end Below

/-! ## Following inclusions -/

/-- The rules of the lines of a text from line `number` on, and the files included so far.  Included files are
followed with `follow`. -/
def followLines (d : Directory) (base : Option Path)
    (follow : Path → List Path → OpenAction (List Rule × List Path)) :
    (number : Nat) → (seen : List Path) → List String → OpenAction (List Rule × List Path)
  | _, seen, [] => return ([], seen)
  | number, seen, line :: rest => do
      let (found, seen) ←
        match includedPath? line with
        | none => do pure (← OpenAction.of (ruleOfLine number line), seen)
        | some text => do
            let written := Path.ofText text
            let path := (base.map (·.join written)).getD written
            if seen.contains path.resolve then throw (.circularInclude path.text)
            if !d.holds path then throw (.includeNotFound path.text)
            follow path (path.resolve :: seen)
      let (others, seen) ← followLines d base follow (number + 1) seen rest
      return (found ++ others, seen)

/-- The rules of a file, and the files included so far.  Included files are followed with `follow`. -/
def followText (d : Directory) (follow : Path → List Path → OpenAction (List Rule × List Path)) (path : Path)
    (seen : List Path) : OpenAction (List Rule × List Path) := do
  let text ← OpenAction.of (ofExcept (d.read path))
  if path.hasExtension "json" then return (← OpenAction.of (rulesOfJson text), seen)
  else followLines d (some path.parent) follow 1 seen (Text.splitOnChar '\n' text)

section

variable {f g : Path → List Path → OpenAction (List Rule × List Path)}
  (h : ∀ path seen, Below (f path seen) (g path seen))

include h

/-- **Following inclusions further gives no less.** -/
theorem below_followLines (d : Directory) (base : Option Path) (number : Nat) (seen : List Path)
    (lines : List String) :
    Below (followLines d base f number seen lines) (followLines d base g number seen lines) := by
  induction lines generalizing number seen with
  | nil => exact .refl _
  | cons line rest ih =>
      have hrest : ∀ q : List Rule × List Path,
          Below (do
              let others ← followLines d base f (number + 1) q.2 rest
              return (q.1 ++ others.1, others.2))
            (do
              let others ← followLines d base g (number + 1) q.2 rest
              return (q.1 ++ others.1, others.2)) := fun q => (ih (number + 1) q.2).bind fun _ => .refl _
      rw [followLines, followLines]
      cases hpath : includedPath? line with
      | none => exact (Below.refl _).bind fun found => hrest (found, seen)
      | some written =>
          simp only
          generalize ((base.map (·.join (Path.ofText written))).getD (Path.ofText written)) = path
          split
          next => exact .refl _
          next =>
            split
            next => exact .refl _
            next => exact (h _ _).bind hrest

theorem below_followText (d : Directory) (path : Path) (seen : List Path) :
    Below (followText d f path seen) (followText d g path seen) := by
  unfold followText
  refine (Below.refl _).bind fun text => ?_
  split
  · exact .refl _
  · exact below_followLines h d _ 1 seen _

end

/-- The rules of a file, and the files included so far.  Included files are followed in the same way. -/
def followFile (d : Directory) : Path → List Path → OpenAction (List Rule × List Path) :=
  fun path seen => followText d (followFile d) path seen
partial_fixpoint monotonicity fun _ _ h path seen k =>
  (below_followText (fun path seen => .of_order (h path seen) fun hless => by cases hless <;> simp) d path seen).order
    (fun _ => .bot) (fun _ => .refl) k

/-! ## Inclusions come to an end -/

variable {d : Directory} {seen : List Path} {depth : Nat} {k : Kernel}

/-- Whatever the lines and the descriptions of files give, there is something that they give. -/
theorem readable_anyhow (d : Directory) : Readable d Anyhow (fun _ => True) fun _ => True where
  circular _ := trivial
  absent _ := trivial
  fault _ := trivial
  line _ _ _ _ _ _ _ := (anyhow _).mono fun _ _ _ => ⟨trivial, fun _ _ => trivial⟩
  json _ _ _ _ := (anyhow _).mono fun _ _ _ => ⟨trivial, fun _ _ => trivial⟩

/-- **Lines are followed to their end** if the files they include are: an inclusion leaves room for the
others. -/
theorem endsLike_followLines {base : Option Path} {follow : Path → List Path → OpenAction (List Rule × List Path)}
    {load : Path → List Path → Action (List Rule × List Path)}
    (hload : ∀ path seen k, path.resolve ∉ seen → Room d depth seen →
      EndsLike (follow path (path.resolve :: seen)) (load path (path.resolve :: seen)) k ∧
        Yields Anyhow (load path (path.resolve :: seen)) k fun q _ => Room d depth q.2)
    (hroom : Room d depth seen) (number : Nat) (lines : List String) :
    EndsLike (followLines d base follow number seen lines) (rulesOfLines d base load number seen lines) k := by
  induction lines generalizing k seen number with
  | nil => exact .pure _
  | cons line rest ih =>
      have hrest : ∀ (q : List Rule × List Path) k', Room d depth q.2 →
          EndsLike (do
              let others ← followLines d base follow (number + 1) q.2 rest
              return (q.1 ++ others.1, others.2))
            (do
              let others ← rulesOfLines d base load (number + 1) q.2 rest
              return (q.1 ++ others.1, others.2)) k' := fun q k' hroom' =>
        (ih hroom' (number + 1)).bind fun _ _ _ => .pure _
      rw [followLines, rulesOfLines]
      cases hpath : includedPath? line with
      | none =>
          exact (EndsLike.of _).bind fun found k₁ _ => hrest (found, seen) k₁ hroom
      | some written =>
          simp only
          generalize ((base.map (·.join (Path.ofText written))).getD (Path.ofText written)) = path
          split
          next => rfl
          next hnew =>
            split
            next => rfl
            next =>
              obtain ⟨hends, hleft⟩ := hload path seen k (by simpa using hnew) hroom
              exact hends.bind fun q k₁ hrun => hrest q k₁ (hleft.of_run hrun)

/-- A file is followed to its end if the files it includes are. -/
theorem endsLike_file {path : Path} (hroom : ∀ text, d.read path = .ok text → Room d depth seen)
    (hnext : ∀ path seen k, path.resolve ∉ seen → Room d depth seen →
      EndsLike (followFile d path (path.resolve :: seen)) (rulesOfFileWithin d depth path (path.resolve :: seen)) k ∧
        Yields Anyhow (rulesOfFileWithin d depth path (path.resolve :: seen)) k fun q _ => Room d depth q.2) :
    EndsLike (followFile d path seen) (rulesOfFileWithin d (depth + 1) path seen) k := by
  rw [followFile, followText, rulesOfFileWithin]
  refine (EndsLike.of _).bind fun text k₁ hread => ?_
  split
  next => exact (EndsLike.of _).bind fun _ _ _ => .pure _
  next =>
    refine endsLike_followLines hnext (hroom text ?_) 1 _
    cases htext : d.read path with
    | ok t =>
        rw [htext] at hread
        cases hread
        rfl
    | error f =>
        rw [htext] at hread
        cases hread

/-- **A file is followed to its end** with all that it includes, as far as there is room: each inclusion uses
up a place and a step of the depth. -/
theorem endsLike_followFile {path : Path} (hroom : ∀ text, d.read path = .ok text → Room d depth seen) :
    EndsLike (followFile d path seen) (rulesOfFileWithin d (depth + 1) path seen) k := by
  induction depth generalizing path seen k with
  | zero =>
      refine endsLike_file hroom fun _ _ _ _ hroom' => ?_
      exact absurd hroom'.pos (Nat.lt_irrefl 0)
  | succ depth ih =>
      refine endsLike_file hroom fun path' seen' k' hnew hroom' => ?_
      have hroom₁ : ∀ text, d.read path' = .ok text → Room d depth (path'.resolve :: seen') := fun _ htext =>
        hroom'.cons (d.mem_places_of_read htext) hnew
      exact ⟨ih hroom₁, (includes_rulesOfFileWithin (readable_anyhow d) trivial hroom₁).mono
        fun _ _ hq => hq.2.2.succ⟩

/-- **Reading rules has an end.**  Whatever the files hold and whichever of them include one another, following
the inclusions of a file ends with rules or with a fault; no more files are read inside one another than there
are, and the one that it starts with. -/
theorem loading_ends (d : Directory) (path : Path) (k : Kernel) :
    ∃ outcome k', (followFile d path []).run.run k = some (outcome, k') ∧
      (∀ depth, d.size + 1 < depth → (rulesOfFileWithin d depth path []).run.run k = (outcome, k')) ∧
      (rulesOfFile d path).run.run k = (outcome.map Prod.fst, k') := by
  have hends : ∀ depth, d.size + 1 < depth →
      EndsLike (followFile d path []) (rulesOfFileWithin d depth path []) k := by
    intro depth hdepth
    obtain ⟨depth, rfl⟩ := Nat.exists_eq_succ_of_ne_zero (Nat.ne_zero_of_lt hdepth)
    exact endsLike_followFile fun _ _ => ⟨.nil, Nat.lt_of_succ_lt_succ hdepth⟩
  rcases hrun : (rulesOfFileWithin d (inclusionDepth d) path []).run.run k with ⟨outcome, k'⟩
  have hfollow : (followFile d path []).run.run k = some (outcome, k') := hrun ▸ hends _ (Nat.lt_succ_self _)
  refine ⟨outcome, k', hfollow, fun depth hdepth => ?_, ?_⟩
  · exact Option.some.inj ((hends depth hdepth).symm.trans hfollow)
  · unfold rulesOfFile
    rw [run_bind, hrun]
    cases outcome <;> rfl

end SymbolicAlgebra.Kernel
