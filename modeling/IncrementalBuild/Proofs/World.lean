import IncrementalBuild.Proofs.Disk.Leaves
import IncrementalBuild.World

/-!
What actions do to the world, step by step.
-/

namespace IncrementalBuild

/-- The scheduler is as it was, and so is a file at the place of the path, if it is still there. -/
structure World.Spares {ν : Type} (p : Path) (w v : World ν) : Prop where
  scheduler_eq : v.scheduler = w.scheduler
  inherits : w.disk.Inherits v.disk p

namespace World.Spares

variable {ν : Type} {p : Path} {w v u : World ν}

theorem refl (p : Path) (w : World ν) : w.Spares p w :=
  ⟨rfl, .refl _ p⟩

theorem trans (h₁ : w.Spares p v) (h₂ : v.Spares p u) : w.Spares p u :=
  ⟨h₂.scheduler_eq.trans h₁.scheduler_eq, h₁.inherits.trans h₂.inherits⟩

end World.Spares

/-- A relation between worlds across steps that may follow one another, and that holds where a step
only shows or says something. -/
structure World.Frame {ν : Type} (R : World ν → World ν → Prop) : Prop where
  told : ∀ (w : World ν) console messages, R w { w with console, messages }
  trans : ∀ {w v u : World ν}, R w v → R v u → R w u

theorem World.Frame.refl {ν : Type} {R : World ν → World ν → Prop} (hR : World.Frame R)
    (w : World ν) : R w w :=
  hR.told w w.console w.messages

theorem World.Spares.frame {ν : Type} (p : Path) :
    World.Frame (World.Spares p : World ν → World ν → Prop) :=
  ⟨fun w _ _ => ⟨rfl, .refl w.disk p⟩, .trans⟩

/-- Programs are looked for where they were, and the disk leaves what is watched but for what is
written. -/
structure World.Leaves {ν : Type} (Watched : Path → Prop) (written : List Path) (w v : World ν) :
    Prop where
  searchPath_eq : v.searchPath = w.searchPath
  disk : w.disk.Leaves Watched written v.disk

namespace World.Leaves

variable {ν : Type} {Watched : Path → Prop} {written more : List Path} {w v u : World ν}

theorem refl (hw : w.disk.Grounded) : w.Leaves Watched written w :=
  ⟨rfl, .refl hw⟩

theorem trans (h₁ : w.Leaves Watched written v) (h₂ : v.Leaves Watched written u) :
    w.Leaves Watched written u :=
  ⟨h₂.searchPath_eq.trans h₁.searchPath_eq, h₁.disk.trans h₂.disk⟩

theorem mono (h : w.Leaves Watched written v) (hsub : written ⊆ more) :
    w.Leaves Watched more v :=
  ⟨h.searchPath_eq, h.disk.mono hsub⟩

end World.Leaves

/-- Nothing but what is shown and said has changed. -/
structure World.Unmoved {ν : Type} (w v : World ν) : Prop where
  disk_eq : v.disk = w.disk
  scheduler_eq : v.scheduler = w.scheduler
  searchPath_eq : v.searchPath = w.searchPath
  notes_eq : v.notes = w.notes

namespace World.Unmoved

variable {ν : Type} {w v u : World ν}

theorem refl (w : World ν) : w.Unmoved w :=
  ⟨rfl, rfl, rfl, rfl⟩

theorem trans (h₁ : w.Unmoved v) (h₂ : v.Unmoved u) : w.Unmoved u :=
  ⟨h₂.disk_eq.trans h₁.disk_eq, h₂.scheduler_eq.trans h₁.scheduler_eq,
    h₂.searchPath_eq.trans h₁.searchPath_eq, h₂.notes_eq.trans h₁.notes_eq⟩

theorem leaves (h : w.Unmoved v) (hw : w.disk.Grounded) (Watched : Path → Prop)
    (written : List Path) : w.Leaves Watched written v :=
  ⟨h.searchPath_eq, h.disk_eq.symm ▸ .refl hw⟩

end World.Unmoved

namespace Action

variable {ν α β : Type}

theorem runIn_get (w : World ν) : (get : Action ν (World ν)).runIn w = (.ok w, w) := rfl

theorem runIn_set (v w : World ν) : (set v : Action ν PUnit).runIn w = (.ok ⟨⟩, v) := rfl

theorem runIn_disk (w : World ν) : (disk : Action ν Disk).runIn w = (.ok w.disk, w) := rfl

theorem runIn_eq_ok {a : Action ν α} {w : World ν} {x : α}
    (h : (a.runIn w).1.toOption = some x) : a.runIn w = (.ok x, (a.runIn w).2) :=
  Prod.ext (toOption_eq_some_iff.1 h) rfl

theorem runIn_eq_error {a : Action ν α} {w : World ν} (h : (a.runIn w).1.toOption = none) :
    ∃ f, a.runIn w = (.error f, (a.runIn w).2) := by
  generalize a.runIn w = r at h
  obtain ⟨r, v⟩ := r
  cases r with
  | ok x => cases h
  | error f => exact ⟨f, rfl⟩

theorem of_runIn_tell {f : Console → Console} {w v : World ν} {r : Except Failure Unit}
    (h : (tell f).runIn w = (r, v)) : w.Unmoved v := by
  cases h
  exact ⟨rfl, rfl, rfl, rfl⟩

theorem runIn_ofExcept (r : Except Failure α) (w : World ν) :
    (ofExcept r : Action ν α).runIn w = (r, w) := by
  cases r <;> rfl

theorem runIn_bind (a : Action ν α) (f : α → Action ν β) (w : World ν) :
    (a >>= f).runIn w =
      match a.runIn w with
      | (.ok x, v) => (f x).runIn v
      | (.error e, v) => (.error e, v) := by
  simp only [runIn, ExceptT.run_bind, StateT.run_bind]
  generalize (ExceptT.run a).run w = r
  obtain ⟨r, v⟩ := r
  cases r <;> rfl

theorem runIn_bind_eq_ok {a : Action ν α} {f : α → Action ν β} {w u : World ν} {b : β} :
    (a >>= f).runIn w = (.ok b, u) ↔
      ∃ x v, a.runIn w = (.ok x, v) ∧ (f x).runIn v = (.ok b, u) := by
  rw [runIn_bind]
  generalize a.runIn w = r
  obtain ⟨r, v⟩ := r
  cases r <;> simp

theorem runIn_ofExcept_bind_eq_ok {r : Except Failure α} {f : α → Action ν β} {w u : World ν}
    {b : β} : (ofExcept r >>= f).runIn w = (.ok b, u) ↔
      ∃ x, r = .ok x ∧ (f x).runIn w = (.ok b, u) := by
  rw [runIn_bind, runIn_ofExcept]
  cases r <;> simp

theorem runIn_disk_bind (f : Disk → Action ν β) (w : World ν) :
    (disk >>= f).runIn w = (f w.disk).runIn w := rfl

theorem exists_runIn_bind {a : Action ν α} {f : α → Action ν β} {w v : World ν} {x : α}
    (ha : a.runIn w = (.ok x, v)) (hf : ∃ y u, (f x).runIn v = (.ok y, u)) :
    ∃ y u, (a >>= f).runIn w = (.ok y, u) := by
  obtain ⟨y, u, hf⟩ := hf
  exact ⟨y, u, runIn_bind_eq_ok.2 ⟨x, v, ha, hf⟩⟩

theorem runIn_within (wrap : Failure → Failure) (a : Action ν α) (w : World ν) :
    (within wrap a).runIn w = ((a.runIn w).1.mapError wrap, (a.runIn w).2) := by
  simp only [within, runIn, ExceptT.run_mk, StateT.run_bind]
  generalize (ExceptT.run a).run w = r
  obtain ⟨r, v⟩ := r
  cases r <;> rfl

theorem runIn_within_eq_ok {wrap : Failure → Failure} {a : Action ν α} {w v : World ν} {x : α} :
    (within wrap a).runIn w = (.ok x, v) ↔ a.runIn w = (.ok x, v) := by
  rw [runIn_within]
  generalize a.runIn w = r
  obtain ⟨r, u⟩ := r
  cases r <;> simp [Except.mapError]

/-- Timing an action only adds to what is shown. -/
theorem runIn_phase (label : String) (a : Action ν α) (w : World ν) :
    ∃ console, (phase label a).runIn w =
      ((a.runIn w).1, { (a.runIn w).2 with console }) := by
  simp only [phase, runIn, ExceptT.run_mk, StateT.run_bind]
  exact ⟨_, rfl⟩

theorem of_runIn_phase {label : String} {a : Action ν α} {w v : World ν} {r : Except Failure α}
    (h : (phase label a).runIn w = (r, v)) :
    ∃ u console, a.runIn w = (r, u) ∧ v = { u with console } := by
  obtain ⟨console, hrun⟩ := runIn_phase label a w
  rw [hrun] at h
  cases h
  exact ⟨_, console, rfl, rfl⟩

theorem runIn_onDisk (wrap : Fault → Failure) (f : Disk → Except Fault Disk) (w : World ν) :
    (onDisk wrap f).runIn w =
      match f w.disk with
      | .ok d => (.ok (), { w with disk := d })
      | .error fault => (.error (wrap fault), w) := by
  rw [onDisk, runIn_bind, runIn_get]
  dsimp only
  cases f w.disk <;> rfl

theorem runIn_throughDisk (wrap : Fault → Failure) (f : Disk → Except Fault Unit × Disk)
    (w : World ν) : (throughDisk wrap f).runIn w =
      ((f w.disk).1.mapError wrap, { w with disk := (f w.disk).2 }) := by
  rw [throughDisk, runIn_bind, runIn_get]
  dsimp only
  generalize f w.disk = r
  obtain ⟨r, d⟩ := r
  cases r <;> rfl

/-- Making directories writes nothing, and where it succeeds the directory is there. -/
theorem of_runIn_createDirectories (Watched : Path → Prop) (written : List Path) {p : Path}
    {w v : World ν} {r : Except Failure Unit} (hw : w.disk.Grounded)
    (h : (createDirectories p).runIn w = (r, v)) :
    w.Leaves Watched written v ∧ v.scheduler = w.scheduler ∧
      (r = .ok () → p.ancestors = [] ∨ v.disk.isDirectory p = true) := by
  rw [createDirectories, runIn_throughDisk] at h
  obtain ⟨rfl, rfl⟩ := Prod.mk.inj h
  refine ⟨⟨rfl, (Disk.furnished_createDirectories w.disk p).leaves hw _ _⟩, rfl, fun hok => ?_⟩
  cases hmade : (w.disk.createDirectories p).1 with
  | error fault => simp [hmade, Except.mapError] at hok
  | ok _ => exact Disk.isDirectory_of_createDirectories (Prod.ext hmade rfl)

/-- A directory that is there need not be made. -/
theorem runIn_createDirectories_of_isDirectory {p : Path} {w : World ν}
    (h : p.ancestors = [] ∨ w.disk.isDirectory p = true) :
    (createDirectories p).runIn w = (.ok (), w) := by
  have hmade : w.disk.createDirectories p = (.ok (), w.disk) := by
    rcases h with hnil | hdirectory
    · rw [Disk.createDirectories, hnil, Disk.makeFrom]
    · exact Disk.createDirectories_of_isDirectory hdirectory
  rw [createDirectories, runIn_throughDisk, hmade]
  rfl

theorem of_runIn_createParent (Watched : Path → Prop) (written : List Path) {p : Path}
    {w v : World ν} {r : Except Failure Unit} (hw : w.disk.Grounded)
    (h : (createParent p).runIn w = (r, v)) :
    w.Leaves Watched written v ∧ v.scheduler = w.scheduler := by
  unfold createParent at h
  split at h
  · obtain ⟨hleaves, hscheduler, -⟩ := of_runIn_createDirectories Watched written hw h
    exact ⟨hleaves, hscheduler⟩
  · cases h
    exact ⟨.refl hw, rfl⟩

/-- What an action keeps in a world, and the next one in the world it ends in, is kept by both. -/
theorem kept_bind {R : World ν → World ν → Prop} (hR : World.Frame R) {a : Action ν α}
    {f : α → Action ν β} {w : World ν} (ha : R w (a.runIn w).2)
    (hf : ∀ x v, a.runIn w = (.ok x, v) → R v ((f x).runIn v).2) :
    R w ((a >>= f).runIn w).2 := by
  rw [runIn_bind]
  generalize a.runIn w = r at ha hf
  obtain ⟨r, v⟩ := r
  cases r with
  | error e => exact ha
  | ok x => exact hR.trans ha (hf x v rfl)

/-- The relation holds, in every world, across the action. -/
def Keeps (R : World ν → World ν → Prop) (a : Action ν α) : Prop :=
  ∀ w, R w (a.runIn w).2

namespace Keeps

variable {R : World ν → World ν → Prop}

theorem of_runIn {a : Action ν α} (h : a.Keeps R) {w v : World ν} {r : Except Failure α}
    (hrun : a.runIn w = (r, v)) : R w v := by
  have hw := h w
  rwa [hrun] at hw

theorem pure (hR : World.Frame R) (x : α) : (Pure.pure x : Action ν α).Keeps R :=
  hR.refl

theorem throw (hR : World.Frame R) (f : Failure) : (MonadExcept.throw f : Action ν α).Keeps R :=
  hR.refl

theorem disk (hR : World.Frame R) : (Action.disk : Action ν Disk).Keeps R :=
  hR.refl

theorem tell (hR : World.Frame R) (f : Console → Console) :
    (Action.tell f : Action ν Unit).Keeps R :=
  fun w => hR.told w _ _

theorem ofExcept (hR : World.Frame R) (r : Except Failure α) :
    (Action.ofExcept r : Action ν α).Keeps R := by
  intro w
  rw [runIn_ofExcept]
  exact hR.refl w

theorem bind (hR : World.Frame R) {a : Action ν α} {f : α → Action ν β} (ha : a.Keeps R)
    (hf : ∀ x, (f x).Keeps R) : (a >>= f).Keeps R :=
  fun w => kept_bind hR (ha w) fun x v _ => hf x v

theorem within {a : Action ν α} (ha : a.Keeps R) (wrap : Failure → Failure) :
    (Action.within wrap a).Keeps R := by
  intro w
  rw [runIn_within]
  exact ha w

theorem phase (hR : World.Frame R) {a : Action ν α} (ha : a.Keeps R) (label : String) :
    (Action.phase label a).Keeps R := by
  intro w
  obtain ⟨console, hrun⟩ := runIn_phase label a w
  rw [hrun]
  exact hR.trans (ha w) (hR.told _ _ _)

theorem each (hR : World.Frame R) {f : β → Action ν Unit} {xs : List β}
    (hf : ∀ x ∈ xs, (f x).Keeps R) : (Action.each f xs).Keeps R := by
  induction xs with
  | nil => exact pure hR ()
  | cons x xs ih =>
    exact bind hR (hf x List.mem_cons_self) fun _ => ih fun y hy => hf y (List.mem_cons_of_mem _ hy)

end Keeps

/-- The action leaves alone, in every world, what `World.Spares` names. -/
def Spares (p : Path) (a : Action ν α) : Prop :=
  ∀ w : World ν, w.Spares p (a.runIn w).2

variable {p : Path}

theorem createDirectories_spares (q : Path) :
    (createDirectories q : Action ν Unit).Keeps (World.Spares p) := by
  intro w
  rw [createDirectories, runIn_throughDisk]
  exact ⟨rfl, (Disk.furnished_createDirectories w.disk q).inherits p⟩

theorem createParent_spares (q : Path) :
    (createParent q : Action ν Unit).Keeps (World.Spares p) := by
  unfold createParent
  split
  · exact createDirectories_spares _
  · exact .pure (World.Spares.frame p) ()

/-- Writing a file spares one at another place. -/
theorem write_spares {q : Path} (hplace : ∀ workingDirectory,
    p.location workingDirectory ≠ q.location workingDirectory) (wrap : Fault → Failure)
    (bytes : ByteArray) :
    (onDisk wrap (·.write q bytes) : Action ν Unit).Keeps (World.Spares p) := by
  intro w
  rw [runIn_onDisk]
  split
  next d hwrite => exact ⟨rfl, (Disk.placed_of_write hwrite).inherits (hplace _)⟩
  next => exact .refl p w

end Action

end IncrementalBuild
