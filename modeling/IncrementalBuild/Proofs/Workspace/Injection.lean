import IncrementalBuild.Proofs.Settings.Sequences
import IncrementalBuild.Proofs.Settings.Unconditional
import IncrementalBuild.Proofs.World
import IncrementalBuild.Workspace.Project

/-!
The settings that loading puts into descriptions: the target of the build, the host, and where the
description lies. They are added behind what the text declares, so a key that the text declares too
reads as the first value of the text that counts, and falls back to the setting where there is none.
A project is layered over its workspace, so its own values and settings come first.
-/

namespace IncrementalBuild.Workspace

open Settings

section Injection

variable {m n : Model} {group key value : String}

/-- What settings, each with its group, key and text, add to what is declared for a key. -/
def contentsFor (settings : List (String × String × String)) (group key : String) :
    List (String × List Condition × Option Place) :=
  settings.flatMap fun (group', key', value) =>
    if group = group' ∧ key = key' then [(value, [], none)] else []

theorem of_inject (hm : m.Reachable) (h : inject m group key value = .ok n) :
    n.Reachable ∧ ∀ group' key', n.contentsOf group' key' =
      m.contentsOf group' key' ++ contentsFor [(group, key, value)] group' key' := by
  have hset : m.set group key value = .ok n := by
    unfold inject at h
    cases hset : m.set group key value with
    | error e => simp [hset, Except.mapError] at h
    | ok n' => simpa [hset, Except.mapError] using h
  refine ⟨.set hm hset, fun group' key' => ?_⟩
  unfold Model.set at hset
  split at hset
  · cases hset
  · cases hset
    rw [hm.inStep.contentsOf_addValue]
    simp [contentsFor, Value.content]

/-- Settings are added behind what is declared, one after the other. -/
theorem of_foldlM_inject {settings : List (String × String × String)} (hm : m.Reachable)
    (h : settings.foldlM (fun m (group, key, value) => inject m group key value) m = .ok n) :
    n.Reachable ∧ ∀ group key, n.contentsOf group key =
      m.contentsOf group key ++ contentsFor settings group key := by
  induction settings generalizing m with
  | nil =>
    cases h
    exact ⟨hm, fun _ _ => (List.append_nil _).symm⟩
  | cons setting settings ih =>
    rw [List.foldlM_cons] at h
    obtain ⟨m', hm', h⟩ := bind_eq_ok_iff.1 h
    obtain ⟨hreachable, hfirst⟩ := of_inject hm hm'
    obtain ⟨hn, hrest⟩ := ih hreachable h
    refine ⟨hn, fun group key => ?_⟩
    rw [hrest, hfirst, List.append_assoc]
    simp [contentsFor]

/-- The settings for a target, and for a description of some kind in a file. -/
def settingsOf (d : Disk) (target : Target) (kind : String) (file directory : Path) :
    List (String × String × String) :=
  [("Target", "Configuration", target.configuration), ("Target", "Platform", target.platform),
    ("Host", "Platform", Platform.hostName), ("Host", "Directory", d.workingPath.text),
    (kind, "File", file.text), (kind, "Directory", directory.text)]

theorem injectTarget_bind_injectPlace (d : Disk) (target : Target) (kind : String)
    (file directory : Path) (m : Model) :
    (injectTarget d target m >>= injectPlace kind file directory) =
      (settingsOf d target kind file directory).foldlM
        (fun m (group, key, value) => inject m group key value) m := by
  simp only [injectTarget, settingsOf, bind_assoc, List.foldlM_cons, List.foldlM_nil, bind_pure]
  rfl

/-- The target and then the place of a description are added behind what it declares. -/
theorem of_injectPlace {d : Disk} {target : Target} {kind : String} {file directory : Path}
    {l : Model} (hm : m.Reachable) (htarget : injectTarget d target m = .ok l)
    (hplace : injectPlace kind file directory l = .ok n) :
    n.Reachable ∧ ∀ group key, n.contentsOf group key = m.contentsOf group key ++
      contentsFor (settingsOf d target kind file directory) group key := by
  have hall : (injectTarget d target m >>= injectPlace kind file directory) = .ok n :=
    bind_eq_ok_iff.2 ⟨l, htarget, hplace⟩
  rw [injectTarget_bind_injectPlace] at hall
  exact of_foldlM_inject hm hall

theorem contentsFor_settingsOf (d : Disk) (target : Target) (kind : String) (file directory : Path)
    (hkind : kind = "Workspace" ∨ kind = "Project") :
    contentsFor (settingsOf d target kind file directory) "Target" "Configuration" =
        [(target.configuration, [], none)] ∧
      contentsFor (settingsOf d target kind file directory) "Target" "Platform" =
        [(target.platform, [], none)] ∧
      contentsFor (settingsOf d target kind file directory) kind "Directory" =
        [(directory.text, [], none)] := by
  rcases hkind with rfl | rfl <;> simp [contentsFor, settingsOf]

theorem of_readDescription {d : Disk} {file : Path} (h : readDescription d file = .ok m) :
    m.Reachable := by
  unfold readDescription at h
  split at h
  · cases h
  next source _ =>
    cases hm : Model.ofSource file source with
    | error e => simp [hm, Except.mapError] at h
    | ok m' =>
      obtain rfl : m' = m := by simpa [hm, Except.mapError] using h
      exact .ofSource hm

end Injection

/-- A description is the resolution of one that declares what `m` does, and more behind it. -/
def Extends (m : Model) (added : String → String → List (String × List Condition × Option Place))
    (n : Model) : Prop :=
  ∃ l : Model, l.Reachable ∧ n = l.resolve ∧
    ∀ group key, l.contentsOf group key = m.contentsOf group key ++ added group key

namespace Extends

variable {m n : Model} {group key value : String}
  {added : String → String → List (String × List Condition × Option Place)}
  {declared more : List (String × List Condition × Option Place)}

theorem reachable (h : Extends m added n) : n.Reachable := by
  obtain ⟨l, hl, rfl, -⟩ := h
  exact hl.resolve

theorem contentsOf_eq (h : Extends m added n) (group key : String) :
    n.contentsOf group key = m.contentsOf group key ++ added group key := by
  obtain ⟨l, -, rfl, hcontents⟩ := h
  exact hcontents group key

/-- What has been found out about a description is not declared. -/
theorem of_resolve (h : Extends m.resolve added n) : Extends m added n :=
  h

/-- A key falls back to the first value that was set from outside. -/
theorem fallsBack (h : Extends m added n)
    (hvalue : m.contentsOf group key ++ added group key = declared ++ (value, [], none) :: more) :
    n.FallsBack group key declared value := by
  obtain ⟨l, hl, rfl, hcontents⟩ := h
  exact hl.fallsBack ((hcontents group key).trans hvalue)

end Extends

section Loading

variable {ν : Type} {d : Disk} {path directory : Path} {target requested : Target}
  {workspace : Workspace} {project : Project} {m n : Model} {w w' : World ν}

theorem extends_of_settingsFor (hm : m.Reachable)
    (h : settingsFor d path directory target m = .ok n) :
    Extends m (contentsFor (settingsOf d target "Workspace" path directory)) n := by
  obtain ⟨m', htarget, h⟩ := bind_eq_ok_iff.1 h
  obtain ⟨l, hplace, h⟩ := bind_eq_ok_iff.1 h
  cases h
  obtain ⟨hreachable, hcontents⟩ := of_injectPlace hm htarget hplace
  exact ⟨l, hreachable, rfl, hcontents⟩

theorem extends_of_project_settingsFor (hm : m.Reachable)
    (hworkspace : workspace.settings.Reachable)
    (h : Project.settingsFor d path directory workspace target m = .ok n) :
    Extends m (fun group key =>
      contentsFor (settingsOf d target "Project" path directory) group key ++
        workspace.settings.contentsOf group key) n := by
  obtain ⟨m', htarget, h⟩ := bind_eq_ok_iff.1 h
  obtain ⟨l, hplace, h⟩ := bind_eq_ok_iff.1 h
  cases h
  obtain ⟨hreachable, hcontents⟩ := of_injectPlace hm htarget hplace
  refine ⟨l.merge workspace.settings, hreachable.merge hworkspace, rfl, fun group key => ?_⟩
  rw [(hreachable.inStep.merge hworkspace.inStep group key).2, hcontents, List.append_assoc]

theorem of_ofSettings (h : ofSettings path directory target m = .ok workspace) :
    workspace.settings = m ∧ workspace.directory = directory := by
  unfold ofSettings at h
  obtain ⟨name, -, h⟩ := bind_eq_ok_iff.1 h
  dsimp only at h
  split at h
  · cases h
  split at h
  · cases h
  split at h
  · cases h
  · cases h
    exact ⟨rfl, rfl⟩

theorem of_project_ofSettings
    (h : Project.ofSettings d path directory workspace target m = .ok project) :
    project.settings = m ∧ project.directory = directory := by
  unfold Project.ofSettings at h
  obtain ⟨name, -, h⟩ := bind_eq_ok_iff.1 h
  obtain ⟨language, -, h⟩ := bind_eq_ok_iff.1 h
  obtain ⟨outputType, -, h⟩ := bind_eq_ok_iff.1 h
  dsimp only at h
  split at h
  · obtain ⟨platform, -, h⟩ := bind_eq_ok_iff.1 h
    obtain ⟨toolset, -, h⟩ := bind_eq_ok_iff.1 h
    obtain ⟨optimization, -, h⟩ := bind_eq_ok_iff.1 h
    obtain ⟨warnings, -, h⟩ := bind_eq_ok_iff.1 h
    obtain ⟨versionSource, -, h⟩ := bind_eq_ok_iff.1 h
    obtain ⟨files, -, h⟩ := bind_eq_ok_iff.1 h
    cases h
    exact ⟨rfl, rfl⟩
  · cases h

/-- The workspace that a description declares, with the target completed. -/
def declaredWorkspace (d : Disk) (path : Path) (requested : Target) (shared : Model) :
    Except Failure (Workspace × Target) := do
  let directory ← directoryOf d path
  let target : Target :=
    ⟨pick requested.configuration (shared.resolve.value? "Configurations" "Configuration"),
      pick requested.platform (shared.resolve.value? "Platforms" "Platform")⟩
  let m ← settingsFor d path directory target shared.resolve
  let workspace ← ofSettings path directory target m
  return (workspace, target)

/-- Loading a workspace reads its description, and shows what is wrong with it. -/
theorem of_runIn_load (h : (load path requested).runIn w = (.ok (workspace, target), w')) :
    ∃ shared, readDescription w.disk path = .ok shared ∧
      declaredWorkspace w.disk path requested shared = .ok (workspace, target) := by
  rw [load, Action.runIn_disk_bind] at h
  obtain ⟨directory, hdirectory, h⟩ := Action.runIn_ofExcept_bind_eq_ok.1 h
  obtain ⟨shared, hshared, h⟩ := Action.runIn_ofExcept_bind_eq_ok.1 h
  obtain ⟨m, hm, h⟩ := Action.runIn_ofExcept_bind_eq_ok.1 h
  obtain ⟨-, v, -, h⟩ := Action.runIn_bind_eq_ok.1 h
  obtain ⟨workspace', hworkspace, h⟩ := Action.runIn_ofExcept_bind_eq_ok.1 h
  cases h
  exact ⟨shared, hshared, bind_eq_ok_iff.2 ⟨directory, hdirectory, bind_eq_ok_iff.2
    ⟨m, hm, bind_eq_ok_iff.2 ⟨workspace, hworkspace, rfl⟩⟩⟩⟩

theorem exists_runIn_load {shared : Model} (hshared : readDescription w.disk path = .ok shared)
    (h : declaredWorkspace w.disk path requested shared = .ok (workspace, target)) :
    ∃ w', w'.disk = w.disk ∧ (load path requested).runIn w = (.ok (workspace, target), w') := by
  obtain ⟨directory, hdirectory, h⟩ := bind_eq_ok_iff.1 h
  obtain ⟨m, hm, h⟩ := bind_eq_ok_iff.1 h
  obtain ⟨workspace', hworkspace, h⟩ := bind_eq_ok_iff.1 h
  cases h
  refine ⟨{ w with console := w.console.diagnostics m.path m.diagnostics }, rfl, ?_⟩
  rw [load, Action.runIn_disk_bind]
  refine Action.runIn_ofExcept_bind_eq_ok.2 ⟨directory, hdirectory, ?_⟩
  refine Action.runIn_ofExcept_bind_eq_ok.2 ⟨shared, hshared, ?_⟩
  refine Action.runIn_ofExcept_bind_eq_ok.2 ⟨m, hm, ?_⟩
  refine Action.runIn_bind_eq_ok.2 ⟨(), _, rfl, ?_⟩
  exact Action.runIn_ofExcept_bind_eq_ok.2 ⟨workspace, hworkspace, rfl⟩

/-- The project that a description declares. -/
def declaredProject (d : Disk) (path : Path) (workspace : Workspace) (target : Target)
    (own : Model) : Except Failure Project := do
  let directory ← directoryOf d path
  let m ← Project.settingsFor d path directory workspace target own
  Project.ofSettings d path directory workspace target m

/-- Loading a project reads its description, and shows what is wrong with it. -/
theorem of_runIn_project_load
    (h : (Project.load path workspace target).runIn w = (.ok project, w')) :
    ∃ own, readDescription w.disk path = .ok own ∧
      declaredProject w.disk path workspace target own = .ok project := by
  rw [Project.load, Action.runIn_disk_bind] at h
  obtain ⟨directory, hdirectory, h⟩ := Action.runIn_ofExcept_bind_eq_ok.1 h
  obtain ⟨own, hown, h⟩ := Action.runIn_ofExcept_bind_eq_ok.1 h
  obtain ⟨m, hm, h⟩ := Action.runIn_ofExcept_bind_eq_ok.1 h
  obtain ⟨-, v, -, h⟩ := Action.runIn_bind_eq_ok.1 h
  rw [Action.runIn_ofExcept] at h
  exact ⟨own, hown, bind_eq_ok_iff.2 ⟨directory, hdirectory, bind_eq_ok_iff.2
    ⟨m, hm, (Prod.mk.inj h).1⟩⟩⟩

theorem exists_runIn_project_load {own : Model}
    (hown : readDescription w.disk path = .ok own)
    (h : declaredProject w.disk path workspace target own = .ok project) :
    ∃ w', (Project.load path workspace target).runIn w = (.ok project, w') := by
  obtain ⟨directory, hdirectory, h⟩ := bind_eq_ok_iff.1 h
  obtain ⟨m, hm, h⟩ := bind_eq_ok_iff.1 h
  refine ⟨{ w with console := w.console.diagnostics m.path m.diagnostics }, ?_⟩
  rw [Project.load, Action.runIn_disk_bind]
  refine Action.runIn_ofExcept_bind_eq_ok.2 ⟨directory, hdirectory, ?_⟩
  refine Action.runIn_ofExcept_bind_eq_ok.2 ⟨own, hown, ?_⟩
  refine Action.runIn_ofExcept_bind_eq_ok.2 ⟨m, hm, ?_⟩
  refine Action.runIn_bind_eq_ok.2 ⟨(), _, rfl, ?_⟩
  rw [Action.runIn_ofExcept, h]

/-- A workspace has the settings for its target behind what its description declares. -/
theorem extends_of_declaredWorkspace {shared : Model} (hshared : shared.Reachable)
    (h : declaredWorkspace d path requested shared = .ok (workspace, target)) :
    Extends shared (contentsFor (settingsOf d target "Workspace" path workspace.directory))
      workspace.settings := by
  obtain ⟨directory, -, h⟩ := bind_eq_ok_iff.1 h
  obtain ⟨m, hm, h⟩ := bind_eq_ok_iff.1 h
  obtain ⟨workspace', hworkspace, h⟩ := bind_eq_ok_iff.1 h
  cases h
  obtain ⟨hsettings, hdirectory⟩ := of_ofSettings hworkspace
  rw [hsettings, hdirectory]
  exact (extends_of_settingsFor hshared.resolve hm).of_resolve

/-- A project has the settings for its target behind what its description declares, and what its
workspace declares behind them. -/
theorem extends_of_declaredProject {own : Model} (hown : own.Reachable)
    (hworkspace : workspace.settings.Reachable)
    (h : declaredProject d path workspace target own = .ok project) :
    Extends own (fun group key =>
      contentsFor (settingsOf d target "Project" path project.directory) group key ++
        workspace.settings.contentsOf group key) project.settings := by
  obtain ⟨directory, -, h⟩ := bind_eq_ok_iff.1 h
  obtain ⟨m, hm, h⟩ := bind_eq_ok_iff.1 h
  obtain ⟨hsettings, hdirectory⟩ := of_project_ofSettings h
  rw [hsettings, hdirectory]
  exact extends_of_project_settingsFor hown hworkspace hm

/-- Where a workspace and a project of it were loaded for a target, the keys that loading sets fall
back to what it set: the configuration and the platform to those of the target, and the directories
to those of the workspace and of the project. Values that the texts declare for these keys come
first. For the directory of the workspace, as the project sees it, these are the project's and then
the workspace's; for the other keys they are those of the description that is looked at. -/
theorem load_fallsBack {projectPath : Path} {v v' : World ν}
    (hworkspace : (load path requested).runIn w = (.ok (workspace, target), w'))
    (hproject : (Project.load projectPath workspace target).runIn v = (.ok project, v')) :
    ∃ shared own : Model, readDescription w.disk path = .ok shared ∧
      readDescription v.disk projectPath = .ok own ∧
      (workspace.settings.FallsBack "Target" "Configuration"
          (shared.contentsOf "Target" "Configuration") target.configuration ∧
        workspace.settings.FallsBack "Target" "Platform"
          (shared.contentsOf "Target" "Platform") target.platform ∧
        workspace.settings.FallsBack "Workspace" "Directory"
          (shared.contentsOf "Workspace" "Directory") workspace.directory.text) ∧
      project.settings.FallsBack "Target" "Configuration"
        (own.contentsOf "Target" "Configuration") target.configuration ∧
      project.settings.FallsBack "Target" "Platform"
        (own.contentsOf "Target" "Platform") target.platform ∧
      project.settings.FallsBack "Workspace" "Directory"
        (own.contentsOf "Workspace" "Directory" ++ shared.contentsOf "Workspace" "Directory")
        workspace.directory.text ∧
      project.settings.FallsBack "Project" "Directory"
        (own.contentsOf "Project" "Directory") project.directory.text := by
  obtain ⟨shared, hshared, hworkspace⟩ := of_runIn_load hworkspace
  obtain ⟨own, hown, hproject⟩ := of_runIn_project_load hproject
  have hextends := extends_of_declaredWorkspace (of_readDescription hshared) hworkspace
  have hextends' :=
    extends_of_declaredProject (of_readDescription hown) hextends.reachable hproject
  obtain ⟨hconfiguration, hplatform, hdirectory⟩ :=
    contentsFor_settingsOf w.disk target "Workspace" path workspace.directory (.inl rfl)
  obtain ⟨hconfiguration', hplatform', hdirectory'⟩ :=
    contentsFor_settingsOf v.disk target "Project" projectPath project.directory (.inr rfl)
  have hnone : contentsFor (settingsOf v.disk target "Project" projectPath project.directory)
      "Workspace" "Directory" = [] := by
    simp [contentsFor, settingsOf]
  have hbehind : own.contentsOf "Workspace" "Directory" ++
        (contentsFor (settingsOf v.disk target "Project" projectPath project.directory)
          "Workspace" "Directory" ++ workspace.settings.contentsOf "Workspace" "Directory") =
      (own.contentsOf "Workspace" "Directory" ++ shared.contentsOf "Workspace" "Directory") ++
        [(workspace.directory.text, [], none)] := by
    rw [hnone, List.nil_append, hextends.contentsOf_eq, hdirectory, List.append_assoc]
  refine ⟨shared, own, hshared, hown, ⟨?_, ?_, ?_⟩, ?_, ?_, ?_, ?_⟩
  · exact hextends.fallsBack (by rw [hconfiguration])
  · exact hextends.fallsBack (by rw [hplatform])
  · exact hextends.fallsBack (by rw [hdirectory])
  · exact hextends'.fallsBack (by rw [hconfiguration']; rfl)
  · exact hextends'.fallsBack (by rw [hplatform']; rfl)
  · exact hextends'.fallsBack hbehind
  · exact hextends'.fallsBack (by rw [hdirectory']; rfl)

end Loading

/-- A workspace that declares a configuration of its own for the target. -/
def declaringText : String :=
  "[Workspace]\nName = W\n[Configurations]\nConfiguration = Debug\n" ++
    "[Platforms]\nPlatform = Native\n[Target]\nConfiguration = Other\n"

/-- What a text declares that has a group in one line and a key of it in the next. -/
def declarations (file : Path) : (line : Nat) → List (String × String × String) → List Statement
  | _, [] => []
  | line, (group, key, value) :: rest =>
    .group group ⟨file, ⟨line, 1⟩⟩ ::
      .assignment group key value [] ⟨file, ⟨line + 1, 1⟩⟩ :: declarations file (line + 2) rest

def declaringModel : Model :=
  (declarations ⟨"ws.kiln"⟩ 1 [("Workspace", "Name", "W"),
    ("Configurations", "Configuration", "Debug"), ("Platforms", "Platform", "Native"),
    ("Target", "Configuration", "Other")]).foldl
      Model.addStatement { Model.empty with path := ⟨"ws.kiln"⟩ }

def namedModel : Model :=
  (declarations ⟨"app.kiln"⟩ 1 [("Project", "Name", "App")]).foldl
      Model.addStatement { Model.empty with path := ⟨"app.kiln"⟩ }

/-- The workspace and a project of it, in a directory that is named like a reference. -/
def referringWorld : World Unit where
  disk := {
    nodes := ⟨[(["d$(Name)"], .directory),
      (["d$(Name)", "app.kiln"], .file ⟨"[Project]\nName = App\n".toUTF8, 1, false⟩),
      (["d$(Name)", "ws.kiln"], .file ⟨declaringText.toUTF8, 1, false⟩)]⟩
    workingDirectory := ["d$(Name)"]
    clock := 2 }
  console := .start .quiet
  messages := default
  scheduler := default
  searchPath := []
  notes := ()

theorem readDescription_declaring :
    readDescription referringWorld.disk ⟨"ws.kiln"⟩ = .ok declaringModel := by
  have hstatements : statements? ⟨"ws.kiln"⟩ declaringText = .ok (declarations ⟨"ws.kiln"⟩ 1
      [("Workspace", "Name", "W"), ("Configurations", "Configuration", "Debug"),
        ("Platforms", "Platform", "Native"), ("Target", "Configuration", "Other")]) := by
    cbv
  have htext : referringWorld.disk.readText ⟨"ws.kiln"⟩ = .ok declaringText := by
    decide +kernel
  have hmodel : Model.ofSource ⟨"ws.kiln"⟩ declaringText = .ok declaringModel :=
    bind_eq_ok_iff.2 ⟨_, hstatements, rfl⟩
  simp only [readDescription, htext, hmodel]
  rfl

theorem readDescription_named :
    readDescription referringWorld.disk ⟨"app.kiln"⟩ = .ok namedModel := by
  have hstatements : statements? ⟨"app.kiln"⟩ "[Project]\nName = App\n" =
      .ok (declarations ⟨"app.kiln"⟩ 1 [("Project", "Name", "App")]) := by
    cbv
  have htext : referringWorld.disk.readText ⟨"app.kiln"⟩ = .ok "[Project]\nName = App\n" := by
    decide +kernel
  have hmodel : Model.ofSource ⟨"app.kiln"⟩ "[Project]\nName = App\n" = .ok namedModel :=
    bind_eq_ok_iff.2 ⟨_, hstatements, rfl⟩
  simp only [readDescription, htext, hmodel]
  rfl

/-- What is read from the workspace and the project of this world, if they can be loaded. -/
def referringReads : Except Failure (Target × List String × List (Option String)) := do
  let d := referringWorld.disk
  let (workspace, target) ← declaredWorkspace d ⟨"ws.kiln"⟩ ⟨"", ""⟩ declaringModel
  let project ← declaredProject d ⟨"app.kiln"⟩ workspace target namedModel
  return (target, [workspace.directory.text, project.directory.text],
    [workspace.settings.value? "Target" "Configuration",
      workspace.settings.value? "Workspace" "Directory",
      project.settings.value? "Project" "Directory"])

theorem referringReads_eq : referringReads = .ok (⟨"Debug", "Native"⟩, ["/d$(Name)", "/d$(Name)"],
    [some "Other", some "/dW", some "/dApp"]) := by
  refine toOption_eq_some_iff.1 ?_
  decide +kernel

theorem exists_referring_load :
    ∃ (workspace : Workspace) (target : Target) (project : Project) (w v : World Unit),
      (load ⟨"ws.kiln"⟩ ⟨"", ""⟩).runIn referringWorld = (.ok (workspace, target), w) ∧
      (Project.load ⟨"app.kiln"⟩ workspace target).runIn w = (.ok project, v) ∧
      w.disk = referringWorld.disk ∧ target = ⟨"Debug", "Native"⟩ ∧
      (workspace.directory.text = "/d$(Name)" ∧ project.directory.text = "/d$(Name)") ∧
      workspace.settings.value? "Target" "Configuration" = some "Other" ∧
      workspace.settings.value? "Workspace" "Directory" = some "/dW" ∧
      project.settings.value? "Project" "Directory" = some "/dApp" := by
  obtain ⟨⟨workspace, target⟩, hworkspace, h⟩ := bind_eq_ok_iff.1 referringReads_eq
  obtain ⟨project, hproject, h⟩ := bind_eq_ok_iff.1 h
  obtain ⟨w, hdisk, hw⟩ := exists_runIn_load readDescription_declaring hworkspace
  obtain ⟨v, hv⟩ := exists_runIn_project_load (hdisk ▸ readDescription_named) (hdisk ▸ hproject)
  have hreads := Except.ok.inj h
  simp only [Prod.mk.injEq, List.cons.injEq, and_true] at hreads
  exact ⟨workspace, target, project, w, v, hw, hv, hdisk, hreads⟩

/-- The configuration that the text declares for the target is read in place of the one that is
built, and a directory whose name has a reference in it is not read as it is. -/
theorem referring_misread :
    ∃ (workspace : Workspace) (target : Target) (project : Project) (w v : World Unit),
      (load ⟨"ws.kiln"⟩ ⟨"", ""⟩).runIn referringWorld = (.ok (workspace, target), w) ∧
      (Project.load ⟨"app.kiln"⟩ workspace target).runIn w = (.ok project, v) ∧
      workspace.settings.value? "Target" "Configuration" ≠ some target.configuration ∧
      workspace.settings.value? "Workspace" "Directory" ≠ some workspace.directory.text ∧
      project.settings.value? "Project" "Directory" ≠ some project.directory.text := by
  obtain ⟨workspace, target, project, w, v, hw, hv, -, rfl, ⟨hdirectory, hdirectory'⟩,
    hconfiguration, hworkspace, hproject⟩ := exists_referring_load
  refine ⟨workspace, _, project, w, v, hw, hv, ?_, ?_, ?_⟩
  · rw [hconfiguration]
    decide
  · rw [hworkspace, hdirectory]
    decide
  · rw [hproject, hdirectory']
    decide

/-- What the texts do not declare is read as it was set: the platform in the workspace, and the
configuration in the project, which does not see that of the workspace's text. -/
theorem referring_fallsBack :
    ∃ (workspace : Workspace) (target : Target) (project : Project) (w v : World Unit),
      (load ⟨"ws.kiln"⟩ ⟨"", ""⟩).runIn referringWorld = (.ok (workspace, target), w) ∧
      (Project.load ⟨"app.kiln"⟩ workspace target).runIn w = (.ok project, v) ∧
      workspace.settings.value? "Target" "Platform" = some "Native" ∧
      project.settings.value? "Target" "Configuration" = some "Debug" := by
  obtain ⟨workspace, target, project, w, v, hw, hv, hdisk, rfl, -⟩ := exists_referring_load
  obtain ⟨shared, own, hshared, hown, ⟨-, hplatform, -⟩, hconfiguration, -⟩ :=
    load_fallsBack hw hv
  obtain rfl : declaringModel = shared :=
    Except.ok.inj (readDescription_declaring.symm.trans hshared)
  obtain rfl : namedModel = own := by
    rw [hdisk] at hown
    exact Except.ok.inj (readDescription_named.symm.trans hown)
  have hshared : declaringModel.contentsOf "Target" "Platform" = [] :=
    List.isEmpty_iff.1 (by decide +kernel)
  have hown : namedModel.contentsOf "Target" "Configuration" = [] :=
    List.isEmpty_iff.1 (by decide +kernel)
  rw [hshared] at hplatform
  rw [hown] at hconfiguration
  exact ⟨workspace, _, project, w, v, hw, hv, hplatform.value?_eq (by decide),
    hconfiguration.value?_eq (by decide)⟩

end IncrementalBuild.Workspace
