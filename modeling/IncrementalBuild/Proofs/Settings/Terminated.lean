import IncrementalBuild.Proofs.Settings.Branches
import IncrementalBuild.Proofs.Settings.Grammar.Program
import IncrementalBuild.Proofs.Settings.Template

/-!
References are closed wherever they are substituted. A description file is refused for a value or a
quoted text in a condition that opens a reference and does not close it, and so is such a setting;
nothing else brings texts into a model. So resolution never meets a text that it cannot read, and
whatever it did with one would change nothing.
-/

namespace IncrementalBuild.Settings

/-- The quoted texts inside of a condition. -/
def Condition.quotes : Condition → List String
  | .literal (.reference _) => []
  | .literal (.quoted t) => [t]
  | .not c | .paren c => c.quotes
  | .and l r | .or l r | .compare _ l r => l.quotes ++ r.quotes

/-- All references in the quoted texts of a condition are closed. -/
def Condition.Terminated (c : Condition) : Prop :=
  ∀ t ∈ c.quotes, isUnterminated t = false

namespace Value

/-- The texts of a value in which references are substituted: its own text, and every quoted text
inside of its conditions. -/
def texts (v : Value) : List String :=
  v.raw :: v.conditions.flatMap Condition.quotes

/-- All references in the texts of a value are closed. -/
def Terminated (v : Value) : Prop :=
  ∀ t ∈ v.texts, isUnterminated t = false

theorem terminated_iff {v : Value} :
    v.Terminated ↔ isUnterminated v.raw = false ∧ ∀ c ∈ v.conditions, c.Terminated := by
  simp only [Terminated, Condition.Terminated, texts, List.forall_mem_cons, List.forall_mem_flatMap]

theorem terminated_default : (default : Value).Terminated :=
  terminated_iff.2 ⟨by cbv, nofun⟩

end Value

section Reading

variable {opened : List Condition} {ts rest : List Placed}

/-- The quoted texts of a condition are checked when it is read. -/
theorem Condition.Spelled.terminated {tier : Tier} {c : Condition} (h : c.Spelled tier ts rest) :
    c.Terminated := by
  induction h with
  | word => exact nofun
  | quoted _ _ ht => exact List.forall_mem_singleton.2 ht
  | not _ _ ih => exact ih
  | paren _ _ _ ih => exact ih
  | ofUnary _ ih => exact ih
  | ofComparison _ ih => exact ih
  | compare _ _ _ ihl ihr => exact List.forall_mem_append.2 ⟨ihl, ihr⟩
  | and _ _ _ ihl ihr => exact List.forall_mem_append.2 ⟨ihl, ihr⟩
  | or _ _ _ ihl ihr => exact List.forall_mem_append.2 ⟨ihl, ihr⟩

theorem forall_terminated_concat {c : Condition} (hopened : ∀ c ∈ opened, c.Terminated)
    (hc : c.Terminated) : ∀ d ∈ opened ++ [c], d.Terminated := by
  simpa [or_imp, forall_and] using ⟨hopened, hc⟩

mutual

/-- What is read under terminated conditions is terminated, also under those of its branches. -/
theorem Block.Spelled.terminated (group : String) {opened : List Condition}
    (hopened : ∀ c ∈ opened, c.Terminated) {b : Block} {ts rest : List Placed} :
    b.Spelled ts rest → ∀ v ∈ declared (b.statements group opened), v.Terminated
  | .done _ => by simp [Block.statements]
  | .assign _ _ hvalue hrest =>
    List.forall_mem_cons.2
      ⟨Value.terminated_iff.2 ⟨hvalue, hopened⟩, hrest.terminated group hopened⟩
  | .choose _ hchoice hrest => by
    obtain ⟨hbody, hotherwise⟩ := hchoice.terminated group hopened
    simp only [Block.statements, declared_append, List.forall_mem_append]
    exact ⟨hbody, hotherwise, hrest.terminated group hopened⟩

theorem ChoiceSpelled.terminated (group : String) {opened : List Condition}
    (hopened : ∀ c ∈ opened, c.Terminated) {c : Condition} {body : Block}
    {otherwise : Otherwise} {ts rest : List Placed} :
    ChoiceSpelled c body otherwise ts rest →
      (∀ v ∈ declared (body.statements group (opened ++ [c])), v.Terminated) ∧
      ∀ v ∈ declared (otherwise.statements group (opened ++ [.not c])), v.Terminated
  | .mk _ _ _ _ hc hbody hotherwise =>
    ⟨hbody.terminated group (forall_terminated_concat hopened hc.terminated),
      hotherwise.terminated group (forall_terminated_concat hopened (c := .not _) hc.terminated)⟩

theorem Otherwise.Spelled.terminated (group : String) {opened : List Condition}
    (hopened : ∀ c ∈ opened, c.Terminated) {otherwise : Otherwise} {ts rest : List Placed} :
    otherwise.Spelled ts rest → ∀ v ∈ declared (otherwise.statements group opened), v.Terminated
  | .nothing _ => by simp [Otherwise.statements]
  | .block _ _ _ hbody => hbody.terminated group hopened
  | .choose _ _ hchoice => by
    simp only [Otherwise.statements, declared_append, List.forall_mem_append]
    exact hchoice.terminated group hopened

end

theorem SectionsSpelled.terminated {sections : List Section} (h : SectionsSpelled sections ts) :
    ∀ v ∈ declared (sections.flatMap Section.statements), v.Terminated := by
  induction h with
  | nil => exact nofun
  | cons hbody _ ih =>
    simp only [List.flatMap_cons, Section.statements, List.cons_append, declared_group,
      declared_append, List.forall_mem_append]
    exact ⟨hbody.terminated _ (by simp), ih⟩

/-- All values that a program declares are closed. -/
theorem Program.Spelled.terminated {p : Program} (h : p.Spelled ts) :
    ∀ v ∈ declared p.statements, v.Terminated := by
  obtain ⟨us, hleading, hsections⟩ := h
  rw [Program.statements, declared_append, List.forall_mem_append]
  exact ⟨hleading.terminated _ (by simp), hsections.terminated⟩

end Reading

namespace Model

/-- All references in the values of a model are closed. -/
def Terminated (m : Model) : Prop :=
  ∀ v ∈ m.values, v.Terminated

variable {m n : Model}

theorem terminated_addValue {v : Value} (hm : m.Terminated) (hv : v.Terminated) :
    (m.addValue v).Terminated := by
  intro u hu
  obtain hu | rfl := Array.mem_push.1 hu
  · exact hm u hu
  · exact hv

theorem Terminated.getElem (hm : m.Terminated) (id : Nat) :
    (m.values[id]?.getD default).Terminated := by
  cases hv : m.values[id]? with
  | none => exact Value.terminated_default
  | some v => exact hm v (Array.mem_of_getElem? hv)

theorem terminated_merge (hm : m.Terminated) (hn : n.Terminated) : (m.merge n).Terminated := by
  refine List.foldlRecOn n.index.entries _ hm fun m hm ⟨group, keys⟩ _ => ?_
  have hgroup : (m.addGroup group).Terminated := hm
  refine List.foldlRecOn keys.entries _ hgroup fun m hm ⟨key, ids⟩ _ => ?_
  refine List.foldlRecOn ids _ hm fun m hm id _ => ?_
  exact terminated_addValue hm (hn.getElem id : Value.Terminated { (_ : Value) with group, key })

/-- Whatever leads to a model, all references in its values are closed. -/
theorem Reachable.terminated (h : m.Reachable) : m.Terminated := by
  induction h with
  | empty => exact nofun
  | @ofSource path source m hm =>
    obtain ⟨statements, hstatements, hm⟩ := bind_eq_ok_iff.1 hm
    cases hm
    obtain ⟨ts, -, hstatements⟩ := bind_eq_ok_iff.1 hstatements
    obtain ⟨p, hp, hstatements⟩ := bind_eq_ok_iff.1 hstatements
    cases hstatements
    intro v hv
    have hvalues := values_foldl_addStatement p.statements { Model.empty with path }
    have hnone : ({ Model.empty with path } : Model).values = #[] := rfl
    rw [← Array.mem_toList_iff, hvalues, hnone, List.nil_append] at hv
    exact (readProgram_eq_ok_iff.1 hp).terminated v hv
  | @set m n group key value _ hn ih =>
    unfold Model.set at hn
    split at hn
    · cases hn
    next hvalue =>
      cases hn
      exact terminated_addValue ih (Value.terminated_iff.2 ⟨Bool.eq_false_iff.2 hvalue, nofun⟩)
  | merge _ _ ih ih' => exact terminated_merge ih ih'
  | resolve _ ih => exact ih

end Model

/-- What is done with a text that opens a reference and does not close it, in some value. -/
abbrev Fallback := Value → String → Resolving String

namespace Solver

/-- A text with its references replaced, or what `fallback` does with it. -/
def expandOr (fallback : Fallback) (s : Solver) (m : Model) (origin : Value) (text : String) :
    Resolving String :=
  match pieces? text with
  | .ok ps => s.pieces m origin ps
  | .error _ => fallback origin text

/-- The text of a literal, with a fallback. -/
def literalOr (fallback : Fallback) (s : Solver) (m : Model) (origin : Value) :
    Literal → Resolving String
  | .reference name => s.literal m origin (.reference name)
  | .quoted t => s.expandOr fallback m origin t

/-- Whether all conditions hold, with a fallback for their texts. -/
def allHoldOr (fallback : Fallback) (s : Solver) (m : Model) (origin : Value) :
    List Condition → Resolving Bool
  | [] => return true
  | c :: cs => do
    if ← c.holds (s.literalOr fallback m origin) then s.allHoldOr fallback m origin cs
    else return false

/-- The text of a value, with a fallback. -/
def textWithOr (fallback : Fallback) (deeper : Option Solver) (m : Model) (id : Nat) :
    Resolving String := do
  let v := m.values[id]?.getD default
  match (← get).text id with
  | .done t => return t
  | .inProgress =>
    diagnose v ("cyclic reference through " ++ v.name)
    return placeholder v.name
  | .pending =>
    match deeper with
    | none =>
      diagnose v ("reference depth exceeded while expanding " ++ v.name)
      return placeholder v.name
    | some s =>
      modify fun f => { f with texts := f.texts.setIfInBounds id .inProgress }
      let t ← s.expandOr fallback m v v.raw
      modify fun f => { f with texts := f.texts.setIfInBounds id (.done t) }
      return t

/-- Whether a value counts, with a fallback for the texts of its conditions. -/
def activeWithOr (fallback : Fallback) (deeper : Option Solver) (m : Model) (id : Nat) :
    Resolving Bool := do
  let v := m.values[id]?.getD default
  match (← get).activity id with
  | .known active => return active
  | .evaluating =>
    let conditions := " and ".intercalate (v.conditions.map Condition.text)
    diagnose v ("condition (" ++ conditions ++ ") on " ++ v.name ++ " depends on its own value")
    return false
  | .unknown =>
    match deeper with
    | none =>
      diagnose v ("reference depth exceeded while evaluating " ++ v.name)
      return false
    | some s =>
      modify fun f => { f with activities := f.activities.setIfInBounds id .evaluating }
      let active ← s.allHoldOr fallback m v v.conditions
      modify fun f => { f with activities := f.activities.setIfInBounds id (.known active) }
      return active

/-- The solver that follows references at most `room` steps, with a fallback. -/
def ofRoomOr (fallback : Fallback) (m : Model) : (room : Nat) → Solver
  | 0 => ⟨textWithOr fallback none m, activeWithOr fallback none m⟩
  | room + 1 =>
    let deeper := ofRoomOr fallback m room
    ⟨textWithOr fallback (some deeper) m, activeWithOr fallback (some deeper) m⟩

end Solver

/-- The model with all its values resolved anew, where `fallback` is done with every text that is to
be expanded and opens a reference that it does not close. -/
def Model.resolveOr (m : Model) (fallback : Fallback) : Model :=
  let solver := Solver.ofRoomOr fallback m (referenceDepth + 1)
  let ids := List.range m.values.size
  { m with findings := ((solver.settle ids).run (.blank m.values.size)).2 }

/-- A condition is evaluated alike where its literals are. -/
theorem Condition.holds_congr {literal other : Literal → Resolving String} {c : Condition}
    (hreference : ∀ name, literal (.reference name) = other (.reference name))
    (hquoted : ∀ t ∈ c.quotes, literal (.quoted t) = other (.quoted t)) :
    c.holds literal = c.holds other := by
  have hoperand : c.operand literal = c.operand other := by
    induction c with
    | literal l =>
      cases l with
      | reference name => rw [operand, operand, hreference]
      | quoted t => rw [operand, operand, hquoted t (List.mem_singleton_self t)]
    | not c ih => rw [operand, operand, ih hquoted]
    | paren c ih => rw [operand, operand, ih hquoted]
    | and l r ihl ihr =>
      obtain ⟨hl, hr⟩ := List.forall_mem_append.1 hquoted
      rw [operand, operand, ihl hl, ihr hr]
    | or l r ihl ihr =>
      obtain ⟨hl, hr⟩ := List.forall_mem_append.1 hquoted
      rw [operand, operand, ihl hl, ihr hr]
    | compare op l r ihl ihr =>
      obtain ⟨hl, hr⟩ := List.forall_mem_append.1 hquoted
      rw [operand, operand, ihl hl, ihr hr]
  rw [holds, holds, hoperand]

namespace Solver

variable {fallback : Fallback} {m : Model}

/-- With this fallback, all texts of a value are expanded as they are by resolution. -/
def Agrees (fallback : Fallback) (m : Model) (v : Value) : Prop :=
  ∀ s : Solver, ∀ t ∈ v.texts, s.expandOr fallback m v t = s.expand m v t

theorem agrees_of_terminated {v : Value} (hv : v.Terminated) : Agrees fallback m v := by
  intro s t ht
  have hclosed := hv t ht
  unfold isUnterminated at hclosed
  unfold expandOr expand
  cases hpieces : pieces? t with
  | ok ps => rfl
  | error offset => simp [hpieces] at hclosed

theorem Agrees.allHoldOr_eq {v : Value} (hv : Agrees fallback m v) (s : Solver)
    {cs : List Condition} (hcs : cs ⊆ v.conditions) :
    s.allHoldOr fallback m v cs = s.allHold m v cs := by
  induction cs with
  | nil => rfl
  | cons c cs ih =>
    obtain ⟨hc, hcs⟩ := List.cons_subset.1 hcs
    have hholds : c.holds (s.literalOr fallback m v) = c.holds (s.literal m v) :=
      Condition.holds_congr (fun _ => rfl) fun t ht =>
        hv s t (List.mem_cons_of_mem _ (List.mem_flatMap.2 ⟨c, hc, ht⟩))
    rw [allHoldOr, allHold, hholds, ih hcs]

variable (hm : ∀ id : Nat, Agrees fallback m (m.values[id]?.getD default))

include hm

theorem textWithOr_eq (deeper : Option Solver) :
    textWithOr fallback deeper m = textWith deeper m := by
  funext id f
  unfold textWithOr textWith
  change StateT.run _ f = StateT.run _ f
  rw [run_get_bind, run_get_bind]
  cases f.text id with
  | done | inProgress => rfl
  | pending =>
    cases deeper with
    | none => rfl
    | some s =>
      dsimp only
      rw [hm id s _ List.mem_cons_self]

theorem activeWithOr_eq (deeper : Option Solver) :
    activeWithOr fallback deeper m = activeWith deeper m := by
  funext id f
  unfold activeWithOr activeWith
  change StateT.run _ f = StateT.run _ f
  rw [run_get_bind, run_get_bind]
  cases f.activity id with
  | known | evaluating => rfl
  | unknown =>
    cases deeper with
    | none => rfl
    | some s =>
      dsimp only
      rw [(hm id).allHoldOr_eq s (List.Subset.refl _)]

theorem ofRoomOr_eq (room : Nat) : ofRoomOr fallback m room = ofRoom m room := by
  induction room with
  | zero => rw [ofRoomOr, ofRoom, textWithOr_eq hm, activeWithOr_eq hm]
  | succ room ih => rw [ofRoomOr, ofRoom, ih, textWithOr_eq hm, activeWithOr_eq hm]

end Solver

namespace Model

variable {m : Model}

theorem resolveOr_eq {fallback : Fallback}
    (hm : ∀ id : Nat, Solver.Agrees fallback m (m.values[id]?.getD default)) :
    m.resolveOr fallback = m.resolve := by
  rw [resolveOr, resolve, Solver.ofRoomOr_eq hm]

/-- Resolution leaves a text that it cannot read as it is. -/
theorem resolveOr_pure (m : Model) : m.resolveOr (fun _ t => return t) = m.resolve := by
  refine resolveOr_eq fun id s t _ => ?_
  unfold Solver.expandOr Solver.expand
  cases pieces? t <;> rfl

/-- In a model that was reached in whatever way, the texts of all values and the quoted texts
anywhere in their conditions can be read: behind every mark that opens a reference there is what
closes it. So resolution never falls back on anything for them. -/
theorem Reachable.references_closed (hm : m.Reachable) :
    (∀ v ∈ m.values, ∀ t ∈ v.texts,
      (∀ l r, t.toList = l ++ (referenceMark ++ r) → ')' ∈ r) ∧ ∃ ps, pieces? t = .ok ps) ∧
    ∀ fallback : Fallback, m.resolveOr fallback = m.resolve := by
  have hterminated := hm.terminated
  refine ⟨fun v hv t ht => ?_, fun fallback => ?_⟩
  · have hclosed := hterminated v hv t ht
    refine ⟨fun l r hlr => ?_, ?_⟩
    · by_contra hr
      rw [isUnterminated_iff.2 ⟨l, r, hlr, hr⟩] at hclosed
      cases hclosed
    · unfold isUnterminated at hclosed
      cases hpieces : pieces? t with
      | ok ps => exact ⟨ps, rfl⟩
      | error offset => simp [hpieces] at hclosed
  · exact resolveOr_eq fun id => Solver.agrees_of_terminated (hterminated.getElem id)

/-- A text that is not terminated is left as it is, or it is not, if one could get into a model. -/
example : let m := empty.addValue ⟨"", "X", "$(", [], none⟩
    m.resolve.valuesOf "" "X" = ["$("] ∧
      (m.resolveOr fun _ _ => return "?").valuesOf "" "X" = ["?"] := by
  decide +kernel

/-- References in the texts of values, and in the condition of a conditional with an `else`. -/
def referringSource : String :=
  "Root = out\n[Build]\nif (Fast and not (\"$(Root)\" == \"$(Base)/x\")) \x7b\n" ++
    "Dir = $(Root)/a\n\x7d else \x7b\nDir = $(Root)/b\n\x7d\n"

/-- It is laid over itself, with a setting that has a reference. -/
theorem referringSource_references_closed : ∃ m n, ofSource ⟨"app"⟩ referringSource = .ok m ∧
    m.set "" "Base" "$(Root)" = .ok n ∧
    (∃ v ∈ (n.merge m).values, v.texts = ["$(Root)/b", "$(Root)", "$(Base)/x"] ∧
      ∀ t ∈ v.texts, ∃ ps, pieces? t = .ok ps) ∧
    (n.merge m).resolve.resolveOr (fun _ _ => return "?") = (n.merge m).resolve.resolve := by
  have htexts : ((ofSource ⟨"app"⟩ referringSource >>= fun m =>
      (m.set "" "Base" "$(Root)").map fun n =>
        (n.merge m).values[2]?.map Value.texts).toOption) =
          some (some ["$(Root)/b", "$(Root)", "$(Base)/x"]) := by
    cbv
  obtain ⟨m, hm, hn⟩ := bind_eq_ok_iff.1 (toOption_eq_some_iff.1 htexts)
  cases hset : m.set "" "Base" "$(Root)" with
  | error e => simp [hset, Except.map] at hn
  | ok n =>
    simp only [hset, Except.map, Except.ok.injEq, Option.map_eq_some_iff] at hn
    obtain ⟨v, hv, hvtexts⟩ := hn
    have hread := Reachable.ofSource hm
    have hreached : (n.merge m).resolve.Reachable := ((hread.set hset).merge hread).resolve
    obtain ⟨hclosed, hfallback⟩ := hreached.references_closed
    have hvalue : v ∈ (n.merge m).values := Array.mem_of_getElem? hv
    exact ⟨m, n, hm, hset, ⟨v, hvalue, hvtexts, fun t ht => (hclosed v hvalue t ht).2⟩,
      hfallback _⟩

end Model

end IncrementalBuild.Settings
