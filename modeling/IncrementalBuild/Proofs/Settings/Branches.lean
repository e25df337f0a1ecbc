import IncrementalBuild.Proofs.Settings.Resolution
import Mathlib

/-!
The branches of a conditional exclude each other. Where every branch assigns a key once, the values
that the whole conditional declares for it have conditions of which at most one list holds, and with
a final `else` exactly one, as long as the conditions around the conditional hold. A resolution
without alarms finds just these values active.
-/

namespace IncrementalBuild.Settings

mutual

/-- Some assignment of a block is to `key`, inside its conditionals or outside. -/
def Block.assigns (key : String) : Block → Bool
  | .done => false
  | .assign a rest => a.key = key || rest.assigns key
  | .choose _ body otherwise rest =>
    body.assigns key || (otherwise.assigns key || rest.assigns key)

def Otherwise.assigns (key : String) : Otherwise → Bool
  | .nothing => false
  | .block body => body.assigns key
  | .choose _ body otherwise => body.assigns key || otherwise.assigns key

end

/-- One assignment of a block is to `key`, and it stands outside the conditionals of the block. -/
def Block.assignsOnce (key : String) : Block → Bool
  | .done => false
  | .assign a rest => if a.key = key then !rest.assigns key else rest.assignsOnce key
  | .choose _ body otherwise rest =>
    !body.assigns key && (!otherwise.assigns key && rest.assignsOnce key)

namespace Otherwise

/-- Every branch assigns `key` once. -/
def assignsOnce (key : String) : Otherwise → Bool
  | .nothing => true
  | .block body => body.assignsOnce key
  | .choose _ body otherwise => body.assignsOnce key && otherwise.assignsOnce key

/-- The last branch is an `else` without a condition. -/
def isTotal : Otherwise → Bool
  | .nothing => false
  | .block _ => true
  | .choose _ _ otherwise => otherwise.isTotal

/-- Some branch is taken. -/
def isTaken (holds : Condition → Bool) : Otherwise → Bool
  | .nothing => false
  | .block _ => true
  | .choose c _ otherwise => holds c || otherwise.isTaken holds

theorem isTaken_of_isTotal {holds : Condition → Bool} :
    {otherwise : Otherwise} → otherwise.isTotal → otherwise.isTaken holds
  | .block _, _ => rfl
  | .choose c _ _, h => by
    rw [isTaken, isTaken_of_isTotal (by simpa [isTotal] using h), Bool.or_true]

end Otherwise

/-- The value a statement declares. -/
def Statement.value? : Statement → Option Value
  | .group _ _ => none
  | .assignment own key value conditions place => some ⟨own, key, value, conditions, some place⟩

/-- The values that statements declare, in their order. -/
def declared (statements : List Statement) : List Value :=
  statements.filterMap Statement.value?

section Declared

variable {group key value : String} {conditions opened : List Condition} {place : Place}
  {statements more : List Statement}

@[simp] theorem declared_nil : declared [] = [] := rfl

@[simp] theorem declared_group : declared (.group group place :: more) = declared more := rfl

@[simp] theorem declared_assignment :
    declared (.assignment group key value conditions place :: more) =
      ⟨group, key, value, conditions, some place⟩ :: declared more := rfl

@[simp] theorem declared_append :
    declared (statements ++ more) = declared statements ++ declared more :=
  List.filterMap_append

/-- A model has the values of its statements one after another. -/
theorem Model.values_foldl_addStatement (statements : List Statement) (m : Model) :
    (statements.foldl addStatement m).values.toList = m.values.toList ++ declared statements := by
  induction statements generalizing m with
  | nil => simp
  | cons s statements ih =>
    rw [List.foldl_cons, ih]
    cases s <;> simp [addStatement, addGroup, addValue]

end Declared

mutual

/-- How many assignments a block has. -/
def Block.size : Block → Nat
  | .done => 0
  | .assign _ rest => rest.size + 1
  | .choose _ body otherwise rest => body.size + (otherwise.size + rest.size)

def Otherwise.size : Otherwise → Nat
  | .nothing => 0
  | .block body => body.size
  | .choose _ body otherwise => body.size + otherwise.size

end

mutual

theorem Block.length_declared (group : String) (opened : List Condition) : (b : Block) →
    (declared (b.statements group opened)).length = b.size
  | .done => rfl
  | .assign a rest => by simp [Block.statements, Block.size, rest.length_declared group opened]
  | .choose c body otherwise rest => by
    simp [Block.statements, Block.size, body.length_declared group, rest.length_declared group,
      otherwise.length_declared group]

theorem Otherwise.length_declared (group : String) (opened : List Condition) :
    (otherwise : Otherwise) →
      (declared (otherwise.statements group opened)).length = otherwise.size
  | .nothing => rfl
  | .block body => body.length_declared group opened
  | .choose c body otherwise => by
    simp [Otherwise.statements, Otherwise.size, body.length_declared group,
      otherwise.length_declared group]

end

mutual

/-- A conditional with these branches stands in a block, inside the branches of the conditions
`path`, outermost first, and behind `before` assignments of the block. -/
inductive Block.HasChoice : Block → (path : List Condition) → (before : Nat) → Otherwise → Prop
    where
  | here (c : Condition) (body : Block) (otherwise : Otherwise) (rest : Block) :
      Block.HasChoice (.choose c body otherwise rest) [] 0 (.choose c body otherwise)
  | afterAssign {rest : Block} {path : List Condition} {before : Nat} {branches : Otherwise}
      (a : Assignment) : Block.HasChoice rest path before branches →
      Block.HasChoice (.assign a rest) path (before + 1) branches
  | inBody {body : Block} {path : List Condition} {before : Nat} {branches : Otherwise}
      (c : Condition) (otherwise : Otherwise) (rest : Block) :
      Block.HasChoice body path before branches →
      Block.HasChoice (.choose c body otherwise rest) (c :: path) before branches
  | inOtherwise {otherwise : Otherwise} {path : List Condition} {before : Nat}
      {branches : Otherwise} (c : Condition) (body rest : Block) :
      Otherwise.HasChoice otherwise path before branches →
      Block.HasChoice (.choose c body otherwise rest) (.not c :: path) (body.size + before) branches
  | afterChoice {rest : Block} {path : List Condition} {before : Nat} {branches : Otherwise}
      (c : Condition) (body : Block) (otherwise : Otherwise) :
      Block.HasChoice rest path before branches →
      Block.HasChoice (.choose c body otherwise rest) path
        (body.size + (otherwise.size + before)) branches

inductive Otherwise.HasChoice :
    Otherwise → (path : List Condition) → (before : Nat) → Otherwise → Prop where
  | block {body : Block} {path : List Condition} {before : Nat} {branches : Otherwise} :
      Block.HasChoice body path before branches →
      Otherwise.HasChoice (.block body) path before branches
  | inBody {body : Block} {path : List Condition} {before : Nat} {branches : Otherwise}
      (c : Condition) (otherwise : Otherwise) : Block.HasChoice body path before branches →
      Otherwise.HasChoice (.choose c body otherwise) (c :: path) before branches
  | inOtherwise {otherwise : Otherwise} {path : List Condition} {before : Nat}
      {branches : Otherwise} (c : Condition) (body : Block) :
      Otherwise.HasChoice otherwise path before branches →
      Otherwise.HasChoice (.choose c body otherwise) (.not c :: path) (body.size + before) branches

end

/-- The same for a program: the conditional stands in this group. -/
def Program.HasChoice (p : Program) (group : String) (path : List Condition) (before : Nat)
    (branches : Otherwise) : Prop :=
  (group = "" ∧ p.leading.HasChoice path before branches) ∨
    ∃ earlier s later inside, p.sections = earlier ++ s :: later ∧ group = s.name ∧
      s.body.HasChoice path inside branches ∧
      before = p.leading.size + ((earlier.map fun s => s.body.size).sum + inside)

/-- These values stand in a list behind `before` others. -/
def StandsAt (values : List Value) (before : Nat) (all : List Value) : Prop :=
  ∃ front back, all = front ++ (values ++ back) ∧ front.length = before

section StandsAt

variable {values all more front : List Value} {before : Nat}

theorem StandsAt.append (h : StandsAt values before all) (more : List Value) :
    StandsAt values before (all ++ more) := by
  obtain ⟨front, back, rfl, hfront⟩ := h
  exact ⟨front, back ++ more, by simp, hfront⟩

theorem StandsAt.behind (h : StandsAt values before all) (front : List Value) :
    StandsAt values (front.length + before) (front ++ all) := by
  obtain ⟨inner, back, rfl, hinner⟩ := h
  exact ⟨front ++ inner, back, by simp, by simp [hinner]⟩

theorem StandsAt.getElem? (h : StandsAt values before all) :
    (List.range' before values.length).map (all[·]?) = values.map some := by
  obtain ⟨front, back, rfl, rfl⟩ := h
  refine List.ext_getElem (by simp) fun i hi _ => ?_
  have hlt : i < values.length := by simpa using hi
  simp [List.getElem?_append_right, List.getElem?_append_left, hlt]

end StandsAt

section HasChoice

variable {path : List Condition} {before : Nat} {branches : Otherwise}

mutual

/-- A conditional declares its values in one piece, under the conditions it stands in. -/
theorem Block.HasChoice.standsAt (group : String) (opened : List Condition) {b : Block}
    {path : List Condition} {before : Nat} {branches : Otherwise} :
    b.HasChoice path before branches →
      StandsAt (declared (branches.statements group (opened ++ path))) before
        (declared (b.statements group opened))
  | .here c body otherwise rest =>
    ⟨[], declared (rest.statements group opened), by
      simp [Block.statements, Otherwise.statements], rfl⟩
  | .afterAssign a h => by
    simpa [Block.statements, Nat.add_comm] using (h.standsAt group opened).behind [_]
  | .inBody c otherwise rest h => by
    simpa [Block.statements] using (h.standsAt group (opened ++ [c])).append _
  | .inOtherwise c body rest h => by
    have hinner := ((h.standsAt group (opened ++ [Condition.not c])).append
      (declared (rest.statements group opened))).behind
        (declared (body.statements group (opened ++ [c])))
    simpa [Block.statements, Block.length_declared] using hinner
  | .afterChoice c body otherwise h => by
    have hinner := ((h.standsAt group opened).behind
      (declared (otherwise.statements group (opened ++ [Condition.not c])))).behind
        (declared (body.statements group (opened ++ [c])))
    simpa [Block.statements, Block.length_declared, Otherwise.length_declared] using hinner

theorem Otherwise.HasChoice.standsAt (group : String) (opened : List Condition)
    {otherwise : Otherwise} {path : List Condition} {before : Nat} {branches : Otherwise} :
    otherwise.HasChoice path before branches →
      StandsAt (declared (branches.statements group (opened ++ path))) before
        (declared (otherwise.statements group opened))
  | .block h => h.standsAt group opened
  | .inBody c otherwise h => by
    simpa [Otherwise.statements] using (h.standsAt group (opened ++ [c])).append _
  | .inOtherwise c body h => by
    have hinner := (h.standsAt group (opened ++ [Condition.not c])).behind
      (declared (body.statements group (opened ++ [c])))
    simpa [Otherwise.statements, Block.length_declared] using hinner

end

theorem length_declared_sections (sections : List Section) :
    (declared (sections.flatMap Section.statements)).length =
      (sections.map fun s => s.body.size).sum := by
  induction sections with
  | nil => rfl
  | cons s sections ih => simp [Section.statements, Block.length_declared, ih]

theorem Program.HasChoice.standsAt {p : Program} {group : String}
    (h : p.HasChoice group path before branches) :
    StandsAt (declared (branches.statements group path)) before (declared p.statements) := by
  rw [Program.statements, declared_append]
  obtain ⟨rfl, h⟩ | ⟨earlier, s, later, inside, hsections, rfl, h, rfl⟩ := h
  · exact (h.standsAt "" []).append _
  · have hinner := (((h.standsAt s.name []).append
      (declared (later.flatMap Section.statements))).behind
        (declared (earlier.flatMap Section.statements))).behind
          (declared (p.leading.statements "" []))
    simpa [hsections, Section.statements, Block.length_declared, length_declared_sections]
      using hinner

end HasChoice

section Counting

variable {key : String} {holds : String → Condition → Bool}

/-- A value is one of `key`, and its conditions hold in its group. -/
def Value.counts (holds : String → Condition → Bool) (key : String) (v : Value) : Bool :=
  v.key = key && v.conditions.all (holds v.group)

mutual

theorem Block.countP_of_not_assigns (group : String) (opened : List Condition) : (b : Block) →
    b.assigns key = false →
      (declared (b.statements group opened)).countP (Value.counts holds key) = 0
  | .done, _ => rfl
  | .assign a rest, h => by
    obtain ⟨hkey, hrest⟩ := Bool.or_eq_false_iff.1 h
    have hcounts : ¬ Value.counts holds key ⟨group, a.key, a.value, opened, some a.place⟩ := by
      simp_all [Value.counts]
    rw [Block.statements, declared_assignment, List.countP_cons_of_neg hcounts,
      rest.countP_of_not_assigns group opened hrest]
  | .choose c body otherwise rest, h => by
    obtain ⟨hbody, h⟩ := Bool.or_eq_false_iff.1 h
    obtain ⟨hotherwise, hrest⟩ := Bool.or_eq_false_iff.1 h
    simp only [Block.statements, declared_append, List.countP_append,
      body.countP_of_not_assigns group _ hbody, rest.countP_of_not_assigns group _ hrest,
      otherwise.countP_of_not_assigns group _ hotherwise]

theorem Otherwise.countP_of_not_assigns (group : String) (opened : List Condition) :
    (otherwise : Otherwise) → otherwise.assigns key = false →
      (declared (otherwise.statements group opened)).countP (Value.counts holds key) = 0
  | .nothing, _ => rfl
  | .block body, h => body.countP_of_not_assigns group opened h
  | .choose c body otherwise, h => by
    obtain ⟨hbody, hotherwise⟩ := Bool.or_eq_false_iff.1 h
    simp only [Otherwise.statements, declared_append, List.countP_append,
      body.countP_of_not_assigns group _ hbody, otherwise.countP_of_not_assigns group _ hotherwise]

end

/-- A block that assigns a key once has one value of it that counts, if the conditions around it
hold. -/
theorem Block.countP_of_assignsOnce (group : String) (opened : List Condition) : (b : Block) →
    b.assignsOnce key →
      (declared (b.statements group opened)).countP (Value.counts holds key) =
        (opened.all (holds group)).toNat
  | .assign a rest, h => by
    rw [Block.statements, declared_assignment, List.countP_cons]
    rw [Block.assignsOnce] at h
    split at h
    next hkey =>
      rw [rest.countP_of_not_assigns group opened (by simpa using h)]
      cases hall : opened.all (holds group) <;> simp [Value.counts, hkey, hall]
    next hkey =>
      rw [rest.countP_of_assignsOnce group opened h]
      simp [Value.counts, hkey]
  | .choose c body otherwise rest, h => by
    simp only [Block.assignsOnce, Bool.and_eq_true, Bool.not_eq_true'] at h
    obtain ⟨hbody, hotherwise, hrest⟩ := h
    simp only [Block.statements, declared_append, List.countP_append,
      body.countP_of_not_assigns group _ hbody, rest.countP_of_assignsOnce group _ hrest,
      otherwise.countP_of_not_assigns group _ hotherwise, Nat.zero_add]

/-- The branch that is taken has the one value that counts. -/
theorem Otherwise.countP_of_assignsOnce (hnot : ∀ group c, holds group (.not c) = !holds group c)
    (group : String) (opened : List Condition) : (otherwise : Otherwise) →
    otherwise.assignsOnce key →
      (declared (otherwise.statements group opened)).countP (Value.counts holds key) =
        (opened.all (holds group) && otherwise.isTaken (holds group)).toNat
  | .nothing, _ => by simp [Otherwise.statements, Otherwise.isTaken]
  | .block body, h => by
    rw [Otherwise.statements, body.countP_of_assignsOnce group opened h, Otherwise.isTaken,
      Bool.and_true]
  | .choose c body otherwise, h => by
    obtain ⟨hbody, hotherwise⟩ := Bool.and_eq_true_iff.1 h
    rw [Otherwise.statements, declared_append, List.countP_append,
      body.countP_of_assignsOnce group _ hbody,
      otherwise.countP_of_assignsOnce hnot group _ hotherwise, Otherwise.isTaken]
    simp only [List.all_append, List.all_cons, List.all_nil, Bool.and_true, hnot]
    cases opened.all (holds group) <;> cases holds group c <;> simp

end Counting

namespace Model

open Findings

variable {m : Model} {f : Findings}

/-- An `else` holds where its condition does not. -/
theorem holds_not (group : String) (c : Condition) :
    m.holds f group (.not c) = !m.holds f group c := rfl

/-- Those of some values that are of `key` and were found to count. -/
def activeAmong (m : Model) (key : String) (ids : List Nat) : List Nat :=
  ids.filter fun id => m.values[id]?.map Value.key = some key ∧ m.findings.activity id = .known true

theorem values_resolve : m.resolve.values = m.values := rfl

/-- Without alarms, a value is found to count exactly if its conditions hold. -/
theorem Reachable.activity_resolve (hm : m.Reachable) (hquiet : m.Quiet m.resolve.findings)
    {id : Nat} {v : Value} (hv : m.values[id]? = some v) :
    m.resolve.findings.activity id =
      .known (v.conditions.all (m.holds m.resolve.findings v.group)) := by
  obtain ⟨hsound, hsettled⟩ := hm.indexed.sound_resolve hquiet
  obtain ⟨a, ha⟩ := (hsettled id (Array.getElem?_eq_some_iff.1 hv).1).2
  exact ha.trans (by rw [hsound.activity_eq id v a hv ha])

/-- Of values that stand together, as many are found to count as have conditions that hold. -/
theorem Reachable.length_activeAmong (hm : m.Reachable) (hquiet : m.Quiet m.resolve.findings)
    {values : List Value} {before : Nat} (hvalues : StandsAt values before m.values.toList)
    (key : String) :
    (m.resolve.activeAmong key (List.range' before values.length)).length =
      values.countP (Value.counts (m.holds m.resolve.findings) key) := by
  have hactive (id : Nat) : decide (m.resolve.values[id]?.map Value.key = some key ∧
      m.resolve.findings.activity id = .known true) =
        (m.values.toList[id]?.any (Value.counts (m.holds m.resolve.findings) key)) := by
    rw [Array.getElem?_toList]
    cases hv : m.values[id]? with
    | none => simp [values_resolve, hv]
    | some v =>
      rw [values_resolve, hv, hm.activity_resolve hquiet hv]
      simp [Value.counts, -List.all_eq_true]
  calc (m.resolve.activeAmong key (List.range' before values.length)).length
      = (List.range' before values.length).countP fun id =>
          m.values.toList[id]?.any (Value.counts (m.holds m.resolve.findings) key) := by
        simp only [activeAmong, hactive, List.countP_eq_length_filter]
    _ = (values.map some).countP (·.any (Value.counts (m.holds m.resolve.findings) key)) := by
        rw [← hvalues.getElem?, List.countP_map]
        rfl
    _ = values.countP (Value.counts (m.holds m.resolve.findings) key) := by
        rw [List.countP_map]
        rfl

/-- A description that can be read has a model. Wherever a conditional stands in it, the values that
its branches declare are the next values of the model after those declared before the conditional.
If every branch assigns a key once and resolving raises no alarm, then at most one of its values of
that key is found to count, and none unless all conditions around the conditional hold; if they do
and there is a final `else`, exactly one is. -/
theorem ofSource_exclusive {file : Path} {source : String} {ts : List Placed} {p : Program}
    (htokens : tokens? file source = .ok ts) (hread : readProgram file ts = .ok p) :
    ∃ m, ofSource file source = .ok m ∧
      ∀ group path before branches, p.HasChoice group path before branches →
        (m.values.toList.drop before).take branches.size =
          declared (branches.statements group path) ∧
        (m.Quiet m.resolve.findings → ∀ key, branches.assignsOnce key →
          let enclosed := path.all (m.holds m.resolve.findings group)
          let active := m.resolve.activeAmong key (List.range' before branches.size)
          active.length ≤ 1 ∧ (enclosed = false → active = []) ∧
            (enclosed → branches.isTotal → active.length = 1)) := by
  have hstatements : statements? file source = .ok p.statements :=
    bind_eq_ok_iff.2 ⟨ts, htokens, bind_eq_ok_iff.2 ⟨p, hread, rfl⟩⟩
  have hsource : ofSource file source =
      .ok (p.statements.foldl addStatement { empty with path := file }) :=
    bind_eq_ok_iff.2 ⟨_, hstatements, rfl⟩
  refine ⟨_, hsource, fun group path before branches hchoice => ?_⟩
  have hm := Reachable.ofSource hsource
  have hvalues := values_foldl_addStatement p.statements { empty with path := file }
  generalize p.statements.foldl addStatement { empty with path := file } = m at hm hvalues ⊢
  have hstands : StandsAt (declared (branches.statements group path)) before m.values.toList := by
    rw [hvalues]
    simpa [empty] using hchoice.standsAt
  have hsize := branches.length_declared group path
  refine ⟨?_, fun hquiet key honce => ?_⟩
  · obtain ⟨front, back, hall, rfl⟩ := hstands
    rw [hall, List.drop_left, ← hsize, List.take_left]
  have hcount := hm.length_activeAmong hquiet hstands key
  rw [hsize, branches.countP_of_assignsOnce holds_not group path honce] at hcount
  refine ⟨?_, fun henclosed => ?_, fun henclosed htotal => ?_⟩
  · rw [hcount]
    exact Bool.toNat_le _
  · rw [henclosed, Bool.false_and] at hcount
    exact List.eq_nil_of_length_eq_zero hcount
  · rw [hcount, henclosed, Otherwise.isTaken_of_isTotal htotal]
    rfl

/-- A conditional with three branches inside the `else` of another. -/
def nestedSource : String :=
  "Mode = release\n[Build]\nif (Mode == \"debug\") \x7b\nOpt = 0\n\x7d else \x7b\n" ++
    "if (Fast) \x7b\nOpt = 3\n\x7d else if (Mode == release) \x7b\nOpt = 2\n\x7d " ++
    "else \x7b\nOpt = 1\n\x7d\n\x7d\n"

/-- `Opt` set in some line of it. -/
def optimized (value : String) (line : Nat) : Block :=
  .assign ⟨"Opt", ⟨⟨"app"⟩, ⟨line, 1⟩⟩, value⟩ .done

def slowBranches : Otherwise :=
  .choose (.compare .equal (.literal (.reference "Mode")) (.literal (.reference "release")))
    (optimized "2" 9) (.block (optimized "1" 11))

def debugging : Condition :=
  .compare .equal (.literal (.reference "Mode")) (.literal (.quoted "debug"))

def nestedProgram : Program where
  leading := .assign ⟨"Mode", ⟨⟨"app"⟩, ⟨1, 1⟩⟩, "release"⟩ .done
  sections := [⟨"Build", ⟨⟨"app"⟩, ⟨2, 1⟩⟩, .choose debugging (optimized "0" 4)
    (.block (.choose (.literal (.reference "Fast")) (optimized "3" 7) slowBranches .done)) .done⟩]

theorem nestedProgram_hasChoice :
    nestedProgram.HasChoice "Build" [.not debugging] 2
      (.choose (.literal (.reference "Fast")) (optimized "3" 7) slowBranches) :=
  .inr ⟨[], _, [], 1, rfl, rfl, .inOtherwise _ _ _ (.block (.here _ _ _ _)), rfl⟩

def nestedModel : Model :=
  nestedProgram.statements.foldl addStatement { empty with path := ⟨"app"⟩ }

theorem nestedModel_exclusive : ofSource ⟨"app"⟩ nestedSource = .ok nestedModel ∧
    (nestedModel.resolve.activeAmong "Opt" [2, 3, 4]).length = 1 := by
  have hprogram : (tokens? ⟨"app"⟩ nestedSource >>= readProgram ⟨"app"⟩) = .ok nestedProgram := by
    cbv
  obtain ⟨ts, htokens, hread⟩ := bind_eq_ok_iff.1 hprogram
  obtain ⟨m, hm, hchoice⟩ := ofSource_exclusive htokens hread
  have hstatements : statements? ⟨"app"⟩ nestedSource = .ok nestedProgram.statements :=
    bind_eq_ok_iff.2 ⟨ts, htokens, bind_eq_ok_iff.2 ⟨nestedProgram, hread, rfl⟩⟩
  have hnested : ofSource ⟨"app"⟩ nestedSource = .ok nestedModel :=
    bind_eq_ok_iff.2 ⟨_, hstatements, rfl⟩
  obtain rfl : nestedModel = m := Except.ok.inj (hnested.symm.trans hm)
  have hnone : nestedModel.resolve.findings.diagnostics.length = 0 := by decide +kernel
  have hquiet : nestedModel.Quiet nestedModel.resolve.findings := by
    intro v _ d hd
    simp [List.length_eq_zero_iff.1 hnone] at hd
  have hactive := (hchoice "Build" _ 2 _ nestedProgram_hasChoice).2 hquiet "Opt" (by decide +kernel)
  exact ⟨hnested, hactive.2.2 (by decide +kernel) rfl⟩

end Model

end IncrementalBuild.Settings
