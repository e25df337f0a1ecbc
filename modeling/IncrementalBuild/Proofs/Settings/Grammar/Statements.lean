import IncrementalBuild.Proofs.Settings.Grammar.Program

/-!
What the statements of a program say about the tokens it is spelled by: one statement for each group
marker and each assignment, in their order, with the group and the conditions they stand in.
-/

namespace IncrementalBuild.Settings

/-- What a statement declares, apart from the group and the conditions it stands in. -/
inductive Declaration where
  | group (name : String) (place : Place)
  | assignment (a : Assignment)

def Statement.declaration : Statement → Declaration
  | .group name place => .group name place
  | .assignment _ key value _ place => .assignment ⟨key, place, value⟩

/-- The group markers among some tokens, and the assignments: a word, an equals sign, a value. -/
def declarations : List Placed → List Declaration
  | [] => []
  | ⟨.group name, place⟩ :: ts => .group name place :: declarations ts
  | ⟨.word key, place⟩ :: ⟨.assign, _⟩ :: ⟨.value s, _⟩ :: ts =>
    .assignment ⟨key, place, s⟩ :: declarations ts
  | ⟨.word key, place⟩ :: ⟨.assign, _⟩ :: ⟨.quoted s, _⟩ :: ts =>
    .assignment ⟨key, place, s⟩ :: declarations ts
  | _ :: ts => declarations ts

section Declarations

variable {ts rest : List Placed}

theorem declarations_assign {a : Assignment} {value : Placed} (place : Place)
    (hvalue : value.token = .value a.value ∨ value.token = .quoted a.value) :
    declarations (⟨.word a.key, a.place⟩ :: ⟨.assign, place⟩ :: value :: ts) =
      .assignment a :: declarations ts := by
  obtain ⟨token, valuePlace⟩ := value
  rcases hvalue with rfl | rfl <;> simp [declarations]

theorem declarations_word {name : String} (place : Place) (hrest : Avoids (· = .assign) ts) :
    declarations (⟨.word name, place⟩ :: ts) = declarations ts := by
  rw [declarations]
  · simp
  · rintro key keyPlace assignPlace s valuePlace us - rfl
    exact hrest _ rfl rfl
  · rintro key keyPlace assignPlace s valuePlace us - rfl
    exact hrest _ rfl rfl

/-- A token that is neither a group marker nor a word declares nothing. -/
theorem declarations_skip {t : Placed} (hgroup : ∀ name, t.token ≠ .group name)
    (hword : ∀ key, t.token ≠ .word key) : declarations (t :: ts) = declarations ts := by
  rw [declarations]
  · rintro name place rfl
    exact hgroup name rfl
  · rintro key place assignPlace s valuePlace us rfl
    exact absurd rfl (hword key)
  · rintro key place assignPlace s valuePlace us rfl
    exact absurd rfl (hword key)

theorem avoids_cons {bad : Token → Prop} {t : Placed} (h : ¬ bad t.token) :
    Avoids bad (t :: ts) := by
  rintro u hu
  cases hu
  exact h

/-- A condition declares nothing. -/
theorem Condition.Spelled.declarations {tier : Tier} {c : Condition}
    (h : c.Spelled tier ts rest) (hrest : Avoids (· = .assign) rest) :
    declarations ts = declarations rest := by
  induction h with
  | word name place => exact declarations_word place hrest
  | quoted => exact declarations_skip (by simp) (by simp)
  | not _ _ ih => rw [declarations_skip (by simp) (by simp), ih hrest]
  | paren _ _ _ ih =>
    rw [declarations_skip (by simp) (by simp), ih (avoids_cons (by simp)),
      declarations_skip (by simp) (by simp)]
  | ofUnary _ ih | ofComparison _ ih => exact ih hrest
  | compare _ _ hr ihl ihr | and _ _ hr ihl ihr | or _ _ hr ihl ihr =>
    rw [ihl (avoids_cons (by simp)), declarations_skip (by simp) (by simp), ihr hrest]

mutual

theorem Block.Spelled.declarations (group : String) (opened : List Condition) {b : Block}
    {ts rest : List Placed} : b.Spelled ts rest →
      declarations ts = (b.statements group opened).map Statement.declaration ++ declarations rest
  | .done _ => by simp [Block.statements]
  | .assign place hvalue _ hblock => by
    rw [declarations_assign place hvalue, hblock.declarations group opened]
    simp [Block.statements, Statement.declaration]
  | .choose place hchoice hblock => by
    rw [declarations_skip (by simp) (by simp), hchoice.declarations group opened,
      hblock.declarations group opened]
    simp [Block.statements]

theorem ChoiceSpelled.declarations (group : String) (opened : List Condition) {c : Condition}
    {body : Block} {otherwise : Otherwise} {ts rest : List Placed} :
    ChoiceSpelled c body otherwise ts rest →
      declarations ts = (body.statements group (opened ++ [c])).map Statement.declaration ++
        ((otherwise.statements group (opened ++ [.not c])).map Statement.declaration ++
          declarations rest)
  | .mk _ _ _ _ hc hbody hotherwise => by
    rw [declarations_skip (by simp) (by simp), hc.declarations (avoids_cons (by simp)),
      declarations_skip (by simp) (by simp), declarations_skip (by simp) (by simp),
      hbody.declarations group (opened ++ [c]), declarations_skip (by simp) (by simp),
      hotherwise.declarations group (opened ++ [.not c])]

theorem Otherwise.Spelled.declarations (group : String) (opened : List Condition)
    {otherwise : Otherwise} {ts rest : List Placed} : otherwise.Spelled ts rest →
      declarations ts =
        (otherwise.statements group opened).map Statement.declaration ++ declarations rest
  | .nothing _ => by simp [Otherwise.statements]
  | .block _ _ _ hbody => by
    rw [declarations_skip (by simp) (by simp), declarations_skip (by simp) (by simp),
      hbody.declarations group opened, declarations_skip (by simp) (by simp), Otherwise.statements]
  | .choose _ _ hchoice => by
    rw [declarations_skip (by simp) (by simp), declarations_skip (by simp) (by simp),
      hchoice.declarations group opened]
    simp [Otherwise.statements]

end

theorem SectionsSpelled.declarations {sections : List Section} (h : SectionsSpelled sections ts) :
    declarations ts = (sections.flatMap Section.statements).map Statement.declaration := by
  induction h with
  | nil => simp [Settings.declarations]
  | @cons s sections ts us hbody _ ih =>
    rw [Settings.declarations, hbody.declarations s.name [], ih]
    simp [Section.statements, Statement.declaration]

theorem Program.Spelled.declarations {p : Program} (h : p.Spelled ts) :
    p.statements.map Statement.declaration = declarations ts := by
  obtain ⟨us, hleading, hsections⟩ := h
  rw [hleading.declarations "" [], hsections.declarations]
  simp [Program.statements]

end Declarations

/-- Every assignment carries the group that was declared last before it, `group` at the start. -/
def Grouped (group : String) : List Statement → Prop
  | [] => True
  | .group name _ :: more => Grouped name more
  | .assignment own _ _ _ _ :: more => own = group ∧ Grouped group more

mutual

theorem grouped_block_append (group : String) (opened : List Condition) (more : List Statement) :
    (b : Block) → (Grouped group (b.statements group opened ++ more) ↔ Grouped group more)
  | .done => by simp [Block.statements]
  | .assign a rest => by
    simpa [Block.statements, Grouped] using grouped_block_append group opened more rest
  | .choose c body otherwise rest => by
    simp only [Block.statements, List.append_assoc]
    rw [grouped_block_append, grouped_otherwise_append, grouped_block_append]

theorem grouped_otherwise_append (group : String) (opened : List Condition)
    (more : List Statement) : (otherwise : Otherwise) →
      (Grouped group (otherwise.statements group opened ++ more) ↔ Grouped group more)
  | .nothing => by simp [Otherwise.statements]
  | .block body => by
    simpa [Otherwise.statements] using grouped_block_append group opened more body
  | .choose c body otherwise => by
    simp only [Otherwise.statements, List.append_assoc]
    rw [grouped_block_append, grouped_otherwise_append]

end

theorem grouped_sections (group : String) (sections : List Section) :
    Grouped group (sections.flatMap Section.statements) := by
  induction sections generalizing group with
  | nil => trivial
  | cons s sections ih =>
    simp only [List.flatMap_cons, Section.statements, List.cons_append, Grouped]
    exact (grouped_block_append s.name [] _ s.body).2 (ih s.name)

theorem Program.grouped (p : Program) : Grouped "" p.statements :=
  (grouped_block_append "" [] _ p.leading).2 (grouped_sections "" p.sections)

mutual

/-- An assignment of a block stands inside the branches of these conditions, outermost first. -/
inductive Block.Holds : Block → List Condition → Assignment → Prop where
  | here (a : Assignment) (rest : Block) : Block.Holds (.assign a rest) [] a
  | afterAssign {a : Assignment} {rest : Block} {path : List Condition} (before : Assignment) :
      Block.Holds rest path a → Block.Holds (.assign before rest) path a
  | inBody {a : Assignment} {c : Condition} {body : Block} {path : List Condition}
      (otherwise : Otherwise) (rest : Block) :
      Block.Holds body path a → Block.Holds (.choose c body otherwise rest) (c :: path) a
  | inOtherwise {a : Assignment} {c : Condition} {otherwise : Otherwise} {path : List Condition}
      (body rest : Block) : Otherwise.Holds otherwise path a →
      Block.Holds (.choose c body otherwise rest) (.not c :: path) a
  | afterChoice {a : Assignment} {rest : Block} {path : List Condition} (c : Condition)
      (body : Block) (otherwise : Otherwise) :
      Block.Holds rest path a → Block.Holds (.choose c body otherwise rest) path a

inductive Otherwise.Holds : Otherwise → List Condition → Assignment → Prop where
  | block {a : Assignment} {body : Block} {path : List Condition} :
      Block.Holds body path a → Otherwise.Holds (.block body) path a
  | inBody {a : Assignment} {c : Condition} {body : Block} {path : List Condition}
      (otherwise : Otherwise) :
      Block.Holds body path a → Otherwise.Holds (.choose c body otherwise) (c :: path) a
  | inOtherwise {a : Assignment} {c : Condition} {otherwise : Otherwise} {path : List Condition}
      (body : Block) : Otherwise.Holds otherwise path a →
      Otherwise.Holds (.choose c body otherwise) (.not c :: path) a

end

/-- The same for a program: the assignment stands in this group. -/
def Program.Holds (p : Program) (group : String) (path : List Condition) (a : Assignment) : Prop :=
  (group = "" ∧ p.leading.Holds path a) ∨
    ∃ s ∈ p.sections, group = s.name ∧ s.body.Holds path a

section Holds

variable {a : Assignment} {group own : String} {conditions : List Condition}

mutual

theorem mem_blockStatements_iff (opened : List Condition) : (b : Block) →
    (Statement.assignment own a.key a.value conditions a.place ∈ b.statements group opened ↔
      own = group ∧ ∃ path, conditions = opened ++ path ∧ b.Holds path a)
  | .done => by
    simp only [Block.statements, List.not_mem_nil, false_iff]
    rintro ⟨-, path, -, hholds⟩
    cases hholds
  | .assign before rest => by
    rw [Block.statements, List.mem_cons, mem_blockStatements_iff opened rest]
    constructor
    · rintro (heq | ⟨rfl, path, rfl, hholds⟩)
      · have hhere : own = group ∧ a = before ∧ conditions = opened := by
          cases a
          cases before
          simp_all
        obtain ⟨rfl, rfl, rfl⟩ := hhere
        exact ⟨rfl, [], by simp, .here _ _⟩
      · exact ⟨rfl, path, rfl, .afterAssign before hholds⟩
    · rintro ⟨rfl, path, rfl, hholds⟩
      cases hholds with
      | here => exact .inl (by simp)
      | afterAssign _ hholds => exact .inr ⟨rfl, path, rfl, hholds⟩
  | .choose c body otherwise rest => by
    rw [Block.statements, List.mem_append, List.mem_append,
      mem_blockStatements_iff (opened ++ [c]) body,
      mem_otherwiseStatements_iff (opened ++ [Condition.not c]) otherwise,
      mem_blockStatements_iff opened rest]
    constructor
    · rintro (⟨rfl, path, rfl, hholds⟩ | ⟨rfl, path, rfl, hholds⟩ | ⟨rfl, path, rfl, hholds⟩)
      · exact ⟨rfl, c :: path, by simp, .inBody otherwise rest hholds⟩
      · exact ⟨rfl, .not c :: path, by simp, .inOtherwise body rest hholds⟩
      · exact ⟨rfl, path, rfl, .afterChoice c body otherwise hholds⟩
    · rintro ⟨rfl, path, rfl, hholds⟩
      cases hholds with
      | @inBody _ _ _ path _ _ hholds => exact .inl ⟨rfl, path, by simp, hholds⟩
      | @inOtherwise _ _ _ path _ _ hholds => exact .inr (.inl ⟨rfl, path, by simp, hholds⟩)
      | afterChoice _ _ _ hholds => exact .inr (.inr ⟨rfl, path, rfl, hholds⟩)

theorem mem_otherwiseStatements_iff (opened : List Condition) : (otherwise : Otherwise) →
    (Statement.assignment own a.key a.value conditions a.place ∈
        otherwise.statements group opened ↔
      own = group ∧ ∃ path, conditions = opened ++ path ∧ otherwise.Holds path a)
  | .nothing => by
    simp only [Otherwise.statements, List.not_mem_nil, false_iff]
    rintro ⟨-, path, -, hholds⟩
    cases hholds
  | .block body => by
    rw [Otherwise.statements, mem_blockStatements_iff opened body]
    constructor
    · rintro ⟨rfl, path, rfl, hholds⟩
      exact ⟨rfl, path, rfl, .block hholds⟩
    · rintro ⟨rfl, path, rfl, hholds⟩
      cases hholds with
      | block hholds => exact ⟨rfl, path, rfl, hholds⟩
  | .choose c body otherwise => by
    rw [Otherwise.statements, List.mem_append, mem_blockStatements_iff (opened ++ [c]) body,
      mem_otherwiseStatements_iff (opened ++ [Condition.not c]) otherwise]
    constructor
    · rintro (⟨rfl, path, rfl, hholds⟩ | ⟨rfl, path, rfl, hholds⟩)
      · exact ⟨rfl, c :: path, by simp, .inBody otherwise hholds⟩
      · exact ⟨rfl, .not c :: path, by simp, .inOtherwise body hholds⟩
    · rintro ⟨rfl, path, rfl, hholds⟩
      cases hholds with
      | @inBody _ _ _ path _ hholds => exact .inl ⟨rfl, path, by simp, hholds⟩
      | @inOtherwise _ _ _ path _ hholds => exact .inr ⟨rfl, path, by simp, hholds⟩

end

theorem Program.mem_statements_iff (p : Program) :
    .assignment own a.key a.value conditions a.place ∈ p.statements ↔ p.Holds own conditions a := by
  rw [Program.statements, List.mem_append, mem_blockStatements_iff [] p.leading]
  refine or_congr (by simp) ?_
  rw [List.mem_flatMap]
  refine exists_congr fun s => and_congr_right fun _ => ?_
  rw [Section.statements, List.mem_cons, mem_blockStatements_iff [] s.body]
  simp

end Holds

/-- The reader of programs accepts exactly the spellings of programs. It finds one statement for
each group marker and each assignment of the tokens, in their order; an assignment carries the group
declared last before it and the conditions of the branches it stands in, outermost first, where the
branch of an `else` has the negation of the condition it goes with. -/
theorem readProgram_statements (file : Path) :
    (∀ (p : Program) (ts : List Placed), p.Spelled ts →
      (readProgram file ts).map Program.statements = .ok p.statements ∧
      p.statements.map Statement.declaration = declarations ts ∧
      Grouped "" p.statements ∧
      ∀ group conditions (a : Assignment),
        .assignment group a.key a.value conditions a.place ∈ p.statements ↔
          p.Holds group conditions a) ∧
    ∀ (ts : List Placed) (out : List Statement),
      (readProgram file ts).map Program.statements = .ok out →
        ∃ p : Program, p.Spelled ts ∧ p.statements = out := by
  constructor
  · intro p ts hspelled
    have hread : readProgram file ts = .ok p := readProgram_eq_ok_iff.2 hspelled
    refine ⟨?_, hspelled.declarations, p.grouped, fun _ _ _ => p.mem_statements_iff⟩
    rw [hread]
    rfl
  · intro ts out hout
    cases hread : readProgram file ts with
    | error e =>
      rw [hread] at hout
      cases hout
    | ok p =>
      rw [hread] at hout
      cases hout
      exact ⟨p, readProgram_eq_ok_iff.1 hread, rfl⟩

/-- A conditional with two `else` branches. -/
def twoBranches : Program where
  leading := .done
  sections := [⟨"Project", default,
    .choose (.literal (.reference "A")) (.assign ⟨"X", default, "1"⟩ .done)
      (.choose (.literal (.reference "B")) (.assign ⟨"X", default, "2"⟩ .done)
        (.block (.assign ⟨"X", default, "3"⟩ .done))) .done⟩]

def twoBranchesTokens : List Placed :=
  [.group "Project", .ifWord, .openParen, .word "A", .closeParen, .openBrace, .word "X", .assign,
    .quoted "1", .closeBrace, .elseWord, .ifWord, .openParen, .word "B", .closeParen, .openBrace,
    .word "X", .assign, .quoted "2", .closeBrace, .elseWord, .openBrace, .word "X", .assign,
    .quoted "3", .closeBrace].map (⟨·, default⟩)

theorem twoBranches_spelled : twoBranches.Spelled twoBranchesTokens := by
  have hassign (value : String) (rest : List Placed) (h : isUnterminated value = false) :
      Block.Spelled (.assign ⟨"X", default, value⟩ .done)
        (⟨.word "X", default⟩ :: ⟨.assign, default⟩ :: ⟨.quoted value, default⟩ :: rest) rest :=
    .assign (a := ⟨"X", default, value⟩) default (.inr rfl) h (.done rest)
  have hcondition (name : String) (rest : List Placed) :
      Condition.Spelled .chain (.literal (.reference name)) (⟨.word name, default⟩ :: rest) rest :=
    .ofComparison (.ofUnary (.word name default rest))
  have hlast := Otherwise.Spelled.block default default default
    (hassign "3" [⟨.closeBrace, default⟩] (by decide +kernel))
  have hsecond := ChoiceSpelled.mk default default default default (hcondition "B" _)
    (hassign "2" _ (by decide +kernel)) hlast
  have hfirst := ChoiceSpelled.mk default default default default (hcondition "A" _)
    (hassign "1" _ (by decide +kernel)) (.choose default default hsecond)
  exact ⟨twoBranchesTokens, .done _, .cons (.choose default hfirst (.done [])) .nil⟩

theorem twoBranches_statements :
    (readProgram ⟨"build.conf"⟩ twoBranchesTokens).map Program.statements = .ok
      [.group "Project" default,
        .assignment "Project" "X" "1" [.literal (.reference "A")] default,
        .assignment "Project" "X" "2"
          [.not (.literal (.reference "A")), .literal (.reference "B")] default,
        .assignment "Project" "X" "3"
          [.not (.literal (.reference "A")), .not (.literal (.reference "B"))] default] :=
  ((readProgram_statements ⟨"build.conf"⟩).1 twoBranches twoBranchesTokens twoBranches_spelled).1

end IncrementalBuild.Settings
