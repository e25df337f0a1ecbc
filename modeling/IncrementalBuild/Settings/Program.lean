import IncrementalBuild.Settings.Condition

/-!
The shape of a description file: a block of assignments and conditional blocks, then sections that
each start with a group marker. `Program.statements` flattens it, so that every assignment carries
the group it belongs to and the conditions of the branches it stands in, outermost first.
-/

namespace IncrementalBuild.Settings

/-- `key = value`, as it is written. -/
structure Assignment where
  key : String
  place : Place
  value : String
  deriving Repr, Inhabited

mutual

/-- A run of assignments and conditional blocks. -/
inductive Block where
  | done
  | assign (a : Assignment) (rest : Block)
  | choose (c : Condition) (body : Block) (otherwise : Otherwise) (rest : Block)

/-- What follows the first branch of a conditional. -/
inductive Otherwise where
  | nothing
  | block (body : Block)
  /-- `else if`. -/
  | choose (c : Condition) (body : Block) (otherwise : Otherwise)

end

instance : Inhabited Block := ⟨.done⟩

instance : Inhabited Otherwise := ⟨.nothing⟩

/-- A group marker and the block after it. -/
structure Section where
  name : String
  place : Place
  body : Block
  deriving Inhabited

/-- A whole description file. -/
structure Program where
  /-- What stands before the first group marker, in the global group. -/
  leading : Block
  sections : List Section
  deriving Inhabited

/-- One statement, with the conditional blocks flattened away. -/
inductive Statement where
  /-- A group marker. -/
  | group (name : String) (place : Place)
  /-- An assignment to a key of `group`, whose value counts while all conditions hold. -/
  | assignment (group key value : String) (conditions : List Condition) (place : Place)
  deriving Repr, Inhabited

mutual

/-- The statements of a block that stands in `group` under the conditions `opened`. -/
def Block.statements (group : String) (opened : List Condition) : Block → List Statement
  | .done => []
  | .assign a rest =>
    .assignment group a.key a.value opened a.place :: rest.statements group opened
  | .choose c body otherwise rest =>
    body.statements group (opened ++ [c]) ++
      (otherwise.statements group (opened ++ [.not c]) ++ rest.statements group opened)

/-- The statements of the branches that count where the first condition does not hold. -/
def Otherwise.statements (group : String) (opened : List Condition) : Otherwise → List Statement
  | .nothing => []
  | .block body => body.statements group opened
  | .choose c body otherwise =>
    body.statements group (opened ++ [c]) ++ otherwise.statements group (opened ++ [.not c])

end

/-- The statements of a section: its marker and its block. -/
def Section.statements (s : Section) : List Statement :=
  .group s.name s.place :: s.body.statements s.name []

/-- The statements of a program, in the order they are written. -/
def Program.statements (p : Program) : List Statement :=
  p.leading.statements "" [] ++ p.sections.flatMap Section.statements

end IncrementalBuild.Settings
