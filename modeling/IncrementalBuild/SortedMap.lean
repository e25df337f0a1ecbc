/-!
Maps kept as lists of entries in the order of their keys. Keys that compare as equal are one key,
and an entry keeps the key it was made with.
-/

namespace IncrementalBuild

/-- A map whose entries are listed in the order of their keys. -/
structure SortedMap (κ α : Type) where
  entries : List (κ × α)
  deriving DecidableEq, Repr, Inhabited

namespace SortedMap

variable {κ α : Type}

/-- The map without entries. -/
def empty : SortedMap κ α := ⟨[]⟩

/-- Changes the entry of `key` in a sorted list of entries, or makes one at its place. -/
def alterIn (order : κ → κ → Ordering) (key : κ) (f : Option α → α) :
    List (κ × α) → List (κ × α)
  | [] => [(key, f none)]
  | (k, a) :: rest =>
    match order key k with
    | .lt => (key, f none) :: (k, a) :: rest
    | .eq => (k, f (some a)) :: rest
    | .gt => (k, a) :: alterIn order key f rest

/-- Changes the entry of `key`, or makes one. -/
def alter (order : κ → κ → Ordering) (m : SortedMap κ α) (key : κ) (f : Option α → α) :
    SortedMap κ α :=
  ⟨alterIn order key f m.entries⟩

/-- Sets the entry of `key`. -/
def insert (order : κ → κ → Ordering) (m : SortedMap κ α) (key : κ) (a : α) : SortedMap κ α :=
  m.alter order key fun _ => a

/-- The entry of `key`. -/
def get? (order : κ → κ → Ordering) (m : SortedMap κ α) (key : κ) : Option α :=
  (m.entries.find? fun e => order key e.1 == .eq).map Prod.snd

/-- The keys, in order. -/
def keys (m : SortedMap κ α) : List κ :=
  m.entries.map Prod.fst

/-- The entries whose key satisfies `p`. -/
def keep (m : SortedMap κ α) (p : κ → Bool) : SortedMap κ α :=
  ⟨m.entries.filter fun e => p e.1⟩

end SortedMap

end IncrementalBuild
