import ScriptAnalyzer.Library.Catalog

/-!
The entities that a file can name: those of the libraries it refers to and those it declares. A later
declaration hides earlier ones of the same path, and all of them hide the libraries.
-/

namespace ScriptAnalyzer

/-- The types with a name of their own, and the entities that hold their members. -/
def primitiveTypes : List (String × String) := [
  ("string", "System.String"),
  ("int", "System.Int32"),
  ("float", "System.Double"),
  ("bool", "System.Boolean"),
  ("char", "System.Char"),
  ("obj", "System.Object")]

/-- The path of the entity that holds the members of a type; only named types have members. -/
def Ty.entityPath? : Ty → Option String
  | .named name _ => some ((primitiveTypes.lookup name).getD name)
  | _ => none

/-- The type of the values of the entity at a path. -/
def Ty.ofEntityPath (path : String) : Ty :=
  .atom (((primitiveTypes.find? (·.2 == path)).map (·.1)).getD path)

structure Entities where
  libraries : List Entity
  /-- The entities of the file, the latest first. -/
  declared : List Entity := []

namespace Entities

def all (es : Entities) : List Entity := es.declared ++ es.libraries

def find? (es : Entities) (path : String) : Option Entity := es.all.find? (·.path == path)

def contains (es : Entities) (path : String) : Bool := (es.find? path).isSome

def declare (es : Entities) (e : Entity) : Entities := { es with declared := e :: es.declared }

/-- Changes the first entity of the list that has this path. -/
def modifyFirst (path : String) (f : Entity → Entity) : List Entity → List Entity
  | [] => []
  | e :: es => if e.path = path then f e :: es else e :: modifyFirst path f es

/-- Changes the latest entity that the file declared at this path. -/
def modifyDeclared (es : Entities) (path : String) (f : Entity → Entity) : Entities :=
  { es with declared := modifyFirst path f es.declared }

/-- The entities of different paths, the first of each path. -/
def distinct : List Entity → List Entity
  | [] => []
  | e :: es => e :: (distinct es).filter (·.path != e.path)

/-- The entities directly inside the one at `path`; the empty path stands for the outermost level. -/
def children (es : Entities) (path : String) : List Entity :=
  distinct (es.all.filter (·.parentPath == path))

/-- The paths of the entities whose contents need no qualification. -/
def autoOpened (es : Entities) : List String := (es.libraries.filter (·.autoOpen)).map (·.path)

/-- The members of values of a type, each with the path of its owner. Those that every value has come
last, unless the type has its own of the same name. -/
def membersOfType (es : Entities) (t : Ty) : List (String × Member) :=
  match t.entityPath? with
  | none => []
  | some path =>
    let own := ((es.find? path).elim [] (·.members)).filter (!·.isStatic)
    let common := Catalog.object.members.filter fun m => !m.isStatic && !own.any (·.name == m.name)
    own.map (path, ·) ++ common.map (Catalog.object.path, ·)

theorem mem_of_find? {es : Entities} {path : String} {e : Entity} (h : es.find? path = some e) :
    e ∈ es.all ∧ e.path = path :=
  ⟨List.mem_of_find?_eq_some h, by simpa using List.find?_some h⟩

/-- A member of a type is one of the entity at the path of its owner, or one that every value has. -/
theorem mem_membersOfType {es : Entities} {t : Ty} {owner : String} {m : Member}
    (h : (owner, m) ∈ es.membersOfType t) :
    (∃ e, es.find? owner = some e ∧ m ∈ e.members) ∨
      owner = Catalog.object.path ∧ m ∈ Catalog.object.members := by
  unfold membersOfType at h
  split at h
  case h_1 => cases h
  case h_2 path _ =>
    simp only [List.mem_append, List.mem_map, Prod.mk.injEq, List.mem_filter] at h
    obtain ⟨m', ⟨hown, -⟩, rfl, rfl⟩ | ⟨m', ⟨hcommon, -⟩, rfl, rfl⟩ := h
    · cases hfound : es.find? path with
      | none => rw [hfound] at hown; cases hown
      | some e =>
        rw [hfound] at hown
        exact .inl ⟨e, rfl, hown⟩
    · exact .inr ⟨rfl, hcommon⟩

def memberOfType? (es : Entities) (t : Ty) (name : String) : Option (String × Member) :=
  (es.membersOfType t).find? (·.2.name == name)

/-- The latest record of the file with this field. -/
def recordWithField? (es : Entities) (field : String) : Option Entity :=
  es.declared.find? fun e => e.isRecord && (e.member? field).isSome

end Entities

end ScriptAnalyzer
