import ScriptAnalyzer.Project.Path

/-!
The two ways in which a file is compiled.
-/

namespace ScriptAnalyzer

inductive SourceKind where
  /-- Directives are allowed, and declarations belong to no module. -/
  | script
  | module
deriving DecidableEq, Repr, Inhabited

namespace SourceKind

def name : SourceKind → String
  | script => "script"
  | module => "module"

/-- Files with the extension `gl`, in any case, are modules; all others are scripts. -/
def ofPath (path : Path) : SourceKind :=
  match path.extension? with
  | some extension => if extension.map Char.toLower = ['g', 'l'] then module else script
  | none => script

end SourceKind

end ScriptAnalyzer
