import Lineage.Data.Checked

/-!
# Configuration

The two names that a graph treats specially.
-/

namespace Lineage

/-- The absolute root never receives a default parent; the universal base is the default parent
of every type that has none and is no role. -/
structure Config where
  root : Text := "Mu"
  base : Text := "Any"
deriving DecidableEq, Repr, Inhabited

namespace Config

/-- The configuration with the given names, neither of which may be empty. -/
def ofNames (root base : Data) : Checked Config :=
  ((Checked.under "root_name" root.checkName).also (Checked.under "base_name" base.checkName)).map
    fun (root, base) => { root, base }

/-- The configuration with the given entries; what is not given keeps its default. -/
def ofEntries (es : List (Data × Data)) : Checked Config :=
  let default : Config := {}
  ofNames ((Data.entry? "root_name" es).getD (.text default.root))
    ((Data.entry? "base_name" es).getD (.text default.base))

/-- A configuration cannot be changed once it exists. -/
def assignRoot (_ : Config) (_ : Data) : Checked Config :=
  Checked.under "root_name" (.fail .frozen)

end Config

end Lineage
