import Logline.Levels
import Logline.Text.Quoted

/-!
Modules: names with levels of their own. The register holds one module for each name, in the order
of the names. Registering a name again gives the module that is there and changes nothing.
-/

namespace Logline

structure Module where
  stamp : Nat
  name : String
  levels : Levels

def Module.shown (m : Module) : String :=
  "Module \x7b name: " ++ Text.quoted m.name ++ ", levels: " ++ Text.quoted m.levels.text ++ " \x7d"

structure Modules where
  list : List Module

namespace Modules

def empty : Modules := ⟨[]⟩

def find? (ms : Modules) (name : String) : Option Module := ms.list.find? (·.name = name)

def place (m : Module) : List Module → List Module
  | [] => [m]
  | other :: rest =>
    if m.name = other.name then other :: rest
    else if m.name < other.name then m :: other :: rest
    else other :: place m rest

/-- Adds a module unless its name is taken, in one step. -/
def insertNew (ms : Modules) (m : Module) : Modules := ⟨place m ms.list⟩

/-- Replaces the levels of the module of that name, if there is one. -/
def setLevels (ms : Modules) (name : String) (levels : Levels) : Modules :=
  ⟨ms.list.map fun m => if m.name = name then { m with levels } else m⟩

/-- The environment variable with a module's first levels. -/
def levelsVariable (name : String) : String := "LAGER_" ++ name ++ "_LEVELS"

end Modules

end Logline
