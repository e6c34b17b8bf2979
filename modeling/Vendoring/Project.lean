import Vendoring.Config
import Vendoring.Disk
/-!
# The project around a directory

A project's root is the nearest directory, upwards, that holds a configuration.  Where there is
none, the directory itself is the root and everything is as the standard configuration says.
-/
namespace Vendoring

structure Project where
  config : Config
  root : Path
deriving DecidableEq, Repr

namespace Project

/-- The names a configuration may have; the first that exists is taken. -/
def configNames : List Path := [Path.ofString "vendorize.json", Path.ofString ".vendorize.json"]

/-- The nearest configuration, from a directory upwards. -/
def findConfig (d : Disk) (start : Path) : Option Path :=
  (start.ancestors.flatMap (fun p => configNames.map p.join)).find? d.exists

def loadConfig (d : Disk) (file : Path) : Except Error Config :=
  match d.readText file with
  | .error e => .error (.io e)
  | .ok text => Config.parse text

def saveConfig (c : Config) (file : Path) (d : Disk) : Except Error Disk :=
  match c.render with
  | .error e => .error e
  | .ok text =>
    match d.write file (utf8 text) with
    | .error e => .error (.io e)
    | .ok d => .ok d

def discover (d : Disk) (start : Path) : Except Error Project :=
  match findConfig d start with
  | none => .ok ⟨.standard, start⟩
  | some file => (loadConfig d file).map (fun c => ⟨c, file.parent.getD start⟩)

end Project

end Vendoring
