import Vendoring.Path
/-!
# Programs that are run

The command lines of the programs a run starts: the installer, the interpreter that loads a
project's transform hook, and the interpreter of its script.
-/
namespace Vendoring

namespace Invocation

/-- What the installer is asked, after the interpreter's name. -/
def install (requirements target : Path) : List String :=
  ["-m", "pip", "install", "--upgrade", "-r", requirements.display, "--target", target.display]

/-- The installer's command line as one text. -/
def installText (python : String) (requirements target : Path) : String :=
  " ".intercalate (python :: install requirements target)

/-- The program that loads the hooks, hands them the code on its input, and answers with what they
make of it; a project without a transform hook gets the code back. -/
def transformProgram : String :=
  String.join (([
    "import importlib.util, pathlib, sys",
    "spec = importlib.util.spec_from_file_location('vendor_hooks', sys.argv[1])",
    "hooks = importlib.util.module_from_spec(spec)",
    "spec.loader.exec_module(hooks)",
    "code = sys.stdin.read()",
    "transform = getattr(hooks, 'transform_code', None)",
    "sys.stdout.write(transform(pathlib.Path(sys.argv[2]), code) if transform else code)"]).map
      (· ++ "\n"))

/-- What the interpreter is asked for one file, after its name. -/
def transform (hooks file : Path) : List String :=
  ["-c", transformProgram, hooks.display, file.display]

/-- The command line that runs a script; the script's name says which interpreter it is for. -/
def script (file : Path) : List String :=
  if ".ps1".toList.isSuffixOf file.display.toList then
    ["powershell", "-ExecutionPolicy", "Bypass", "-File", file.display]
  else ["bash", file.display]

end Invocation

end Vendoring
