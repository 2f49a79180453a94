import Stencil.Command.Program

/-!
# The executable

Runs the program on the variables and the files of the machine.
-/

namespace Stencil.Command

/-- What kept a file from being read. -/
def readFault : IO.Error → ReadFault
  | .noFileOrDirectory .. => .missing
  | .inappropriateType .. => .isDirectory
  | .permissionDenied .. => .denied
  | .userError _ => .notText
  | _ => .notDirectory

/-- The content of a file. -/
def contentOf (path : String) : IO (Except ReadFault String) := do
  match ← (IO.FS.readFile path).toBaseIO with
  | .ok content => return .ok content
  | .error e => return .error (readFault e)

/-- The values of variables. -/
def environmentOf (names : List String) : IO Definition.Environment := do
  let values ← names.mapM fun n => return (n, ← IO.getEnv n)
  return fun name => (values.lookup name).join

/-- The names in a directory that a component of a pattern may stand for. -/
def namesFor (path : String) (component : Path.GlobComponent) : IO (List String) := do
  let directory ← IO.FS.realPath path
  let names := (← directory.readDir).toList.map fun e => e.fileName
  match component with
  | .literal name => return names.filter (· == name)
  | _ => return names

/-- The part of a directory that components of a pattern lead through; what cannot be looked at is
left out. -/
partial def snapshot (path name : String) (components : List Path.GlobComponent) : IO FileTree := do
  let place ← IO.FS.realPath path
  if !(← place.isDir) then return .file name ""
  match components with
  | [] => return .directory name []
  | c :: rest =>
    let deeper := if c = .anyDepth then components else rest
    let mut children := []
    for child in ← (try namesFor path c catch _ => pure []) do
      let tree ← try some <$> snapshot (path ++ "/" ++ child) child deeper catch _ => pure none
      children := (tree.map fun t => FileTree.placeEntry t children).getD children
    return .directory name children

/-- Runs a program on the machine. -/
def Program.interpret : Program → IO Transcript
  | .finish t => return t
  | .askVariables names next => do (next (← environmentOf names)).interpret
  | .readFile path next => do (next (← contentOf path)).interpret
  | .lookThrough base components next => do (next (← snapshot base "" components)).interpret

end Stencil.Command

def main (arguments : List String) : IO UInt32 := do
  let t ← (Stencil.Command.program arguments).interpret
  t.output.forM IO.println
  t.errors.forM IO.eprintln
  return t.code.toUInt32
