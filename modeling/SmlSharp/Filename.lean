/-
File names of the host, as `OS.Path` decomposes them, and the
system-independent paths of `_require` and `_use`.
-/
import Mathlib.Data.String.Basic

namespace SmlSharp

/-- A file name split at its slashes; no component is empty. -/
structure Filename where
  isAbs : Bool
  arcs : List String
deriving DecidableEq, Repr

namespace Filename

def empty : Filename := ⟨false, []⟩

def dot : Filename := ⟨false, ["."]⟩

def dotdot : Filename := ⟨false, [".."]⟩

/-- A single component. -/
def fromString (x : String) : Filename := ⟨false, [x]⟩

/-- `dirname(1)`. -/
def dirname : Filename → Filename
  | ⟨false, []⟩ => dot
  | ⟨false, [_]⟩ => dot
  | ⟨isAbs, arcs⟩ => ⟨isAbs, arcs.dropLast⟩

/-- `OS.Path.concat` with the empty name as its identity; the right operand is
a relative name. -/
def concatPath (filename1 filename2 : Filename) : Filename :=
  if filename1 = empty then filename2
  else if filename2 = empty then filename1
  else ⟨filename1.isAbs, filename1.arcs ++ filename2.arcs⟩

/-- `OS.Path.splitBaseExt` on the last component. -/
def splitBaseExt (file : String) : String × Option String :=
  let letters := file.toList.reverse
  let ext := letters.takeWhile (· ≠ '.')
  let base := (letters.dropWhile (· ≠ '.')).drop 1
  if ext = [] ∨ base = [] then (file, none)
  else (String.ofList base.reverse, some (String.ofList ext.reverse))

def suffix (filename : Filename) : Option String :=
  filename.arcs.getLast?.bind fun file => (splitBaseExt file).2

/-- `addSuffix (removeSuffix filename, suffix)`. -/
def replaceSuffix (suffix : String) (filename : Filename) : Filename :=
  match filename.arcs.getLast? with
  | none => filename
  | some file =>
    { filename with
      arcs := filename.arcs.dropLast ++ [(splitBaseExt file).1 ++ "." ++ suffix] }

end Filename

namespace RequirePath

/-- The components of a path, split at the slashes. -/
abbrev Path := List String

inductive Reason where
  | emptyPath
  | absolutePath
  | directoryPath
deriving DecidableEq, Repr

def beginsWithDot : Path → Bool
  | "." :: _ => true
  | ".." :: _ => true
  | _ => false

def normalize : Path → Except Reason (List Filename)
  | [] => .error .directoryPath
  | "" :: t => normalize t
  | "." :: t => normalize t
  | ".." :: t => do return Filename.dotdot :: (← normalize t)
  | [x] => .ok [Filename.fromString x]
  | x :: t => do return Filename.fromString x :: (← normalize t)

def toFilename (path : Path) : Except Reason Filename :=
  match path with
  | [] => .error .emptyPath
  | [""] => .error .emptyPath
  | "" :: _ :: _ => .error .absolutePath
  | components => do
      match ← normalize components with
      | [] => .error .emptyPath
      | h :: t => return t.foldl (fun z x => Filename.concatPath z x) h

end RequirePath

end SmlSharp
