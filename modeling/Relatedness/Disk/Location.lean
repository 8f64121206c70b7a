import Relatedness.Disk.IoError
import Relatedness.Disk.Path
import Relatedness.Disk.Tree

/-!
Where a path leads in a tree. Each step before the last has to lead to a directory: a dot stays
in a directory, two dots lead to the one above it, and a name has to stand there. So a path
fails as the operating system has it, with `notFound` where a name is missing and
`notADirectory` where it leads through a file, and two dots lead back only out of a directory
that exists.
-/
namespace Relatedness

/-- A place whose directory exists, and how a path asks for it. -/
structure Location where
  place : Place
  /-- Whether the path ends in a name. If it ends in dots, a directory stands at the place. -/
  named : Bool
  /-- A slash at the end asks for a directory. -/
  slash : Bool

namespace Location

/-- The place that dots lead to from a directory. The root is above itself. -/
def dots? (here : Place) (step : String) : Option Place :=
  if step = "." then some here else if step = ".." then some here.dropLast else none

end Location

namespace Tree

open Location

/-- The directory that steps lead to from a directory. -/
def walk (root : Tree) (here : Place) : List String → Except IoError Place
  | [] => .ok here
  | step :: rest =>
    match dots? here step with
    | some place => walk root place rest
    | none =>
      match root.find? (here ++ [step]) with
      | some (.directory _) => walk root (here ++ [step]) rest
      | some (.file _) => .error .notADirectory
      | none => .error .notFound

def locate (root : Tree) (p : Path) : Except IoError Location := do
  match p.steps.getLast? with
  | none => return { place := [], named := false, slash := p.endsInSlash }
  | some step =>
    let above ← root.walk [] p.steps.dropLast
    match dots? above step with
    | some place => return { place, named := false, slash := p.endsInSlash }
    | none => return { place := above ++ [step], named := true, slash := p.endsInSlash }

end Tree
end Relatedness
