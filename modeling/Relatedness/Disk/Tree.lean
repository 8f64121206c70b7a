/-!
The tree of directories. Files stand in it as numbers, so that a file keeps its identity when
it is moved and when its last name is removed. A place in a tree is given by the names that
lead to it from the root.
-/
namespace Relatedness

inductive Tree where
  | file (id : Nat)
  | directory (entries : List (String × Tree))

abbrev Place := List String

namespace Tree

def isFile : Tree → Bool
  | file _ => true
  | directory _ => false

def isDirectory (t : Tree) : Bool := !t.isFile

/-- Sets the entry of a name, in its old place or at the end. -/
def setEntry (name : String) (t : Tree) : List (String × Tree) → List (String × Tree)
  | [] => [(name, t)]
  | (other, u) :: rest =>
    if other = name then (name, t) :: rest else (other, u) :: setEntry name t rest

def dropEntry (name : String) (entries : List (String × Tree)) : List (String × Tree) :=
  entries.filter (·.1 ≠ name)

/-- What stands at a place. -/
def find? : Place → Tree → Option Tree
  | [], t => some t
  | _ :: _, file _ => none
  | name :: rest, directory entries => (entries.lookup name).bind (find? rest)

/-- Puts a tree at a place whose directory exists. -/
def put : Place → Tree → Tree → Tree
  | [], _, new => new
  | _ :: _, file id, _ => file id
  | [name], directory entries, new => directory (setEntry name new entries)
  | name :: next :: rest, directory entries, new =>
    match entries.lookup name with
    | some t => directory (setEntry name (put (next :: rest) t new) entries)
    | none => directory entries

/-- Removes what stands at a place. -/
def erase : Place → Tree → Tree
  | [], t => t
  | _ :: _, file id => file id
  | [name], directory entries => directory (dropEntry name entries)
  | name :: next :: rest, directory entries =>
    match entries.lookup name with
    | some t => directory (setEntry name (erase (next :: rest) t) entries)
    | none => directory entries

mutual

/-- Every place below a tree with what stands there. -/
def places (above : Place) : Tree → List (Place × Tree)
  | file _ => []
  | directory entries => entryPlaces above entries

def entryPlaces (above : Place) : List (String × Tree) → List (Place × Tree)
  | [] => []
  | (name, t) :: rest =>
    (above ++ [name], t) :: (places (above ++ [name]) t ++ entryPlaces above rest)

end

end Tree
end Relatedness
