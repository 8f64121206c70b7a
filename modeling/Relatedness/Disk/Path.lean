/-!
Paths as they are written: the pieces of a text between its slashes. A path is shown as it was
given, so no piece is dropped from it; where names are looked for, an empty piece and a dot
count for nothing.
-/
namespace Relatedness

structure Path where
  /-- Whether the text begins with a slash, which is then no part of the pieces. -/
  absolute : Bool
  pieces : List String
deriving DecidableEq

namespace Path

def ofText (text : String) : Path :=
  match text.splitOn "/" with
  | "" :: piece :: rest => ⟨true, piece :: rest⟩
  | pieces => ⟨false, pieces⟩

def text (p : Path) : String := (if p.absolute then "/" else "") ++ "/".intercalate p.pieces

/-- The pieces that lead somewhere, if only to the same directory. -/
def steps (p : Path) : List String := p.pieces.filter (· ≠ "")

def endsInSlash (p : Path) : Bool := p.pieces.getLast? = some ""

def isIdle (piece : String) : Bool := piece = "" || piece = "."

/-- The pieces up to the last that is a name or two dots. -/
def dropIdleEnd (pieces : List String) : List String := (pieces.reverse.dropWhile isIdle).reverse

theorem length_dropIdleEnd_le (pieces : List String) :
    (dropIdleEnd pieces).length ≤ pieces.length := by
  simpa [dropIdleEnd] using (List.dropWhile_suffix isIdle (l := pieces.reverse)).length_le

/-- The path that `q` has when it starts at `p`. An absolute path starts nowhere else. -/
def join (p q : Path) : Path :=
  if q.absolute then q
  else { p with pieces := (if p.endsInSlash then p.pieces.dropLast else p.pieces) ++ q.pieces }

def child (p : Path) (name : String) : Path := p.join ⟨false, [name]⟩

/-- The path up to the last name or two dots. -/
def parent (p : Path) : Path :=
  { p with pieces := dropIdleEnd (dropIdleEnd p.pieces).dropLast }

theorem length_parent_lt {p : Path} (h : p.pieces ≠ []) :
    p.parent.pieces.length < p.pieces.length := by
  have hlast := length_dropIdleEnd_le (dropIdleEnd p.pieces).dropLast
  have hfirst := length_dropIdleEnd_le p.pieces
  have hpos := List.length_pos_iff.2 h
  simp only [List.length_dropLast] at hlast
  simp only [parent]
  omega

/-- A path, its parent, the parent of that, and so on. -/
def ancestors (p : Path) : List Path :=
  if p.pieces = [] then [] else p :: p.parent.ancestors
termination_by p.pieces.length
decreasing_by exact length_parent_lt ‹_›

/-- The name that a path ends in. Two dots are no name. -/
def fileName? (p : Path) : Option String :=
  match (dropIdleEnd p.pieces).getLast? with
  | some ".." => none
  | last => last

/-- Replaces the name that a path ends in, or adds one. -/
def withFileName (p : Path) (name : String) : Path :=
  (if p.fileName?.isSome then p.parent else p).child name

/-- The path beside `p` whose name has the suffix behind a dot. -/
def sibling (p : Path) (suffix : String) : Path :=
  p.withFileName (p.fileName?.getD "" ++ "." ++ suffix)

/-- A file name without its extension. A dot at the front does not begin one. -/
def stem (name : List Char) : List Char :=
  match name.reverse.dropWhile (· ≠ '.') with
  | _ :: c :: before => (c :: before).reverse
  | _ => name

/-- Replaces the extension of the file name, or adds one. The old extension goes first, and a
path that has no file name without it takes no new one. -/
def withExtension (p : Path) (extension : String) : Path :=
  match p.fileName? with
  | none => p
  | some name =>
    let body := dropIdleEnd p.pieces
    let stem := String.ofList (stem name.toList)
    let renamed := if stem = "." && body = p.pieces then ".." else stem ++ "." ++ extension
    { p with pieces := body.dropLast ++ [renamed] }

end Path
end Relatedness
