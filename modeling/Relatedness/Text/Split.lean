/-!
Cutting text at a character.
-/
namespace Relatedness.Text

/-- What stands before and behind the first occurrence of a character. -/
def splitFirst (c : Char) : List Char → Option (List Char × List Char)
  | [] => none
  | d :: rest =>
    if d = c then some ([], rest)
    else (splitFirst c rest).map fun (before, behind) => (d :: before, behind)

/-- The pieces between the occurrences of a character, empty ones included. -/
def splitAll (c : Char) : List Char → List (List Char)
  | [] => [[]]
  | d :: rest =>
    if d = c then [] :: splitAll c rest
    else match splitAll c rest with
      | [] => [[d]]
      | piece :: pieces => (d :: piece) :: pieces

/-- A word of 64 bits in decimal digits, with or without a plus sign. -/
def parseWord (text : List Char) : Option UInt64 :=
  let digits := match text with
    | '+' :: rest => rest
    | _ => text
  let value := digits.foldl (fun n d => n * 10 + (d.toNat - '0'.toNat)) 0
  if !digits.isEmpty && digits.all (·.isDigit) && value < UInt64.size then some (UInt64.ofNat value)
  else none

end Relatedness.Text
