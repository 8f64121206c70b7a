/-!
Why an operation on files fails.
-/
namespace Relatedness

inductive IoError where
  | notFound
  | notADirectory
  | isADirectory
  | alreadyExists
  | directoryNotEmpty
  | invalidArgument
  /-- A path that ends in dots was to be moved or moved to. -/
  | busy
  /-- A directory was to be mapped into memory. -/
  | notMappable
  /-- The file ends inside a value of fixed length. -/
  | unexpectedEnd
  /-- A source of documents or phrases failed for a reason of its own. -/
  | other (text : String)
deriving DecidableEq

def IoError.message : IoError → String
  | .notFound => "No such file or directory (os error 2)"
  | .notADirectory => "Not a directory (os error 20)"
  | .isADirectory => "Is a directory (os error 21)"
  | .alreadyExists => "File exists (os error 17)"
  | .directoryNotEmpty => "Directory not empty (os error 39)"
  | .invalidArgument => "Invalid argument (os error 22)"
  | .busy => "Device or resource busy (os error 16)"
  | .notMappable => "No such device (os error 19)"
  | .unexpectedEnd => "failed to fill whole buffer"
  | .other text => text

end Relatedness
