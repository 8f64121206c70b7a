/-!
Language codes such as `en` or `simple`.
-/
namespace Relatedness

structure Language where
  code : String
deriving DecidableEq, Hashable

/-- Codes in the order of their characters. -/
def Language.le (a b : Language) : Bool := a.code ≤ b.code

end Relatedness
