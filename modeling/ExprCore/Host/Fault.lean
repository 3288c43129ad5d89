/-!
Failures of operations on host objects and host classes.
-/

namespace ExprCore
set_option autoImplicit false

inductive HostFault where
  | noSuchField (className field : String)
  | noSuchMethod (className method signature : String)
  | noSuchConstructor (className signature : String)
  | illegalAccess (className member : String)
  /-- The member was found and called, and failed itself. -/
  | targetThrew (className member message : String)
  deriving DecidableEq

def HostFault.text : HostFault → String
  | .noSuchField className field => "no field `" ++ field ++ "` on " ++ className
  | .noSuchMethod className method signature =>
    "no method `" ++ method ++ "(" ++ signature ++ ")` on " ++ className
  | .noSuchConstructor className signature =>
    "no constructor `" ++ className ++ "(" ++ signature ++ ")`"
  | .illegalAccess className member => "illegal access to `" ++ member ++ "` on " ++ className
  | .targetThrew className member message => className ++ "." ++ member ++ " threw: " ++ message

end ExprCore
