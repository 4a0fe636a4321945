/-!
# Settings
-/

namespace HygienicLisp

/-- The settings of a runtime. -/
structure Config where
  /-- The identity under which the kernel is registered and required. -/
  kernelModule : String := "#%kernel"
  /-- The beginning of the identities of top-level sessions. -/
  topLevelName : String := "top"
  /-- The deepest nesting that expansion may reach; unbounded when absent. -/
  maxExpansionDepth : Option Nat := none
  deriving DecidableEq, Repr, Inhabited

end HygienicLisp
