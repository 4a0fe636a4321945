import HygienicLisp.World

/-!
# The kernel

The kernel is the language that every namespace starts from.  It binds the core forms and
the primitives as ordinary values, so that programs may shadow or rename them like any
other binding.
-/

namespace HygienicLisp

/-- Defines values under their names, in order. -/
def defineAll (ns : NamespaceId) : List (String × RunM Value) → RunM Unit
  | [] => return
  | (name, value) :: rest => do
    defineValue ns name (← value)
    defineAll ns rest

/-- What the kernel defines: the core forms, then the primitives. -/
def kernelDefinitions : List (String × RunM Value) :=
  CoreForm.all.map (fun f => (f.name, pure (.form f))) ++
    Primitive.all.map fun p => (p.name, newProcedure (some p.name) (.native p.arity p))

/-- Builds a namespace with the definitions of the kernel, and the declaration of a module
that provides all of them. -/
def buildKernel (id : ModuleId) : RunM Declaration := do
  let space ← newNamespace id .module
  defineAll space kernelDefinitions
  let definitions := match (← getSpaces)[space]? with
    | some kernel => kernel.unmarkedDefinitions
    | none => []
  return ⟨id, space, [], definitions.map fun d => ⟨d.name, d⟩⟩

/-- Makes all bindings of the kernel visible in a namespace, shadowable by its own. -/
def requireKernel (ns : NamespaceId) : RunM Unit := do
  let kernel := (← get).runtime.kernel
  requireAll ns (fun p => .ok ((Syntax.ident p.name).introduce ns)) true kernel.provided

end HygienicLisp
