import HygienicLisp.Config.Basic
import HygienicLisp.Error
import HygienicLisp.Yaml.Node
import HygienicLisp.Yaml.Resolution

/-!
# Settings documents

Settings are written as a YAML mapping.  Settings that are not mentioned keep their
defaults, entries with other keys are ignored, and a setting is mentioned once at most.
Where there is nothing in the document, all settings have their defaults.
-/

namespace HygienicLisp.Config

open Yaml (Scalar Node)

/-- The limit that a scalar denotes: none, or a number of at most 64 bits.  Neither is
quoted. -/
def limit? (s : Scalar) : Option (Option Nat) :=
  if s.style ≠ .plain then none
  else if s.text.isEmpty || Yaml.isNull s.text then some none
  else ((Yaml.natural? s.text).filter (· ≤ 18446744073709551615)).map some

/-- The settings with one of them changed to what a scalar denotes. -/
def set? (config : Config) (key : String) (value : Scalar) : Option Config :=
  if key = "max_expansion_depth" then
    (limit? value).map fun limit => { config with maxExpansionDepth := limit }
  else if key = "kernel_module" then
    some { config with kernelModule := String.ofList value.text }
  else some { config with topLevelName := String.ofList value.text }

/-- The keys of the settings. -/
def settingKeys : List String := ["kernel_module", "top_level_name", "max_expansion_depth"]

/-- Changes the settings by the entries of a document, in order; `seen` holds the keys of the
settings before. -/
def applyAll (config : Config) (seen : List String) : List (Node × Node) → Option Config
  | [] => some config
  | (key, value) :: rest => do
    let key := String.ofList (← key.scalar?).text
    if !settingKeys.contains key then applyAll config seen rest
    else if seen.contains key then none
    else applyAll (← config.set? key (← value.scalar?)) (key :: seen) rest

/-- The settings that a node denotes. -/
def ofNode? : Node → Option Config
  | .mapping entries => applyAll {} [] entries
  | .scalar s => if s.style = .plain ∧ s.text.isEmpty then some {} else none
  | .sequence _ => none

/-- The settings written in a document. -/
def ofDocument (text : String) : Except Error Config :=
  let config? := match Node.ofText? text.toList with
    | some (some node) => ofNode? node
    | some none => some {}
    | none => none
  match config? with
  | some config => .ok config
  | none => .error (.of (.contract .invalidConfig))

end HygienicLisp.Config
