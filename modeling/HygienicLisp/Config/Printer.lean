import HygienicLisp.Config.Basic
import HygienicLisp.Yaml.Printer

/-!
# The document of given settings

All settings are written, one a line.
-/

namespace HygienicLisp.Config

/-- The document of given settings. -/
def document (config : Config) : String :=
  let limit := match config.maxExpansionDepth with
    | some n => toString n
    | none => "null"
  "kernel_module: " ++ String.ofList (Yaml.scalarLine config.kernelModule.toList) ++
    "top_level_name: " ++ String.ofList (Yaml.scalarLine config.topLevelName.toList) ++
    "max_expansion_depth: " ++ limit ++ "\n"

end HygienicLisp.Config
