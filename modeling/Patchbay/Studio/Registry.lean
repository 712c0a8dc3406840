import Patchbay.Studio.Generation
import Patchbay.Studio.Logic

/-!
# The studio

All node types of the studio.
-/

namespace Patchbay.Studio

/-- Every node type. -/
def definitions : List (Definition StudioNode) :=
  [textInput, fileInput, number, arithmetic, conditional, imageGeneration, videoGeneration,
    textGeneration]

def registry : Registry StudioNode := .ofList definitions

end Patchbay.Studio
