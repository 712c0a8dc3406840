/-!
# How studio nodes are drawn

Lengths are in pixels; anchors are measured from the upper left corner of the node, whose header
comes before the body.
-/

namespace Patchbay.Studio

def width : Float := 320

def headerHeight : Float := 40

def rowHeight : Float := 40

/-- The place in the body that is this far below the header. -/
def below (offset : Float) : Float := headerHeight + offset

def row (n : Float) : Float := headerHeight + rowHeight * n

end Patchbay.Studio
