import Deductions.Kind
import Deductions.Narration
import Deductions.SortedMap

namespace Deductions

structure Node where
  path : Path
  version : Version
  kind : NodeKind
  fields : SortedMap String String := SortedMap.empty
  /-- The nodes directly inside, in the order of their declaration. -/
  children : List Path := []
  narration : Option (List NarrationStep) := none
  /-- Whether a supposition is made without loss of generality. -/
  wolog : Bool := false
deriving DecidableEq

namespace Node

def name (n : Node) : String := n.path.name

def ref (n : Node) : NodeRef := ⟨n.path, n.version⟩

def field? (n : Node) (name : String) : Option String := n.fields.find? name

/-- The fields of the node that its kind does not have. -/
def unknownFields (n : Node) : List String :=
  n.fields.keys.filter fun name => !n.kind.allowedFields.contains name

def hasRequiredFields (n : Node) : Bool :=
  n.kind.requiredFields.isEmpty || n.kind.requiredFields.any n.fields.contains

end Node

end Deductions
