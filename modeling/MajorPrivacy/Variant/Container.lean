/-
The kinds of containers of `CVariant` objects, `SMap`, `SList` and `SIndex`, and where an element of one stands.
-/
import MajorPrivacy.Variant.Object

namespace MajorPrivacy.Variant

open LittleEndian MajorPrivacy.Core

/-- Where an element stands: under a name, under an id, or at a position. -/
inductive Slot
  | name (name : Bytes)
  | id (index : UInt32)
  | pos (pos : Nat)
  deriving DecidableEq, Repr

/-- The kinds of containers. -/
inductive ContainerKind
  | map | list | index
  deriving DecidableEq

def ContainerKind.varType : ContainerKind → EType
  | map => varTypeMap
  | list => varTypeList
  | index => varTypeIndex

end MajorPrivacy.Variant
