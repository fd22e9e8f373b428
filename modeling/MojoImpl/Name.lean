import Mathlib.Init

/-! Names of nodes and ports, from ports/name.h. -/
namespace MojoImpl

structure Name where
  v1 : UInt64
  v2 : UInt64
  deriving DecidableEq, Repr

/-- Both name classes of the source add constructors only. -/
abbrev PortName := Name
abbrev NodeName := Name

def kInvalidPortName : PortName := ⟨0,0⟩
def kInvalidNodeName : NodeName := ⟨0,0⟩

end MojoImpl
