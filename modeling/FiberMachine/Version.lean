/-!
# Artifact versions
-/

namespace FiberMachine

/-- The version of the encoder that produced an artifact. -/
structure Version where
  major : UInt16
  minor : UInt16
  patch : UInt32
deriving DecidableEq, Inhabited

namespace Version

/-- The version this library writes. -/
def current : Version := ⟨0, 1, 0⟩

/-- Whether artifacts of this version can be read: the same major version and no later minor one. -/
def isCompatible (v : Version) : Bool :=
  v.major == current.major && decide (v.minor ≤ current.minor)

/-- The order of versions: by major, then minor, then patch. -/
def compare (v w : Version) : Ordering :=
  (Ord.compare v.major w.major).then
    ((Ord.compare v.minor w.minor).then (Ord.compare v.patch w.patch))

def text (v : Version) : String :=
  toString v.major.toNat ++ "." ++ toString v.minor.toNat ++ "." ++ toString v.patch.toNat

end Version

end FiberMachine
