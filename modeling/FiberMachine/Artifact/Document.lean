import FiberMachine.Artifact.Decode
import FiberMachine.Artifact.Encode
import FiberMachine.Code.Document

/-!
# Reports on linked modules

The document of a module together with its artifact and whether the artifact gives the module back.
-/

namespace FiberMachine.LinkedModule

open Document

/-- The module as it is after encoding and decoding it. -/
def recoded (m : LinkedModule) : Except LinkError LinkedModule := do
  Artifact.decode m.name (← Artifact.encode m)

/-- What the artifact of `m` says, in hexadecimal digits, and whether it decodes to `m`. -/
def artifactFields (m : LinkedModule) : List (String × Document) :=
  match Artifact.encode m with
  | .error e => [("artifact", e.write)]
  | .ok bytes =>
    let back := match Artifact.decode m.name bytes with
      | .ok n => Document.bool (m.equals n)
      | .error e => e.write
    [("artifact", text (Text.hexOfBytes bytes)), ("roundtrip", back)]

def report (m : LinkedModule) : Document :=
  record ([
    ("name", text m.name),
    ("pool", list (m.pool.toList.map Constant.write)),
    ("body", Document.bool m.body?.isSome)] ++ m.artifactFields)

end FiberMachine.LinkedModule
