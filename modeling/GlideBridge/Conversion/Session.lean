import GlideBridge.Conversion.Basic

/-!
Sessions: steps of the conversion in an order of the caller's choice, each on the text that the
step before has left, with the calls left over after every step.
-/

namespace GlideBridge.Session

inductive Step where
  | unwrap
  | apply (g : RuleGroup)
  | indent (unit : Text)
  | wrap (name : Text)
  | convert (o : Options)

def Step.run : Step → Text → Text
  | unwrap, t => Handler.unwrap t
  | apply g, t => g.apply t
  | indent unit, t => Text.indent unit t
  | wrap name, t => Handler.wrap name t
  | convert o, t => (GlideBridge.convert o t).output

structure State where
  text : Text
  leftovers : List Text
  deriving DecidableEq, Repr

def run : List Step → Text → List State
  | [], _ => []
  | s :: ss, t =>
    let u := s.run t
    ⟨u, Catalog.leftoverCalls u⟩ :: run ss u

end GlideBridge.Session
