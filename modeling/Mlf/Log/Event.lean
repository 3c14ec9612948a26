import Mlf.Diagnostic.Sink
import Mlf.Log.Basic
import Mlf.Trace

/-!
# Events in the log

How the events of a run are written to the log, and which section each one belongs to.
-/

namespace Mlf

open Log

/-- The attributes for a list of diagnostics, each in a group of its own. -/
def Log.diagnosticAttrs (key : String) (ds : List Diagnostic) : List Attr :=
  ds.zipIdx.map fun (d, i) => ⟨[key, "d" ++ toString i], "msg", d.format⟩

/-- A type as the value of an attribute. -/
def Log.typeAttr (key : String) (t : Polytype) : Attr := .plain key t.render

/-- What the log holds about an event. -/
def Event.record : Event → Record
  | newType x level bound =>
    ⟨.debug, "new type", [.plain sectionKey "prefix", .plain "name" x,
      .plain "level" (toString level), typeAttr "bound" bound]⟩
  | update x b =>
    ⟨.debug, "update", [.plain sectionKey "prefix", .plain "name" x, .plain "kind" b.kind.text,
      typeAttr "bound" b.type]⟩
  | failure f => ⟨.warn, "prefix failure", [.plain sectionKey "prefix", .plain "err" f.message]⟩
  | unify a e =>
    ⟨.debug, "unify", [.plain sectionKey "unify", typeAttr "actual" a, typeAttr "expected" e]⟩
  | unifyFailure f => ⟨.warn, "unify failure", [.plain sectionKey "unify", .plain "err" f.message]⟩
  | function x t =>
    ⟨.debug, "func", [.plain sectionKey "infer", .plain "param" x, typeAttr "type" t]⟩
  | call t failed =>
    ⟨.debug, "call", [.plain sectionKey "infer", typeAttr "type" t,
      .plain "failed" (if failed then "true" else "false")]⟩
  | inferred t ds =>
    ⟨.debug, "inferred", [.plain sectionKey "infer", typeAttr "type" t]
      ++ diagnosticAttrs "diagnostics" ds⟩

end Mlf
