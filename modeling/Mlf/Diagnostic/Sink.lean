import Mlf.Diagnostic.Basic

/-!
# Where diagnostics go

A sink keeps the diagnostics reported to it in order, or discards them all.

Main statement: a sink that keeps its reports gets new ones at the end (`foldl_report_collect`).
-/

namespace Mlf

/-- The receiver of diagnostics. -/
inductive Sink where
  /-- Every diagnostic is dropped. -/
  | discard
  /-- The diagnostics so far, the first one first. -/
  | collect (reports : List Diagnostic)
deriving DecidableEq, Repr

namespace Sink

/-- The sink that has received nothing. -/
def empty : Sink := collect []

instance : Inhabited Sink := ⟨empty⟩

/-- Reports a diagnostic. -/
def report : Sink → Diagnostic → Sink
  | discard, _ => discard
  | collect ds, d => collect (ds ++ [d])

/-- The diagnostics kept, the first one first. -/
def toList : Sink → List Diagnostic
  | discard => []
  | collect ds => ds

/-- The place that the next diagnostic will have, if it is kept. -/
def nextIndex? : Sink → Option Nat
  | discard => none
  | collect ds => some ds.length

/-- The number of diagnostics kept. -/
def size (s : Sink) : Nat := s.toList.length

/-- Whether a diagnostic is kept. -/
def hasError (s : Sink) : Bool := s.size != 0

/-- The number of kept diagnostics with a code. -/
def count (s : Sink) (code : Int) : Nat := s.toList.countP fun d => d.code == code

end Sink

theorem foldl_report_collect (ds es : List Diagnostic) :
    es.foldl .report (Sink.collect ds) = .collect (ds ++ es) := by
  induction es generalizing ds with
  | nil => simp
  | cons d es ih => simp [Sink.report, ih]

theorem foldl_report_eq_iff {ds es : List Diagnostic} :
    es.foldl .report (Sink.collect ds) = .collect ds ↔ es = [] := by
  rw [foldl_report_collect]
  simp

end Mlf
