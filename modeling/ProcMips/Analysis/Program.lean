import ProcMips.Analysis.Body

/-!
Checking a program: globals first, then each procedure in turn, then that it has a proper `main`.
The result is the symbol tables; what was done is noted on the way.
-/

namespace ProcMips

inductive AnalysisNote where
  | started
  | analyzing (procedure : String)
  | laidOut (procedure : String) (size : Int)
  | finished
deriving Repr, DecidableEq

/-- The global scope, the tables so far, and the notes, latest first. -/
structure AnalysisState where
  scope : Scope
  tables : Tables
  notes : List AnalysisNote
deriving Repr, DecidableEq

namespace AnalysisState

def start : AnalysisState := ⟨[], .empty, [.started]⟩

def note (s : AnalysisState) (n : AnalysisNote) : AnalysisState := { s with notes := n :: s.notes }

/-- Who can be called from the body of `p`: the procedures before it, and itself. -/
def arities (s : AnalysisState) (p : Procedure) : Arities := fun name =>
  if name = p.name then some p.params.length else (s.tables.frame? name).map Frame.argCount

end AnalysisState

abbrev Analysis := EStateM AnalysisFailure AnalysisState

namespace Global

def check (g : Global) : Analysis Unit := fun s =>
  if s.tables.isGlobal g.name then .error (.rejected ⟨g.line, .alreadyDeclaredGlobal g.name⟩) s
  else .ok () { s with
    scope := s.scope.bind g.name g.shape.kind
    tables := s.tables.addGlobal g.name g.shape.words }

end Global

namespace Procedure

/-- The frame of a procedure, provided that its parameters and its body are well-formed inside the
scope `outer`. -/
def layout (p : Procedure) (outer : Scope) (arity : Arities) : Except AnalysisFailure Frame :=
  let body : BodyCheck Unit := do
    Param.checkAll p.params
    p.body.check arity
  match body ⟨[[], outer], .empty⟩ with
  | .error e _ => .error e
  | .ok () s =>
    match s.frame.finish with
    | .error op => .error (.overflow op)
    | .ok f => .ok f

def check (p : Procedure) : Analysis Unit := fun s =>
  let s := s.note (.analyzing p.name)
  if (s.tables.frame? p.name).isSome then
    .error (.rejected ⟨p.line, .procAlreadyDeclared p.name⟩) s
  else
    match p.layout s.scope (s.arities p) with
    | .error e => .error e s
    | .ok f =>
      match f.size with
      | .error op => .error (.overflow op) s
      | .ok size =>
        .ok () { s.note (.laidOut p.name size) with tables := s.tables.addFrame p.name f }

end Procedure

namespace Program

/-- The first procedure named `main` must have no parameters. -/
def checkMain (p : Program) : Except AnalysisFailure Unit :=
  match p.procedure? mainName with
  | none => reject ((p.procedures.getLast?.map Procedure.line).getD 1) .noMain
  | some main => if main.params.isEmpty then .ok () else reject main.line .mainHasArgs

def check (p : Program) : Analysis Unit := do
  p.globals.forM Global.check
  p.procedures.forM Procedure.check
  match p.checkMain with
  | .error e => throw e
  | .ok () => modify (·.note .finished)

end Program

/-- The outcome of analysis, and what happened on the way, earliest first. -/
structure Analyzed where
  outcome : Except AnalysisFailure Tables
  notes : List AnalysisNote
deriving Repr

/-- Analyzes a program, and notes what happens. -/
def analyzeNoting (p : Program) : Analyzed :=
  match p.check AnalysisState.start with
  | .ok () s => ⟨.ok s.tables, s.notes.reverse⟩
  | .error e s => ⟨.error e, s.notes.reverse⟩

/-- The symbol tables of a well-formed program. -/
def analyze (p : Program) : Except AnalysisFailure Tables := (analyzeNoting p).outcome

end ProcMips
