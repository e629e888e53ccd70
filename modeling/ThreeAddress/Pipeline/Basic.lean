import ThreeAddress.Code.Verify
import ThreeAddress.Lowering.Basic
import ThreeAddress.Pipeline.SourceUnit
/-!
# The pipeline

Units are compiled in the order they were added. A unit that is verified is left alone, and the first that fails ends
the run.
-/
namespace ThreeAddress

open Code Lowering

inductive CompileError where
  | rejected (unit : String) (cause : Rejection)
  | malformed (unit : String) (cause : Malformed)
  | duplicateName (unit : String)
deriving DecidableEq, Repr

def CompileError.message : CompileError → String
  | .rejected unit cause => s!"unit `{unit}`: {cause.message}"
  | .malformed unit cause => s!"unit `{unit}`: internal compiler error: {cause.message}"
  | .duplicateName unit => s!"unit `{unit}` was already added"

/-- Units in the order they were added. -/
structure Pipeline where
  config : Config := {}
  units : List SourceUnit := []
deriving Repr

/-- How a run ended, what it left and the records it made. -/
structure Outcome (α β : Type) where
  result : Except CompileError α
  state : β
  log : Log
deriving Repr

/-- Compiles one unit from its program, whatever it held before. It advances once it is lowered and again once the code
is verified, which is stored at the end. -/
def SourceUnit.compile (config : Config) (u : SourceUnit) : Outcome Unit SourceUnit :=
  let parsed := u.reset
  match lowerUnit config parsed.name parsed.program with
  | ⟨.error cause, log⟩ =>
    { result := .error (.rejected u.name cause)
      state := { parsed with stage := .failed }
      log := log.push ⟨.warn, s!"unit `{u.name}` failed to lower: {cause.message}"⟩ }
  | ⟨.ok code, log⟩ =>
    let lowered := parsed.advance
    match code.verifyLogged with
    | ⟨.error cause, checks⟩ =>
      { result := .error (.malformed u.name cause)
        state := { lowered with stage := .failed, code := some code }
        log := (log ++ checks).push ⟨.warn, s!"unit `{u.name}` produced malformed IR: {cause.message}"⟩ }
    | ⟨.ok (), checks⟩ =>
      { result := .ok ()
        state := { lowered.advance with code := some code }
        log := (log ++ checks).push ⟨.debug, code.render⟩ }

/-- Compiles the units that are not verified and counts them, up to the first failure. -/
def compileUnits (config : Config) : List SourceUnit → Outcome Nat (List SourceUnit)
  | [] => ⟨.ok 0, [], #[]⟩
  | u :: rest =>
    if u.isVerified then
      let others := compileUnits config rest
      { others with state := u :: others.state }
    else
      match u.compile config with
      | ⟨.error e, failed, log⟩ => ⟨.error e, failed :: rest, log⟩
      | ⟨.ok (), done, log⟩ =>
        let others := compileUnits config rest
        ⟨others.result.map (· + 1), done :: others.state, log ++ others.log⟩

/-- The answer to an addition. The pipeline comes back with it in both cases. -/
inductive Addition where
  | ok (pipeline : Pipeline)
  | error {pipeline : Pipeline} (cause : CompileError)

namespace Addition

def result : Addition → Except CompileError Unit
  | .ok _ => .ok ()
  | .error cause => .error cause

def pipeline : Addition → Pipeline
  | .ok p => p
  | @error p _ => p

end Addition

namespace Pipeline

def unit? (p : Pipeline) (name : String) : Option SourceUnit := p.units.find? (·.name = name)

def contains (p : Pipeline) (name : String) : Bool := p.units.any (·.name = name)

/-- Adds a unit at the end. The names in a pipeline are distinct: a unit whose name is taken is refused before anything
is changed. -/
def add (p : Pipeline) (u : SourceUnit) : Addition :=
  if p.contains u.name then @Addition.error p (.duplicateName u.name) else .ok { p with units := p.units ++ [u] }

/-- Compiles everything that is not verified. The last record of a run without failure counts the units. -/
def compileAll (p : Pipeline) : Outcome Nat Pipeline :=
  let run := compileUnits p.config p.units
  let summary : Log :=
    match run.result with
    | .ok count => #[⟨.info, s!"compiled {count} of {p.units.length} unit(s)"⟩]
    | .error _ => #[]
  ⟨run.result, { p with units := run.state }, run.log ++ summary⟩

/-- The code of every verified unit. -/
def dump (p : Pipeline) : String :=
  "\n".intercalate ((p.units.filter SourceUnit.isVerified).filterMap fun u => u.code.map CodeUnit.render)

end Pipeline

end ThreeAddress
