import ObjectLayout.Dump
import ObjectLayout.Engine

/-! A session remembers the layouts that it has worked out, and keeps warnings and log lines. A
layout is remembered once it is complete; a computation that stops leaves behind what was finished
on the way, and what was told, but nothing of itself. -/
namespace ObjectLayout

structure Reporting where
  flags : WarningFlags := {}
  /-- The level up to which the log is kept, if it is on. -/
  logLevel : Option LogLevel := none
  deriving DecidableEq, Repr

structure Memory where
  types : OrderedMap TypeId TypeLayout := .empty
  records : OrderedMap RecordId RecordLayout := .empty
  diagnostics : Diagnostics := {}
  /-- The log, oldest line first. -/
  log : Array String := #[]

abbrev SessionM := EStateM Fault Memory

namespace Memory

def fresh (reporting : Reporting) : Memory := { diagnostics := { flags := reporting.flags } }

def rememberRecord (memory : Memory) (r : RecordId) (layout : RecordLayout) : Memory :=
  { memory with records := memory.records.insert r layout }

def rememberType (memory : Memory) (type : TypeId) (layout : TypeLayout) : Memory :=
  { memory with types := memory.types.insert type layout }

/-- Takes note of a warning or event, as far as it is wanted. -/
def take (reporting : Reporting) (memory : Memory) : Note → Memory
  | .warning warning => { memory with diagnostics := memory.diagnostics.report warning }
  | .event event =>
    if LogLevel.shows reporting.logLevel event.level then
      { memory with log := memory.log.push event.line }
    else memory
  | .answered .. => memory

end Memory

namespace Session

variable (s : Setting) (reporting : Reporting)

/-- Whether newly computed layouts are shown in the log. -/
def showsDumps : Bool := s.options.dumpLayouts && LogLevel.shows reporting.logLevel .info

/-- The log entry that shows a layout in full. -/
def logDump (r : RecordId) : LayoutM Unit := do
  LayoutM.log (.dumped (← dump s r false))

/-- The layout of a record from memory, or else worked out with the answers of `below`, if there is
anything below, and remembered. -/
def recallRecord (below : Option (Oracle SessionM)) (r : RecordId) : SessionM RecordLayout := do
  match (← get).records.find? r, below with
  | some layout, _ => return layout
  | none, none => throw .endless
  | none, some below =>
    let layout ← (RecordLayout.ofRecord s r).answer below
    modify (·.rememberRecord r layout)
    if showsDumps s reporting then (logDump s r).answer below
    return layout

def recallType (below : Option (Oracle SessionM)) (type : Ty) : SessionM TypeLayout := do
  match (← get).types.find? type.id, below with
  | some layout, _ => return layout
  | none, none => throw .endless
  | none, some below =>
    let layout ← (TypeLayout.ofTy s type).answer below
    modify (·.rememberType type.id layout)
    return layout

def oracleOver (below : Option (Oracle SessionM)) : Oracle SessionM where
  record := recallRecord s reporting below
  type := recallType s below
  note n := modify (Memory.take reporting · n)

/-- Answers from memory and works out what is not there, to the given depth. -/
def oracle : Nat → Oracle SessionM
  | 0 => oracleOver s reporting none
  | depth + 1 => oracleOver s reporting (some (oracle depth))

/-- Runs a computation in a session. -/
def run (x : LayoutM α) : SessionM α := x.answer (oracle s reporting s.depth)

/-- Hands out the log and starts a new one. -/
def takeLog : SessionM (Array String) :=
  modifyGet fun memory => (memory.log, { memory with log := #[] })

end Session

end ObjectLayout
