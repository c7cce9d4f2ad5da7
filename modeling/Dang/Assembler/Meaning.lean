import Dang.Assembler.Agreement
import Dang.Machine.Context

/-!
# What a source program means

A program as its author reads it: line by line, with labels that name lines. Control is all that is
told of an instruction here; what it does to the data is a parameter, so that the meaning is one for
all data, all inputs and all that other contexts do. The value of a label is the position of its
line, since a program can print it.
-/

namespace Dang

variable {Data : Type}

/-- What instructions do: the instruction and its operands, the current symbol table, the data
before, what the C library and the data answer to the context, and the data after. -/
abbrev Effects (Data : Type) : Type :=
  Instruction → List Operand → ℕ → Data → Answers → Data → Prop

/-- A step of `vm_execute` on a context with its data. No function is called for a `NOOP`, and the
delivery of a signal pushes nothing. -/
def ProgramStep (effects : Effects Data) (bytecode : Bytes) (source : VmContext × Data)
    (event : VmEvent) (target : VmContext × Data) : Prop :=
  VmStep bytecode source.1 event target.1 ∧
    match event with
    | .instruction answers => ∃ instruction operands,
        decode bytecode source.1.counter = .ok (instruction, operands) ∧
          if instruction = .NOOP then target.2 = source.2
          else effects instruction operands source.1.symboltable source.2 answers target.2
    | .signal _ _ => target.2 = source.2

/-- A call that is open: the line it returns to, and the symbol table that was set up for it. The
outermost call returns to no line. -/
structure SourceFrame where
  returns : Option ℕ
  scope : ℕ
  deriving DecidableEq, Repr

/-- Where a run of a source program is: the line that comes next, none once the outermost call has
returned, and the open calls, the innermost first. -/
structure SourceState (Data : Type) where
  line : Option ℕ
  frames : List SourceFrame
  data : Data

/-- The symbol table of the innermost call. -/
def currentScope : List SourceFrame → ℕ
  | [] => 0
  | frame :: _ => frame.scope

/-- The first of some lines that has an instruction, counting from an index. -/
def findInstruction (index : ℕ) :
    List SourceLine → Option (ℕ × Instruction × List SourceParam)
  | [] => none
  | line :: rest =>
      match line.inst with
      | some inst => some (index, inst)
      | none => findInstruction (index + 1) rest

/-- The instruction that is executed where control gets to a line: its own, or that of the first
line after it that has one. -/
def nextInstruction (source : List SourceLine) (index : ℕ) :
    Option (ℕ × Instruction × List SourceParam) :=
  findInstruction index (source.drop index)

/-- The line that defines a label, as the label is named at a line. -/
def labelLine (source : List SourceLine) (line : ℕ) (label : LabelName) : Option ℕ :=
  (parse none source).findIdx? fun parsed =>
    parsed.label = some (label.parse (lastLabelDefined none (source.take (line + 1))))

/-- The line at a position: what a function reference leads to. -/
def lineAt (source : List SourceLine) (position : ℕ) : Option ℕ :=
  (place 1 (parse none source)).findIdx? fun entry => entry.position = position

/-- Where control goes from a line, and the calls that are open then. -/
def flow (source : List SourceLine) (line : ℕ) (answers : Answers) (frames : List SourceFrame) :
    Instruction → List SourceParam → Option (Option ℕ × List SourceFrame)
  | .END, _ => none
  | .JMP, [.labelOff label] =>
      (labelLine source line label).map fun target => (some target, frames)
  | .JMP0, [.labelOff label] | .JMPU, [.labelOff label] =>
      if answers.branches then
        (labelLine source line label).map fun target => (some target, frames)
      else some (some (line + 1), frames)
  | .CALL, [.labelLoc label] =>
      (labelLine source line label).map fun target =>
        (some target, ⟨some (line + 1), answers.table⟩ :: frames)
  | .JMP, _ | .JMP0, _ | .JMPU, _ | .CALL, _ => none
  | .FRCALL, _ =>
      (lineAt source answers.function).map fun target =>
        (some target, ⟨some (line + 1), answers.table⟩ :: frames)
  | .RETURN, _ =>
      match frames with
      | [] => none
      | frame :: rest => some (frame.returns, rest)
  | .ARFILL, _ | .HRFILL, _ =>
      if answers.fills then some (some (line + 1), frames) else none
  | _, _ => some (some (line + 1), frames)

/-- There is storage for a symbol table, other than that of the open calls. -/
def Answers.Sets (answers : Answers) (frames : List SourceFrame) : Prop :=
  answers.table ≠ 0 ∧ answers.table ∉ frames.map SourceFrame.scope

/-- A step of a source program: a line is executed, or a signal is delivered to a handler. -/
inductive SourceStep (effects : Effects Data) (source : List SourceLine) :
    SourceState Data → VmEvent → SourceState Data → Prop
  | instruction {state : SourceState Data} {index line : ℕ} {instruction : Instruction}
      {params : List SourceParam} {operands : List Operand} {answers : Answers}
      {next : Option ℕ} {frames : List SourceFrame} {data : Data}
      (at_line : state.line = some index)
      (reads : nextInstruction source index = some (line, instruction, params))
      (written : operands.map some = params.map
        (SourceParam.written (place 1 (parse none source))
          (lastLabelDefined none (source.take (line + 1)))))
      (sets : answers.Sets state.frames)
      (flows : flow source line answers state.frames instruction params = some (next, frames))
      (does : if instruction = .NOOP then data = state.data
        else effects instruction operands (currentScope state.frames) state.data answers data) :
      SourceStep effects source state (.instruction answers) ⟨next, frames, data⟩
  | signal {state : SourceState Data} {answers : Answers} {handler target : ℕ}
      (handles : lineAt source handler = some target) (sets : answers.Sets state.frames) :
      SourceStep effects source state (.signal answers handler)
        ⟨some target, ⟨state.line, answers.table⟩ :: state.frames, state.data⟩

/-- A run of a source program is over: the outermost call has returned, an `END` comes next, or no
instruction does. -/
def SourceState.Over (source : List SourceLine) (state : SourceState Data) : Prop :=
  ∀ index, state.line = some index → ∀ line instruction params,
    nextInstruction source index = some (line, instruction, params) → instruction = .END

/-- The line that a program starts at. -/
def mainLine (source : List SourceLine) : ℕ :=
  ((parse none source).findIdx? fun parsed => parsed.label = some (ascii "main")).getD 0

/-- A program before its first line, with the symbol table that `vm_execute` sets up. -/
def SourceState.initial (source : List SourceLine) (table : ℕ)
    (data : Data) : SourceState Data where
  line := some (mainLine source)
  frames := [⟨none, table⟩]
  data := data

end Dang
