import Dang.Assembler.Assemble
import Dang.Assembler.Grammar

/-!
# Assembling a text

`assemble` from the text of a source file on: the tokens of `ass_lex`, the lines of `yyparse`, and
what `assemble` does with them. A string that is not terminated comes through as a null pointer,
which the first pass over the lines follows where it measures the string.
-/

namespace Dang

/-- The actions of `param`. A null pointer that nothing follows is as good as an empty string. -/
def ParsedParam.get (last : Option Bytes) : ParsedParam → Param
  | .integer value => .integer value
  | .float value => .float value
  | .string value => .string (value.getD [])
  | .labelLoc label => .labelLoc (label.parse last)
  | .labelOff label => .labelOff (label.parse last)

namespace ParsedLine

/-- The actions of `line`. Its parameters are parsed after its label. -/
def get (last : Option Bytes) (line : ParsedLine) : Line where
  label := (line.labeldef.parse last).1
  instruction := line.inst.map Prod.fst
  params := (line.inst.map fun inst =>
    inst.2.map (ParsedParam.get (line.labeldef.parse last).2)).getD []

/-- The string whose length is the line's is a null pointer. -/
def measuresNull (line : ParsedLine) : Bool :=
  match line.inst with
  | some (.STR, .string none :: _) | some (.STRING, .string none :: _) => true
  | _ => false

end ParsedLine

/-- The actions of `program`, where `last` is `g_last_label_defined`. -/
def getLines (last : Option Bytes) : List ParsedLine → List Line
  | [] => []
  | line :: rest => line.get last :: getLines (line.labeldef.parse last).2 rest

/-- `assemble`, called for the first time, on a file with this text. -/
def assembleText (unsettled : Unsettled) (text : Bytes) : Outcome (Option AssemblerOutput) := do
  let tokens ← lex unsettled text
  match yyparse tokens with
  | none => .ok none
  | some lines =>
      if lines.any ParsedLine.measuresNull then .error .nullPointer
      else assemble (getLines none lines)

/-- The size of the object that `assemble` allocates for its output. -/
def outputSize (lines : List Line) : ℕ :=
  match (place 1 lines).getLast? with
  | none => 0
  | some last => sizeofAssemblerOutput + (last.position + last.length + 1)

/-- A parameter with a literal instead of its value. -/
def SourceParam.parsed : SourceParam → ParsedParam
  | .integer number => .integer number.ival
  | .float bits => .float bits
  | .string text => .string (some text)
  | .labelLoc label => .labelLoc label
  | .labelOff label => .labelOff label

/-- A line with literals instead of their values. -/
def SourceLine.parsed (line : SourceLine) : ParsedLine where
  labeldef := line.labeldef
  inst := line.inst.map fun inst => (inst.1, inst.2.map SourceParam.parsed)

theorem SourceParam.get_parsed (last : Option Bytes) (param : SourceParam) :
    param.parsed.get last = param.parse last := by
  cases param with
  | integer => rfl
  | float => rfl
  | string => rfl
  | labelLoc => rfl
  | labelOff => rfl

theorem SourceLine.get_parsed (last : Option Bytes) (line : SourceLine) :
    line.parsed.get last = line.parse last := by
  rcases line with ⟨labeldef, inst⟩
  cases inst with
  | none => rfl
  | some inst =>
      simp only [SourceLine.parsed, ParsedLine.get, SourceLine.parse, Option.map_some,
        Option.getD_some, List.map_map]
      congr 1
      apply List.map_congr_left
      intro param _
      exact param.get_parsed _

/-- A source program is parsed to the same lines, literals or not. -/
theorem getLines_parsed (last : Option Bytes) (source : List SourceLine) :
    getLines last (source.map SourceLine.parsed) = parse last source := by
  induction source generalizing last with
  | nil => rfl
  | cons line rest ih =>
      simp only [List.map_cons, getLines, parse, SourceLine.get_parsed, ih]
      rfl

/-- The strings of a source program are terminated. -/
theorem SourceLine.inst_parsed_ne (line : SourceLine) (instruction : Instruction)
    (rest : List ParsedParam) : line.parsed.inst ≠ some (instruction, .string none :: rest) := by
  intro same
  rcases Option.map_eq_some_iff.mp same with ⟨⟨_, params⟩, _, equal⟩
  cases params with
  | nil => cases equal
  | cons param params =>
      cases param with
      | integer => cases equal
      | float => cases equal
      | string => cases equal
      | labelLoc => cases equal
      | labelOff => cases equal

theorem SourceLine.measuresNull_parsed (line : SourceLine) : line.parsed.measuresNull = false := by
  unfold ParsedLine.measuresNull
  split
  case h_1 same => exact absurd same (line.inst_parsed_ne _ _)
  case h_2 same => exact absurd same (line.inst_parsed_ne _ _)
  case h_3 => rfl

/-- A text that stands for a source program is assembled like it. -/
theorem assembleText_of_source {unsettled : Unsettled} {text : Bytes} {tokens : List Token}
    {source : List SourceLine} (lexed : lex unsettled text = .ok tokens)
    (derives : Grammar.Program tokens (source.map SourceLine.parsed)) :
    assembleText unsettled text = assemble (parse none source) := by
  have measured : (source.map SourceLine.parsed).any ParsedLine.measuresNull = false := by
    rw [List.any_map, List.any_eq_false]
    intro line _
    exact ne_true_of_eq_false line.measuresNull_parsed
  simp only [assembleText, lexed, Outcome.ok_bind, yyparse_eq_some_iff.mpr derives, measured,
    Bool.false_eq_true, if_false, getLines_parsed]

end Dang
