import Dang.Assembler.Lexer

/-!
# The grammar of the assembler

The productions of `assembler.y` as they stand, and `yyparse` as a function of the tokens. It
accepts exactly what the grammar derives, with what the actions make of it.
-/

namespace Dang

/-- `param`, with the values that `ass_lex` gave its tokens. -/
inductive ParsedParam
  | integer (value : BitVec 64)
  | float (value : BitVec 64)
  | string (value : Option Bytes)
  | labelLoc (label : LabelName)
  | labelOff (label : LabelName)

/-- `line` -/
structure ParsedLine where
  labeldef : LabelDef
  inst : Option (Instruction × List ParsedParam)

namespace Grammar

/-- The token `'\n'`. -/
abbrev newline : Token := .char 10

/-- The token `','`. -/
abbrev comma : Token := .char 44

/-- The token `'.'`. -/
abbrev dot : Token := .char 46

/-- The token `':'`. -/
abbrev colon : Token := .char 58

inductive Label : List Token → LabelName → Prop
  | primSub (prim sub : Name) : Label [.label prim, dot, .label sub] (.primSub prim sub)
  | subOnly (sub : Name) : Label [dot, .label sub] (.subOnly sub)
  | primOnly (prim : Name) : Label [.label prim] (.primOnly prim)

inductive Param : List Token → ParsedParam → Prop
  | integer (value : BitVec 64) : Param [.integer value] (.integer value)
  | float (value : BitVec 64) : Param [.float value] (.float value)
  | string (value : Option Bytes) : Param [.string value] (.string value)
  | labelLoc {tokens : List Token} {label : LabelName} (derives : Label tokens label) :
      Param (.char 38 :: tokens) (.labelLoc label)
  | labelOff {tokens : List Token} {label : LabelName} (derives : Label tokens label) :
      Param (.char 126 :: tokens) (.labelOff label)

inductive Params1 : List Token → List ParsedParam → Prop
  | param {tokens : List Token} {param : ParsedParam} (derives : Param tokens param) :
      Params1 tokens [param]
  | append {firsts lasts : List Token} {params : List ParsedParam} {param : ParsedParam}
      (before : Params1 firsts params) (derives : Param lasts param) :
      Params1 (firsts ++ comma :: lasts) (params ++ [param])

inductive Params : List Token → List ParsedParam → Prop
  | empty : Params [] []
  | params1 {tokens : List Token} {params : List ParsedParam} (derives : Params1 tokens params) :
      Params tokens params

inductive Labeldef : List Token → LabelDef → Prop
  | empty : Labeldef [] .empty
  | primOnly (prim : Name) : Labeldef [.label prim, colon] (.primOnly prim)
  | subOnly (sub : Name) : Labeldef [dot, .label sub, colon] (.subOnly sub)

inductive Line : List Token → ParsedLine → Prop
  | labeldef {tokens : List Token} {labeldef : LabelDef} (derives : Labeldef tokens labeldef) :
      Line (tokens ++ [newline]) ⟨labeldef, none⟩
  | inst {firsts lasts : List Token} {labeldef : LabelDef} {params : List ParsedParam}
      (instruction : Instruction) (defines : Labeldef firsts labeldef)
      (derives : Params lasts params) :
      Line (firsts ++ .inst instruction :: (lasts ++ [newline]))
        ⟨labeldef, some (instruction, params)⟩

inductive Program : List Token → List ParsedLine → Prop
  | empty : Program [] []
  | line {firsts lasts : List Token} {lines : List ParsedLine} {line : ParsedLine}
      (before : Program firsts lines) (derives : Line lasts line) :
      Program (firsts ++ lasts) (lines ++ [line])

/-- The list also begins with a parameter. -/
theorem Params1.cons {firsts lasts : List Token} {param : ParsedParam} {params : List ParsedParam}
    (derives : Param firsts param) (after : Params1 lasts params) :
    Params1 (firsts ++ comma :: lasts) (param :: params) := by
  induction after with
  | param last => exact Params1.append (.param derives) last
  | append _ last ih =>
      have longer := Params1.append ih last
      rw [List.append_assoc] at longer
      exact longer

/-- The program also begins with a line. -/
theorem Program.cons {firsts lasts : List Token} {line : ParsedLine} {lines : List ParsedLine}
    (derives : Line firsts line) (after : Program lasts lines) :
    Program (firsts ++ lasts) (line :: lines) := by
  induction after with
  | empty =>
      have single := Program.line .empty derives
      rw [List.nil_append] at single
      rw [List.append_nil]
      exact single
  | line _ last ih =>
      have longer := Program.line ih last
      rw [List.append_assoc] at longer
      exact longer

end Grammar

section Parsing

/-- `label` -/
def parseLabel : List Token → Option (LabelName × List Token)
  | .label prim :: .char 46 :: .label sub :: rest => some (.primSub prim sub, rest)
  | .char 46 :: .label sub :: rest => some (.subOnly sub, rest)
  | .label prim :: rest => some (.primOnly prim, rest)
  | _ => none

/-- `param` -/
def parseParam : List Token → Option (ParsedParam × List Token)
  | .integer value :: rest => some (.integer value, rest)
  | .float value :: rest => some (.float value, rest)
  | .string value :: rest => some (.string value, rest)
  | .char 38 :: rest => (parseLabel rest).map fun parsed => (.labelLoc parsed.1, parsed.2)
  | .char 126 :: rest => (parseLabel rest).map fun parsed => (.labelOff parsed.1, parsed.2)
  | _ => none

/-- A parameter of `params1`: another one follows a comma. -/
def params1Round (params : List ParsedParam) (tokens : List Token) :
    Round Token (List ParsedParam) (Option (List ParsedParam × List Token)) :=
  match parseParam tokens with
  | some (param, .char 44 :: rest) => .more (params ++ [param]) rest
  | some (param, rest) => .done (some (params ++ [param], rest))
  | none => .done none

theorem parseLabel_sound {tokens rest : List Token} {label : LabelName}
    (parsed : parseLabel tokens = some (label, rest)) :
    ∃ taken, tokens = taken ++ rest ∧ Grammar.Label taken label := by
  unfold parseLabel at parsed
  split at parsed
  case h_1 =>
    cases parsed
    exact ⟨_, rfl, .primSub _ _⟩
  case h_2 =>
    cases parsed
    exact ⟨_, rfl, .subOnly _⟩
  case h_3 =>
    cases parsed
    exact ⟨_, rfl, .primOnly _⟩
  case h_4 => cases parsed

theorem parseParam_sound {tokens rest : List Token} {param : ParsedParam}
    (parsed : parseParam tokens = some (param, rest)) :
    ∃ taken, tokens = taken ++ rest ∧ Grammar.Param taken param := by
  unfold parseParam at parsed
  split at parsed
  case h_1 =>
    cases parsed
    exact ⟨_, rfl, .integer _⟩
  case h_2 =>
    cases parsed
    exact ⟨_, rfl, .float _⟩
  case h_3 =>
    cases parsed
    exact ⟨_, rfl, .string _⟩
  case h_4 =>
    rcases Option.map_eq_some_iff.mp parsed with ⟨⟨label, left⟩, named, same⟩
    cases same
    rcases parseLabel_sound named with ⟨taken, rfl, derives⟩
    exact ⟨_, rfl, .labelLoc derives⟩
  case h_5 =>
    rcases Option.map_eq_some_iff.mp parsed with ⟨⟨label, left⟩, named, same⟩
    cases same
    rcases parseLabel_sound named with ⟨taken, rfl, derives⟩
    exact ⟨_, rfl, .labelOff derives⟩
  case h_6 => cases parsed

theorem params1Round_sound {tokens rest : List Token} {params next : List ParsedParam}
    (came : params1Round params tokens = .more next rest) :
    ∃ taken param, tokens = taken ++ Grammar.comma :: rest ∧ next = params ++ [param] ∧
      Grammar.Param taken param := by
  unfold params1Round at came
  split at came
  case h_1 parsed =>
    cases came
    rcases parseParam_sound parsed with ⟨taken, rfl, derives⟩
    exact ⟨taken, _, rfl, rfl, derives⟩
  case h_2 => cases came
  case h_3 => cases came

/-- `params1` -/
def params1Scanner :
    Scanner Token (List ParsedParam) (Option (List ParsedParam × List Token)) where
  round := params1Round
  consumes came := by
    rcases params1Round_sound came with ⟨taken, param, rfl, _, _⟩
    rw [List.length_append, List.length_cons]
    omega

/-- `params` -/
def parseParams : List Token → Option (List ParsedParam × List Token)
  | .char 10 :: rest => some ([], .char 10 :: rest)
  | tokens => params1Scanner.scan [] tokens

/-- `labeldef` -/
def parseLabeldef : List Token → LabelDef × List Token
  | .label prim :: .char 58 :: rest => (.primOnly prim, rest)
  | .char 46 :: .label sub :: .char 58 :: rest => (.subOnly sub, rest)
  | tokens => (.empty, tokens)

/-- `line` -/
def parseLine (tokens : List Token) : Option (ParsedLine × List Token) :=
  match parseLabeldef tokens with
  | (labeldef, .char 10 :: rest) => some (⟨labeldef, none⟩, rest)
  | (labeldef, .inst instruction :: rest) =>
      match parseParams rest with
      | some (params, .char 10 :: rest) => some (⟨labeldef, some (instruction, params)⟩, rest)
      | _ => none
  | _ => none

/-- A line of `program`. -/
def programRound (lines : List ParsedLine) (tokens : List Token) :
    Round Token (List ParsedLine) (Option (List ParsedLine)) :=
  if tokens = [] then .done (some lines)
  else
    match parseLine tokens with
    | some (line, rest) => .more (lines ++ [line]) rest
    | none => .done none

theorem parseLabeldef_sound (tokens : List Token) :
    ∃ taken, tokens = taken ++ (parseLabeldef tokens).2 ∧
      Grammar.Labeldef taken (parseLabeldef tokens).1 := by
  unfold parseLabeldef
  split
  case h_1 => exact ⟨_, rfl, .primOnly _⟩
  case h_2 => exact ⟨_, rfl, .subOnly _⟩
  case h_3 => exact ⟨[], rfl, .empty⟩

theorem params1_sound {params acc : List ParsedParam} {tokens rest : List Token}
    (parsed : params1Scanner.scan acc tokens = some (params, rest)) :
    ∃ taken others, tokens = taken ++ rest ∧ params = acc ++ others ∧
      Grammar.Params1 taken others := by
  induction acc, tokens using params1Scanner.induct with
  | more came ih =>
      rw [Scanner.scan_of_more came] at parsed
      rcases ih parsed with ⟨taken, others, rfl, rfl, derives⟩
      rcases params1Round_sound came with ⟨first, param, rfl, rfl, derivesFirst⟩
      refine ⟨first ++ Grammar.comma :: taken, param :: others, ?_, ?_, derives.cons derivesFirst⟩
      · rw [List.append_assoc]
        rfl
      · rw [List.append_assoc]
        rfl
  | done came =>
      rw [Scanner.scan_of_done came] at parsed
      subst parsed
      change params1Round _ _ = _ at came
      unfold params1Round at came
      split at came
      case h_1 => cases came
      case h_2 parsed =>
        cases came
        rcases parseParam_sound parsed with ⟨taken, rfl, derives⟩
        exact ⟨taken, _, rfl, rfl, .param derives⟩
      case h_3 => cases came

theorem parseParams_sound {params : List ParsedParam} {tokens rest : List Token}
    (parsed : parseParams tokens = some (params, rest)) :
    ∃ taken, tokens = taken ++ rest ∧ Grammar.Params taken params := by
  unfold parseParams at parsed
  split at parsed
  case h_1 =>
    cases parsed
    exact ⟨[], rfl, .empty⟩
  case h_2 =>
    rcases params1_sound parsed with ⟨taken, others, rfl, rfl, derives⟩
    exact ⟨taken, rfl, .params1 derives⟩

theorem parseLine_sound {line : ParsedLine} {tokens rest : List Token}
    (parsed : parseLine tokens = some (line, rest)) :
    ∃ taken, tokens = taken ++ rest ∧ Grammar.Line taken line := by
  rcases parseLabeldef_sound tokens with ⟨firsts, split, defines⟩
  unfold parseLine at parsed
  split at parsed
  case h_1 labeldef left defined =>
    cases parsed
    rw [defined] at split defines
    refine ⟨firsts ++ [Grammar.newline], ?_, .labeldef defines⟩
    rw [split, List.append_assoc]
    rfl
  case h_2 labeldef instruction left defined =>
    rw [defined] at split defines
    split at parsed
    case h_1 params last listed =>
      cases parsed
      rcases parseParams_sound listed with ⟨lasts, rfl, derives⟩
      refine ⟨firsts ++ .inst instruction :: (lasts ++ [Grammar.newline]), ?_,
        .inst instruction defines derives⟩
      rw [split]
      simp
    case h_2 => cases parsed
  case h_3 => cases parsed

theorem Grammar.Line.ne_nil {tokens : List Token} {line : ParsedLine}
    (derives : Grammar.Line tokens line) : tokens ≠ [] := by
  cases derives with
  | labeldef => simp
  | inst => simp

/-- `yyparse`, which gives up at a syntax error. -/
def programScanner : Scanner Token (List ParsedLine) (Option (List ParsedLine)) where
  round := programRound
  consumes {lines tokens next left} came := by
    unfold programRound at came
    split at came
    case isTrue => cases came
    case isFalse =>
      split at came
      case h_1 parsed =>
        cases came
        rcases parseLine_sound parsed with ⟨taken, rfl, derives⟩
        have nonempty := List.length_pos_of_ne_nil derives.ne_nil
        rw [List.length_append]
        omega
      case h_2 => cases came

/-- `yyparse`: the lines that it leaves, in the order of `g_lines`. -/
def yyparse (tokens : List Token) : Option (List ParsedLine) := programScanner.scan [] tokens

theorem program_sound {lines acc : List ParsedLine} {tokens : List Token}
    (parsed : programScanner.scan acc tokens = some lines) :
    ∃ others, lines = acc ++ others ∧ Grammar.Program tokens others := by
  induction acc, tokens using programScanner.induct with
  | @more acc tokens next rest came ih =>
      rw [Scanner.scan_of_more came] at parsed
      rcases ih parsed with ⟨others, rfl, derives⟩
      change programRound _ _ = _ at came
      unfold programRound at came
      split at came
      case isTrue => cases came
      case isFalse =>
        split at came
        case h_1 line _ first =>
          cases came
          rcases parseLine_sound first with ⟨taken, rfl, derivesFirst⟩
          refine ⟨line :: others, ?_, derives.cons derivesFirst⟩
          rw [List.append_assoc]
          rfl
        case h_2 => cases came
  | done came =>
      rw [Scanner.scan_of_done came] at parsed
      subst parsed
      change programRound _ _ = _ at came
      unfold programRound at came
      split at came
      case isTrue none =>
        cases came
        subst none
        exact ⟨[], (List.append_nil _).symm, .empty⟩
      case isFalse =>
        split at came
        case h_1 => cases came
        case h_2 => cases came

theorem parseLabel_complete {tokens rest : List Token} {label : LabelName} {c : Byte}
    (derives : Grammar.Label tokens label) (noDot : c ≠ 46) :
    parseLabel (tokens ++ .char c :: rest) = some (label, .char c :: rest) := by
  cases derives with
  | primSub => rfl
  | subOnly => rfl
  | primOnly prim =>
      change parseLabel (.label prim :: .char c :: rest) = _
      unfold parseLabel
      split
      case h_1 same =>
        cases same
        exact absurd rfl noDot
      case h_2 same => cases same
      case h_3 same =>
        cases same
        rfl
      case h_4 other => exact absurd rfl (other prim _)

theorem parseParam_complete {tokens rest : List Token} {param : ParsedParam} {c : Byte}
    (derives : Grammar.Param tokens param) (noDot : c ≠ 46) :
    parseParam (tokens ++ .char c :: rest) = some (param, .char c :: rest) := by
  cases derives with
  | integer => rfl
  | float => rfl
  | string => rfl
  | labelLoc label => simp [parseParam, parseLabel_complete label noDot]
  | labelOff label => simp [parseParam, parseLabel_complete label noDot]

/-- The parameters before a comma are read one by one. -/
theorem scan_params1 {tokens rest : List Token} {acc params : List ParsedParam}
    (derives : Grammar.Params1 tokens params) :
    params1Scanner.scan acc (tokens ++ Grammar.comma :: rest) =
      params1Scanner.scan (acc ++ params) rest := by
  induction derives generalizing acc rest with
  | param derives =>
      apply Scanner.scan_of_more
      change params1Round _ _ = _
      rw [params1Round, parseParam_complete derives (by decide)]
      rfl
  | append _ derives ih =>
      rw [List.append_assoc, List.cons_append, ih, ← List.append_assoc]
      apply Scanner.scan_of_more
      change params1Round _ _ = _
      rw [params1Round, parseParam_complete derives (by decide)]
      rfl

/-- The last parameter ends with the line. -/
theorem scan_params1_last {tokens rest : List Token} {acc params : List ParsedParam}
    (derives : Grammar.Params1 tokens params) :
    params1Scanner.scan acc (tokens ++ Grammar.newline :: rest) =
      some (acc ++ params, Grammar.newline :: rest) := by
  have ends : ∀ {acc : List ParsedParam} {last : List Token} {param : ParsedParam},
      Grammar.Param last param → params1Scanner.scan acc (last ++ Grammar.newline :: rest) =
        some (acc ++ [param], Grammar.newline :: rest) := by
    intro acc last param derives
    apply Scanner.scan_of_done
    change params1Round _ _ = _
    rw [params1Round, parseParam_complete derives (by decide)]
    rfl
  cases derives with
  | param derives => exact ends derives
  | append before derives =>
      rw [List.append_assoc, List.cons_append, scan_params1 before, ends derives, List.append_assoc]

/-- A parameter does not begin with a newline. -/
theorem Grammar.Params1.ne_newline {tokens rest left : List Token} {params : List ParsedParam}
    (derives : Grammar.Params1 tokens params) : tokens ++ rest ≠ Grammar.newline :: left := by
  induction derives generalizing rest with
  | param derives =>
      intro same
      cases derives with
      | integer => cases same
      | float => cases same
      | string => cases same
      | labelLoc => cases same
      | labelOff => cases same
  | append _ _ ih =>
      rw [List.append_assoc]
      exact ih

theorem parseParams_complete {tokens rest : List Token} {params : List ParsedParam}
    (derives : Grammar.Params tokens params) :
    parseParams (tokens ++ Grammar.newline :: rest) =
      some (params, Grammar.newline :: rest) := by
  cases derives with
  | empty => rfl
  | params1 derives =>
      unfold parseParams
      split
      case h_1 same => exact absurd same derives.ne_newline
      case h_2 => exact scan_params1_last derives

/-- What comes after the label of a line. -/
theorem parseLabeldef_complete {tokens rest : List Token} {labeldef : LabelDef}
    (derives : Grammar.Labeldef tokens labeldef)
    (follows : (∃ left, rest = Grammar.newline :: left) ∨
      ∃ instruction left, rest = .inst instruction :: left) :
    parseLabeldef (tokens ++ rest) = (labeldef, rest) := by
  cases derives with
  | empty =>
      rcases follows with ⟨left, rfl⟩ | ⟨instruction, left, rfl⟩
      · rfl
      · rfl
  | primOnly => rfl
  | subOnly => rfl

theorem parseLine_complete {tokens rest : List Token} {line : ParsedLine}
    (derives : Grammar.Line tokens line) : parseLine (tokens ++ rest) = some (line, rest) := by
  cases derives with
  | labeldef defines =>
      have label := parseLabeldef_complete defines (Or.inl ⟨rest, rfl⟩)
      rw [List.append_assoc]
      change parseLine (_ ++ Grammar.newline :: rest) = _
      rw [parseLine, label]
      rfl
  | @inst firsts lasts labeldef params instruction defines derives =>
      have label := parseLabeldef_complete defines
        (Or.inr ⟨instruction, lasts ++ Grammar.newline :: rest, rfl⟩)
      have listed : parseParams (lasts ++ Grammar.newline :: rest) =
          some (params, Grammar.newline :: rest) := parseParams_complete derives
      rw [List.append_assoc, List.cons_append, List.append_assoc]
      change parseLine (_ ++ .inst instruction :: (lasts ++ Grammar.newline :: rest)) = _
      rw [parseLine, label]
      simp only [listed]

/-- The lines are read one by one. -/
theorem scan_program {tokens rest : List Token} {acc lines : List ParsedLine}
    (derives : Grammar.Program tokens lines) :
    programScanner.scan acc (tokens ++ rest) = programScanner.scan (acc ++ lines) rest := by
  induction derives generalizing acc rest with
  | empty => rw [List.nil_append, List.append_nil]
  | line _ derives ih =>
      rw [List.append_assoc, ih, ← List.append_assoc]
      apply Scanner.scan_of_more
      change programRound _ _ = _
      rw [programRound, if_neg (by simp [derives.ne_nil]), parseLine_complete derives]

/-- `yyparse` accepts what the grammar derives, and with the same lines. -/
theorem yyparse_eq_some_iff {tokens : List Token} {lines : List ParsedLine} :
    yyparse tokens = some lines ↔ Grammar.Program tokens lines := by
  constructor
  · intro parsed
    rcases program_sound parsed with ⟨others, rfl, derives⟩
    exact derives
  · intro derives
    have read : programScanner.scan [] (tokens ++ []) = programScanner.scan ([] ++ lines) [] :=
      scan_program derives
    rw [List.append_nil, List.nil_append] at read
    rw [yyparse, read]
    exact Scanner.scan_of_done rfl

/-- A text is derived in one way only. -/
theorem Grammar.Program.unique {tokens : List Token} {first second : List ParsedLine}
    (derivesFirst : Grammar.Program tokens first) (derivesSecond : Grammar.Program tokens second) :
    first = second :=
  Option.some.inj ((yyparse_eq_some_iff.mpr derivesFirst).symm.trans
    (yyparse_eq_some_iff.mpr derivesSecond))

end Parsing

end Dang
