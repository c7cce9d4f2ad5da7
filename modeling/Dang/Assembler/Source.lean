import Dang.Bytecode.Instruction
import Mathlib.Data.List.Induction
import Mathlib.Data.Nat.Digits.Defs

/-!
# Source programs of the assembler

The grammar of `assembler.y` with the values that `ass_lex` gives to its tokens,
and the lines, parameters and labels that parsing leaves behind. A literal keeps
the digits it is spelled with, since `ass_lex` does not give every integer the
value it is written as.
-/

namespace Dang

/-- `isalpha` in the C locale. -/
def isalpha (byte : Byte) : Prop := (65 ≤ byte ∧ byte ≤ 90) ∨ (97 ≤ byte ∧ byte ≤ 122)

/-- `isalnum` in the C locale. -/
def isalnum (byte : Byte) : Prop := isalpha byte ∨ (48 ≤ byte ∧ byte ≤ 57)

instance (byte : Byte) : Decidable (isalpha byte) := inferInstanceAs (Decidable (_ ∨ _))
instance (byte : Byte) : Decidable (isalnum byte) := inferInstanceAs (Decidable (_ ∨ _))

/-- What `read_identifier` reads after a letter: the text of a `LABEL` token. -/
structure Name where
  first : Byte
  rest : Bytes
  first_isalpha : isalpha first
  rest_isalnum : ∀ byte ∈ rest, byte = 95 ∨ isalnum byte

/-- The bytes of a name. -/
def Name.text (name : Name) : Bytes := name.first :: name.rest

/-- The spelling of an `INTEGER` token. `read_hex_value` and `read_octal_value` read at most
63 digits, and a literal that goes on is two tokens. -/
inductive Number
  | decimal (digits : List (Fin 10))
  | hexadecimal (digits : List (Fin 16)) (short : digits.length ≤ 63)
  | octal (digits : List (Fin 8)) (short : digits.length ≤ 63)
  | character (code : Byte)

namespace Number

/-- The number that digits are written for, the most significant digit first. -/
def ofSpelled {base : ℕ} (digits : List (Fin base)) : ℕ :=
  Nat.ofDigits base (digits.reverse.map Fin.val)

/-- The integer written in the source. -/
def written : Number → ℕ
  | .decimal digits => ofSpelled digits
  | .hexadecimal digits _ => ofSpelled digits
  | .octal digits _ => ofSpelled digits
  | .character code => code.val

/-- `strtol`, which answers `LONG_MAX` for a number that is too large, and the conversion
of its result to the `int` that is returned. -/
def strtol {base : ℕ} (digits : List (Fin base)) : BitVec 32 :=
  BitVec.ofNat 32 (min (ofSpelled digits) (2 ^ 63 - 1))

/-- The `yylval.ival` that `ass_lex` leaves. A `char` is signed. -/
def ival : Number → BitVec 64
  | .decimal digits => digits.foldl (fun i digit => 10 * i + BitVec.ofNat 64 digit.val) 0
  | .hexadecimal digits _ => (strtol digits).signExtend 64
  | .octal digits _ => (strtol digits).signExtend 64
  | .character code => (BitVec.ofNat 8 code.val).signExtend 64

/-- Reading a decimal literal wraps around where the number does not fit. -/
theorem ival_decimal (digits : List (Fin 10)) :
    ival (.decimal digits) = BitVec.ofNat 64 (ofSpelled digits) := by
  simp only [ival, ofSpelled]
  induction digits using List.reverseRec with
  | nil => rfl
  | append_singleton digits digit ih =>
      simp only [List.foldl_append, List.foldl_cons, List.foldl_nil, ih, List.reverse_append,
        List.reverse_singleton, List.singleton_append, List.map_cons, Nat.ofDigits_cons]
      have ten : (10 : BitVec 64).toNat = 10 := rfl
      apply BitVec.eq_of_toNat_eq
      simp only [BitVec.toNat_add, BitVec.toNat_mul, BitVec.toNat_ofNat, ten]
      omega

end Number

/-- `label`: the label that a parameter names. -/
inductive LabelName
  | primSub (prim sub : Name)
  | subOnly (sub : Name)
  | primOnly (prim : Name)

/-- `param` -/
inductive SourceParam
  | integer (number : Number)
  | float (bits : BitVec 64)
  | string (text : Bytes)
  | labelLoc (label : LabelName)
  | labelOff (label : LabelName)

/-- `labeldef` -/
inductive LabelDef
  | empty
  | primOnly (prim : Name)
  | subOnly (sub : Name)

/-- `line`: a label, an instruction with its parameters, or both. -/
structure SourceLine where
  labeldef : LabelDef
  inst : Option (Instruction × List SourceParam)

/-- The `m_label` that `get_label` looks up, or adds. Two labels are the same exactly when
these are. -/
def getLabel (prim sub : Option Bytes) : Bytes :=
  prim.getD [] ++ (sub.map (fun text => 46 :: text)).getD []

/-- `param_t` -/
inductive Param
  | integer (value : BitVec 64)
  | float (value : BitVec 64)
  | string (value : Bytes)
  | labelLoc (label : Bytes)
  | labelOff (label : Bytes)
  deriving DecidableEq, Repr

/-- What `get_line` is given. -/
structure Line where
  label : Option Bytes
  instruction : Option Instruction
  params : List Param
  deriving DecidableEq, Repr

/-- `label`, where `last` is `g_last_label_defined`. -/
def LabelName.parse (last : Option Bytes) : LabelName → Bytes
  | .primSub prim sub => getLabel (some prim.text) (some sub.text)
  | .subOnly sub => getLabel last (some sub.text)
  | .primOnly prim => getLabel (some prim.text) none

/-- `param` -/
def SourceParam.parse (last : Option Bytes) : SourceParam → Param
  | .integer number => .integer number.ival
  | .float bits => .float bits
  | .string text => .string text
  | .labelLoc label => .labelLoc (label.parse last)
  | .labelOff label => .labelOff (label.parse last)

/-- `labeldef`: the label, and `g_last_label_defined` afterwards. -/
def LabelDef.parse (last : Option Bytes) : LabelDef → Option Bytes × Option Bytes
  | .empty => (none, last)
  | .primOnly prim => (some (getLabel (some prim.text) none), some (getLabel (some prim.text) none))
  | .subOnly sub => (some (getLabel last (some sub.text)), last)

/-- `line`: its parameters are parsed after its label. -/
def SourceLine.parse (last : Option Bytes) (line : SourceLine) : Line where
  label := (line.labeldef.parse last).1
  instruction := line.inst.map Prod.fst
  params := (line.inst.map fun inst =>
    inst.2.map (SourceParam.parse (line.labeldef.parse last).2)).getD []

/-- `program`: the lines that `yyparse` leaves in `g_lines`. -/
def parse (last : Option Bytes) : List SourceLine → List Line
  | [] => []
  | line :: rest => line.parse last :: parse (line.labeldef.parse last).2 rest

end Dang
