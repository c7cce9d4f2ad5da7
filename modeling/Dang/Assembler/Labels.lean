import Dang.Assembler.Numbers
import Dang.Assembler.Text

/-!
# Labels

What a label means where it is written, and how the assembler resolves it. A label has a primary
name, a name below that, or both. The key that `get_label` makes of the two tells them apart, since
there is no point in a name.
-/

namespace Dang

/-- A label: the primary label, if the name stands below one, and the local name. -/
structure LabelPair where
  prim : Option Name
  sub : Option Name

/-- The key of a label in `g_labels`. -/
def LabelPair.key (pair : LabelPair) : Bytes :=
  getLabel (pair.prim.map Name.text) (pair.sub.map Name.text)

/-- The label that a reference means, below this primary label. -/
def LabelName.pair (primary : Option Name) : LabelName → LabelPair
  | .primSub prim sub => ⟨some prim, some sub⟩
  | .subOnly sub => ⟨primary, some sub⟩
  | .primOnly prim => ⟨some prim, none⟩

/-- The label that is defined, below this primary label. -/
def LabelDef.pair (primary : Option Name) : LabelDef → Option LabelPair
  | .empty => none
  | .primOnly prim => some ⟨some prim, none⟩
  | .subOnly sub => some ⟨primary, some sub⟩

/-- The primary label that a line defines. -/
def ParsedLine.primary (line : ParsedLine) : Option Name :=
  match line.labeldef with
  | .primOnly prim => some prim
  | _ => none

/-- The most recent primary label after these lines, where `primary` is from before them. -/
def lastPrimary (primary : Option Name) (lines : List ParsedLine) : Option Name :=
  lines.foldl (fun primary line => line.primary.or primary) primary

/-- The most recent primary label defined at or above a line. -/
def primaryAt (lines : List ParsedLine) (index : ℕ) : Option Name :=
  lastPrimary none (lines.take (index + 1))

/-- The label that a parameter refers to. -/
def ParsedParam.label : ParsedParam → Option LabelName
  | .labelLoc label | .labelOff label => some label
  | _ => none

/-- The parameters of a line. -/
def ParsedLine.params (line : ParsedLine) : List ParsedParam :=
  (line.inst.map Prod.snd).getD []

/-- A line defines a label. -/
def Defines (lines : List ParsedLine) (index : ℕ) (pair : LabelPair) : Prop :=
  ∃ line, lines[index]? = some line ∧ line.labeldef.pair (primaryAt lines index) = some pair

/-- A parameter of a line refers to a label. -/
def Refers (lines : List ParsedLine) (index place : ℕ) (pair : LabelPair) : Prop :=
  ∃ line param label, lines[index]? = some line ∧ line.params[place]? = some param ∧
    param.label = some label ∧ label.pair (primaryAt lines index) = pair

/-- Some label is referred to and never defined, or some label is defined on two lines. -/
def Unresolvable (lines : List ParsedLine) : Prop :=
  (∃ index place pair, Refers lines index place pair ∧ ∀ other, ¬ Defines lines other pair) ∨
    ∃ first second pair, first ≠ second ∧ Defines lines first pair ∧ Defines lines second pair

section Keys

/-- There is no point in a name. -/
theorem Name.point_notMem (name : Name) : 46 ∉ name.text := by
  intro mem
  rcases List.mem_cons.mp mem with first | later
  · exact absurd (first ▸ name.first_isalpha) (by decide)
  · exact absurd (name.rest_isalnum 46 later) (by decide)

theorem Name.text_injective : Function.Injective Name.text := by
  rintro ⟨first, rest, isFirst, isRest⟩ ⟨first', rest', _, _⟩ same
  cases same
  rfl

theorem Name.text_ne_nil (name : Name) : name.text ≠ [] := List.cons_ne_nil _ _

/-- What stands before the point of a key, and what behind. -/
theorem LabelPair.key_split (pair : LabelPair) :
    (pair.key.takeWhile fun byte => decide (byte ≠ 46)) = (pair.prim.map Name.text).getD [] ∧
      (pair.key.dropWhile fun byte => decide (byte ≠ 46)) =
        (pair.sub.map fun sub => 46 :: sub.text).getD [] := by
  have before : ∀ byte ∈ (pair.prim.map Name.text).getD [], decide (byte ≠ 46) = true := by
    intro byte mem
    cases prim : pair.prim with
    | none => simp [prim] at mem
    | some name =>
        simp only [prim, Option.map_some, Option.getD_some] at mem
        refine decide_eq_true ?_
        rintro rfl
        exact name.point_notMem mem
  have behind : pair.key = (pair.prim.map Name.text).getD [] ++
      (pair.sub.map fun sub => 46 :: sub.text).getD [] := by
    simp only [LabelPair.key, getLabel, Option.map_map]
    rfl
  rw [behind, List.takeWhile_append_of_pos before, List.dropWhile_append_of_pos before]
  cases pair.sub with
  | none => exact ⟨List.append_nil _, rfl⟩
  | some sub => exact ⟨List.append_nil _, rfl⟩

/-- A name is not empty, so that what it is can be seen from its text. -/
theorem Name.text_getD_injective :
    Function.Injective fun name : Option Name => (name.map Name.text).getD [] := by
  intro first second same
  cases first with
  | none =>
      cases second with
      | none => rfl
      | some second => exact absurd same.symm second.text_ne_nil
  | some first =>
      cases second with
      | none => exact absurd same first.text_ne_nil
      | some second => exact congrArg some (Name.text_injective same)

/-- Labels of different names have different keys. -/
theorem LabelPair.key_injective : Function.Injective LabelPair.key := by
  intro first second same
  have prims := first.key_split.1
  have subs := first.key_split.2
  rw [same, second.key_split.1] at prims
  rw [same, second.key_split.2] at subs
  rcases first with ⟨prim, sub⟩
  rcases second with ⟨prim', sub'⟩
  have samePrim : prim' = prim := Name.text_getD_injective prims
  have sameSub : sub' = sub := by
    cases sub with
    | none =>
        cases sub' with
        | none => rfl
        | some sub' => cases subs
    | some sub =>
        cases sub' with
        | none => cases subs
        | some sub' => exact congrArg some (Name.text_injective (List.cons.inj subs).2)
  rw [samePrim, sameSub]

end Keys

section Actions

variable {lines : List ParsedLine} {line : ParsedLine} {primary : Option Name} {index place : ℕ}
  {pair : LabelPair}

/-- The actions keep the key of the most recent primary label in `g_last_label_defined`. -/
theorem LabelDef.parse_primary (line : ParsedLine) :
    (line.labeldef.parse (primary.map Name.text)).2 =
      (line.primary.or primary).map Name.text := by
  rcases line with ⟨labeldef, inst⟩
  cases labeldef with
  | empty => rfl
  | primOnly prim => exact congrArg some (List.append_nil _)
  | subOnly sub => rfl

theorem LabelDef.parse_key (labeldef : LabelDef) :
    (labeldef.parse (primary.map Name.text)).1 = (labeldef.pair primary).map LabelPair.key := by
  cases labeldef with
  | empty => rfl
  | primOnly => rfl
  | subOnly => rfl

theorem LabelName.parse_key (label : LabelName) :
    label.parse (primary.map Name.text) = (label.pair primary).key := by
  cases label with
  | primSub => rfl
  | subOnly => rfl
  | primOnly => rfl

/-- A local label does not change which primary label is the most recent one. -/
theorem LabelDef.pair_or (line : ParsedLine) :
    line.labeldef.pair (line.primary.or primary) = line.labeldef.pair primary := by
  rcases line with ⟨labeldef, inst⟩
  cases labeldef with
  | empty => rfl
  | primOnly => rfl
  | subOnly => rfl

theorem lastPrimary_take_succ (given : lines[index]? = some line) :
    lastPrimary primary (lines.take (index + 1)) =
      line.primary.or (lastPrimary primary (lines.take index)) := by
  rw [List.take_add_one, given]
  simp [lastPrimary]

/-- A line as the actions leave it. -/
theorem getElem?_getLines (primary : Option Name) (given : lines[index]? = some line) :
    (getLines (primary.map Name.text) lines)[index]? =
      some (line.get ((lastPrimary primary (lines.take index)).map Name.text)) := by
  induction lines generalizing primary index with
  | nil => simp at given
  | cons head rest ih =>
      cases index with
      | zero =>
          rw [List.getElem?_cons_zero, Option.some.injEq] at given
          subst given
          rfl
      | succ index =>
          rw [List.getElem?_cons_succ] at given
          simp only [getLines, List.getElem?_cons_succ, List.take_succ_cons,
            LabelDef.parse_primary, ih _ given]
          rfl

theorem length_getLines (last : Option Bytes) (lines : List ParsedLine) :
    (getLines last lines).length = lines.length := by
  induction lines generalizing last with
  | nil => rfl
  | cons line rest ih => rw [getLines, List.length_cons, List.length_cons, ih]

theorem getLines_eq_nil_iff (last : Option Bytes) : getLines last lines = [] ↔ lines = [] := by
  rw [← List.length_eq_zero_iff, length_getLines, List.length_eq_zero_iff]

/-- The key of the label that a line defines. -/
theorem label_of_getLines {parsed : Line} (given : lines[index]? = some line)
    (known : (getLines none lines)[index]? = some parsed) :
    parsed.label = (line.labeldef.pair (primaryAt lines index)).map LabelPair.key := by
  have same := getElem?_getLines none given
  rw [Option.map_none, known, Option.some.injEq] at same
  rw [same, primaryAt, lastPrimary_take_succ given, LabelDef.pair_or, ← LabelDef.parse_key]
  rfl

/-- The keys of the labels that the parameters of a line refer to. -/
theorem params_of_getLines {parsed : Line} (given : lines[index]? = some line)
    (known : (getLines none lines)[index]? = some parsed) :
    parsed.params = line.params.map
      (ParsedParam.get ((primaryAt lines index).map Name.text)) := by
  have same := getElem?_getLines none given
  rw [Option.map_none, known, Option.some.injEq] at same
  rw [same, primaryAt, lastPrimary_take_succ given, ← LabelDef.parse_primary]
  rcases line with ⟨labeldef, inst⟩
  cases inst with
  | none => rfl
  | some inst => rfl

theorem defines_iff : Defines lines index pair ↔
    ∃ parsed, (getLines none lines)[index]? = some parsed ∧ parsed.label = some pair.key := by
  constructor
  · rintro ⟨line, given, defines⟩
    have known := getElem?_getLines none given
    refine ⟨_, known, ?_⟩
    rw [label_of_getLines given known, defines]
    rfl
  · rintro ⟨parsed, known, labelled⟩
    have inside : index < lines.length := by
      rw [← length_getLines none lines]
      exact (List.getElem?_eq_some_iff.mp known).1
    have given := List.getElem?_eq_getElem inside
    refine ⟨lines[index], given, ?_⟩
    rw [label_of_getLines given known] at labelled
    rcases Option.map_eq_some_iff.mp labelled with ⟨other, defines, same⟩
    rw [defines, LabelPair.key_injective same]

/-- The parameter that `param` leaves for a reference. -/
theorem Refers.param (refers : Refers lines index place pair) :
    ∃ parsed param, (getLines none lines)[index]? = some parsed ∧
      parsed.params[place]? = some param ∧ param.label = some pair.key := by
  rcases refers with ⟨line, param, label, given, listed, names, rfl⟩
  have known := getElem?_getLines none given
  refine ⟨_, param.get ((primaryAt lines index).map Name.text), known, ?_, ?_⟩
  · rw [params_of_getLines given known, List.getElem?_map, listed]
    rfl
  · rw [← LabelName.parse_key]
    cases param with
    | integer => cases names
    | float => cases names
    | string => cases names
    | labelLoc => cases names; rfl
    | labelOff => cases names; rfl

theorem key_mem_defined_iff :
    pair.key ∈ defined (getLines none lines) ↔ ∃ index, Defines lines index pair := by
  constructor
  · intro mem
    rcases List.mem_filterMap.mp mem with ⟨parsed, parsedMem, labelled⟩
    rcases List.mem_iff_getElem?.mp parsedMem with ⟨index, known⟩
    exact ⟨index, defines_iff.mpr ⟨parsed, known, labelled⟩⟩
  · rintro ⟨index, defines⟩
    rcases defines_iff.mp defines with ⟨parsed, known, labelled⟩
    exact List.mem_filterMap.mpr ⟨parsed, List.mem_of_getElem? known, labelled⟩

theorem Refers.key_mem (refers : Refers lines index place pair) :
    pair.key ∈ labels (getLines none lines) := by
  rcases refers.param with ⟨parsed, param, known, listed, names⟩
  refine List.mem_flatMap.mpr ⟨parsed, List.mem_of_getElem? known, List.mem_append_right _ ?_⟩
  exact List.mem_filterMap.mpr ⟨param, List.mem_of_getElem? listed, names⟩

/-- The checks of `assemble` fail for labels that cannot be resolved. -/
theorem Unresolvable.not_checked (unresolvable : Unresolvable lines) :
    ¬ ((defined (getLines none lines)).Nodup ∧
      ∀ label ∈ labels (getLines none lines), label ∈ defined (getLines none lines)) := by
  rintro ⟨nodup, resolved⟩
  rcases unresolvable with ⟨index, place, pair, refers, undefined⟩ |
    ⟨first, second, pair, apart, definesFirst, definesSecond⟩
  · rcases key_mem_defined_iff.mp (resolved _ refers.key_mem) with ⟨other, defines⟩
    exact undefined other defines
  · rcases defines_iff.mp definesFirst with ⟨parsed, known, labelled⟩
    rcases defines_iff.mp definesSecond with ⟨parsed', known', labelled'⟩
    rcases List.getElem?_eq_some_iff.mp known with ⟨inside, rfl⟩
    rcases List.getElem?_eq_some_iff.mp known' with ⟨inside', rfl⟩
    rw [defined, List.Nodup, List.pairwise_filterMap] at nodup
    have differ := List.pairwise_iff_getElem.mp nodup
    rcases Nat.lt_or_gt_of_ne apart with before | after
    · exact differ first second inside inside' before _ labelled _ labelled' rfl
    · exact differ second first inside' inside after _ labelled' _ labelled rfl

/-- A reference leads to the one line that defines its label. -/
theorem Refers.resolves (refers : Refers lines index place pair)
    (resolvable : ¬ Unresolvable lines) :
    ∃ other entry, Defines lines other pair ∧
      (∀ another, Defines lines another pair → another = other) ∧
      (Dang.place 1 (getLines none lines))[other]? = some entry ∧
      followLabel (Dang.place 1 (getLines none lines)) pair.key = .ok entry.position := by
  have exists_definition : ∃ other, Defines lines other pair := by
    by_contra none
    exact resolvable (Or.inl ⟨index, place, pair, refers, fun other defines => none ⟨other, defines⟩⟩)
  rcases exists_definition with ⟨other, defines⟩
  have unique : ∀ another, Defines lines another pair → another = other := by
    intro another definesAnother
    by_contra apart
    exact resolvable (Or.inr ⟨another, other, pair, apart, definesAnother, defines⟩)
  rcases defines_iff.mp defines with ⟨parsed, known, labelled⟩
  rcases getElem?_place 1 known with ⟨entry, placed, rfl⟩
  rcases exists_followLabel (List.mem_of_getElem? placed) labelled with
    ⟨first, firstMem, firstLabelled, followed⟩
  rcases List.mem_iff_getElem?.mp firstMem with ⟨another, firstPlaced⟩
  have firstKnown : (getLines none lines)[another]? = some first.line := by
    rw [← map_line_place 1 (getLines none lines), List.getElem?_map, firstPlaced]
    rfl
  have same := unique another (defines_iff.mpr ⟨first.line, firstKnown, firstLabelled⟩)
  rw [same, placed] at firstPlaced
  cases firstPlaced
  exact ⟨other, entry, defines, unique, placed, followed⟩

end Actions

section Texts

variable {unsettled : Unsettled} {text : Bytes} {tokens : List Token} {lines : List ParsedLine}

/-- The text is a program of the grammar, and its strings are terminated. -/
def IsProgram (unsettled : Unsettled) (text : Bytes) (lines : List ParsedLine) : Prop :=
  ∃ tokens, lex unsettled text = .ok tokens ∧ Grammar.Program tokens lines ∧
    .string none ∉ tokens

theorem Grammar.Params1.string_mem {params : List ParsedParam}
    (derives : Grammar.Params1 tokens params) (mem : .string none ∈ params) :
    .string none ∈ tokens := by
  have single : ∀ {taken : List Token} {param : ParsedParam}, Grammar.Param taken param →
      param = .string none → .string none ∈ taken := by
    rintro taken param derives rfl
    cases derives
    exact List.mem_singleton_self _
  induction derives with
  | param derives => exact single derives (List.mem_singleton.mp mem).symm
  | append _ derives ih =>
      rcases List.mem_append.mp mem with before | last
      · exact List.mem_append_left _ (ih before)
      · exact List.mem_append_right _
          (List.mem_cons_of_mem _ (single derives (List.mem_singleton.mp last).symm))

/-- A null pointer among the parameters comes from a token. -/
theorem Grammar.Program.string_mem (derives : Grammar.Program tokens lines) {line : ParsedLine}
    (lineMem : line ∈ lines) (mem : .string none ∈ line.params) : .string none ∈ tokens := by
  induction derives with
  | empty => cases lineMem
  | line _ derives ih =>
      rcases List.mem_append.mp lineMem with before | last
      · exact List.mem_append_left _ (ih before)
      · rw [List.mem_singleton] at last
        subst last
        apply List.mem_append_right
        cases derives with
        | labeldef => cases mem
        | inst instruction _ derives =>
            cases derives with
            | empty => cases mem
            | params1 derives =>
                have taken := derives.string_mem mem
                simp [taken]

theorem IsProgram.terminated (valid : IsProgram unsettled text lines) :
    lines.any ParsedLine.measuresNull = false := by
  rcases valid with ⟨tokens, _, derives, terminated⟩
  rw [List.any_eq_false]
  intro line lineMem null
  refine terminated (derives.string_mem lineMem ?_)
  unfold ParsedLine.measuresNull at null
  split at null
  case h_1 same => simp [ParsedLine.params, same]
  case h_2 same => simp [ParsedLine.params, same]
  case h_3 => cases null

theorem IsProgram.assembleText_eq (valid : IsProgram unsettled text lines) :
    assembleText unsettled text = assemble (getLines none lines) := by
  have measured := valid.terminated
  rcases valid with ⟨tokens, lexed, derives, _⟩
  simp only [assembleText, lexed, Outcome.ok_bind, yyparse_eq_some_iff.mpr derives, measured,
    Bool.false_eq_true, if_false]

/-- Where the checks of the labels fail, no program is returned. -/
theorem assemble_of_not_checked {lines : List Line}
    (failed : ¬ ((defined lines).Nodup ∧ ∀ label ∈ labels lines, label ∈ defined lines)) :
    (∀ output, assemble lines ≠ .ok (some output)) ∧
      (lines ≠ [] → outputSize lines ≤ sizeMax → assemble lines = .ok none) := by
  cases isLast : (Dang.place 1 lines).getLast? with
  | none =>
      have faults : assemble lines = .error .nullPointer := by simp only [assemble, isLast]
      refine ⟨fun output => by rw [faults]; exact fun same => (by cases same), fun nonempty => ?_⟩
      rcases exists_getLast?_place nonempty with ⟨last, found⟩
      cases isLast.symm.trans found
  | some last =>
      simp only [assemble, outputSize, isLast, if_neg failed]
      constructor
      · intro output
        split
        case isTrue => exact fun same => by cases same
        case isFalse => exact fun same => by cases same
      · intro _ fits
        rw [if_neg (Nat.not_lt.mpr fits)]

/-- A program with a label that cannot be resolved is rejected. In any other program each
parameter that refers to a label holds the key of the label that it means where it stands, and
leads to the position of the one line that defines that label. -/
theorem labels_resolve (valid : IsProgram unsettled text lines) :
    (Unresolvable lines →
      (∀ output, assembleText unsettled text ≠ .ok (some output)) ∧
        (outputSize (getLines none lines) ≤ sizeMax → assembleText unsettled text = .ok none)) ∧
    (¬ Unresolvable lines → ∀ index place pair, Refers lines index place pair →
      ∃ parsed param other entry, (getLines none lines)[index]? = some parsed ∧
        parsed.params[place]? = some param ∧ param.label = some pair.key ∧
        Defines lines other pair ∧ (∀ another, Defines lines another pair → another = other) ∧
        (Dang.place 1 (getLines none lines))[other]? = some entry ∧
        followLabel (Dang.place 1 (getLines none lines)) pair.key = .ok entry.position) ∧
    Function.Injective LabelPair.key := by
  refine ⟨?_, ?_, LabelPair.key_injective⟩
  · intro unresolvable
    rw [valid.assembleText_eq]
    have rejected := assemble_of_not_checked unresolvable.not_checked
    refine ⟨rejected.1, rejected.2 ?_⟩
    rw [Ne, getLines_eq_nil_iff]
    rintro rfl
    rcases unresolvable with ⟨_, _, _, ⟨_, _, _, given, _⟩, _⟩ | ⟨_, _, _, _, ⟨_, given, _⟩, _⟩
    · cases given
    · cases given
  · intro resolvable index place pair refers
    rcases refers.param with ⟨parsed, param, known, listed, names⟩
    rcases refers.resolves resolvable with ⟨other, entry, defines, unique, placed, followed⟩
    exact ⟨parsed, param, other, entry, known, listed, names, defines, unique, placed, followed⟩

end Texts

section Sample

/-- The name `x`. -/
def xName : Name := ⟨120, [], by decide, by simp⟩

/-- The lines of `jmp ~x`, without the label. -/
def danglingLines : List ParsedLine := [⟨.empty, some (.JMP, [.labelOff (.primOnly xName)])⟩]

theorem danglingLines_isProgram : IsProgram settled (ascii "jmp ~x\n") danglingLines := by
  have lexed : lex settled (ascii "jmp ~x\n") =
      .ok [.inst .JMP, .char 126, .label xName, .char 10] := rfl
  exact ⟨_, lexed, yyparse_eq_some_iff.mp rfl, by simp⟩

theorem danglingLines_unresolvable : Unresolvable danglingLines := by
  refine Or.inl ⟨0, 0, ⟨some xName, none⟩, ⟨_, _, _, rfl, rfl, rfl, rfl⟩, ?_⟩
  rintro other ⟨line, given, defines⟩
  have only := List.mem_of_getElem? given
  rw [danglingLines, List.mem_singleton] at only
  subst only
  cases defines

/-- The names `y` and `z`. -/
def yName : Name := ⟨121, [], by decide, by simp⟩

def zName : Name := ⟨122, [], by decide, by simp⟩

/-- Two lines with the local label `.y`, each below another label, that jump to themselves. -/
def localText : Bytes := ascii "x: noop\n.y: jmp ~.y\nz: noop\n.y: jmp ~.y\n"

def localLines : List ParsedLine :=
  [⟨.primOnly xName, some (.NOOP, [])⟩, ⟨.subOnly yName, some (.JMP, [.labelOff (.subOnly yName)])⟩,
    ⟨.primOnly zName, some (.NOOP, [])⟩,
    ⟨.subOnly yName, some (.JMP, [.labelOff (.subOnly yName)])⟩]

theorem localLines_isProgram : IsProgram settled localText localLines := by
  have lexed : lex settled localText =
      .ok [.label xName, .char 58, .inst .NOOP, .char 10,
        .char 46, .label yName, .char 58, .inst .JMP, .char 126, .char 46, .label yName, .char 10,
        .label zName, .char 58, .inst .NOOP, .char 10,
        .char 46, .label yName, .char 58, .inst .JMP, .char 126, .char 46, .label yName,
        .char 10] := rfl
  exact ⟨_, lexed, yyparse_eq_some_iff.mp rfl, by simp⟩

/-- Where no line defines the label the text is rejected, and a local label is the one below the
last label before it. -/
theorem labels_resolve_sample :
    assembleText settled (ascii "jmp ~x\n") = .ok none ∧
      ∃ entry, (Dang.place 1 (getLines none localLines))[3]? = some entry ∧
        followLabel (Dang.place 1 (getLines none localLines))
          (LabelPair.key ⟨some zName, some yName⟩) = .ok entry.position := by
  constructor
  · exact ((labels_resolve danglingLines_isProgram).1 danglingLines_unresolvable).2 (by decide)
  · have resolvable : ¬ Unresolvable localLines := by
      intro unresolvable
      exact unresolvable.not_checked (by decide)
    have refers : Refers localLines 3 0 ⟨some zName, some yName⟩ := ⟨_, _, _, rfl, rfl, rfl, rfl⟩
    have defines : Defines localLines 3 ⟨some zName, some yName⟩ := ⟨_, rfl, rfl⟩
    rcases (labels_resolve localLines_isProgram).2.1 resolvable 3 0 _ refers with
      ⟨_, _, other, entry, _, _, _, _, unique, placed, followed⟩
    rw [← unique 3 defines] at placed
    exact ⟨entry, placed, followed⟩

end Sample

end Dang
