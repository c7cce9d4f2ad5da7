import Dang.Assembler.Simulation

/-!
# Where control gets to

No operand is executed: in every run of assembled bytecode control stays at the first bytes of
lines, in the padding and at the guards. `FRCALL` and signals lead to function references, which are
data; what `FUNLIT` puts there is the position of a line.
-/

namespace Dang

variable {Data : Type} {effects : Effects Data} {source : List SourceLine}
  {output : AssemblerOutput} {functions : Data → Set ℕ}

/-- The function references that the data hold, other than null ones, are made by `FUNLIT` alone,
and `FRCALL` takes one of them. -/
structure MakesFunctions (effects : Effects Data) (functions : Data → Set ℕ) : Prop where
  made : ∀ {instruction operands table before answers after},
    effects instruction operands table before answers after → ∀ position ∈ functions after,
      position ∈ functions before ∨ instruction = .FUNLIT ∧ operands = [.position position]
  taken : ∀ {operands table before answers after},
    effects .FRCALL operands table before answers after → answers.function ∈ functions before

/-- Every function reference in the data leads to a line. -/
def FunctionsLead (source : List SourceLine) (functions : Data → Set ℕ) (data : Data) : Prop :=
  ∀ position ∈ functions data, lineAt source position ≠ none

/-- A step has room for a frame and storage for a symbol table, and the handler of a signal is one
of the function references in the data. -/
def Granted (functions : Data → Set ℕ) (execution : VmContext × Data) (event : VmEvent) : Prop :=
  event.answers.table ≠ 0 ∧ execution.1.HasRoom event.answers ∧
    match event with
    | .instruction _ => True
    | .signal _ handler => handler ∈ functions execution.2

/-- No instruction is fetched from inside a line: a byte of a line that control gets to is the first
one. -/
def IsStart (lines : List Line) (bytecode : Bytes) (counter : ℕ) : Prop :=
  counter < bytecode.length ∧ ∀ entry ∈ place 1 lines, entry.Covers counter →
    counter = entry.position

theorem Accepted.isStart {lines : List Line} {len counter : ℕ}
    (accepted : Accepted lines output len) {next : Option ℕ}
    (approaches : Approaches lines next counter) : IsStart lines output.bytecode counter := by
  refine ⟨?_, ?_⟩
  · rw [accepted.length]
    exact Nat.lt_succ_of_le (accepted.le_of_approaches approaches)
  · intro other mem covers
    have inside := accepted.inside mem
    cases next with
    | none =>
        have zero : counter = 0 := approaches
        have first := covers.1
        omega
    | some index =>
        cases found : (place 1 lines)[index]? with
        | none =>
            have finish := approaches.2
            have start := approaches.1
            have beyond : lines.length ≤ index := by
              rw [← length_place 1 lines]
              exact List.getElem?_eq_none_iff.mp found
            rw [startOf_of_length_le beyond, accepted.startOf_length] at start
            have last := covers.2
            omega
        | some entry =>
            rw [Approaches, positionOf_of_getElem? found] at approaches
            by_cases here : counter = entry.position
            · by_cases empty : entry.length = 0
              · rcases List.getElem_of_mem mem with ⟨k, bound, rfl⟩
                have foundOther := List.getElem?_eq_getElem bound
                rcases Nat.lt_trichotomy k index with before | rfl | after
                · have ends := end_le_startOf foundOther before
                  have starts := startOf_le found
                  have last := covers.2
                  omega
                · rw [Option.some.inj (foundOther.symm.trans found)]
                  exact here
                · have ends := end_le_startOf found after
                  have starts := startOf_le foundOther
                  have first := covers.1
                  omega
              · have both : entry.Covers counter := ⟨by omega, by omega⟩
                rw [covers_unique (pairwise_place 1 lines) mem (List.mem_of_getElem? found) covers
                  both]
                exact here
            · exact absurd covers (not_covers_of_gap found approaches.1 (by omega) other mem)

section Steps

variable {execution target : VmContext × Data} {state : SourceState Data} {event : VmEvent}

/-- A label has the position of a line. -/
theorem lineAt_ne_none_of_labelPosition {key : Bytes} {position : ℕ}
    (named : labelPosition (place 1 (parse none source)) key = some position) :
    lineAt source position ≠ none := by
  intro nowhere
  rw [lineAt, List.findIdx?_eq_none_iff] at nowhere
  rcases Option.map_eq_some_iff.mp named with ⟨entry, found, here⟩
  exact of_decide_eq_false (nowhere entry (List.mem_of_find?_eq_some found)) here

/-- What is called and what handles a signal is a line. -/
theorem FunctionsLead.supplied
    (leads : FunctionsLead source functions execution.2) (makes : MakesFunctions effects functions)
    (granted : Granted functions execution event)
    (step : ProgramStep effects output.bytecode execution event target) :
    Supplied source output.bytecode execution event := by
  rcases granted with ⟨nonzero, room, handles⟩
  refine ⟨nonzero, room, ?_⟩
  cases event with
  | signal answers handler => exact leads handler handles
  | instruction answers =>
      intro fetched
      rcases step with ⟨_, instruction, operands, decoded, does⟩
      rcases Option.some.inj (fetched.symm.trans (fetch_of_decode decoded)) with rfl
      exact leads _ (makes.taken does)

/-- The references that `FUNLIT` makes lead to lines, and no other ones come up. -/
theorem Follows.functionsLead (assembled : Assembled source output)
    (follows : Follows source execution state)
    (leads : FunctionsLead source functions execution.2) (makes : MakesFunctions effects functions)
    (step : ProgramStep effects output.bytecode execution event target) :
    FunctionsLead source functions target.2 := by
  rcases follows with ⟨mirrors, _⟩
  rcases step with ⟨_, does⟩
  cases event with
  | signal answers handler =>
      have same : target.2 = execution.2 := does
      rw [same]
      exact leads
  | instruction answers =>
      rcases does with ⟨instruction, operands, decoded, does⟩
      split at does
      case isTrue =>
        rw [does]
        exact leads
      case isFalse =>
        intro position mem
        rcases makes.made does position mem with kept | ⟨rfl, rfl⟩
        · exact leads position kept
        have fetched := fetch_of_decode decoded
        cases mirrors.fetches assembled with
        | guard atGuard => cases fetched.symm.trans atGuard
        | padding _ _ atPadding => cases fetched.symm.trans atPadding
        | line _ _ read here =>
            rw [here, read.decoded, Except.ok.injEq, Prod.mk.injEq] at decoded
            rcases decoded with ⟨rfl, rfl⟩
            rcases read.fits with ⟨label, rfl⟩
            have written := read.written
            simp only [List.map_cons, List.map_nil, SourceParam.written, List.cons.injEq,
              and_true] at written
            rcases Option.map_eq_some_iff.mp written.symm with ⟨target, named, same⟩
            cases same
            exact lineAt_ne_none_of_labelPosition named

end Steps

section Runs

variable {start : VmContext} {data : Data} {answers : Answers} {flags : Flags32}

/-- In every run of assembled bytecode, control, what it returns to and the function references in
the data stay at the starts of lines; control may also be in the padding before them and at the
guards. -/
theorem control_stays_at_starts (assembled : Assembled source output)
    (nonzero : answers.table ≠ 0) (ample : answers.memory = .ample)
    (enters : (VmContext.init output.bytecodeStart flags).enter answers = .ok start)
    (makes : MakesFunctions effects functions) (initially : FunctionsLead source functions data)
    {steps : List (VmEvent × VmContext × Data)}
    (run : IsRun (ProgramStep effects output.bytecode) (start, data) steps)
    (granted : StepsMeet (Granted functions) (start, data) steps) :
    ∀ execution ∈ visited (start, data) steps,
      IsStart (parse none source) output.bytecode execution.1.counter ∧
      (∀ state ∈ execution.1.states,
        IsStart (parse none source) output.bytecode state.position) ∧
      FunctionsLead source functions execution.2 := by
  have always : ∀ execution ∈ visited (start, data) steps,
      (∃ state, Follows source execution state) ∧ FunctionsLead source functions execution.2 := by
    apply IsRun.forall_visited (ProgramStep effects output.bytecode) (Granted functions)
      (fun execution => (∃ state, Follows source execution state) ∧
        FunctionsLead source functions execution.2)
      ?_ ⟨⟨_, follows_initial assembled nonzero ample enters⟩, initially⟩ run granted
    rintro execution event target ⟨⟨state, follows⟩, leads⟩ meets step
    refine ⟨?_, follows.functionsLead assembled leads makes step⟩
    cases hides : isPadding source execution event with
    | true => exact ⟨state, follows.stutters assembled hides step⟩
    | false =>
        have supplied := leads.supplied makes meets step
        rcases follows.matched assembled supplied hides step with ⟨next, _, followsNext⟩
        exact ⟨next, followsNext⟩
  rcases accepted_of_assemble assembled.accepted with ⟨len, accepted⟩
  intro execution visits
  rcases always execution visits with ⟨⟨state, mirrors, _⟩, leads⟩
  refine ⟨accepted.isStart mirrors.position, ?_, leads⟩
  have returns := mirrors.returns
  generalize state.frames = frames at returns
  generalize execution.1.states = states at returns ⊢
  induction returns with
  | nil => simp
  | cons back _ ih =>
      intro saved mem
      rcases List.mem_cons.mp mem with rfl | later
      · exact accepted.isStart back
      · exact ih saved later

end Runs

section Examples

/-- `fib` -/
def fibName : Name := ⟨102, [105, 98], by decide, by simp [isalnum, isalpha]⟩

/-- The program calls a function by a reference to it. -/
def callSource : List SourceLine :=
  [⟨.primOnly mainName, some (.FUNLIT, [.labelLoc (.primOnly fibName)])⟩,
    ⟨.empty, some (.FRCALL, [])⟩, ⟨.empty, some (.END, [])⟩, ⟨.primOnly fibName, some (.RETURN, [])⟩]

def callOutput : AssemblerOutput :=
  ⟨3, [0, 1, 1, 78, 14, 0, 0, 0, 0, 0, 0, 0, 52, 0, 4, 0]⟩

theorem call_assembled : Assembled callSource callOutput where
  accepted := by decide +kernel
  fits := by
    intro line mem
    simp only [callSource, List.mem_cons, List.not_mem_nil, or_false] at mem
    rcases mem with rfl | rfl | rfl | rfl
    · exact ⟨_, rfl⟩
    · exact rfl
    · exact rfl
    · exact rfl
  small := by decide

/-- The data are function references: one is pushed, and one is popped to be called. -/
def functionEffects : Effects (List ℕ) := fun instruction operands _ before answers after =>
  match instruction with
  | .FUNLIT => ∃ position, operands = [.position position] ∧ after = position :: before
  | .FRCALL => before = answers.function :: after
  | _ => after = before

theorem functionEffects_makes : MakesFunctions functionEffects fun data => {f | f ∈ data} where
  made := by
    intro instruction operands table before answers after does position mem
    unfold functionEffects at does
    split at does
    case h_1 =>
      rcases does with ⟨literal, rfl, rfl⟩
      rcases List.mem_cons.mp mem with rfl | kept
      · exact Or.inr ⟨rfl, rfl⟩
      · exact Or.inl kept
    case h_2 => exact Or.inl (does ▸ List.mem_cons_of_mem _ mem)
    case h_3 => exact Or.inl (does ▸ mem)
  taken := by
    intro operands table before answers after does
    have popped : before = answers.function :: after := does
    rw [popped]
    exact List.mem_cons_self

def callAnswers (table : ℕ) : Answers := { loopAnswers table with function := 14 }

def callStart : VmContext :=
  ((VmContext.init callOutput.bytecodeStart 0).enter (callAnswers 100)).toOption.getD
    (VmContext.init 0 0)

def callLoaded : VmContext :=
  (callStart.advance 0 callOutput.bytecode (callAnswers 101) .FUNLIT).toOption.getD callStart

def callInside : VmContext :=
  (callLoaded.advance 0 callOutput.bytecode (callAnswers 101) .FRCALL).toOption.getD callStart

def callBack : VmContext :=
  (callInside.advance 9 callOutput.bytecode (callAnswers 102) .RETURN).toOption.getD callStart

/-- The reference is pushed and called, and the function returns. -/
def callRun : List (VmEvent × VmContext × List ℕ) :=
  [(.instruction (callAnswers 101), callLoaded, [14]),
    (.instruction (callAnswers 101), callInside, []),
    (.instruction (callAnswers 102), callBack, [])]

theorem call_loads : callStart.advance 0 callOutput.bytecode (callAnswers 101) .FUNLIT =
    .ok callLoaded :=
  Outcome.eq_ok_getD _ (by decide +kernel)

theorem call_enters : callLoaded.advance 0 callOutput.bytecode (callAnswers 101) .FRCALL =
    .ok callInside :=
  Outcome.eq_ok_getD _ (by decide +kernel)

theorem call_returns : callInside.advance 9 callOutput.bytecode (callAnswers 102) .RETURN =
    .ok callBack :=
  Outcome.eq_ok_getD _ (by decide +kernel)

theorem callRun_isRun :
    IsRun (ProgramStep functionEffects callOutput.bytecode) (callStart, []) callRun := by
  refine ⟨⟨⟨fun _ => ?_, .FUNLIT, 0, ?_, by decide, call_loads⟩, .FUNLIT, [.position 14], ?_, 14,
      rfl, rfl⟩,
    ⟨⟨fun _ => ?_, .FRCALL, 0, ?_, by decide, call_enters⟩, .FRCALL, [], ?_, rfl⟩,
    ⟨⟨fun _ => ?_, .RETURN, 9, ?_, by decide, call_returns⟩, .RETURN, [], ?_, rfl⟩, trivial⟩
  all_goals decide +kernel

theorem callRun_granted : StepsMeet (Granted fun data : List ℕ => {f | f ∈ data}) (callStart, [])
    callRun := by
  refine ⟨⟨by decide, ?_, trivial⟩, ⟨by decide, ?_, trivial⟩, ⟨by decide, ?_, trivial⟩, trivial⟩
  all_goals rfl

theorem control_stays_at_starts_call :
    IsRun (ProgramStep functionEffects callOutput.bytecode) (callStart, []) callRun ∧
      ∀ execution ∈ visited (callStart, []) callRun,
        IsStart (parse none callSource) callOutput.bytecode execution.1.counter ∧
        (∀ state ∈ execution.1.states,
          IsStart (parse none callSource) callOutput.bytecode state.position) ∧
        FunctionsLead callSource (fun data : List ℕ => {f | f ∈ data}) execution.2 := by
  have enters : (VmContext.init callOutput.bytecodeStart 0).enter (callAnswers 100) =
      .ok callStart := Outcome.eq_ok_getD _ (by decide +kernel)
  have nothing : FunctionsLead callSource (fun data : List ℕ => {f | f ∈ data}) [] := by
    intro position mem
    cases mem
  exact ⟨callRun_isRun, control_stays_at_starts call_assembled (by decide) rfl enters
    functionEffects_makes nothing callRun_isRun callRun_granted⟩

end Examples

end Dang
