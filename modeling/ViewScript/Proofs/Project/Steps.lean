/-
  ViewScript/Proofs/Project/Steps.lean
  ====================================
  **The two steps of a source.**

  The compilation of a source is two steps.  First it is read and compiled, which leaves the
  disk as it is and depends on nothing but the contents of the source.  Then its code is
  written.
-/
import ViewScript.Proofs.Project.Replacing

namespace ViewScript

/-! ### Steps -/

/-- Read a source and compile it. -/
def prepare (names : RuntimeNames) (root : Path) (outDir : Option Path) (input : Path) :
    ExceptT Error (StateM Machine) (Path × Text) := do
  let output ← ExceptT.mk (pure (outputPath input root outDir))
  let code ← compileFile names input
  return (output, code)

/-- Write the code of a source. -/
def deliver (output : Path) (code : Text) : ExceptT Error (StateM Machine) Compiled := do
  writeOutput output code
  return ⟨output, code.byteSize⟩

/-- To compile a source is to prepare its code and to deliver it. -/
theorem compileOne_eq (names : RuntimeNames) (root : Path) (outDir : Option Path) (input : Path) :
    (compileOne names root outDir input : ExceptT Error (StateM Machine) Compiled) =
      (prepare names root outDir input >>= fun (output, code) => deliver output code) := by
  simp [compileOne, prepare, deliver]

/-! ### What the steps of a source come to -/

/-- The code of a source, with the contents of a disk. -/
def codeOf (names : RuntimeNames) (disk : Disk) (input : Path) : Except Error Text := do
  let bytes ← (disk.readFile input).mapError (.read input)
  compileSource names input (Utf8.decodeLossy bytes)

/-- The code of a source and the path to write it to. -/
def deliveryOf (names : RuntimeNames) (root : Path) (outDir : Option Path) (disk : Disk)
    (input : Path) : Except Error (Path × Text) := do
  let output ← outputPath input root outDir
  let code ← codeOf names disk input
  return (output, code)

section Deliveries

variable {names : RuntimeNames} {root : Path} {outDir : Option Path} {disk : Disk}
  {input output : Path} {code : Text}

theorem outputPath_eq_ok_iff :
    outputPath input root outDir = .ok output ↔
      output = targetPath input root outDir ∧ ¬ (targetPath input root outDir).Same input := by
  unfold outputPath
  dsimp only
  split
  next same => simp [same]
  next other => simp [other, eq_comm]

theorem codeOf_eq_ok_iff :
    codeOf names disk input = .ok code ↔
      ∃ bytes, disk.readFile input = .ok bytes ∧
        compileSource names input (Utf8.decodeLossy bytes) = .ok code := by
  unfold codeOf
  cases disk.readFile input <;> simp [bind, Except.bind, Except.mapError]

theorem deliveryOf_eq_ok_iff :
    deliveryOf names root outDir disk input = .ok (output, code) ↔
      outputPath input root outDir = .ok output ∧ codeOf names disk input = .ok code := by
  unfold deliveryOf
  cases outputPath input root outDir with
  | error error => simp [bind, Except.bind]
  | ok path =>
    cases codeOf names disk input <;> simp [bind, Except.bind, pure, Except.pure]

end Deliveries

section Runs

variable (names : RuntimeNames) (root : Path) (outDir : Option Path) (input : Path)
  (machine : Machine)

theorem run_compileFile :
    (compileFile names input : ExceptT Error (StateM Machine) Text).run machine =
      (codeOf names machine.disk input, machine) := by
  have read : (readSource input : ExceptT Error (StateM Machine) Text).run machine =
      (((machine.disk.readFile input).mapError (.read input)).map Utf8.decodeLossy, machine) := by
    have bytes : (attemptFile (.read input) (Host.readFile input) :
        ExceptT Error (StateM Machine) Bytes).run machine =
          ((machine.disk.readFile input).mapError (.read input), machine) := rfl
    rw [readSource, run_bind, bytes]
    cases machine.disk.readFile input <;> rfl
  rw [compileFile, run_bind, read, codeOf]
  cases machine.disk.readFile input <;> rfl

theorem run_prepare :
    (prepare names root outDir input).run machine =
      (deliveryOf names root outDir machine.disk input, machine) := by
  rw [prepare, run_bind, run_mk_pure, deliveryOf]
  cases outputPath input root outDir with
  | error error => rfl
  | ok output =>
    simp only [run_bind, run_compileFile]
    cases codeOf names machine.disk input <;> rfl

theorem run_deliver {output : Path} {code : Text} {result : Except Error Unit} {after : Machine}
    (wrote : (writeOutput output code : ExceptT Error (StateM Machine) Unit).run machine =
      (result, after)) :
    (deliver output code).run machine =
      (result.map fun _ => ⟨output, code.byteSize⟩, after) := by
  rw [deliver, run_bind, wrote]
  cases result <;> rfl

theorem run_compileEach_cons (inputs : List Path) :
    (compileEach names root outDir (input :: inputs) : StateM Machine (List FileResult)) machine =
      let first := (compileOne names root outDir input :
        ExceptT Error (StateM Machine) Compiled).run machine
      let rest := (compileEach names root outDir inputs :
        StateM Machine (List FileResult)) first.2
      (⟨input, first.1⟩ :: rest.1, rest.2) := rfl

/-- There is a result for every source, in their order. -/
theorem inputs_compileEach (inputs : List Path) :
    ((compileEach names root outDir inputs : StateM Machine (List FileResult)) machine).1.map
      (·.input) = inputs := by
  induction inputs generalizing machine with
  | nil => rfl
  | cons input inputs ih =>
    rw [run_compileEach_cons]
    simp only [List.map_cons, ih]

/-- A source that cannot be delivered changes nothing, and one that can is written. -/
theorem run_compileOne :
    (compileOne names root outDir input : ExceptT Error (StateM Machine) Compiled).run machine =
      match deliveryOf names root outDir machine.disk input with
      | .error error => (.error error, machine)
      | .ok (output, code) =>
        let wrote := (writeOutput output code : ExceptT Error (StateM Machine) Unit).run machine
        (wrote.1.map fun _ => ⟨output, code.byteSize⟩, wrote.2) := by
  rw [compileOne_eq, run_bind, run_prepare]
  cases deliveryOf names root outDir machine.disk input with
  | error error => rfl
  | ok delivery => exact run_deliver machine rfl

end Runs

end ViewScript
