import LiveRecords.Proofs.Evaluation.Tasks

/-! # Arithmetic is exact

An amount is an integer constant, a field that holds an integer, or a built-in function of two
amounts. Beside the evaluation of its formula stands its exact value, with the integers that come up
on the way there in order. As long as these have 64 bits, evaluation answers with the exact value;
the first one that has not makes it fail, in the function that it comes up in.
-/

namespace LiveRecords

inductive Builtin where
  | sum
  | difference
  | product
  | interest
deriving DecidableEq

namespace Builtin

def name : Builtin → String
  | sum => "sum"
  | difference => "difference"
  | product => "product"
  | interest => "interest"

def formula : Builtin → List Operand → Formula
  | sum => .sum
  | difference => .difference
  | product => .product
  | interest => .interest

def exact : Builtin → Int → Int → Int
  | sum, x, y => x + y
  | difference, x, y => x - y
  | product, x, y => x * y
  | interest, x, y => x + x * y

/-- The integers that come up, the result being the last one. -/
def steps : Builtin → Int → Int → List Int
  | interest, x, y => [x * y, x + x * y]
  | f, x, y => [f.exact x y]

end Builtin

inductive Amount where
  | constant (n : Int64)
  | field (l : Label)
  | apply (f : Builtin) (a b : Amount)

namespace Amount

def operand : Amount → Operand
  | constant n => .constant (.int n)
  | field l => .here l
  | apply f a b => .nested (f.formula [a.operand, b.operand])

/-- The labels of the fields that are mentioned. -/
def labels : Amount → List Label
  | constant _ => []
  | field l => [l]
  | apply _ a b => a.labels ++ b.labels

variable (fields : Label → Int64)

def exact : Amount → Int
  | constant n => n.toInt
  | field l => (fields l).toInt
  | apply f a b => f.exact a.exact b.exact

/-- The integers that come up, each with the function it comes up in: those of the first operand,
those of the second one, those of the function itself. -/
def steps : Amount → List (Builtin × Int)
  | constant _ => []
  | field _ => []
  | apply f a b => a.steps ++ b.steps ++ (f.steps (a.exact fields) (b.exact fields)).map (f, ·)

end Amount

/-- The integers of 64 bits. -/
def InRange (z : Int) : Prop := -2 ^ 63 ≤ z ∧ z < 2 ^ 63

theorem Checked.fits_iff {z : Int} : fits z = true ↔ InRange z := by
  have hlow : Int64.minValue.toInt = -2 ^ 63 := by decide
  have hhigh : Int64.maxValue.toInt = 2 ^ 63 - 1 := by decide
  rw [fits, hlow, hhigh, Bool.and_eq_true, decide_eq_true_eq, decide_eq_true_eq, InRange]
  omega

/-- The first integer that comes up and has more than 64 bits. -/
def firstOverflow (steps : List (Builtin × Int)) : Option (Builtin × Int) :=
  steps.find? fun e => !Checked.fits e.2

section Overflow

variable {before steps : List (Builtin × Int)} {e : Builtin × Int}

theorem firstOverflow_append :
    firstOverflow (before ++ steps) = (firstOverflow before).or (firstOverflow steps) :=
  List.find?_append

theorem firstOverflow_eq_none_iff : firstOverflow steps = none ↔ ∀ e ∈ steps, InRange e.2 := by
  simp [firstOverflow, Checked.fits_iff]

theorem firstOverflow_eq_some_iff :
    firstOverflow steps = some e ↔
      ¬ InRange e.2 ∧ ∃ before after, steps = before ++ e :: after ∧ ∀ d ∈ before, InRange d.2 := by
  simp [firstOverflow, List.find?_eq_some_iff_append, ← Checked.fits_iff]

theorem fst_of_firstOverflow {f : Builtin} {zs : List Int}
    (h : firstOverflow (zs.map (f, ·)) = some e) : e.1 = f := by
  obtain ⟨z, -, rfl⟩ := List.mem_map.mp (List.mem_of_find?_eq_some h)
  rfl

end Overflow

section Functions

/-- What a function does to two values. -/
def Builtin.onValues : Builtin → Value → Value → Except Failure Value
  | sum => Value.add
  | difference => Value.sub
  | product => Value.mul
  | interest => fun a r => a.mul r >>= a.add

theorem Builtin.formula_eq (f : Builtin) (operands : List Operand) :
    f.formula operands = .mk f.name (.binary f.name f.onValues) operands := by
  cases f <;> rfl

theorem Value.ofChecked_ofInt? (z : Int) :
    ofChecked (Checked.ofInt? z) =
      if Checked.fits z then .ok (.int (.ofInt z)) else .error { reason := .overflow } := by
  unfold Checked.ofInt?
  split <;> rfl

theorem Builtin.onValues_ints (f : Builtin) (m n : Int64) :
    f.onValues (.int m) (.int n) =
      match firstOverflow ((f.steps m.toInt n.toInt).map (f, ·)) with
      | none => .ok (.int (.ofInt (f.exact m.toInt n.toInt)))
      | some _ => .error { reason := .overflow } := by
  cases f with
  | sum =>
    rw [onValues, Value.add, Checked.add?, Value.ofChecked_ofInt?]
    cases h : Checked.fits (m.toInt + n.toInt) <;> simp [steps, exact, firstOverflow, h]
  | difference =>
    rw [onValues, Value.sub, Checked.sub?, Value.ofChecked_ofInt?]
    cases h : Checked.fits (m.toInt - n.toInt) <;> simp [steps, exact, firstOverflow, h]
  | product =>
    rw [onValues, Value.mul, Checked.mul?, Value.ofChecked_ofInt?]
    cases h : Checked.fits (m.toInt * n.toInt) <;> simp [steps, exact, firstOverflow, h]
  | interest =>
    have hdo : interest.onValues (.int m) (.int n) =
        Value.ofChecked (Checked.mul? m n) >>= (Value.int m).add := rfl
    rw [hdo, Checked.mul?, Value.ofChecked_ofInt?]
    cases hmul : Checked.fits (m.toInt * n.toInt) with
    | false => simp [steps, firstOverflow, hmul, bind, Except.bind]
    | true =>
      simp only [if_true, bind, Except.bind]
      rw [Value.add, Checked.add?, Checked.toInt_ofInt hmul, Value.ofChecked_ofInt?]
      cases h : Checked.fits (m.toInt + m.toInt * n.toInt) <;>
        simp [steps, exact, firstOverflow, hmul, h]

end Functions

theorem Builtin.inRange_exact {f : Builtin} {x y : Int}
    (h : ∀ z ∈ f.steps x y, InRange z) : InRange (f.exact x y) := by
  cases f <;> exact h _ (by simp [steps, exact])

/-- What an amount comes to: its exact value, or the first overflow, blamed on its function. -/
def Amount.outcome {ς : Type} (fields : Label → Int64) (a : Amount) (σ : ς) :
    EStateM.Result Fault ς Value :=
  match firstOverflow (a.steps fields) with
  | none => .ok (.int (.ofInt (a.exact fields))) σ
  | some e => .error (.failed ⟨e.1.name, .overflow⟩) σ

section Evaluation

variable {s : Space} {id : RecordId} {fields : Label → Int64} {read : Reader} {σ : Session}

/-- Constants and fields have 64 bits, and what a function comes to is the last of its steps. -/
theorem Amount.inRange_exact {a : Amount} (h : firstOverflow (a.steps fields) = none) :
    InRange (a.exact fields) := by
  cases a with
  | constant n => exact Checked.fits_iff.mp (Checked.fits_toInt n)
  | field l => exact Checked.fits_iff.mp (Checked.fits_toInt (fields l))
  | apply f a b =>
    refine Builtin.inRange_exact fun z hz => firstOverflow_eq_none_iff.mp h (f, z) ?_
    exact List.mem_append_right _ (List.mem_map_of_mem hz)

theorem Amount.toInt_ofInt_exact {a : Amount} (h : firstOverflow (a.steps fields) = none) :
    (Int64.ofInt (a.exact fields)).toInt = a.exact fields :=
  Checked.toInt_ofInt (Checked.fits_iff.mpr (Amount.inRange_exact h))

theorem Formula.eval_of_fault {name : String} {apply : Function} {operands : List Operand}
    {e : Fault}
    (h : Operand.evalAll read operands { σ with targets := id :: σ.targets } =
      .error e { σ with targets := id :: σ.targets }) :
    (Formula.mk name apply operands).eval read id σ = .error e σ := by
  rw [Formula.eval, Eval.onTarget_run, Eval.andThen, bind_of_error h]
  rfl

/-- Of the operands the first one that overflows decides. If none does, both come to their exact
values, of which the function makes the rest. -/
theorem Builtin.eval_formula {a b : Amount} (f : Builtin)
    (ha : a.operand.eval read { σ with targets := id :: σ.targets } =
      a.outcome fields { σ with targets := id :: σ.targets })
    (hb : b.operand.eval read { σ with targets := id :: σ.targets } =
      b.outcome fields { σ with targets := id :: σ.targets }) :
    (f.formula [a.operand, b.operand]).eval read id σ = (Amount.apply f a b).outcome fields σ := by
  rw [Amount.outcome] at ha hb
  rw [Builtin.formula_eq, Amount.outcome, Amount.steps, firstOverflow_append, firstOverflow_append]
  cases hfa : firstOverflow (a.steps fields) with
  | some e =>
    rw [hfa] at ha
    exact Formula.eval_of_fault (bind_of_error ha)
  | none =>
    rw [hfa] at ha
    cases hfb : firstOverflow (b.steps fields) with
    | some e =>
      rw [hfb] at hb
      have hrest : Operand.evalAll read [b.operand] { σ with targets := id :: σ.targets } =
          .error (.failed ⟨e.1.name, .overflow⟩) { σ with targets := id :: σ.targets } :=
        bind_of_error hb
      exact Formula.eval_of_fault ((bind_of_ok ha).trans (bind_of_error hrest))
    | none =>
      rw [hfb] at hb
      rw [Formula.eval_of_operands (Operand.evalAll_pair ha hb), Function.binary,
        Builtin.onValues_ints, Amount.toInt_ofInt_exact hfa, Amount.toInt_ofInt_exact hfb,
        Option.none_or, Option.none_or]
      cases hf : firstOverflow ((f.steps (a.exact fields) (b.exact fields)).map (f, ·)) with
      | none => rfl
      | some e =>
        obtain ⟨g, z⟩ := e
        obtain rfl : g = f := fst_of_firstOverflow hf
        rfl

theorem Amount.eval_operand {a : Amount} {targets : List RecordId}
    (hread : ∀ l ∈ a.labels, ∀ τ : Session, τ.space = s →
      read id (.label l) τ = .ok (.int (fields l)) τ)
    (hσ : σ.space = s) (ht : σ.targets = id :: targets) :
    a.operand.eval read σ = a.outcome fields σ := by
  have htarget : Eval.target σ = .ok id σ := by rw [Eval.target_run, ht]
  induction a generalizing σ targets with
  | constant n =>
    rw [outcome, exact, Int64.ofInt_toInt]
    rfl
  | field l =>
    rw [outcome, exact, Int64.ofInt_toInt, operand, Operand.eval, bind_of_ok htarget]
    exact hread l (List.mem_singleton_self l) σ hσ
  | apply f a b iha ihb =>
    rw [operand, Operand.eval, bind_of_ok htarget]
    exact f.eval_formula (iha (fun l hl => hread l (List.mem_append_left _ hl)) hσ rfl rfl)
      (ihb (fun l hl => hread l (List.mem_append_right _ hl)) hσ rfl rfl)

/-- A formula of amounts, evaluated for a record, comes to what the amount does. -/
theorem RecordId.evaluate_builtin {a b : Amount} (f : Builtin)
    (h : ∀ l ∈ (Amount.apply f a b).labels, s.Carries id l (.int (fields l))) :
    id.evaluate (f.formula [a.operand, b.operand]) s = (Amount.apply f a b).outcome fields s := by
  let limit := (s.record id).maxDepth
  have hread : ∀ l ∈ (Amount.apply f a b).labels, ∀ τ : Session, τ.space = s →
      readWithin limit limit id (.label l) τ = .ok (.int (fields l)) τ := by
    rintro l hl τ rfl
    obtain ⟨k, hk⟩ := h l hl
    exact readWithin_plain hk rfl
  let τ : Session := { space := s, targets := [id] }
  have ha : a.operand.eval (readWithin limit limit) τ = a.outcome fields τ :=
    Amount.eval_operand (fun l hl => hread l (List.mem_append_left _ hl)) rfl rfl
  have hb : b.operand.eval (readWithin limit limit) τ = b.outcome fields τ :=
    Amount.eval_operand (fun l hl => hread l (List.mem_append_right _ hl)) rfl rfl
  have heval := f.eval_formula (σ := { space := s }) ha hb
  have hrun : id.evaluate (f.formula [a.operand, b.operand]) s =
      Eval.run ((f.formula [a.operand, b.operand]).eval (readWithin limit limit) id) s := rfl
  rw [hrun, Eval.run, heval, Amount.outcome, Amount.outcome]
  cases firstOverflow ((Amount.apply f a b).steps fields) <;> rfl

end Evaluation

/-- A built-in formula of two amounts, whose fields hold integers, is evaluated to an integer if and
only if every integer that comes up has 64 bits, and the integer is then the exact value. Otherwise
evaluation fails with an integer overflow, in the function that the first one to have more comes up
in. The space stays as it is. -/
theorem Space.arithmetic_exact {s : Space} {id : RecordId} {fields : Label → Int64} {f : Builtin}
    {a b : Amount} (h : ∀ l ∈ (Amount.apply f a b).labels, s.Carries id l (.int (fields l))) :
    let steps := (Amount.apply f a b).steps fields
    let result := id.evaluate (f.formula [a.operand, b.operand]) s
    ((∃ z t, result = .ok (.int z) t) ↔ ∀ e ∈ steps, InRange e.2) ∧
    (∀ z t, result = .ok (.int z) t → z.toInt = (Amount.apply f a b).exact fields ∧ t = s) ∧
    ((¬ ∀ e ∈ steps, InRange e.2) → ∃ before e after, steps = before ++ e :: after ∧
      (∀ d ∈ before, InRange d.2) ∧ ¬ InRange e.2 ∧ ∃ failure : Failure,
        failure.function = e.1.name ∧ failure.reason.text = "integer overflow" ∧
        result = .error (.failed failure) s) := by
  intro steps result
  have hresult : result = (Amount.apply f a b).outcome fields s := RecordId.evaluate_builtin f h
  rw [Amount.outcome] at hresult
  rw [hresult]
  cases hfirst : firstOverflow steps with
  | none =>
    have hall := firstOverflow_eq_none_iff.mp hfirst
    refine ⟨⟨fun _ => hall, fun _ => ⟨_, _, rfl⟩⟩, ?_, fun hn => absurd hall hn⟩
    rintro z t hz
    cases hz
    exact ⟨Amount.toInt_ofInt_exact hfirst, rfl⟩
  | some e =>
    obtain ⟨he, before, after, hsplit, hbefore⟩ := firstOverflow_eq_some_iff.mp hfirst
    have hmem : e ∈ steps := hsplit ▸ List.mem_append_right _ List.mem_cons_self
    refine ⟨⟨nofun, fun hall => absurd (hall e hmem) he⟩, nofun, fun _ => ?_⟩
    exact ⟨before, e, after, hsplit, hbefore, he, _, rfl, rfl, rfl⟩

/-- A record with a balance. -/
def account (balance : Int64) : List Operation :=
  [.newRecord none 4, .record ⟨1⟩ (.add (.name "balance") (.int balance))]

/-- A formula with two functions that can overflow before its own does. -/
def Formula.growing : Formula :=
  .sum [.nested (.interest [.here (.name "balance"), .constant (.int 2)]),
    .nested (.product [.here (.name "balance"), .here (.name "balance")])]

/-- With a balance of 3 nothing overflows. With a balance of `2 ^ 62` each function would, and it is
the interest that is blamed. -/
theorem arithmetic_exact_growing :
    (∃ z t, RecordId.evaluate ⟨1⟩ .growing (Space.after (account 3)) = .ok (.int z) t ∧
      z.toInt = 18) ∧
    ∃ failure : Failure,
      failure.function = "interest" ∧ failure.reason.text = "integer overflow" ∧
      RecordId.evaluate ⟨1⟩ .growing (Space.after (account (2 ^ 62))) =
        .error (.failed failure) (Space.after (account (2 ^ 62))) := by
  let balance : Amount := .field (.name "balance")
  let grown : Amount := .apply .interest balance (.constant 2)
  let squared : Amount := .apply .product balance balance
  have hlabels : ∀ l ∈ (Amount.apply .sum grown squared).labels, l = .name "balance" := by decide
  have hsmall : ∀ l ∈ (Amount.apply .sum grown squared).labels,
      (Space.after (account 3)).Carries ⟨1⟩ l (.int 3) := by
    intro l hl
    obtain rfl := hlabels l hl
    exact ⟨⟨1⟩, by decide +kernel⟩
  have hlarge : ∀ l ∈ (Amount.apply .sum grown squared).labels,
      (Space.after (account (2 ^ 62))).Carries ⟨1⟩ l (.int (2 ^ 62)) := by
    intro l hl
    obtain rfl := hlabels l hl
    exact ⟨⟨1⟩, by decide +kernel⟩
  constructor
  · obtain ⟨hok, hexact, -⟩ := Space.arithmetic_exact hsmall
    obtain ⟨z, t, hz⟩ := hok.mpr (by unfold InRange; decide +kernel)
    exact ⟨z, t, hz, (hexact z t hz).1.trans (by decide +kernel)⟩
  · obtain ⟨-, -, hfails⟩ := Space.arithmetic_exact hlarge
    obtain ⟨before, e, after, hsplit, hbefore, -, failure, hfunction, htext, hresult⟩ :=
      hfails (by unfold InRange; decide +kernel)
    have hhead : ((Amount.apply .sum grown squared).steps fun _ => 2 ^ 62).head? =
        some (.interest, 2 ^ 63) := by decide +kernel
    rw [hsplit] at hhead
    refine ⟨failure, ?_, htext, hresult⟩
    cases before with
    | nil => rw [hfunction, Option.some.inj hhead, Builtin.name]
    | cons d before =>
      have hd := hbefore d List.mem_cons_self
      rw [Option.some.inj hhead] at hd
      exact absurd hd.2 (Int.lt_irrefl _)

end LiveRecords
