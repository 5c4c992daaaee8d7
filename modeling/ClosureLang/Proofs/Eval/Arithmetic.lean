import ClosureLang.Eval.Program

/-!
# Integer arithmetic

Trees of integer literals, unary minus, `+`, `-`, `*` and `/` compute with 64 bits. What they mean
is said here over the integers: every node does its operation exactly, on integers of any size, and
`wrap` then brings the result back into 64 bits.

Main statements: a tree evaluates to its value, or fails at the first division by zero
(`Arithmetic.eval_expr`). Without divisions it does not matter where in the tree results are
wrapped, so the value is the exact value of the whole tree, wrapped once
(`Arithmetic.value_eq_wrap_exact`).
-/

namespace ClosureLang

variable {τ : Type}

/-! ## Trees of arithmetic -/

/-- The operators between integers that are computed exactly and then wrapped. -/
inductive ArithmeticOp where
  | add | sub | mul | div
  deriving DecidableEq, Repr

/-- The operator of the language. -/
def ArithmeticOp.binary : ArithmeticOp → BinaryOp
  | add => .add
  | sub => .sub
  | mul => .mul
  | div => .div

/-- What an operator does with integers of any size. Division cuts the fraction off. -/
def ArithmeticOp.exact : ArithmeticOp → Int → Int → Int
  | add, a, b => a + b
  | sub, a, b => a - b
  | mul, a, b => a * b
  | div, a, b => a.tdiv b

/-- Trees of integer arithmetic. A literal may be negative. -/
inductive Arithmetic where
  | literal (n : Int64)
  | negate (x : Arithmetic)
  | operate (op : ArithmeticOp) (x y : Arithmetic)

/-- The integer that is congruent to `n` modulo `Int64.size`, which is `2 ^ 64`, and fits into 64 bits
with a sign. -/
def wrap (n : Int) : Int := n.bmod Int64.size

namespace Arithmetic

/-- The tree as an expression of the language. -/
def expr : Arithmetic → Expr τ
  | literal n => .int n
  | negate x => .unary .negate x.expr
  | operate op x y => .binary op.binary x.expr y.expr

/-- The value of a tree over integers of any size. -/
def exact : Arithmetic → Int
  | literal n => n.toInt
  | negate x => -x.exact
  | operate op x y => op.exact x.exact y.exact

/-- The value of a tree in which every node wraps: the exact operation on the values of its
operands, brought back into 64 bits. -/
def value : Arithmetic → Int
  | literal n => n.toInt
  | negate x => wrap (-x.value)
  | operate op x y => wrap (op.exact x.value y.value)

/-- The divisions in a tree, each as dividend and divisor, in the order in which they are met: from
left to right, and operands first. -/
def divisions : Arithmetic → List (Arithmetic × Arithmetic)
  | literal _ => []
  | negate x => x.divisions
  | operate op x y => x.divisions ++ y.divisions ++ if op = .div then [(x, y)] else []

/-- The first division in a tree whose divisor is zero. -/
def zeroDivision? (x : Arithmetic) : Option (Arithmetic × Arithmetic) :=
  x.divisions.find? fun d => d.2.value = 0

end Arithmetic

/-! ## Wrapping -/

theorem toInt_ofInt_eq_wrap (n : Int) : (Int64.ofInt n).toInt = wrap n := Int64.toInt_ofInt

theorem wrap_wrap (n : Int) : wrap (wrap n) = wrap n := Int.bmod_bmod

theorem ofInt_wrap (n : Int) : Int64.ofInt (wrap n) = Int64.ofInt n := by
  rw [← Int64.toInt_inj, toInt_ofInt_eq_wrap, toInt_ofInt_eq_wrap, wrap_wrap]

theorem wrap_neg_wrap (n : Int) : wrap (-wrap n) = wrap (-n) := Int.bmod_neg_bmod

/-- Operands may be wrapped before an operation, since its result is wrapped. Division does not have
this, as it looks at the size of its operands. -/
theorem ArithmeticOp.wrap_exact_wrap {op : ArithmeticOp} (hop : op ≠ .div) (a b : Int) :
    wrap (op.exact (wrap a) (wrap b)) = wrap (op.exact a b) := by
  unfold wrap
  cases op with
  | add => simp only [exact, Int.bmod_add_bmod, Int.add_bmod_bmod]
  | sub => simp only [exact, Int.bmod_sub_bmod, Int.sub_bmod_bmod]
  | mul => simp only [exact, Int.bmod_mul_bmod, Int.mul_bmod_bmod]
  | div => exact absurd rfl hop

/-- A word that stands for a wrapped integer is the word of that integer. -/
theorem eq_ofInt {c : Int64} {n : Int} (h : c.toInt = wrap n) : c = Int64.ofInt n := by
  rw [← Int64.toInt_inj, toInt_ofInt_eq_wrap, h]

/-- On integers of 64 bits an operator computes the exact result and wraps it. -/
theorem ArithmeticOp.evalInt_binary (op : ArithmeticOp) {a b : Int64} (h : op = .div → b ≠ 0) :
    (op.binary.evalInt a b : Except EvalError (Value τ)) =
      .ok (.int (Int64.ofInt (op.exact a.toInt b.toInt))) := by
  cases op with
  | add =>
    rw [binary, BinaryOp.evalInt, exact, eq_ofInt (Int64.toInt_add a b)]
  | sub =>
    rw [binary, BinaryOp.evalInt, exact, eq_ofInt (Int64.toInt_sub a b)]
  | mul =>
    rw [binary, BinaryOp.evalInt, exact, eq_ofInt (Int64.toInt_mul a b)]
  | div =>
    rw [binary, BinaryOp.evalInt, if_neg (h rfl), exact, eq_ofInt (Int64.toInt_div a b)]

namespace Arithmetic

/-! ## Values -/

/-- A value fits into 64 bits. -/
theorem toInt_ofInt_value (x : Arithmetic) : (Int64.ofInt x.value).toInt = x.value := by
  cases x with
  | literal n => rw [value, Int64.ofInt_toInt]
  | negate x => rw [value, ofInt_wrap, toInt_ofInt_eq_wrap]
  | operate op x y => rw [value, ofInt_wrap, toInt_ofInt_eq_wrap]

theorem ofInt_value_eq_iff (x : Arithmetic) (n : Int64) :
    Int64.ofInt x.value = n ↔ x.value = n.toInt := by
  rw [← Int64.toInt_inj, toInt_ofInt_value]

/-- **Without divisions the exact value of the whole tree is wrapped once.** -/
theorem value_eq_wrap_exact {x : Arithmetic} (h : x.divisions = []) : x.value = wrap x.exact := by
  induction x with
  | literal n => exact (Int64.toInt_bmod_size n).symm
  | negate x ih => rw [value, exact, ih h, wrap_neg_wrap]
  | operate op x y ihx ihy =>
    rw [divisions, List.append_eq_nil_iff, List.append_eq_nil_iff] at h
    obtain ⟨⟨hx, hy⟩, hop⟩ := h
    have hdiv : op ≠ .div := by
      rintro rfl
      simp at hop
    rw [value, exact, ihx hx, ihy hy, op.wrap_exact_wrap hdiv]

/-! ## The first division by zero -/

theorem zeroDivision?_eq_none_iff {x : Arithmetic} :
    x.zeroDivision? = none ↔ ∀ d ∈ x.divisions, d.2.value ≠ 0 := by
  simp [zeroDivision?]

theorem zeroDivision?_eq_some_iff {x y z : Arithmetic} :
    x.zeroDivision? = some (y, z) ↔ ∃ before after, x.divisions = before ++ (y, z) :: after ∧
      (∀ d ∈ before, d.2.value ≠ 0) ∧ z.value = 0 := by
  rw [zeroDivision?, List.find?_eq_some_iff_append]
  simp only [decide_eq_true_eq, Bool.not_eq_true', decide_eq_false_iff_not]
  constructor
  · rintro ⟨hz, before, after, heq, hbefore⟩
    exact ⟨before, after, heq, hbefore, hz⟩
  · rintro ⟨before, after, heq, hbefore, hz⟩
    exact ⟨hz, before, after, heq, hbefore⟩

/-- The divisions of an operation: those of the left operand, those of the right one, and last its
own if it is a division. -/
theorem zeroDivision?_operate (op : ArithmeticOp) (x y : Arithmetic) :
    (operate op x y).zeroDivision? = (x.zeroDivision?.or y.zeroDivision?).or
      (if op = .div ∧ y.value = 0 then some (x, y) else none) := by
  unfold zeroDivision?
  rw [divisions, List.find?_append, List.find?_append]
  by_cases hop : op = .div
  · by_cases hy : y.value = 0
    · simp [hop, hy]
    · simp [hop, hy]
  · simp [hop]

/-! ## Evaluation -/

/-- What a tree evaluates to: its value, or a failure at the first division by zero. -/
def outcome (x : Arithmetic) : Eval τ (Value τ) :=
  match x.zeroDivision? with
  | none => pure (.int (Int64.ofInt x.value))
  | some d => Eval.exit (.failed (.divisionByZero (Int64.ofInt d.1.value)))

theorem outcome_of_none {x : Arithmetic} (h : x.zeroDivision? = none) :
    (x.outcome : Eval τ (Value τ)) = pure (.int (Int64.ofInt x.value)) := by
  rw [outcome, h]

theorem outcome_of_some {x : Arithmetic} {d : Arithmetic × Arithmetic}
    (h : x.zeroDivision? = some d) :
    (x.outcome : Eval τ (Value τ)) =
      Eval.exit (.failed (.divisionByZero (Int64.ofInt d.1.value))) := by
  rw [outcome, h]

/-- If both operands have values, the operator gives the value of the tree or divides by zero. -/
theorem lift_evalInt {op : ArithmeticOp} {x y : Arithmetic} (hx : x.zeroDivision? = none)
    (hy : y.zeroDivision? = none) :
    (Eval.lift (op.binary.evalInt (Int64.ofInt x.value) (Int64.ofInt y.value)) :
      Eval τ (Value τ)) = (operate op x y).outcome := by
  have hzero := zeroDivision?_operate op x y
  rw [hx, hy, Option.none_or, Option.none_or] at hzero
  have hdivisor : Int64.ofInt y.value = 0 ↔ y.value = 0 := y.ofInt_value_eq_iff 0
  by_cases h : op = .div ∧ y.value = 0
  · rw [if_pos h] at hzero
    obtain ⟨rfl, hy0⟩ := h
    rw [outcome_of_some hzero]
    show Eval.lift (if Int64.ofInt y.value = 0 then _ else _) = _
    rw [if_pos (hdivisor.mpr hy0)]
    rfl
  · rw [if_neg h] at hzero
    have hop : op = .div → Int64.ofInt y.value ≠ 0 := fun hop hy0 => h ⟨hop, hdivisor.mp hy0⟩
    rw [outcome_of_none hzero, op.evalInt_binary hop, toInt_ofInt_value, toInt_ofInt_value, value,
      ofInt_wrap]
    rfl

/-- **A tree evaluates to its value or fails at its first division by zero**, in every scope, and
whatever calls do. -/
theorem eval_expr (call : Caller τ) (scope : ScopeId) (x : Arithmetic) :
    x.expr.eval call scope = x.outcome := by
  induction x with
  | literal n =>
    rw [outcome_of_none rfl, value, Int64.ofInt_toInt]
    rfl
  | negate x ih =>
    rw [expr, Expr.eval, ih]
    cases hx : x.zeroDivision? with
    | some d =>
      rw [outcome_of_some hx, outcome_of_some (x := negate x) hx]
      rfl
    | none =>
      rw [outcome_of_none hx, outcome_of_none (x := negate x) hx, value, ofInt_wrap,
        Int64.ofInt_neg]
      rfl
  | operate op x y ihx ihy =>
    rw [expr, Expr.eval, ihx, ihy]
    have hzero := zeroDivision?_operate op x y
    cases hx : x.zeroDivision? with
    | some d =>
      -- the left operand fails
      rw [hx, Option.some_or, Option.some_or] at hzero
      rw [outcome_of_some hx, outcome_of_some hzero]
      rfl
    | none =>
      cases hy : y.zeroDivision? with
      | some d =>
        -- the right operand fails, after the left one gave its value
        rw [hx, hy, Option.none_or, Option.some_or] at hzero
        rw [outcome_of_none hx, outcome_of_some hy, outcome_of_some hzero]
        rfl
      | none =>
        rw [outcome_of_none hx, outcome_of_none hy]
        exact lift_evalInt hx hy

variable {call : Caller τ} {scope : ScopeId} {s : Machine τ} {x : Arithmetic}

theorem eval_of_none (h : x.zeroDivision? = none) :
    x.expr.eval call scope s = some (.ok (.int (Int64.ofInt x.value)), s) := by
  rw [eval_expr, outcome_of_none h]
  rfl

theorem eval_of_some {d : Arithmetic × Arithmetic} (h : x.zeroDivision? = some d) :
    x.expr.eval call scope s =
      some (.error (.failed (.divisionByZero (Int64.ofInt d.1.value))), s) := by
  rw [eval_expr, outcome_of_some h]
  rfl

/-- A tree gives an integer if no divisor is zero, and then its value. -/
theorem eval_eq_int_iff {n : Int64} :
    x.expr.eval call scope s = some (.ok (.int n), s) ↔
      (∀ d ∈ x.divisions, d.2.value ≠ 0) ∧ n.toInt = x.value := by
  rw [← zeroDivision?_eq_none_iff, eq_comm (a := n.toInt), ← ofInt_value_eq_iff]
  cases h : x.zeroDivision? with
  | none => simp [eval_of_none h]
  | some d => simp [eval_of_some h]

/-- A tree fails with the dividend of the first division by zero. -/
theorem eval_eq_divisionByZero_iff {n : Int64} :
    x.expr.eval call scope s = some (.error (.failed (.divisionByZero n)), s) ↔
      ∃ before y z after, x.divisions = before ++ (y, z) :: after ∧
        (∀ d ∈ before, d.2.value ≠ 0) ∧ z.value = 0 ∧ n.toInt = y.value := by
  constructor
  · intro heval
    cases h : x.zeroDivision? with
    | none =>
      rw [eval_of_none h] at heval
      cases heval
    | some d =>
      obtain ⟨y, z⟩ := d
      obtain ⟨before, after, heq, hbefore, hz⟩ := zeroDivision?_eq_some_iff.mp h
      rw [eval_of_some h] at heval
      cases heval
      exact ⟨before, y, z, after, heq, hbefore, hz, toInt_ofInt_value y⟩
  · rintro ⟨before, y, z, after, heq, hbefore, hz, hn⟩
    have h : x.zeroDivision? = some (y, z) :=
      zeroDivision?_eq_some_iff.mpr ⟨before, after, heq, hbefore, hz⟩
    rw [eval_of_some h, (ofInt_value_eq_iff y n).mpr hn.symm]

end Arithmetic

/-- **Integer arithmetic is exact two's-complement arithmetic.** In every scope of every machine, a
tree of arithmetic gives an integer or fails with a division by zero, and nothing changes. It gives
an integer exactly if no divisor is zero, and that integer is the value of the tree: every node does
the exact operation on the values of its operands and wraps. Without divisions this is the exact
value of the whole tree, wrapped. It fails exactly if some divisor is zero, with the dividend of the
first such division. The smallest integer, negated or divided by `-1`, stays what it is. -/
theorem arithmetic_is_exact (x : Arithmetic) (call : Caller τ) (scope : ScopeId) (s : Machine τ) :
    (∃ n, x.expr.eval call scope s = some (.ok (.int n), s) ∨
        x.expr.eval call scope s = some (.error (.failed (.divisionByZero n)), s)) ∧
      (∀ n, x.expr.eval call scope s = some (.ok (.int n), s) ↔
        (∀ d ∈ x.divisions, d.2.value ≠ 0) ∧ n.toInt = x.value) ∧
      (x.divisions = [] → ∃ n, x.expr.eval call scope s = some (.ok (.int n), s) ∧
        n.toInt = wrap x.exact) ∧
      (∀ n, x.expr.eval call scope s = some (.error (.failed (.divisionByZero n)), s) ↔
        ∃ before y z after, x.divisions = before ++ (y, z) :: after ∧
          (∀ d ∈ before, d.2.value ≠ 0) ∧ z.value = 0 ∧ n.toInt = y.value) ∧
      (x.expr.eval call scope s = some (.ok (.int Int64.minValue), s) →
        x.negate.expr.eval call scope s = some (.ok (.int Int64.minValue), s) ∧
          ∀ y : Arithmetic, y.expr.eval call scope s = some (.ok (.int (-1)), s) →
            (Arithmetic.operate .div x y).expr.eval call scope s =
              some (.ok (.int Int64.minValue), s)) := by
  refine ⟨?_, fun n => Arithmetic.eval_eq_int_iff, fun hnone => ?_,
    fun n => Arithmetic.eval_eq_divisionByZero_iff, fun hx => ⟨?_, fun y hy => ?_⟩⟩
  · cases h : x.zeroDivision? with
    | none => exact ⟨_, Or.inl (Arithmetic.eval_of_none h)⟩
    | some d => exact ⟨_, Or.inr (Arithmetic.eval_of_some h)⟩
  · have hzero : x.zeroDivision? = none := by simp [Arithmetic.zeroDivision?, hnone]
    refine ⟨_, Arithmetic.eval_of_none hzero, ?_⟩
    rw [Arithmetic.toInt_ofInt_value, Arithmetic.value_eq_wrap_exact hnone]
  · rw [Arithmetic.expr, Expr.eval, Eval.bind_of_ok hx]
    rfl
  · rw [Arithmetic.expr, Expr.eval, Eval.bind_of_ok hx, Eval.bind_of_ok hy]
    rfl

/-- `-(9223372036854775807 + 1) * 3`, whose exact value needs 65 bits. -/
def overflowing : Arithmetic :=
  .operate .mul (.negate (.operate .add (.literal Int64.maxValue) (.literal 1))) (.literal 3)

/-- The smallest integer divided by `-1`, and added to it `7 / (3 - 3)` divided by `1 / 0`. -/
def dividingByZero : Arithmetic :=
  .operate .add (.operate .div (.literal Int64.minValue) (.literal (-1)))
    (.operate .div
      (.operate .div (.literal 7) (.operate .sub (.literal 3) (.literal 3)))
      (.operate .div (.literal 1) (.literal 0)))

theorem arithmetic_is_exact_corners :
    (∃ n, (overflowing.expr : Expr Unit).eval (apply 0) 0 {} = some (.ok (.int n), {}) ∧
        n.toInt = Int64.minValue.toInt) ∧
      (dividingByZero.expr : Expr Unit).eval (apply 0) 0 {} =
        some (.error (.failed (.divisionByZero 7)), {}) ∧
      ((Arithmetic.literal Int64.minValue).negate.expr : Expr Unit).eval (apply 0) 0 {} =
        some (.ok (.int Int64.minValue), {}) := by
  obtain ⟨-, -, hexact, -, -⟩ := arithmetic_is_exact overflowing (apply (τ := Unit) 0) 0 {}
  obtain ⟨-, -, -, hzero, -⟩ := arithmetic_is_exact dividingByZero (apply (τ := Unit) 0) 0 {}
  obtain ⟨-, -, -, -, hmin⟩ :=
    arithmetic_is_exact (.literal Int64.minValue) (apply (τ := Unit) 0) 0 {}
  refine ⟨?_, (hzero 7).mpr ?_, (hmin rfl).1⟩
  · obtain ⟨n, heval, hn⟩ := hexact rfl
    exact ⟨n, heval, by rw [hn]; decide⟩
  · exact ⟨[_], .literal 7, .operate .sub (.literal 3) (.literal 3), _, rfl, by decide, by decide,
      rfl⟩

end ClosureLang
