import ClosureLang.Proofs.Eval.HashLiteral
import ClosureLang.Value.Equality

/-!
# Comparisons

Values can be equal in three ways: the operator `==` says so, they are equal as values, or they have
the same key. All three look at the integer, the boolean or the string itself, so they agree on two
values of one of these types. Elsewhere they part: the operator alone lets an integer meet a
boolean, and it fails where a value has no key.

What a comparison says of two values depends on their keys only (`Comparison.eval_binary`), so the
laws of comparisons are laws about keys. What is wrong where it fails depends on the types only.

Main statement: `equalities_agree`.
-/

namespace ClosureLang

variable {τ : Type}

/-! ## Comparisons of keys -/

/-- The operators that compare. -/
inductive Comparison where
  | equal | notEqual | less | greater
  deriving DecidableEq, Repr

/-- The operator of the language. -/
def Comparison.binary : Comparison → BinaryOp
  | equal => .equal
  | notEqual => .notEqual
  | less => .less
  | greater => .greater

/-- The comparison that asks the same with its operands in the other order. -/
def Comparison.mirror : Comparison → Comparison
  | equal => equal
  | notEqual => notEqual
  | less => greater
  | greater => less

namespace Key

/-- The type of the value that a key stands for. -/
def type : Key → ValueType
  | int _ => .integer
  | bool _ => .boolean
  | text _ => .string

@[simp] theorem type_value (k : Key) : (k.value : Value τ).type = k.type := by
  cases k <;> rfl

/-- What a key counts as where an integer meets a boolean. A string meets neither. -/
def truth? : Key → Option Bool
  | int n => some (n != 0)
  | bool b => some b
  | text _ => none

/-- Whether `==` takes two keys for equal: keys of one type if they are the same, keys of two types
if they count as the same. -/
def equals? (k l : Key) : Option Bool :=
  if k.type = l.type then some (decide (k = l))
  else k.truth?.bind fun a => l.truth?.map fun b => a == b

/-- Whether a key is less than another one. Only integers are in an order. -/
def less? : Key → Key → Option Bool
  | int m, int n => some (decide (m < n))
  | _, _ => none

/-- Whether two keys are equal does not depend on their order. -/
theorem equals?_comm (k l : Key) : k.equals? l = l.equals? k := by
  cases k <;> cases l <;> simp [equals?, type, truth?, eq_comm, Bool.beq_comm]

end Key

namespace Comparison

/-- What a comparison says of two keys, if it is defined on them. -/
def onKeys : Comparison → Key → Key → Option Bool
  | equal, k, l => k.equals? l
  | notEqual, k, l => (k.equals? l).map not
  | less, k, l => k.less? l
  | greater, k, l => l.less? k

theorem onKeys_mirror (c : Comparison) (k l : Key) : c.mirror.onKeys l k = c.onKeys k l := by
  cases c with
  | equal => exact Key.equals?_comm l k
  | notEqual => exact congrArg (Option.map not) (Key.equals?_comm l k)
  | less | greater => rfl

/-- What a comparison says of two values, if they have keys on which it is defined. -/
def verdict (c : Comparison) (v w : Value τ) : Option Bool :=
  v.key?.bind fun k => w.key?.bind fun l => c.onKeys k l

theorem verdict_value (c : Comparison) (k l : Key) :
    c.verdict (k.value : Value τ) l.value = c.onKeys k l := by
  simp [verdict]

/-- Only keys can be compared, so a verdict on values is one on keys. -/
theorem exists_keys_of_verdict {c : Comparison} {v w : Value τ} {b : Bool}
    (h : c.verdict v w = some b) :
    ∃ k l : Key, v = k.value ∧ w = l.value ∧ c.onKeys k l = some b := by
  obtain ⟨k, hk, h⟩ := Option.bind_eq_some_iff.mp h
  obtain ⟨l, hl, h⟩ := Option.bind_eq_some_iff.mp h
  exact ⟨k, l, Value.key?_eq_some hk, Value.key?_eq_some hl, h⟩

/-- The mirrored comparison gives the same verdict on swapped values. -/
theorem verdict_mirror (c : Comparison) (v w : Value τ) :
    c.mirror.verdict w v = c.verdict v w := by
  unfold verdict
  cases v.key? <;> cases w.key? <;> simp [onKeys_mirror]

/-- Inequality is the negation of equality where that has a verdict, and has none elsewhere. -/
theorem verdict_notEqual (v w : Value τ) :
    notEqual.verdict v w = (equal.verdict v w).map not := by
  unfold verdict
  cases v.key? <;> cases w.key? <;> rfl

end Comparison

/-! ## Comparisons of values -/

/-- No operator is defined on a value that has no key. -/
theorem BinaryOp.eval_of_key?_eq_none (op : BinaryOp) {v w : Value τ}
    (h : v.key? = none ∨ w.key? = none) : op.eval v w = .error (op.mismatch v w) := by
  unfold BinaryOp.eval
  split
  case h_6 => rfl
  -- the other cases are about values that both have keys
  all_goals simp [Value.key?] at h

namespace Comparison

/-- What the operator makes of two keys. -/
theorem eval_value (c : Comparison) (k l : Key) :
    c.binary.eval (k.value : Value τ) l.value =
      (c.onKeys k l).elim (.error (c.binary.mismatch (k.value : Value τ) l.value))
        fun b => .ok (.bool b) := by
  cases c with
  | equal | notEqual =>
    cases k <;> cases l <;>
      simp [binary, onKeys, Key.equals?, Key.type, Key.truth?, Key.value, BinaryOp.eval,
        BinaryOp.evalInt, BinaryOp.evalText, BinaryOp.evalBool, BinaryOp.mismatch, Value.type,
        bne, beq_eq_decide, eq_comm]
  | less | greater => cases k <;> cases l <;> rfl

/-- **A comparison says what it says of the keys**, and fails where it says nothing. -/
theorem eval_binary (c : Comparison) (v w : Value τ) :
    c.binary.eval v w =
      (c.verdict v w).elim (.error (c.binary.mismatch v w)) fun b => .ok (.bool b) := by
  cases hv : v.key? with
  | none =>
    rw [c.binary.eval_of_key?_eq_none (.inl hv), verdict, hv]
    rfl
  | some k =>
    cases hw : w.key? with
    | none =>
      rw [c.binary.eval_of_key?_eq_none (.inr hw), verdict, hv, hw]
      rfl
    | some l =>
      cases Value.key?_eq_some hv
      cases Value.key?_eq_some hw
      rw [eval_value, verdict_value]

/-- What has no verdict is a mismatch, with the operator and both types in the error. -/
theorem eval_of_none {c : Comparison} {v w : Value τ} (h : c.verdict v w = none) :
    c.binary.eval v w = .error (c.binary.mismatch v w) := by
  rw [eval_binary, h, Option.elim_none]

theorem eval_eq_ok_iff {c : Comparison} {v w : Value τ} {b : Bool} :
    c.binary.eval v w = .ok (.bool b) ↔ c.verdict v w = some b := by
  rw [eval_binary]
  cases c.verdict v w <;> simp

end Comparison

/-! ## Errors of comparisons -/

/-- Errors of one kind, between the same types, the first about `op` and the second about `op'`. -/
inductive EvalError.SameKind (op op' : BinaryOp) : EvalError → EvalError → Prop where
  | typeMismatch (l r : ValueType) : SameKind op op' (.typeMismatch l op r) (.typeMismatch l op' r)
  | unknownBinary (l r : ValueType) :
      SameKind op op' (.unknownBinary l op r) (.unknownBinary l op' r)

/-- An error of an operator between two types with the types in the other order. -/
def EvalError.swapTypes : EvalError → EvalError
  | typeMismatch l op r => typeMismatch r op l
  | unknownBinary l op r => unknownBinary r op l
  | e => e

theorem BinaryOp.sameKind_mismatch (op op' : BinaryOp) (v w : Value τ) :
    (op.mismatch v w).SameKind op op' (op'.mismatch v w) := by
  unfold mismatch
  split
  · exact .unknownBinary _ _
  · exact .typeMismatch _ _

theorem BinaryOp.swapTypes_mismatch (op : BinaryOp) (v w : Value τ) :
    (op.mismatch v w).swapTypes = op.mismatch w v := by
  unfold mismatch
  by_cases h : v.type = w.type
  · rw [if_pos h, if_pos h.symm]
    rfl
  · rw [if_neg h, if_neg (Ne.symm h)]
    rfl

/-- `op` between two values and `op'` between them in the other order give the same boolean, or fail
with the same kind of error, in which the types are the other way round. -/
def Mirrored (op op' : BinaryOp) (v w : Value τ) : Prop :=
  (∃ b, op.eval v w = .ok (.bool b) ∧ op'.eval w v = .ok (.bool b)) ∨
    ∃ d e, op.eval v w = .error d ∧ op'.eval w v = .error e ∧ d.swapTypes.SameKind op op' e

theorem Comparison.mirrored (c : Comparison) (v w : Value τ) :
    Mirrored c.binary c.mirror.binary v w := by
  have hmirror := c.verdict_mirror v w
  cases h : c.verdict v w with
  | some b => exact .inl ⟨b, eval_eq_ok_iff.mpr h, eval_eq_ok_iff.mpr (hmirror.trans h)⟩
  | none =>
    refine .inr ⟨_, _, eval_of_none h, eval_of_none (hmirror.trans h), ?_⟩
    rw [BinaryOp.swapTypes_mismatch]
    exact BinaryOp.sameKind_mismatch _ _ w v

/-! ## Three equalities -/

/-- The operator `==` is defined on two strings, and on integers and booleans. -/
def Value.Equatable (v w : Value τ) : Prop :=
  v.type = .string ∧ w.type = .string ∨
    v.type ∈ [ValueType.integer, .boolean] ∧ w.type ∈ [ValueType.integer, .boolean]

instance (v w : Value τ) : Decidable (v.Equatable w) := inferInstanceAs (Decidable (_ ∨ _))

theorem Value.Equatable.exists_keys {v w : Value τ} (h : v.Equatable w) :
    ∃ k l : Key, v = k.value ∧ w = l.value := by
  have hkeys : v.type ∈ keyTypes ∧ w.type ∈ keyTypes := by
    rcases h with ⟨hv, hw⟩ | ⟨hv, hw⟩
    · exact ⟨hv ▸ by decide, hw ▸ by decide⟩
    · exact ⟨List.mem_append_left [ValueType.string] hv, List.mem_append_left [ValueType.string] hw⟩
  obtain ⟨k, hk⟩ := Value.exists_key hkeys.1
  obtain ⟨l, hl⟩ := Value.exists_key hkeys.2
  exact ⟨k, l, hk, hl⟩

theorem Key.isSome_equals? (k l : Key) :
    (k.equals? l).isSome = true ↔ (k.value : Value τ).Equatable l.value := by
  cases k <;> cases l <;> simp [equals?, type, truth?, Value.Equatable]

/-- Equality has a verdict exactly on the values that `==` is defined on. -/
theorem Comparison.isSome_verdict_equal (v w : Value τ) :
    (equal.verdict v w).isSome = true ↔ v.Equatable w := by
  constructor
  · intro h
    obtain ⟨b, hb⟩ := Option.isSome_iff_exists.mp h
    obtain ⟨k, l, rfl, rfl, hkl⟩ := exists_keys_of_verdict hb
    exact (Key.isSome_equals? k l).mp (Option.isSome_of_eq_some hkl)
  · intro h
    obtain ⟨k, l, rfl, rfl⟩ := h.exists_keys
    rw [verdict_value]
    exact (Key.isSome_equals? k l).mpr h

/-- Values with keys are equal if their keys are. -/
theorem Value.same_value [DecidableEq τ] (k l : Key) :
    (k.value : Value τ).same l.value = true ↔ k = l := by
  cases k <;> cases l <;> simp [Key.value, Value.same]

/-- **The three equalities agree where they meet.** The operator `==` gives a boolean exactly for
two strings and for integers and booleans, and fails for all other values. The operator `!=` gives
the other boolean or fails with the same kind of error. Both can be asked in either order, and `<`
is `>` in the other order. Where `==` is defined on two values of one type it is true exactly if
they are equal, and exactly if they have the same key. -/
theorem equalities_agree [DecidableEq τ] (v w : Value τ) :
    ((∃ b, BinaryOp.equal.eval v w = .ok (.bool b)) ↔ v.Equatable w) ∧
      (¬ v.Equatable w → BinaryOp.equal.eval v w = .error (BinaryOp.equal.mismatch v w)) ∧
      ((∃ b, BinaryOp.equal.eval v w = .ok (.bool b) ∧
          BinaryOp.notEqual.eval v w = .ok (.bool !b)) ∨
        ∃ d e, BinaryOp.equal.eval v w = .error d ∧ BinaryOp.notEqual.eval v w = .error e ∧
          d.SameKind .equal .notEqual e) ∧
      Mirrored .equal .equal v w ∧ Mirrored .notEqual .notEqual v w ∧
      (∀ b, v.type = w.type → BinaryOp.equal.eval v w = .ok (.bool b) →
        (b = true ↔ v.same w = true) ∧
          ∃ k l, v.key = .ok k ∧ w.key = .ok l ∧ (b = true ↔ k = l)) ∧
      Mirrored .less .greater v w := by
  have hdefined := Comparison.isSome_verdict_equal v w
  refine ⟨?_, fun hno => ?_, ?_, Comparison.equal.mirrored v w, Comparison.notEqual.mirrored v w,
    fun b htype hb => ?_, Comparison.less.mirrored v w⟩
  · rw [← hdefined, Option.isSome_iff_exists]
    exact exists_congr fun b => Comparison.eval_eq_ok_iff (c := .equal)
  · have hnone : Comparison.equal.verdict v w = none := by
      rw [← Option.not_isSome_iff_eq_none, hdefined]
      exact hno
    exact Comparison.eval_of_none hnone
  · have hnot := Comparison.verdict_notEqual v w
    cases h : Comparison.equal.verdict v w with
    | some b =>
      rw [h, Option.map_some] at hnot
      exact .inl ⟨b, Comparison.eval_eq_ok_iff.mpr h, Comparison.eval_eq_ok_iff.mpr hnot⟩
    | none =>
      rw [h, Option.map_none] at hnot
      exact .inr ⟨_, _, Comparison.eval_of_none h, Comparison.eval_of_none hnot,
        BinaryOp.sameKind_mismatch _ _ v w⟩
  · obtain ⟨k, l, rfl, rfl, hkl⟩ :=
      Comparison.exists_keys_of_verdict ((Comparison.eval_eq_ok_iff (c := .equal)).mp hb)
    -- keys of one type are compared by themselves
    have hequal : b = true ↔ k = l := by
      rw [Key.type_value, Key.type_value] at htype
      rw [Comparison.onKeys, Key.equals?, if_pos htype, Option.some.injEq] at hkl
      rw [← hkl, decide_eq_true_iff]
    exact ⟨hequal.trans (Value.same_value k l).symm, k, l, k.key_value, l.key_value, hequal⟩

/-- Two strings that are not equal in any way, and a value that equals itself although `==` is not
defined on it. -/
theorem equalities_agree_corners :
    BinaryOp.equal.eval (.text "1" : Value Unit) (.text "01") = .ok (.bool false) ∧
      (Value.text "1" : Value Unit).same (.text "01") ≠ true ∧
      ¬ (Value.null : Value Unit).Equatable .null ∧ (Value.null : Value Unit).same .null = true ∧
      BinaryOp.equal.eval (.null : Value Unit) .null =
        .error (.unknownBinary .null .equal .null) := by
  have hfalse : BinaryOp.equal.eval (.text "1" : Value Unit) (.text "01") = .ok (.bool false) := rfl
  have hnull : ¬ (Value.null : Value Unit).Equatable .null := by decide
  obtain ⟨-, -, -, -, -, hsame, -⟩ := equalities_agree (.text "1" : Value Unit) (.text "01")
  obtain ⟨-, herror, -⟩ := equalities_agree (.null : Value Unit) .null
  refine ⟨hfalse, fun h => ?_, hnull, rfl, herror hnull⟩
  exact Bool.false_ne_true ((hsame false rfl hfalse).1.mpr h)

end ClosureLang
