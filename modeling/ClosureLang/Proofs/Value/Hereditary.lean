import ClosureLang.Eval.Operator

/-!
# Conditions on values and on what is in them

A condition on values is hereditary if all that can be a key meets it and so does `null`, if an array
meets it exactly if its items do, and if it holds of the values in every hash of which it holds. That
all functions in a value have some property is hereditary, and so is that the hashes in a value have
their entries in order.

Main statement: operators, the index and builtins keep a hereditary condition. What they give meets
it if their operands do (`Hereditary.unary`, `Hereditary.binary`, `Hereditary.index`,
`Hereditary.builtin`).
-/

namespace ClosureLang

variable {τ : Type}

/-- A condition that goes down into arrays and hashes and holds of all that holds nothing. -/
structure Value.Hereditary (P : Value τ → Prop) : Prop where
  null : P .null
  key : ∀ k : Key, P k.value
  array : ∀ {items : List (Value τ)}, P (.array items) ↔ ∀ v ∈ items, P v
  hash : ∀ {entries : List (Key × Value τ)}, P (.hash entries) → ∀ e ∈ entries, P e.2

/-! ## Operators give what can be a key -/

theorem UnaryOp.exists_key {op : UnaryOp} {v w : Value τ} (h : op.eval v = .ok w) :
    ∃ k : Key, w = k.value := by
  unfold UnaryOp.eval at h
  split at h
  · cases h
    exact ⟨.bool _, rfl⟩
  · cases h
    exact ⟨.int _, rfl⟩
  · cases h

theorem BinaryOp.exists_key_evalInt {op : BinaryOp} {a b : Int64} {w : Value τ}
    (h : op.evalInt a b = .ok w) : ∃ k : Key, w = k.value := by
  cases op with
  | add | sub | mul | power =>
    cases h
    exact ⟨.int _, rfl⟩
  | div =>
    rw [BinaryOp.evalInt] at h
    split at h
    · cases h
    · cases h
      exact ⟨.int _, rfl⟩
  | less | greater | equal | notEqual =>
    cases h
    exact ⟨.bool _, rfl⟩

theorem BinaryOp.exists_key_evalText {op : BinaryOp} {a b : String} {w : Value τ}
    (h : op.evalText a b = .ok w) : ∃ k : Key, w = k.value := by
  cases op with
  | add =>
    cases h
    exact ⟨.text _, rfl⟩
  | equal | notEqual =>
    cases h
    exact ⟨.bool _, rfl⟩
  | _ => cases h

theorem BinaryOp.exists_key_evalBool {op : BinaryOp} {a b : Bool} {w : Value τ}
    (h : op.evalBool a b = .ok w) : ∃ k : Key, w = k.value := by
  cases op with
  | equal | notEqual =>
    cases h
    exact ⟨.bool _, rfl⟩
  | _ => cases h

/-- What a binary operator gives is an integer, a boolean or a string, whatever its operands. -/
theorem BinaryOp.exists_key {op : BinaryOp} {v w u : Value τ} (h : op.eval v w = .ok u) :
    ∃ k : Key, u = k.value := by
  unfold BinaryOp.eval at h
  split at h
  · exact exists_key_evalInt h
  · exact exists_key_evalText h
  · exact exists_key_evalBool h
  · split at h <;> cases h <;> exact ⟨.bool _, rfl⟩
  · split at h <;> cases h <;> exact ⟨.bool _, rfl⟩
  · cases h

/-! ## What keeps a hereditary condition -/

/-- What is found under a key stands there. -/
theorem mem_of_lookup {α β : Type} [DecidableEq α] {a : α} {b : β} {pairs : List (α × β)}
    (h : pairs.lookup a = some b) : (a, b) ∈ pairs := by
  obtain ⟨before, after, rfl, -⟩ := List.lookup_eq_some_iff.mp h
  exact List.mem_append_right before List.mem_cons_self

namespace Value.Hereditary

variable {P : Value τ → Prop}

theorem unary (hP : Hereditary P) {op : UnaryOp} {v w : Value τ} (h : op.eval v = .ok w) :
    P w := by
  obtain ⟨k, rfl⟩ := UnaryOp.exists_key h
  exact hP.key k

theorem binary (hP : Hereditary P) {op : BinaryOp} {v w u : Value τ} (h : op.eval v w = .ok u) :
    P u := by
  obtain ⟨k, rfl⟩ := BinaryOp.exists_key h
  exact hP.key k

/-- Where nothing is found, `null` stands in for it. -/
theorem getD (hP : Hereditary P) {o : Option (Value τ)} (h : ∀ v ∈ o, P v) : P (o.getD .null) := by
  cases o with
  | none => exact hP.null
  | some v => exact h v rfl

/-- What is at an index was in the array or the hash. -/
theorem index (hP : Hereditary P) {v w u : Value τ} (hv : P v) (h : v.index w = .ok u) : P u := by
  unfold Value.index at h
  split at h
  · next items k =>
    cases h
    split
    · exact hP.null
    · exact hP.getD fun v hi => hP.array.mp hv v (List.mem_of_getElem? hi)
  · next entries =>
    cases hk : w.key with
    | error e =>
      rw [hk] at h
      cases h
    | ok k =>
      rw [hk] at h
      cases h
      exact hP.getD fun v hi => hP.hash hv (k, v) (mem_of_lookup hi)
  · cases h

/-- A builtin takes items out of an array or puts its arguments behind them. -/
theorem evalArray (hP : Hereditary P) {f : Builtin} {items more : List (Value τ)}
    (hitems : ∀ v ∈ items, P v) (hmore : ∀ v ∈ more, P v) : P (f.evalArray items more) := by
  cases f with
  | len => exact hP.key (.int _)
  | first => exact hP.getD fun v hv => hitems v (List.mem_of_head? hv)
  | last => exact hP.getD fun v hv => hitems v (List.mem_of_getLast? hv)
  | rest =>
    rw [Builtin.evalArray]
    split
    · exact hP.null
    · exact hP.array.mpr fun v hv => hitems v (List.mem_of_mem_tail hv)
  | push =>
    refine hP.array.mpr fun v hv => ?_
    rcases List.mem_append.mp hv with hv | hv
    · exact hitems v hv
    · exact hmore v hv

theorem builtin (hP : Hereditary P) {f : Builtin} {args : List (Value τ)} {v : Value τ}
    (hargs : ∀ a ∈ args, P a) (h : f.eval args = .ok v) : P v := by
  unfold Builtin.eval at h
  split at h
  · split at h
    · next items more =>
      rw [List.forall_mem_cons] at hargs
      cases h
      exact hP.evalArray (hP.array.mp hargs.1) hargs.2
    all_goals cases h
    exact hP.key (.int _)
  · cases h

end Value.Hereditary

end ClosureLang
