import ClosureLang.Proofs.Tree.Names
import ClosureLang.Proofs.Value.Captures
import ClosureLang.Value.Text
import Mathlib.Data.List.Forall2

/-!
# Values that are alike

Two evaluations can do the same with different scopes: the one has made scopes before that the
other has not, or looks names up through one scope more. A `Matching` says which scope of the one
corresponds to which of the other. Values are alike if they are the same but for the scopes of
their functions, and these correspond.

A matching also says which names count, so that stores can be compared that differ under a name
which no function mentions.

Main statements: values that are alike have the same text (`Value.Alike.display`), and operators,
the index and builtins cannot tell them apart.
-/

namespace ClosureLang

variable {τ α β : Type}

/-! ## Matchings -/

/-- Which scopes of two stores correspond, in the same order, and which names count. -/
structure Matching where
  Scopes : ScopeId → ScopeId → Prop
  Visible : String → Prop
  lt_iff : ∀ {i j k l : Nat}, Scopes i k → Scopes j l → (i < j ↔ k < l)

namespace Matching

/-- A scope corresponds to one scope only. -/
theorem eq_iff {m : Matching} {i j k l : Nat} (hik : m.Scopes i k) (hjl : m.Scopes j l) :
    i = j ↔ k = l := by
  have hlt := m.lt_iff hik hjl
  have hgt := m.lt_iff hjl hik
  omega

/-- The first `n` scopes correspond to themselves, and the others to scopes made `d` later. All
names count. -/
def shift (n d : Nat) : Matching where
  Scopes (i j : Nat) := i < n ∧ j = i ∨ n ≤ i ∧ j = i + d
  Visible _ := True
  lt_iff := by omega

/-- The scopes from number `n` on correspond to scopes made `d` later, the others to none. All names
count. -/
def after (n d : Nat) : Matching where
  Scopes (i j : Nat) := n ≤ i ∧ j = i + d
  Visible _ := True
  lt_iff := by omega

end Matching

/-- The names in a function. -/
def Closure.names (f : Closure τ) : List String := f.params ++ namesOfBlock f.body

/-! ## Values that are alike -/

mutual

/-- Values that are the same but for the scopes of their functions, which correspond. -/
inductive Value.Alike (m : Matching) : Value τ → Value τ → Prop where
  | null : Value.Alike m .null .null
  | int (n : Int64) : Value.Alike m (.int n) (.int n)
  | bool (b : Bool) : Value.Alike m (.bool b) (.bool b)
  | text (s : String) : Value.Alike m (.text s) (.text s)
  | array {vs ws : List (Value τ)} : List.Forall₂ (Value.Alike m) vs ws →
      Value.Alike m (.array vs) (.array ws)
  | hash {es fs : List (Key × Value τ)} : List.Forall₂ (EntryAlike m) es fs →
      Value.Alike m (.hash es) (.hash fs)
  | closure {params : List String} {body : Block τ} {tag : τ} {i j : ScopeId} :
      m.Scopes i j → (∀ n ∈ params ++ namesOfBlock body, m.Visible n) →
      Value.Alike m (.closure ⟨params, body, tag, i⟩) (.closure ⟨params, body, tag, j⟩)
  | builtin (f : Builtin) : Value.Alike m (.builtin f) (.builtin f)

/-- Entries with the same key and values that are alike. -/
inductive EntryAlike (m : Matching) : Key × Value τ → Key × Value τ → Prop where
  | mk {k : Key} {v w : Value τ} : Value.Alike m v w → EntryAlike m (k, v) (k, w)

end

variable {m : Matching}

mutual

/-- A value is like itself if the scopes of its functions correspond to themselves. -/
theorem Value.alike_self : ∀ v : Value τ,
    (∀ f ∈ v.closures, m.Scopes f.scope f.scope ∧ ∀ n ∈ f.names, m.Visible n) → v.Alike m v
  | .null, _ => .null
  | .int n, _ => .int n
  | .bool b, _ => .bool b
  | .text s, _ => .text s
  | .array items, h => .array (allAlike_self items h)
  | .hash entries, h => .hash (entriesAlike_self entries h)
  | .closure f, h => by
    obtain ⟨hscope, hnames⟩ := h f (by simp [Value.closures])
    exact .closure hscope hnames
  | .builtin f, _ => .builtin f

theorem allAlike_self : ∀ vs : List (Value τ),
    (∀ f ∈ closuresOfAll vs, m.Scopes f.scope f.scope ∧ ∀ n ∈ f.names, m.Visible n) →
    List.Forall₂ (Value.Alike m) vs vs
  | [], _ => .nil
  | v :: vs, h => by
    rw [closuresOfAll, List.forall_mem_append] at h
    exact .cons (v.alike_self h.1) (allAlike_self vs h.2)

theorem entriesAlike_self : ∀ es : List (Key × Value τ),
    (∀ f ∈ closuresOfEntries es, m.Scopes f.scope f.scope ∧ ∀ n ∈ f.names, m.Visible n) →
    List.Forall₂ (EntryAlike m) es es
  | [], _ => .nil
  | (k, v) :: es, h => by
    rw [closuresOfEntries, List.forall_mem_append] at h
    exact .cons (.mk (v.alike_self h.1)) (entriesAlike_self es h.2)

end

/-- A value without functions is like itself. -/
theorem Value.alike_of_nil {v : Value τ} (h : v.closures = []) : v.Alike m v :=
  v.alike_self (by simp [h])

/-- A value that refers to the first scopes only is like itself if these keep their numbers. -/
theorem Value.CapturesBelow.alike_self {n d : Nat} {v : Value τ} (h : v.CapturesBelow n) :
    v.Alike (.shift n d) v := by
  have hscopes := capturesBelow_iff.mp h
  exact v.alike_self fun f hf => ⟨Or.inl ⟨hscopes f hf, rfl⟩, fun _ _ => trivial⟩

namespace Value.Alike

variable {v w : Value τ}

/-- A test sees no scopes. -/
theorem truthy_eq (h : v.Alike m w) : v.truthy = w.truthy := by
  cases h <;> rfl

/-- A key has no scopes in it. -/
theorem key_eq (h : v.Alike m w) : v.key = w.key := by
  cases h <;> rfl

/-- Nothing at all is like nothing at all. -/
theorem getD {o p : Option (Value τ)} (h : Option.Rel (Value.Alike m) o p) :
    (o.getD .null).Alike m (p.getD .null) := by
  cases h with
  | some h => exact h
  | none => exact .null

end Value.Alike

mutual

/-- **Values that are alike have the same text.** -/
theorem Value.Alike.display : ∀ {v w : Value τ}, v.Alike m w → v.display = w.display
  | _, _, .null => rfl
  | _, _, .int _ => rfl
  | _, _, .bool _ => rfl
  | _, _, .text _ => rfl
  | _, _, .array h => by rw [Value.display, Value.display, displayItems_alike h]
  | _, _, .hash h => by rw [Value.display, Value.display, displayEntries_alike h]
  | _, _, .closure _ _ => rfl
  | _, _, .builtin _ => rfl

theorem displayItems_alike : ∀ {vs ws : List (Value τ)}, List.Forall₂ (Value.Alike m) vs ws →
    displayItems vs = displayItems ws
  | _, _, .nil => rfl
  | _, _, .cons h hs => by rw [displayItems, displayItems, h.display, displayItems_alike hs]

theorem displayEntries_alike : ∀ {es fs : List (Key × Value τ)},
    List.Forall₂ (EntryAlike m) es fs → displayEntries es = displayEntries fs
  | _, _, .nil => rfl
  | _, _, .cons (.mk h) hs => by
    rw [displayEntries, displayEntries, h.display, displayEntries_alike hs]

end

/-! ## Operators -/

/-- The same error, or results that are related. -/
inductive SameOutcome (Q : α → β → Prop) : Except EvalError α → Except EvalError β → Prop where
  | ok {a : α} {b : β} : Q a b → SameOutcome Q (.ok a) (.ok b)
  | error (e : EvalError) : SameOutcome Q (.error e) (.error e)

/-- The same outcome, with a value that can be a key if there is one. -/
theorem SameOutcome.of_eq {r r' : Except EvalError (Value τ)} (h : r = r')
    (hr : ∀ v, r = .ok v → ∃ k : Key, v = k.value) : SameOutcome (Value.Alike m) r r' := by
  subst h
  cases r with
  | ok v =>
    obtain ⟨k, rfl⟩ := hr v rfl
    exact .ok (Value.alike_of_nil k.closures_value)
  | error e => exact .error e

theorem UnaryOp.eval_alike (op : UnaryOp) {v v' : Value τ} (hv : v.Alike m v') :
    SameOutcome (Value.Alike m) (op.eval v) (op.eval v') := by
  refine .of_eq ?_ fun _ => exists_key
  cases op <;> cases hv <;> rfl

/-- An operator looks into no closure, and its result has none. -/
theorem BinaryOp.eval_alike (op : BinaryOp) {v v' w w' : Value τ} (hv : v.Alike m v')
    (hw : w.Alike m w') : SameOutcome (Value.Alike m) (op.eval v w) (op.eval v' w') := by
  refine .of_eq ?_ fun _ => exists_key
  cases hv <;> cases hw <;> rfl

theorem Value.key_alike {v w : Value τ} (h : v.Alike m w) : SameOutcome Eq v.key w.key := by
  rw [h.key_eq]
  cases w.key with
  | ok k => exact .ok rfl
  | error e => exact .error e

/-! ## Arrays and hashes -/

theorem forall₂_getElem? {R : α → β → Prop} {xs : List α} {ys : List β} (h : List.Forall₂ R xs ys)
    (i : Nat) : Option.Rel R xs[i]? ys[i]? := by
  induction h generalizing i with
  | nil => exact .none
  | cons hxy _ ih =>
    cases i with
    | zero => exact .some hxy
    | succ i => exact ih i

/-- Alike entries have the same keys, so the same key finds alike values. -/
theorem lookup_alike {es fs : List (Key × Value τ)} (h : List.Forall₂ (EntryAlike m) es fs)
    (k : Key) : Option.Rel (Value.Alike m) (es.lookup k) (fs.lookup k) := by
  induction h with
  | nil => exact .none
  | cons he _ ih =>
    obtain @⟨l, v, w, hvw⟩ := he
    rw [lookup_cons_ite, lookup_cons_ite]
    split
    · exact .some hvw
    · exact ih

theorem insertEntry_alike {es fs : List (Key × Value τ)} {v w : Value τ} (k : Key)
    (hvw : v.Alike m w) (h : List.Forall₂ (EntryAlike m) es fs) :
    List.Forall₂ (EntryAlike m) (insertEntry k v es) (insertEntry k w fs) := by
  induction h with
  | nil => exact .cons (.mk hvw) .nil
  | cons he hes ih =>
    obtain @⟨l, v', w', h'⟩ := he
    rw [insertEntry, insertEntry]
    split
    · exact .cons (.mk hvw) hes
    · split
      · exact .cons (.mk hvw) (.cons (.mk h') hes)
      · exact .cons (.mk h') ih

theorem Value.index_alike {v v' w w' : Value τ} (hv : v.Alike m v') (hw : w.Alike m w') :
    SameOutcome (Value.Alike m) (v.index w) (v'.index w') := by
  cases hv with
  | array hitems =>
    cases hw with
    | int n =>
      refine .ok ?_
      split
      · exact .null
      · exact .getD (forall₂_getElem? hitems _)
    | _ => exact .error _
  | hash hentries =>
    -- the key is checked first, and it is the same key
    have hkey : w'.key = w.key := hw.key_eq.symm
    simp only [Value.index, hkey]
    cases w.key with
    | ok k => exact .ok (.getD (lookup_alike hentries k))
    | error e => exact .error e
  | _ => exact .error _

theorem Builtin.evalArray_alike (f : Builtin) {vs ws more more' : List (Value τ)}
    (h : List.Forall₂ (Value.Alike m) vs ws) (hmore : List.Forall₂ (Value.Alike m) more more') :
    (f.evalArray vs more).Alike m (f.evalArray ws more') := by
  cases f with
  | len =>
    rw [evalArray, evalArray, h.length_eq]
    exact .int _
  | first =>
    rw [evalArray, evalArray, List.head?_eq_getElem?, List.head?_eq_getElem?]
    exact .getD (forall₂_getElem? h 0)
  | last =>
    rw [evalArray, evalArray, List.getLast?_eq_getElem?, List.getLast?_eq_getElem?, h.length_eq]
    exact .getD (forall₂_getElem? h _)
  | rest =>
    cases h with
    | nil => exact .null
    | cons _ hs => exact .array hs
  | push => exact .array (List.rel_append h hmore)

/-- A builtin moves values around and looks into none of its closures. -/
theorem Builtin.eval_alike (f : Builtin) {vs ws : List (Value τ)}
    (h : List.Forall₂ (Value.Alike m) vs ws) :
    SameOutcome (Value.Alike m) (f.eval vs) (f.eval ws) := by
  unfold Builtin.eval
  rw [h.length_eq]
  split
  · cases h with
    | nil => cases f <;> exact .error _
    | cons hv hmore =>
      cases hv with
      | array hitems => cases f <;> exact .ok (evalArray_alike _ hitems hmore)
      | text s =>
        cases f with
        | len => exact .ok (.int _)
        | _ => exact .error _
      | _ => cases f <;> exact .error _
  · exact .error _

end ClosureLang
