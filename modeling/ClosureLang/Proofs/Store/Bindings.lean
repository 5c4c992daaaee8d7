import ClosureLang.Proofs.Value.Functions
import ClosureLang.Store

/-!
# What scopes bind

`Store.binding` is what a scope itself binds a name to. A name is looked up one link at a time
(`Store.lookup_of_outermost`, `Store.lookup_of_link`). All that is found under a name was bound in
some scope (`Store.exists_binding`), so a condition on the values that are bound carries over to the
values that are found (`Store.AllValues.lookup`).
-/

namespace ClosureLang

namespace Store

variable {τ : Type}

/-- The value to which a scope itself binds a name. -/
def binding (s : Store τ) (i : ScopeId) (n : String) : Option (Value τ) :=
  s.scopes[i]?.bind fun c => c.bindings.lookup n

theorem binding_of_getElem? {s : Store τ} {i : ScopeId} {c : Scope τ} (h : s.scopes[i]? = some c)
    (n : String) : s.binding i n = c.bindings.lookup n := by
  rw [binding, h, Option.bind_some]

/-- From a scope that lies in no other one only its own bindings are found. -/
theorem lookup_of_outermost {s : Store τ} {i : ScopeId} {c : Scope τ} (hc : s.scopes[i]? = some c)
    (houter : c.outer = none) (n : String) : s.lookup n i = s.binding i n := by
  rw [lookup_eq s n i hc, binding_of_getElem? hc, houter]
  cases c.bindings.lookup n <;> rfl

/-- A name is found in the scope itself or else from the scope around it. -/
theorem lookup_of_link {s : Store τ} {i o : ScopeId} {c : Scope τ} (hc : s.scopes[i]? = some c)
    (houter : c.outer = some o) (ho : o < i) (n : String) :
    s.lookup n i = (s.binding i n).or (s.lookup n o) := by
  rw [lookup_eq s n i hc, binding_of_getElem? hc, houter]
  cases c.bindings.lookup n with
  | none => exact if_pos ho
  | some v => rfl

/-- A binding is made for one name in one scope that exists. -/
theorem binding_define (s : Store τ) (d i : ScopeId) (m n : String) (v : Value τ) :
    (s.define d m v).binding i n =
      if d = i ∧ m = n ∧ i < s.scopes.size then some v else s.binding i n := by
  unfold binding
  rw [getElem?_define]
  by_cases hi : i < s.scopes.size
  · rw [Array.getElem?_eq_getElem hi]
    by_cases hd : d = i
    · simp [hd, hi, lookup_cons_ite, eq_comm]
    · simp [hd]
  · rw [Array.getElem?_eq_none (Nat.not_lt.mp hi)]
    simp [hi]

/-- A new scope binds nothing. -/
theorem binding_add (s : Store τ) (outer : Option ScopeId) (i : ScopeId) (n : String) :
    (s.add outer).2.binding i n = s.binding i n := by
  by_cases hi : i = s.scopes.size
  · simp [binding, Store.add, hi]
  · simp [binding, Store.add, Array.getElem?_push, hi]

/-- What is found under a name was bound in some scope. -/
theorem exists_binding {s : Store τ} {n : String} {scope : ScopeId} {v : Value τ}
    (h : s.lookup n scope = some v) : ∃ i, s.binding i n = some v := by
  induction scope using Nat.strongRecOn with
  | ind scope ih =>
    cases hc : s.scopes[scope]? with
    | none =>
      rw [lookup, hc] at h
      cases h
    | some c =>
      rw [lookup_eq s n scope hc] at h
      split at h
      · next w hw =>
        cases h
        exact ⟨scope, (binding_of_getElem? hc n).trans hw⟩
      · split at h
        · cases h
        · next o ho =>
          split at h
          · next hlt => exact ih o hlt h
          · cases h

/-! ## Look-ups in stores that agree -/

/-- What is found from a scope depends on this scope and on older ones only. -/
theorem lookup_congr {s t : Store τ} {i : ScopeId} (h : ∀ j ≤ i, t.scopes[j]? = s.scopes[j]?)
    (n : String) : t.lookup n i = s.lookup n i := by
  induction i using Nat.strongRecOn with
  | ind i ih =>
    have houter : ∀ o, (if o < i then t.lookup n o else none) =
        if o < i then s.lookup n o else none := by
      intro o
      split
      · next ho => exact ih o ho fun j hj => h j (Nat.le_trans hj (Nat.le_of_lt ho))
      · rfl
    have hi := h i (Nat.le_refl i)
    cases hc : s.scopes[i]? with
    | none => rw [lookup, hi, lookup, hc]
    | some c => simp only [lookup_eq s n i hc, lookup_eq t n i (hi.trans hc), houter]

/-- From the scope in which a name was bound the name is found with its new value, and other names
are found as before. -/
theorem lookup_define_self (s : Store τ) {i : ScopeId} (hi : i < s.scopes.size) (m n : String)
    (v : Value τ) : (s.define i m v).lookup n i = if n = m then some v else s.lookup n i := by
  have hc : s.scopes[i]? = some s.scopes[i] := Array.getElem?_eq_getElem hi
  have hd : (s.define i m v).scopes[i]? =
      some { s.scopes[i] with bindings := (m, v) :: s.scopes[i].bindings } := by
    rw [getElem?_define, if_pos rfl, hc, Option.map_some]
  rw [lookup_eq _ n i hd, lookup_eq s n i hc, lookup_cons_ite]
  by_cases hn : n = m
  · simp only [if_pos hn]
  · -- the scopes around are older, so that the binding is not in them
    have houter : ∀ o, (if o < i then (s.define i m v).lookup n o else none) =
        if o < i then s.lookup n o else none := by
      intro o
      split
      · next ho =>
        refine lookup_congr (fun j hj => ?_) n
        rw [getElem?_define, if_neg (Nat.ne_of_gt (Nat.lt_of_le_of_lt hj ho))]
      · rfl
    simp only [if_neg hn, houter]

/-! ## Values in stores -/

/-- All values that are bound in a store meet a condition. -/
def AllValues (V : Value τ → Prop) (s : Store τ) : Prop :=
  ∀ ⦃i n v⦄, s.binding i n = some v → V v

namespace AllValues

variable {V : Value τ → Prop} {s : Store τ}

theorem empty : (Store.empty : Store τ).AllValues V := by
  intro i n v hv
  simp [binding, Store.empty] at hv

/-- A new scope binds nothing. -/
theorem add (h : s.AllValues V) (outer : Option ScopeId) : (s.add outer).2.AllValues V := by
  intro i n v hv
  rw [binding_add] at hv
  exact h hv

theorem define (h : s.AllValues V) {v : Value τ} (hv : V v) (scope : ScopeId) (n : String) :
    (s.define scope n v).AllValues V := by
  intro i m w hw
  rw [binding_define] at hw
  split at hw
  · cases hw
    exact hv
  · exact h hw

theorem foldl_define (h : s.AllValues V) (scope : ScopeId) {bindings : List (String × Value τ)}
    (hbindings : ∀ e ∈ bindings, V e.2) :
    (bindings.foldl (fun u e => u.define scope e.1 e.2) s).AllValues V := by
  induction bindings generalizing s with
  | nil => exact h
  | cons e bindings ih =>
    rw [List.forall_mem_cons] at hbindings
    exact ih (h.define hbindings.1 scope e.1) hbindings.2

/-- What is found under a name meets the condition, since it was bound. -/
theorem lookup (h : s.AllValues V) {n : String} {scope : ScopeId} {v : Value τ}
    (hv : s.lookup n scope = some v) : V v := by
  obtain ⟨i, hi⟩ := exists_binding hv
  exact h hi

end AllValues

end Store

end ClosureLang
