import ClosureLang.Proofs.Store.Bindings
import ClosureLang.Proofs.Value.Captures

/-!
# Well-formed stores

In a well-formed store the scope around a scope is older than the scope, and every function in it
was made in a scope of the store. Both are kept when a scope is added inside one that exists and
when a value of that kind is bound.

Main statements: from every scope the links outward end, and they lead to no scope twice
(`Store.WellFormed.exists_chain`); a name is looked up along them (`Store.lookup_of_chain`).
-/

namespace ClosureLang

namespace Store

variable {τ : Type} {s : Store τ}

/-- Links lead to older scopes and functions to scopes that exist. -/
structure WellFormed (s : Store τ) : Prop where
  outer_lt : ∀ ⦃i : ScopeId⦄ ⦃c : Scope τ⦄, s.scopes[i]? = some c → ∀ o, c.outer = some o → o < i
  captured : ∀ ⦃i : ScopeId⦄ ⦃c : Scope τ⦄, s.scopes[i]? = some c →
    ∀ e ∈ c.bindings, e.2.CapturesBelow s.scopes.size

/-- The scopes from one outward, up to one that lies in no other. -/
inductive Chain (s : Store τ) : ScopeId → List ScopeId → Prop where
  | last {i c} : s.scopes[i]? = some c → c.outer = none → Chain s i [i]
  | link {i c o chain} : s.scopes[i]? = some c → c.outer = some o → Chain s o chain →
      Chain s i (i :: chain)

@[simp] theorem size_add (s : Store τ) (outer : Option ScopeId) :
    (s.add outer).2.scopes.size = s.scopes.size + 1 := by
  simp [add]

namespace WellFormed

/-- Without scopes there is nothing to go wrong. -/
theorem empty : (Store.empty : Store τ).WellFormed where
  outer_lt i c hc := by simp [Store.empty] at hc
  captured i c hc := by simp [Store.empty] at hc

/-- A new scope may be inside of any that exists. -/
theorem add (h : s.WellFormed) {outer : Option ScopeId}
    (houter : ∀ o, outer = some o → o < s.scopes.size) : (s.add outer).2.WellFormed := by
  -- a scope of the new store is an old one or the empty one at the end
  have hcases : ∀ i c, (s.add outer).2.scopes[i]? = some c →
      s.scopes[i]? = some c ∨ i = s.scopes.size ∧ c = ⟨[], outer⟩ := by
    intro i c hc
    simp only [Store.add, Array.getElem?_push] at hc
    split at hc
    · next hi => exact Or.inr ⟨hi, (Option.some.inj hc).symm⟩
    · exact Or.inl hc
  refine ⟨fun i c hc o ho => ?_, fun i c hc e he => ?_⟩
  · rcases hcases i c hc with hold | ⟨rfl, rfl⟩
    · exact h.outer_lt hold o ho
    · exact houter o ho
  · rcases hcases i c hc with hold | ⟨rfl, rfl⟩
    · exact (h.captured hold e he).mono (by simp)
    · cases he

/-- A definition may bind any value that captures scopes of the store only. -/
theorem define (h : s.WellFormed) {v : Value τ} (hv : v.CapturesBelow s.scopes.size)
    (scope : ScopeId) (n : String) : (s.define scope n v).WellFormed := by
  -- a scope of the new store is an old one, perhaps with the new binding in front
  have hcases : ∀ (i : ScopeId) (c : Scope τ), (s.define scope n v).scopes[i]? = some c →
      ∃ d : Scope τ, s.scopes[i]? = some d ∧ c.outer = d.outer ∧
        ∀ e ∈ c.bindings, e = (n, v) ∨ e ∈ d.bindings := by
    intro i c hc
    rw [getElem?_define] at hc
    split at hc
    · obtain ⟨d, hd, rfl⟩ := Option.map_eq_some_iff.mp hc
      exact ⟨d, hd, rfl, fun e he => List.mem_cons.mp he⟩
    · exact ⟨c, hc, rfl, fun e he => Or.inr he⟩
  refine ⟨fun i c hc o ho => ?_, fun i c hc e he => ?_⟩
  · obtain ⟨d, hd, houter, -⟩ := hcases i c hc
    exact h.outer_lt hd o (houter ▸ ho)
  · obtain ⟨d, hd, -, hbindings⟩ := hcases i c hc
    rw [size_define]
    rcases hbindings e he with rfl | hold
    · exact hv
    · exact h.captured hd e hold

/-- From every scope the links outward end. Each leads to an older scope, so none is met twice. -/
theorem exists_chain (h : s.WellFormed) {i : ScopeId} (hi : i < s.scopes.size) :
    ∃ chain, s.Chain i chain ∧ chain.Nodup ∧ ∀ j ∈ chain, j ≤ i := by
  induction i using Nat.strongRecOn with
  | ind i ih =>
    have hc : s.scopes[i]? = some s.scopes[i] := Array.getElem?_eq_getElem hi
    cases houter : s.scopes[i].outer with
    | none => exact ⟨[i], .last hc houter, by simp, by simp⟩
    | some o =>
      have ho : o < i := h.outer_lt hc o houter
      obtain ⟨chain, hchain, hnodup, hle⟩ := ih o ho (Nat.lt_trans ho hi)
      refine ⟨i :: chain, .link hc houter hchain, List.nodup_cons.mpr ⟨fun hmem => ?_, hnodup⟩, ?_⟩
      · exact Nat.not_le.mpr ho (hle i hmem)
      · intro j hj
        rcases List.mem_cons.mp hj with rfl | hj
        · exact Nat.le_refl j
        · exact Nat.le_of_lt (Nat.lt_of_le_of_lt (hle j hj) ho)

/-- What a name is bound to captures scopes of the store only. -/
theorem capturesBelow_lookup (h : s.WellFormed) {n : String} {scope : ScopeId} {v : Value τ}
    (hv : s.lookup n scope = some v) : v.CapturesBelow s.scopes.size := by
  obtain ⟨i, hi⟩ := exists_binding hv
  obtain ⟨c, hc, hn⟩ := Option.bind_eq_some_iff.mp hi
  exact h.captured hc _ (mem_of_lookup hn)

end WellFormed

/-- A name is looked up in the scopes of a chain, one after the other. -/
theorem lookup_of_chain (h : s.WellFormed) {i : ScopeId} {chain : List ScopeId}
    (hchain : s.Chain i chain) (n : String) :
    s.lookup n i = chain.findSome? fun j => s.scopes[j]?.bind fun c => c.bindings.lookup n := by
  induction hchain with
  | last hc houter =>
    rw [lookup_of_outermost hc houter, List.findSome?_singleton, binding]
  | link hc houter _ ih =>
    rw [lookup_of_link hc houter (h.outer_lt hc _ houter), ih, List.findSome?_cons, binding]
    cases Option.bind _ _ <;> rfl

end Store

end ClosureLang
