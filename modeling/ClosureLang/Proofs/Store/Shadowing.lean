import ClosureLang.Proofs.Store.WellFormed

/-!
# Bindings seen from inside

A binding that is made in a scope is seen from this scope and from the scopes inside it, however
deep they lie. It is hidden from those for which a scope nearer to them on the way outward binds the
same name. From all others, and under all other names, everything is found as before.

Main statement: `Store.lookup_after_define`. The store has the same links before and after, so the
proof goes along one chain and compares what is bound there (`Store.lookup_define_of_chain`).
-/

namespace ClosureLang

namespace Store

variable {τ : Type} {s : Store τ}

/-- There is one chain from a scope. -/
theorem Chain.unique {i : ScopeId} {chain other : List ScopeId} (h : s.Chain i chain)
    (h' : s.Chain i other) : other = chain := by
  induction h generalizing other with
  | last hc houter =>
    cases h' with
    | last => rfl
    | link hc' houter' _ =>
      cases hc.symm.trans hc'
      cases houter.symm.trans houter'
  | link hc houter _ ih =>
    cases h' with
    | last hc' houter' =>
      cases hc.symm.trans hc'
      cases houter.symm.trans houter'
    | link hc' houter' hrest =>
      cases hc.symm.trans hc'
      cases houter.symm.trans houter'
      rw [ih hrest]

/-! ## What is seen along a chain -/

/-- A binding of `k` in `d` is seen along a chain: `d` lies on the chain, and no scope before `d`
binds `k`. -/
def SeenAlong (s : Store τ) (chain : List ScopeId) (k : String) (d : ScopeId) : Prop :=
  d ∈ chain ∧ ∀ i ∈ chain.takeWhile (· != d), s.binding i k = none

instance (chain : List ScopeId) (k : String) (d : ScopeId) : Decidable (s.SeenAlong chain k d) :=
  inferInstanceAs (Decidable (_ ∧ _))

@[simp] theorem not_seenAlong_nil (k : String) (d : ScopeId) : ¬ s.SeenAlong [] k d :=
  fun h => List.not_mem_nil h.1

/-- A binding is seen in the first scope, or past it if that does not bind the name. -/
theorem seenAlong_cons {i : ScopeId} {chain : List ScopeId} {k : String} {d : ScopeId} :
    s.SeenAlong (i :: chain) k d ↔ d = i ∨ s.binding i k = none ∧ s.SeenAlong chain k d := by
  unfold SeenAlong
  by_cases hd : d = i
  · simp [hd]
  · have hne : (i != d) = true := by simp [Ne.symm hd]
    rw [List.takeWhile_cons, if_pos hne, List.forall_mem_cons, List.mem_cons]
    simp only [hd, false_or]
    exact and_left_comm

/-! ## Look-ups after a binding was made -/

/-- A scope has the same link after a binding was made, there or elsewhere. -/
theorem exists_getElem?_define {i : ScopeId} {c : Scope τ} (hc : s.scopes[i]? = some c)
    (d : ScopeId) (k : String) (v : Value τ) :
    ∃ c', (s.define d k v).scopes[i]? = some c' ∧ c'.outer = c.outer := by
  rw [getElem?_define, hc]
  split
  · exact ⟨_, rfl, rfl⟩
  · exact ⟨c, rfl, rfl⟩

/-- What is found from a scope after a binding was made is found along the chain from that scope. -/
theorem lookup_define_of_chain (h : s.WellFormed) {e : ScopeId} {chain : List ScopeId}
    (hchain : s.Chain e chain) (d : ScopeId) (k n : String) (v : Value τ) :
    (s.define d k v).lookup n e =
      if n = k ∧ s.SeenAlong chain k d then some v else s.lookup n e := by
  induction hchain with
  | @last i c hc houter =>
    obtain ⟨c', hc', houter'⟩ := exists_getElem?_define hc d k v
    have hi : i < s.scopes.size := (Array.getElem?_eq_some_iff.mp hc).1
    rw [lookup_of_outermost hc' (houter'.trans houter), lookup_of_outermost hc houter,
      binding_define]
    simp [seenAlong_cons, hi, and_comm, eq_comm]
  | @link i c o chain hc houter _ ih =>
    obtain ⟨c', hc', houter'⟩ := exists_getElem?_define hc d k v
    have hi : i < s.scopes.size := (Array.getElem?_eq_some_iff.mp hc).1
    have ho : o < i := h.outer_lt hc o houter
    rw [lookup_of_link hc' (houter'.trans houter) ho, lookup_of_link hc houter ho, binding_define,
      ih]
    by_cases hn : n = k
    · subst hn
      by_cases hd : d = i
      · simp [seenAlong_cons, hd, hi]
      · -- the first scope is as it was: it hides the binding, or the rest of the chain decides
        cases hb : s.binding i n with
        | none => simp [seenAlong_cons, hd, hb]
        | some w => simp [seenAlong_cons, hd, hb]
    · simp [hn, Ne.symm hn]

/-- **What is found after a binding was made.** From every scope `e` of a well-formed store there is
one chain outward, and it meets no scope twice. After `k` was bound to `v` in `d`, the name `k` is
found with the value `v` if `d` lies on this chain and no scope before `d` binds `k`. In every other
case a name is found with the value that it had before, or is not found as before. -/
theorem lookup_after_define (h : s.WellFormed) {e : ScopeId} (he : e < s.scopes.size) :
    ∃ chain, (∀ other, s.Chain e other ↔ other = chain) ∧ chain.Nodup ∧
      ∀ (d : ScopeId) (k n : String) (v : Value τ),
        (s.define d k v).lookup n e =
          if n = k ∧ s.SeenAlong chain k d then some v else s.lookup n e := by
  obtain ⟨chain, hchain, hnodup, -⟩ := h.exists_chain he
  refine ⟨chain, fun other => ⟨hchain.unique, ?_⟩, hnodup, lookup_define_of_chain h hchain⟩
  rintro rfl
  exact hchain

/-- An outermost scope that binds `x`, a scope inside it that binds `y`, and an empty scope inside
that one. -/
def nestedScopes : Store Unit :=
  let outermost := (empty.add none).2.define 0 "x" (.int 1)
  let middle := (outermost.add (some 0)).2.define 1 "y" (.int 2)
  (middle.add (some 1)).2

/-- From the innermost scope a new binding of `x` in the outermost one is seen, and one of `y` is
hidden by the scope between. -/
theorem lookup_after_define_nestedScopes : nestedScopes.WellFormed ∧ 2 < nestedScopes.scopes.size ∧
    (nestedScopes.define 0 "x" (.int 7)).lookup "x" 2 = some (.int 7) ∧
    (nestedScopes.define 0 "y" (.int 7)).lookup "y" 2 = some (.int 2) := by
  have hwf : nestedScopes.WellFormed := by
    have houtermost : ((empty.add none).2.define 0 "x" (.int 1) : Store Unit).WellFormed :=
      .define (.add .empty (by simp)) (.of_nil rfl) _ _
    exact .add (.define (.add houtermost (by simp)) (.of_nil rfl) _ _) (by simp)
  have hsize : 2 < nestedScopes.scopes.size := by decide
  obtain ⟨chain, hchain, -, hlookup⟩ := lookup_after_define hwf hsize
  have hthree : nestedScopes.Chain 2 [2, 1, 0] := .link rfl rfl (.link rfl rfl (.last rfl rfl))
  cases (hchain _).mp hthree
  refine ⟨hwf, hsize, ?_, ?_⟩
  · rw [hlookup, if_pos (by decide)]
  · rw [hlookup, if_neg (by decide), lookup_of_chain hwf hthree]
    rfl

end Store

end ClosureLang
