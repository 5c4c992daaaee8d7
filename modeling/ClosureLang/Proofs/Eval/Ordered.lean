import ClosureLang.Proofs.Eval.History
import ClosureLang.Proofs.Eval.Truthful
import ClosureLang.Proofs.Value.Entries

/-!
# Evaluation keeps hashes in order

The entries of a hash are kept in the order of their keys. A value is plain data, so nothing stops
one from having its entries in another order; but no evaluation makes such a value. Hash literals put
in one entry after the other, which keeps them in order, and everything else that is passed on was
there before. So the order is a condition that evaluations pass on, with no condition on names
(`Value.inOrder_passedOn`).

Main statements: the values that programs and calls give, and all values that they bind, are in order
if those that were there before are (`evaluation_keeps_order`). So all values that are reached in the
history of a machine are in order, if those are that are brought in (`history_inOrder`).
-/

namespace ClosureLang

variable {τ : Type}

/-- That the hashes in a value are in order is passed on, whatever names are looked up. -/
theorem Value.inOrder_passedOn :
    Value.PassedOn (fun _ => True) fun v : Value τ => v.inOrder = true where
  toHereditary := Value.inOrder_hereditary
  ofBuiltin := fun _ => rfl
  ofClosure := ⟨fun _ _ _ => trivial, fun _ => rfl⟩
  emptyHash := rfl
  insert := fun k v entries hv hentries => by
    obtain ⟨horder, hvalues⟩ := Value.inOrder_hash.mp hentries
    refine Value.inOrder_hash.mpr ⟨horder.insertEntry k v, fun e he => ?_⟩
    rcases mem_insertEntry he with rfl | hold
    · exact hv
    · exact hvalues e hold

/-- **Evaluation keeps hashes in order.** On a machine on which all values that are bound are in
order, a program and a call with arguments in order leave such a machine, and their value is in
order. -/
theorem evaluation_keeps_order {depth : Nat} {s t : Machine τ} {r : Except EvalError (Value τ)}
    (hs : s.store.AllValues fun v => v.inOrder = true) :
    (∀ (p : Program τ) (scope : ScopeId), p.run depth scope s = some (r, t) →
      (t.store.AllValues fun v => v.inOrder = true) ∧ ∀ v, r = .ok v → v.inOrder = true) ∧
    ∀ (f : Value τ) (args : List (Value τ)), f.inOrder = true → (∀ a ∈ args, a.inOrder = true) →
      f.call depth args s = some (r, t) →
      (t.store.AllValues fun v => v.inOrder = true) ∧ ∀ v, r = .ok v → v.inOrder = true := by
  constructor
  · intro p scope h
    obtain ⟨ht, hr, -⟩ := Program.run_truthful Value.inOrder_passedOn (fun _ _ => trivial) hs h
    exact ⟨ht, hr⟩
  · intro f args hf hargs h
    obtain ⟨ht, hr, -⟩ := Value.call_truthful Value.inOrder_passedOn hf hargs hs h
    exact ⟨ht, hr⟩

/-! ## Histories -/

namespace World

/-- The values that are bound and those that were obtained are in order. -/
structure InOrder (w : World τ) : Prop where
  store : w.store.AllValues fun v => v.inOrder = true
  held : ∀ v ∈ w.held, v.inOrder = true

theorem InOrder.gain {w : World τ} (hw : w.InOrder) {t : Machine τ}
    {r : Except EvalError (Value τ)}
    (hend : (t.store.AllValues fun v => v.inOrder = true) ∧ ∀ v, r = .ok v → v.inOrder = true) :
    (World.mk t (r.toOption.toList ++ w.held)).InOrder :=
  ⟨hend.1, forall_mem_gain hend.2 hw.held⟩

/-- A step keeps a world in order, unless a value is obtained in it that is not. -/
theorem Step.inOrder {w w' : World τ} (h : Step w w')
    (hnew : ∀ v, w' = { w with held := v :: w.held } → v.inOrder = true) (hw : w.InOrder) :
    w'.InOrder := by
  cases h with
  | scope outer _ => exact ⟨hw.store.add outer, hw.held⟩
  | supply v _ => exact ⟨hw.store, List.forall_mem_cons.mpr ⟨hnew v rfl, hw.held⟩⟩
  | read scope n v hv =>
    exact ⟨hw.store, List.forall_mem_cons.mpr ⟨hw.store.lookup hv, hw.held⟩⟩
  | define scope n v _ hv => exact ⟨hw.store.define (hw.held v hv) scope n, hw.held⟩
  | run depth scope p r t _ hrun => exact hw.gain ((evaluation_keeps_order hw.store).1 p scope hrun)
  | call depth f args r t hf hargs hcall =>
    exact hw.gain ((evaluation_keeps_order hw.store).2 f args (hw.held f hf)
      (fun a ha => hw.held a (hargs a ha)) hcall)

end World

/-- **All values that are reached in a history are in order**, those that are bound and those that
programs and calls have given, as long as no value is brought in that is not. -/
theorem history_inOrder {w : World τ}
    (h : Relation.ReflTransGen (fun w w' => World.Step w w' ∧
      ∀ v, w' = { w with held := v :: w.held } → v.inOrder = true) World.start w) :
    w.InOrder := by
  induction h with
  | refl => exact ⟨.empty, by simp [World.start]⟩
  | tail _ hstep ih => exact hstep.1.inOrder hstep.2 ih

end ClosureLang
