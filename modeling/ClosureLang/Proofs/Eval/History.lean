import ClosureLang.Proofs.Eval.Preservation
import Mathlib.Logic.Relation

/-!
# Histories of a machine

A machine is used step after step: scopes are made, values are bound and read, programs are run and
values are called, and what programs and calls give can be bound or called later on. Whether a
program or a call ends with a value or with an error makes no difference to what follows here.

A closure that is stored in the scope in which it was made refers to a scope that refers to it.
These circles go through bindings, never through the links between scopes.

Main statement: `history_wellFormed`, which puts together what every step keeps
(`World.Step.wellFormed`) and what every step only adds to (`World.Step.adds`).
-/

namespace ClosureLang

variable {τ : Type}

/-- A machine, and the values obtained from it and for it so far. -/
structure World (τ : Type) where
  machine : Machine τ := {}
  held : List (Value τ) := []

namespace World

/-- The store of the machine. -/
abbrev store (w : World τ) : Store τ := w.machine.store

/-- A change of the store alone. -/
abbrev withStore (w : World τ) (s : Store τ) : World τ :=
  { w with machine := { w.machine with store := s } }

/-- One use of the machine. Only scopes that exist and values that were obtained are used. -/
inductive Step : World τ → World τ → Prop where
  /-- A scope is made, on its own or inside another one. -/
  | scope (w : World τ) (outer : Option ScopeId) :
      (∀ o, outer = some o → o < w.store.scopes.size) → Step w (w.withStore (w.store.add outer).2)
  /-- A value is brought in whose functions were made in scopes that exist. -/
  | supply (w : World τ) (v : Value τ) :
      v.CapturesBelow w.store.scopes.size → Step w { w with held := v :: w.held }
  /-- A name is looked up. -/
  | read (w : World τ) (scope : ScopeId) (n : String) (v : Value τ) :
      w.store.lookup n scope = some v → Step w { w with held := v :: w.held }
  /-- A value is bound. -/
  | define (w : World τ) (scope : ScopeId) (n : String) (v : Value τ) :
      scope < w.store.scopes.size → v ∈ w.held → Step w (w.withStore (w.store.define scope n v))
  /-- A program is run, with success or not. -/
  | run (w : World τ) (depth : Nat) (scope : ScopeId) (p : Program τ)
      (r : Except EvalError (Value τ)) (t : Machine τ) :
      scope < w.store.scopes.size → p.run depth scope w.machine = some (r, t) →
      Step w ⟨t, r.toOption.toList ++ w.held⟩
  /-- A value is called, with success or not. -/
  | call (w : World τ) (depth : Nat) (f : Value τ) (args : List (Value τ))
      (r : Except EvalError (Value τ)) (t : Machine τ) :
      f ∈ w.held → (∀ a ∈ args, a ∈ w.held) → f.call depth args w.machine = some (r, t) →
      Step w ⟨t, r.toOption.toList ++ w.held⟩

/-- One world comes from another by any number of steps. -/
abbrev Reaches : World τ → World τ → Prop := Relation.ReflTransGen Step

/-- The store is well formed, and what was obtained refers to its scopes. -/
structure WellFormed (w : World τ) : Prop where
  store : w.store.WellFormed
  held : ∀ v ∈ w.held, v.CapturesBelow w.store.scopes.size

/-! ## What steps add to -/

/-- A step adds scopes and bindings and takes nothing away. -/
theorem Step.adds {w w' : World τ} (h : Step w w') : w.store.Adds (fun _ _ => True) w'.store := by
  cases h with
  | scope outer houter => exact .add _ outer
  | supply v hv => exact .refl _
  | read scope n v hv => exact .refl _
  | define scope n v hscope hv => exact .define _ trivial v
  | run depth scope p r t hscope hrun =>
    exact (p.run_adds hrun).mono fun _ _ _ _ => trivial
  | call depth f args r t hf hargs hcall =>
    exact ((apply_adds depth f args).run hcall).mono fun _ _ _ _ => trivial

theorem Reaches.adds {w w' : World τ} (h : Reaches w w') :
    w.store.Adds (fun _ _ => True) w'.store := by
  induction h with
  | refl => exact .refl _
  | tail _ hstep ih => exact ih.trans hstep.adds

/-! ## What steps keep -/

/-- What a program or a call gives, if it gives a value, is obtained besides what was. -/
theorem forall_mem_gain {P : Value τ → Prop} {r : Except EvalError (Value τ)}
    {held : List (Value τ)} (hr : ∀ v, r = .ok v → P v) (hheld : ∀ v ∈ held, P v) :
    ∀ v ∈ r.toOption.toList ++ held, P v := by
  intro v hv
  rcases List.mem_append.mp hv with hv | hv
  · cases r with
    | ok u =>
      rw [List.mem_singleton.mp hv]
      exact hr u rfl
    | error e => cases hv
  · exact hheld v hv

theorem WellFormed.gain {w : World τ} (h : w.WellFormed) {t : Machine τ}
    {r : Except EvalError (Value τ)} (hadds : w.store.Adds (fun _ _ => True) t.store)
    (hend : t.store.WellFormed ∧ ∀ v, r = .ok v → v.CapturesBelow t.store.scopes.size) :
    (World.mk t (r.toOption.toList ++ w.held)).WellFormed :=
  ⟨hend.1, forall_mem_gain hend.2 fun v hv => (h.held v hv).mono hadds.size_le⟩

theorem Step.wellFormed {w w' : World τ} (h : Step w w') (hw : w.WellFormed) : w'.WellFormed := by
  have hadds := h.adds
  cases h with
  | scope outer houter => exact ⟨hw.store.add houter, fun v hv => (hw.held v hv).mono hadds.size_le⟩
  | supply v hv => exact ⟨hw.store, List.forall_mem_cons.mpr ⟨hv, hw.held⟩⟩
  | read scope n v hv =>
    exact ⟨hw.store, List.forall_mem_cons.mpr ⟨hw.store.capturesBelow_lookup hv, hw.held⟩⟩
  | define scope n v hscope hv =>
    exact ⟨hw.store.define (hw.held v hv) scope n, fun u hu => (hw.held u hu).mono hadds.size_le⟩
  | run depth scope p r t hscope hrun =>
    have hnull : (Value.null : Value τ).CapturesBelow w.store.scopes.size := .of_nil rfl
    have hblock := evalBlock_sound (apply_sound depth) p hscope hnull
    rw [p.run_eq] at hrun
    exact hw.gain hadds (hblock.run hw.store (Nat.le_refl _) hrun)
  | call depth f args r t hf hargs hcall =>
    have hsound := apply_sound depth (hw.held f hf) fun a ha => hw.held a (hargs a ha)
    exact hw.gain hadds (hsound.run hw.store (Nat.le_refl _) hcall)

/-- The world in which nothing was done yet. -/
def start : World τ := {}

theorem start_wellFormed : (start : World τ).WellFormed := ⟨.empty, by simp [start]⟩

theorem Reaches.wellFormed {w w' : World τ} (h : Reaches w w') (hw : w.WellFormed) :
    w'.WellFormed := by
  induction h with
  | refl => exact hw
  | tail _ hstep ih => exact hstep.wellFormed ih

end World

/-- **The store stays well formed over whole histories.** Take any moment `w` of a history and any
later one `w'`. At `w`, links lead to older scopes, and all functions, in the store or obtained,
were made in scopes that exist; so from every scope the links outward end, lead to no scope twice,
and are what a name is looked up along. At `w'`, the scopes of `w` have the same links, and what was
bound in them is still bound. -/
theorem history_wellFormed {w w' : World τ} (hw : World.start.Reaches w) (hww' : w.Reaches w') :
    (∀ (i : ScopeId) (c : Scope τ), w.store.scopes[i]? = some c →
        (∀ o, c.outer = some o → o < i) ∧
          ∀ e ∈ c.bindings, ∀ j ∈ e.2.captures, j < w.store.scopes.size) ∧
      (∀ v ∈ w.held, ∀ j ∈ v.captures, j < w.store.scopes.size) ∧
      (∀ i, i < w.store.scopes.size → ∃ chain, w.store.Chain i chain ∧ chain.Nodup ∧
        ∀ n, w.store.lookup n i =
          chain.findSome? fun j => w.store.scopes[j]?.bind fun c => c.bindings.lookup n) ∧
      ∀ (i : ScopeId) (c : Scope τ), w.store.scopes[i]? = some c →
        ∃ d : Scope τ, w'.store.scopes[i]? = some d ∧ d.outer = c.outer ∧
          ∀ n, (c.bindings.lookup n).isSome = true → (d.bindings.lookup n).isSome = true := by
  have hwf := hw.wellFormed World.start_wellFormed
  refine ⟨fun i c hc => ⟨hwf.store.outer_lt hc, hwf.store.captured hc⟩, hwf.held,
    fun i hi => ?_, fun i c hc => ?_⟩
  · obtain ⟨chain, hchain, hnodup, -⟩ := hwf.store.exists_chain hi
    exact ⟨chain, hchain, hnodup, Store.lookup_of_chain hwf.store hchain⟩
  · obtain ⟨added, hd, -⟩ := hww'.adds hc
    refine ⟨_, hd, rfl, fun n hn => ?_⟩
    rw [List.lookup_append, Option.isSome_or, hn, Bool.or_true]

/-- A function that gives itself back, made in the outermost scope. -/
def returnsItself : Closure Unit where
  params := ["x"]
  body := [.bind "y" (.name "x"), .expr (.name "f")]
  tag := ()
  scope := 0

/-- The machine on which that function is bound in the scope in which it was made. -/
def boundToItself : Machine Unit where
  store := ⟨#[⟨[("f", .closure returnsItself)], none⟩]⟩

/-- The program that binds it. -/
def bindItself : Program Unit := [.bind "f" (.fn () returnsItself.params returnsItself.body)]

/-- A scope is made, the function is bound there, and it is called with itself. -/
theorem history_wellFormed_boundToItself : ∃ w : World Unit, World.start.Reaches w ∧
    w.store.scopes.size = 2 ∧ ∃ chain, w.store.Chain 1 chain ∧ chain.Nodup := by
  have hscope := World.Step.scope (World.start : World Unit) none (fun _ h => nomatch h)
  have hrun : bindItself.run 1 0 { store := (Store.empty.add none).2 } =
      some (.ok (.closure returnsItself), boundToItself) := rfl
  have hsize : ((Value.closure returnsItself).call 1 [.closure returnsItself] boundToItself).map
      (fun e => e.2.store.scopes.size) = some 2 := by decide +kernel
  obtain ⟨⟨r, t⟩, hcall, ht⟩ := Option.map_eq_some_iff.mp hsize
  have hrunStep := World.Step.run (World.start.withStore (Store.empty.add none).2) 1 0 bindItself
    _ _ (by decide) hrun
  have hcallStep := World.Step.call ⟨boundToItself, [.closure returnsItself]⟩ 1 _ _ r t
    List.mem_cons_self (fun a ha => ha) hcall
  have hw : World.start.Reaches _ := ((Relation.ReflTransGen.single hscope).tail hrunStep).tail
    hcallStep
  have hone : 1 < t.store.scopes.size := ht ▸ Nat.one_lt_two
  obtain ⟨chain, hchain, hnodup, -⟩ := (history_wellFormed hw .refl).2.2.1 1 hone
  exact ⟨_, hw, ht, chain, hchain, hnodup⟩

end ClosureLang
