import ClosureLang.Proofs.Store.WellFormed
import ClosureLang.Proofs.Value.Alike

/-!
# Stores that are alike

Stores are alike if scopes that correspond bind the names that count to values that are alike, lie
in scopes that correspond, and will go on corresponding as scopes are made in both stores at the
same time. Scopes that correspond to none may hold anything.

Main statements: a name is looked up alike from scopes that correspond (`Store.Alike.lookup`), and
stores stay alike when a name is bound in scopes that correspond (`Store.Alike.define`) and when a
scope is added to both (`Store.Alike.add`). A well-formed store is like every store that has its
scopes and other ones after them (`Store.Alike.of_keeps`).
-/

namespace ClosureLang

variable {τ : Type} {m : Matching}

/-- Links outward that lead to scopes that correspond. Where there is no link in the first store,
the second one may have a link to an empty outermost scope, which corresponds to none. -/
inductive LinkAlike (m : Matching) (t : Store τ) : Option ScopeId → Option ScopeId → Prop where
  | unlinked : LinkAlike m t none none
  | linked {i j : ScopeId} : m.Scopes i j → LinkAlike m t (some i) (some j)
  | empty {j : ScopeId} : (∀ i, ¬ m.Scopes i j) → t.scopes[j]? = some ⟨[], none⟩ →
      LinkAlike m t none (some j)

/-- Scopes that bind the names that count to values that are alike, and whose links are alike. -/
structure Scope.Alike (m : Matching) (t : Store τ) (c d : Scope τ) : Prop where
  bindings : ∀ n, m.Visible n →
    Option.Rel (Value.Alike m) (c.bindings.lookup n) (d.bindings.lookup n)
  outer : LinkAlike m t c.outer d.outer

/-- Stores in which scopes that correspond are alike. The scopes that will be made in both at the
same time correspond as well. -/
structure Store.Alike (m : Matching) (s t : Store τ) : Prop where
  fresh : ∀ k, m.Scopes (s.scopes.size + k) (t.scopes.size + k)
  scopes : ∀ ⦃i j c d⦄, m.Scopes i j → s.scopes[i]? = some c → t.scopes[j]? = some d →
    c.Alike m t d

/-- A change of the second store that leaves empty outermost scopes alone. -/
theorem LinkAlike.keep {t t' : Store τ} {o p : Option ScopeId} (h : LinkAlike m t o p)
    (hkeep : ∀ j, (∀ i, ¬ m.Scopes i j) → t.scopes[j]? = some ⟨[], none⟩ →
      t'.scopes[j]? = some ⟨[], none⟩) : LinkAlike m t' o p := by
  cases h with
  | unlinked => exact .unlinked
  | linked hij => exact .linked hij
  | empty hno ht => exact .empty hno (hkeep _ hno ht)

/-- Nothing is found from an empty outermost scope. -/
theorem Store.lookup_of_empty {t : Store τ} {j : ScopeId} {n : String}
    (h : t.scopes[j]? = some ⟨[], none⟩) : t.lookup n j = none := by
  rw [lookup_eq t n j h]
  rfl

namespace Store.Alike

variable {s t : Store τ} {i j : Nat}

/-- The next scopes correspond. -/
theorem next (h : s.Alike m t) : m.Scopes s.scopes.size t.scopes.size := h.fresh 0

/-- A scope that corresponds to one that exists exists. -/
theorem getElem? (h : s.Alike m t) (hij : m.Scopes i j) :
    Option.Rel (Scope.Alike m t) s.scopes[i]? t.scopes[j]? := by
  have hsize := m.lt_iff hij h.next
  by_cases hi : i < s.scopes.size
  · have hj := hsize.mp hi
    rw [Array.getElem?_eq_getElem hi, Array.getElem?_eq_getElem hj]
    exact .some (h.scopes hij (Array.getElem?_eq_getElem hi) (Array.getElem?_eq_getElem hj))
  · have hj : ¬ j < t.scopes.size := fun hj => hi (hsize.mpr hj)
    rw [Array.getElem?_eq_none (by omega), Array.getElem?_eq_none (by omega)]
    exact .none

/-- **Names that count are looked up alike** from scopes that correspond. -/
theorem lookup (h : s.Alike m t) {n : String} (hn : m.Visible n) (hij : m.Scopes i j) :
    Option.Rel (Value.Alike m) (s.lookup n i) (t.lookup n j) := by
  induction i using Nat.strongRecOn generalizing j with
  | ind i ih =>
    have hscopes := h.getElem? hij
    generalize hc : s.scopes[i]? = oc at hscopes
    generalize hd : t.scopes[j]? = od at hscopes
    cases hscopes with
    | none =>
      rw [Store.lookup, Store.lookup, hc, hd]
      exact .none
    | @some c d hcd =>
      rw [lookup_eq s n i hc, lookup_eq t n j hd]
      have hbindings := hcd.bindings n hn
      generalize c.bindings.lookup n = ov at hbindings
      generalize d.bindings.lookup n = ow at hbindings
      cases hbindings with
      | some hvw => exact .some hvw
      | none =>
        have houter := hcd.outer
        generalize c.outer = o at houter
        generalize d.outer = p at houter
        cases houter with
        | unlinked => exact .none
        | @linked k l hkl =>
          -- links are followed to older scopes only, and the order of scopes is the same
          have hlt := m.lt_iff hkl hij
          by_cases hk : k < i
          · simp only [if_pos hk, if_pos (hlt.mp hk)]
            exact ih k hk hkl
          · simp only [if_neg hk, if_neg fun hl => hk (hlt.mpr hl)]
            exact .none
        | @empty l hno hl =>
          simp only [lookup_of_empty hl, ite_self]
          exact .none

/-- Stores stay alike if a name is bound to values that are alike in scopes that correspond. -/
theorem define (h : s.Alike m t) (hij : m.Scopes i j) {v w : Value τ} (hvw : v.Alike m w)
    (n : String) : (s.define i n v).Alike m (t.define j n w) where
  fresh k := by simpa using h.fresh k
  scopes k l c d hkl hc hd := by
    -- an empty outermost scope is not the one that is written
    have hkeep : ∀ x, (∀ y, ¬ m.Scopes y x) → t.scopes[x]? = some ⟨[], none⟩ →
        (t.define j n w).scopes[x]? = some ⟨[], none⟩ := by
      intro x hno hx
      rw [getElem?_define, if_neg (by rintro rfl; exact hno i hij), hx]
    rw [getElem?_define] at hc hd
    by_cases hik : i = k
    · obtain rfl : j = l := (m.eq_iff hij hkl).mp hik
      subst hik
      rw [if_pos rfl] at hc hd
      obtain ⟨c₀, hc₀, rfl⟩ := Option.map_eq_some_iff.mp hc
      obtain ⟨d₀, hd₀, rfl⟩ := Option.map_eq_some_iff.mp hd
      have hcd := h.scopes hij hc₀ hd₀
      refine ⟨fun x hx => ?_, hcd.outer.keep hkeep⟩
      simp only [lookup_cons_ite]
      split
      · exact .some hvw
      · exact hcd.bindings x hx
    · have hjl : j ≠ l := fun hjl => hik ((m.eq_iff hij hkl).mpr hjl)
      rw [if_neg hik] at hc
      rw [if_neg hjl] at hd
      have hcd := h.scopes hkl hc hd
      exact ⟨hcd.bindings, hcd.outer.keep hkeep⟩

/-- Stores stay alike if a scope is added to both, with links that are alike. -/
theorem add (h : s.Alike m t) {o p : Option ScopeId} (hlink : LinkAlike m t o p) :
    (s.add o).2.Alike m (t.add p).2 where
  fresh k := by
    have hnext := h.fresh (k + 1)
    rwa [size_add, size_add, Nat.add_assoc, Nat.add_assoc, Nat.add_comm 1 k]
  scopes k l c d hkl hc hd := by
    have hkeep : ∀ x, (∀ y, ¬ m.Scopes y x) → t.scopes[x]? = some ⟨[], none⟩ →
        (t.add p).2.scopes[x]? = some ⟨[], none⟩ := by
      intro x _ hx
      have hlt := (Array.getElem?_eq_some_iff.mp hx).1
      rw [Store.add, Array.getElem?_push, if_neg (Nat.ne_of_lt hlt), hx]
    have hlast := m.eq_iff hkl h.next
    simp only [Store.add, Array.getElem?_push] at hc hd
    by_cases hk : k = s.scopes.size
    · rw [if_pos hk] at hc
      rw [if_pos (hlast.mp hk)] at hd
      cases hc
      cases hd
      exact ⟨fun _ _ => .none, hlink.keep hkeep⟩
    · rw [if_neg hk] at hc
      rw [if_neg fun hl => hk (hlast.mpr hl)] at hd
      have hcd := h.scopes hkl hc hd
      exact ⟨hcd.bindings, hcd.outer.keep hkeep⟩

/-- A well-formed store is like one that has its scopes and `d` more after them: its own scopes keep
their numbers, and those made from now on come `d` later. -/
theorem of_keeps (hs : s.WellFormed) {d : Nat} (hsize : t.scopes.size = s.scopes.size + d)
    (hkeep : ∀ i, i < s.scopes.size → t.scopes[i]? = s.scopes[i]?) :
    s.Alike (.shift s.scopes.size d) t where
  fresh k := Or.inr ⟨Nat.le_add_right _ _, by rw [hsize]; omega⟩
  scopes i j c e hij hc he := by
    have hi : i < s.scopes.size := (Array.getElem?_eq_some_iff.mp hc).1
    rcases hij with ⟨-, rfl⟩ | ⟨hle, -⟩
    · obtain rfl : c = e := by
        rw [hkeep _ hi, hc] at he
        exact Option.some.inj he
      refine ⟨fun n _ => ?_, ?_⟩
      · cases hn : c.bindings.lookup n with
        | none => exact .none
        | some v => exact .some (hs.captured hc _ (mem_of_lookup hn)).alike_self
      · cases ho : c.outer with
        | none => exact .unlinked
        | some o => exact .linked (Or.inl ⟨Nat.lt_trans (hs.outer_lt hc o ho) hi, rfl⟩)
    · exact absurd hi (Nat.not_lt.mpr hle)

end Store.Alike

end ClosureLang
