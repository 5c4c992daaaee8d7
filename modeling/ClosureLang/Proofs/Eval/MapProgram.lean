import ClosureLang.Parse.Program
import ClosureLang.Proofs.Eval.Arithmetic
import ClosureLang.Proofs.Eval.Depth
import ClosureLang.Proofs.Eval.Results

/-!
# A program that maps a function over an array

    let map = fn(arr, f) {
      let iter = fn(arr, accumulated) {
        if (len(arr) == 0) { accumulated }
        else { iter(rest(arr), push(accumulated, f(first(arr)))); }
      };
      iter(arr, []);
    };
    let double = fn(x) { x * 2 };
    map(numbers, double);

`iter` finds `arr` and `accumulated` in the scope of its own call, itself and `f` in the scope of
the call of `map`, and the names of builtins in no scope. Each call adds a scope inside the one of
`map` and leaves the latter as it is, so all calls of `iter` see the same of it (`SeesIter.grows`).

Main statements: `iter` goes on from what is accumulated (`iter_gives`, by induction on the array),
and the program ends with the array of the doubled numbers (`map_program_doubles`).
-/

namespace ClosureLang

variable {τ : Type}

/-! ## The program -/

/-- The body of `iter`. -/
def iterBody : Block τ :=
  [.expr (.cond (.binary .equal (.call (.name "len") [.name "arr"]) (.int 0))
    [.expr (.name "accumulated")]
    (some [.expr (.call (.name "iter") [.call (.name "rest") [.name "arr"],
      .call (.name "push") [.name "accumulated",
        .call (.name "f") [.call (.name "first") [.name "arr"]]]])]))]

/-- The body of `map`. -/
def mapBody (inner : τ) : Block τ :=
  [.bind "iter" (.fn inner ["arr", "accumulated"] iterBody),
    .expr (.call (.name "iter") [.name "arr", .array []])]

/-- The body of `double`. -/
def doubleBody : Block τ := [.expr (.binary .mul (.name "x") (.int 2))]

/-- The program, for the array that `name` stands for. Its function literals have any tags. -/
def mapProgram (outer inner doubling : τ) (name : String) : Program τ :=
  [.bind "map" (.fn outer ["arr", "f"] (mapBody inner)),
    .bind "double" (.fn doubling ["x"] doubleBody),
    .expr (.call (.name "map") [.name name, .name "double"])]

/-- `iter`, made in the scope of a call of `map`. -/
def iterOf (inner : τ) (scope : ScopeId) : Closure τ :=
  ⟨["arr", "accumulated"], iterBody, inner, scope⟩

/-- `map`, made in the scope of the program. -/
def mapOf (outer inner : τ) (scope : ScopeId) : Closure τ :=
  ⟨["arr", "f"], mapBody inner, outer, scope⟩

/-- `double`, made in the scope of the program. -/
def doubleOf (doubling : τ) (scope : ScopeId) : Closure τ := ⟨["x"], doubleBody, doubling, scope⟩

/-! ## What `len` counts -/

/-- The elements of an array up to their number as a machine word, which is what `len` gives. Unless
there are `2 ^ 64` of them or more, which is `Int64.size`, these are all. -/
def counted {α : Type} (items : List α) : List α := items.take (items.length % Int64.size)

theorem length_counted {α : Type} (items : List α) :
    (counted items).length = items.length % Int64.size := by
  rw [counted, List.length_take, Nat.min_eq_left (Nat.mod_le _ _)]

theorem getElem?_of_counted {α : Type} {items : List α} {i : Nat} {a : α}
    (h : (counted items)[i]? = some a) : items[i]? = some a := by
  rw [counted, List.getElem?_take] at h
  split at h
  · exact h
  · cases h

theorem counted_of_mod_eq_zero {α : Type} {items : List α} (h : items.length % Int64.size = 0) :
    counted items = [] := by
  rw [counted, h, List.take_zero]

theorem counted_cons {α : Type} {x : α} {items : List α}
    (h : (x :: items).length % Int64.size ≠ 0) : counted (x :: items) = x :: counted items := by
  have hmod : (items.length + 1) % Int64.size = items.length % Int64.size + 1 := by
    change (items.length + 1) % 18446744073709551616 ≠ 0 at h
    show (items.length + 1) % 18446744073709551616 = items.length % 18446744073709551616 + 1
    omega
  rw [counted, List.length_cons, hmod, List.take_succ_cons, counted]

theorem ofNat_beq_zero (k : Nat) : (Int64.ofNat k == 0) = decide (k % Int64.size = 0) := by
  have hiff : Int64.ofNat k = 0 ↔ k % Int64.size = 0 := by
    rw [← Int64.toBitVec_inj, Int64.toBitVec_ofNat', ← BitVec.toNat_inj, BitVec.toNat_ofNat]
    exact Iff.rfl
  rw [Bool.eq_iff_iff, beq_iff_eq, decide_eq_true_iff]
  exact hiff

/-! ## Calls of `iter` -/

/-- From a scope one finds `iter`, as it was made in the scope `made`, a value under the name `f`, and
no name of a builtin. -/
structure SeesIter (inner : τ) (f : Value τ) (made scope : ScopeId) (base : Store τ) : Prop where
  iter : base.lookup "iter" scope = some (.closure (iterOf inner made))
  f : base.lookup "f" scope = some f
  builtins : ∀ b : Builtin, base.lookup b.name scope = none

/-- The scope of a call of `iter`. -/
structure IterScope (inner : τ) (f : Value τ) (made : ScopeId) (items acc : List (Value τ))
    (scope : ScopeId) (base : Store τ) : Prop extends SeesIter inner f made scope base where
  arr : base.lookup "arr" scope = some (.array items)
  accumulated : base.lookup "accumulated" scope = some (.array acc)

variable {inner : τ} {f : Value τ} {made scope : ScopeId} {base : Store τ}
  {items acc : List (Value τ)} {depth : Nat}

namespace SeesIter

theorem lt_size (h : SeesIter inner f made scope base) : scope < base.scopes.size :=
  Store.lt_size_of_lookup h.iter

theorem grows {later : Store τ} (h : SeesIter inner f made scope base)
    (hgrows : base.Grows later) : SeesIter inner f made scope later where
  iter := (hgrows.lookup h.lt_size _).trans h.iter
  f := (hgrows.lookup h.lt_size _).trans h.f
  builtins b := (hgrows.lookup h.lt_size _).trans (h.builtins b)

/-- A call of `iter` binds two arrays and hides none of what is seen from the scope in which `iter`
was made. -/
theorem start {s : Machine τ} (h : SeesIter inner f made made s.store)
    (items acc : List (Value τ)) :
    IterScope inner f made items acc s.store.scopes.size
      ((iterOf inner made).start [.array items, .array acc] s).store := by
  have hlookup := (iterOf inner made).lookup_start [.array items, .array acc] s h.lt_size
  change ∀ n, _ = Option.or (List.lookup n [("accumulated", .array acc), ("arr", .array items)])
    (s.store.lookup n made) at hlookup
  refine ⟨⟨(hlookup _).trans h.iter, (hlookup _).trans h.f, fun b => ?_⟩, hlookup _, hlookup _⟩
  rw [hlookup, h.builtins b]
  cases b <;> simp [lookup_cons_ite, Builtin.name]

end SeesIter

namespace IterScope

/-- The call of a builtin with the array of which `iter` is to map the elements. -/
theorem ofArr (h : IterScope inner f made items acc scope base) (b : Builtin) {r : Value τ}
    (hr : b.eval [.array items] = .ok r) :
    ((Expr.call (.name b.name) [.name "arr"]).eval (apply depth) scope).Gives base r :=
  .appliedBuiltin h.lt_size (h.builtins b) (.cons (.name h.arr) .nil) hr

/-- The test whether `len` counts no element. -/
theorem test (h : IterScope inner f made items acc scope base) :
    ((Expr.binary .equal (.call (.name "len") [.name "arr"]) (.int 0)).eval (apply depth)
      scope).Gives base (.bool (decide (items.length % Int64.size = 0))) := by
  have hlen : ((Expr.call (.name "len") [.name "arr"]).eval (apply depth) scope).Gives base
      (.int (Int64.ofNat items.length)) :=
    h.ofArr .len rfl
  refine hlen.binary (.pure _) ?_
  rw [← ofNat_beq_zero]
  rfl

/-- `iter` is done if `len` counts no element. -/
theorem done (h : IterScope inner f made items acc scope base)
    (hlen : items.length % Int64.size = 0) :
    (evalBlock (apply depth) scope .null iterBody).Gives base (.array acc) := by
  refine .block (.cond h.test ?_) _
  simp only [hlen, decide_true, Value.truthy, if_true]
  exact .block (.name h.accumulated) _

/-- Otherwise `iter` adds what `f` gives for the first element and goes on with the others. -/
theorem step {x y r : Value τ} (h : IterScope inner f made (x :: items) acc scope base)
    (hlen : (x :: items).length % Int64.size ≠ 0) (hf : (apply depth f [x]).Gives base y)
    (hiter : (apply depth (.closure (iterOf inner made))
      [.array items, .array (acc ++ [y])]).Gives base r) :
    (evalBlock (apply depth) scope .null iterBody).Gives base r := by
  have hrest : ((Expr.call (.name "rest") [.name "arr"]).eval (apply depth) scope).Gives base
      (.array items) :=
    h.ofArr .rest rfl
  have hfirst : ((Expr.call (.name "first") [.name "arr"]).eval (apply depth) scope).Gives base x :=
    h.ofArr .first rfl
  have hpush : ((Expr.call (.name "push") [.name "accumulated",
      .call (.name "f") [.call (.name "first") [.name "arr"]]]).eval (apply depth) scope).Gives base
      (.array (acc ++ [y])) :=
    .appliedBuiltin (f := .push) h.lt_size (h.builtins .push)
      (.cons (.name h.accumulated) (.cons (.applied (.name h.f) (.cons hfirst .nil) hf) .nil)) rfl
  refine .block (.cond h.test ?_) _
  simp only [hlen, decide_false, Value.truthy, Bool.false_eq_true, if_false]
  exact .block (.applied (.name h.iter) (.cons hrest (.cons hpush .nil)) hiter) _

end IterScope

/-- **`iter` adds what `f` gives for the elements, in their order, to what is accumulated.** Calls
nest once for each element and once for the end. -/
theorem iter_gives {α : Type} {arg image : α → Value τ} (items : List α) (acc : List (Value τ))
    {base : Store τ} (hmade : SeesIter inner f made made base)
    (hf : ∀ a ∈ items, ∀ depth, (apply (depth + 1) f [arg a]).Gives base (image a)) :
    (apply (items.length + 1) (.closure (iterOf inner made))
      [.array (items.map arg), .array acc]).Gives base
      (.array (acc ++ (counted items).map image)) := by
  induction items generalizing acc base with
  | nil =>
    refine .closure rfl fun s hs => ?_
    rw [counted_of_mod_eq_zero rfl, List.map_nil (f := image), List.append_nil]
    exact ((hmade.grows hs).start [] acc).done rfl
  | cons a items ih =>
    refine .closure rfl fun s hs => ?_
    have hbody := (hmade.grows hs).start ((a :: items).map arg) acc
    by_cases hlen : (a :: items).length % Int64.size = 0
    · rw [counted_of_mod_eq_zero hlen, List.map_nil, List.append_nil]
      exact hbody.done (by rwa [List.length_map])
    · rw [List.forall_mem_cons] at hf
      have hgrows := hs.trans ((iterOf inner made).start_grows
        [.array ((a :: items).map arg), .array acc] s)
      -- the scope of this call is one more for the calls that follow
      have hrest := ih (acc ++ [image a]) (hmade.grows hgrows) fun b hb depth =>
        (hf.2 b hb depth).mono hgrows
      rw [List.append_assoc, List.singleton_append, ← List.map_cons, ← counted_cons hlen] at hrest
      exact hbody.step (by simpa using hlen) ((hf.1 _).mono hgrows) hrest

/-! ## Calls of `map` and `double` -/

/-- The store once the first statement of `map` has bound `iter` in the scope of the call. -/
def mapStart (outer inner : τ) (scope : ScopeId) (arr f : Value τ) (s : Machine τ) : Store τ :=
  ((mapOf outer inner scope).start [arr, f] s).store.define s.store.scopes.size "iter"
    (.closure (iterOf inner s.store.scopes.size))

theorem mapStart_grows (outer inner : τ) (scope : ScopeId) (arr f : Value τ) (s : Machine τ) :
    s.store.Grows (mapStart outer inner scope arr f s) :=
  ((Store.Adds.foldl_define _ _ _).trans (.define _ rfl _)).of_add

theorem lookup_mapStart {s : Machine τ} (hscope : scope < s.store.scopes.size) (outer inner : τ)
    (arr f : Value τ) (n : String) :
    (mapStart outer inner scope arr f s).lookup n s.store.scopes.size =
      if n = "iter" then some (.closure (iterOf inner s.store.scopes.size))
      else ([("f", f), ("arr", arr)].lookup n).or (s.store.lookup n scope) := by
  have hlookup := (mapOf outer inner scope).lookup_start [arr, f] s hscope
  have harr : ((mapOf outer inner scope).start [arr, f] s).store.lookup "arr"
      s.store.scopes.size = some arr := hlookup "arr"
  rw [mapStart, Store.lookup_define_self _ (Store.lt_size_of_lookup harr), hlookup]
  rfl

theorem seesIter_mapStart {s : Machine τ} (hscope : scope < s.store.scopes.size)
    (hbuiltins : ∀ b : Builtin, s.store.lookup b.name scope = none) (outer inner : τ)
    (arr f : Value τ) :
    SeesIter inner f s.store.scopes.size s.store.scopes.size
      (mapStart outer inner scope arr f s) := by
  have hlookup := lookup_mapStart hscope outer inner arr f
  refine ⟨hlookup "iter", hlookup "f", fun b => ?_⟩
  rw [hlookup, hbuiltins b]
  cases b <;> simp [lookup_cons_ite, Builtin.name]

/-- **`map` gives the array of what `f` gives for the elements.** -/
theorem map_gives {α : Type} {arg image : α → Value τ} (items : List α) (outer inner : τ)
    (hscope : scope < base.scopes.size) (hbuiltins : ∀ b : Builtin, base.lookup b.name scope = none)
    (hf : ∀ a ∈ items, ∀ depth, (apply (depth + 1) f [arg a]).Gives base (image a)) :
    (apply (items.length + 2) (.closure (mapOf outer inner scope))
      [.array (items.map arg), f]).Gives base (.array ((counted items).map image)) := by
  refine .closure_of_ends rfl fun s hs => ?_
  have hscope' := Nat.lt_of_lt_of_le hscope hs.size_le
  have hmap : SeesIter inner f s.store.scopes.size s.store.scopes.size
      (mapStart outer inner scope (.array (items.map arg)) f s) :=
    seesIter_mapStart hscope' (fun b => (hs.lookup hscope _).trans (hbuiltins b)) _ _ _ _
  have hgrows := hs.trans (mapStart_grows outer inner scope (.array (items.map arg)) f s)
  have hiter := iter_gives items [] hmap fun a ha depth => (hf a ha depth).mono hgrows
  rw [List.nil_append] at hiter
  have harr : (mapStart outer inner scope (.array (items.map arg)) f s).lookup "arr"
      s.store.scopes.size = some (.array (items.map arg)) := lookup_mapStart hscope' _ _ _ _ "arr"
  have hcall : ((Expr.call (.name "iter") [.name "arr", .array []]).eval
      (apply (items.length + 1)) s.store.scopes.size).Gives _ _ :=
    .applied (.name hmap.iter) (.cons (.name harr) (.cons (.array .nil) .nil)) hiter
  rw [mapOf, mapBody, evalBlock_bind_fn]
  refine Eval.Gives.ends ?_
  exact hcall.block _

/-- `double` gives twice the number, as a machine word. -/
theorem double_gives (doubling : τ) (hscope : scope < base.scopes.size) (n : Int64) (depth : Nat) :
    (apply (depth + 1) (.closure (doubleOf doubling scope)) [.int n]).Gives base
      (.int (n * 2)) := by
  refine .closure rfl fun s hs => ?_
  have hx := (doubleOf doubling scope).lookup_start [.int n] s
    (Nat.lt_of_lt_of_le hscope hs.size_le) "x"
  exact .block (.binary (.name hx) (.pure _) rfl) _

theorem toInt_mul_two (n : Int64) : (n * 2).toInt = wrap (2 * n.toInt) := by
  rw [Int64.toInt_mul, Int.mul_comm]
  rfl

/-! ## The whole program -/

/-- The machine once the program has bound its two functions. -/
def mapMachine (outer inner doubling : τ) (scope : ScopeId) (s : Machine τ) : Machine τ :=
  { s with
    store := (s.store.define scope "map" (.closure (mapOf outer inner scope))).define scope "double"
      (.closure (doubleOf doubling scope)) }

theorem lookup_mapMachine {s : Machine τ} (hscope : scope < s.store.scopes.size)
    (outer inner doubling : τ) (n : String) :
    (mapMachine outer inner doubling scope s).store.lookup n scope =
      if n = "double" then some (.closure (doubleOf doubling scope))
      else if n = "map" then some (.closure (mapOf outer inner scope))
      else s.store.lookup n scope := by
  rw [mapMachine, Store.lookup_define_self _ (by rwa [Store.size_define]),
    Store.lookup_define_self _ hscope]

theorem evalBlock_mapProgram (call : Caller τ) (outer inner doubling : τ) (scope : ScopeId)
    (name : String) (s : Machine τ) :
    evalBlock call scope .null (mapProgram outer inner doubling name) s =
      evalBlock call scope (.closure (doubleOf doubling scope))
        [.expr (.call (.name "map") [.name name, .name "double"])]
        (mapMachine outer inner doubling scope s) :=
  rfl

/-- The program ends with what `map` gives, on a store that has grown since the functions were
bound. -/
theorem mapProgram_ends {s : Machine τ} {name : String} {numbers : List Int64}
    (outer inner doubling : τ)
    (hnumbers : s.store.lookup name scope = some (.array (numbers.map .int)))
    (hmap : name ≠ "map") (hdouble : name ≠ "double")
    (hbuiltins : ∀ b : Builtin, s.store.lookup b.name scope = none) :
    ∃ t, (mapProgram outer inner doubling name).Ends scope s
        (.ok (.array ((counted numbers).map fun n => .int (n * 2)))) t ∧
      (mapMachine outer inner doubling scope s).store.Grows t.store := by
  have hscope := Store.lt_size_of_lookup hnumbers
  have hlookup := lookup_mapMachine hscope outer inner doubling
  have hscope' : scope < (mapMachine outer inner doubling scope s).store.scopes.size :=
    Store.lt_size_of_lookup (hlookup "map")
  have hname : (mapMachine outer inner doubling scope s).store.lookup name scope =
      some (.array (numbers.map .int)) := by
    rw [hlookup, if_neg hdouble, if_neg hmap, hnumbers]
  have hunbound : ∀ b : Builtin,
      (mapMachine outer inner doubling scope s).store.lookup b.name scope = none := by
    intro b
    rw [hlookup, hbuiltins b]
    cases b <;> simp [Builtin.name]
  have hgives := map_gives numbers outer inner hscope' hunbound fun n _ depth =>
    double_gives doubling hscope' n depth
  have hcall : ((Expr.call (.name "map") [.name name, .name "double"]).eval
      (apply (numbers.length + 2)) scope).Gives _ _ :=
    .applied (.name (hlookup "map")) (.cons (.name hname) (.cons (.name (hlookup "double")) .nil))
      hgives
  obtain ⟨t, ht, hgrows⟩ := (hcall.block (.closure (doubleOf doubling scope)))
    (s := mapMachine outer inner doubling scope s) (.refl _)
  refine ⟨t, ⟨numbers.length + 2, ?_⟩, hgrows⟩
  rw [Program.run_eq, Eval.run, evalBlock_mapProgram, ht]
  rfl

/-- **A recursive function over an array computes what it says.** Let a name other than `map` and
`double` stand for an array of integers, and let the names of builtins be bound in no scope that is
seen. Then the program for this name ends. Its value is an array of as many integers, each of them
twice the one in its place, wrapped to 64 bits, and the name stands for the same array as before.
The program has bound its two functions and changed nothing else.

An array has fewer than `2 ^ 64` elements as long as a machine word can count them, as `len` does.
Of a longer one the program would map as many elements as the word that `len` gives. -/
theorem map_program_doubles {s : Machine τ} {scope : ScopeId} {name : String}
    {numbers : List Int64} (outer inner doubling : τ)
    (hnumbers : s.store.lookup name scope = some (.array (numbers.map .int)))
    (hmap : name ≠ "map") (hdouble : name ≠ "double")
    (hbuiltins : ∀ b : Builtin, s.store.lookup b.name scope = none) :
    ∃ (doubled : List Int64) (t : Machine τ),
      (mapProgram outer inner doubling name).Ends scope s (.ok (.array (doubled.map .int))) t ∧
      (numbers.length < Int64.size → doubled.length = numbers.length) ∧
      doubled.length = numbers.length % Int64.size ∧
      (∀ (i : Nat) (m : Int64), doubled[i]? = some m →
        ∃ n, numbers[i]? = some n ∧ m.toInt = wrap (2 * n.toInt)) ∧
      t.store.lookup name scope = some (.array (numbers.map .int)) ∧
      s.store.WritesOnly scope ["map", "double"] t.store := by
  obtain ⟨t, hends, hgrows⟩ := mapProgram_ends outer inner doubling hnumbers hmap hdouble hbuiltins
  have hscope := Store.lt_size_of_lookup hnumbers
  have hlookup := lookup_mapMachine hscope outer inner doubling
  refine ⟨(counted numbers).map (· * 2), t, ?_, fun hlen => ?_, ?_, fun i m hm => ?_, ?_, ?_⟩
  · rwa [List.map_map]
  · rw [List.length_map, length_counted, Nat.mod_eq_of_lt hlen]
  · rw [List.length_map, length_counted]
  · rw [List.getElem?_map] at hm
    obtain ⟨n, hn, rfl⟩ := Option.map_eq_some_iff.mp hm
    exact ⟨n, getElem?_of_counted hn, toInt_mul_two n⟩
  · rw [hgrows.lookup (Store.lt_size_of_lookup (hlookup "map")), hlookup, if_neg hdouble,
      if_neg hmap, hnumbers]
  · obtain ⟨depth, hrun⟩ := hends
    exact (Program.run_adds _ hrun).writesOnly

/-- The text of the program for an array that is bound to `numbers`. -/
def mapText : String :=
  "let map = fn(arr, f) \x7b
let iter = fn(arr, accumulated) \x7b
if (len(arr) == 0) \x7b accumulated \x7d
else \x7b iter(rest(arr), push(accumulated, f(first(arr)))); \x7d
\x7d;
iter(arr, []);
\x7d;
let double = fn(x) \x7b x * 2 \x7d;
map(numbers, double);"

/-- A machine with an array in the outer of two scopes. The inner one binds names that the program
gives to its own functions and parameters. -/
def numbersMachine : Machine Unit where
  store := ⟨#[⟨[("numbers", .array [.int 3, .int (-1), .int 4611686018427387904])], none⟩,
    ⟨[("f", .null), ("iter", .int 0), ("arr", .bool true)], some 0⟩]⟩

/-- Twice `2 ^ 62` is the least of all integers. -/
theorem map_program_doubles_overflow :
    (parse mapText).program = mapProgram () () () "numbers" ∧
      (∀ b : Builtin, numbersMachine.store.lookup b.name 1 = none) ∧
      ∃ (doubled : List Int64) (t : Machine Unit),
        (parse mapText).program.Ends 1 numbersMachine (.ok (.array (doubled.map .int))) t ∧
        doubled.length = 3 ∧ (∀ m, doubled[2]? = some m → m = Int64.minValue) ∧
        t.store.lookup "numbers" 1 = numbersMachine.store.lookup "numbers" 1 := by
  have hparse : (parse mapText).program = mapProgram () () () "numbers" := by decide +kernel
  have hnumbers : numbersMachine.store.lookup "numbers" 1 =
      some (.array ([3, -1, 4611686018427387904].map .int)) := by
    simp [numbersMachine, Store.lookup, lookup_cons_ite]
  have hbuiltins : ∀ b : Builtin, numbersMachine.store.lookup b.name 1 = none := by
    intro b
    cases b <;> simp [numbersMachine, Store.lookup, lookup_cons_ite, Builtin.name]
  obtain ⟨doubled, t, hends, hlength, -, hvalues, hkept, -⟩ :=
    map_program_doubles () () () hnumbers (by decide) (by decide) hbuiltins
  refine ⟨hparse, hbuiltins, doubled, t, hparse ▸ hends, hlength (by decide), fun m hm => ?_,
    hkept.trans hnumbers.symm⟩
  obtain ⟨n, hn, htwice⟩ := hvalues 2 m hm
  cases hn
  exact Int64.toInt_inj.mp htwice

end ClosureLang
