import ClosureLang.Eval.Program
import ClosureLang.Proofs.Text.RoundTrip
import ClosureLang.Proofs.Value.Equality
import Mathlib.Data.List.Forall2

/-!
# Printed data evaluates back to itself

Data are integers, booleans, and arrays and hashes of data. The text of a datum is an expression:
it parses to the literal of the datum (`Value.writes_literal`), and the literal evaluates to the
datum (`Value.Reordered.eval_literal`).

Two things are not written as they are stored. A negative integer comes back through the operator in
front of it, so the smallest integer, whose opposite does not fit, cannot be written. And the order
in which the entries of a hash are printed is not fixed: a text of a value is the text of any
`Value.Reordered` form of it, and evaluation puts the entries in order again. That the entries are in
order is asked of a datum here; every value that an evaluation reaches has them in order
(`ClosureLang.Proofs.Eval.Ordered`).
-/

namespace ClosureLang

open Grammar

variable {τ : Type}

/-! ## Data -/

/-- Whether an integer can be written. -/
def isWritable (n : Int64) : Bool := n != Int64.minValue

/-- Whether a key is an integer that can be written, or a boolean. -/
def Key.isData : Key → Bool
  | .int n => isWritable n
  | .bool _ => true
  | .text _ => false

mutual

/-- Whether a value is made of integers that can be written, booleans, arrays and hashes. -/
def Value.isData : Value τ → Bool
  | .null => false
  | .int n => isWritable n
  | .bool _ => true
  | .text _ => false
  | .array items => itemsAreData items
  | .hash entries => entriesAreData entries
  | .closure _ => false
  | .builtin _ => false

/-- Whether some values are data. -/
def itemsAreData : List (Value τ) → Bool
  | [] => true
  | v :: vs => v.isData && itemsAreData vs

/-- Whether the keys and values of some entries are data. -/
def entriesAreData : List (Key × Value τ) → Bool
  | [] => true
  | (k, v) :: es => k.isData && v.isData && entriesAreData es

end

theorem entriesAreData_iff {es : List (Key × Value τ)} :
    entriesAreData es = true ↔ ∀ e ∈ es, e.1.isData = true ∧ e.2.isData = true := by
  induction es with
  | nil => simp [entriesAreData]
  | cons e es ih => simp [entriesAreData, ih]

/-! ## Entries in another order -/

mutual

/-- The second value is the first with the entries of its hashes listed in any order. -/
inductive Value.Reordered : Value τ → Value τ → Prop where
  | null : Value.Reordered .null .null
  | int (n : Int64) : Value.Reordered (.int n) (.int n)
  | bool (b : Bool) : Value.Reordered (.bool b) (.bool b)
  | text (s : String) : Value.Reordered (.text s) (.text s)
  | array {vs ws : List (Value τ)} : List.Forall₂ Value.Reordered vs ws →
      Value.Reordered (.array vs) (.array ws)
  | hash {es fs gs : List (Key × Value τ)} : es.Perm fs → List.Forall₂ EntryReordered fs gs →
      Value.Reordered (.hash es) (.hash gs)
  | closure (f : Closure τ) : Value.Reordered (.closure f) (.closure f)
  | builtin (f : Builtin) : Value.Reordered (.builtin f) (.builtin f)

/-- The same key, and a value with the entries of its hashes listed in any order. -/
inductive EntryReordered : Key × Value τ → Key × Value τ → Prop where
  | mk {k : Key} {v w : Value τ} : Value.Reordered v w → EntryReordered (k, v) (k, w)

end

mutual

/-- The order in which the entries are kept is one of those in which they can be listed. -/
theorem Value.reordered_self : ∀ v : Value τ, v.Reordered v
  | .null => .null
  | .int n => .int n
  | .bool b => .bool b
  | .text s => .text s
  | .array items => .array (itemsReordered_self items)
  | .hash entries => .hash (.refl _) (entriesReordered_self entries)
  | .closure f => .closure f
  | .builtin f => .builtin f

theorem itemsReordered_self : ∀ vs : List (Value τ), List.Forall₂ Value.Reordered vs vs
  | [] => .nil
  | v :: vs => .cons v.reordered_self (itemsReordered_self vs)

theorem entriesReordered_self : ∀ es : List (Key × Value τ), List.Forall₂ EntryReordered es es
  | [] => .nil
  | (_, v) :: es => .cons (.mk v.reordered_self) (entriesReordered_self es)

end

mutual

/-- Reordering entries keeps data. -/
theorem Value.Reordered.isData : ∀ {v w : Value τ}, v.Reordered w → v.isData = true →
    w.isData = true
  | _, _, .null, h => h
  | _, _, .int _, h => h
  | _, _, .bool _, h => h
  | _, _, .text _, h => h
  | _, _, .array hvs, h => itemsAreData_of_reordered hvs h
  | _, _, .hash hperm hfs, h => by
    have hfs' := entriesAreData_iff.mpr fun e he => entriesAreData_iff.mp h e (hperm.mem_iff.mpr he)
    exact entriesAreData_of_reordered hfs hfs'
  | _, _, .closure _, h => h
  | _, _, .builtin _, h => h

theorem itemsAreData_of_reordered : ∀ {vs ws : List (Value τ)},
    List.Forall₂ Value.Reordered vs ws → itemsAreData vs = true → itemsAreData ws = true
  | _, _, .nil, h => h
  | _, _, .cons hv hvs, h => by
    rw [itemsAreData, Bool.and_eq_true] at h ⊢
    exact ⟨hv.isData h.1, itemsAreData_of_reordered hvs h.2⟩

theorem entriesAreData_of_reordered : ∀ {es fs : List (Key × Value τ)},
    List.Forall₂ EntryReordered es fs → entriesAreData es = true → entriesAreData fs = true
  | _, _, .nil, h => h
  | _, _, .cons (.mk hv) hes, h => by
    rw [entriesAreData, Bool.and_eq_true, Bool.and_eq_true] at h ⊢
    exact ⟨⟨h.1.1, hv.isData h.1.2⟩, entriesAreData_of_reordered hes h.2⟩

end

/-! ## Literals -/

/-- The literal of an integer that can be written. -/
def intLiteral (n : Int64) : Expr τ := if n < 0 then .unary .negate (.int (-n)) else .int n

/-- The literal of a key. -/
def Key.literal : Key → Expr τ
  | .int n => intLiteral n
  | .bool b => .bool b
  | .text s => .text s

mutual

/-- The literal of a datum. What is no datum has none. -/
def Value.literal : Value τ → Expr τ
  | .int n => intLiteral n
  | .bool b => .bool b
  | .array items => .array (literalsOf items)
  | .hash entries => .hash (literalPairsOf entries)
  | _ => default

/-- The literals of some data. -/
def literalsOf : List (Value τ) → List (Expr τ)
  | [] => []
  | v :: vs => v.literal :: literalsOf vs

/-- The literals of some entries. -/
def literalPairsOf : List (Key × Value τ) → List (Expr τ × Expr τ)
  | [] => []
  | (k, v) :: es => (k.literal, v.literal) :: literalPairsOf es

end

/-! ## Literals evaluate to their data -/

section Eval

variable {call : Caller τ} {scope : ScopeId}

theorem intLiteral_eval (n : Int64) : (intLiteral n).eval call scope = pure (.int n) := by
  unfold intLiteral
  split
  · show (pure (.int (- -n)) : Eval τ (Value τ)) = pure (.int n)
    rw [Int64.neg_neg]
  · rfl

/-- The literal of a key evaluates to it. -/
theorem Key.eval_literal (k : Key) : k.literal.eval call scope = pure (k.value : Value τ) := by
  cases k with
  | int n => exact intLiteral_eval n
  | bool b => rfl
  | text s => rfl

mutual

/-- **The literal of a datum evaluates to the datum**, whatever the order of its entries. -/
theorem Value.Reordered.eval_literal : ∀ {v w : Value τ}, v.Reordered w → v.isData = true →
    v.inOrder = true → w.literal.eval call scope = pure v
  | _, _, .int n, _, _ => intLiteral_eval n
  | _, _, .bool b, _, _ => rfl
  | _, _, .array hvs, hdata, horder => by
    rw [Value.literal, Expr.eval, evalExprs_literalsOf hvs hdata horder]
    rfl
  | _, _, @Value.Reordered.hash _ es fs gs hperm hfs, hdata, horder => by
    rw [Value.inOrder, Bool.and_eq_true, decide_eq_true_eq] at horder
    have hdata' := entriesAreData_iff.mpr fun e he =>
      entriesAreData_iff.mp hdata e (hperm.mem_iff.mpr he)
    have horder' := entriesInOrder_iff.mpr fun e he =>
      entriesInOrder_iff.mp horder.2 e (hperm.mem_iff.mpr he)
    have hentries : entriesOf ((fs.map storedEntry).foldl (fun acc e => insertEntry e.1 e.2 acc) []) =
        es := by
      rw [entriesOf_foldl_insertEntry, entriesOf_map_storedEntry]
      exact foldl_insertEntry_of_perm horder.1 hperm
    rw [Value.literal, Expr.eval, evalPairs_literalPairsOf hfs hdata' horder' []]
    exact congrArg (fun entries => (pure (.hash entries) : Eval τ (Value τ))) hentries

theorem evalExprs_literalsOf : ∀ {vs ws : List (Value τ)}, List.Forall₂ Value.Reordered vs ws →
    itemsAreData vs = true → itemsInOrder vs = true →
    evalExprs call scope (literalsOf ws) = pure vs
  | _, _, .nil, _, _ => rfl
  | _, _, .cons hv hvs, hdata, horder => by
    rw [itemsAreData, Bool.and_eq_true] at hdata
    rw [itemsInOrder, Bool.and_eq_true] at horder
    rw [literalsOf, evalExprs, hv.eval_literal hdata.1 horder.1,
      evalExprs_literalsOf hvs hdata.2 horder.2]
    rfl

theorem evalPairs_literalPairsOf : ∀ {es fs : List (Key × Value τ)},
    List.Forall₂ EntryReordered es fs → entriesAreData es = true → entriesInOrder es = true →
    ∀ start, evalPairs call scope start (literalPairsOf fs) =
      pure ((es.map storedEntry).foldl (fun acc e => insertEntry e.1 e.2 acc) start)
  | _, _, .nil, _, _, _ => rfl
  | _, _, .cons (@EntryReordered.mk _ k v w hv) hes, hdata, horder, start => by
    rw [entriesAreData, Bool.and_eq_true, Bool.and_eq_true] at hdata
    rw [entriesInOrder, Bool.and_eq_true] at horder
    have hkey : (Eval.lift (k.value : Value τ).key : Eval τ Key) = pure k := by
      cases k <;> rfl
    have hrest := evalPairs_literalPairsOf hes hdata.2 horder.2
      (insertEntry k ⟨k.value, v⟩ start)
    rw [literalPairsOf, evalPairs, k.eval_literal, hv.eval_literal hdata.1.2 horder.1]
    show Eval.lift _ >>= _ = _
    rw [hkey]
    exact hrest

end

end Eval

/-! ## The text of a datum writes its literal -/

/-- Some characters write what `X` derives: up to any seam they scan as words, and `X` derives from
tokens that say these words. -/
def Writes (X : List Token → List Token → Prop) (cs : List Char) : Prop :=
  ∃ ws, (∀ {rest}, Seam rest → Scans (cs ++ rest) ws rest) ∧
    ∀ {ts rest}, Says ts ws rest → X ts rest

/-- The opposite of a negative integer that can be written is not negative. -/
theorem toInt_neg_of_isWritable {n : Int64} (h : isWritable n = true) (hneg : n < 0) :
    (-n).toInt = -n.toInt := by
  have hmin : n.toInt ≠ -2 ^ 63 := fun heq => by
    rw [isWritable, bne_iff_ne] at h
    exact h (Int64.toInt_inj.mp (heq.trans Int64.toInt_minValue.symm))
  have hle := n.le_toInt
  have hlt := Int64.lt_iff_toInt_lt.mp hneg
  rw [Int64.toInt_zero] at hlt
  rw [Int64.toInt_neg]
  exact Int.bmod_eq_of_le (by omega) (by omega)

/-- The text of a negative integer is a minus sign and the text of its opposite. -/
theorem toList_repr_of_neg {k n : Int} (hneg : n < 0) (hk : k = -n) :
    n.repr.toList = '-' :: k.repr.toList := by
  obtain ⟨m, rfl⟩ := Int.eq_negSucc_of_lt_zero hneg
  rw [hk, Int.neg_negSucc]
  simp [Int.repr]

/-- The canonical text of a plain expression writes it. -/
theorem writes_of_plain {x : Expr Unit} (hwf : x.wellFormed = true) (hplain : x.plain = true) :
    Writes (Expression .unary · x ·) x.render.toList :=
  ⟨x.words, x.scans_render hwf hplain, fun h => (x.derives hwf h).loosen (by decide)⟩

theorem writes_intLiteral {n : Int64} (h : isWritable n = true) :
    Writes (Expression .unary · (intLiteral n) ·) n.toInt.repr.toList := by
  unfold intLiteral
  split
  · next hneg =>
    have hlt := Int64.lt_iff_toInt_lt.mp hneg
    rw [Int64.toInt_zero] at hlt
    have hopposite := toInt_neg_of_isWritable h hneg
    have hwf : (Expr.int (-n) : Expr Unit).wellFormed = true := decide_eq_true (by omega)
    obtain ⟨ws, hscan, hderive⟩ := writes_of_plain hwf rfl
    rw [toList_repr_of_neg hlt hopposite]
    refine ⟨delimiter .minus :: ws, fun hrest => .first (by decide) (hscan hrest), fun hws => ?_⟩
    obtain ⟨t, us, rfl, ht, hws⟩ := hws.delimiter
    have hop : (t.kind, UnaryOp.negate) ∈ unaryOperators := by
      rw [ht]
      decide
    exact .unary hop (hderive hws)
  · next hnonneg =>
    rw [Int64.lt_iff_toInt_lt, Int64.toInt_zero] at hnonneg
    exact writes_of_plain (x := .int n) (decide_eq_true (by omega)) rfl

theorem writes_bool (b : Bool) : Writes (Expression .unary · (.bool b) ·)
    (if b then "true" else "false").toList :=
  writes_of_plain (x := .bool b) rfl rfl

/-- The text of a key is that of an operand, perhaps with a minus in front. -/
theorem Key.writes_literal {k : Key} (h : k.isData = true) :
    Writes (Expression .unary · k.literal ·) k.display.toList := by
  cases k with
  | int n => exact writes_intLiteral h
  | bool b => exact writes_bool b
  | text s => cases h

/-- Something, a delimiter with a blank behind it, and something else. -/
theorem Writes.join {X Y Z : List Token → List Token → Prop} {cs ds : List Char} {c : Char}
    {k : TokenKind} (hc : (c, k) ∈ delimiterChars) (hX : Writes X cs) (hY : Writes Y ds)
    (hZ : ∀ {ts t us rest}, X ts (t :: us) → t.kind = k → Y us rest → Z ts rest) :
    Writes Z (cs ++ c :: ' ' :: ds) := by
  obtain ⟨ws, hscan, hderive⟩ := hX
  obtain ⟨vs, hscan', hderive'⟩ := hY
  refine ⟨ws ++ delimiter k :: vs, fun {rest} hrest => ?_, fun h => ?_⟩
  · rw [List.append_assoc]
    exact .upTo hc hscan (.blank rfl (hscan' hrest))
  · obtain ⟨us, hws, h⟩ := h.append
    obtain ⟨t, us, rfl, ht, hvs⟩ := h.delimiter
    exact hZ (hderive hws) ht (hderive' hvs)

/-- Something between two delimiters. -/
theorem Writes.enclose {X Z : List Token → List Token → Prop} {cs : List Char} {c d : Char}
    {k l : TokenKind} (hc : (c, k) ∈ delimiterChars) (hd : (d, l) ∈ delimiterChars)
    (hX : Writes X cs)
    (hZ : ∀ {t ts u rest}, t.kind = k → X ts (u :: rest) → u.kind = l → Z (t :: ts) rest) :
    Writes Z (c :: (cs ++ [d])) := by
  obtain ⟨ws, hscan, hderive⟩ := hX
  refine ⟨delimiter k :: (ws ++ [delimiter l]), fun {rest} _ => ?_, fun h => ?_⟩
  · rw [List.cons_append, List.append_assoc]
    exact .first hc (.upTo hd hscan (.refl _))
  · obtain ⟨t, us, rfl, ht, h⟩ := h.delimiter
    obtain ⟨vs, hws, h⟩ := h.append
    obtain ⟨u, rfl, hu⟩ := h.last
    exact hZ ht (hderive hws) hu

theorem Writes.imp {X Z : List Token → List Token → Prop} {cs : List Char} (hX : Writes X cs)
    (hXZ : ∀ {ts rest}, X ts rest → Z ts rest) : Writes Z cs := by
  obtain ⟨ws, hscan, hderive⟩ := hX
  exact ⟨ws, hscan, fun h => hXZ (hderive h)⟩

mutual

/-- **The text of a datum writes its literal.** -/
theorem Value.writes_literal : ∀ v : Value Unit, v.isData = true →
    Writes (Expression .unary · v.literal ·) v.display.toList
  | .int n, h => writes_intLiteral h
  | .bool b, _ => writes_bool b
  | .array items, h => by
    have htext : (Value.array items).display.toList =
        '[' :: ((", ".intercalate (displayItems items)).toList ++ [']']) := by
      simp [Value.display]
    rw [htext]
    refine .enclose (k := .lbracket) (l := .rbracket) (by decide) (by decide)
      (items_write_literals items h) fun ht hitems hu => ?_
    exact Expression.loosen (by decide) (.primary (.array ht (elements_of hitems hu)))
  | .hash entries, h => by
    have htext : (Value.hash entries).display.toList =
        '{' :: ((", ".intercalate (displayEntries entries)).toList ++ ['}']) := by
      simp [Value.display]
    rw [htext]
    refine .enclose (k := .lbrace) (l := .rbrace) (by decide) (by decide)
      (entries_write_literals entries h) fun ht hentries hu => ?_
    exact Expression.loosen (by decide) (.primary (.hash ht (entries_of hentries hu)))

theorem items_write_literals : ∀ vs : List (Value Unit), itemsAreData vs = true →
    Writes (fun ts rest => literalsOf vs = [] ∧ ts = rest ∨ Expressions ts (literalsOf vs) rest)
      (", ".intercalate (displayItems vs)).toList
  | [], _ => ⟨[], fun _ => .refl _, fun h => Or.inl ⟨rfl, h.nil⟩⟩
  | [v], h => by
    simp only [itemsAreData, Bool.and_true] at h
    simp only [displayItems, String.intercalate_singleton]
    exact (v.writes_literal h).imp fun hv => Or.inr (.one (hv.loosen (by decide)))
  | v :: w :: vs, h => by
    rw [itemsAreData, Bool.and_eq_true] at h
    have htext : (", ".intercalate (displayItems (v :: w :: vs))).toList =
        v.display.toList ++ ',' :: ' ' :: (", ".intercalate (displayItems (w :: vs))).toList := by
      simp [displayItems, String.intercalate_cons_cons]
    rw [htext]
    refine .join (k := .comma) (by decide) (v.writes_literal h.1)
      (items_write_literals (w :: vs) h.2) fun hv hc hvs => Or.inr (.more (hv.loosen (by decide)) hc ?_)
    exact hvs.resolve_left (by simp [literalsOf])

theorem entries_write_literals : ∀ es : List (Key × Value Unit), entriesAreData es = true →
    Writes (fun ts rest => literalPairsOf es = [] ∧ ts = rest ∨ Pairs ts (literalPairsOf es) rest)
      (", ".intercalate (displayEntries es)).toList
  | [], _ => ⟨[], fun _ => .refl _, fun h => Or.inl ⟨rfl, h.nil⟩⟩
  | [(k, v)], h => by
    simp only [entriesAreData, Bool.and_true, Bool.and_eq_true] at h
    have htext : (", ".intercalate (displayEntries [(k, v)])).toList =
        k.display.toList ++ ':' :: ' ' :: v.display.toList := by
      simp [displayEntries]
    rw [htext]
    exact .join (k := .colon) (by decide) (Key.writes_literal h.1) (v.writes_literal h.2)
      fun hk hc hv => Or.inr (.one (hk.loosen (by decide)) hc (hv.loosen (by decide)))
  | (k, v) :: (l, w) :: es, h => by
    rw [entriesAreData, Bool.and_eq_true, Bool.and_eq_true] at h
    have htext : (", ".intercalate (displayEntries ((k, v) :: (l, w) :: es))).toList =
        k.display.toList ++ ':' :: ' ' :: (v.display.toList ++ ',' :: ' ' ::
          (", ".intercalate (displayEntries ((l, w) :: es))).toList) := by
      simp [displayEntries, String.intercalate_cons_cons]
    rw [htext]
    have hrest := Writes.join (c := ',') (k := .comma) (by decide) (v.writes_literal h.1.2)
      (entries_write_literals ((l, w) :: es) h.2) (Z := fun us rest => ∃ c ds,
        Expression .equality us v.literal (c :: ds) ∧ c.kind = .comma ∧
          Pairs ds (literalPairsOf ((l, w) :: es)) rest)
      fun hv hc hes =>
        ⟨_, _, hv.loosen (by decide), hc, hes.resolve_left (by simp [literalPairsOf])⟩
    refine .join (k := .colon) (by decide) (Key.writes_literal h.1.1) hrest ?_
    rintro ts t us rest hk ht ⟨c, ds, hv, hc, hes⟩
    exact Or.inr (.more (hk.loosen (by decide)) ht hv hc hes)

end

/-! ## Round trip -/

/-- What writes an expression parses to it. -/
theorem parse_of_writes {source : String} {x : Expr Unit}
    (h : Writes (Expression .unary · x ·) source.toList) :
    (parse source).diagnostics = [] ∧ (parse source).program = [.expr x] := by
  obtain ⟨ws, hscan, hderive⟩ := h
  have hscan' := hscan Seam.nil
  rw [List.append_nil] at hscan'
  obtain ⟨offset, hws⟩ := hscan' 0 false
  rw [Scanner.tokens_of_nil (s := ⟨[], offset, false⟩) rfl] at hws
  have htokens : (tokenize source).dropLast = Scanner.tokens ⟨source.toList, 0, false⟩ :=
    dropLast_tokenize source
  refine parse_of_program (htokens ▸ ?_)
  exact .unended (.expr ((hderive hws).loosen (by decide))) (fun hne => absurd rfl hne) .nil

/-- **Printed data evaluates back to itself.** The text of a datum, with the entries of each hash
printed in any order, has no diagnostics, and in every scope of every machine the parsed program
evaluates to a value that equals the datum. The machine is left as it was. -/
theorem printed_data_evaluates_back {v w : Value Unit} (hdata : v.isData = true)
    (horder : v.inOrder = true) (hw : v.Reordered w) (depth : Nat) (scope : ScopeId)
    (s : Machine Unit) :
    (parse w.display).diagnostics = [] ∧
      ∃ u, (parse w.display).program.run depth scope s = some (.ok u, s) ∧ u.same v = true := by
  obtain ⟨hnone, hprogram⟩ := parse_of_writes (w.writes_literal (hw.isData hdata))
  refine ⟨hnone, v, ?_, v.same_self⟩
  have hliteral : w.literal.eval (apply depth) scope = pure v := hw.eval_literal hdata horder
  rw [hprogram, Program.run_eq]
  show Option.map _ ((w.literal.eval (apply depth) scope >>= pure) s) = _
  rw [hliteral]
  rfl

/-- A datum with negative numbers, a nested hash and keys of both kinds. -/
def nestedData : Value Unit :=
  .hash [(.int (-3), .array [.int (-9223372036854775807), .int 9223372036854775807, .array []]),
    (.int 1, .hash [(.bool false, .hash []), (.bool true, .int 0)]), (.bool true, .bool false)]

/-- The same datum with the entries of its hashes the other way round. -/
def nestedDataReversed : Value Unit :=
  .hash [(.bool true, .bool false),
    (.int 1, .hash [(.bool true, .int 0), (.bool false, .hash [])]),
    (.int (-3), .array [.int (-9223372036854775807), .int 9223372036854775807, .array []])]

theorem printed_data_evaluates_back_nested : nestedData.isData = true ∧
    nestedData.inOrder = true ∧ nestedData.Reordered nestedDataReversed ∧
    ∃ u, (parse nestedDataReversed.display).program.run 0 0 { store := (Store.empty.add none).2 } =
        some (.ok u, { store := (Store.empty.add none).2 }) ∧
      u.same nestedData = true := by
  have hdata : nestedData.isData = true := by decide
  have horder : nestedData.inOrder = true := by decide
  have hinner : Value.Reordered (τ := Unit) (.hash [(.bool false, .hash []), (.bool true, .int 0)])
      (.hash [(.bool true, .int 0), (.bool false, .hash [])]) :=
    .hash (List.reverse_perm _).symm (entriesReordered_self _)
  have houter : nestedData.Reordered nestedDataReversed :=
    .hash (List.reverse_perm _).symm
      (.cons (.mk (.bool _)) (.cons (.mk hinner) (.cons (.mk (Value.reordered_self _)) .nil)))
  exact ⟨hdata, horder, houter, (printed_data_evaluates_back hdata horder houter 0 0 _).2⟩

end ClosureLang
