import ClosureLang.Proofs.Parse.Exact
import ClosureLang.Proofs.Token.Joining

/-!
# Derivations depend on the words they cover

A derivation from `ts` that leaves `rest` covers the tokens between the two. With one exception it
depends on nothing but the words of these tokens: it can be made from any tokens that say the same
words, whatever follows them. The exception is a block that nothing closes, which is a block only
where the input ends; it leaves more braces open than it closes. So where there are as many opening
as closing braces the exception is ruled out, and derivations can be moved and put one behind the
other.

`Local Q ts rest` is this alternative, with `Q` for what is said of the words that are covered. Each
constructor of the grammar is one combination of local parts, and `Expression.isLocal` and its
companions put these together. `Program.append` is what it comes to for a whole program, and
`ClosedSource.statements_append` for the text of one.
-/

namespace ClosureLang

namespace Grammar

/-! ## Braces -/

/-- How many braces are left open: the opening ones less the closing ones. -/
def nesting (ks : List TokenKind) : Int := ks.count .lbrace - ks.count .rbrace

@[simp] theorem nesting_nil : nesting [] = 0 := rfl

@[simp] theorem nesting_append (ks ls : List TokenKind) :
    nesting (ks ++ ls) = nesting ks + nesting ls := by
  simp only [nesting, List.count_append]
  omega

/-- The kinds that open or close a block, or end a statement. -/
def structural : List TokenKind := [.lbrace, .rbrace, .semicolon]

theorem nesting_singleton {k : TokenKind} (h : k ∉ [TokenKind.lbrace, .rbrace]) :
    nesting [k] = 0 := by
  revert h
  cases k <;> decide

/-! ## Local parts -/

/-- From `ts` to `rest` either a block stays open at the end of the input, or words are said that
open and close as many braces and of which `Q` holds. -/
def Local (Q : List Word → Prop) (ts rest : List Token) : Prop :=
  (rest = [] ∧ 0 < nesting (ts.map Token.kind)) ∨
    ∃ ws, Says ts ws rest ∧ nesting (ws.map Prod.fst) = 0 ∧ Q ws

namespace Local

variable {Q R S : List Word → Prop} {t : Token} {ts mid rest : List Token}

/-- What is said of the words that are covered may be weakened. -/
theorem imp (h : Local Q ts rest) (hQ : ∀ {ws}, Q ws → S ws) : Local S ts rest := by
  rcases h with hopen | ⟨ws, hws, hflat, hq⟩
  · exact Or.inl hopen
  · exact Or.inr ⟨ws, hws, hflat, hQ hq⟩

/-- Where nothing is covered there is nothing to depend on. -/
theorem nil (h : Q []) (ts : List Token) : Local Q ts ts :=
  Or.inr ⟨[], ⟨[], rfl, rfl⟩, rfl, h⟩

/-- A token that is no brace is covered by itself. -/
theorem token (ht : t.kind ∉ [TokenKind.lbrace, .rbrace]) (hQ : Q [t.word]) (rest : List Token) :
    Local Q (t :: rest) rest :=
  Or.inr ⟨[t.word], .token t rest, nesting_singleton ht, hQ⟩

/-- One local part behind the other. If the first leaves a block open, nothing is behind it; if the
second does, it is open for both. -/
theorem append (h₁ : Local Q ts mid) (h₂ : Local R mid rest)
    (hS : ∀ {ws vs}, Q ws → R vs → Says mid vs rest → S (ws ++ vs)) : Local S ts rest := by
  rcases h₁ with ⟨rfl, hopen⟩ | ⟨ws, hws, hflat, hq⟩
  · -- behind a block that stays open there is nothing
    rcases h₂ with ⟨rfl, -⟩ | ⟨vs, ⟨us, hus, -⟩, -⟩
    · exact Or.inl ⟨rfl, hopen⟩
    · exact Or.inl ⟨(List.nil_eq_append_iff.mp hus).2, hopen⟩
  · rcases h₂ with ⟨rfl, hopen⟩ | ⟨vs, hvs, hflat', hr⟩
    · refine Or.inl ⟨rfl, ?_⟩
      rw [hws.kinds, nesting_append, hflat]
      omega
    · refine Or.inr ⟨ws ++ vs, hws.trans hvs, ?_, hS hq hr hvs⟩
      rw [List.map_append, nesting_append, hflat, hflat']
      rfl

/-- Up to the end of the input no more braces are closed than opened. -/
theorem nesting_nonneg (h : Local Q ts []) : 0 ≤ nesting (ts.map Token.kind) := by
  rcases h with ⟨-, hopen⟩ | ⟨ws, hws, hflat, -⟩
  · omega
  · simp [hws.kinds, hflat]

end Local

/-! ## Words that spell something out -/

/-- The words do not end with a semicolon, and from all tokens that say them `D` holds. -/
def Spells (D : List Token → List Token → Prop) (ws : List Word) : Prop :=
  (∃ w ∈ ws.getLast?, w.1 ≠ .semicolon) ∧ ∀ {ts rest}, Says ts ws rest → D ts rest

/-- One token of a kind, with a literal. -/
inductive One (k : TokenKind) (s : String) : List Token → List Token → Prop where
  | mk {t rest} : t.kind = k → t.literal = s → One k s (t :: rest) rest

/-- One thing behind the other. -/
inductive Both (D E : List Token → List Token → Prop) : List Token → List Token → Prop where
  | mk {ts mid rest} : D ts mid → E mid rest → Both D E ts rest

/-- Something between braces. -/
inductive Enclosed (D : List Token → List Token → Prop) : List Token → List Token → Prop where
  | mk {t ts u rest} : t.kind = .lbrace → D ts (u :: rest) → u.kind = .rbrace →
      Enclosed D (t :: ts) rest

namespace Local

variable {D E F : List Token → List Token → Prop} {Q : List Word → Prop} {t u : Token}
  {ts mid rest : List Token} {k : TokenKind}

/-- What the words spell may be replaced by what follows from it. -/
theorem map (h : Local (Spells D) ts rest) (hF : ∀ ts rest, D ts rest → F ts rest) :
    Local (Spells F) ts rest :=
  h.imp fun hD => ⟨hD.1, fun hws => hF _ _ (hD.2 hws)⟩

/-- A token that is neither a brace nor a semicolon spells itself. -/
theorem one (ht : t.kind = k) (hk : k ∉ structural) :
    Local (Spells (One k t.literal)) (t :: rest) rest := by
  refine .token (fun h => hk ?_) ⟨⟨t.word, rfl, fun h => hk ?_⟩, fun hws => ?_⟩ rest
  · rw [← ht]
    exact List.mem_append_left [.semicolon] h
  · rw [← ht, show t.kind = .semicolon from h]
    decide
  · obtain ⟨u, us, rfl, hkind, hliteral, hus⟩ := hws.cons
    rw [hus.nil]
    exact .mk (hkind.trans ht) hliteral

/-- Two things that words spell, one behind the other. -/
theorem seq (hD : Local (Spells D) ts mid) (hE : Local (Spells E) mid rest) :
    Local (Spells (Both D E)) ts rest := by
  refine hD.append hE fun {ws vs} hD hE _ => ⟨?_, fun h => ?_⟩
  · obtain ⟨w, hw, hne⟩ := hE.1
    exact ⟨w, by simp [List.getLast?_append, Option.mem_def.mp hw], hne⟩
  · obtain ⟨us, hws, hvs⟩ := h.append
    exact .mk (hD.2 hws) (hE.2 hvs)

/-- What is between braces is local if what it holds is: both braces are there, so no block stays
open. -/
theorem enclosed (ht : t.kind = .lbrace) (hQ : Local Q ts (u :: rest)) (hu : u.kind = .rbrace)
    (hD : ∀ {ws ts rest}, Q ws → Says ts ws rest → D ts rest) :
    Local (Spells (Enclosed D)) (t :: ts) rest := by
  rcases hQ with ⟨hnil, -⟩ | ⟨ws, hws, hflat, hq⟩
  · cases hnil
  · have hsaid := ((Says.token t ts).trans hws).trans (.token u rest)
    refine Or.inr ⟨t.word :: ws ++ [u.word], hsaid, ?_, ⟨u.word, List.getLast?_concat, ?_⟩,
      fun h => ?_⟩
    · have hopen : nesting [t.kind] = 1 := by rw [ht]; rfl
      have hclose : nesting [u.kind] = -1 := by rw [hu]; rfl
      rw [List.map_append, nesting_append, List.map_cons, ← List.singleton_append, nesting_append,
        hflat]
      show nesting [t.kind] + 0 + nesting [u.kind] = 0
      omega
    · show u.kind ≠ .semicolon
      rw [hu]
      decide
    · obtain ⟨us, hinner, hlast⟩ := h.append
      obtain ⟨t', ts', rfl, ht', -, hinner⟩ := hinner.cons
      obtain ⟨u', us', rfl, hu', -, hend⟩ := hlast.cons
      rw [hend.nil] at hinner
      exact .mk (ht'.trans ht) (hD hq hinner) (hu'.trans hu)

/-- A block that stays open. -/
theorem unclosed (ht : t.kind = .lbrace) (hQ : Local Q ts []) : Local (Spells F) (t :: ts) [] := by
  have hopen : nesting [t.kind] = 1 := by rw [ht]; rfl
  have hinner := hQ.nesting_nonneg
  refine Or.inl ⟨rfl, ?_⟩
  rw [List.map_cons, ← List.singleton_append, nesting_append]
  omega

end Local

/-! ## Sequences of statements -/

/-- The statements `q` that start at `mid` may follow some words: the words are empty or end with a
semicolon, or `q` starts with no token that could go on with an expression. -/
def Joins (ws : List Word) (q : List (Stmt Unit)) (mid : List Token) : Prop :=
  ∀ w ∈ ws.getLast?, w.1 ≠ .semicolon → q ≠ [] → firstKind mid ∉ ambiguous

/-- Only the last word matters to what may follow. -/
theorem Joins.of_append {ws vs : List Word} {q : List (Stmt Unit)} {mid : List Token}
    (h : Joins (ws ++ vs) q mid) : Joins vs q mid :=
  fun w hw => h w (by simp [List.getLast?_append, Option.mem_def.mp hw])

/-- The words are those of the statements `b`, also where further statements follow them. -/
structure SpellsAll (b : List (Stmt Unit)) (ws : List Word) : Prop where
  eq_nil_iff : ws = [] ↔ b = []
  append {ts mid rest : List Token} {q : List (Stmt Unit)} : Says ts ws mid → Joins ws q mid →
    Statements mid q rest → Statements ts (b ++ q) rest

namespace SpellsAll

variable {s : Stmt Unit} {b : List (Stmt Unit)} {t : Token} {ws vs : List Word}
  {ts us rest : List Token}

/-- The words alone are read as these statements, with nothing behind them. -/
theorem statements (h : SpellsAll b ws) (hws : Says ts ws rest) : Statements ts b rest := by
  have hb := h.append hws (q := []) (fun _ _ _ hne => absurd rfl hne) .nil
  rwa [List.append_nil] at hb

theorem nil : SpellsAll [] [] where
  eq_nil_iff := by simp
  append hws _ hq := hws.nil ▸ hq

/-- After a semicolon any statement may come. -/
theorem ended (hs : Spells (Statement · s ·) ws) (ht : t.kind = .semicolon) (hb : SpellsAll b vs) :
    SpellsAll (s :: b) (ws ++ (t.word :: vs)) where
  eq_nil_iff := by simp
  append h hjoins hq := by
    obtain ⟨mid, hws, h⟩ := h.append
    obtain ⟨t', us, rfl, ht', -, hvs⟩ := h.cons
    rw [← List.singleton_append, ← List.append_assoc] at hjoins
    exact .ended (hs.2 hws) (ht'.trans ht) (hb.append hvs hjoins.of_append hq)

/-- Without a semicolon the next statement has to start with a token that does not go on with this
one. -/
theorem unended (hs : Spells (Statement · s ·) ws) (hb : SpellsAll b vs) (hus : Says us vs rest)
    (hne : b ≠ [] → firstKind us ∉ ambiguous) : SpellsAll (s :: b) (ws ++ vs) where
  eq_nil_iff := by
    obtain ⟨w, hw, -⟩ := hs.1
    have hws : ws ≠ [] := by
      rintro rfl
      cases hw
    simp [hws]
  append {ts mid rest q} h hjoins hq := by
    obtain ⟨us', hws, hvs⟩ := h.append
    refine .unended (hs.2 hws) (fun hbq => ?_) (hb.append hvs hjoins.of_append hq)
    cases vs with
    | nil =>
      -- the statement is the last of its block, so it meets what follows the block
      obtain ⟨w, hw, hsemicolon⟩ := hs.1
      have hnil : b = [] := hb.eq_nil_iff.mp rfl
      rw [hnil] at hbq
      rw [hvs.nil]
      exact hjoins w (by rwa [List.append_nil]) hsemicolon hbq
    | cons v vs =>
      -- the next statement starts with the same word wherever it stands
      obtain ⟨u, us₁, rfl, hu, -⟩ := hus.cons
      obtain ⟨u', us₁', rfl, hu', -⟩ := hvs.cons
      have hkind : u'.kind = u.kind := hu'.trans hu.symm
      rw [firstKind_cons, hkind]
      exact hne fun hnil => absurd (hb.eq_nil_iff.mpr hnil) (List.cons_ne_nil _ _)

end SpellsAll

/-! ## Derivations are local -/

theorem not_mem_structural_of_binary {l : Precedence} {k : TokenKind} {op : BinaryOp}
    (h : (k, op) ∈ binaryOperators l) : k ∉ structural := by
  revert h
  cases l <;> simp [binaryOperators, structural] <;> grind

theorem not_mem_structural_of_unary {k : TokenKind} {op : UnaryOp}
    (h : (k, op) ∈ unaryOperators) : k ∉ structural := by
  revert h
  simp [unaryOperators, structural]
  grind

/-- Names depend on their words only, since they hold no block. -/
theorem Names.isLocal {ts : List Token} {ns : List String} {rest : List Token}
    (h : Names ts ns rest) : Local (Spells (Names · ns ·)) ts rest := by
  induction h with
  | one ht => exact (Local.one ht (by decide)).map fun | _, _, .mk hu hs => hs ▸ .one hu
  | more ht hc _ ih =>
    refine ((Local.one ht (by decide)).seq ((Local.one hc (by decide)).seq ih)).map ?_
    rintro _ _ ⟨⟨hu, hs⟩, ⟨⟨hc, -⟩, hns⟩⟩
    exact hs ▸ .more hu hc hns

theorem Parameters.isLocal {ts : List Token} {ns : List String} {rest : List Token} :
    Parameters ts ns rest → Local (Spells (Parameters · ns ·)) ts rest
  | .empty ht => (Local.one ht (by decide)).map fun | _, _, .mk ht _ => .empty ht
  | .filled hns ht =>
    (hns.isLocal.seq (.one ht (by decide))).map fun | _, _, .mk hns (.mk ht _) => .filled hns ht

mutual

/-- **Expressions are local.** Each rule of the grammar is put together from the parts that it has.
-/
theorem Expression.isLocal {l : Precedence} {ts : List Token} {x : Expr Unit} {rest : List Token} :
    Expression l ts x rest → Local (Spells (Expression l · x ·)) ts rest
  | .tighter hlm hx => hx.isLocal.map fun _ _ => .tighter hlm
  | .binary hlm hop hx hy =>
    (hx.isLocal.seq ((Local.one rfl (not_mem_structural_of_binary hop)).seq hy.isLocal)).map
      fun | _, _, .mk hx (.mk (.mk hu _) hy) => .binary hlm (hu ▸ hop) hx hy
  | .unary hop hx =>
    ((Local.one rfl (not_mem_structural_of_unary hop)).seq hx.isLocal).map
      fun | _, _, .mk (.mk hu _) hx => .unary (hu ▸ hop) hx
  | .call hf ht hxs =>
    (hf.isLocal.seq ((Local.one ht (by decide)).seq (hxs.isLocal (by decide)))).map
      fun | _, _, .mk hf (.mk (.mk ht _) hxs) => .call hf ht hxs
  | .index hx ht hi hu =>
    (hx.isLocal.seq ((Local.one ht (by decide)).seq (hi.isLocal.seq (.one hu (by decide))))).map
      fun | _, _, .mk hx (.mk (.mk ht _) (.mk hi (.mk hu _))) => .index hx ht hi hu
  | .primary hx => hx.isLocal.map fun _ _ => .primary

theorem Primary.isLocal {ts : List Token} {x : Expr Unit} {rest : List Token} :
    Primary ts x rest → Local (Spells (Primary · x ·)) ts rest
  | .name ht => (Local.one ht (by decide)).map fun | _, _, .mk ht hs => hs ▸ .name ht
  | .int ht hk => (Local.one ht (by decide)).map fun | _, _, .mk ht hs => .int ht (hs ▸ hk)
  | .text ht => (Local.one ht (by decide)).map fun | _, _, .mk ht hs => hs ▸ .text ht
  | .yes ht => (Local.one ht (by decide)).map fun | _, _, .mk ht _ => .yes ht
  | .no ht => (Local.one ht (by decide)).map fun | _, _, .mk ht _ => .no ht
  | .group ht hx hu =>
    ((Local.one ht (by decide)).seq (hx.isLocal.seq (.one hu (by decide)))).map
      fun | _, _, .mk (.mk ht _) (.mk hx (.mk hu _)) => .group ht hx hu
  | .array ht hxs =>
    ((Local.one ht (by decide)).seq (hxs.isLocal (by decide))).map
      fun | _, _, .mk (.mk ht _) hxs => .array ht hxs
  | .hash ht hps => hps.isLocal ht
  | .cond ht hx hb =>
    ((Local.one ht (by decide)).seq (hx.isLocal.seq hb.isLocal)).map
      fun | _, _, .mk (.mk ht _) (.mk hx hb) => .cond ht hx hb
  | .condElse ht hx hb hu hc =>
    ((Local.one ht (by decide)).seq
      (hx.isLocal.seq (hb.isLocal.seq ((Local.one hu (by decide)).seq hc.isLocal)))).map
      fun | _, _, .mk (.mk ht _) (.mk hx (.mk hb (.mk (.mk hu _) hc))) => .condElse ht hx hb hu hc
  | .fn ht hu hns hb =>
    ((Local.one ht (by decide)).seq
      ((Local.one hu (by decide)).seq (hns.isLocal.seq hb.isLocal))).map
      fun | _, _, .mk (.mk ht _) (.mk (.mk hu _) (.mk hns hb)) => .fn ht hu hns hb

theorem Expressions.isLocal {ts : List Token} {xs : List (Expr Unit)} {rest : List Token} :
    Expressions ts xs rest → Local (Spells (Expressions · xs ·)) ts rest
  | .one hx => hx.isLocal.map fun _ _ => .one
  | .more hx hc hxs =>
    (hx.isLocal.seq ((Local.one hc (by decide)).seq hxs.isLocal)).map
      fun | _, _, .mk hx (.mk (.mk hc _) hxs) => .more hx hc hxs

theorem Elements.isLocal {close : TokenKind} {ts : List Token} {xs : List (Expr Unit)}
    {rest : List Token} : Elements close ts xs rest → close ∉ structural →
      Local (Spells (Elements close · xs ·)) ts rest
  | .empty ht, hclose => (Local.one ht hclose).map fun | _, _, .mk ht _ => .empty ht
  | .filled hxs ht, hclose =>
    (hxs.isLocal.seq (.one ht hclose)).map fun | _, _, .mk hxs (.mk ht _) => .filled hxs ht

theorem Pairs.isLocal {ts : List Token} {ps : List (Expr Unit × Expr Unit)} {rest : List Token} :
    Pairs ts ps rest → Local (Spells (Pairs · ps ·)) ts rest
  | .one hk hc hv =>
    (hk.isLocal.seq ((Local.one hc (by decide)).seq hv.isLocal)).map
      fun | _, _, .mk hk (.mk (.mk hc _) hv) => .one hk hc hv
  | .more hk hc hv hd hps =>
    (hk.isLocal.seq ((Local.one hc (by decide)).seq
      (hv.isLocal.seq ((Local.one hd (by decide)).seq hps.isLocal)))).map
      fun | _, _, .mk hk (.mk (.mk hc _) (.mk hv (.mk (.mk hd _) hps))) => .more hk hc hv hd hps

/-- The entries of a hash literal close the brace in front of them. -/
theorem Entries.isLocal {t : Token} {ts : List Token} {ps : List (Expr Unit × Expr Unit)}
    {rest : List Token} : Entries ts ps rest → t.kind = .lbrace →
      Local (Spells (Primary · (.hash ps) ·)) (t :: ts) rest
  | .empty hu, ht =>
    (Local.enclosed (D := (· = ·)) ht (.nil (Q := (· = [])) rfl _) hu
      fun hq hws => (hq ▸ hws).nil).map
      fun | _, _, .mk ht hts hu => .hash ht (hts ▸ .empty hu)
  | .filled hps hu, ht =>
    (Local.enclosed ht hps.isLocal hu fun hq hws => hq.2 hws).map
      fun | _, _, .mk ht hps hu => .hash ht (.filled hps hu)
  | .comma hps hc hu, ht =>
    (Local.enclosed ht (hps.isLocal.seq (.one hc (by decide))) hu fun hq hws => hq.2 hws).map
      fun | _, _, .mk ht (.mk hps (.mk hc _)) hu => .hash ht (.comma hps hc hu)

theorem Statement.isLocal {ts : List Token} {s : Stmt Unit} {rest : List Token} :
    Statement ts s rest → Local (Spells (Statement · s ·)) ts rest
  | .bind ht hu hv hx =>
    ((Local.one ht (by decide)).seq ((Local.one hu (by decide)).seq
      ((Local.one hv (by decide)).seq hx.isLocal))).map
      fun | _, _, .mk (.mk ht _) (.mk (.mk hu hs) (.mk (.mk hv _) hx)) => hs ▸ .bind ht hu hv hx
  | .ret ht hx =>
    ((Local.one ht (by decide)).seq hx.isLocal).map fun | _, _, .mk (.mk ht _) hx => .ret ht hx
  | .expr hx => hx.isLocal.map fun _ _ => .expr

/-- The words of statements also spell them in front of further statements. -/
theorem Statements.isLocal {ts : List Token} {b : List (Stmt Unit)} {rest : List Token} :
    Statements ts b rest → Local (SpellsAll b) ts rest
  | .nil => .nil .nil _
  | @Statements.ended t _ us s b rest hs ht hb => by
    have htoken := Local.token (Q := (· = [t.word])) (by rw [ht]; decide) rfl us
    have htail : Local (fun ws => ∃ vs, ws = t.word :: vs ∧ SpellsAll b vs) (t :: us) rest :=
      htoken.append hb.isLocal fun hw hvs _ => ⟨_, by rw [hw]; rfl, hvs⟩
    refine hs.isLocal.append htail ?_
    rintro ws _ hs ⟨vs, rfl, hb⟩ -
    exact .ended hs ht hb
  | .unended hs hne hb => hs.isLocal.append hb.isLocal fun hs hb hus => .unended hs hb hus hne

/-- A block is local if it is closed. If it is not, the input ends in it. -/
theorem Braced.isLocal {ts : List Token} {b : List (Stmt Unit)} {rest : List Token} :
    Braced ts b rest → Local (Spells (Braced · b ·)) ts rest
  | .closed ht hb hu =>
    (Local.enclosed ht hb.isLocal hu fun hq hws => hq.statements hws).map
      fun | _, _, .mk ht hb hu => .closed ht hb hu
  | .unclosed ht hb => .unclosed ht hb.isLocal

end

/-! ## Programs -/

/-- A program that closes all its blocks depends on its words only. -/
theorem Program.spellsAll {ts : List Token} {p : List (Stmt Unit)} (h : Program ts p)
    (hflat : nesting (ts.map Token.kind) = 0) : SpellsAll p (ts.map Token.word) := by
  rcases Statements.isLocal h with ⟨-, hopen⟩ | ⟨ws, ⟨vs, hvs, hws⟩, -, hp⟩
  · omega
  · rw [List.append_nil] at hvs
    rwa [hvs, hws]

/-- **A program that closes all its blocks and ends with a semicolon can be followed by another.**
It can be made from any tokens that say its words, before any statements. -/
theorem Program.append {ts us mid rest : List Token} {p q : List (Stmt Unit)} (h : Program ts p)
    (hflat : nesting (ts.map Token.kind) = 0) (hlast : ∀ t ∈ ts.getLast?, t.kind = .semicolon)
    (hus : Says us (ts.map Token.word) mid) (hq : Statements mid q rest) :
    Statements us (p ++ q) rest := by
  refine (h.spellsAll hflat).append hus (fun w hw hne => absurd ?_ hne) hq
  rw [List.getLast?_map] at hw
  obtain ⟨t, ht, rfl⟩ := Option.map_eq_some_iff.mp hw
  exact hlast t ht

end Grammar

open Grammar

/-! ## Sources that leave nothing open -/

/-- A source without diagnostics that has as many opening as closing braces and ends with a
semicolon. -/
structure ClosedSource (source : String) : Prop where
  quiet : (parse source).diagnostics = []
  braces : ((tokenize source).map Token.kind).count .lbrace =
    ((tokenize source).map Token.kind).count .rbrace
  ended : (tokenize source).dropLast.getLast?.map Token.kind = some .semicolon

instance (source : String) : Decidable (ClosedSource source) :=
  decidable_of_iff (_ ∧ _ ∧ _)
    ⟨fun h => ⟨h.1, h.2.1, h.2.2⟩, fun h => ⟨h.quiet, h.braces, h.ended⟩⟩

namespace ClosedSource

variable {source : String}

/-- The source is a program of the grammar. -/
theorem isProgram (h : ClosedSource source) :
    Grammar.Program (Scanner.ofString source).tokens (parse source).program := by
  rw [← dropLast_tokenize]
  exact program_of_diagnostics_eq_nil h.quiet

theorem exists_semicolon (h : ClosedSource source) :
    ∃ t, (Scanner.ofString source).tokens.getLast? = some t ∧ t.kind = .semicolon := by
  have hended := h.ended
  rw [dropLast_tokenize] at hended
  exact Option.map_eq_some_iff.mp hended

/-- The last token of the source, if there is one, is a semicolon. -/
theorem last_kind (h : ClosedSource source) :
    ∀ t ∈ (Scanner.ofString source).tokens.getLast?, t.kind = .semicolon := by
  obtain ⟨t, ht, hkind⟩ := h.exists_semicolon
  intro u hu
  rw [ht] at hu
  cases hu
  exact hkind

/-- The braces of the source are closed as often as opened, also without the token that ends it. -/
theorem nesting_eq_zero (h : ClosedSource source) :
    nesting ((Scanner.ofString source).tokens.map Token.kind) = 0 := by
  have hall : nesting ((tokenize source).map Token.kind) = 0 := by
    rw [nesting, h.braces, Int.sub_self]
  have htokens : tokenize source =
      (Scanner.ofString source).tokens ++ [Token.ending (Scanner.ofString source).stop] := rfl
  rwa [htokens, List.map_append, nesting_append, List.map_singleton, Token.ending_kind,
    nesting_singleton (by decide), Int.add_zero] at hall

/-- A source that ends with a semicolon has a statement. -/
theorem program_ne_nil (h : ClosedSource source) : (parse source).program ≠ [] := by
  intro hnil
  have hempty := (h.isProgram.spellsAll h.nesting_eq_zero).eq_nil_iff.mpr hnil
  obtain ⟨t, ht, -⟩ := h.exists_semicolon
  rw [List.map_eq_nil_iff.mp hempty] at ht
  cases ht

/-- What follows the source is parsed as if it stood alone. -/
theorem statements_append (h : ClosedSource source) {rest : List Char} {q : List (Stmt Unit)}
    (hq : ∀ offset, Statements (Scanner.tokens ⟨rest, offset, false⟩) q []) (offset : Nat) :
    Statements (Scanner.tokens ⟨source.toList ++ rest, offset, false⟩) ((parse source).program ++ q)
      [] := by
  obtain ⟨offset', htokens⟩ := Scanner.scans_append h.last_kind rest offset false
  exact h.isProgram.append h.nesting_eq_zero h.last_kind htokens (hq offset')

end ClosedSource

end ClosureLang
