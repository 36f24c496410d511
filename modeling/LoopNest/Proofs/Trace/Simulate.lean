import LoopNest.Proofs.Trace.Layout
import LoopNest.Proofs.Trace.Rewrite

/-!
# Runs side by side

Two blocks that say the same in other words have traces that go side by side. What that means is the
matter of a `Simulation`: how the layouts, the places, the views and the values of the two runs are
related, and what their actions do to what is related. What the second block says is the matter of a
`Rewording`: which accesses and windows of it stand for those of the first one, under which names it
allocates, and which statements it leaves out.

If the words go with the environments of the two runs (`Rewording.Sound`), then wherever the first
block has a trace the second one has a trace that follows it (`Rewording.Turns.traceAll`). All
comparisons of a block with another form of it are instances.
-/

namespace LoopNest

open Stmt Evaluator

variable {p : Place} {idx idx' : List Expr} {args args' : List Window}

/-! ## Simulations -/

/-- A place that an access may lead to. -/
def Layout.HasPlace (lay : Layout) (p : Place) : Prop :=
  ∃ s cs, lay[p.1]? = some s ∧ Tensor.offsetFrom? 0 s.shape cs = some p.2

theorem View.hasPlace {v : View} {lay : Layout} {ns : List Word} (h : v.place? lay ns = some p) :
    lay.HasPlace p := by
  simp only [place?, option_bind_eq_some] at h
  obtain ⟨cs, -, s, hs, o, ho, h⟩ := h
  cases h
  exact ⟨s, cs, hs, ho⟩

theorem Evaluator.hasPlace {ev : Evaluator} {env : Env} {lay : Layout} {b : String}
    (h : ev.place env lay b idx = some p) : lay.HasPlace p := by
  obtain ⟨v, -, h⟩ := Option.bind_eq_some_iff.1 h
  obtain ⟨ns, -, h⟩ := Option.bind_eq_some_iff.1 h
  exact View.hasPlace h

/-- How two runs go side by side. `envs` relates the environments in which both call a template. -/
structure Simulation where
  layouts : Layout → Layout → Prop
  places : Place → Place → Prop
  views : View → View → Prop
  envs : Env → Env → Prop
  terms : Layout → Layout → Term → Term → Prop
  actions : Layout → Layout → List Action → List Action → Prop
  /-- An index leads to related places, -/
  view_place : ∀ {lay lay' v v' ns p}, layouts lay lay' → views v v' → v.place? lay ns = some p →
    ∃ q, places p q ∧ v'.place? lay' ns = some q
  /-- and a window shows related parts. -/
  view_cut : ∀ {v v' cuts dims}, views v v' → View.Narrows v.dims cuts dims →
    ∃ dims', View.Narrows v'.dims cuts dims' ∧
      views { v with dims := dims } { v' with dims := dims' }
  envs_nil : envs [] []
  envs_bind : ∀ {env env' v v'} x, envs env env' → views v v' →
    envs (env.bind x (.buffer v)) (env'.bind x (.buffer v'))
  word : ∀ {lay lay'} n, terms lay lay' (.word n) (.word n)
  float : ∀ {lay lay'} x, terms lay lay' (.float x) (.float x)
  load : ∀ {lay lay' p q s}, layouts lay lay' → places p q → lay[p.1]? = some s → p.2 < s.size →
    (∃ s', lay'[q.1]? = some s' ∧ q.2 < s'.size) ∧ terms lay lay' (.load p) (.load q)
  binary : ∀ {lay lay' l l' r r'} op, terms lay lay' l l' → terms lay lay' r r' →
    terms lay lay' (.binary op l r) (.binary op l' r')
  neg : ∀ {lay lay' t t'}, terms lay lay' t t' → terms lay lay' (.neg t) (.neg t')
  nil : ∀ {lay lay'}, layouts lay lay' → actions lay lay' [] []
  after : ∀ {lay lay' a a'}, layouts lay lay' → actions lay lay' a a' →
    layouts (lay.after a) (lay'.after a')
  append : ∀ {lay lay' a a' b b'}, Grows lay a → actions lay lay' a a' →
    actions (lay.after a) (lay'.after a') b b' → actions lay lay' (a ++ b) (a' ++ b')
  scope : ∀ {lay lay' a a'}, layouts lay lay' → Grows lay a → Grows lay' a' →
    actions lay lay' a a' → actions lay lay' (scope lay a) (scope lay' a')
  store : ∀ {lay lay' p q t t'} u, layouts lay lay' → lay.HasPlace p → places p q →
    terms lay lay' t t' → actions lay lay' [.store u p t] [.store u q t']
  alloc : ∀ {lay lay'} ty shape size, layouts lay lay' →
    actions lay lay' [.alloc ty shape size] [.alloc ty shape size]

namespace Simulation

variable (S : Simulation)

/-- Wherever the first gives a trace the second one gives a trace that follows it, and related
environments stay so. -/
def Follows (E : Env → Env → Prop) (run run' : Env → Layout → Option (List Action × Env)) : Prop :=
  ∀ ⦃env env' e : Env⦄ ⦃lay lay' : Layout⦄ ⦃acts : List Action⦄, S.layouts lay lay' → E env env' →
    run env lay = some (acts, e) →
      ∃ acts' e', run' env' lay' = some (acts', e') ∧ S.actions lay lay' acts acts' ∧ E e e'

/-- The bodies of templates follow each other. -/
def Keeps (callee : Callee) : Prop :=
  ∀ ⦃env env' : Env⦄ ⦃lay lay' : Layout⦄ ⦃b : Block⦄ ⦃acts : List Action⦄, S.layouts lay lay' →
    S.envs env env' → callee env lay b = some acts →
      ∃ acts', callee env' lay' b = some acts' ∧ S.actions lay lay' acts acts'

theorem keeps_none : S.Keeps fun _ _ _ => none := by simp [Keeps]

variable {S}

theorem Follows.cons {c : Catalog} {callee : Callee} {ev : Evaluator} {E : Env → Env → Prop}
    {rest rest' : Block} (hc : callee.Closed) {s s' : Stmt}
    (hs : S.Follows E (s.trace ev c callee · ·) (s'.trace ev c callee · ·))
    (hrest : S.Follows E (traceAll ev c callee · · rest) (traceAll ev c callee · · rest')) :
    S.Follows E (traceAll ev c callee · · (s :: rest))
      (traceAll ev c callee · · (s' :: rest')) := by
  intro env env' e lay lay' acts hlay henv ht
  obtain ⟨a, e₁, a₂, e₂, ha, ha₂, ⟨⟩⟩ := traceAll_cons.1 ht
  obtain ⟨x, f, hx, hact, hE⟩ := hs hlay henv ha
  obtain ⟨y, f', hy, hact', hE'⟩ := hrest (S.after hlay hact) hE ha₂
  exact ⟨x ++ y, f', traceAll_cons.2 ⟨x, f, y, f', hx, hy, rfl⟩,
    S.append (trace_grows hc ha).2 hact hact', hE'⟩

theorem rounds {lay lay' : Layout} (hlay : S.layouts lay lay') {κ : Type} {l : List κ}
    {g g' : κ → List Action}
    (h : ∀ k ∈ l, S.actions lay lay' (g k) (g' k) ∧ Closes lay (g k) ∧ Closes lay' (g' k)) :
    S.actions lay lay' (l.flatMap g) (l.flatMap g') := by
  induction l with
  | nil => exact S.nil hlay
  | cons k l ih =>
    obtain ⟨hk, hc, hc'⟩ := h k (.head _)
    refine S.append hc.grows hk ?_
    rw [hc.after, hc'.after]
    exact ih fun j hj => h j (.tail _ hj)

section parts

variable (S) {ev : Evaluator} {env env' : Env} {lay lay' : Layout}

theorem term_var {x : String} {n : Word} (h : env'.value? x = some n) (lay lay' : Layout) :
    ∃ t, ev.term env' lay' (.var x) = some t ∧ S.terms lay lay' (.word n) t :=
  ⟨.word n, by rw [Evaluator.term, h]; rfl, S.word n⟩

variable {f : Expr → Expr} (hkeep : ev.Keeps env env' f) {b b' : String}
  (hview : ∀ {v}, env.view? b = some v → ∃ v', env'.view? b' = some v' ∧ S.views v v')

include hkeep hview

theorem place (hlay : S.layouts lay lay') (hp : ev.place env lay b idx = some p) :
    ∃ q, S.places p q ∧ ev.place env' lay' b' (idx.map f) = some q := by
  obtain ⟨v, ns, hv, hns, hp⟩ := place_eq_some.1 hp
  obtain ⟨v', hv', hviews⟩ := hview hv
  obtain ⟨q, hq, hplace⟩ := S.view_place hlay hviews hp
  exact ⟨q, hq, place_eq_some.2 ⟨v', ns, hv', hkeep.indices hns, hplace⟩⟩

theorem window {dims : List WindowDim} {v : View} (hv : ev.window env ⟨b, dims⟩ = some v) :
    ∃ v', ev.window env' ⟨b', dims.map (·.mapExprs f)⟩ = some v' ∧ S.views v v' := by
  obtain ⟨u, cuts, dims₁, hu, hcuts, hdims, rfl⟩ := window_eq_some.1 hv
  obtain ⟨u', hu', hviews⟩ := hview hu
  obtain ⟨dims', hdims', hviews'⟩ := S.view_cut hviews hdims
  exact ⟨_, window_eq_some.2 ⟨u', cuts, dims', hu', hkeep.cuts hcuts, hdims', rfl⟩, hviews'⟩

end parts

/-- What holds of blocks that call nothing, and of blocks whose callees keep to it, holds at every
depth. -/
theorem keeps_trace {c : Catalog}
    (hstep : ∀ {callee : Callee} {ev : Evaluator}, callee.Closed → S.Keeps callee →
      ∃ E : Env → Env → Prop, (∀ {env env'}, S.envs env env' → E env env') ∧ ∀ b,
        S.Follows E (traceAll ev c callee · · b) (traceAll ev c callee · · b))
    (depth : Nat) (ev : Evaluator) : S.Keeps (Block.trace c depth ev) := by
  have hbody : ∀ {callee : Callee} {ev : Evaluator}, callee.Closed → S.Keeps callee →
      S.Keeps fun env lay b => (traceAll ev c callee env lay b).map (LoopNest.scope lay ·.1) := by
    intro callee ev hc hcallee env env' lay lay' b acts hlay henv h
    obtain ⟨E, henvs, hfollows⟩ := hstep hc hcallee
    obtain ⟨⟨a, e⟩, ha, rfl⟩ := Option.map_eq_some_iff.1 h
    obtain ⟨a', e', ha', hact, -⟩ := hfollows b hlay (henvs henv) ha
    exact ⟨_, Option.map_eq_some_iff.2 ⟨_, ha', rfl⟩,
      S.scope hlay (traceAll_grows hc _ ha) (traceAll_grows hc _ ha') hact⟩
  induction depth generalizing ev with
  | zero => exact hbody Callee.closed_none S.keeps_none
  | succ depth ih => exact hbody (Block.trace_closed c depth .checked) (ih .checked)

/-- The same actions on the same layout. -/
def same : Simulation where
  layouts := Eq
  places := Eq
  views := Eq
  envs := Eq
  terms _ _ := Eq
  actions _ _ := Eq
  view_place := by
    rintro lay _ v _ ns p rfl rfl hp
    exact ⟨p, rfl, hp⟩
  view_cut := by
    rintro v _ cuts dims rfl hdims
    exact ⟨dims, hdims, rfl⟩
  envs_nil := rfl
  envs_bind := by
    rintro env _ v _ x rfl rfl
    rfl
  word _ := rfl
  float _ := rfl
  load := by
    rintro lay _ p _ s rfl rfl hs hp
    exact ⟨⟨s, hs, hp⟩, rfl⟩
  binary _ hl hr := by rw [hl, hr]
  neg ht := by rw [ht]
  nil _ := rfl
  after hlay ha := by rw [hlay, ha]
  append _ ha hb := by rw [ha, hb]
  scope hlay _ _ ha := by rw [hlay, ha]
  store _ _ _ hp ht := by rw [hp, ht]
  alloc _ _ _ _ := rfl

theorem same_whole {lay lay' : Layout} (x : String) (shape : List Nat) (h : lay = lay') :
    View.whole lay.length x shape = .whole lay'.length x shape := by
  rw [h]

theorem keeps_same (callee : Callee) : same.Keeps callee := by
  rintro env _ lay _ b acts rfl rfl h
  exact ⟨acts, h, rfl⟩

end Simulation

/-! ## Other words -/

/-- How one block says what another one says: by other index expressions, accesses and windows, and
with other names for what it allocates. Only the names in `binds` may be bound. Statements in `omits`
are left out. -/
structure Rewording where
  index : Expr → Expr := id
  access : String → List Expr → String → List Expr → Prop
  window : Window → Window → Prop
  name : String → String := id
  binds : String → Prop
  omits : Stmt → Prop := fun _ => False

namespace Rewording

variable (w : Rewording)

/-- The second data expression is the first one with its reads reworded, and its variables as in index
expressions. -/
inductive Data : Expr → Expr → Prop
  | var (v : String) : Data (.var v) (w.index (.var v))
  | int (n : Word) : Data (.int n) (.int n)
  | float (x : Float) : Data (.float x) (.float x)
  | read {b b' : String} {idx idx' : List Expr} :
    w.access b idx b' idx' → Data (.read b idx) (.read b' idx')
  | binary {op : Op} {l l' r r' : Expr} :
    Data l l' → Data r r' → Data (.binary op l r) (.binary op l' r')
  | neg {e e' : Expr} : Data e e' → Data (.neg e) (.neg e')

/-- The second block is the first one reworded. -/
inductive Turns : Block → Block → Prop
  | nil : Turns [] []
  | loop {h : Header} {body body' rest rest' : Block} : w.binds h.var → Turns body body' →
    Turns rest rest' →
    Turns (.loop h body :: rest) (.loop { h with bound := w.index h.bound } body' :: rest')
  | guard {e : Expr} {body body' rest rest' : Block} : Turns body body' → Turns rest rest' →
    Turns (.guard e body :: rest) (.guard (w.index e) body' :: rest')
  | store {u : Update} {b b' : String} {idx idx' : List Expr} {rhs rhs' : Expr}
      {rest rest' : Block} : w.access b idx b' idx' → w.Data rhs rhs' → Turns rest rest' →
    Turns (.store u b idx rhs :: rest) (.store u b' idx' rhs' :: rest')
  | alloc {d : Decl} {rest rest' : Block} : w.binds d.name → Turns rest rest' →
    Turns (.alloc d :: rest)
      (.alloc { d with name := w.name d.name, shape := d.shape.map w.index } :: rest')
  | call {t : String} {args args' : List Window} {rest rest' : Block} :
    List.Forall₂ w.window args args' → Turns rest rest' →
    Turns (.call t args :: rest) (.call t args' :: rest')
  | drop {s : Stmt} {rest rest' : Block} : w.omits s → Turns rest rest' → Turns (s :: rest) rest'

/-- Where `E` relates the environments of the two runs, both blocks mean the same by their words, and
bindings keep the environments related. -/
structure Sound (S : Simulation) (ev : Evaluator) (E : Env → Env → Prop) : Prop where
  keeps : ∀ {env env'}, E env env' → ev.Keeps env env' w.index
  operands : ∀ op l r, w.index (.binary op l r) = .binary op (w.index l) (w.index r)
  value : ∀ {env env' x n} lay lay', E env env' → env.value? x = some n →
    ∃ t, ev.term env' lay' (w.index (.var x)) = some t ∧ S.terms lay lay' (.word n) t
  place : ∀ {env env' lay lay' b b' idx idx' p}, S.layouts lay lay' → E env env' →
    w.access b idx b' idx' → ev.place env lay b idx = some p →
      ∃ q, S.places p q ∧ ev.place env' lay' b' idx' = some q
  view : ∀ {env env' a a' v}, E env env' → w.window a a' → ev.window env a = some v →
    ∃ v', ev.window env' a' = some v' ∧ S.views v v'
  bind_index : ∀ {env env' x} n, w.binds x → E env env' →
    E (env.bind x (.index n)) (env'.bind x (.index n))
  bind_whole : ∀ {env env' x lay lay'} shape, w.binds x → S.layouts lay lay' → E env env' →
    E (env.bind x (.buffer (.whole lay.length x shape)))
      (env'.bind (w.name x) (.buffer (.whole lay'.length (w.name x) shape)))
  omits : ∀ {c callee env env' e lay lay' s acts}, w.omits s → S.layouts lay lay' → E env env' →
    s.trace ev c callee env lay = some (acts, e) → S.actions lay lay' acts [] ∧ E e env'

variable {w} {S : Simulation} {ev : Evaluator} {E : Env → Env → Prop}

namespace Sound

variable (hw : w.Sound S ev E)
include hw

section parts

variable {env env' : Env} {lay lay' : Layout}

/-- A read finds a related element. -/
theorem load (hlay : S.layouts lay lay') (h : E env env') {b b' : String}
    (hb : w.access b idx b' idx') (hp : ev.load env lay b idx = some p) :
    ∃ q, ev.load env' lay' b' idx' = some q ∧ S.terms lay lay' (.load p) (.load q) := by
  obtain ⟨hp, s, hs, hsize⟩ := load_eq_some.1 hp
  obtain ⟨q, hq, hplace⟩ := hw.place hlay h hb hp
  obtain ⟨hslot, hterm⟩ := S.load hlay hq hs hsize
  exact ⟨q, load_eq_some.2 ⟨hplace, hslot⟩, hterm⟩

/-- Reworded data has a related value. -/
theorem term (hlay : S.layouts lay lay') (h : E env env') {e e' : Expr} (he : w.Data e e') {t : Term}
    (ht : ev.term env lay e = some t) :
    ∃ t', ev.term env' lay' e' = some t' ∧ S.terms lay lay' t t' := by
  induction he generalizing t with
  | var v =>
    obtain ⟨n, hn, rfl⟩ := Evaluator.term_var.1 ht
    exact hw.value lay lay' h hn
  | int n =>
    cases ht
    exact ⟨_, rfl, S.word n⟩
  | float x =>
    cases ht
    exact ⟨_, rfl, S.float x⟩
  | read hb =>
    obtain ⟨p, hp, rfl⟩ := term_read.1 ht
    obtain ⟨q, hload, hterm⟩ := hw.load hlay h hb hp
    exact ⟨.load q, term_read.2 ⟨q, hload, rfl⟩, hterm⟩
  | @binary op _ _ _ _ _ _ ihl ihr =>
    obtain ⟨hop, tl, tr, hl, hr, rfl⟩ := term_binary.1 ht
    obtain ⟨tl', hl', hterml⟩ := ihl hl
    obtain ⟨tr', hr', htermr⟩ := ihr hr
    exact ⟨_, term_binary.2 ⟨hop, tl', tr', hl', hr', rfl⟩, S.binary op hterml htermr⟩
  | neg _ ih =>
    obtain ⟨u, hu, rfl⟩ := term_neg.1 ht
    obtain ⟨u', hu', hterm⟩ := ih hu
    exact ⟨.neg u', term_neg.2 ⟨u', hu', rfl⟩, S.neg hterm⟩

/-- Callees get related views under the names of their parameters. -/
theorem enter (h : E env env') (hargs : List.Forall₂ w.window args args') {params : List Param}
    {inner inner' r : Env} (hinner : S.envs inner inner')
    (he : ev.enter env inner (params.zip args) = some r) :
    ∃ r', ev.enter env' inner' (params.zip args') = some r' ∧ S.envs r r' := by
  induction hargs generalizing params inner inner' with
  | nil =>
    rw [List.zip_nil_right] at he ⊢
    cases he
    exact ⟨inner', rfl, hinner⟩
  | @cons a a' _ _ ha _ ih =>
    cases params with
    | nil =>
      cases he
      exact ⟨inner', rfl, hinner⟩
    | cons p params =>
      simp only [List.zip_cons_cons, Evaluator.enter, option_bind_eq_some] at he ⊢
      obtain ⟨v, hv, he⟩ := he
      obtain ⟨v', hv', hviews⟩ := hw.view h ha hv
      obtain ⟨r', hr', hrel⟩ := ih (S.envs_bind p.name hinner hviews) he
      exact ⟨r', ⟨v', hv', hr'⟩, hrel⟩

end parts

/-! ### Statements -/

section statements

variable {c : Catalog} {callee : Callee} {body body' : Block}

/-- All rounds start from related layouts, for each gives back what it allocates. -/
theorem loop (hc : callee.Closed) {h : Header} (hvar : w.binds h.var)
    (hbody : S.Follows E (traceAll ev c callee · · body) (traceAll ev c callee · · body')) :
    S.Follows E ((Stmt.loop h body).trace ev c callee · ·)
      ((Stmt.loop { h with bound := w.index h.bound } body').trace ev c callee · ·) := by
  intro env env' e lay lay' acts hlay henv ht
  obtain ⟨n, g, hn, hg, ⟨⟩⟩ := trace_loop.1 ht
  have hround : ∀ k < n.toInt.toNat, ∃ x f, traceAll ev c callee
      (env'.turn h k) lay' body' = some (x, f) ∧
        S.actions lay lay' (scope lay (g k)) (scope lay' x) := by
    intro k hk
    obtain ⟨f, hf⟩ := hg k hk
    obtain ⟨x, f', hx, hact, -⟩ := hbody hlay (hw.bind_index (Int64.ofNat k) hvar henv) hf
    exact ⟨x, f', hx, S.scope hlay (traceAll_grows hc _ hf) (traceAll_grows hc _ hx) hact⟩
  choose! g' f' hg' hact using hround
  refine ⟨_, env', trace_loop.2 ⟨n, g', hw.keeps henv _ n hn, fun k hk => ⟨_, hg' k hk⟩, rfl⟩,
    Simulation.rounds hlay fun k hk => ?_, henv⟩
  have hk := List.mem_range.1 hk
  obtain ⟨f, hf⟩ := hg k hk
  exact ⟨hact k hk, scope_traceAll_closes hc hf, scope_traceAll_closes hc (hg' k hk)⟩

theorem guard (hc : callee.Closed) (cond : Expr)
    (hbody : S.Follows E (traceAll ev c callee · · body) (traceAll ev c callee · · body')) :
    S.Follows E ((Stmt.guard cond body).trace ev c callee · ·)
      ((Stmt.guard (w.index cond) body').trace ev c callee · ·) := by
  intro env env' e lay lay' acts hlay henv ht
  have hcond : ∀ {t}, ev.condition env cond = some t →
      ev.condition env' (w.index cond) = some t := (hw.keeps henv).condition hw.operands
  obtain ⟨hfalse, ⟨⟩⟩ | ⟨htrue, x, e', hx, ⟨⟩⟩ := trace_guard.1 ht
  · exact ⟨[], env', trace_guard.2 (.inl ⟨hcond hfalse, rfl⟩), S.nil hlay, henv⟩
  · obtain ⟨y, f, hy, hact, -⟩ := hbody hlay henv hx
    exact ⟨_, env', trace_guard.2 (.inr ⟨hcond htrue, y, f, hy, rfl⟩),
      S.scope hlay (traceAll_grows hc _ hx) (traceAll_grows hc _ hy) hact, henv⟩

theorem store (u : Update) {b b' : String} {rhs rhs' : Expr}
    (hb : w.access b idx b' idx') (hrhs : w.Data rhs rhs') :
    S.Follows E ((Stmt.store u b idx rhs).trace ev c callee · ·)
      ((Stmt.store u b' idx' rhs').trace ev c callee · ·) := by
  intro env env' e lay lay' acts hlay henv ht
  obtain ⟨t, p, hterm, hp, ⟨⟩⟩ := trace_store.1 ht
  obtain ⟨t', hterm', hvalue⟩ := hw.term hlay henv hrhs hterm
  obtain ⟨q, hq, hplace⟩ := hw.place hlay henv hb hp
  exact ⟨_, env', trace_store.2 ⟨t', q, hterm', hplace, rfl⟩,
    S.store u hlay (hasPlace hp) hq hvalue, henv⟩

theorem alloc {d : Decl} (hname : w.binds d.name) :
    S.Follows E ((Stmt.alloc d).trace ev c callee · ·)
      ((Stmt.alloc { d with name := w.name d.name, shape := d.shape.map w.index }).trace ev c
        callee · ·) := by
  intro env env' e lay lay' acts hlay henv ht
  obtain ⟨shape, size, hshape, hsize, ⟨⟩⟩ := trace_alloc.1 ht
  exact ⟨_, _, trace_alloc.2 ⟨shape, size, (hw.keeps henv).extents hshape, hsize, rfl⟩,
    S.alloc d.ty shape size hlay, hw.bind_whole shape hname hlay henv⟩

theorem call (hcallee : S.Keeps callee) (name : String)
    (hargs : List.Forall₂ w.window args args') :
    S.Follows E ((Stmt.call name args).trace ev c callee · ·)
      ((Stmt.call name args').trace ev c callee · ·) := by
  intro env env' e lay lay' acts hlay henv ht
  obtain ⟨t, inner, x, hfind, hlen, hinner, hx, ⟨⟩⟩ := trace_call.1 ht
  obtain ⟨inner', hinner', hrel⟩ := hw.enter henv hargs S.envs_nil hinner
  obtain ⟨y, hy, hact⟩ := hcallee hlay hrel hx
  exact ⟨y, env', trace_call.2
    ⟨t, inner', y, hfind, hlen.trans hargs.length_eq, hinner', hy, rfl⟩, hact, henv⟩

end statements

end Sound

/-- **A reworded block follows the block.** -/
theorem Turns.traceAll {c : Catalog} {callee : Callee} (hw : w.Sound S ev E) (hc : callee.Closed)
    (hcallee : S.Keeps callee) {b b' : Block} (h : w.Turns b b') :
    S.Follows E (traceAll ev c callee · · b) (traceAll ev c callee · · b') := by
  induction h with
  | nil =>
    intro env env' e lay lay' acts hlay henv ht
    obtain ⟨⟩ := traceAll_nil.1 ht
    exact ⟨[], env', traceAll_nil.2 rfl, S.nil hlay, henv⟩
  | loop hvar _ _ ihbody ihrest => exact .cons hc (hw.loop hc hvar ihbody) ihrest
  | guard _ _ ihbody ihrest => exact .cons hc (hw.guard hc _ ihbody) ihrest
  | store hb hrhs _ ih => exact .cons hc (hw.store _ hb hrhs) ih
  | alloc hname _ ih => exact .cons hc (hw.alloc hname) ih
  | call hargs _ ih => exact .cons hc (hw.call hcallee _ hargs) ih
  | drop hs _ ih =>
    intro env env' e lay lay' acts hlay henv ht
    obtain ⟨a, e₁, a₂, e₂, ha, ha₂, ⟨⟩⟩ := traceAll_cons.1 ht
    obtain ⟨hact, hE⟩ := hw.omits hs hlay henv ha
    obtain ⟨x, f, hx, hact', hE'⟩ := ih (S.after hlay hact) hE ha₂
    exact ⟨x, f, hx, S.append (trace_grows hc ha).2 hact hact', hE'⟩

end Rewording

end LoopNest
